import Holocron.Registry.Concurrent
import Holocron.Theorems.Registry.Versions

/-! As long as calls of Register on a subject do not overlap, each version is related to every earlier one as the mode
    demands. -/

namespace Holocron.Schemas
open Lib Groups List

def Demands : Compatibility → List Bytes → List Bytes → Prop
  | .backward, old, new => new ⊆ old
  | .forward, old, new => old ⊆ new
  | .full, old, new => old ⊆ new ∧ new ⊆ old
  | _, _, _ => True

variable {mode : Compatibility} {J : Json} {subject : Bytes} {s : Service}

theorem Demands.trans {a b c : List Bytes} (h : Demands mode a b) (h' : Demands mode b c) : Demands mode a c := by
  cases mode with
  | backward => exact Subset.trans h' h
  | forward => exact Subset.trans h h'
  | full => exact ⟨Subset.trans h.1 h'.1, Subset.trans h'.2 h.2⟩
  | none | other => trivial

/-- The fields that the texts require are as the mode demands. -/
def Related (J : Json) (mode : Compatibility) (old new : Bytes) : Prop :=
  ∃ a b, requiredFields J old = some a ∧ requiredFields J new = some b ∧ Demands mode a b

theorem Related.trans {x y z : Bytes} (h : Related J mode x y) (h' : Related J mode y z) : Related J mode x z := by
  obtain ⟨a, b, hx, hy, hab⟩ := h
  obtain ⟨b', c, hy', hz, hbc⟩ := h'
  obtain rfl : b = b' := Option.some.inj (hy.symm.trans hy')
  exact ⟨a, c, hx, hz, hab.trans hbc⟩

theorem requiredFields_valid (J : Json) (text : Bytes) : requiredFields J (toValidUTF8 text) = requiredFields J text := by
  rw [requiredFields, requiredFields, J.decode_valid]

theorem Related.valid {x y : Bytes} (h : Related J mode x y) : Related J mode (toValidUTF8 x) (toValidUTF8 y) := by
  obtain ⟨a, b, hx, hy, hab⟩ := h
  exact ⟨a, b, (requiredFields_valid J x).trans hx, (requiredFields_valid J y).trans hy, hab⟩

namespace Service

theorem setDiff_eq_nil_iff {a b : List Bytes} : setDiff a b = [] ↔ a ⊆ b := by
  unfold setDiff sortStrings
  constructor
  · intro h k hk
    by_contra hnot
    have hmem : k ∈ ((a.filter fun k => decide (k ∉ b)).dedup).insertionSort (· ≤ ·) := by
      rw [mem_insertionSort, mem_dedup, mem_filter]
      exact ⟨hk, decide_eq_true hnot⟩
    rw [h] at hmem
    cases hmem
  · intro h
    have hnil : (a.filter fun k => decide (k ∉ b)) = [] := filter_eq_nil_iff.mpr fun k hk hnot => of_decide_eq_true hnot (h hk)
    rw [hnil]
    rfl

theorem demands_of_compatible {a b : List Bytes} {ok : Bool} (h : compatible mode a b = .ok ok) : Demands mode a b := by
  unfold compatible at h
  cases mode with
  | backward =>
    dsimp only at h
    split at h
    · cases h
    · rename_i hadded
      exact setDiff_eq_nil_iff.mp (not_not.mp hadded)
  | forward =>
    dsimp only at h
    split at h
    · cases h
    · rename_i hdropped
      exact setDiff_eq_nil_iff.mp (not_not.mp hdropped)
  | full =>
    dsimp only at h
    split at h
    · cases h
    rename_i hadded
    split at h
    · cases h
    rename_i hdropped
    exact ⟨setDiff_eq_nil_iff.mp (not_not.mp hdropped), setDiff_eq_nil_iff.mp (not_not.mp hadded)⟩
  | none | other => trivial

/-- The modes that are checked. -/
def Enforced : Compatibility → Prop
  | .backward | .forward | .full => True
  | _ => False

theorem related_of_enforce {text : Bytes} (enforced : Enforced (s.getCompatibility subject))
    (h : s.enforce J subject text = .ok ()) : ∀ latest ∈ (s.versions subject).getLast?,
      Related J (s.getCompatibility subject) latest.schema text := by
  intro latest hlatest
  have hlast : s.getLatest subject = .ok latest := by
    unfold getLatest
    rw [hlatest]
  have hcheck : s.checkCompatibility J subject text (s.getCompatibility subject) =
      (requiredFields J latest.schema).elim (.error .parseExisting) fun oldRequired =>
        (requiredFields J text).elim (.error .parseCandidate) fun newRequired =>
        compatible (s.getCompatibility subject) oldRequired newRequired := by
    unfold checkCompatibility
    rw [hlast]
    cases hmode : s.getCompatibility subject with
    | none | other =>
      rw [hmode] at enforced
      exact enforced.elim
    | backward | forward | full =>
      dsimp only
      cases requiredFields J latest.schema <;> cases requiredFields J text <;> rfl
  have hne : ¬ (s.getCompatibility subject = .none ∨ s.getCompatibility subject = .other []) := by
    rintro (hmode | hmode) <;> rw [hmode] at enforced <;> exact enforced
  unfold enforce at h
  rw [if_neg hne, hcheck] at h
  cases hold : requiredFields J latest.schema with
  | none =>
    rw [hold] at h
    cases h
  | some a =>
    cases hnew : requiredFields J text with
    | none =>
      rw [hold, hnew] at h
      cases h
    | some b =>
      rw [hold, hnew] at h
      dsimp only [Option.elim] at h
      cases hcompatible : compatible (s.getCompatibility subject) a b with
      | error e =>
        rw [hcompatible] at h
        cases h
      | ok ok => exact ⟨a, b, hold, hnew, demands_of_compatible hcompatible⟩

end Service

namespace Concurrent

def Stage.number : Stage → Option Int
  | .numbered n | .checked n | .produced n _ => some n
  | _ => none

def Stage.Produced : Stage → Prop
  | .produced _ _ => True
  | _ => False

variable {stage : Stage}

theorem Stage.not_produced (h : stage.number = none) : ¬ stage.Produced := by
  cases stage with
  | produced n id => cases h
  | start | numbered | checked | done => exact id

inductive Stepped (J : Json) (s : State) : Action → State → Prop where
  | registered {subject text : Bytes} :
      Stepped J s (.register subject text) { s with calls := s.calls ++ [⟨subject, text, .start⟩] }
  | waits {i : Nat} {sent : Sent} : Stepped J s (.run i sent) s
  | read {i : Nat} {sent : Sent} {c : Call} (call : s.calls[i]? = some c) (at_ : c.stage = .start) :
      Stepped J s (.run i sent) (s.setStage i c (.numbered ((s.service.versions c.subject).length + 1)))
  | checked {i : Nat} {sent : Sent} {c : Call} {n : Int} (call : s.calls[i]? = some c) (at_ : c.stage = .numbered n)
      (passed : s.service.enforce J c.subject c.text = .ok ()) : Stepped J s (.run i sent) (s.setStage i c (.checked n))
  | ended {i : Nat} {sent : Sent} {c : Call} (call : s.calls[i]? = some c) (at_ : ¬ c.stage.Produced) :
      Stepped J s (.run i sent) (s.setStage i c .done)
  | produced {i : Nat} {c : Call} {n : Int} (call : s.calls[i]? = some c) (at_ : c.stage = .checked n) :
      Stepped J s (.run i .ok)
        (State.setStage { s with topic := append s.topic (registration J c.subject c.text n) } i c (.produced n s.topic.length))
  | lost {i : Nat} {c : Call} {n : Int} (call : s.calls[i]? = some c) (at_ : c.stage = .checked n) :
      Stepped J s (.run i (.failed true))
        (State.setStage { s with topic := append s.topic (registration J c.subject c.text n) } i c .done)
  | applied {i : Nat} {sent : Sent} {c : Call} {n id : Int} (call : s.calls[i]? = some c) (at_ : c.stage = .produced n id) :
      Stepped J s (.run i sent) (State.setStage { s with service := s.service.applyLocked ⟨id, c.subject, n, c.text⟩ } i
        c .done)

theorem stepped (J : Json) (s : State) (a : Action) : Stepped J s a (s.step J a) := by
  cases a with
  | register subject text => exact .registered
  | run i sent =>
    change Stepped J s (.run i sent) (s.run J i sent)
    unfold State.run
    cases call : s.calls[i]? with
    | none => exact .waits
    | some c =>
      dsimp only
      cases at_ : c.stage with
      | start =>
        unfold State.read
        dsimp only
        have hnot : ¬ c.stage.Produced := by rw [at_]; exact id
        split
        · split
          · exact .ended call hnot
          · exact .read call at_
        · exact .read call at_
      | numbered n =>
        dsimp only
        have hnot : ¬ c.stage.Produced := by rw [at_]; exact id
        split
        · exact .ended call hnot
        · rename_i passed
          exact .checked call at_ passed
      | checked n =>
        have hnot : ¬ c.stage.Produced := by rw [at_]; exact id
        match sent with
        | .ok => exact .produced call at_
        | .failed true => exact .lost call at_
        | .failed false => exact .ended call hnot
      | produced n id => exact .applied call at_
      | done => exact .waits

theorem getElem?_setStage {s : State} {i j : Nat} {c d : Call} (h : (s.setStage i c stage).calls[j]? = some d) :
    j = i ∧ d = { c with stage := stage } ∨ j ≠ i ∧ s.calls[j]? = some d := of_getElem?_set h

def lastText (s : Service) (subject : Bytes) : Option Bytes := (s.versions subject).getLast?.map Schema.schema

variable {J : Json} {q : Bytes} {mode : Compatibility} {t : Service}

theorem lastText_congr (h : s.versions q = t.versions q) : lastText s q = lastText t q := by
  unfold lastText
  rw [h]

/-- What replay makes of the topic: related versions, of which the latest is the one of the live Service or of the call
    that is still to apply its record. -/
structure Rebuilt (J : Json) (q : Bytes) (mode : Compatibility) (s : State) (t : Service) : Prop where
  replay : Service.new.replay J s.topic = .ok t
  related : (t.versions q).Pairwise fun a b => Related J mode a.schema b.schema
  settled : (∀ (i : Nat) (c : Call), s.calls[i]? = some c → c.subject = q → ¬ c.stage.Produced) →
    lastText t q = (lastText s.service q).map toValidUTF8
  pending {i : Nat} {c : Call} : s.calls[i]? = some c → c.subject = q → c.stage.Produced →
    lastText t q = some (toValidUTF8 c.text)

structure Inv (J : Json) (q : Bytes) (mode : Compatibility) (s : State) : Prop where
  mode_eq : s.service.getCompatibility q = mode
  gapless : s.service.Gapless q
  alone {i j : Nat} {c d : Call} : s.calls[i]? = some c → s.calls[j]? = some d → c.subject = q → d.subject = q →
    c.stage.number.isSome → d.stage.number.isSome → i = j
  number {i : Nat} {c : Call} {n : Int} : s.calls[i]? = some c → c.subject = q → c.stage.number = some n →
    n = (s.service.versions q).length + 1
  passed {i : Nat} {c : Call} {n : Int} : s.calls[i]? = some c → c.subject = q → c.stage = .checked n →
    ∀ latest ∈ (s.service.versions q).getLast?, Related J mode latest.schema c.text
  rebuilt : ∃ t, Rebuilt J q mode s t

/-- A call on the subject starts only when no other is under way, and no Send fails that has stored its record. -/
def Serial (q : Bytes) (s : State) : Action → Prop
  | .register _ _ => True
  | .run i sent => ∀ c ∈ s.calls[i]?, c.subject = q → sent ≠ .failed true ∧
      (c.stage = .start → ∀ d ∈ s.calls, d.subject = q → d.stage.number = none)

instance (q : Bytes) (s : State) (a : Action) : Decidable (Serial q s a) := by
  cases a <;> unfold Serial <;> infer_instance

theorem replay_registration {topic : List Record} (h : Service.new.replay J topic = .ok t) (subject text : Bytes) (n : Int) :
    Service.new.replay J (append topic (registration J subject text n)) =
      .ok (t.applyRegistration subject (toValidUTF8 text) topic.length) := by
  rw [append, Service.replay, runAll_concat]
  rw [Service.replay] at h
  rw [h]
  change t.applyRecord J { registration J subject text n with offset := topic.length } = _
  rw [Service.applyRecord_eq, (Writes.register (J := J) subject text n).decode]
  rfl

theorem versions_applyRegistration_other (hne : q ≠ subject) (text : Bytes) (id : Int) :
    (t.applyRegistration subject text id).versions q = t.versions q := by
  unfold Service.applyRegistration
  split
  · split
    · rw [Service.noteID_versions]
      rfl
    · rw [Service.versions_addVersion, if_neg hne]
  · rw [Service.versions_addVersion, if_neg hne]

/-- Replay of a registration adds its text as a version unless the latest version has it. -/
theorem versions_applyRegistration (t : Service) (subject text : Bytes) (id : Int) :
    (t.applyRegistration subject text id).versions subject = t.versions subject ∧ lastText t subject = some text ∨
      (t.applyRegistration subject text id).versions subject = t.versions subject ++
        [⟨id, subject, (t.versions subject).length + 1, text⟩] := by
  unfold Service.applyRegistration lastText
  cases (t.versions subject).getLast? with
  | none =>
    refine .inr ?_
    rw [Service.versions_addVersion, if_pos rfl]
  | some latest =>
    dsimp only
    split
    · rename_i hsame
      refine .inl ⟨?_, congrArg some hsame⟩
      rw [Service.noteID_versions]
      rfl
    · refine .inr ?_
      rw [Service.versions_addVersion, if_pos rfl]

theorem lastText_applyRegistration (t : Service) (subject text : Bytes) (id : Int) :
    lastText (t.applyRegistration subject text id) subject = some text := by
  rcases versions_applyRegistration t subject text id with ⟨hsame, hlast⟩ | hnew
  · exact (lastText_congr hsame).trans hlast
  · unfold lastText
    rw [hnew, getLast?_concat]
    rfl

theorem versions_applyLocked_other {sc : Schema} (hne : q ≠ sc.subject) : (t.applyLocked sc).versions q = t.versions q := by
  rw [Service.applyLocked, Service.noteID_versions, Service.versions_set, if_neg hne]

theorem getCompatibility_applyLocked (s : Service) (sc : Schema) (subject : Bytes) :
    (s.applyLocked sc).getCompatibility subject = s.getCompatibility subject := by
  unfold Service.applyLocked Service.noteID
  split <;> rfl

namespace Inv

variable {s s' : State} {i : Nat} {c : Call} {stage : Stage}

section
variable (h : Inv J q mode s) (call : s.calls[i]? = some c) {n : Int}
include h call

theorem other (hne : c.subject ≠ q) (hcalls : s'.calls = (s.setStage i c stage).calls)
    (hversions : s'.service.versions q = s.service.versions q)
      (hmode : s'.service.getCompatibility q = s.service.getCompatibility q)
    (htopic : ∀ t, Service.new.replay J s.topic = .ok t → ∃ t', Service.new.replay J s'.topic = .ok t' ∧
      t'.versions q = t.versions q) : Inv J q mode s' := by
  have hold : ∀ {j : Nat} {d}, s'.calls[j]? = some d → d.subject = q → s.calls[j]? = some d := by
    intro j d hd hdq
    rw [hcalls] at hd
    rcases getElem?_setStage hd with ⟨-, rfl⟩ | ⟨-, hd⟩
    · exact absurd hdq hne
    · exact hd
  have hnew : ∀ {j : Nat} {d}, s.calls[j]? = some d → d.subject = q → s'.calls[j]? = some d := by
    intro j d hd hdq
    have hij : i ≠ j := by
      rintro rfl
      rw [call] at hd
      cases hd
      exact hne hdq
    rw [hcalls]
    exact (getElem?_set_ne hij).trans hd
  obtain ⟨t, ht⟩ := h.rebuilt
  obtain ⟨t', hreplay, hversions'⟩ := htopic t ht.replay
  refine ⟨hmode.trans h.mode_eq, ?_, fun hc hd hcq hdq => h.alone (hold hc hcq) (hold hd hdq) hcq hdq,
    fun hc hcq hn => ?_, fun hc hcq hn => ?_, t', hreplay, ?_, fun hnone => ?_, fun hc hcq hp => ?_⟩
  · unfold Service.Gapless
    rw [hversions]
    exact h.gapless
  · rw [hversions]
    exact h.number (hold hc hcq) hcq hn
  · rw [hversions]
    exact h.passed (hold hc hcq) hcq hn
  · rw [hversions']
    exact ht.related
  · rw [lastText_congr hversions', lastText_congr hversions]
    exact ht.settled fun j d hd hdq => hnone j d (hnew hd hdq) hdq
  · rw [lastText_congr hversions']
    exact ht.pending (hold hc hcq) hcq hp

theorem restage (hnot : ¬ c.stage.Produced) (hnot' : ¬ stage.Produced)
    (alone : stage.number.isSome → ∀ j d, j ≠ i → s.calls[j]? = some d → d.subject = q → d.stage.number = none)
    (number : ∀ n, stage.number = some n → n = (s.service.versions q).length + 1)
    (passed : ∀ n, stage = .checked n → ∀ latest ∈ (s.service.versions q).getLast?, Related J mode latest.schema c.text) :
    Inv J q mode (s.setStage i c stage) := by
  obtain ⟨t, ht⟩ := h.rebuilt
  refine ⟨h.mode_eq, h.gapless, fun {j k d e} hd he hdq heq hdn hen => ?_, fun {j d n} hd hdq hn => ?_,
    fun {j d n} hd hdq hn => ?_, t, ht.replay, ht.related,
    fun hnone => ht.settled fun j d hd hdq hp => ?_, fun {j d} hd hdq hp => ?_⟩
  · rcases getElem?_setStage hd with ⟨hj, rfl⟩ | ⟨hj, hd'⟩ <;> rcases getElem?_setStage he with ⟨hk, rfl⟩ | ⟨hk, he'⟩
    · exact hj.trans hk.symm
    · rw [alone hdn k e hk he' heq] at hen
      cases hen
    · rw [alone hen j d hj hd' hdq] at hdn
      cases hdn
    · exact h.alone hd' he' hdq heq hdn hen
  · rcases getElem?_setStage hd with ⟨-, rfl⟩ | ⟨-, hd⟩
    · exact number n hn
    · exact h.number hd hdq hn
  · rcases getElem?_setStage hd with ⟨-, rfl⟩ | ⟨-, hd⟩
    · exact passed n hn
    · exact h.passed hd hdq hn
  · by_cases hj : j = i
    · rw [hj, call] at hd
      cases hd
      exact hnot hp
    · exact hnone j d ((getElem?_set_ne (Ne.symm hj)).trans hd) hdq hp
  · rcases getElem?_setStage hd with ⟨-, rfl⟩ | ⟨-, hd⟩
    · exact absurd hp hnot'
    · exact ht.pending hd hdq hp

/-- While a call on the subject is under way, the others are not. -/
theorem others (hq : c.subject = q) (hn : c.stage.number = some n) {j : Nat} {d : Call}
    (hj : j ≠ i) (hd : s.calls[j]? = some d) (hdq : d.subject = q) : d.stage.number = none := by
  by_contra hsome
  exact hj (h.alone hd call hdq hq (Option.isSome_iff_ne_none.mpr hsome) (by rw [hn]; rfl))

theorem produced (hq : c.subject = q) (at_ : c.stage = .checked n) :
    Inv J q mode (State.setStage { s with topic := append s.topic (registration J c.subject c.text n) } i c
      (.produced n s.topic.length)) := by
  obtain ⟨t, ht⟩ := h.rebuilt
  have hnumber : c.stage.number = some n := by rw [at_]; rfl
  have hothers := fun {j} {d} => h.others call hq hnumber (j := j) (d := d)
  -- no call has a record to apply, so that replay ends with the version that was compared
  have hsettled := ht.settled fun j d hd hdq hp => by
    by_cases hj : j = i
    · rw [hj, call] at hd
      cases hd
      rw [at_] at hp
      exact hp
    · exact Stage.not_produced (hothers hj hd hdq) hp
  have hrelated : ∀ a ∈ t.versions q, Related J mode a.schema (toValidUTF8 c.text) := by
    intro a ha
    obtain ⟨init, last, hsplit⟩ := eq_nil_or_concat (t.versions q) |>.resolve_left (ne_nil_of_mem ha)
    rw [concat_eq_append] at hsplit
    have hlast : Related J mode last.schema (toValidUTF8 c.text) := by
      have htext : lastText t q = some last.schema := by
        unfold lastText
        rw [hsplit, getLast?_concat]
        rfl
      rw [htext] at hsettled
      obtain ⟨x, hx, hxlast⟩ := Option.map_eq_some_iff.mp hsettled.symm
      obtain ⟨latest, hlatest, rfl⟩ := Option.map_eq_some_iff.mp hx
      rw [← hxlast]
      exact (h.passed call hq at_ latest hlatest).valid
    rw [hsplit] at ha
    rcases mem_append.mp ha with ha | ha
    · have hpairs := ht.related
      rw [hsplit] at hpairs
      exact ((pairwise_append.mp hpairs).2.2 a ha last mem_cons_self).trans hlast
    · rw [mem_singleton.mp ha]
      exact hlast
  refine ⟨h.mode_eq, h.gapless, fun {j k d e} hd he hdq heq hdn hen => ?_, fun {j d m} hd hdq hm => ?_,
    fun {j d m} hd hdq hm => ?_, _,
    replay_registration ht.replay c.subject c.text n, ?_, fun hnone => ?_, fun {j d} hd hdq hp => ?_⟩
  · rcases getElem?_setStage hd with ⟨hj, rfl⟩ | ⟨hj, hd'⟩ <;> rcases getElem?_setStage he with ⟨hk, rfl⟩ | ⟨hk, he'⟩
    · exact hj.trans hk.symm
    · rw [hothers hk he' heq] at hen
      cases hen
    · rw [hothers hj hd' hdq] at hdn
      cases hdn
    · exact h.alone hd' he' hdq heq hdn hen
  · rcases getElem?_setStage hd with ⟨-, rfl⟩ | ⟨-, hd'⟩
    · cases hm
      exact h.number call hq hnumber
    · exact h.number hd' hdq hm
  · rcases getElem?_setStage hd with ⟨-, rfl⟩ | ⟨-, hd'⟩
    · cases hm
    · exact h.passed hd' hdq hm
  · rw [hq]
    rcases versions_applyRegistration t q (toValidUTF8 c.text) s.topic.length with ⟨hsame, -⟩ | hnew
    · rw [hsame]
      exact ht.related
    · rw [hnew, pairwise_append]
      refine ⟨ht.related, pairwise_singleton _ _, fun a ha b hb => ?_⟩
      rw [mem_singleton.mp hb]
      exact hrelated a ha
  · have hget := List.getElem?_set_self (a := { c with stage := .produced n s.topic.length })
      (List.getElem?_eq_some_iff.mp call).1
    exact absurd trivial (hnone i _ hget hq)
  · rcases getElem?_setStage hd with ⟨-, rfl⟩ | ⟨hj, hd'⟩
    · rw [hq]
      exact lastText_applyRegistration t q _ _
    · exact absurd hp (Stage.not_produced (hothers hj hd' hdq))

theorem applied (hq : c.subject = q) {id : Int} (at_ : c.stage = .produced n id) :
    Inv J q mode (State.setStage { s with service := s.service.applyLocked ⟨id, c.subject, n, c.text⟩ } i c .done) := by
  obtain ⟨t, ht⟩ := h.rebuilt
  have hnumber : c.stage.number = some n := by rw [at_]; rfl
  have hothers := fun {j} {d} => h.others call hq hnumber (j := j) (d := d)
  -- the number is the next one, so that the version goes to the end
  have hversions : (s.service.applyLocked ⟨id, c.subject, n, c.text⟩).versions q =
      s.service.versions q ++ [⟨id, q, (s.service.versions q).length + 1, c.text⟩] := by
    have happlied := h.gapless.applied c.text id
    change s.service.applyLocked ⟨id, q, (s.service.versions q).length + 1, c.text⟩ = _ at happlied
    rw [h.number call hq hnumber, hq, happlied, Service.versions_addVersion, if_pos rfl]
  have hquiet : ∀ {j : Nat} {d}, (s.setStage i c .done).calls[j]? = some d → d.subject = q → d.stage.number = none := by
    intro j d hd hdq
    rcases getElem?_setStage hd with ⟨-, rfl⟩ | ⟨hj, hd'⟩
    · rfl
    · exact hothers hj hd' hdq
  refine ⟨(getCompatibility_applyLocked _ _ _).trans h.mode_eq, fun sc hsc => ?_, fun hd _ hdq _ hdn => ?_,
    fun hd hdq hm => ?_, fun hd hdq hm => ?_, t, ht.replay,
    ht.related, fun _ => ?_, fun hd hdq hp => absurd hp (Stage.not_produced (hquiet hd hdq))⟩
  · change sc.version ≤ ((s.service.applyLocked ⟨id, c.subject, n, c.text⟩).versions q).length
    change sc ∈ (s.service.applyLocked ⟨id, c.subject, n, c.text⟩).versions q at hsc
    rw [hversions] at hsc ⊢
    rw [length_append]
    rcases mem_append.mp hsc with hsc | hsc
    · exact (h.gapless sc hsc).trans (Int.le_of_lt (Int.lt_succ _))
    · rw [mem_singleton.mp hsc]
      exact le_refl _
  · rw [hquiet hd hdq] at hdn
    cases hdn
  · rw [hquiet hd hdq] at hm
    cases hm
  · have hnone := hquiet hd hdq
    rw [hm] at hnone
    cases hnone
  · have hlast : lastText (s.service.applyLocked ⟨id, c.subject, n, c.text⟩) q = some c.text := by
      unfold lastText
      rw [hversions, getLast?_concat]
      rfl
    change lastText t q = (lastText (s.service.applyLocked ⟨id, c.subject, n, c.text⟩) q).map toValidUTF8
    rw [hlast]
    exact ht.pending call hq (by rw [at_]; trivial)

end

theorem registered (h : Inv J q mode s) (subject text : Bytes) :
    Inv J q mode { s with calls := s.calls ++ [⟨subject, text, .start⟩] } := by
  have hold : ∀ {j : Nat} {d}, (s.calls ++ [⟨subject, text, .start⟩])[j]? = some d → s.calls[j]? = some d ∨
      d.stage = .start := by
    intro j d hd
    rcases Nat.lt_or_ge j s.calls.length with hj | hj
    · exact .inl ((List.getElem?_append_left hj).symm.trans hd)
    · rw [List.getElem?_append_right hj] at hd
      rw [mem_singleton.mp (mem_of_getElem? hd)]
      exact .inr rfl
  obtain ⟨t, ht⟩ := h.rebuilt
  refine ⟨h.mode_eq, h.gapless, fun {j k d e} hd he hdq heq hdn hen => ?_, fun {j d m} hd hdq hm => ?_,
    fun {j d m} hd hdq hm => ?_, t, ht.replay, ht.related,
    fun hnone => ht.settled fun j d hd hdq => hnone j d ?_ hdq, fun {j d} hd hdq hp => ?_⟩
  · rcases hold hd with hd | hd
    · rcases hold he with he | he
      · exact h.alone hd he hdq heq hdn hen
      · rw [he] at hen
        cases hen
    · rw [hd] at hdn
      cases hdn
  · rcases hold hd with hd | hd
    · exact h.number hd hdq hm
    · rw [hd] at hm
      cases hm
  · rcases hold hd with hd | hd
    · exact h.passed hd hdq hm
    · rw [hd] at hm
      cases hm
  · exact (List.getElem?_append_left (List.getElem?_eq_some_iff.mp hd).1).trans hd
  · rcases hold hd with hd | hd
    · exact ht.pending hd hdq hp
    · rw [hd] at hp
      exact hp.elim

theorem step (enforced : Service.Enforced mode) (h : Inv J q mode s) {a : Action} (serial : Serial q s a) :
    Inv J q mode (s.step J a) := by
  have hstep := stepped J s a
  generalize s.step J a = s' at hstep
  cases hstep with
  | registered => exact h.registered _ _
  | waits => exact h
  | @read i sent c call at_ =>
    by_cases hq : c.subject = q
    · refine h.restage call (by rw [at_]; exact id) id (fun _ j d _ hd hdq =>
        (serial c call hq).2 at_ d (mem_of_getElem? hd) hdq) (fun n hn => ?_) nofun
      cases hn
      rw [hq]
    · exact h.other call hq rfl rfl rfl fun t ht => ⟨t, ht, rfl⟩
  | @checked i sent c n call at_ passed =>
    by_cases hq : c.subject = q
    · have hnumber : c.stage.number = some n := by rw [at_]; rfl
      refine h.restage call (by rw [at_]; exact id) id (fun _ j d hj hd hdq => h.others call hq hnumber hj hd hdq)
        (fun m hm => ?_) fun _ _ => ?_
      · cases hm
        exact h.number call hq hnumber
      · rw [hq] at passed
        rw [← h.mode_eq]
        exact Service.related_of_enforce (by rw [h.mode_eq]; exact enforced) passed
    · exact h.other call hq rfl rfl rfl fun t ht => ⟨t, ht, rfl⟩
  | @ended i sent c call at_ =>
    by_cases hq : c.subject = q
    · exact h.restage call at_ id nofun nofun nofun
    · exact h.other call hq rfl rfl rfl fun t ht => ⟨t, ht, rfl⟩
  | @produced i c n call at_ =>
    by_cases hq : c.subject = q
    · exact h.produced call hq at_
    · refine h.other call hq rfl rfl rfl fun t ht => ⟨_, replay_registration ht c.subject c.text n, ?_⟩
      exact versions_applyRegistration_other (Ne.symm hq) _ _
  | @lost i c n call at_ =>
    by_cases hq : c.subject = q
    · exact absurd rfl (serial c call hq).1
    · refine h.other call hq rfl rfl rfl fun t ht => ⟨_, replay_registration ht c.subject c.text n, ?_⟩
      exact versions_applyRegistration_other (Ne.symm hq) _ _
  | @applied i sent c n id call at_ =>
    by_cases hq : c.subject = q
    · exact h.applied call hq at_
    · refine h.other call hq rfl ?_ (getCompatibility_applyLocked _ _ _) fun t ht => ⟨t, ht, rfl⟩
      exact versions_applyLocked_other (Ne.symm hq)

end Inv

/-- However calls of Register on one Service interleave, as long as those on the subject follow one another the versions
    that replay rebuilds are related pair by pair as the mode demands. -/
theorem versions_compatible (J : Json) {q : Bytes} {mode : Compatibility} (enforced : Service.Enforced mode) {s : State}
    {t₀ : Service}
    (replayed : Service.new.replay J s.topic = .ok t₀) (unregistered : t₀.versions q = []) (started : s.service.versions q = [])
    (set : s.service.getCompatibility q = mode) (calls : s.calls = []) (as : List Action)
      (serial : Along (State.step J) s as (Serial q)) :
    ∃ t, Service.new.replay J (as.foldl (State.step J) s).topic = .ok t ∧
      (t.versions q).Pairwise fun a b => Related J mode a.schema b.schema := by
  have hnone : ∀ {i : Nat} {c}, s.calls[i]? ≠ some c := by
    intro i c hc
    rw [calls] at hc
    cases hc
  have hstart : Inv J q mode s := by
    refine ⟨set, fun sc hsc => ?_, fun hc => absurd hc hnone, fun hc => absurd hc hnone, fun hc => absurd hc hnone, t₀,
      replayed, ?_, fun _ => ?_, fun hc => absurd hc hnone⟩
    · rw [started] at hsc
      cases hsc
    · rw [unregistered]
      exact .nil
    · unfold lastText
      rw [unregistered, started]
      rfl
  obtain ⟨t, ht⟩ := (serial.invariant (fun _ => Inv J q mode) (fun _ _ _ h hserial => h.step enforced hserial) hstart).rebuilt
  exact ⟨t, ht.replay, ht.related⟩

def backwardSet : State :=
  let w := World.step .plain ⟨.new, []⟩ (.setCompatibility [115] .backward, .ok)
  ⟨w.service, w.topic, []⟩

def requiresBoth : Bytes := utf8 "\x7b \"type\": \"object\", \"required\": [\"a\", 1, \"b\"]\x7d"

def requiresFirst : Bytes := utf8 "\x7b\"required\":[\"a\"]\x7d"

def requiresSecond : Bytes := utf8 "\x7b\"required\":[\"b\"]\x7d"

example : requiredFields .plain requiresBoth = some [[97], [98]] := by decide +kernel

/-- A second version drops a field while another subject is registered; the third text asks for it again and is refused. -/
def oneByOne : List Action :=
  [.register [115] requiresBoth, .run 0 .ok, .run 0 .ok, .register [116] requiresSecond, .run 1 .ok, .run 0 .ok,
    .run 0 .ok, .register [115] requiresFirst,
    .run 2 .ok, .run 1 .ok, .run 2 .ok, .run 2 .ok, .run 1 .ok, .run 1 .ok, .run 2 .ok, .register [115] requiresBoth,
      .run 3 .ok, .run 3 .ok]

theorem versions_compatible_two :
    ∃ t, Service.new.replay .plain (oneByOne.foldl (State.step .plain) backwardSet).topic = .ok t ∧
    (t.versions [115]).map Schema.schema = [requiresBoth, requiresFirst] ∧
    (t.versions [115]).Pairwise fun a b => Related .plain .backward a.schema b.schema := by
  have enforced : Service.Enforced .backward := trivial
  obtain ⟨t, ht, hrelated⟩ := versions_compatible .plain (q := [115])
    (s := backwardSet) enforced rfl rfl rfl rfl rfl oneByOne (by decide +kernel)
  have htexts : (Service.new.replay .plain (oneByOne.foldl (State.step .plain) backwardSet).topic).map
      (fun t => (t.versions [115]).map Schema.schema) = .ok [requiresBoth, requiresFirst] := by decide +kernel
  rw [ht] at htexts
  exact ⟨t, ht, Except.ok.inj htexts, hrelated⟩

def overlapping : List Action :=
  [.register [115] requiresFirst, .register [115] requiresSecond, .run 0 .ok, .run 1 .ok, .run 0 .ok, .run 1 .ok,
    .run 0 .ok, .run 1 .ok, .run 0 .ok, .run 1 .ok]

/-- Both texts become versions, though the second requires a field that the first does not. -/
theorem overlapping_incompatible : Service.Enforced .backward ∧ backwardSet.service.getCompatibility [115] = .backward ∧
    (Service.new.replay .plain (overlapping.foldl (State.step .plain) backwardSet).topic).map
      (fun t => (t.versions [115]).map Schema.schema) =
      .ok [requiresFirst, requiresSecond] ∧ ¬ Related .plain .backward requiresFirst requiresSecond := by
  refine ⟨trivial, rfl, by decide +kernel, ?_⟩
  rintro ⟨a, b, ha, hb, hab⟩
  have hfirst : requiredFields .plain requiresFirst = some [[97]] := by decide +kernel
  have hsecond : requiredFields .plain requiresSecond = some [[98]] := by decide +kernel
  cases hfirst.symm.trans ha
  cases hsecond.symm.trans hb
  have hmem : ([98] : Bytes) ∈ [[97]] := hab (mem_singleton_self _)
  exact absurd hmem (by decide)

end Concurrent
end Holocron.Schemas

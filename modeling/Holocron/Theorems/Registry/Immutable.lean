import Holocron.Theorems.Registry.Versions

/-! A registered version stays what it is until it is deleted, as long as no registration meets a gap in the version
    numbers. -/

namespace Holocron.Schemas
open Lib Groups List Function

variable {sc : Schema}

theorem mem_appendByVersion {vs : List Schema} {x : Schema} (h : x ∈ appendByVersion vs sc) : x = sc ∨ x ∈ vs := by
  induction vs with
  | nil => exact .inl (mem_singleton.mp h)
  | cons v vs ih =>
    unfold appendByVersion at h
    split at h
    · exact (mem_cons.mp h).imp_right (mem_cons_of_mem v)
    split at h
    · exact mem_cons.mp h
    · rcases mem_cons.mp h with rfl | h
      · exact .inr mem_cons_self
      · exact (ih h).imp_right (mem_cons_of_mem v)

variable {subject text : Bytes} {id version : Int}

namespace Service

variable {s : Service} {c : Change} {q : Bytes} {x : Schema} {n : Int}

theorem mem_versions_replayed (hx : x ∈ (s.replayed c).versions q) :
    x ∈ s.versions q ∨ ∃ text id, c = .register q text id ∧ x = ⟨id, q, (s.versions q).length + 1, text⟩ := by
  cases c with
  | register subject text id =>
    have hadd : x ∈ (s.addVersion subject text id).versions q →
        x ∈ s.versions q ∨ ∃ text' id', Change.register subject text id = .register q text' id' ∧
          x = ⟨id', q, (s.versions q).length + 1, text'⟩ := by
      intro hx
      rw [versions_addVersion] at hx
      split at hx
      · rename_i hq
        subst hq
        rcases mem_append.mp hx with hx | hx
        · exact .inl hx
        · exact .inr ⟨text, id, rfl, mem_singleton.mp hx⟩
      · exact .inl hx
    change x ∈ (s.applyRegistration subject text id).versions q at hx
    unfold applyRegistration at hx
    split at hx
    · split at hx
      · rw [noteID_versions] at hx
        exact .inl hx
      · exact hadd hx
    · exact hadd hx
  | deleteSubject subject =>
    change x ∈ (s.applyTombstoneLocked subject).versions q at hx
    rw [versions_applyTombstoneLocked] at hx
    split at hx
    · cases hx
    · exact .inl hx
  | deleteVersion subject version =>
    change x ∈ (s.applyDeleteVersionLocked subject version).versions q at hx
    rw [versions_applyDeleteVersionLocked] at hx
    split at hx
    · rename_i hq
      rw [hq]
      exact .inl (mem_of_mem_eraseP hx)
    · exact .inl hx
  | config subject mode =>
    change x ∈ (s.applyConfigLocked subject mode).versions q at hx
    rw [versions_applyConfigLocked] at hx
    exact .inl hx

theorem mem_versions_applied (hx : x ∈ (s.applied c).versions q) :
    x ∈ s.versions q ∨ ∃ text id, c = .register q text id ∧ x = ⟨id, q, (s.versions q).length + 1, text⟩ := by
  cases c with
  | register subject text id =>
    rw [versions_applied_register] at hx
    split at hx
    · rename_i hq
      subst hq
      exact (mem_appendByVersion hx).symm.imp_right fun hx => ⟨text, id, rfl, hx⟩
    · exact .inl hx
  | deleteSubject | deleteVersion | config => exact mem_versions_replayed hx

def ListedBelow (s : Service) (n : Int) : Prop := ∀ subject, ∀ x ∈ s.versions subject, x.subject = subject ∧ x.id < n

theorem ListedBelow.mono {m : Int} (h : s.ListedBelow n) (hnm : n ≤ m) : s.ListedBelow m :=
  fun q x hx => ⟨(h q x hx).1, Int.lt_of_lt_of_le (h q x hx).2 hnm⟩

section
variable {n : Int} (h : s.ListedBelow n) (hid : ∀ subject text id, c = .register subject text id → id < n)
include h hid

theorem ListedBelow.replayed :
    (s.replayed c).ListedBelow n := by
  intro q x hx
  rcases mem_versions_replayed hx with hx | ⟨text, id, hc, rfl⟩
  · exact h q x hx
  · exact ⟨rfl, hid q text id hc⟩

theorem ListedBelow.applied :
    (s.applied c).ListedBelow n := by
  intro q x hx
  rcases mem_versions_applied hx with hx | ⟨text, id, hc, rfl⟩
  · exact h q x hx
  · exact ⟨rfl, hid q text id hc⟩

end

structure Keeps (s : Service) (sc : Schema) : Prop where
  mem : sc ∈ s.versions sc.subject
  number : ∀ x ∈ s.versions sc.subject, x.version = sc.version → x = sc
  byID : s.byID sc.id = some sc
  id {subject : Bytes} : ∀ x ∈ s.versions subject, x.id = sc.id → x = sc

def Spared (subject : Bytes) (version : Int) : Change → Prop
  | .deleteSubject q => q ≠ subject
  | .deleteVersion q v => ¬ (q = subject ∧ v = version)
  | _ => True

theorem ListedBelow.keeps_new (h : s.ListedBelow n) (gapless : s.Gapless subject) (text : Bytes) :
    (s.applied (.register subject text n)).Keeps ⟨n, subject, (s.versions subject).length + 1, text⟩ := by
  rw [gapless.applied]
  refine ⟨?_, fun x hx hversion => ?_, ?_, fun {q} x hx hid => ?_⟩
  · rw [versions_addVersion, if_pos rfl]
    exact mem_append_right _ mem_cons_self
  · rw [versions_addVersion, if_pos rfl] at hx
    rcases mem_append.mp hx with hx | hx
    · exact absurd hversion (Int.ne_of_lt (Int.lt_add_one_of_le (gapless x hx)))
    · exact mem_singleton.mp hx
  · rw [byID_addVersion, update_self]
  · rw [versions_addVersion] at hx
    split at hx
    · rcases mem_append.mp hx with hx | hx
      · exact absurd hid (Int.ne_of_lt (h subject x hx).2)
      · exact mem_singleton.mp hx
    · exact absurd hid (Int.ne_of_lt (h q x hx).2)

variable {sc : Schema}

section
variable (h : s.Keeps sc)
include h

theorem Keeps.addVersion (gapless : s.Gapless subject) (text : Bytes) (hid : id ≠ sc.id) :
    (s.addVersion subject text id).Keeps sc := by
  have hcases : ∀ {q x}, x ∈ (s.addVersion subject text id).versions q →
      x ∈ s.versions q ∨ q = subject ∧ x = ⟨id, subject, (s.versions subject).length + 1, text⟩ := by
    intro q x hx
    rw [versions_addVersion] at hx
    split at hx
    · rename_i hq
      rw [hq]
      exact (mem_append.mp hx).imp_right fun hx => ⟨rfl, mem_singleton.mp hx⟩
    · exact .inl hx
  refine ⟨?_, fun x hx hversion => ?_, ?_, fun {q} x hx hxid => ?_⟩
  · rw [versions_addVersion]
    split
    · rename_i hq
      exact mem_append_left _ (hq ▸ h.mem)
    · exact h.mem
  · rcases hcases hx with hx | ⟨hq, rfl⟩
    · exact h.number x hx hversion
    · have hle := gapless sc (hq ▸ h.mem)
      exact absurd hversion.symm (Int.ne_of_lt (Int.lt_add_one_of_le hle))
  · rw [byID_addVersion, update_of_ne hid.symm]
    exact h.byID
  · rcases hcases hx with hx | ⟨-, rfl⟩
    · exact h.id x hx hxid
    · exact absurd hxid hid

theorem Keeps.deleteSubject (listed : s.ListedBelow n) (hne : subject ≠ sc.subject) :
    (s.applyTombstoneLocked subject).Keeps sc := by
  have hsubset : ∀ {q x}, x ∈ (s.applyTombstoneLocked subject).versions q → x ∈ s.versions q := by
    intro q x hx
    rw [versions_applyTombstoneLocked] at hx
    split at hx
    · cases hx
    · exact hx
  refine ⟨?_, fun x hx => h.number x (hsubset hx), ?_, fun x hx => h.id x (hsubset hx)⟩
  · rw [versions_applyTombstoneLocked, if_neg (Ne.symm hne)]
    exact h.mem
  · rw [byID_applyTombstoneLocked, if_neg]
    · exact h.byID
    · rintro ⟨x, hx, hid⟩
      have hsubject := (listed subject x hx).1
      rw [h.id x hx hid] at hsubject
      exact hne hsubject.symm

theorem Keeps.deleteVersion (listed : s.ListedBelow n)
    (spared : ¬ (subject = sc.subject ∧ version = sc.version)) : (s.applyDeleteVersionLocked subject version).Keeps sc := by
  have hsubset : ∀ {q x}, x ∈ (s.applyDeleteVersionLocked subject version).versions q → x ∈ s.versions q := by
    intro q x hx
    rw [versions_applyDeleteVersionLocked] at hx
    split at hx
    · rename_i hq
      rw [hq]
      exact mem_of_mem_eraseP hx
    · exact hx
  refine ⟨?_, fun x hx => h.number x (hsubset hx), ?_, fun x hx => h.id x (hsubset hx)⟩
  · rw [versions_applyDeleteVersionLocked]
    split
    · rename_i hq
      have hmem := h.mem
      rw [hq] at hmem
      refine (mem_eraseP_of_neg fun hdec => ?_).mpr hmem
      exact spared ⟨hq.symm, (of_decide_eq_true hdec).symm⟩
    · exact h.mem
  · rcases s.byID_applyDeleteVersionLocked subject version sc.id with heq | ⟨-, x, hx, hversion, hid⟩
    · rw [heq]
      exact h.byID
    · -- the version deleted would be this one
      have hsubject := (listed subject x hx).1
      rw [h.id x hx hid] at hsubject hversion
      exact absurd ⟨hsubject.symm, hversion.symm⟩ spared

theorem Keeps.config (subject : Bytes) (mode : Compatibility) : (s.applyConfigLocked subject mode).Keeps sc := by
  refine ⟨?_, fun x hx => ?_, ?_, fun {q} x hx => ?_⟩
  · rw [versions_applyConfigLocked]
    exact h.mem
  · rw [versions_applyConfigLocked] at hx
    exact h.number x hx
  · rw [byID_applyConfigLocked]
    exact h.byID
  · rw [versions_applyConfigLocked] at hx
    exact h.id x hx

theorem Keeps.applied (listed : s.ListedBelow n) (spared : Spared sc.subject sc.version c)
    (gapless : ∀ subject text id, c = .register subject text id → s.Gapless subject ∧ id = n) : (s.applied c).Keeps sc := by
  cases c with
  | register subject text id =>
    obtain ⟨hgapless, rfl⟩ := gapless subject text id rfl
    rw [hgapless.applied]
    exact h.addVersion hgapless text (Int.ne_of_gt (listed sc.subject sc h.mem).2)
  | deleteSubject subject => exact h.deleteSubject listed spared
  | deleteVersion subject version => exact h.deleteVersion listed spared
  | config subject mode => exact h.config subject mode

theorem Keeps.getVersion : s.getVersion sc.subject sc.version = .ok sc := by
  unfold Service.getVersion
  rw [if_neg (ne_nil_of_mem h.mem)]
  cases hfind : (s.versions sc.subject).find? fun x => decide (x.version = sc.version) with
  | none => exact absurd (decide_eq_true rfl) (List.find?_eq_none.mp hfind sc h.mem)
  | some x =>
    have hversion : x.version = sc.version := by simpa using List.find?_some hfind
    rw [h.number x (mem_of_find?_eq_some hfind) hversion]

theorem Keeps.getByID : s.getByID sc.id = .ok sc := by
  unfold Service.getByID
  rw [h.byID]

end

end Service

/-- No record has been compacted away. -/
def Uncompacted (topic : List Record) : Prop := ∀ (i : Nat) (r : Record), topic[i]? = some r → r.offset = i

theorem uncompacted_nil : Uncompacted [] := by
  intro i r hr
  cases hr

theorem decode_register {J : Json} {r : Record} (h : decode J r = .ok (.register subject text id)) :
    id = r.offset := by
  have hplain : ∀ {c}, decode.plain J r = .ok c → c = .register subject text id → id = r.offset := by
    intro c hc heq
    unfold decode.plain at hc
    split at hc
    · cases hc
      cases heq
    split at hc
    · cases hc
    · cases hc
      cases heq
      rfl
  unfold decode at h
  split at h
  · split at h
    · split at h <;> cases h
    split at h
    · split at h <;> cases h
    · exact hplain h rfl
  · exact hplain h rfl

theorem listed_replay (J : Json) {topic : List Record} (uncompacted : Uncompacted topic) {s : Service}
    (replayed : Service.new.replay J topic = .ok s) : s.ListedBelow topic.length := by
  induction topic using reverseRecOn generalizing s with
  | nil =>
    cases replayed
    exact fun _ x hx => absurd hx not_mem_nil
  | append_singleton topic r ih =>
    have hprefix : Uncompacted topic := fun i r' hr' =>
      uncompacted i r' (by rw [List.getElem?_append_left (List.getElem?_eq_some_iff.mp hr').1]; exact hr')
    have hoffset : r.offset = topic.length := uncompacted topic.length r (by simp)
    rw [Service.replay, runAll_concat] at replayed
    cases hbefore : runAll (Service.applyRecord J) Service.new topic with
    | error e =>
      rw [hbefore] at replayed
      cases replayed
    | ok s₀ =>
      rw [hbefore] at replayed
      have hstep : s₀.applyRecord J r = .ok s := replayed
      rw [Service.applyRecord_eq] at hstep
      cases hdecode : decode J r with
      | error e =>
        rw [hdecode] at hstep
        cases hstep
      | ok c =>
        rw [hdecode] at hstep
        cases hstep
        rw [length_append, length_singleton]
        refine ((ih hprefix hbefore).mono (by omega)).replayed fun subject text id hc => ?_
        rw [hc] at hdecode
        rw [decode_register hdecode]
        omega

namespace World

variable {J : Json} {w : World} {change : Int → Change}

/-- A registration is for a subject without gaps. -/
def NoGap (w : World) (op : Op × Sent) : Prop :=
  match op.1 with
  | .register subject _ => w.service.Gapless subject
  | _ => True

instance (w : World) : (op : Op × Sent) → Decidable (w.NoGap op)
  | (.register subject _, _) => inferInstanceAs (Decidable (w.service.Gapless subject))
  | (.deleteSubject _, _) | (.deleteVersion _ _, _) | (.deleteByID _, _) | (.setCompatibility _ _, _) => isTrue trivial

/-- The operation does not delete the version. -/
def Spares (subject : Bytes) (version : Int) (w : World) (op : Op × Sent) : Prop :=
  op.2 = .ok →
    match op.1 with
    | .deleteSubject q => q ≠ subject
    | .deleteVersion q v => ¬ (q = subject ∧ v = version)
    | .deleteByID id => ∀ sc, w.service.byID id = some sc → ¬ (sc.subject = subject ∧ sc.version = version)
    | _ => True

/-- The registration writes the schema and answers with its ID. -/
structure Creates (J : Json) (w : World) (subject text : Bytes) (sc : Schema) : Prop where
  answer : (w.register J subject text .ok).1 = .ok sc.id
  grows : w.topic.length < (w.register J subject text .ok).2.topic.length
  bound : (w.register J subject text .ok).2.service.byID sc.id = some sc

/-- A version that is created has a new number. -/
def NoReuse (J : Json) (w : World) (op : Op × Sent) : Prop :=
  ∀ subject text sc, op = (.register subject text, .ok) → Creates J w subject text sc →
    ∀ x ∈ w.service.versions subject, x.version ≠ sc.version

theorem Asks.register_inv {op : Op} (asks : Asks J w op change) {k : Int}
    (h : change id = .register subject text k) : op = .register subject text ∧ k = id := by
  cases asks with
  | register =>
    cases h
    exact ⟨rfl, rfl⟩
  | deleteSubject | deleteVersion | deleteByID | config => cases h

theorem Asks.spared {op : Op} (asks : Asks J w op change)
    (spares : Spares subject version w (op, .ok)) (id : Int) : Service.Spared subject version (change id) := by
  have hspares := spares rfl
  cases asks with
  | register => trivial
  | deleteSubject | deleteVersion => exact hspares
  | deleteByID bound => exact hspares _ bound
  | config => trivial

theorem listed_step (h : w.service.ListedBelow w.topic.length) (op : Op × Sent) :
    (w.step J op).service.ListedBelow (w.step J op).topic.length := by
  rcases step_cases J w op with hsame | ⟨change, asks, htopic, hservice⟩
  · rwa [hsame]
  have hmono : w.service.ListedBelow (w.step J op).topic.length := by
    rw [htopic, append, length_append]
    exact h.mono (by omega)
  rcases hservice with ⟨hservice, -⟩ | ⟨hservice, -⟩
  · rwa [hservice]
  · rw [hservice]
    refine hmono.applied fun subject text id hc => ?_
    rw [(asks.register_inv hc).2, htopic, append, length_append, length_singleton]
    omega

theorem keeps_step (h : w.service.Keeps sc) (listed : w.service.ListedBelow w.topic.length) {op : Op × Sent}
    (noGap : w.NoGap op) (spares : Spares sc.subject sc.version w op) : (w.step J op).service.Keeps sc := by
  obtain ⟨op, sent⟩ := op
  rcases step_cases J w (op, sent) with hsame | ⟨change, asks, -, ⟨hservice, -⟩ | ⟨hservice, hsent⟩⟩
  · rwa [hsame]
  · rwa [hservice]
  · obtain rfl : sent = .ok := hsent
    rw [hservice]
    refine h.applied listed (asks.spared spares _) fun subject text id hc => ?_
    obtain ⟨rfl, rfl⟩ := asks.register_inv hc
    exact ⟨noGap, rfl⟩

theorem Creates.eq (h : Creates J w subject text sc) (gapless : w.service.Gapless subject) :
    sc = ⟨w.topic.length, subject, (w.service.versions subject).length + 1, text⟩ ∧
      (w.register J subject text .ok).2.service = w.service.applied (.register subject text w.topic.length) := by
  rcases register_cases J w subject text .ok with hsame | ⟨-, hproduce⟩
  · have hgrows := h.grows
    rw [hsame] at hgrows
    exact absurd hgrows (Nat.lt_irrefl _)
  · have hanswer := h.answer
    have hbound := h.bound
    rw [hproduce] at hanswer hbound ⊢
    have hid : sc.id = w.topic.length := (Except.ok.inj hanswer).symm
    refine ⟨?_, rfl⟩
    change (w.service.applied (.register subject text w.topic.length)).byID sc.id = some sc at hbound
    rw [gapless.applied, Service.byID_addVersion, hid, update_self] at hbound
    exact (Option.some.inj hbound).symm

/-- A registered version keeps its number, its text and its ID until it is deleted, and no other gets its number. -/
theorem versions_immutable (J : Json) {topic : List Record} (uncompacted : Uncompacted topic) {s : Service}
    (started : Service.new.replay J topic = .ok s) (ops : List (Op × Sent)) (noGap : Along (step J) ⟨s, topic⟩ ops NoGap) :
    Along (step J) ⟨s, topic⟩ ops (NoReuse J) ∧
      ∀ before subject text sc rest, ops = before ++ (.register subject text, .ok) :: rest →
        Creates J (before.foldl (step J) ⟨s, topic⟩) subject text sc →
        Along (step J) ((before ++ [(.register subject text, .ok)]).foldl (step J) ⟨s, topic⟩) rest
          (Spares subject sc.version) →
        (ops.foldl (step J) ⟨s, topic⟩).service.getVersion subject sc.version = .ok sc ∧
          (ops.foldl (step J) ⟨s, topic⟩).service.getByID sc.id = .ok sc ∧ sc.subject = subject ∧ sc.schema = text := by
  have hlisted : ∀ ops : List (Op × Sent),
      (ops.foldl (step J) ⟨s, topic⟩).service.ListedBelow (ops.foldl (step J) ⟨s, topic⟩).topic.length := by
    intro ops
    induction ops using reverseRecOn with
    | nil => exact listed_replay J uncompacted started
    | append_singleton ops op ih =>
      rw [foldl_append]
      exact listed_step ih op
  refine ⟨fun before op rest hops subject text sc hop creates x hx => ?_,
    fun before subject text sc rest hops creates spares => ?_⟩
  · have hgapless : (before.foldl (step J) ⟨s, topic⟩).service.Gapless subject := by
      have := noGap before op rest hops
      rwa [hop] at this
    rw [(creates.eq hgapless).1]
    exact Int.ne_of_lt (Int.lt_add_one_of_le (hgapless x hx))
  · have hgapless : (before.foldl (step J) ⟨s, topic⟩).service.Gapless subject := noGap before _ rest hops
    obtain ⟨hsc, hservice⟩ := creates.eq hgapless
    have hsubject : sc.subject = subject := by rw [hsc]
    have hcreated : ((before ++ [(Op.register subject text, Sent.ok)]).foldl (step J) ⟨s, topic⟩).service.Keeps sc := by
      rw [foldl_append, hsc]
      have hkeeps := (hlisted before).keeps_new hgapless text
      rw [← hservice] at hkeeps
      exact hkeeps
    have hops' : ops = (before ++ [(Op.register subject text, Sent.ok)]) ++ rest := by rw [hops, append_assoc, singleton_append]
    have hrest : Along (step J) ((before ++ [(Op.register subject text, Sent.ok)]).foldl (step J) ⟨s, topic⟩) rest NoGap := by
      rw [hops'] at noGap
      exact noGap.of_append_right
    have hkeeps : (ops.foldl (step J) ⟨s, topic⟩).service.Keeps sc := by
      rw [hops', foldl_append]
      refine ((hrest.and spares).invariant (fun _ w => w.service.Keeps sc ∧ w.service.ListedBelow w.topic.length) ?_
        ⟨hcreated, hlisted _⟩).1
      rintro - w op ⟨hkeeps, hbelow⟩ ⟨hgap, hspares⟩
      rw [← hsubject] at hspares
      exact ⟨keeps_step hkeeps hbelow hgap hspares, listed_step hbelow op⟩
    have hversion := hkeeps.getVersion
    rw [hsubject] at hversion
    exact ⟨hversion, hkeeps.getByID, hsubject, by rw [hsc]⟩

theorem versions_immutable_first :
    (secondAgain.foldl (step .plain) ⟨.new, []⟩).service.getVersion [115] 1 = .ok ⟨0, [115], 1, [97]⟩ ∧
    (secondAgain.foldl (step .plain) ⟨.new, []⟩).service.getByID 0 = .ok ⟨0, [115], 1, [97]⟩ := by
  have started : Service.new.replay .plain [] = .ok .new := rfl
  have noGap : Along (step .plain) ⟨.new, []⟩ secondAgain NoGap :=
    .cons nofun (.cons (by decide) (.cons trivial (.cons (by decide) .nil)))
  have creates : Creates .plain ⟨.new, []⟩ [115] [97] ⟨0, [115], 1, [97]⟩ := ⟨rfl, by decide, rfl⟩
  have spares : Along (step .plain) (step .plain ⟨.new, []⟩ (.register [115] [97], .ok))
      [(.register [115] [98], .ok), (.deleteVersion [115] 2, .ok), (.register [115] [99], .ok)] (Spares [115] 1) :=
    .cons (fun _ => trivial) (.cons (fun _ => by decide) (.cons (fun _ => trivial) .nil))
  obtain ⟨hversion, hid, -⟩ := (versions_immutable .plain uncompacted_nil started secondAgain noGap).2 [] [115]
    [97] _ _ rfl creates spares
  exact ⟨hversion, hid⟩

/-- Version 3 is overwritten by a registration that meets the gap of version 2. -/
theorem register_after_gap_overwrites :
    ((registerAfterGap.take 4).foldl (step .plain) ⟨.new, []⟩).service.getVersion [115] 3 = .ok ⟨2, [115], 3, [99]⟩ ∧
      (registerAfterGap.foldl (step .plain) ⟨.new, []⟩).service.getVersion [115] 3 = .ok ⟨4, [115], 3, [100]⟩ := by
  decide +kernel

end World
end Holocron.Schemas

import Holocron.Lib.Run
import Holocron.Sdk.Batcher

/-! Every record a batcher accepts ends in one batch or is discarded, every waiting add gets one result, and no pending
    record is left without a timer or a flush that is still to come. -/

namespace Holocron.Sdk.Batcher
open Lib List

variable {ε : Type} {b : Batcher ε}

theorem map_fst_results (outcome : Except ε Int) (batch : List Queued) : (results outcome batch).map Prod.fst = batch := by
  rw [results, mapIdx_eq_zipIdx_map, map_map]
  exact zipIdx_map_fst 0 batch

/-- A record accepted is pending, in the hands of one flush, in one batch or discarded. In the latter two cases it has
    one result, sent or still to be sent. A pending one has a timer, unless a flush is about to take it. -/
structure Sound (b : Batcher ε) : Prop where
  tickets : b.accepted.map Queued.ticket = range b.accepted.length
  records : (b.pending ++ b.calling.flatten ++ (b.published.flatten ++ b.discarded)).Perm b.accepted
  results : ((b.sending.flatten ++ b.resolved).map Prod.fst).Perm (b.published.flatten ++ b.discarded)
  unarmed : b.pending = [] → b.timer = .stopped
  timed : b.pending ≠ [] → b.timer ≠ .armed → 0 < b.started

theorem sound_new : Sound (new : Batcher ε) := ⟨rfl, .nil, .nil, fun _ => rfl, fun h => absurd rfl h⟩

section
variable (h : b.Sound)
include h

theorem Sound.add (batchSize : Int) (r : Record) (waits : Bool) : (b.add batchSize r waits).Sound := by
  have hqueue : ∀ {timer} {started} {q}, q.ticket = b.accepted.length → (timer ≠ .armed → 0 < started) →
      Sound { b with pending := b.pending ++ [q], accepted := b.accepted ++ [q], timer := timer, started := started } := by
    intro timer started q hq htimer
    refine ⟨?_, ?_, h.results, fun hnil => absurd hnil (by simp), fun _ => htimer⟩
    · rw [map_append, h.tickets, length_append, length_singleton, range_succ, map_singleton, hq]
    · have hrecords := h.records
      rw [append_assoc] at hrecords ⊢
      rw [append_assoc]
      exact (perm_middle.trans (hrecords.cons q)).trans (perm_append_singleton q _).symm
  unfold Batcher.add
  by_cases hclosed : b.closed = true
  · rwa [if_pos hclosed]
  · rw [if_neg hclosed]
    dsimp only
    split
    · exact hqueue rfl fun _ => Nat.succ_pos _
    · refine hqueue rfl fun hne => ?_
      split at hne
      · exact absurd rfl hne
      · exact h.timed (mt h.unarmed ‹_›) hne

theorem Sound.flushNow : b.flushNow.Sound := by
  unfold Batcher.flushNow
  by_cases hstarted : b.started = 0
  · rwa [if_pos hstarted]
  · rw [if_neg hstarted]
    by_cases hpending : b.pending = []
    · rw [if_pos hpending]
      exact ⟨h.tickets, h.records, h.results, h.unarmed, fun hne => absurd hpending hne⟩
    · rw [if_neg hpending]
      refine ⟨h.tickets, ?_, h.results, fun _ => rfl, fun hne => absurd rfl hne⟩
      rw [flatten_append, flatten_singleton, nil_append]
      exact (perm_append_comm.append_right _).trans h.records

theorem Sound.publish {i : Nat} {batch : List Queued} (hbatch : b.calling[i]? = some batch) (outcome : Except ε Int) :
    Sound { b with
      calling := b.calling.eraseIdx i, published := b.published ++ [batch], sending :=
        b.sending ++ [Batcher.results outcome batch] } := by
  refine ⟨h.tickets, perm_iff_count.mpr fun q => ?_, perm_iff_count.mpr fun q => ?_, h.unarmed, h.timed⟩
  · have hrecords := h.records.count_eq q
    have htaken := (perm_eraseIdx hbatch).flatten.count_eq q
    simp only [count_append, flatten_append, flatten_cons, flatten_nil, append_nil] at *
    omega
  · have hresults := h.results.count_eq q
    simp only [count_append, flatten_append, flatten_cons, flatten_nil, append_nil, map_append, map_fst_results] at *
    omega

theorem Sound.send {i : Nat} {x : Queued × Except (BatchError ε) Int} {rest : List (Queued × Except (BatchError ε) Int)}
    (hsending : b.sending[i]? = some (x :: rest)) :
    Sound { b with sending := rest :: b.sending.eraseIdx i, resolved := b.resolved ++ [x] } := by
  refine ⟨h.tickets, h.records, (Perm.map _ ?_).trans h.results, h.unarmed, h.timed⟩
  rw [← append_assoc]
  exact (perm_append_singleton x _).trans ((perm_eraseIdx hsending).flatten.symm.append_right _)

theorem Sound.shutdown : b.shutdown.Sound := by
  unfold Batcher.shutdown
  split
  · exact h
  · refine ⟨h.tickets, ?_, ?_, fun _ => rfl, fun hne => absurd rfl hne⟩
    · refine perm_iff_count.mpr fun q => ?_
      have hrecords := h.records.count_eq q
      simp only [count_append, count_nil] at *
      omega
    · have hmap : b.pending.map (Prod.fst ∘ fun q => (q, (.error .closed : Except (BatchError ε) Int))) = b.pending := map_id _
      rw [← append_assoc, map_append, map_map, hmap, ← append_assoc]
      exact h.results.append_right _

theorem Sound.step (batchSize : Int) (a : Action ε) : (b.step batchSize a).Sound := by
  cases a with
  | add r waits => exact h.add batchSize r waits
  | fire =>
    unfold Batcher.step
    dsimp only
    split
    · refine ⟨h.tickets, h.records, h.results, fun hnil => ?_, fun _ _ => Nat.succ_pos _⟩
      cases (h.unarmed hnil).symm.trans ‹b.timer = .armed›
    · exact h
  | flush => exact ⟨h.tickets, h.records, h.results, h.unarmed, fun _ _ => Nat.succ_pos _⟩
  | flushNow => exact h.flushNow
  | publish i outcome =>
    unfold Batcher.step
    dsimp only
    split
    · exact h
    · exact h.publish ‹_› outcome
  | send i =>
    unfold Batcher.step
    dsimp only
    split
    · exact h.send ‹_›
    · exact h
  | shutdown => exact h.shutdown

end

/-- The records of the adds before the shutdown. -/
def accepts : List (Action ε) → List (Record × Bool)
  | [] => []
  | .add r waits :: actions => (r, waits) :: accepts actions
  | .shutdown :: _ => []
  | _ :: actions => accepts actions

/-- The adds and the shutdown are all that counts for what is accepted. -/
def Action.intake : Action ε → Bool
  | .add _ _ | .shutdown => true
  | _ => false

theorem accepted_step (batchSize : Int) (b : Batcher ε) {a : Action ε} (ha : a.intake = false) :
    (b.step batchSize a).accepted = b.accepted ∧ (b.step batchSize a).closed = b.closed := by
  unfold Batcher.step
  cases a with
  | add r waits => cases ha
  | fire | publish | send =>
    dsimp only
    split <;> exact ⟨rfl, rfl⟩
  | flush => exact ⟨rfl, rfl⟩
  | flushNow =>
    dsimp only
    unfold Batcher.flushNow
    split
    · exact ⟨rfl, rfl⟩
    · dsimp only
      split <;> exact ⟨rfl, rfl⟩
  | shutdown => cases ha

theorem accepts_cons {a : Action ε} (ha : a.intake = false) (actions : List (Action ε)) :
    accepts (a :: actions) = accepts actions := by
  cases a <;> first | rfl | cases ha

theorem accepted_run (batchSize : Int) (b : Batcher ε) (actions : List (Action ε)) :
    (actions.foldl (step batchSize) b).accepted.map (fun q => (q.record, q.waits)) =
      b.accepted.map (fun q => (q.record, q.waits)) ++ if b.closed then [] else accepts actions := by
  induction actions generalizing b with
  | nil => simp [accepts]
  | cons a actions ih =>
    rw [foldl_cons, ih]
    cases hin : a.intake with
    | false =>
      obtain ⟨haccepted, hclosed⟩ := accepted_step batchSize b hin
      rw [haccepted, hclosed, accepts_cons hin]
    | true =>
      cases a with
      | add r waits =>
        simp only [Batcher.step, Batcher.add]
        by_cases hclosed : b.closed = true
        · simp only [hclosed, ↓reduceIte]
        · simp only [hclosed, Bool.false_eq_true, ↓reduceIte]
          split <;> simp [accepts]
      | shutdown =>
        simp only [Batcher.step, Batcher.shutdown]
        split <;> simp [*, accepts]
      | _ => cases hin

/-- What is left of the flushes: the callback of the timer, a flush that gets the lock, an answer, a result to send. -/
def Enabled (b : Batcher ε) : Action ε → Prop
  | .fire => b.timer = .armed
  | .flushNow => b.started ≠ 0
  | .publish i _ => i < b.calling.length
  | .send i => ∃ x rest, b.sending[i]? = some (x :: rest)
  | _ => False

def work (b : Batcher ε) : Nat :=
  (if b.timer = .armed then 2 else 0) + b.started + 2 * b.pending.length + (b.calling.length + b.calling.flatten.length) +
    b.sending.flatten.length

theorem work_step {batchSize : Int} {a : Action ε} (h : b.Enabled a) : (b.step batchSize a).work < b.work := by
  cases a with
  | add | flush | shutdown => cases h
  | fire =>
    have harmed : b.timer = .armed := h
    simp [Batcher.step, work, harmed]
    omega
  | flushNow =>
    have hstarted : b.started ≠ 0 := h
    simp only [Batcher.step, Batcher.flushNow, hstarted, ↓reduceIte]
    by_cases hpending : b.pending = []
    · simp only [hpending, ↓reduceIte, work]
      omega
    · have hpos := length_pos_iff.mpr hpending
      simp only [hpending, ↓reduceIte, work, flatten_append, flatten_singleton, length_append, length_singleton, length_nil,
        reduceCtorEq]
      omega
  | publish i outcome =>
    have hi : i < b.calling.length := h
    have hlen := (perm_eraseIdx (getElem?_eq_getElem hi)).length_eq
    have hflat := (perm_eraseIdx (getElem?_eq_getElem hi)).flatten.length_eq
    have hresults : (results outcome b.calling[i]).length = b.calling[i].length := length_mapIdx
    simp only [length_cons, flatten_cons, length_append] at hlen hflat
    simp only [Batcher.step, getElem?_eq_getElem hi, work, flatten_append, flatten_singleton, length_append, hresults]
    omega
  | send i =>
    obtain ⟨x, rest, hsending⟩ := h
    have hflat := (perm_eraseIdx hsending).flatten.length_eq
    simp only [flatten_cons, length_append, length_cons] at hflat
    simp only [Batcher.step, hsending, work, flatten_cons, length_append]
    omega

/-- Where nothing of the flushes is left every record has its one result. -/
theorem Sound.resolves (h : b.Sound) (hidle : ¬ ∃ a, b.Enabled a) : (b.resolved.map Prod.fst).Perm b.accepted := by
  have hstarted : b.started = 0 := by_contra fun hne => hidle ⟨.flushNow, hne⟩
  have hpending : b.pending = [] :=
    by_contra fun hne => absurd hstarted (Nat.ne_of_gt (h.timed hne fun harmed => hidle ⟨.fire, harmed⟩))
  have hcalling : b.calling = [] := by_contra fun hne => hidle ⟨.publish 0 (.ok 0), length_pos_iff.mpr hne⟩
  have hsending : b.sending.flatten = [] := flatten_eq_nil_iff.mpr fun results hin => by
    cases results with
    | nil => rfl
    | cons x rest =>
      obtain ⟨i, hi⟩ := mem_iff_getElem?.mp hin
      exact absurd ⟨.send i, x, rest, hi⟩ hidle
  have hrecords := h.records
  have hresults := h.results
  rw [hpending, hcalling, flatten_nil, nil_append] at hrecords
  rw [hsending] at hresults
  exact hresults.trans hrecords

def dated (n : Int64) : Record := ⟨0, n, none, none, []⟩

def note (n : Int64) : Action Unit := .add (dated n) true

/-- Two records go with the timer, the third with a flush that fails, the fourth is discarded and the fifth refused. -/
def flushedAndClosed : List (Action Unit) :=
  [note 1, .add (dated 2) false, .fire, .flushNow, note 3, .publish 0 (.ok 5), .flush, .flushNow, note 4, .send 0,
    .publish 0 (.error ()), .shutdown, note 5, .send 0, .send 1]

/-- A flush takes the pending records only while no other one is at the broker. -/
def Alone (b : Batcher ε) : Action ε → Prop
  | .flushNow => b.started ≠ 0 → b.pending ≠ [] → b.calling = []
  | _ => True

structure InOrder (b : Batcher ε) : Prop where
  single : b.calling.length ≤ 1
  records : b.published.flatten ++ (b.calling.flatten ++ (b.discarded ++ b.pending)) = b.accepted
  ended : if b.closed then b.pending = [] else b.discarded = []

theorem InOrder.flushNow (h : b.InOrder) (alone : b.Alone .flushNow) : b.flushNow.InOrder := by
  unfold Batcher.flushNow
  split
  · exact h
  · rename_i hstarted
    dsimp only
    split
    · exact ⟨h.single, h.records, h.ended⟩
    · rename_i hpending
      have hcalling := alone hstarted hpending
      have hended := h.ended
      split at hended
      · exact absurd hended hpending
      · have hrecords := h.records
        rename_i hclosed
        rw [hcalling, hended] at hrecords ⊢
        exact ⟨Nat.le_refl 1, by simpa using hrecords, by rw [if_neg hclosed]⟩

theorem InOrder.step (h : b.InOrder) {batchSize : Int} {a : Action ε} (alone : b.Alone a) : (b.step batchSize a).InOrder := by
  cases a with
  | add r waits =>
    unfold Batcher.step Batcher.add
    dsimp only
    split
    · exact h
    · rename_i hclosed
      have hended := h.ended
      rw [if_neg hclosed] at hended
      split <;> exact ⟨h.single, by rw [← h.records]; simp only [append_assoc], by rwa [if_neg hclosed]⟩
  | fire | send =>
    unfold Batcher.step
    dsimp only
    split
    · exact ⟨h.single, h.records, h.ended⟩
    · exact h
  | flush => exact ⟨h.single, h.records, h.ended⟩
  | flushNow => exact h.flushNow alone
  | publish i outcome =>
    unfold Batcher.step
    dsimp only
    split
    · exact h
    · rename_i batch hbatch
      obtain ⟨hi, rfl⟩ := List.getElem?_eq_some_iff.mp hbatch
      obtain ⟨x, hx⟩ := length_eq_one_iff.mp (Nat.le_antisymm h.single (Nat.zero_lt_of_lt hi))
      have hrecords := h.records
      simp only [hx, length_singleton, Nat.lt_one_iff] at hi
      subst hi
      simp only [hx] at hrecords ⊢
      exact ⟨Nat.zero_le 1, by simpa using hrecords, h.ended⟩
  | shutdown =>
    unfold Batcher.step Batcher.shutdown
    dsimp only
    split
    · exact h
    · exact ⟨h.single, by rw [append_nil]; exact h.records, rfl⟩

/-- A flush is triggered, by the timer, by a caller or by an add that fills the batch, only once the one before has its
    answer. -/
def Quiet (batchSize : Int) (b : Batcher ε) : Action ε → Prop
  | .fire => b.timer = .armed → b.started = 0 ∧ b.calling = []
  | .flush => b.started = 0 ∧ b.calling = []
  | .add _ _ => b.closed = false → batchSize ≤ b.pending.length + 1 → b.started = 0 ∧ b.calling = []
  | _ => True

instance (batchSize : Int) (b : Batcher Unit) : (a : Action Unit) → Decidable (Quiet batchSize b a)
  | .fire => inferInstanceAs (Decidable (_ → _))
  | .flush => inferInstanceAs (Decidable (_ ∧ _))
  | .add _ _ => inferInstanceAs (Decidable (_ → _))
  | .flushNow | .publish _ _ | .send _ | .shutdown => isTrue trivial

/-- Between its trigger and its answer there is one flush. -/
def Single (b : Batcher ε) : Prop := b.started + b.calling.length ≤ 1

theorem Single.alone (h : b.Single) (a : Action ε) : b.Alone a := by
  cases a with
  | flushNow =>
    intro hstarted _
    unfold Single at h
    exact length_eq_zero_iff.mp (by omega)
  | _ => trivial

theorem Single.step (h : b.Single) {batchSize : Int} {a : Action ε} (quiet : Quiet batchSize b a) :
    (b.step batchSize a).Single := by
  have trigger (hnone : b.started = 0 ∧ b.calling = []) : b.started + 1 + b.calling.length ≤ 1 := by
    rw [hnone.1, hnone.2]
    exact Nat.le_refl 1
  unfold Single at *
  unfold Batcher.step
  cases a with
  | add r waits =>
    dsimp only
    unfold Batcher.add
    split
    · exact h
    · dsimp only
      split
      · next hclosed hfull =>
        rw [length_append, length_singleton] at hfull
        exact trigger (quiet (by simpa using hclosed) (by exact_mod_cast hfull))
      · exact h
  | fire =>
    dsimp only
    split
    · next harmed => exact trigger (quiet harmed)
    · exact h
  | flush => exact trigger quiet
  | flushNow =>
    dsimp only
    unfold Batcher.flushNow
    split
    · exact h
    · dsimp only
      split
      · dsimp only
        omega
      · dsimp only
        rw [length_append, length_singleton]
        omega
  | publish i outcome =>
    dsimp only
    split
    · exact h
    · dsimp only
      rw [length_eraseIdx]
      split <;> omega
  | send i =>
    dsimp only
    split <;> exact h
  | shutdown =>
    dsimp only
    unfold Batcher.shutdown
    split <;> exact h

/-- A record that is added and flushed at once, while a call may be at the broker. -/
def hurried (r : Record) : List (Action ε) := [.add r true, .flush, .flushNow]

theorem hurried_step (batchSize : Int) (hopen : b.closed = false) (r : Record) :
    let q : Queued := ⟨b.accepted.length, r, true⟩
    let b' := (hurried r).foldl (step batchSize) b
    b'.calling = b.calling ++ [b.pending ++ [q]] ∧ b'.accepted = b.accepted ++ [q] ∧ b'.published = b.published := by
  simp only [hurried, foldl_cons, foldl_nil, Batcher.step, Batcher.add, hopen, Bool.false_eq_true, ↓reduceIte]
  split <;> simp [Batcher.flushNow]

/-- The record that comes last is not among the first ones before all the others are. -/
theorem length_of_prefix {accepted taken : List Queued} {q : Queued}
    (htickets : accepted.map Queued.ticket = range accepted.length)
    (hq : q.ticket = accepted.length) (h : taken ++ [q] <+: accepted ++ [q]) : taken.length = accepted.length := by
  obtain ⟨rest, hrest⟩ := h
  have hticket := congrArg (fun l => (l.map Queued.ticket)[taken.length]?) hrest
  simp only [map_append, htickets, map_singleton, hq, ← range_succ] at hticket
  simp only [append_assoc, singleton_append, getElem?_append_right, length_map, Nat.le_refl, Nat.sub_self,
    getElem?_cons_zero] at hticket
  obtain ⟨_, hsame⟩ := List.getElem?_eq_some_iff.mp hticket.symm
  rwa [getElem_range] at hsame

/-- Its flush is the second at the broker, and what it brings there overtakes the first. -/
theorem hurried_overtakes (batchSize : Int) (hsound : b.Sound) (horder : b.InOrder) (hcalling : b.calling.flatten ≠ [])
    (hopen : b.closed = false) (r : Record) (outcome : Except ε Int) :
    let b' := (hurried r).foldl (step batchSize) b
    b'.calling.length = 2 ∧ ¬ (b'.step batchSize (.publish 1 outcome)).published.flatten <+: b'.accepted := by
  intro b'
  obtain ⟨hcalling', haccepted, hpublished⟩ : b'.calling = _ ∧ b'.accepted = _ ∧ b'.published = _ :=
    hurried_step batchSize hopen r
  have hpos : b.calling ≠ [] := fun hnil => hcalling (by rw [hnil]; rfl)
  have hone : b.calling.length = 1 := Nat.le_antisymm horder.single (length_pos_iff.mpr hpos)
  refine ⟨by rw [hcalling', length_append, length_singleton, hone], fun hprefix => ?_⟩
  have hsecond : b'.calling[1]? = some (b.pending ++ [⟨b.accepted.length, r, true⟩]) := by
    rw [hcalling', getElem?_append_right (Nat.le_of_eq hone), hone]
    rfl
  simp only [Batcher.step, hsecond, hpublished, haccepted, flatten_append, flatten_singleton, ← append_assoc] at hprefix
  have hall := length_of_prefix hsound.tickets rfl hprefix
  have hrecords := congrArg length horder.records
  simp only [length_append] at hall hrecords
  exact hcalling (length_eq_zero_iff.mp (by omega))

/-- While a flush is triggered only after the answer to the one before, one call is at the broker and the records reach
    it in the order of the adds. One that is triggered earlier can overtake. -/
theorem run_in_order (batchSize : Int) {actions : List (Action ε)}
    (quiet : Along (step batchSize) new actions (Quiet batchSize)) :
    let b := run batchSize actions
    (b.calling.length ≤ 1 ∧ b.published.flatten <+: b.accepted) ∧
      (b.calling.flatten ≠ [] → b.closed = false → ∀ r outcome,
        let b' := run batchSize (actions ++ hurried r)
        b'.calling.length = 2 ∧ ¬ (b'.step batchSize (.publish 1 outcome)).published.flatten <+: b'.accepted) := by
  intro b
  obtain ⟨-, horder, hsound⟩ : b.Single ∧ b.InOrder ∧ b.Sound :=
    quiet.invariant (fun _ b => b.Single ∧ b.InOrder ∧ b.Sound)
      (fun _ _ a h cond => ⟨h.1.step cond, h.2.1.step (h.1.alone a), h.2.2.step batchSize a⟩)
      ⟨Nat.zero_le 1, ⟨Nat.zero_le 1, rfl, rfl⟩, sound_new⟩
  refine ⟨⟨horder.single, _, horder.records⟩, fun hcalling hopen r outcome => ?_⟩
  rw [show run batchSize (actions ++ hurried r) = (hurried r).foldl (step batchSize) b from foldl_append ..]
  exact hurried_overtakes batchSize hsound horder hcalling hopen r outcome

/-- Three flushes: by a caller, by the timer and by the third of three adds. -/
def threeFlushes : List (Action Unit) :=
  [note 1, note 2, .flush, .flushNow, note 3, .publish 0 (.ok 0), .send 0, .fire, .flushNow, .publish 0 (.error ()),
    note 4, note 5, note 6, .send 1, .flushNow, .publish 0 (.ok 2), note 7]

theorem run_in_order_three :
    (run 3 threeFlushes).calling.length ≤ 1 ∧ (run 3 threeFlushes).published.flatten <+: (run 3 threeFlushes).accepted ∧
      (run 3 threeFlushes).published.flatten.map (fun q => q.record.timestamp) = [1, 2, 3, 4, 5, 6] := by
  have quiet : Along (step 3) new threeFlushes (Quiet 3) := by decide
  obtain ⟨⟨hcalling, horder⟩, -⟩ := run_in_order 3 quiet
  exact ⟨hcalling, horder, by decide⟩

/-- Two flushes are at the broker at once, and the later one comes first. -/
theorem flushes_overlap : (run 10 [note 1, .flush, .flushNow, note 2, .flush, .flushNow]).calling.length = 2 ∧
    (run 10 [note 1, .flush, .flushNow, note 2, .flush, .flushNow, .publish 1 (.ok 0),
      .publish 0 (.ok 1)]).published.flatten.map Queued.ticket = [1, 0] := by decide

end Holocron.Sdk.Batcher

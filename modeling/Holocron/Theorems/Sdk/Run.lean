import Holocron.Theorems.Sdk.Accounting

/-! What Run commits: past all that was received, so a commit is right as long as nothing below it waits. -/

namespace Holocron.Sdk
open Lib List

open Consumer

def Phase.batch : Phase → List PolledRecord
  | .polling out => out
  | .handling batch => batch
  | _ => []

namespace Runner

def Accounts (s : Runner) (pump : Pump) (r : Record) : Prop :=
  pump.hand.Holds r ∨ ⟨pump.partition, .ok r⟩ ∈ s.consumer.fanIn ∨ ⟨r, pump.partition⟩ ∈ s.phase.batch ∨
    ⟨r, pump.partition⟩ ∈ s.handled

structure Inv (s : Runner) : Prop where
  floor : s.consumer.seekFloor = ∅
  registered : s.consumer.Registered
  assigned : ∀ pump ∈ s.consumer.pumps, pump.cancelled = false → pump.partition ∈ s.consumer.assignment
  accounted : s.phase ≠ .stopped → ∀ pump ∈ s.consumer.pumps, pump.cancelled = false → ∀ r ∈ pump.history, s.Accounts pump r

def Kept (s : Runner) (x : PolledRecord) : Prop := s.phase = .stopped ∨ x ∈ s.phase.batch ∨ x ∈ s.handled

variable {s : Runner} {a : RunAction}

theorem inv_iff : Inv s ↔ s.consumer.Accounted s.Kept := by
  constructor
  · intro h
    refine ⟨h.floor, h.registered, h.assigned, fun pump hpump hrun r hr => ?_⟩
    by_cases hphase : s.phase = .stopped
    · exact .inr (.inr (.inl hphase))
    · exact (h.accounted hphase pump hpump hrun r hr).imp_right (Or.imp_right .inr)
  · intro h
    refine ⟨h.floor, h.registered, h.assigned, fun hphase pump hpump hrun r hr => ?_⟩
    rcases h.traced pump hpump hrun r hr with hholds | hqueued | hstopped | hkept
    · exact .inl hholds
    · exact .inr (.inl hqueued)
    · exact absurd hstopped hphase
    · exact .inr (.inr hkept)

theorem inv_start : Inv (start .new) := inv_iff.mpr accounted_new

section
variable (h : Inv s)
include h

theorem Inv.take {out : List PolledRecord} (hphase : s.phase = .polling out) {x : Option PolledRecord} {c : Consumer}
    (htaken : Taken s.consumer (.ok x) c) :
    Inv { s with consumer := c, phase := .polling (out ++ x.toList) } := by
  refine inv_iff.mpr (((inv_iff.mp h).take htaken).mono fun y hy => .inr ?_)
  rcases hy with hnew | hstopped | hbatch | hhandled
  · exact .inl (mem_append_right _ hnew)
  · rw [hphase] at hstopped
    cases hstopped
  · rw [hphase] at hbatch
    exact .inl (mem_append_left _ hbatch)
  · exact .inr hhandled

theorem Inv.advance (hphase : s.phase ≠ .stopped) {phase : Phase} {handled : List PolledRecord}
    (hkeeps : ∀ x, x ∈ s.phase.batch ∨ x ∈ s.handled → x ∈ phase.batch ∨ x ∈ handled) :
    Inv { s with phase := phase, handled := handled } := by
  refine inv_iff.mpr ((inv_iff.mp h).mono fun x hx => ?_)
  rcases hx with hstopped | hkept
  · exact absurd hstopped hphase
  · exact .inr (hkeeps x hkept)

theorem Inv.stopped : Inv { s with phase := .stopped } :=
  ⟨h.floor, h.registered, h.assigned, fun hphase => absurd rfl hphase⟩

theorem Inv.recordPolled (out : List PolledRecord) : Inv { s with consumer := s.consumer.recordPolled out } :=
  inv_iff.mpr ((inv_iff.mp h).recordPolled out)

theorem Inv.step (maxBatch : Nat) (a : RunAction) : Inv (s.step maxBatch a) := by
  cases a with
  | join fromOffset assignments => exact inv_iff.mpr ((inv_iff.mp h).join fromOffset assignments)
  | pump k step => exact inv_iff.mpr ((inv_iff.mp h).pump k step)
  | take =>
    unfold Runner.step
    dsimp only
    split
    · rename_i out hphase
      split
      · exact h
      · split
        · exact h
        · rename_i e c htake
          have htaken := takeOne_taken htake
          cases htaken with
          | error hfanIn => exact ⟨h.floor, h.registered, h.assigned, fun hstopped => absurd rfl hstopped⟩
        · rename_i c htake
          have hinv := h.take hphase (takeOne_taken htake)
          rw [Option.toList_none, append_nil, ← hphase] at hinv
          exact hinv
        · rename_i x c htake
          exact h.take hphase (takeOne_taken htake)
    · exact h
  | polled =>
    unfold Runner.step
    dsimp only
    split
    · rename_i out hphase
      split
      · have hinv : Inv { s with phase := .handling out } :=
          h.advance (by rw [hphase]; nofun) fun x hx => by rw [hphase] at hx; exact hx
        exact hinv.recordPolled out
      · exact h
    · exact h
  | handle ok =>
    unfold Runner.step
    dsimp only
    split
    · rename_i batch hphase
      split
      · refine h.advance (by rw [hphase]; nofun) fun x hx => .inr ?_
        rw [hphase] at hx
        exact mem_append.mpr hx.symm
      · exact h.stopped
    · exact h
  | commit k ok =>
    unfold Runner.step
    dsimp only
    split
    · rename_i hphase
      exact h.advance (by rw [hphase]; nofun) fun x hx => by rw [hphase] at hx; exact hx
    · rename_i todo _ hphase
      split
      · cases ok with
        | true => exact h.advance (by rw [hphase]; nofun) fun x hx => by rw [hphase] at hx; exact hx
        | false => exact h.stopped
      · exact h
    · exact h
  | stop =>
    unfold Runner.step
    dsimp only
    split
    · exact h.stopped
    · exact h

end

def Commits (s : Runner) (a : RunAction) (p : PartitionRef) (o : Int) : Prop :=
  ∃ todo k ok, s.phase = .committing todo ∧ a = .commit k ok ∧ todo[k]? = some (p, o)

/-- A commit is issued for a partition whose pump runs, with nothing of it below the commit in the pump's hand or
    the channel. -/
def Drained (s : Runner) (a : RunAction) : Prop :=
  ∀ p o, s.Commits a p o → ∀ pump, s.consumer.lastPump p = some pump →
    pump.cancelled = false ∧ ∀ r, r.offset < o → ¬ pump.hand.Holds r ∧ (⟨p, .ok r⟩ : Inflight) ∉ s.consumer.fanIn

/-- All that the partition's pump has received below a commit was handled. -/
def CommitsHandled (s : Runner) (a : RunAction) : Prop :=
  ∀ p o, s.Commits a p o → ∀ pump, s.consumer.lastPump p = some pump →
    ∀ r ∈ pump.history, r.offset < o → ⟨r, p⟩ ∈ s.handled

theorem Inv.commitsHandled (h : Inv s) (hdrained : s.Drained a) : s.CommitsHandled a := by
  intro p o hcommits pump hpump r hr hlt
  obtain ⟨hrun, hwaits⟩ := hdrained p o hcommits pump hpump
  obtain ⟨todo, k, ok, hphase, -, -⟩ := hcommits
  obtain ⟨hhand, hqueue⟩ := hwaits r hlt
  rcases (inv_iff.mp h).kept_of hpump hrun hr hhand hqueue with hstopped | hbatch | hhandled
  · rw [hphase] at hstopped
    cases hstopped
  · rw [hphase] at hbatch
    cases hbatch
  · exact hhandled

/-- As long as Run commits only when nothing below the commit waits, every record it commits past was handled. -/
theorem run_commits_handled (maxBatch : Nat) (run : List RunAction)
    (drained : Along (step maxBatch) (start .new) run Drained) :
    Along (step maxBatch) (start .new) run CommitsHandled := by
  intro done a rest hrun
  have hall : Along (step maxBatch) (start .new) done fun _ _ => True := fun _ _ _ _ => trivial
  have hinv := hall.invariant (fun _ s => Inv s) (fun _ s a h _ => h.step maxBatch a) inv_start
  exact hinv.commitsHandled (drained done a rest hrun)

def recordAt (offset : Int) : Record := ⟨offset, 5, none, some [1], []⟩

def passOn (r : Record) : List RunAction := [.pump 0 (.receive r), .pump 0 .note, .pump 0 .send]

def subscribe : RunAction := .join 0 [⟨⟨utf8 "t", 0⟩, none, true⟩]

def pollOne : List RunAction := [.take, .polled, .handle true]

def commitOf (s : Runner) : RunAction → Option (PartitionRef × Int)
  | .commit k _ =>
    match s.phase with
    | .committing todo => todo[k]?
    | _ => none
  | _ => none

theorem commits_iff {p : PartitionRef} {o : Int} : s.Commits a p o ↔ s.commitOf a = some (p, o) := by
  constructor
  · rintro ⟨todo, k, ok, hphase, rfl, htodo⟩
    rw [commitOf, hphase]
    exact htodo
  · intro h
    cases a with
    | commit k ok =>
      cases hphase : s.phase with
      | committing todo =>
        rw [commitOf, hphase] at h
        exact ⟨todo, k, ok, hphase, rfl, h⟩
      | _ =>
        rw [commitOf, hphase] at h
        cases h
    | _ => cases h

/-- What waits of a partition: the record in its pump's hand and those in the channel. -/
def waiting (s : Runner) (pump : Pump) (p : PartitionRef) : List Record :=
  pump.hand.record.toList ++ s.consumer.fanIn.filterMap fun x => if x.partition = p then x.payload.toOption else none

theorem mem_waiting {pump : Pump} {p : PartitionRef} {r : Record} :
    r ∈ s.waiting pump p ↔ pump.hand.Holds r ∨ (⟨p, .ok r⟩ : Inflight) ∈ s.consumer.fanIn := by
  rw [waiting, mem_append, mem_filterMap]
  refine or_congr (by cases pump.hand <;> simp [Hand.record, Hand.Holds, eq_comm]) ⟨?_,
    fun h => ⟨_, h, by simp [Except.toOption]⟩⟩
  rintro ⟨⟨q, payload⟩, hx, hr⟩
  split at hr
  · rename_i hq
    cases hq
    cases payload with
    | error e => cases hr
    | ok r' =>
      cases hr
      exact hx
  · cases hr

instance : Decidable (s.Drained a) :=
  decidable_of_iff (∀ c ∈ s.commitOf a, ∀ pump ∈ s.consumer.lastPump c.1,
      pump.cancelled = false ∧ ∀ r ∈ s.waiting pump c.1, ¬ r.offset < c.2) <| by
    refine ⟨fun h p o hc pump hpump => ?_, fun h c hc pump hpump => ?_⟩
    · obtain ⟨hrun, hwaits⟩ := h _ (commits_iff.mp hc) pump hpump
      exact ⟨hrun, fun r hlt => not_or.mp fun hr => hwaits r (mem_waiting.mpr hr) hlt⟩
    · obtain ⟨hrun, hwaits⟩ := h c.1 c.2 (commits_iff.mpr hc) pump hpump
      exact ⟨hrun, fun r hr hlt => not_or.mpr (hwaits r hlt) (mem_waiting.mp hr)⟩

/-- The log has no record 1; record 2 comes after the first commit. -/
def twoRounds : List RunAction :=
  subscribe :: passOn (recordAt 0) ++ pollOne ++ .commit 0 true :: .commit 0 true :: passOn (recordAt 2) ++ pollOne

theorem run_commits_handled_gap :
    Commits (twoRounds.foldl (step 1) (start .new)) (.commit 0 true) ⟨utf8 "t", 0⟩ 3 ∧
      Along (step 1) (start .new) (twoRounds ++ [.commit 0 true]) CommitsHandled :=
  ⟨commits_iff.mpr (by decide +kernel), run_commits_handled 1 _ (by decide +kernel)⟩

/-- Both records are received before the first is polled; the commit after it is past both. -/
theorem run_commits_unhandled :
    ¬ Along (step 1) (start .new) (subscribe :: passOn (recordAt 0) ++ passOn (recordAt 1) ++ pollOne ++
      [.commit 0 true]) CommitsHandled := by
  intro h
  have hlast := h.last ⟨utf8 "t", 0⟩ 2 ⟨[(⟨utf8 "t", 0⟩, 2)], 0, true, rfl, rfl, rfl⟩ _ rfl (recordAt 1)
  exact absurd hlast (by decide +kernel)

end Runner
end Holocron.Sdk

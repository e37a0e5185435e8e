import Holocron.Connect.Sink
import Holocron.Theorems.Sdk.Accounting

/-! A commit of a sink task is right as long as nothing below it is on its way or, for the listener, with the loop. -/

namespace Holocron.Connect.Sink
open Lib Sdk Consumer List

def Stage.batch : Stage → List PolledRecord
  | .polling out => out
  | .putting batch _ => batch
  | .deadLetter todo => todo
  | .ended batch => batch
  | _ => []

def Stage.Settled : Stage → Prop
  | .flushed => True
  | .committing _ => True
  | _ => False

def State.Kept (s : State) (x : PolledRecord) : Prop := x ∈ s.stage.batch ∨ x ∈ s.accepted ∨ x ∈ s.dead

structure Inv (s : State) : Prop where
  accounted : s.consumer.Accounted s.Kept
  settled : s.stage.Settled → ∀ x ∈ s.accepted, x ∈ s.durable

variable {s s' : State} {a : Action}

theorem inv_start : Inv start := ⟨accounted_new, nofun⟩

section
variable (h : Inv s)
include h

theorem Inv.advance (consumer : s'.consumer = s.consumer) (kept : ∀ x, s.Kept x → s'.Kept x)
    (settled : s'.stage.Settled → ∀ x ∈ s'.accepted, x ∈ s'.durable) : Inv s' := by
  refine ⟨?_, settled⟩
  rw [consumer]
  exact h.accounted.mono kept

theorem Inv.stage {stage : Stage} (batch : stage.batch = s.stage.batch) (settled : stage.Settled → s.stage.Settled) :
    Inv { s with stage := stage } := by
  refine h.advance rfl (fun x hx => ?_) fun hsettled => h.settled (settled hsettled)
  unfold State.Kept at hx ⊢
  rwa [batch]

theorem Inv.pump (k : Nat) (step : PumpStep) : Inv { s with consumer := s.consumer.pumpStep k step } :=
  ⟨h.accounted.pump k step, h.settled⟩

theorem Inv.join (fromOffset : Int) (assignments : List Assigned) :
    Inv { s with consumer := s.consumer.join fromOffset assignments } :=
  ⟨h.accounted.join fromOffset assignments, h.settled⟩

theorem Inv.listener (listener : Listener) : Inv { s with listener := listener } := ⟨h.accounted, h.settled⟩

theorem Inv.take {out : List PolledRecord} (hstage : s.stage = .polling out) {x : Option PolledRecord} {c : Consumer}
    (htaken : Taken s.consumer (.ok x) c) : Inv { s with consumer := c, stage := .polling (out ++ x.toList) } := by
  refine ⟨(h.accounted.take htaken).mono fun y hy => ?_, nofun⟩
  rcases hy with hnew | hbatch | hrest
  · exact .inl (mem_append_right _ hnew)
  · rw [hstage] at hbatch
    exact .inl (mem_append_left _ hbatch)
  · exact .inr hrest

end

theorem batch_gaveUp (mount : SinkMount) (batch : List PolledRecord) : (gaveUp mount batch).batch = batch := by
  unfold gaveUp
  split <;> rfl

theorem not_settled_gaveUp (mount : SinkMount) (batch : List PolledRecord) : ¬ (gaveUp mount batch).Settled := by
  unfold gaveUp
  split <;> exact id

section
variable (h : Inv s)
include h

theorem Inv.put {batch : List PolledRecord} {left : Nat} (hstage : s.stage = .putting batch left) :
    Inv { s with stage := .ticking, accepted := s.accepted ++ batch } := by
  refine h.advance rfl (fun x hx => ?_) nofun
  rcases hx with hbatch | haccepted | hdead
  · rw [hstage] at hbatch
    exact .inr (.inl (mem_append_right _ hbatch))
  · exact .inr (.inl (mem_append_left _ haccepted))
  · exact .inr (.inr hdead)

theorem Inv.sendDLQ {y : PolledRecord} {todo : List PolledRecord} (hstage : s.stage = .deadLetter (y :: todo)) :
    Inv { s with stage := .deadLetter todo, dead := s.dead ++ [y] } := by
  refine h.advance rfl (fun x hx => ?_) nofun
  rcases hx with hbatch | haccepted | hdead
  · rw [hstage] at hbatch
    rcases mem_cons.mp hbatch with rfl | htodo
    · exact .inr (.inr mem_concat_self)
    · exact .inl htodo
  · exact .inr (.inl haccepted)
  · exact .inr (.inr (mem_append_left _ hdead))

theorem Inv.flush (hstage : s.stage = .ticking) : Inv { s with stage := .flushed, durable := s.durable ++ s.accepted } := by
  refine h.advance rfl (fun x hx => ?_) fun _ x hx => mem_append_right _ hx
  unfold State.Kept at hx ⊢
  rw [hstage] at hx
  exact hx

/-- What a Flush covers stays covered. -/
theorem Inv.revokeFlushed (parts : List PartitionRef) (covers : List PolledRecord) :
    Inv { s with listener := .flushed parts, durable := s.durable ++ covers } :=
  h.advance rfl (fun _ hx => hx) fun hsettled x hx => mem_append_left _ (h.settled hsettled x hx)

theorem Inv.step (mount : SinkMount) (a : Action) : Inv (step mount s a) := by
  unfold Sink.step
  cases a <;> dsimp only
  case pump k step => exact h.pump k step
  case subscribe assignments =>
    split
    · exact h.join 0 assignments
    · exact h
  case subscribed | pollTimeout | noTick | stop =>
    split
    · rename_i hstage
      exact h.stage (by rw [hstage]; rfl) nofun
    · exact h
  case take =>
    split
    · rename_i out hstage
      split
      · exact h
      · split
        · exact h
        · rename_i e c htake
          refine ⟨(h.accounted.take_error (takeOne_taken htake)).recordPolled out |>.mono fun x hx => ?_, nofun⟩
          unfold State.Kept at hx ⊢
          rw [hstage] at hx
          exact hx
        · rename_i c htake
          have hinv := h.take hstage (takeOne_taken htake)
          rw [Option.toList_none, append_nil, ← hstage] at hinv
          exact hinv
        · rename_i x c htake
          exact h.take hstage (takeOne_taken htake)
    · exact h
  case polled =>
    split
    · rename_i out hstage
      split
      · have hinv : Inv { s with stage := .putting out mount.attempts } := h.stage (by rw [hstage]; rfl) nofun
        exact ⟨hinv.accounted.recordPolled out, hinv.settled⟩
      · exact h
    · exact h
  case put ok =>
    split
    · rename_i batch left hstage
      split
      · exact h.put hstage
      · split
        · exact h.stage (by rw [hstage]; exact batch_gaveUp mount batch) fun hsettled =>
            absurd hsettled (not_settled_gaveUp mount batch)
        · exact h.stage (by rw [hstage]; rfl) nofun
    · exact h
  case putCancelled =>
    split
    · rename_i batch left hstage
      split
      · exact h.stage (by rw [hstage]; exact batch_gaveUp mount batch) fun hsettled =>
          absurd hsettled (not_settled_gaveUp mount batch)
      · exact h
    · exact h
  case sendDLQ ok =>
    split
    · rename_i hstage
      exact h.stage (by rw [hstage]; rfl) nofun
    · rename_i x todo hstage
      split
      · exact h.sendDLQ hstage
      · exact h.stage (by rw [hstage]; rfl) nofun
    · exact h
  case tick ok =>
    split
    · rename_i hstage
      split
      · exact h.flush hstage
      · exact h.stage (by rw [hstage]; rfl) nofun
    · exact h
  case latestOffsets =>
    split
    · rename_i hstage
      exact h.stage (by rw [hstage]; rfl) fun _ => by rw [hstage]; trivial
    · exact h
  case commit k ok =>
    split
    · rename_i hstage
      exact h.stage (by rw [hstage]; rfl) nofun
    · rename_i todo _ hstage
      split
      · cases ok with
        | true => exact h.stage (by rw [hstage]; rfl) fun _ => by rw [hstage]; trivial
        | false => exact h.stage (by rw [hstage]; rfl) nofun
      · exact h
    · exact h
  case revoke | callFlush | revokeLatest | joinFails =>
    split
    · exact h.listener _
    · exact h
  case revokeFlushed ok =>
    split
    · rename_i parts covers _
      split
      · exact h.revokeFlushed parts covers
      · exact h.listener _
    · exact h
  case revokeCommit ok =>
    split
    · exact h.listener _
    · exact h.listener _
    · exact h
  case join fromOffset assignments =>
    split
    · exact (h.join fromOffset assignments).listener _
    · exact h

end

def LoopCommits (s : State) (a : Action) (p : PartitionRef) (o : Int) : Prop :=
  ∃ todo k ok, s.stage = .committing todo ∧ a = .commit k ok ∧ todo[k]? = some (p, o)

def ListenerCommits (s : State) (a : Action) (p : PartitionRef) (o : Int) : Prop :=
  ∃ todo ok, s.listener = .committing ((p, o) :: todo) ∧ a = .revokeCommit ok

/-- The partition's pump runs, and nothing of it below the offset is in its hand or in the channel. -/
def Arrived (s : State) (p : PartitionRef) (o : Int) : Prop :=
  ∀ pump, s.consumer.lastPump p = some pump →
    pump.cancelled = false ∧ ∀ r, r.offset < o → ¬ pump.hand.Holds r ∧ (⟨p, .ok r⟩ : Inflight) ∉ s.consumer.fanIn

/-- The loop has nothing of the partition below the offset in its batch, and has put nothing of it since the last Flush. -/
def Unheld (s : State) (p : PartitionRef) (o : Int) : Prop :=
  ∀ r, r.offset < o → ⟨r, p⟩ ∉ s.stage.batch ∧ (⟨r, p⟩ ∈ s.accepted → ⟨r, p⟩ ∈ s.durable)

/-- What is below a commit has arrived, and at one of the listener none of it is held. -/
def Drained (s : State) (a : Action) : Prop :=
  ∀ p o, (LoopCommits s a p o → Arrived s p o) ∧ (ListenerCommits s a p o → Arrived s p o ∧ Unheld s p o)

/-- All that the partition's pump has received below a commit is durable or in the dead-letter topic. -/
def CommitsDurable (s : State) (a : Action) : Prop :=
  ∀ p o, LoopCommits s a p o ∨ ListenerCommits s a p o → ∀ pump, s.consumer.lastPump p = some pump →
    ∀ r ∈ pump.history, r.offset < o → ⟨r, p⟩ ∈ s.durable ∨ ⟨r, p⟩ ∈ s.dead

theorem Inv.unheld (h : Inv s) {p : PartitionRef} {o : Int} (hcommits : LoopCommits s a p o) : Unheld s p o := by
  obtain ⟨todo, k, ok, hstage, -, -⟩ := hcommits
  intro r _
  refine ⟨?_, fun haccepted => h.settled (by rw [hstage]; trivial) _ haccepted⟩
  rw [hstage]
  exact not_mem_nil

theorem Inv.commitsDurable (h : Inv s) (hdrained : Drained s a) : CommitsDurable s a := by
  intro p o hcommits pump hpump r hr hlt
  have hsafe : Arrived s p o ∧ Unheld s p o := by
    rcases hcommits with hloop | hlistener
    · exact ⟨(hdrained p o).1 hloop, h.unheld hloop⟩
    · exact (hdrained p o).2 hlistener
  obtain ⟨harrived, hunheld⟩ := hsafe
  obtain ⟨hrun, hwaits⟩ := harrived pump hpump
  obtain ⟨hhand, hqueue⟩ := hwaits r hlt
  obtain ⟨hbatch, hflushed⟩ := hunheld r hlt
  rcases h.accounted.kept_of hpump hrun hr hhand hqueue with hheld | haccepted | hdead
  · exact absurd hheld hbatch
  · exact .inl (hflushed haccepted)
  · exact .inr hdead

def recordAt (offset : Int) : Record := ⟨offset, 5, none, some [1], []⟩

def passOn (r : Record) : List Action := [.pump 0 (.receive r), .pump 0 .note, .pump 0 .send]

def subscribeOne : List Action := [.subscribe [⟨⟨utf8 "t", 0⟩, none, true⟩], .subscribed]

def revokeAll : List Action := [.revoke, .callFlush, .revokeFlushed true, .revokeLatest, .revokeCommit true]

/-- A record is put and flushed; the loop commits it, and the listener once more. -/
def putAndFlush : List Action :=
  subscribeOne ++ passOn (recordAt 0) ++ [.take, .polled, .put true, .tick true, .latestOffsets, .commit 0 true] ++ revokeAll

theorem drained_of_none (commit : ∀ k ok, a ≠ .commit k ok) (revokeCommit : ∀ ok, a ≠ .revokeCommit ok) : Drained s a := by
  refine fun p o => ⟨?_, ?_⟩
  · rintro ⟨todo, k, ok, -, ha, -⟩
    exact absurd ha (commit k ok)
  · rintro ⟨todo, ok, -, ha⟩
    exact absurd ha (revokeCommit ok)

end Holocron.Connect.Sink

import Holocron.Cluster.Fsm
import Holocron.Theorems.Cluster.Command
import Holocron.Theorems.Storage.Contract

/-! Agreement of replicas. Nodes apply the same entries with their own clocks, which only stamp records that come
    without a timestamp. -/

namespace Holocron.Cluster
open Lib Storage List

/-- The clock stamps only records that come without a timestamp. -/
class ClockFree (σ : Type) [Store σ] : Prop where
  append_stamped (s : σ) (ctx : Ctx) (now now' : Int64) (p : PartitionRef) (r : Record) :
    r.timestamp ≠ 0 → Store.append s ctx now p r = Store.append s ctx now' p r

instance : ClockFree MemoryStore where
  append_stamped s ctx now now' p r h := by
    simp only [Store.append, MemoryStore.append, stamp_of_timestamp h now now']

instance : ClockFree FileStore where
  append_stamped s ctx now now' p r h := by
    simp only [Store.append, FileStore.append, stamp_of_timestamp h now now']

/-- The commands a broker submits; it publishes to registered topics only. -/
inductive Submitted : Command → Prop where
  | publish (p : PartitionRef) (r : Record) (valid : Topic.nameRe p.topic = true) : Submitted (publishCommand p r)
  | create (spec : Topic.Spec) : Submitted (createTopicCommand spec)
  | delete (name : Bytes) : Submitted (deleteTopicCommand name)
  | update (name : Bytes) (retentionMs segmentBytes : Int64) :
      Submitted (updateTopicConfigCommand name retentionMs segmentBytes)

/-- What is appended comes with its timestamp. -/
def Command.Stamped : Command → Prop
  | .append c => c.record.timestamp ≠ 0
  | _ => True

theorem nameRe_length {name : Bytes} (h : Topic.nameRe name = true) : name.length ≤ 249 := by
  simp only [Topic.nameRe, Bool.and_eq_true, decide_eq_true_eq] at h
  exact h.1.2

namespace Fsm

variable {σ : Type} [Store σ] [ClockFree σ]

theorem apply_clock (f : Fsm σ) {c : Command} (submitted : Submitted c) (stamped : c.Stamped) (now now' : Int64) :
    f.apply now c.encode = f.apply now' c.encode := by
  cases hd : decode c.encode with
  | error e => simp only [apply, hd]
  | ok d =>
    cases d with
    | createTopic a | deleteTopic a | updateTopicConfig a => simp only [apply, hd]
    | append a =>
      have hts : a.record.timestamp ≠ 0 := by
        obtain ⟨b, rfl, hkeeps⟩ := timestamp_of_decode hd
        cases submitted with
        | publish p r valid =>
          rw [hkeeps (Nat.lt_of_le_of_lt (nameRe_length valid) (by decide))]
          exact stamped
      simp only [apply, hd, applyAppend]
      split
      · rfl
      · rw [ClockFree.append_stamped _ _ now now' _ _ hts]

/-- Nodes that start alike and apply the same stamped commands, whatever their clocks, give the same
    responses and end with the same store and the same registry. -/
theorem applyAll_agree (f : Fsm σ) (cmds : List Command) (submitted : ∀ c ∈ cmds, Submitted c)
    (stamped : ∀ c ∈ cmds, c.Stamped) (clock clock' : List Int64) (h : clock.length = cmds.length)
    (h' : clock'.length = cmds.length) :
    f.applyAll (clock.zip (cmds.map Command.encode)) = f.applyAll (clock'.zip (cmds.map Command.encode)) := by
  induction cmds generalizing f clock clock' with
  | nil => simp [applyAll]
  | cons c cmds ih =>
    obtain ⟨now, clock, rfl⟩ := exists_cons_of_length_eq_add_one h
    obtain ⟨now', clock', rfl⟩ := exists_cons_of_length_eq_add_one h'
    have hstep := f.apply_clock (submitted c mem_cons_self) (stamped c mem_cons_self) now now'
    have hrest := ih (f.apply now c.encode).2 (fun x hx => submitted x (mem_cons_of_mem c hx))
      (fun x hx => stamped x (mem_cons_of_mem c hx)) clock clock' (Nat.succ.inj h) (Nat.succ.inj h')
    rw [hstep] at hrest
    simp [applyAll, hstep, hrest]

def fresh : Fsm MemoryStore := ⟨MemoryStore.new, Topic.Registry.new⟩

def createAndPublish (timestamp : Int64) : List Command :=
  [createTopicCommand ⟨[116], 1, 0, 0⟩, publishCommand ⟨[116], 0⟩ ⟨0, timestamp, none, some [7], []⟩]

theorem applyAll_agree_published :
    (fresh.applyAll ([10, 11].zip ((createAndPublish 5).map Command.encode))).1 = [.done, .offset 0] ∧
      fresh.applyAll ([10, 11].zip ((createAndPublish 5).map Command.encode)) =
        fresh.applyAll ([20, 21].zip ((createAndPublish 5).map Command.encode)) := by
  refine ⟨by decide +kernel, fresh.applyAll_agree (createAndPublish 5) ?_ ?_ [10, 11] [20, 21] rfl rfl⟩
  · intro c hc
    rcases mem_pair.mp hc with rfl | rfl
    · exact .create _
    · exact .publish _ _ (by decide)
  · intro c hc
    rcases mem_pair.mp hc with rfl | rfl
    · trivial
    · exact (by decide : (5 : Int64) ≠ 0)

/-- A record published without a timestamp gets each node's own time. -/
theorem applyAll_diverges :
    (fresh.applyAll ([10, 11].zip ((createAndPublish 0).map Command.encode))).2.store.get ⟨[116], 0⟩ ≠
      (fresh.applyAll ([20, 21].zip ((createAndPublish 0).map Command.encode))).2.store.get ⟨[116], 0⟩ := by
  decide +kernel

end Fsm
end Holocron.Cluster

import Holocron.Storage.Store

/-! A store keeps every partition in a slot of its own, on which alone operations on it depend; deleting a topic leaves
    its slots blank. -/

namespace Holocron.Storage
open Lib Log Function

structure ActsOn {σ S α : Type} (slot : σ → PartitionRef → S) (p : PartitionRef) (op : σ → Except StoreError α × σ) : Prop where
  frame (s : σ) {q : PartitionRef} : q ≠ p → slot (op s).2 q = slot s q
  answer {s s' : σ} : slot s p = slot s' p → (op s).1 = (op s').1
  effect {s s' : σ} : slot s p = slot s' p → slot (op s).2 p = slot (op s').2 p

class Slotted (σ : Type) [Store σ] where
  Slot : Type
  slot : σ → PartitionRef → Slot
  blank : σ → Slot
  append (ctx : Ctx) (now : Int64) (p : PartitionRef) (r : Record) : ActsOn slot p fun s => Store.append s ctx now p r
  read (ctx : Ctx) (p : PartitionRef) (n m : Int) : ActsOn slot p fun s => Store.read s ctx p n m
  panics (ctx : Ctx) {p : PartitionRef} (n m : Int) {s s' : σ} :
    slot s p = slot s' p → Store.readPanics s ctx p n m = Store.readPanics s' ctx p n m
  highWater (ctx : Ctx) (p : PartitionRef) : ActsOn slot p fun s => Store.highWater s ctx p
  unused {s s' : σ} {p : PartitionRef} : slot s p = blank s' → (Store.highWater s .background p).1 = .ok 0
  deleted (s : σ) {topic : Bytes} {p : PartitionRef} :
    p.topic = topic → slot (Store.deleteTopic s .background topic).2 p = blank s
  kept (s : σ) {topic : Bytes} {p : PartitionRef} :
    p.topic ≠ topic → slot (Store.deleteTopic s .background topic).2 p = slot s p

namespace ActsOn
variable {σ S α β : Type} {slot : σ → PartitionRef → S} {p : PartitionRef}

theorem pure (res : Except StoreError α) : ActsOn slot p fun s => (res, s) :=
  ⟨fun _ _ _ => rfl, fun _ => rfl, fun h => h⟩

variable {op : σ → Except StoreError α × σ}

/-- Where all slots of a topic agree, they agree after the operation. -/
theorem agree {topic : Bytes} {i : Int32} (h : ActsOn slot ⟨topic, i⟩ op) {s s' : σ}
    (hs : ∀ i, slot s ⟨topic, i⟩ = slot s' ⟨topic, i⟩)
    (k : Int32) : slot (op s).2 ⟨topic, k⟩ = slot (op s').2 ⟨topic, k⟩ := by
  by_cases hk : k = i
  · rw [hk]
    exact h.effect (hs i)
  · have hne : (⟨topic, k⟩ : PartitionRef) ≠ ⟨topic, i⟩ := fun heq => hk (PartitionRef.mk.inj heq).2
    rw [h.frame s hne, h.frame s' hne, hs k]

theorem guarded (h : ActsOn slot p op) (ctx : Ctx) : ActsOn slot p fun s => guarded s ctx (op s) := by
  obtain ⟨err⟩ := ctx
  cases err with
  | none => exact h
  | some e => exact .pure _

/-- One operation after another, which sees what the first answered. -/
theorem bind {both : σ → Except StoreError β × σ} (h : ActsOn slot p op) (next : α → σ → Except StoreError β × σ)
    (hnext : ∀ a, ActsOn slot p (next a)) (failed : ∀ {s e s'}, op s = (.error e, s') → both s = (.error e, s'))
    (done : ∀ {s a s'}, op s = (.ok a, s') → both s = next a s') : ActsOn slot p both := by
  have split s : ∃ res s', op s = (res, s') := ⟨_, _, rfl⟩
  refine ⟨fun s q hq => ?_, fun {s s'} hs => ?_, fun {s s'} hs => ?_⟩
  · have hframe := h.frame s hq
    obtain ⟨res, s₁, hop⟩ := split s
    rw [hop] at hframe
    cases res with
    | error e =>
      rw [failed hop]
      exact hframe
    | ok a =>
      rw [done hop]
      exact ((hnext a).frame s₁ hq).trans hframe
  all_goals
    have hanswer := h.answer hs
    have heffect := h.effect hs
    obtain ⟨res, s₁, hop⟩ := split s
    obtain ⟨res', s₁', hop'⟩ := split s'
    rw [hop, hop'] at hanswer heffect
    obtain rfl : res = res' := hanswer
  · cases res with
    | error e => rw [failed hop, failed hop']
    | ok a =>
      rw [done hop, done hop']
      exact (hnext a).answer heffect
  · cases res with
    | error e =>
      rw [failed hop, failed hop']
      exact heffect
    | ok a =>
      rw [done hop, done hop']
      exact (hnext a).effect heffect

end ActsOn

instance : Slotted MemoryStore where
  Slot := Option (List Record)
  slot := MemoryStore.partitions
  blank _ := none
  append ctx now p r := by
    refine ActsOn.guarded ⟨fun s q hq => update_of_ne hq .., fun h => ?_, fun h => ?_⟩ ctx
    · simp only [MemoryStore.get, h]
    · simp [MemoryStore.get, h]
  read ctx p n m := by
    refine ActsOn.guarded ?_ ctx
    by_cases hn : n < 0
    · simp only [if_pos hn]
      exact .pure _
    · by_cases hm : m ≤ 0
      · simp only [if_neg hn, if_pos hm]
        exact .pure _
      · simp only [if_neg hn, if_neg hm]
        exact ⟨fun _ _ _ => rfl, fun h => by simp only [MemoryStore.get, h], fun h => h⟩
  highWater ctx p := by
    refine ActsOn.guarded ?_ ctx
    exact ⟨fun _ _ _ => rfl, fun h => by simp only [MemoryStore.get, h], fun h => h⟩
  panics ctx p n m s s' h := by
    have hget : s.get p = s'.get p := congrArg (fun found : Option (List Record) => found.getD []) h
    simp only [Store.readPanics, MemoryStore.readPanics]
    rw [hget]
  unused {s s' p} h := by
    change Except.ok (((s.partitions p).getD []).length : Int) = .ok 0
    rw [h]
    rfl
  deleted _ _ _ h := if_pos h
  kept _ _ _ h := if_neg h

namespace FileStore

structure FileSlot where
  log : Option PartitionLog
  dir : Dir
  segmentSize : Int

def slot (s : FileStore) (p : PartitionRef) : FileSlot := ⟨s.logs p, s.disk p, s.segmentSize⟩

theorem setLog_slot_self (s : FileStore) (p : PartitionRef) (l : PartitionLog) :
    (s.setLog p l).slot p = ⟨some l, s.disk p, s.segmentSize⟩ := by
  simp [slot, setLog]

theorem setLog_actsOn {α : Type} (p : PartitionRef) (res : Except StoreError α) (l : PartitionLog) :
    ActsOn slot p fun s => (res, s.setLog p l) := by
  refine ⟨fun s q hq => ?_, fun _ => rfl, fun {s s'} h => ?_⟩
  · simp only [slot, setLog, update_of_ne hq]
  · obtain ⟨-, hdir, hsize⟩ := FileSlot.mk.inj h
    simp only [setLog_slot_self, hdir, hsize]

theorem openLog_actsOn (p : PartitionRef) : ActsOn slot p fun s => s.openLog p := by
  refine ⟨fun s q hq => ?_, fun {s s'} h => ?_, fun {s s'} h => ?_⟩
  · unfold openLog
    split
    · rfl
    · split
      · rfl
      · exact (setLog_actsOn p (.ok ()) _).frame s hq
  all_goals
    obtain ⟨hlog, hdir, hsize⟩ := FileSlot.mk.inj h
    simp only [openLog, hlog, hdir, hsize]
    cases s'.logs p
  · cases PartitionLog.openPartition (s'.disk p) s'.segmentSize <;> rfl
  · rfl
  · cases PartitionLog.openPartition (s'.disk p) s'.segmentSize with
    | error e => exact h
    | ok l => exact (setLog_actsOn p (.ok ()) l).effect h
  · exact h

end FileStore

open FileStore in
instance : Slotted FileStore where
  Slot := FileSlot
  slot := FileStore.slot
  blank s := ⟨none, [], s.segmentSize⟩
  append ctx now p r := by
    refine ActsOn.guarded ((openLog_actsOn p).bind (fun l s => match l.append (stamp now l.highWater r) with
      | .error e => (.error (.log e), s)
      | .ok (offset, l') => (.ok offset, s.setLog p l')) (fun l => ?_) ?_ ?_) ctx
    · cases l.append (stamp now l.highWater r) with
      | error e => exact .pure _
      | ok r => exact setLog_actsOn p _ _
    · intro s e s' h
      simp only [h]
    · intro s l s' h
      cases happend : l.append (stamp now l.highWater r) <;> simp only [h, happend]
  read ctx p n m := by
    refine ActsOn.guarded ?_ ctx
    by_cases hn : n < 0
    · simp only [if_pos hn]
      exact .pure _
    · simp only [if_neg hn]
      refine (openLog_actsOn p).bind (fun l s => match l.read n m with
        | (.error e, l') => (.error (.log e), s.setLog p l')
        | (.ok records, l') => (.ok records, s.setLog p l')) (fun l => ?_) ?_ ?_
      · obtain ⟨res, l', hl⟩ : ∃ res l', l.read n m = (res, l') := ⟨_, _, rfl⟩
        cases res with
        | error e | ok records =>
          simp only [hl]
          exact setLog_actsOn p _ _
      · intro s e s' h
        simp only [h]
      · intro s l s' h
        obtain ⟨res, l', hl⟩ : ∃ res l', l.read n m = (res, l') := ⟨_, _, rfl⟩
        cases res <;> simp only [h, hl]
  highWater ctx p := by
    refine ActsOn.guarded ((openLog_actsOn p).bind (fun l s => (.ok l.highWater, s)) (fun l => .pure _) ?_ ?_) ctx
    · intro s e s' h
      simp only [h]
    · intro s e s' h
      simp only [h]
  panics ctx p n m s s' h := by
    have hopen := (openLog_actsOn p).answer h
    simp only [Store.readPanics, FileStore.readPanics, hopen]
  unused {s s' p} h := by
    obtain ⟨hlog, hdir, -⟩ := FileSlot.mk.inj h
    simp only [Store.highWater, FileStore.highWater, guarded, Ctx.background, openLog, hlog, hdir]
    rfl
  deleted s topic p h := by
    have hslot : FileStore.slot (Store.deleteTopic s .background topic).2 p =
        ⟨if p.topic = topic then none else s.logs p, if p.topic = topic then [] else s.disk p, s.segmentSize⟩ := rfl
    rw [hslot, if_pos h, if_pos h]
  kept s topic p h := by
    have hslot : FileStore.slot (Store.deleteTopic s .background topic).2 p =
        ⟨if p.topic = topic then none else s.logs p, if p.topic = topic then [] else s.disk p, s.segmentSize⟩ := rfl
    rw [hslot, if_neg h, if_neg h]
    rfl

end Holocron.Storage

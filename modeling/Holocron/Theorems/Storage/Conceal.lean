import Holocron.Theorems.Log.Twin
import Holocron.Theorems.Storage.Sweep

/-! Stores that differ only in what the records of one topic say answer alike, unless records or log files of the topic
    are read. -/

namespace Holocron.Storage
open Lib Log Function

structure InStep {α σ : Type} (R : σ → σ → Prop) (x x' : α × σ) : Prop where
  answer : x'.1 = x.1
  next : R x.2 x'.2

theorem InStep.split {α σ : Type} {R : σ → σ → Prop} {x x' : α × σ} (h : InStep R x x') :
    ∃ res s s', x = (res, s) ∧ x' = (res, s') ∧ R s s' :=
  ⟨x.1, x.2, x'.2, rfl, Prod.ext h.answer rfl, h.next⟩

class Concealing (σ : Type) [Store σ] [Snapshots σ] where
  Twin : Bytes → σ → σ → Prop
  append {T : Bytes} {s s' : σ} (h : Twin T s s') (ctx : Ctx) (now : Int64) (p : PartitionRef) (r : Record) :
    InStep (Twin T) (Store.append s ctx now p r) (Store.append s' ctx now p r)
  read {T : Bytes} {s s' : σ} (h : Twin T s s') (ctx : Ctx) {p : PartitionRef} (hp : p.topic ≠ T) (n m : Int) :
    InStep (Twin T) (Store.read s ctx p n m) (Store.read s' ctx p n m)
  highWater {T : Bytes} {s s' : σ} (h : Twin T s s') (ctx : Ctx) (p : PartitionRef) :
    InStep (Twin T) (Store.highWater s ctx p) (Store.highWater s' ctx p)
  sync {T : Bytes} {s s' : σ} (h : Twin T s s') (ctx : Ctx) (p : PartitionRef) :
    InStep (Twin T) (Store.sync s ctx p) (Store.sync s' ctx p)
  deleteTopic {T : Bytes} {s s' : σ} (h : Twin T s s') (ctx : Ctx) (topic : Bytes) :
    InStep (Twin T) (Store.deleteTopic s ctx topic) (Store.deleteTopic s' ctx topic)
  listSegments (snapper : SegmentSnapshotter σ) (hsnapper : Snapshots.snapper = some snapper) {T : Bytes} {s s' : σ}
    (h : Twin T s s')
    (ctx : Ctx) (p : PartitionRef) : InStep (Twin T) (snapper.listSegments s ctx p) (snapper.listSegments s' ctx p)
  fetchSegmentChunk (snapper : SegmentSnapshotter σ) (hsnapper : Snapshots.snapper = some snapper) {T : Bytes}
    {s s' : σ} (h : Twin T s s')
    (ctx : Ctx) {p : PartitionRef} {kind : SegmentKind} (hp : p.topic = T → kind = .idx) (base offset maxBytes : Int) :
    InStep (Twin T) (snapper.fetchSegmentChunk s ctx p base kind offset maxBytes)
      (snapper.fetchSegmentChunk s' ctx p base kind offset maxBytes)

structure MemoryStore.Twin (T : Bytes) (s s' : MemoryStore) : Prop where
  records (p : PartitionRef) : List.Forall₂ Log.Twin (s.get p) (s'.get p)
  others (p : PartitionRef) (hp : p.topic ≠ T) : s'.get p = s.get p

namespace MemoryStore

variable {T : Bytes} {s s' : MemoryStore}

theorem Twin.length (h : Twin T s s') (p : PartitionRef) : (s'.get p).length = (s.get p).length := (h.records p).length_eq.symm

theorem get_update (s : MemoryStore) (p q : PartitionRef) (rs : List Record) :
    MemoryStore.get ⟨update s.partitions p (some rs)⟩ q = if q = p then rs else s.get q := by
  by_cases hq : q = p
  · simp [get, hq]
  · simp [get, hq]

theorem Twin.append (h : Twin T s s') (ctx : Ctx) (now : Int64) (p : PartitionRef) (r : Record) :
    InStep (Twin T) (s.append ctx now p r) (s'.append ctx now p r) := by
  simp only [MemoryStore.append, guarded, h.length p]
  cases ctx.err with
  | some e => exact ⟨rfl, h⟩
  | none =>
    refine ⟨rfl, fun q => ?_, fun q hq => ?_⟩
    · simp only [get_update]
      split
      · exact List.rel_append (h.records p) (.cons ⟨rfl, rfl, rfl⟩ .nil)
      · exact h.records q
    · simp only [get_update]
      split
      · rename_i heq
        rw [h.others p (heq ▸ hq)]
      · exact h.others q hq

theorem Twin.deleteTopic (h : Twin T s s') (ctx : Ctx) (topic : Bytes) : InStep (Twin T) (s.deleteTopic ctx topic)
    (s'.deleteTopic ctx topic) := by
  have hget : ∀ (s : MemoryStore) q,
      MemoryStore.get ⟨fun p => if p.topic = topic then none else s.partitions p⟩ q = if q.topic = topic then []
        else s.get q := fun s q => by
    simp only [MemoryStore.get]
    split <;> rfl
  simp only [MemoryStore.deleteTopic, guarded]
  cases ctx.err with
  | some e => exact ⟨rfl, h⟩
  | none =>
    refine ⟨rfl, fun q => ?_, fun q hq => ?_⟩
    · simp only [hget]
      split
      · exact .nil
      · exact h.records q
    · simp only [hget, h.others q hq]

instance : Concealing MemoryStore where
  Twin := MemoryStore.Twin
  append h := h.append
  read h ctx p hp n m := by
    simp only [Store.read, MemoryStore.read, guarded, h.others p hp]
    cases ctx.err with
    | some e => exact ⟨rfl, h⟩
    | none =>
      dsimp only
      split
      · exact ⟨rfl, h⟩
      · split <;> exact ⟨rfl, h⟩
  highWater h ctx p := by
    simp only [Store.highWater, MemoryStore.highWater, guarded, h.length p]
    cases ctx.err <;> exact ⟨rfl, h⟩
  sync h ctx p := by
    simp only [Store.sync, MemoryStore.sync, guarded]
    cases ctx.err <;> exact ⟨rfl, h⟩
  deleteTopic h := h.deleteTopic
  listSegments _ hsnapper := by cases hsnapper
  fetchSegmentChunk _ hsnapper := by cases hsnapper

end MemoryStore

namespace FileStore

structure Like (T : Bytes) (p : PartitionRef) (l l' : PartitionLog) : Prop where
  twin : l.Twin l'
  same : p.topic ≠ T → l' = l

theorem Like.refl {T : Bytes} (p : PartitionRef) (l : PartitionLog) : Like T p l l := ⟨.refl l, fun _ => rfl⟩

inductive PartTwin (T : Bytes) (p : PartitionRef) : Option PartitionLog → Option PartitionLog → Dir → Dir → Prop
  | opened {l l' : PartitionLog} {d d' : Dir} (h : Like T p l l') : PartTwin T p (some l) (some l') d d'
  | closed {d d' : Dir} (twin : Dir.Twin d d') (same : p.topic ≠ T → d' = d) : PartTwin T p none none d d'

structure Twin (T : Bytes) (s s' : FileStore) : Prop where
  segmentSize : s'.segmentSize = s.segmentSize
  parts (p : PartitionRef) : PartTwin T p (s.logs p) (s'.logs p) (s.disk p) (s'.disk p)

namespace Twin

variable {T : Bytes} {s s' : FileStore} {p : PartitionRef}

theorem setLog (h : Twin T s s') {l l' : PartitionLog} (hl : Like T p l l') : Twin T (s.setLog p l) (s'.setLog p l') := by
  refine ⟨h.segmentSize, fun q => ?_⟩
  by_cases hq : q = p
  · subst hq
    simp only [FileStore.setLog, update_self]
    exact .opened hl
  · simp only [FileStore.setLog, update_of_ne hq]
    exact h.parts q

theorem openPartition {d d' : Dir} (twin : Dir.Twin d d') (same : p.topic ≠ T → d' = d) (maxBytes : Int) :
    Both (Like T p) (PartitionLog.openPartition d maxBytes) (PartitionLog.openPartition d' maxBytes) := by
  have hboth := PartitionLog.Twin.openPartition twin maxBytes
  by_cases hp : p.topic = T
  · generalize PartitionLog.openPartition d maxBytes = res at hboth ⊢
    generalize PartitionLog.openPartition d' maxBytes = res' at hboth ⊢
    cases hboth with
    | error e => exact .error e
    | ok hl => exact .ok ⟨hl, fun hne => absurd hp hne⟩
  · rw [same hp] at hboth ⊢
    generalize PartitionLog.openPartition d maxBytes = res at hboth ⊢
    cases res with
    | error e => exact .error e
    | ok l =>
      cases hboth with
      | ok hl => exact .ok ⟨hl, fun _ => rfl⟩

theorem openLog (h : Twin T s s') (p : PartitionRef) :
    Both (Like T p) (s.openLog p).1 (s'.openLog p).1 ∧ Twin T (s.openLog p).2 (s'.openLog p).2 := by
  have hpart := h.parts p
  unfold FileStore.openLog
  rw [h.segmentSize]
  generalize s.logs p = log at hpart ⊢
  generalize s'.logs p = log' at hpart ⊢
  cases hpart with
  | opened hl => exact ⟨.ok hl, h⟩
  | closed twin same =>
    have hboth := openPartition twin same s.segmentSize
    generalize PartitionLog.openPartition (s.disk p) s.segmentSize = res at hboth ⊢
    generalize PartitionLog.openPartition (s'.disk p) s.segmentSize = res' at hboth ⊢
    cases hboth with
    | error e => exact ⟨.error _, h⟩
    | ok hl => exact ⟨.ok hl, h.setLog hl⟩

theorem withLog (h : Twin T s s') (p : PartitionRef) {ε α : Type} (fail : StoreError → ε)
    {op op' : FileStore → PartitionLog → Except ε α × FileStore}
    (hop : ∀ {t t' l l'}, Twin T t t' → Like T p l l' → InStep (Twin T) (op t l) (op' t' l')) :
    InStep (Twin T)
      (match s.openLog p with
        | (.error e, t) => (.error (fail e), t)
        | (.ok l, t) => op t l)
      (match s'.openLog p with
        | (.error e, t) => (.error (fail e), t)
        | (.ok l, t) => op' t l) := by
  obtain ⟨hboth, hnext⟩ := h.openLog p
  generalize s.openLog p = x at hboth hnext ⊢
  generalize s'.openLog p = x' at hboth hnext ⊢
  obtain ⟨res, t⟩ := x
  obtain ⟨res', t'⟩ := x'
  cases hboth with
  | error e => exact ⟨rfl, hnext⟩
  | ok hl => exact hop hnext hl

section
variable (h : Twin T s s') (ctx : Ctx)
include h

theorem append (now : Int64) (p : PartitionRef) (r : Record) :
    InStep (Twin T) (s.append ctx now p r) (s'.append ctx now p r) := by
  simp only [FileStore.append, guarded]
  cases ctx.err with
  | some e => exact ⟨rfl, h⟩
  | none =>
    refine h.withLog p id fun {t t' l l'} ht hl => ?_
    have hboth := hl.twin.append (stamp now l.highWater r)
    have hsame : p.topic ≠ T → l'.append (stamp now l.highWater r) = l.append (stamp now l.highWater r) :=
      fun hp => by rw [hl.same hp]
    rw [hl.twin.highWater]
    generalize l.append (stamp now l.highWater r) = res at hboth hsame ⊢
    generalize l'.append (stamp now l.highWater r) = res' at hboth hsame ⊢
    cases hboth with
    | error e => exact ⟨rfl, ht⟩
    | @ok x x' hx =>
      refine ⟨congrArg Except.ok hx.1, ht.setLog ⟨hx.2, fun hp => ?_⟩⟩
      rw [Except.ok.inj (hsame hp)]

theorem read (hp : p.topic ≠ T) (n m : Int) :
    InStep (Twin T) (s.read ctx p n m) (s'.read ctx p n m) := by
  simp only [FileStore.read, guarded]
  cases ctx.err with
  | some e => exact ⟨rfl, h⟩
  | none =>
    dsimp only
    split
    · exact ⟨rfl, h⟩
    · refine h.withLog p id fun {t t' l l'} ht hl => ?_
      rw [hl.same hp]
      rcases hread : l.read n m with ⟨e | records, l₁⟩
      · exact ⟨rfl, ht.setLog (.refl p _)⟩
      · exact ⟨rfl, ht.setLog (.refl p _)⟩

theorem highWater (p : PartitionRef) : InStep (Twin T) (s.highWater ctx p) (s'.highWater ctx p) := by
  simp only [FileStore.highWater, guarded]
  cases ctx.err with
  | some e => exact ⟨rfl, h⟩
  | none => exact h.withLog p id fun ht hl => ⟨congrArg Except.ok hl.twin.highWater, ht⟩

theorem sync (p : PartitionRef) : InStep (Twin T) (s.sync ctx p) (s'.sync ctx p) := by
  simp only [FileStore.sync, guarded]
  cases ctx.err with
  | some e => exact ⟨rfl, h⟩
  | none =>
    have hpart := h.parts p
    generalize s.logs p = log at hpart ⊢
    generalize s'.logs p = log' at hpart ⊢
    cases hpart with
    | opened hl => exact ⟨rfl, h.setLog ⟨hl.twin.sync, fun hp => by rw [hl.same hp]⟩⟩
    | closed => exact ⟨rfl, h⟩

theorem deleteTopic (topic : Bytes) : InStep (Twin T) (s.deleteTopic ctx topic) (s'.deleteTopic ctx topic) := by
  simp only [FileStore.deleteTopic, guarded]
  cases ctx.err with
  | some e => exact ⟨rfl, h⟩
  | none =>
    refine ⟨rfl, h.segmentSize, fun q => ?_⟩
    dsimp only
    split
    · exact .closed .nil fun _ => rfl
    · exact h.parts q

theorem listSegments (p : PartitionRef) : InStep (Twin T) (s.listSegments ctx p) (s'.listSegments ctx p) := by
  simp only [FileStore.listSegments]
  cases ctx.err with
  | some e => exact ⟨rfl, h⟩
  | none =>
    refine h.withLog p _ fun ht hl => ⟨congrArg Except.ok hl.twin.snapshot.1, ht.setLog ⟨hl.twin.snapshot.2, fun hp => ?_⟩⟩
    rw [hl.same hp]

theorem fetchSegmentChunk {kind : SegmentKind} (hp : p.topic = T → kind = .idx)
    (base offset maxBytes : Int) :
    InStep (Twin T) (s.fetchSegmentChunk ctx p base kind offset maxBytes)
      (s'.fetchSegmentChunk ctx p base kind offset maxBytes) := by
  simp only [FileStore.fetchSegmentChunk]
  cases ctx.err with
  | some e => exact ⟨rfl, h⟩
  | none =>
    refine h.withLog p _ fun ht hl => ⟨?_, ht⟩
    by_cases htopic : p.topic = T
    · rw [hp htopic, hl.twin.readSegmentBytes_idx]
    · rw [hl.same htopic]

end

end Twin

instance : Concealing FileStore where
  Twin := FileStore.Twin
  append h := h.append
  read h ctx _ hp := h.read ctx hp
  highWater h := h.highWater
  sync h := h.sync
  deleteTopic h := h.deleteTopic
  listSegments _ hsnapper _ _ _ h := by
    cases hsnapper
    exact h.listSegments
  fetchSegmentChunk _ hsnapper _ _ _ h ctx _ _ hp := by
    cases hsnapper
    exact h.fetchSegmentChunk ctx hp

end FileStore
end Holocron.Storage

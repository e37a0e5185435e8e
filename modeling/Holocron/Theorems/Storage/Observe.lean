import Holocron.Broker.Segments
import Holocron.Lib.Twin
import Holocron.Theorems.Storage.Sweep

/-! Calls of a store that change no record: every read is answered as before. -/

namespace Holocron.Log
open Lib

namespace Segment

structure Alike (s s' : Segment) : Prop where
  baseOffset : s'.baseOffset = s.baseOffset
  highWater : s'.highWater = s.highWater
  idx : s'.idx = s.idx
  flushed : s'.flushIfActive.logFile = s.flushIfActive.logFile

section
variable (s : Segment)
include s

theorem Alike.refl : Alike s s := ⟨rfl, rfl, rfl, rfl⟩

theorem flushIfActive_flushIfActive : s.flushIfActive.flushIfActive = s.flushIfActive := by
  cases hbuf : s.logBuf with
  | none => simp only [flushIfActive, hbuf]
  | some buf =>
    simp only [flushIfActive, hbuf]
    rfl

theorem flushIfActive_alike : Alike s s.flushIfActive :=
  ⟨s.flushIfActive_baseOffset, s.flushIfActive_highWater, s.flushIfActive_idx, by rw [flushIfActive_flushIfActive]⟩

theorem flushIfActive_persistIndex : s.persistIndex.flushIfActive.logFile = s.flushIfActive.logFile := by
  cases hbuf : s.logBuf with
  | none | some buf => simp only [flushIfActive, persistIndex, hbuf]

theorem snapshotSync_alike : Alike s s.snapshotSync := by
  refine ⟨s.flushIfActive_baseOffset, s.flushIfActive_highWater, s.flushIfActive_idx, ?_⟩
  rw [snapshotSync, flushIfActive_persistIndex, flushIfActive_flushIfActive]

end

theorem Alike.readFrom {s s' : Segment} (h : Alike s s') (fromOffset maxRecords : Int) :
    (s'.readFrom fromOffset maxRecords).1 = (s.readFrom fromOffset maxRecords).1 := by
  simp only [Segment.readFrom, h.highWater]
  split
  · rfl
  · split
    · rfl
    · simp only [flushIfActive_idx, flushIfActive_baseOffset, h.idx, h.baseOffset, h.flushed]

end Segment

namespace PartitionLog

structure ReadsAs (l l' : PartitionLog) : Prop where
  highWater : l'.highWater = l.highWater
  read (fromOffset maxRecords : Int) : (l'.read fromOffset maxRecords).1 = (l.read fromOffset maxRecords).1

theorem ReadsAs.refl (l : PartitionLog) : ReadsAs l l := ⟨rfl, fun _ _ => rfl⟩

theorem readLoop_alike {segments segments' : List Segment} (h : List.Forall₂ Segment.Alike segments segments')
    (fromOffset : Int) (max : Nat) : (readLoop segments' fromOffset max).1 = (readLoop segments fromOffset max).1 := by
  induction h generalizing fromOffset max with
  | nil => rfl
  | @cons s s' rest rest' hs _ ih =>
    have hread := hs.readFrom fromOffset max
    simp only [readLoop]
    split
    · rfl
    · rcases hres : s.readFrom fromOffset max with ⟨res, t⟩
      rcases hres' : s'.readFrom fromOffset max with ⟨res', t'⟩
      rw [hres, hres'] at hread
      obtain rfl : res' = res := hread
      cases res' with
      | error e => rfl
      | ok records => simp only [ih]

theorem firstSegment_alike {l l' : PartitionLog} (h : List.Forall₂ Segment.Alike l.segments l'.segments) (fromOffset : Int) :
    l'.firstSegment fromOffset = l.firstSegment fromOffset := by
  have hbases : l.segments.map Segment.baseOffset = l'.segments.map Segment.baseOffset :=
    List.forall₂_eq_eq_eq ▸ List.forall₂_map_left_iff.mpr
      (List.forall₂_map_right_iff.mpr (h.imp fun _ _ hs => hs.baseOffset.symm))
  have hany : ∀ (segments : List Segment) (i : Nat), (segments[i]?.any fun s => decide (fromOffset < s.baseOffset)) =
      ((segments.map Segment.baseOffset)[i]?.any fun base => decide (fromOffset < base)) := fun segments i => by
    rw [List.getElem?_map]
    cases segments[i]? <;> rfl
  simp only [firstSegment, hany, hbases, h.length_eq]

theorem readsAs_of_alike {l l' : PartitionLog} (hsealed : List.Forall₂ Segment.Alike l.sealed l'.sealed)
    (hactive : Segment.Alike l.active l'.active) : ReadsAs l l' := by
  have hsegments : List.Forall₂ Segment.Alike l.segments l'.segments := List.rel_append hsealed (.cons hactive .nil)
  refine ⟨hactive.highWater, fun fromOffset maxRecords => ?_⟩
  simp only [read, firstSegment_alike hsegments]
  split
  · rfl
  · exact readLoop_alike (List.forall₂_drop _ hsegments) _ _

theorem sync_readsAs (l : PartitionLog) : ReadsAs l l.sync :=
  readsAs_of_alike (List.forall₂_same.mpr fun s _ => .refl s) l.active.flushIfActive_alike

theorem snapshot_readsAs (l : PartitionLog) : ReadsAs l l.snapshot.2 := by
  refine readsAs_of_alike ?_ l.active.snapshotSync_alike
  exact List.forall₂_map_right_iff.mpr (List.forall₂_same.mpr fun s _ => s.snapshotSync_alike)

end PartitionLog
end Holocron.Log

namespace Holocron.Storage
open Lib Log

structure SameRecords {σ : Type} [Store σ] (s s' : σ) : Prop where
  read (ctx : Ctx) (p : PartitionRef) (fromOffset maxRecords : Int) :
    (Store.read s' ctx p fromOffset maxRecords).1 = (Store.read s ctx p fromOffset maxRecords).1
  highWater (ctx : Ctx) (p : PartitionRef) : (Store.highWater s' ctx p).1 = (Store.highWater s ctx p).1

theorem SameRecords.refl {σ : Type} [Store σ] (s : σ) : SameRecords s s := ⟨fun _ _ _ _ => rfl, fun _ _ => rfl⟩

theorem SameRecords.trans {σ : Type} [Store σ] {s s' s'' : σ} (h : SameRecords s s') (h' : SameRecords s' s'') :
    SameRecords s s'' :=
  ⟨fun ctx p n m => (h'.read ctx p n m).trans (h.read ctx p n m), fun ctx p => (h'.highWater ctx p).trans (h.highWater ctx p)⟩

/-- Calls that read leave the records. -/
class Observed (σ : Type) [Store σ] [Snapshots σ] where
  highWater (s : σ) (ctx : Ctx) (p : PartitionRef) : SameRecords s (Store.highWater s ctx p).2
  sync (s : σ) (ctx : Ctx) (p : PartitionRef) : SameRecords s (Store.sync s ctx p).2
  listSegments (snapper : SegmentSnapshotter σ) (h : Snapshots.snapper = some snapper) (s : σ) (ctx : Ctx)
    (p : PartitionRef) : SameRecords s (snapper.listSegments s ctx p).2
  fetchSegmentChunk (snapper : SegmentSnapshotter σ) (h : Snapshots.snapper = some snapper) (s : σ) (ctx : Ctx)
    (p : PartitionRef)
    (base : Int) (kind : SegmentKind) (offset maxBytes : Int) :
      SameRecords s (snapper.fetchSegmentChunk s ctx p base kind offset maxBytes).2

instance : Observed MemoryStore where
  highWater s ctx p := by
    simp only [Store.highWater, MemoryStore.highWater, guarded]
    split <;> exact .refl s
  sync s ctx p := by
    simp only [Store.sync, MemoryStore.sync, guarded]
    split <;> exact .refl s
  listSegments _ h := by cases h
  fetchSegmentChunk _ h := by cases h

namespace FileStore

theorem read_eq (s : FileStore) (ctx : Ctx) (p : PartitionRef) (n m : Int) :
    (s.read ctx p n m).1 = (match ctx.err with
      | some e => .error (.ctx e)
      | none => if n < 0 then .error (.negativeOffset n) else (s.openLog p).1.bind fun l => (l.read n m).1.mapError .log) := by
  simp only [read, guarded]
  cases ctx.err with
  | some e => rfl
  | none =>
    dsimp only
    split
    · rfl
    · rcases s.openLog p with ⟨e | l, s'⟩
      · rfl
      · dsimp only [Except.bind]
        rcases l.read n m with ⟨e | records, l'⟩ <;> rfl

theorem highWater_eq (s : FileStore) (ctx : Ctx) (p : PartitionRef) :
    (s.highWater ctx p).1 = (match ctx.err with
      | some e => .error (.ctx e)
      | none => (s.openLog p).1.map PartitionLog.highWater) := by
  simp only [highWater, guarded]
  cases ctx.err with
  | some e => rfl
  | none => rcases s.openLog p with ⟨e | l, s'⟩ <;> rfl

theorem sameRecords_of_both {s s' : FileStore} (h : ∀ p, Both PartitionLog.ReadsAs (s.openLog p).1 (s'.openLog p).1) :
    SameRecords s s' := by
  constructor
  · intro ctx p n m
    have hp := h p
    simp only [Store.read, read_eq]
    generalize (s.openLog p).1 = res at hp ⊢
    generalize (s'.openLog p).1 = res' at hp ⊢
    cases hp with
    | error e => rfl
    | ok hl => simp only [Except.bind, hl.read]
  · intro ctx p
    have hp := h p
    simp only [Store.highWater, highWater_eq]
    generalize (s.openLog p).1 = res at hp ⊢
    generalize (s'.openLog p).1 = res' at hp ⊢
    cases hp with
    | error e => rfl
    | ok hl => simp only [Except.map, hl.highWater]

theorem openLog_again (s : FileStore) (p q : PartitionRef) : ((s.openLog p).2.openLog q).1 = (s.openLog q).1 := by
  by_cases hq : q = p
  · subst hq
    cases hlog : s.logs q with
    | some l => rw [openLog_of_logs hlog, openLog_of_logs hlog]
    | none =>
      cases hopen : PartitionLog.openPartition (s.disk q) s.segmentSize with
      | error e => simp only [openLog, hlog, hopen]
      | ok l => simp [openLog, hlog, hopen, setLog]
  · exact openLog_openLog hq

theorem openLog_sameRecords (s : FileStore) (p : PartitionRef) : SameRecords s (s.openLog p).2 :=
  sameRecords_of_both fun q => by
    rw [openLog_again]
    exact .refl .refl _

/-- A log in the place of one that reads the same. -/
theorem setLog_sameRecords {s : FileStore} {p : PartitionRef} {l l' : PartitionLog} (hopen : (s.openLog p).1 = .ok l)
    (h : l.ReadsAs l') : SameRecords s (s.setLog p l') := by
  refine sameRecords_of_both fun q => ?_
  by_cases hq : q = p
  · rw [hq, hopen, openLog_of_logs (l := l') (Function.update_self ..)]
    exact .ok h
  · rw [setLog_openLog hq]
    exact .refl .refl _

instance : Observed FileStore where
  highWater s ctx p := by
    have hopened := openLog_sameRecords s p
    simp only [Store.highWater, FileStore.highWater, guarded]
    cases ctx.err with
    | some e => exact .refl s
    | none =>
      rcases hopen : s.openLog p with ⟨e | l, s'⟩ <;> rw [hopen] at hopened <;> exact hopened
  sync s ctx p := by
    simp only [Store.sync, FileStore.sync, guarded]
    cases ctx.err with
    | some e => exact .refl s
    | none =>
      cases hlog : s.logs p with
      | none => exact .refl s
      | some l => exact setLog_sameRecords (by rw [openLog_of_logs hlog]) l.sync_readsAs
  listSegments snapper h s ctx p := by
    cases h
    have hopened := openLog_sameRecords s p
    simp only [FileStore.listSegments]
    cases ctx.err with
    | some e => exact .refl s
    | none =>
      have hagain := openLog_again s p p
      rcases hopen : s.openLog p with ⟨e | l, s'⟩ <;> rw [hopen] at hopened hagain
      · exact hopened
      · exact hopened.trans (setLog_sameRecords hagain l.snapshot_readsAs)
  fetchSegmentChunk snapper h s ctx p base kind offset maxBytes := by
    cases h
    have hopened := openLog_sameRecords s p
    simp only [FileStore.fetchSegmentChunk]
    cases ctx.err with
    | some e => exact .refl s
    | none => rcases hopen : s.openLog p with ⟨e | l, s'⟩ <;> rw [hopen] at hopened <;> exact hopened

end FileStore
end Holocron.Storage

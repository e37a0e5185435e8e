import Holocron.Broker.Segments
import Holocron.Lib.Twin
import Holocron.Theorems.Log.Segment

/-! Logs that differ only in what their records say: opening, appending and listing keep them so and give the same
    answers. -/

namespace Holocron.Log
open Lib List

structure Twin (r r' : Record) : Prop where
  offset : r'.offset = r.offset
  timestamp : r'.timestamp = r.timestamp
  length : (encodeRecord r').length = (encodeRecord r).length

/-- Log files that hold such records, and the same bytes after them. -/
inductive LogTwin : Bytes → Bytes → Prop
  | tail (b : Bytes) : LogTwin b b
  | frame {r r' : Record} {b b' : Bytes} (twin : Twin r r') (fits : Fits r) (fits' : Fits r') (h : LogTwin b b') :
    LogTwin (encodeRecord r ++ b) (encodeRecord r' ++ b')

theorem Twin.body {r r' : Record} (h : Twin r r') : (encodeBody r').length = (encodeBody r).length := by
  have hlen := h.length
  rw [length_encodeRecord, length_encodeRecord] at hlen
  omega

theorem LogTwin.length {b b' : Bytes} (h : LogTwin b b') : b'.length = b.length := by
  induction h with
  | tail b => rfl
  | frame twin _ _ _ ih => rw [length_append, length_append, twin.length, ih]

theorem logTwin_frames {rs rs' : List Record} (h : Forall₂ (fun r r' => Twin r r' ∧ Fits r ∧ Fits r') rs rs') :
    LogTwin (frames rs) (frames rs') := by
  induction h with
  | nil => exact .tail []
  | cons hr _ ih => exact .frame hr.1 hr.2.1 hr.2.2 ih

def SameFrame (x x' : Record × Nat) : Prop := x'.1.offset = x.1.offset ∧ x'.2 = x.2

/-- Twins that read the same bytes stay in step. -/
theorem readRecordFrom_same {r r' : Reader} (h : r.Twin r') (hrest : r'.rest = r.rest) :
    (readRecordFrom r').1 = (readRecordFrom r).1 ∧ (readRecordFrom r).2.Twin (readRecordFrom r').2 ∧
      (readRecordFrom r').2.rest = (readRecordFrom r).2.rest := by
  have hread : ∀ {r r' : Reader} n, r'.rest = r.rest → (r'.readFull n).1 = (r.readFull n).1 ∧
      (r'.readFull n).2.rest = (r.readFull n).2.rest := by
    intro r r' n hrest
    rw [Reader.readFull_bytes, Reader.readFull_bytes, Reader.readFull_rest, Reader.readFull_rest, hrest]
    exact ⟨rfl, rfl⟩
  obtain ⟨h₁, hrest₁⟩ := hread 4 hrest
  have ht₁ := h.readFull 4
  generalize hlen : ofBigEndian (r.readFull 4).1 = bodyLen
  obtain ⟨h₂, hrest₂⟩ := hread bodyLen hrest₁
  have ht₂ := ht₁.readFull bodyLen
  obtain ⟨h₃, hrest₃⟩ := hread 4 hrest₂
  have ht₃ := ht₂.readFull 4
  simp only [readRecordFrom, h₁, hlen, h₂, h₃]
  split
  · exact ⟨rfl, ht₁, hrest₁⟩
  · split
    · exact ⟨rfl, ht₁, hrest₁⟩
    · split
      · exact ⟨rfl, ht₂, hrest₂⟩
      · split
        · exact ⟨rfl, ht₃, hrest₃⟩
        · split
          · exact ⟨rfl, ht₃, hrest₃⟩
          · split <;> exact ⟨rfl, ht₃, hrest₃⟩

theorem readRecordFrom_twin {r r' : Reader} (h : r.Twin r') (ahead : LogTwin r.rest r'.rest) :
    Both SameFrame (readRecordFrom r).1 (readRecordFrom r').1 ∧ (readRecordFrom r).2.Twin (readRecordFrom r').2 ∧
      LogTwin (readRecordFrom r).2.rest (readRecordFrom r').2.rest := by
  generalize hb : r.rest = b at ahead
  generalize hb' : r'.rest = b' at ahead
  cases ahead with
  | tail _ =>
    obtain ⟨hres, htwin, hrest⟩ := readRecordFrom_same h (hb'.trans hb.symm)
    rw [hres, hrest]
    exact ⟨.refl (fun _ => ⟨rfl, rfl⟩) _, htwin, .tail _⟩
  | @frame r₁ r₂ _ _ twin fits fits' ahead =>
    obtain ⟨hread, hrest⟩ := readRecordFrom_reads fits hb
    obtain ⟨hread', hrest'⟩ := readRecordFrom_reads fits' hb'
    have htwin := ((h.readFull 4).readFull (encodeBody r₁).length).readFull 4
    rw [twin.body] at hread' hrest'
    rw [hread, hread']
    dsimp only
    rw [hrest, hrest']
    exact ⟨.ok ⟨twin.offset, twin.length⟩, htwin, ahead⟩

structure Segment.Twin (s s' : Segment) : Prop where
  baseOffset : s'.baseOffset = s.baseOffset
  maxBytes : s'.maxBytes = s.maxBytes
  compacting : s'.compacting = s.compacting
  logFile : s.logFile.Twin s'.logFile
  logBuf : Option.Rel (fun b b' : Bytes => b'.length = b.length) s.logBuf s'.logBuf
  idx : s'.idx = s.idx
  idxFile : s'.idxFile = s.idxFile
  size : s'.size = s.size
  bytesSinceIndex : s'.bytesSinceIndex = s.bytesSinceIndex
  highWater : s'.highWater = s.highWater

namespace Segment.Twin

variable {s s' : Segment}

theorem refl (s : Segment) : Twin s s := by
  refine ⟨rfl, rfl, rfl, .refl _, ?_, rfl, rfl, rfl, rfl, rfl⟩
  cases s.logBuf with
  | none => exact .none
  | some buf => exact .some rfl

section
variable (h : Twin s s')
include h

theorem flushIfActive : Twin s.flushIfActive s'.flushIfActive := by
  have hbuf := h.logBuf
  unfold Segment.flushIfActive
  generalize s.logBuf = buf at hbuf ⊢
  generalize s'.logBuf = buf' at hbuf ⊢
  cases hbuf with
  | none => exact h
  | some hlen => exact { h with logFile := bufFlush_twin h.logFile hlen, logBuf := .some rfl }

theorem persistIndex : Twin s.persistIndex s'.persistIndex :=
  { h with idxFile := by rw [Segment.persistIndex, Segment.persistIndex, h.idx] }

theorem snapshotSync : Twin s.snapshotSync s'.snapshotSync := h.flushIfActive.persistIndex

theorem sealSegment : Twin s.sealSegment s'.sealSegment := { h.flushIfActive.persistIndex with logBuf := .none }

theorem shouldRoll : s'.shouldRoll = s.shouldRoll := by rw [Segment.shouldRoll, Segment.shouldRoll, h.maxBytes, h.size]

theorem append (r : Record) : Both (fun x x' => x'.1 = x.1 ∧ Twin x.2 x'.2) (s.append r) (s'.append r) := by
  obtain ⟨base, maxBytes, compacting, file, buf, idx, idxFile, size, since, highWater⟩ := s
  obtain ⟨base', maxBytes', compacting', file', buf', idx', idxFile', size', since', highWater'⟩ := s'
  obtain ⟨hbase, hmax, hcompacting, hfile, hbuf, hidx, hidxFile, hsize, hsince, hhw⟩ := h
  subst hbase hmax hcompacting hidx hidxFile hsize hsince hhw
  cases hbuf with
  | none => exact .error _
  | @some b b' hlen =>
    obtain ⟨hwritten, hrest⟩ := bufWrite_twin hfile hlen rfl
    simp only [append]
    split <;> exact .ok ⟨rfl, rfl, rfl, rfl, hwritten, .some hrest, rfl, rfl, rfl, rfl, rfl⟩

end

theorem recoverLoop (fuel : Nat) {r r' : Reader} (hr : r.Twin r') (ahead : LogTwin r.rest r'.rest) (pos : Nat)
    (h : Twin s s') : Both Twin (Segment.recoverLoop fuel r pos s) (Segment.recoverLoop fuel r' pos s') := by
  induction fuel generalizing r r' pos s s' with
  | zero => exact .ok { h with logFile := hr.file, size := rfl }
  | succ fuel ih =>
    obtain ⟨hres, hr', ahead'⟩ := readRecordFrom_twin hr ahead
    unfold recoverLoop
    rcases hread : readRecordFrom r with ⟨res, rd⟩
    rcases hread' : readRecordFrom r' with ⟨res', rd'⟩
    rw [hread, hread'] at hres hr' ahead'
    cases hres with
    | error e =>
      cases e with
      | eof => exact .ok { h with logFile := hr'.file, size := rfl }
      | malformed => exact .error _
      | unexpectedEOF | tornFrame =>
        have htruncate := hr'.file.truncate pos
        dsimp only
        generalize rd.file.truncate pos = f at htruncate ⊢
        generalize rd'.file.truncate pos = f' at htruncate ⊢
        cases htruncate with
        | none => exact .error _
        | some hf => exact .ok { h with logFile := hf.seek pos, size := rfl }
    | @ok x x' hsame =>
      obtain ⟨x, n⟩ := x
      obtain ⟨x', n'⟩ := x'
      obtain ⟨hoffset, hlen⟩ := hsame
      dsimp only at hoffset hlen
      subst hlen
      -- the entry of the index depends on the offset and the position only
      simp only [hoffset, h.bytesSinceIndex, h.baseOffset, h.idx]
      split
      · exact ih hr' ahead' _ { h with baseOffset := rfl, idx := rfl, bytesSinceIndex := rfl, highWater := rfl }
      · exact ih hr' ahead' _ { h with bytesSinceIndex := congrArg (· + n') h.bytesSinceIndex, highWater := rfl }

theorem openSegment (baseOffset maxBytes : Int) {data data' : Bytes} (h : LogTwin data data') (idxFile : Option Bytes)
    (forAppend : Bool) :
    Both Twin (Segment.openSegment baseOffset maxBytes data idxFile forAppend)
      (Segment.openSegment baseOffset maxBytes data' idxFile forAppend) := by
  have hfile : File.Twin ⟨data, 0, false, forAppend⟩ ⟨data', 0, false, forAppend⟩ := ⟨h.length, rfl, rfl, rfl⟩
  have hbuf : Option.Rel (fun b b' : Bytes => b'.length = b.length) (if forAppend then some [] else none)
      (if forAppend then some [] else none) := by
    split
    · exact .some rfl
    · exact .none
  simp only [Segment.openSegment, Segment.recover, h.length]
  exact recoverLoop _ (.new (hfile.seek 0)) h 0 ⟨rfl, rfl, rfl, hfile, hbuf, rfl, rfl, rfl, rfl, rfl⟩

end Segment.Twin

def FileTwin : SegmentKind → Bytes → Bytes → Prop
  | .idx, b, b' => b' = b
  | .log, b, b' => LogTwin b b'

def Dir.Twin (d d' : Dir) : Prop := List.Forall₂ (fun e e' => e'.1 = e.1 ∧ FileTwin e.1.kind e.2 e'.2) d d'

namespace Dir.Twin

variable {d d' : Dir}

section
variable (h : Dir.Twin d d')
include h

theorem get? (n : FileName) : Option.Rel (FileTwin n.kind) (d.get? n) (d'.get? n) := by
  induction h with
  | nil => exact .none
  | @cons e e' rest rest' he _ ih =>
    obtain ⟨name, b⟩ := e
    obtain ⟨name', b'⟩ := e'
    obtain ⟨hname, hb⟩ := he
    subst hname
    simp only [Dir.get?, lookup_cons] at ih ⊢
    split
    · rename_i heq
      rw [eq_of_beq heq]
      exact .some hb
    · exact ih

theorem remove (n : FileName) : Dir.Twin (d.remove n) (d'.remove n) := by
  induction h with
  | nil => exact .nil
  | @cons e e' rest rest' he hrest ih =>
    simp only [Dir.remove, filter_cons, he.1] at ih ⊢
    split
    · exact .cons he ih
    · exact ih

theorem write (n : FileName) {b b' : Bytes} (hb : FileTwin n.kind b b') : Dir.Twin (d.write n b) (d'.write n b') :=
  rel_append (h.remove n) (.cons ⟨rfl, hb⟩ .nil)

theorem rename {a b : FileName} (kind : b.kind = a.kind) : Option.Rel Dir.Twin (d.rename a b) (d'.rename a b) := by
  have hget := h.get? a
  unfold Dir.rename
  generalize d.get? a = x at hget ⊢
  generalize d'.get? a = x' at hget ⊢
  cases hget with
  | none => exact .none
  | some hb => exact .some ((h.remove a).write b (kind ▸ hb))

theorem recoverFile (n : FileName) : Dir.Twin (Log.recoverFile d n) (Log.recoverFile d' n) := by
  unfold Log.recoverFile
  split
  · have hget := h.get? { n with compacting := false }
    have hrename := h.rename (a := n) (b := { n with compacting := false }) rfl
    dsimp only
    generalize d.get? _ = x at hget ⊢
    generalize d'.get? _ = x' at hget ⊢
    cases hget with
    | some _ => exact h.remove n
    | none =>
      generalize d.rename n _ = y at hrename ⊢
      generalize d'.rename n _ = y' at hrename ⊢
      cases hrename with
      | none => exact h
      | some hy => exact hy
  · exact h

theorem names : d'.map Prod.fst = d.map Prod.fst := by
  induction h with
  | nil => rfl
  | cons he _ ih => rw [map_cons, map_cons, he.1, ih]

theorem recoverCompactingSegments : Dir.Twin (Log.recoverCompactingSegments d) (Log.recoverCompactingSegments d') := by
  unfold Log.recoverCompactingSegments
  rw [h.names]
  generalize d.map Prod.fst = names
  induction names generalizing d d' with
  | nil => exact h
  | cons n rest ih => exact ih (h.recoverFile n)

theorem discoverSegments : Log.discoverSegments d' = Log.discoverSegments d := by
  have hbases : ∀ d : Dir, (d.filterMap fun e => if e.1.kind = .log ∧ e.1.compacting = false then some e.1.base else none) =
      (d.map Prod.fst).filterMap fun n => if n.kind = .log ∧ n.compacting = false then some n.base else none := fun d => by
    rw [filterMap_map]
    rfl
  rw [Log.discoverSegments, Log.discoverSegments, hbases, hbases, h.names]

end

end Dir.Twin

structure PartitionLog.Twin (l l' : PartitionLog) : Prop where
  maxBytes : l'.maxBytes = l.maxBytes
  sealed : List.Forall₂ Segment.Twin l.sealed l'.sealed
  active : l.active.Twin l'.active

namespace PartitionLog.Twin

variable {l l' : PartitionLog}

theorem refl (l : PartitionLog) : Twin l l := ⟨rfl, forall₂_same.mpr fun s _ => .refl s, .refl _⟩

theorem highWater (h : Twin l l') : l'.highWater = l.highWater := h.active.highWater

theorem segments (h : Twin l l') : Forall₂ Segment.Twin l.segments l'.segments := rel_append h.sealed (.cons h.active .nil)

theorem openSegments {d d' : Dir} (h : Dir.Twin d d') (maxBytes : Int) (bases : List Int) :
    Both (List.Forall₂ Segment.Twin) (PartitionLog.openSegments d maxBytes bases)
      (PartitionLog.openSegments d' maxBytes bases) := by
  induction bases with
  | nil => exact .ok .nil
  | cons base bases ih =>
    have hlog := h.get? (segmentLogName base false)
    have hidx := h.get? (segmentIndexName base false)
    have hdata : LogTwin ((d.get? (segmentLogName base false)).getD []) ((d'.get? (segmentLogName base false)).getD []) := by
      generalize d.get? (segmentLogName base false) = x at hlog ⊢
      generalize d'.get? (segmentLogName base false) = x' at hlog ⊢
      cases hlog with
      | none => exact .tail []
      | some hb => exact hb
    have hsame : d'.get? (segmentIndexName base false) = d.get? (segmentIndexName base false) := by
      generalize d.get? (segmentIndexName base false) = x at hidx ⊢
      generalize d'.get? (segmentIndexName base false) = x' at hidx ⊢
      cases hidx with
      | none => rfl
      | some hb => exact congrArg some hb
    unfold PartitionLog.openSegments
    rw [hsame]
    exact (Segment.Twin.openSegment base maxBytes hdata _ _).bind fun _ _ hs => ih.bind fun _ _ hrest => .ok (.cons hs hrest)

theorem openPartition {d d' : Dir} (h : Dir.Twin d d') (maxBytes : Int) :
    Both Twin (PartitionLog.openPartition d maxBytes) (PartitionLog.openPartition d' maxBytes) := by
  have hrecovered := h.recoverCompactingSegments
  unfold PartitionLog.openPartition
  dsimp only
  rw [hrecovered.discoverSegments]
  refine (openSegments hrecovered _ _).bind fun segments segments' hsegments => ?_
  have hlast := forall₂_getLast? hsegments
  have hinit := forall₂_dropLast hsegments
  generalize segments.getLast? = last at hlast ⊢
  generalize segments'.getLast? = last' at hlast ⊢
  cases hlast with
  | none => exact .ok ⟨rfl, .nil, .refl _⟩
  | some hactive => exact .ok ⟨rfl, hinit, hactive⟩

section
variable (h : Twin l l')
include h

theorem rollLocked : Twin l.rollLocked l'.rollLocked := by
  refine ⟨h.maxBytes, rel_append h.sealed (.cons h.active.sealSegment .nil), ?_⟩
  simp only [PartitionLog.rollLocked, h.active.highWater, h.maxBytes]
  exact .refl _

theorem append (r : Record) : Both (fun x x' => x'.1 = x.1 ∧ Twin x.2 x'.2) (l.append r) (l'.append r) := by
  refine (h.active.append r).bind fun x x' hx => .ok ⟨hx.1, ?_⟩
  have hnext : Twin { l with active := x.2 } { l' with active := x'.2 } := ⟨h.maxBytes, h.sealed, hx.2⟩
  rw [hx.2.shouldRoll]
  split
  · exact hnext.rollLocked
  · exact hnext

theorem sync : Twin l.sync l'.sync := ⟨h.maxBytes, h.sealed, h.active.flushIfActive⟩

theorem snapshot : l'.snapshot.1 = l.snapshot.1 ∧ Twin l.snapshot.2 l'.snapshot.2 := by
  have hnext : Twin l.snapshot.2 l'.snapshot.2 := by
    refine ⟨h.maxBytes, ?_, h.active.snapshotSync⟩
    exact forall₂_map_left_iff.mpr (forall₂_map_right_iff.mpr (h.sealed.imp fun _ _ hs => hs.snapshotSync))
  refine ⟨?_, hnext⟩
  have hlist : ∀ {segments segments'}, Forall₂ Segment.Twin segments segments' →
      (segments'.map fun s => (⟨s.baseOffset, s.size, s.idx.sizeBytes⟩ : SegmentSnapshot)) =
        segments.map fun s => ⟨s.baseOffset, s.size, s.idx.sizeBytes⟩ := fun hsegments => by
    induction hsegments with
    | nil => rfl
    | cons hs _ ih => rw [map_cons, map_cons, ih, hs.baseOffset, hs.size, hs.idx]
  exact hlist hnext.segments

/-- The indexes are the same files. -/
theorem readSegmentBytes_idx (base offset maxBytes : Int) :
    l'.readSegmentBytes base .idx offset maxBytes = l.readSegmentBytes base .idx offset maxBytes := by
  have hfind : ∀ {segments segments'}, Forall₂ Segment.Twin segments segments' →
      Option.Rel Segment.Twin (segments.find? fun s => decide (s.baseOffset = base))
        (segments'.find? fun s => decide (s.baseOffset = base)) := by
    intro segments segments' hsegments
    induction hsegments with
    | nil => exact .none
    | cons hs _ ih =>
      simp only [find?_cons, hs.baseOffset]
      split
      · exact .some hs
      · exact ih
  have hsegment := hfind h.segments
  unfold readSegmentBytes
  generalize l.segments.find? _ = x at hsegment ⊢
  generalize l'.segments.find? _ = x' at hsegment ⊢
  cases hsegment with
  | none => rfl
  | some hs => simp only [Segment.fileOf, hs.idxFile]

end

end PartitionLog.Twin
end Holocron.Log

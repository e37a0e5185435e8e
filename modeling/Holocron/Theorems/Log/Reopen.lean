import Mathlib.Data.List.Nodup
import Holocron.Theorems.Log.Partition

/-! Directories that store chunks (`OnDisk`) and what `openPartition` makes of them. -/

namespace Holocron.Log
open Lib List

variable {d : Dir} {c : Chunk} {cs : List Chunk} {ss : List Segment} {s : Segment} {data : Bytes} {e : FileName × Bytes}

namespace Dir

def names (d : Dir) : List FileName := d.map Prod.fst

theorem get?_cons (e : FileName × Bytes) (d : Dir) (n : FileName) :
    Dir.get? (e :: d) n = if n = e.1 then some e.2 else d.get? n := by
  by_cases h : n = e.1
  · rw [if_pos h, h]
    exact lookup_cons_self
  · rw [if_neg h, get?, lookup_cons, beq_eq_false_iff_ne.mpr h]
    rfl

variable {n : FileName}

theorem get?_of_mem (distinct : d.names.Nodup) {b : Bytes} (h : (n, b) ∈ d) : d.get? n = some b := by
  induction d with
  | nil => cases h
  | cons e d ih =>
    obtain ⟨hnot, hrest⟩ := nodup_cons.mp distinct
    rw [get?_cons]
    rcases mem_cons.mp h with rfl | h
    · exact if_pos rfl
    · have hne : n ≠ e.1 := fun heq => hnot (heq ▸ mem_map_of_mem h)
      rw [if_neg hne]
      exact ih hrest h

theorem isSome_get?_iff : (d.get? n).isSome ↔ n ∈ d.names := by
  induction d with
  | nil => simp [get?, names]
  | cons e d ih =>
    rw [get?_cons, names, map_cons, mem_cons, ← names, ← ih]
    by_cases h : n = e.1 <;> simp [h]

theorem get?_eq_none_iff : d.get? n = none ↔ n ∉ d.names := by
  rw [← isSome_get?_iff, Option.not_isSome_iff_eq_none]

theorem get?_append (d e : Dir) (n : FileName) : Dir.get? (d ++ e) n = (d.get? n).or (Dir.get? e n) := lookup_append

theorem get?_remove (d : Dir) (n m : FileName) : (d.remove n).get? m = if m = n then none else d.get? m := by
  induction d with
  | nil => simp [remove, get?]
  | cons e d ih =>
    have hcons : remove (e :: d) n = if e.1 = n then remove d n else e :: remove d n := by
      by_cases h : e.1 = n <;> simp [remove, h]
    rw [hcons, get?_cons]
    by_cases hen : e.1 = n
    · rw [if_pos hen, ih, hen]
      by_cases hmn : m = n <;> simp [hmn]
    · rw [if_neg hen, get?_cons, ih]
      by_cases hme : m = e.1
      · simp [hme, hen]
      · simp [hme]

theorem get?_write (d : Dir) (n m : FileName) (b : Bytes) : (d.write n b).get? m = if m = n then some b else d.get? m := by
  rw [write, get?_append, get?_remove, get?_cons]
  by_cases h : m = n
  · simp [h]
  · simp [h, get?]

/-- A rename of a file that is there; of one that is not, nothing happens. -/
theorem get?_rename (d : Dir) (a b m : FileName) :
    ((d.rename a b).getD d).get? m =
      if d.get? a = none then d.get? m else if m = b then d.get? a else if m = a then none else d.get? m := by
  cases h : d.get? a with
  | none => simp [rename, h]
  | some data =>
    simp only [rename, h, Option.map_some, Option.getD_some, get?_write, get?_remove, reduceCtorEq, ↓reduceIte]

theorem remove_distinct (h : d.names.Nodup) (n : FileName) : (d.remove n).names.Nodup :=
  h.sublist (Sublist.map Prod.fst filter_sublist)

theorem write_distinct (h : d.names.Nodup) (n : FileName) (b : Bytes) : (d.write n b).names.Nodup := by
  rw [write, names, map_append, nodup_append]
  refine ⟨remove_distinct h n, by simp, fun x hx y hy => ?_⟩
  rw [map_singleton, mem_singleton] at hy
  rintro rfl
  have : (d.remove n).get? x = none := by rw [get?_remove, if_pos hy]
  exact get?_eq_none_iff.mp this hx

theorem rename_distinct (h : d.names.Nodup) (a b : FileName) : ((d.rename a b).getD d).names.Nodup := by
  cases hd : d.get? a with
  | none => simpa [rename, hd] using h
  | some data => simpa [rename, hd] using write_distinct (remove_distinct h a) b data

end Dir

theorem recoverFile_distinct (h : d.names.Nodup) (n : FileName) : (recoverFile d n).names.Nodup := by
  unfold recoverFile
  split
  · simp only
    split
    · exact Dir.remove_distinct h n
    · exact Dir.rename_distinct h _ _
  · exact h

theorem recover_distinct (h : d.names.Nodup) : (recoverCompactingSegments d).names.Nodup := by
  have key : ∀ (ns : List FileName) d, d.names.Nodup → (ns.foldl recoverFile d).names.Nodup := by
    intro ns
    induction ns with
    | nil => exact fun d h => h
    | cons n ns ih => exact fun d h => ih _ (recoverFile_distinct h n)
  exact key _ d h

theorem get?_recoverFile (d : Dir) (n m : FileName) :
    (recoverFile d n).get? m =
      if n.compacting = true then
        if m = n then none
        else if m = { n with compacting := false } then (d.get? m).or (d.get? n)
        else d.get? m
      else d.get? m := by
  unfold recoverFile
  split
  · rename_i hn
    have hne : n ≠ { n with compacting := false } := fun h => by
      rw [h] at hn
      cases hn
    cases hfinal : d.get? { n with compacting := false } with
    | some data =>
      simp only [hfinal, Dir.get?_remove]
      by_cases hm : m = { n with compacting := false }
      · subst hm
        simp [hfinal]
      · simp [hm]
    | none =>
      simp only [hfinal, Dir.get?_rename]
      by_cases hdata : d.get? n = none
      · by_cases hmn : m = n
        · simp [hdata, hmn]
        · by_cases hm : m = { n with compacting := false } <;> simp [hdata, hmn]
      · by_cases hm : m = { n with compacting := false }
        · subst hm
          simp [hdata, hfinal, hne.symm]
        · simp [hdata, hm]
  · rfl

/-- The content that recovery leaves under a canonical name. -/
theorem recover_get? (d : Dir) (m : FileName) (hm : m.compacting = false) :
    (recoverCompactingSegments d).get? m = (d.get? m).or (d.get? { m with compacting := true }) := by
  have key : ∀ (ns : List FileName) d, (ns.foldl recoverFile d).get? m =
      (d.get? m).or (if { m with compacting := true } ∈ ns then d.get? { m with compacting := true } else none) := by
    intro ns
    induction ns with
    | nil => intro d; simp
    | cons n ns ih =>
      intro d
      rw [foldl_cons, ih, get?_recoverFile, get?_recoverFile]
      by_cases hn : n = { m with compacting := true }
      · subst hn
        have hself : { m with compacting := false } = m := by rw [← hm]
        have hne : m ≠ { m with compacting := true } := fun h => by rw [h] at hm; cases hm
        simp [hself, hne]
      · have hplace : { m with compacting := true } ≠ n := fun h => hn h.symm
        by_cases hc : n.compacting = true
        · have hfinal : m ≠ { n with compacting := false } := fun h => hn (by rw [h, ← hc])
          have hmn : m ≠ n := fun h => by rw [h, hc] at hm; cases hm
          simp [hplace, hfinal, hmn]
        · simp [hc, hplace]
  rw [recoverCompactingSegments, key]
  by_cases h : { m with compacting := true } ∈ d.map Prod.fst
  · rw [if_pos h]
  · rw [if_neg h, Dir.get?_eq_none_iff.mpr h]

def Dir.logAt (d : Dir) (b : Int) : Option Bytes := (d.get? (segmentLogName b false)).or (d.get? (segmentLogName b true))

theorem recover_log (d : Dir) (b : Int) : (recoverCompactingSegments d).get? (segmentLogName b false) = d.logAt b :=
  recover_get? d (segmentLogName b false) rfl

def logBase (n : FileName) : Option Int := if n.kind = .log ∧ n.compacting = false then some n.base else none

theorem discoverSegments_eq (distinct : d.names.Nodup) {bases : List Int} (sorted : bases.Pairwise (· < ·))
    (logs : ∀ b, (d.get? (segmentLogName b false)).isSome ↔ b ∈ bases) : discoverSegments d = bases := by
  have hbase : ∀ n b, b ∈ logBase n ↔ n = segmentLogName b false := by
    rintro ⟨base, kind, compacting⟩ b
    cases kind <;> cases compacting <;> simp [logBase, segmentLogName]
  have hnames : discoverSegments d = (d.names.filterMap logBase).insertionSort (· ≤ ·) := by
    rw [Dir.names, filterMap_map]
    rfl
  have hnodup : (d.names.filterMap logBase).Nodup := distinct.filterMap fun a a' b ha ha' =>
    ((hbase a b).mp ha).trans ((hbase a' b).mp ha').symm
  have hmem : ∀ b, b ∈ d.names.filterMap logBase ↔ b ∈ bases := by
    intro b
    rw [← logs b, Dir.isSome_get?_iff, mem_filterMap]
    constructor
    · rintro ⟨n, hn, hb⟩
      rwa [← (hbase n b).mp hb]
    · exact fun h => ⟨_, h, (hbase _ b).mpr rfl⟩
  have hperm := (perm_insertionSort (· ≤ ·) (d.names.filterMap logBase)).trans
    ((perm_ext_iff_of_nodup hnodup (sorted.imp Int.ne_of_lt)).mpr hmem)
  rw [hnames]
  exact hperm.eq_of_pairwise' (pairwise_insertionSort (· ≤ ·) _) (sorted.imp Int.le_of_lt)

/-- What a file of frames may look like after a crash: the last frame may be cut short. -/
def Image (rs : List Record) (data : Bytes) : Prop :=
  data = frames rs ∨
    ∃ r k, Fits r ∧ 0 < k ∧ k < (encodeRecord r).length ∧ data = frames rs ++ (encodeRecord r).take k

structure Files (d : Dir) (cs : List Chunk) (c : Chunk) (data : Bytes) : Prop where
  ascending : ((cs ++ [c]).map Chunk.base).Pairwise (· < ·)
  distinct : d.names.Nodup
  logs : ∀ b, (d.logAt b).isSome ↔ b ∈ (cs ++ [c]).map Chunk.base
  sealed : ∀ x ∈ cs, d.logAt x.base = some (frames x.records)
  active : d.logAt c.base = some data

structure OnDisk (d : Dir) (cs : List Chunk) (c : Chunk) : Prop where
  stored : ∀ x ∈ cs ++ [c], Stored x.base x.records
  ascending : ((cs ++ [c]).map Chunk.base).Pairwise (· < ·)
  distinct : d.names.Nodup
  logs : ∀ b, (d.logAt b).isSome ↔ b ∈ (cs ++ [c]).map Chunk.base
  sealed : ∀ x ∈ cs, d.logAt x.base = some (frames x.records)
  active : ∃ data, d.logAt c.base = some data ∧ Image c.records data

theorem openSegment_image {base : Int} {rs : List Record} (stored : Stored base rs) (image : Image rs data)
    (maxBytes : Int) (idxFile : Option Bytes) :
    ∃ s, Segment.openSegment base maxBytes data idxFile true = .ok s ∧ Segment.Reopened base maxBytes true rs s ∧
      s.logFile.Tailed := by
  rcases image with rfl | ⟨r, k, fits, hpos, hk, rfl⟩
  · exact Segment.openSegment_frames stored maxBytes idxFile true
  · exact Segment.openSegment_tail stored maxBytes idxFile (torn_take fits hpos hk)

theorem Segment.Reopened.represents {maxBytes : Int} {forAppend : Bool}
    (h : Segment.Reopened c.base maxBytes forAppend c.records s) : s.Represents c :=
  ⟨h.baseOffset, h.holds, h.compacting⟩

namespace PartitionLog

variable {R : Segment → Chunk → Prop}

theorem openSegments_spec (maxBytes : Int)
    (opens : ∀ x ∈ cs, ∀ idxFile, ∃ t, Segment.openSegment x.base maxBytes (frames x.records) idxFile false = .ok t ∧ R t x)
    (sealed : ∀ x ∈ cs, d.get? (segmentLogName x.base false) = some (frames x.records)) (stored : Stored c.base c.records)
    (active : d.get? (segmentLogName c.base false) = some data) (image : Image c.records data) :
    ∃ ss s, openSegments d maxBytes ((cs ++ [c]).map Chunk.base) = .ok (ss ++ [s]) ∧ Forall₂ R ss cs ∧
      Segment.Reopened c.base maxBytes true c.records s ∧ s.logFile.Tailed := by
  induction cs with
  | nil =>
    obtain ⟨s, hopen, hre, htailed⟩ := openSegment_image stored image maxBytes (d.get? (segmentIndexName c.base false))
    refine ⟨[], s, ?_, Forall₂.nil, hre, htailed⟩
    simp [openSegments, active, hopen, bind, Except.bind]
  | cons x cs ih =>
    obtain ⟨t, hopen, hre⟩ := opens x mem_cons_self (d.get? (segmentIndexName x.base false))
    obtain ⟨ss, s, hrest, hreps, hlast, htailed⟩ :=
      ih (fun y hy => opens y (mem_cons_of_mem x hy)) (fun y hy => sealed y (mem_cons_of_mem x hy))
    refine ⟨t :: ss, s, ?_, Forall₂.cons hre hreps, hlast, htailed⟩
    have hnonempty : ((cs ++ [c]).map Chunk.base).isEmpty = false := by simp
    simp only [cons_append, map_cons, openSegments, sealed x mem_cons_self, Option.getD_some, hnonempty, hopen, hrest, bind,
      Except.bind]

/-- A directory of chunks opens as a log of them, if each of the sealed ones opens. -/
theorem openPartition_files (h : Files d cs c data) (maxBytes : Int)
    (opens : ∀ x ∈ cs, ∀ idxFile, ∃ t, Segment.openSegment x.base (segmentBytes maxBytes)
      (frames x.records) idxFile false = .ok t ∧ R t x)
    (stored : Stored c.base c.records) (image : Image c.records data) :
    ∃ p, openPartition d maxBytes = .ok p ∧ Forall₂ R p.sealed cs ∧
      Segment.Reopened c.base (segmentBytes maxBytes) true c.records p.active ∧ p.active.logFile.Tailed := by
  have hbases := discoverSegments_eq (recover_distinct h.distinct) h.ascending fun b => by rw [recover_log, h.logs]
  obtain ⟨ss, s, hopen, hreps, hlast, htailed⟩ :=
    openSegments_spec (segmentBytes maxBytes) opens (fun x hx => (recover_log d x.base).trans (h.sealed x hx)) stored
      ((recover_log d c.base).trans h.active) image
  refine ⟨⟨segmentBytes maxBytes, ss, s⟩, ?_, hreps, hlast, htailed⟩
  simp only [openPartition, hbases, hopen, bind, Except.bind, getLast?_concat, dropLast_concat]

theorem openPartition_onDisk (h : OnDisk d cs c) (maxBytes : Int) :
    ∃ p, openPartition d maxBytes = .ok p ∧ p.Covers cs c ∧ p.active.logFile.Tailed ∧
      Segment.Reopened c.base (segmentBytes maxBytes) true c.records p.active := by
  obtain ⟨data, hmem, himage⟩ := h.active
  obtain ⟨p, hopen, hreps, hlast, htailed⟩ := openPartition_files (R := fun t x => t.Represents x ∧ t.logBuf = none)
    ⟨h.ascending, h.distinct, h.logs, h.sealed, hmem⟩ maxBytes (fun x hx idxFile => by
      obtain ⟨t, ht, hre, -⟩ := Segment.openSegment_frames (h.stored x (mem_append_left _ hx))
        (segmentBytes maxBytes) idxFile false
      exact ⟨t, ht, hre.represents, hre.logBuf⟩) (h.stored c (by simp)) himage
  refine ⟨p, hopen, ⟨hreps.imp fun _ _ hr => hr.1, hlast.represents, fun t ht => ?_, ?_⟩, htailed, hlast⟩
  · obtain ⟨x, -, hx⟩ := exists_of_forall₂_left hreps ht
    exact hx.2
  · rw [hlast.logBuf]
    rfl

end PartitionLog

theorem Segment.mem_files :
    e ∈ s.files ↔ e = (s.logPath, s.logFile.data) ∨ ∃ b, s.idxFile = some b ∧ e = (s.idxPath, b) := by
  cases h : s.idxFile <;> simp [files, h]

theorem Segment.base_of_mem_files (h : e ∈ s.files) : e.1.base = s.baseOffset := by
  rcases mem_files.mp h with rfl | ⟨b, -, rfl⟩ <;> rfl

theorem Segment.files_distinct (s : Segment) : (Dir.names s.files).Nodup := by
  cases h : s.idxFile <;>
    simp [files, h, Dir.names, logPath, idxPath, segmentLogName, segmentIndexName]

theorem files_distinct (ascending : (ss.map Segment.baseOffset).Pairwise (· < ·)) :
    (Dir.names (ss.flatMap Segment.files)).Nodup := by
  rw [Dir.names, map_flatMap, nodup_flatMap]
  refine ⟨fun s _ => s.files_distinct, (pairwise_map.mp ascending).imp fun {s t} hst n hs ht => ?_⟩
  obtain ⟨e, he, rfl⟩ := mem_map.mp hs
  obtain ⟨e', he', heq⟩ := mem_map.mp ht
  have h₁ := Segment.base_of_mem_files he
  have h₂ := Segment.base_of_mem_files he'
  rw [heq] at h₂
  omega

section
variable (canonical : ∀ s ∈ ss, s.compacting = false)
include canonical

theorem log_mem_files (b : Int) :
    segmentLogName b false ∈ Dir.names (ss.flatMap Segment.files) ↔ b ∈ ss.map Segment.baseOffset := by
  simp only [Dir.names, mem_map, mem_flatMap]
  constructor
  · rintro ⟨e, ⟨s, hs, he⟩, hname⟩
    refine ⟨s, hs, ?_⟩
    rw [← Segment.base_of_mem_files he, hname]
    rfl
  · rintro ⟨s, hs, rfl⟩
    refine ⟨_, ⟨s, hs, Segment.mem_files.mpr (Or.inl rfl)⟩, ?_⟩
    simp only [Segment.logPath, canonical s hs]

theorem files_canonical :
    ∀ n ∈ Dir.names (ss.flatMap Segment.files), n.compacting = false := by
  intro n hn
  obtain ⟨e, he, rfl⟩ := mem_map.mp hn
  obtain ⟨s, hs, he⟩ := mem_flatMap.mp he
  rcases Segment.mem_files.mp he with rfl | ⟨b, -, rfl⟩ <;> exact canonical s hs

/-- The files of an open log are canonical, so the log files are found under their own names. -/
theorem logAt_files (b : Int) :
    Dir.logAt (ss.flatMap Segment.files) b = Dir.get? (ss.flatMap Segment.files) (segmentLogName b false) := by
  have hnone : Dir.get? (ss.flatMap Segment.files) (segmentLogName b true) = none :=
    Dir.get?_eq_none_iff.mpr fun h => Bool.noConfusion (files_canonical canonical _ h)
  rw [Dir.logAt, hnone, Option.or_none]

end

structure Segment.Flushed (s : Segment) (c : Chunk) : Prop where
  base : s.baseOffset = c.base
  canonical : s.compacting = false
  data : s.logFile.data = frames c.records

theorem files_found (ascending : ((cs ++ [c]).map Chunk.base).Pairwise (· < ·))
    (sealed : Forall₂ Segment.Flushed ss cs) (base : s.baseOffset = c.base) (canonical : s.compacting = false) :
    Files ((ss ++ [s]).flatMap Segment.files) cs c s.logFile.data := by
  have hcanonical : ∀ t ∈ ss ++ [s], t.compacting = false := by
    intro t ht
    rcases mem_append.mp ht with ht | ht
    · obtain ⟨x, -, hx⟩ := exists_of_forall₂_left sealed ht
      exact hx.canonical
    · rwa [mem_singleton.mp ht]
  have hbases : (ss ++ [s]).map Segment.baseOffset = (cs ++ [c]).map Chunk.base := by
    have h : ss.map Segment.baseOffset = cs.map Chunk.base :=
      forall₂_eq_eq_eq ▸ forall₂_map_left_iff.mpr
        (forall₂_map_right_iff.mpr (sealed.imp fun _ _ h => h.base))
    rw [map_append, map_append, h, map_singleton, map_singleton, base]
  have hdistinct := files_distinct (hbases ▸ ascending)
  refine ⟨ascending, hdistinct, ?_, ?_, ?_⟩
  · intro b
    rw [logAt_files hcanonical, Dir.isSome_get?_iff, log_mem_files hcanonical, hbases]
  · intro x hx
    obtain ⟨t, ht, hf⟩ := exists_of_forall₂_right sealed hx
    rw [logAt_files hcanonical]
    refine Dir.get?_of_mem hdistinct (mem_flatMap.mpr ⟨t, mem_append_left _ ht, Segment.mem_files.mpr (Or.inl ?_)⟩)
    rw [Segment.logPath, hf.base, hf.canonical, hf.data]
  · rw [logAt_files hcanonical]
    refine Dir.get?_of_mem hdistinct (mem_flatMap.mpr ⟨s, by simp, Segment.mem_files.mpr (Or.inl ?_)⟩)
    rw [Segment.logPath, base, canonical]

theorem files_onDisk (layout : Layout (cs ++ [c])) (sealed : Forall₂ Segment.Flushed ss cs)
    (base : s.baseOffset = c.base) (canonical : s.compacting = false) (image : Image c.records s.logFile.data) :
    OnDisk ((ss ++ [s]).flatMap Segment.files) cs c :=
  have files := files_found layout.bases sealed base canonical
  ⟨layout.stored, layout.bases, files.distinct, files.logs, files.sealed, s.logFile.data, files.active, image⟩

namespace PartitionLog

variable {p : PartitionLog}

theorem Covers.flushed (h : p.Covers cs c) : Forall₂ Segment.Flushed p.sealed cs := by
  refine forall₂_of_mem h.sealed fun s x hs hx => ?_
  exact ⟨hx.base, hx.canonical, hx.holds.data_of_none (h.readOnly s hs)⟩

theorem Covers.canonical (h : p.Covers cs c) : ∀ s ∈ p.segments, s.compacting = false := by
  intro s hs
  obtain ⟨x, -, hx⟩ := exists_of_forall₂_left h.segments hs
  exact hx.canonical

/-- A cleanly closed log opens again with the same chunks, ready to append. -/
theorem Holds.reopen (h : p.Holds cs c) (maxBytes : Int) :
    ∃ p', openPartition p.close maxBytes = .ok p' ∧ p'.Holds cs c ∧ p'.active.logFile.Tailed ∧
      Segment.Reopened c.base (segmentBytes maxBytes) true c.records p'.active := by
  have hkept := Segment.flushIfActive_kept p.active
  have hcanonical : p.active.sealSegment.compacting = false := hkept.compacting.trans h.active.canonical
  have hdisk : OnDisk p.close cs c := files_onDisk h.layout h.flushed (hkept.baseOffset.trans h.active.base) hcanonical
    (Or.inl h.active.holds.sealSegment.2)
  obtain ⟨p', hopen, hcovers, htailed, hre⟩ := openPartition_onDisk hdisk maxBytes
  exact ⟨p', hopen, ⟨hcovers, h.layout⟩, htailed, hre⟩

end PartitionLog
end Holocron.Log

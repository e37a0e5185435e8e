import Holocron.Theorems.Log.Frozen

/-! The lifetime of a partition log: offsets only go up, and what can be read is in order and was appended. -/

namespace Holocron.Log
open Lib List

/-! ### Logs over their lifetime -/

def Chunk.Dense (c : Chunk) : Prop := ∀ (i : Nat) (r : Record), c.records[i]? = some r → r.offset = c.base + i

theorem Chunk.Dense.next_eq {c : Chunk} (h : c.Dense) : c.next = c.base + c.records.length := by
  obtain ⟨base, rs⟩ := c
  rcases eq_nil_or_concat rs with rfl | ⟨rs, x, rfl⟩
  · simp [next]
  · rw [concat_eq_append] at h ⊢
    have hx := h rs.length x getElem?_concat_length
    rw [next, endOffset_concat, hx]
    simp [Int.add_assoc]

variable {r : Record} {ds : List Chunk}

theorem Chunk.Dense.concat {c : Chunk} (h : c.Dense) (hoff : r.offset = c.next) : Chunk.Dense ⟨c.base, c.records ++ [r]⟩ := by
  intro i x hx
  rcases of_getElem?_concat hx with hx | ⟨rfl, rfl⟩
  · exact h i x hx
  · exact hoff.trans h.next_eq

namespace PartitionLog

structure Lives (p : PartitionLog) (cs : List Chunk) (c : Chunk) : Prop where
  sealed : List.Forall₂ Segment.Frozen p.sealed cs
  active : p.active.Represents c
  writable : p.active.logBuf.isSome = true
  tailed : p.active.logFile.Tailed
  chain : Chain (cs ++ [c])
  dense : c.Dense
  nonneg : ∀ x ∈ cs ++ [c], 0 ≤ x.base

variable {p : PartitionLog} {cs : List Chunk} {c : Chunk} {ss : List Segment} {kept : List Record} {active : Segment}

theorem Lives.highWater (h : p.Lives cs c) : p.highWater = c.next := h.active.highWater

theorem Lives.stored (h : p.Lives cs c) : Stored c.base c.records := h.active.base ▸ h.active.holds.stored

theorem Lives.keep (h : p.Lives cs c) (hss : Forall₂ Segment.Frozen ss ds) (hsub : ds <:+ cs) :
    Lives { p with sealed := ss } ds c where
  sealed := hss
  active := h.active
  writable := h.writable
  tailed := h.tailed
  chain := h.chain.sublist (hsub.sublist.append_right [c])
  dense := h.dense
  nonneg x hx := h.nonneg x ((hsub.sublist.append_right [c]).subset hx)

/-! ### Retention -/

theorem timeLoop_frozen (cutoff : Int64) (rep : Forall₂ Segment.Frozen ss cs) :
    ∃ deleted kept ds, timeLoop cutoff ss = (deleted, none, kept) ∧ Forall₂ Segment.Frozen kept ds ∧ ds <:+ cs := by
  induction rep with
  | nil => exact ⟨0, [], [], rfl, Forall₂.nil, suffix_rfl⟩
  | @cons s c ss cs hs rep ih =>
    obtain ⟨out, s', hread, hfrozen, -⟩ := hs.readFrom (s.highWater - 1) 1
    obtain ⟨deleted, kept, ds, hloop, hkept, hsuffix⟩ := ih
    simp only [timeLoop, hread]
    split
    · exact ⟨_, _, c :: cs, rfl, Forall₂.cons hfrozen rep, suffix_rfl⟩
    split
    · exact ⟨_, _, c :: cs, rfl, Forall₂.cons hfrozen rep, suffix_rfl⟩
    · rw [hloop]
      exact ⟨_, _, ds, rfl, hkept, hsuffix.trans (suffix_cons c cs)⟩

theorem Lives.enforceTimeRetention (h : p.Lives cs c) (cutoff : Int64) :
    ∃ deleted p' ds, p.enforceTimeRetention cutoff = ((deleted, none), p') ∧ p'.Lives ds c ∧ ds <:+ cs := by
  obtain ⟨deleted, kept, ds, hloop, hkept, hsuffix⟩ := timeLoop_frozen cutoff h.sealed
  exact ⟨deleted, _, ds, by rw [PartitionLog.enforceTimeRetention, hloop], h.keep hkept hsuffix, hsuffix⟩

theorem Lives.enforceSizeRetention (h : p.Lives cs c) (maxBytes : Int) :
    ∃ ds, (p.enforceSizeRetention maxBytes).2.Lives ds c ∧ ds <:+ cs := by
  obtain ⟨d, -, hrun, -⟩ := enforceSizeRetention_eq p maxBytes
  rw [hrun]
  exact ⟨cs.drop d, h.keep (forall₂_drop d h.sealed) (drop_suffix d cs), drop_suffix d cs⟩

/-! ### Appending -/

def Bounded (p : PartitionLog) : Prop := ∀ s ∈ p.segments, s.size < 2 ^ 32

instance (p : PartitionLog) : Decidable p.Bounded := inferInstanceAs (Decidable (∀ s ∈ p.segments, s.size < 2 ^ 32))

/-- The segment appended to is the active one or, after a rollover, the last sealed one. -/
theorem append_result (happ : p.active.append r = .ok (r.offset, active)) :
    ∃ p', p.append r = .ok (r.offset, p') ∧ (p'.Bounded → active.size < 2 ^ 32) ∧
      (p' = { p with active := active } ∨ p' = PartitionLog.rollLocked { p with active := active } ∧
        active.shouldRoll = true) := by
  have hpart : p.append r = .ok (r.offset, if active.shouldRoll then rollLocked { p with active := active }
      else { p with active := active }) := by
    simp only [append, happ, bind, Except.bind]
  refine ⟨_, hpart, ?_, ?_⟩
  · split
    · intro hb
      rw [← Segment.sealSegment_size]
      exact hb _ (mem_append_left _ (mem_append_right _ (mem_singleton_self _)))
    · exact fun hb => hb _ (mem_append_right _ (mem_singleton_self _))
  · split
    · rename_i hroll
      exact .inr ⟨rfl, hroll⟩
    · exact .inl rfl

section
variable (h : p.Lives cs c)
include h

/-- The active segment has room for the record at the high water: its offsets are dense, so bytes bound them. -/
theorem Lives.stored_append (hoff : r.offset = p.highWater) (hsigned : Signed 8 r.offset)
    (hbytes : p.active.size + (encodeRecord r).length < 2 ^ 32) : Stored c.base (c.records ++ [r]) := by
  have hlen := length_le_frames c.records
  rw [h.active.holds.size] at hbytes
  rw [h.highWater] at hoff
  refine h.stored.concat (Int.le_of_eq hoff.symm) hsigned ?_ ?_
  · rw [hoff, h.dense.next_eq]
    omega
  · simpa only [frames_append, frames_cons, frames_nil, append_nil, length_append] using hbytes

theorem Lives.setActive (hoff : r.offset = p.highWater)
    (stored : Stored c.base (c.records ++ [r])) (holds : active.Holds (c.records ++ [r])) (tailed : active.logFile.Tailed)
    (kept : Segment.Kept p.active active) : Lives { p with active := active } cs ⟨c.base, c.records ++ [r]⟩ where
  sealed := h.sealed
  active := h.active.kept kept holds
  writable := kept.active.trans h.writable
  tailed := tailed
  chain := h.chain.replace_last rfl stored.sound
  dense := h.dense.concat (hoff.trans h.highWater)
  nonneg x hx := by
    rcases mem_append.mp hx with hx | hx
    · exact h.nonneg x (mem_append_left _ hx)
    · rw [mem_singleton.mp hx]
      exact h.nonneg c (by simp)

theorem Lives.rollLocked (hne : c.records ≠ []) : p.rollLocked.Lives (cs ++ [c]) ⟨c.next, []⟩ := by
  have hkept := Segment.flushIfActive_kept p.active
  have hsealed : p.active.sealSegment.Represents c :=
    ⟨hkept.baseOffset.trans h.active.base, h.active.holds.sealSegment.1, hkept.compacting.trans h.active.canonical⟩
  have hlt : c.base < c.next := by
    have := length_pos_iff.mpr hne
    rw [h.dense.next_eq]
    omega
  refine ⟨rel_append h.sealed (Forall₂.cons (hsealed.frozen rfl) Forall₂.nil), ?_, rfl, .inl rfl, ?_, ?_, ?_⟩
  · exact ⟨h.active.highWater, Segment.createSegmentWithSuffix_holds _ _ _, rfl⟩
  · refine ⟨fun x hx => ?_, chained_roll h.chain.chained hlt⟩
    rcases mem_append.mp hx with hx | hx
    · exact h.chain.sound x hx
    · rw [mem_singleton.mp hx]
      exact (Stored.nil _).sound
  · intro i r hr
    cases hr
  · intro x hx
    rcases mem_append.mp hx with hx | hx
    · exact h.nonneg x hx
    · rw [mem_singleton.mp hx]
      exact Int.le_trans (h.nonneg c (by simp)) (Int.le_of_lt hlt)

/-- An append adds the record to the active chunk; a rollover then seals the chunk. -/
theorem Lives.append (hoff : r.offset = p.highWater) (hsigned : Signed 8 r.offset)
    (bounded : ∀ o p', p.append r = .ok (o, p') → p'.Bounded) :
    ∃ p', p.append r = .ok (r.offset, p') ∧
      (p'.Lives cs ⟨c.base, c.records ++ [r]⟩ ∧ p'.segments.length = p.segments.length ∨
        p'.Lives (cs ++ [⟨c.base, c.records ++ [r]⟩]) ⟨r.offset + 1, []⟩ ∧ p'.segments.length ≠ p.segments.length) := by
  obtain ⟨buf, hbuf⟩ := Option.isSome_iff_exists.mp h.writable
  obtain ⟨idx, gap, -, heq⟩ := Segment.append_eq hbuf r
  obtain ⟨p', happ, hsize, hp'⟩ := append_result heq
  have stored := h.stored_append hoff hsigned (hsize (bounded _ _ happ))
  obtain ⟨active, hactive, hholds, htailed, hkept⟩ := h.active.holds.append h.writable h.tailed (h.active.base ▸ stored)
  cases heq.symm.trans hactive
  have hlives := h.setActive hoff stored hholds htailed hkept
  refine ⟨p', happ, ?_⟩
  rcases hp' with rfl | ⟨rfl, -⟩
  · exact .inl ⟨hlives, by simp [segments]⟩
  · have hroll := hlives.rollLocked (by simp)
    rw [Chunk.next, endOffset_concat] at hroll
    exact .inr ⟨hroll, by simp [segments, PartitionLog.rollLocked]⟩

end

/-! ### Compaction -/

section
variable (h : p.Lives cs c)
include h

theorem Lives.lt_base : ∀ r ∈ records cs, r.offset < c.base := by
  intro r hr
  obtain ⟨x, hx, hr⟩ := mem_records.mp hr
  have hnext := ((pairwise_append.mp h.chain.chained).2.2 x hx c (mem_singleton_self c)).2
  exact Int.lt_of_lt_of_le (h.chain.lt_next (mem_append_left _ hx) r hr) hnext

theorem Lives.offset_nonneg : ∀ r ∈ records cs, 0 ≤ r.offset := by
  intro r hr
  obtain ⟨x, hx, hr⟩ := mem_records.mp hr
  have hx' : x ∈ cs ++ [c] := mem_append_left _ hx
  exact Int.le_trans (h.nonneg x hx') ((h.chain.sound x hx').base_le r hr)

theorem Lives.chain_kept {base : Int} (sound : Sound base kept) (hbase : base < c.base)
    (hkept : ∀ r ∈ kept, r.offset < c.base) : Chain ([⟨base, kept⟩] ++ [c]) := by
  refine ⟨fun x hx => ?_, pairwise_append.mpr ⟨pairwise_singleton _ _, pairwise_singleton _ _, fun x hx y hy => ?_⟩⟩
  · rcases mem_append.mp hx with hx | hx
    · rwa [mem_singleton.mp hx]
    · rw [mem_singleton.mp hx]
      exact h.stored.sound
  · rw [mem_singleton.mp hx, mem_singleton.mp hy]
    refine ⟨hbase, ?_⟩
    rcases eq_nil_or_concat kept with rfl | ⟨init, z, rfl⟩
    · exact Int.le_of_lt hbase
    · rw [Chunk.next, concat_eq_append, endOffset_concat]
      exact hkept z (by simp)

theorem Lives.sound_kept {out out' : List Record} (hout : out.Sublist (records cs)) (hout' : out'.Sublist (records cs))
    {latest : Latest} (hlatest : latest = (out.map Record.norm).foldl Latest.note []) (hne : latest ≠ [])
    (hkept : kept = (out'.map Record.norm).filter latest.keeps) (hbytes : (frames kept).length < 2 ^ 32) :
    Sound latest.newBase kept ∧ 0 ≤ latest.newBase ∧ latest.newBase < c.base ∧ ∀ r ∈ kept, ∃ a ∈ records cs, a.norm = r := by
  have chain : Chain cs := h.chain.sublist (sublist_append_left cs [c])
  have hmem : ∀ r ∈ kept, ∃ a ∈ records cs, a.norm = r := by
    intro r hr
    rw [hkept] at hr
    obtain ⟨a, ha, rfl⟩ := mem_map.mp (mem_of_mem_filter hr)
    exact ⟨a, hout'.subset ha, rfl⟩
  have hfirst : ∀ r ∈ out.map Record.norm, 0 ≤ r.offset ∧ r.offset < c.base := by
    intro r hr
    obtain ⟨a, ha, rfl⟩ := mem_map.mp hr
    exact ⟨h.offset_nonneg a (hout.subset ha), h.lt_base a (hout.subset ha)⟩
  have htracks : Tracks latest (out.map Record.norm) := hlatest ▸ tracks_foldl _
  obtain ⟨⟨k, x, hx, hxbase⟩, hle⟩ := htracks.newBase hne fun r hr => (hfirst r hr).1
  obtain ⟨hnonneg, hlt⟩ := hfirst x (live_key hx).1
  refine ⟨⟨fun r hr => ?_, ?_, fun r hr => ?_, hbytes⟩, hxbase ▸ hnonneg, hxbase ▸ hlt, hmem⟩
  · obtain ⟨a, ha, rfl⟩ := hmem r hr
    obtain ⟨y, hy, ha⟩ := mem_records.mp ha
    exact ((chain.sound y hy).fits a ha).norm
  · rw [hkept]
    exact (norm_ascending (chain.ascending.sublist hout')).filter _
  · rw [hkept, mem_filter, Latest.keeps, Bool.and_eq_true, decide_eq_true_eq, decide_eq_true_eq, htracks.lookup,
      Option.map_eq_some_iff] at hr
    obtain ⟨-, -, y, hy, hyoff⟩ := hr
    exact hyoff ▸ hle _ y hy

theorem Lives.compact (bounded : ∀ steps p', p.compact = .ok (steps, p') → p'.Bounded) :
    ∃ steps p' cs', p.compact = .ok (steps, p') ∧ p'.Lives cs' c ∧ ∀ r ∈ records cs', ∃ a ∈ records cs, a.norm = r.norm := by
  by_cases hsealed : p.sealed = []
  · exact ⟨[], p, cs, by rw [PartitionLog.compact, if_pos hsealed], h, fun r hr => ⟨r, hr, rfl⟩⟩
  obtain ⟨out, ss, hstream, hfrozen, hout⟩ := streamSealedRecords_frozen h.sealed
  obtain ⟨out', ss', hstream', -, hout'⟩ := streamSealedRecords_frozen hfrozen
  generalize hlatest : (out.map Record.norm).foldl Latest.note [] = latest
  by_cases hne : latest = []
  · refine ⟨ss.flatMap Segment.removeSteps, { p with sealed := [] }, [], ?_, h.keep List.Forall₂.nil (nil_suffix), ?_⟩
    · rw [PartitionLog.compact, if_neg hsealed, hstream]
      simp only [bind, Except.bind, hlatest, if_pos hne]
    · intro r hr
      cases hr
  generalize hkept : (out'.map Record.norm).filter latest.keeps = kept
  obtain ⟨s, idx, hfold, hbase, hcomp, hdata, hidx, hsize, hhigh, hentries⟩ := placeholder_spec kept latest.newBase p.maxBytes
  have hcompact : ∃ steps, p.compact = .ok (steps, { p with sealed := [{ s.sealSegment with compacting := false }] }) := by
    rw [PartitionLog.compact, if_neg hsealed, hstream]
    simp only [bind, Except.bind, hlatest, if_neg hne, hstream', hkept, hfold]
    exact ⟨_, rfl⟩
  obtain ⟨steps, hcompact⟩ := hcompact
  have hbytes : (frames kept).length < 2 ^ 32 := by
    rw [← hsize]
    exact bounded _ _ hcompact { s.sealSegment with compacting := false } (mem_append_left _ (mem_singleton_self _))
  obtain ⟨hsound, hnonneg, hlt, hmem⟩ := h.sound_kept hout hout' hlatest.symm hne hkept.symm hbytes
  have hkeptLt : ∀ r ∈ kept, r.offset < c.base := by
    intro r hr
    obtain ⟨a, ha, rfl⟩ := hmem r hr
    exact h.lt_base a ha
  refine ⟨steps, _, [⟨latest.newBase, kept⟩], hcompact,
    ⟨List.Forall₂.cons ⟨hbase, rfl, rfl, hdata, hhigh, ?_, hsound⟩ List.Forall₂.nil,
    h.active, h.writable, h.tailed, h.chain_kept hsound hlt hkeptLt, h.dense, ?_⟩, ?_⟩
  · intro e he
    obtain ⟨a, b, hsplit, hpos⟩ := hentries e he
    refine ⟨a, b, hsplit, ?_⟩
    rw [hsplit, frames_append, length_append] at hbytes
    rw [hpos, uint32, toUnsigned_of_lt (Int.natCast_nonneg _) (by omega), Int.toNat_natCast]
  · intro x hx
    rcases mem_append.mp hx with hx | hx
    · rw [mem_singleton.mp hx]
      exact hnonneg
    · rw [mem_singleton.mp hx]
      exact h.nonneg c (by simp)
  · intro r hr
    rw [records_cons, records_nil, append_nil] at hr
    obtain ⟨a, ha, rfl⟩ := hmem r hr
    exact ⟨a, ha, a.norm_norm.symm⟩

end

/-! ### Closing and reopening -/

theorem Lives.reopen (h : p.Lives cs c) (maxBytes : Int) :
    ∃ p', openPartition p.close maxBytes = .ok p' ∧ p'.Lives cs c := by
  have hkept := Segment.flushIfActive_kept p.active
  have hflushed : Forall₂ Segment.Flushed p.sealed cs := h.sealed.imp fun _ _ hs => ⟨hs.base, hs.canonical, hs.data⟩
  have hfiles := files_found h.chain.bases hflushed (s := p.active.sealSegment) (hkept.baseOffset.trans h.active.base)
    (hkept.compacting.trans h.active.canonical)
  obtain ⟨p', hopen, hsealed, hactive, htailed⟩ := openPartition_files (R := Segment.Frozen) hfiles maxBytes
    (fun x hx idxFile => openSegment_frozen (h.chain.sound x (mem_append_left _ hx)) (segmentBytes maxBytes) idxFile) h.stored
    (.inl h.active.holds.sealSegment.2)
  exact ⟨p', hopen, hsealed, hactive.represents, by rw [hactive.logBuf]; rfl, htailed, h.chain, h.dense, h.nonneg⟩

/-! ### Reading -/

/-- Where a read continues after a segment is not above the bases of the later ones. -/
theorem next_le_base {d x : Chunk} (h : Chain (d :: cs)) (hx : x ∈ cs) {n : Int} (hn : n ≤ x.base) {b : List Record}
    (hb : b <:+ d.records)
    (m : Nat) : ((((b.map Record.norm).take m).getLast?.map fun r => r.offset + 1).getD n) ≤ x.base := by
  cases hlast : ((b.map Record.norm).take m).getLast? with
  | none => exact hn
  | some y =>
    obtain ⟨r, hr, rfl⟩ := mem_map.mp (mem_of_mem_take (mem_of_getLast? hlast))
    have hlt := h.lt_next mem_cons_self r (hb.subset hr)
    have hnext := (rel_of_pairwise_cons h.chained hx).2
    simp only [Option.map_some, Option.getD_some, Record.norm_offset]
    omega

/-- A read from below all segments returns some records of the sealed ones and all of the active one. -/
theorem readLoop_frozen {s : Segment} (rep : Forall₂ Segment.Frozen ss cs) (hs : s.Represents c)
    (chain : Chain (cs ++ [c])) :
    ∃ rs, rs.Sublist (records cs) ∧ ∀ n m, (∀ x ∈ cs ++ [c], n ≤ x.base) →
      (readLoop (ss ++ [s]) n m).1 = .ok (((rs ++ c.records).map Record.norm).take m) := by
  induction rep with
  | nil =>
    refine ⟨[], nil_sublist _, fun n m hn => ?_⟩
    have stored : Stored c.base c.records := hs.base ▸ hs.holds.stored
    have layout : Layout [c] := ⟨fun x hx => by rwa [mem_singleton.mp hx], pairwise_singleton _ _⟩
    obtain ⟨ss', hloop, -⟩ := readLoop_layout layout (Forall₂.cons hs Forall₂.nil) n m
    rw [nil_append, hloop, records_cons, records_nil, append_nil,
      since_eq_self fun r hr => Int.le_trans (hn c (by simp)) (stored.base_le r hr)]
    rfl
  | @cons t d ss cs ht rep ih =>
    obtain ⟨b, hb, hread⟩ := ht.readFrom_base
    obtain ⟨rs, hrs, hrest⟩ := ih chain.tail
    refine ⟨b ++ rs, hb.sublist.append hrs, fun n m hn => ?_⟩
    rw [cons_append, readLoop]
    split
    · rename_i hzero
      rw [hzero]
      rfl
    obtain ⟨t', hr, -⟩ := hread n m (hn d mem_cons_self)
    have hlater := hrest _ (m - ((b.map Record.norm).take m).length) fun x hx =>
      next_le_base chain hx (hn x (mem_cons_of_mem d hx)) hb m
    -- a full batch leaves no room, a short one is all there was
    have hroom : m - ((b.map Record.norm).take m).length = m - (b.map Record.norm).length := by
      rw [length_take]
      omega
    have hsplit : ((b ++ (rs ++ c.records)).map Record.norm).take m =
        (b.map Record.norm).take m ++ ((rs ++ c.records).map Record.norm).take (m - (b.map Record.norm).length) := by
      rw [map_append, take_append]
    rw [hroom] at hlater
    simp only [hr, Int.toNat_natCast, hroom, hlater, Except.map, append_assoc, hsplit]

theorem Lives.bases (h : p.Lives cs c) : p.segments.map Segment.baseOffset = (cs ++ [c]).map Chunk.base := by
  have hsealed : p.sealed.map Segment.baseOffset = cs.map Chunk.base :=
    forall₂_eq_eq_eq ▸ forall₂_map_left_iff.mpr (forall₂_map_right_iff.mpr (h.sealed.imp fun _ _ hs => hs.base))
  rw [PartitionLog.segments, map_append, map_append, hsealed, map_singleton, map_singleton, h.active.base]

theorem Lives.read (h : p.Lives cs c) :
    ∃ rs, rs.Sublist (records cs) ∧ ∀ m, 0 < m → (p.read 0 m).1 = .ok (((rs ++ c.records).map Record.norm).take m.toNat) := by
  obtain ⟨rs, hrs, hloop⟩ := readLoop_frozen h.sealed h.active h.chain
  refine ⟨rs, hrs, fun m hm => ?_⟩
  have hfirst : p.firstSegment 0 = 0 := by
    by_contra hpos
    obtain ⟨x, hx, hbase⟩ := (firstSegment_bounds h.chain.bases h.bases 0).1 (Nat.pos_of_ne_zero hpos)
    obtain ⟨hlt, hx⟩ := List.getElem?_eq_some_iff.mp hx
    have hzero := pairwise_iff_getElem.mp h.chain.chained 0 _ (Nat.zero_lt_of_lt hlt) hlt (Nat.pos_of_ne_zero hpos)
    have hnonneg := h.nonneg _ (getElem_mem (Nat.zero_lt_of_lt hlt))
    rw [hx] at hzero
    omega
  rw [PartitionLog.read, if_neg (Int.not_le.mpr hm)]
  dsimp only
  rw [hfirst]
  exact hloop 0 m.toNat h.nonneg

/-- A read of at most as many records as a slice can be made for does not panic. -/
theorem readLoopPanics_of_le (ss : List Segment) (n : Int) {m : Nat} (hm : m ≤ maxSlice) : readLoopPanics ss n m = false := by
  induction ss generalizing n m with
  | nil => rfl
  | cons s ss ih =>
    rw [readLoopPanics]
    split
    · rfl
    rw [if_neg fun h => Nat.not_lt.mpr hm h.2]
    split
    · rfl
    · exact ih _ (Nat.le_trans (Nat.sub_le _ _) hm)

theorem readPanics_of_le (p : PartitionLog) (n : Int) {m : Int} (hm : m ≤ maxSlice) : p.readPanics n m = false := by
  rw [readPanics]
  split
  · rfl
  · exact readLoopPanics_of_le _ _ (Int.toNat_le.mpr hm)

end PartitionLog

/-! ### Runs -/

inductive Upkeep where
  | append (r : Record)
  | enforceTimeRetention (cutoffNanos : Int64)
  | enforceSizeRetention (maxBytes : Int)
  | compact
  | reopen (maxBytes : Int)
  deriving DecidableEq, Repr

structure History where
  log : PartitionLog
  appended : List Record
  recent : List Record

namespace History

def start (p : PartitionLog) : History := ⟨p, [], []⟩

def step (h : History) : Upkeep → Except LogError History
  | .append r => do
    let (off, log) ← h.log.append { r with offset := h.log.highWater }
    let r := { r with offset := off }
    .ok ⟨log, h.appended ++ [r], if log.segments.length = h.log.segments.length then h.recent ++ [r] else []⟩
  | .enforceTimeRetention cutoffNanos =>
    match h.log.enforceTimeRetention cutoffNanos with
    | ((_, some e), _) => .error e
    | ((_, none), log) => .ok { h with log := log }
  | .enforceSizeRetention maxBytes => .ok { h with log := (h.log.enforceSizeRetention maxBytes).2 }
  | .compact => do
    let (_, log) ← h.log.compact
    .ok { h with log := log }
  | .reopen maxBytes => do
    let log ← PartitionLog.openPartition h.log.close maxBytes
    .ok { h with log := log }

/-- The operation leaves every segment below 4 GiB, and offsets are within `int64`. -/
def Fitting (h : History) (op : Upkeep) : Prop := (∀ h', h.step op = .ok h' → h'.log.Bounded) ∧ h.log.highWater < 2 ^ 63

instance (h : History) (op : Upkeep) : Decidable (h.Fitting op) :=
  match hstep : h.step op with
  | .error _ => decidable_of_iff (h.log.highWater < 2 ^ 63) ⟨fun hw =>
    ⟨fun h' hh' => (by cases hstep.symm.trans hh'), hw⟩, And.right⟩
  | .ok h' => decidable_of_iff (h'.log.Bounded ∧ h.log.highWater < 2 ^ 63)
      ⟨fun ⟨hb, hw⟩ => ⟨fun g hg => by cases hstep.symm.trans hg; exact hb, hw⟩, fun ⟨hb, hw⟩ => ⟨hb h' hstep, hw⟩⟩

def appends (ops : List Upkeep) : Nat := ops.countP fun | .append _ => true | _ => false

structure Tells (h : History) (cs : List Chunk) (c : Chunk) (older : List Record) : Prop where
  lives : h.log.Lives cs c
  appended : h.appended = older ++ h.recent
  recent : c.records = h.recent
  numbered : Numbered h.appended
  next : c.next = h.appended.length
  origin : ∀ r ∈ records cs, ∃ a ∈ older, a.norm = r.norm

structure Inv (done : List Upkeep) (h : History) : Prop where
  tells : ∃ cs c older, h.Tells cs c older
  count : h.appended.length = appends done

variable {h : History} {cs : List Chunk} {c : Chunk} {older : List Record}

section
variable (t : h.Tells cs c older)
include t

theorem Tells.highWater : h.log.highWater = h.appended.length := t.lives.highWater.trans t.next

theorem Tells.setLog {log : PartitionLog} (lives : log.Lives ds c)
    (origin : ∀ r ∈ records ds, ∃ a ∈ records cs, a.norm = r.norm) : Tells { h with log := log } ds c older where
  lives := lives
  appended := t.appended
  recent := t.recent
  numbered := t.numbered
  next := t.next
  origin r hr := by
    obtain ⟨a, ha, hnorm⟩ := origin r hr
    obtain ⟨b, hb, hnorm'⟩ := t.origin a ha
    exact ⟨b, hb, hnorm'.trans hnorm⟩

theorem Tells.append (fitting : h.Fitting (.append r)) :
    ∃ h' cs' c' older', h.step (.append r) = .ok h' ∧ h'.Tells cs' c' older' ∧ h'.appended.length = h.appended.length + 1 := by
  have hhw := t.highWater
  have hsigned : Signed 8 h.log.highWater := by
    have := fitting.2
    simp only [Signed]
    omega
  obtain ⟨log, happ, hcases⟩ := t.lives.append (r := { r with offset := h.log.highWater }) rfl hsigned fun o p' happ =>
    fitting.1 ⟨p', _, _⟩ (by simp only [step, happ, bind]; rfl)
  have hstep : h.step (.append r) = .ok ⟨log, h.appended ++ [{ r with offset := h.log.highWater }],
      if log.segments.length = h.log.segments.length then h.recent ++ [{ r with offset := h.log.highWater }] else []⟩ := by
    simp only [step, happ, bind, Except.bind]
  have hnumbered : Numbered (h.appended ++ [{ r with offset := h.log.highWater }]) := t.numbered.concat hhw
  have hnext : h.log.highWater + 1 = (h.appended ++ [{ r with offset := h.log.highWater }]).length := by
    rw [hhw, length_append]
    rfl
  rcases hcases with ⟨hlives, hlen⟩ | ⟨hlives, hlen⟩
  · rw [if_pos hlen] at hstep
    refine ⟨_, cs, _, older, hstep, ⟨hlives, ?_, ?_, hnumbered, ?_, t.origin⟩, by simp⟩
    · rw [t.appended, append_assoc]
    · rw [t.recent]
    · rw [Chunk.next, endOffset_concat, hnext]
  · rw [if_neg hlen] at hstep
    refine ⟨_, _, _, h.appended ++ [{ r with offset := h.log.highWater }], hstep,
      ⟨hlives, (append_nil _).symm, rfl, hnumbered, hnext, ?_⟩, by simp⟩
    intro x hx
    rw [records_append, records_cons, records_nil, append_nil, t.recent] at hx
    rw [t.appended]
    rcases mem_append.mp hx with hx | hx
    · obtain ⟨a, ha, hnorm⟩ := t.origin x hx
      exact ⟨a, mem_append_left _ (mem_append_left _ ha), hnorm⟩
    · refine ⟨x, ?_, rfl⟩
      rw [append_assoc]
      exact mem_append_right _ hx

end

theorem origin_of_suffix (hsuffix : ds <:+ cs) : ∀ r ∈ records ds, ∃ a ∈ records cs, a.norm = r.norm := by
  intro r hr
  obtain ⟨x, hx, hr⟩ := mem_records.mp hr
  exact ⟨r, mem_records.mpr ⟨x, hsuffix.subset hx, hr⟩, rfl⟩

theorem step_inv (done : List Upkeep) (h : History) (op : Upkeep) (inv : Inv done h) (fitting : h.Fitting op) :
    ∃ h', h.step op = .ok h' ∧ Inv (done ++ [op]) h' := by
  obtain ⟨⟨cs, c, older, tells⟩, count⟩ := inv
  have hcount : appends (done ++ [op]) = appends done + appends [op] := countP_append
  cases op with
  | append r =>
    obtain ⟨h', cs', c', older', hstep, htells, hlen⟩ := tells.append fitting
    exact ⟨h', hstep, ⟨_, _, _, htells⟩, by rw [hlen, count, hcount]; rfl⟩
  | enforceTimeRetention cutoff =>
    obtain ⟨deleted, log, ds, hlog, hlives, hsuffix⟩ := tells.lives.enforceTimeRetention cutoff
    exact ⟨_, by simp only [step, hlog], ⟨_, _, _, tells.setLog hlives (origin_of_suffix hsuffix)⟩, by rw [hcount]; exact count⟩
  | enforceSizeRetention maxBytes =>
    obtain ⟨ds, hlives, hsuffix⟩ := tells.lives.enforceSizeRetention maxBytes
    exact ⟨_, rfl, ⟨_, _, _, tells.setLog hlives (origin_of_suffix hsuffix)⟩, by rw [hcount]; exact count⟩
  | compact =>
    obtain ⟨steps, log, ds, hlog, hlives, horigin⟩ := tells.lives.compact fun steps p' hp' =>
      fitting.1 { h with log := p' } (by simp only [step, hp', bind, Except.bind])
    exact ⟨_, by simp only [step, hlog, bind, Except.bind], ⟨_, _, _, tells.setLog hlives horigin⟩, by rw [hcount]; exact count⟩
  | reopen maxBytes =>
    obtain ⟨log, hlog, hlives⟩ := tells.lives.reopen maxBytes
    exact ⟨_, by simp only [step, hlog, bind, Except.bind], ⟨_, _, _, tells.setLog hlives fun r hr => ⟨r, hr, rfl⟩⟩,
      by rw [hcount]; exact count⟩

/-- Records in order that all stem from a list, up to empty and nil slices, are part of it. -/
theorem exists_sublist_norm {xs : List Record} (hx : xs.Pairwise fun a b => a.offset < b.offset)
    (ho : older.Pairwise fun a b => a.offset < b.offset) (h : ∀ x ∈ xs, ∃ a ∈ older, a.norm = x.norm) :
    ∃ ys : List Record, ys.Sublist older ∧ ys.map Record.norm = xs.map Record.norm := by
  refine ⟨older.filter fun a => decide (a.norm ∈ xs.map Record.norm), filter_sublist, ?_⟩
  refine ascending_ext (norm_ascending (ho.filter _)) (norm_ascending hx) fun r => ?_
  rw [mem_map]
  constructor
  · rintro ⟨a, ha, rfl⟩
    exact of_decide_eq_true (mem_filter.mp ha).2
  · intro hr
    obtain ⟨x, hxs, rfl⟩ := mem_map.mp hr
    obtain ⟨a, ha, hnorm⟩ := h x hxs
    exact ⟨a, mem_filter.mpr ⟨ha, decide_eq_true (hnorm ▸ hr)⟩, hnorm⟩

/-- What can be read is some of what came before the last rollover and all that came since. -/
theorem Tells.read (t : h.Tells cs c older) : ∃ rs, rs.Sublist h.appended ∧ h.recent <:+ rs ∧
    ∀ m, 0 < m → (h.log.read 0 m).1 = .ok ((rs.map Record.norm).take m.toNat) := by
  obtain ⟨xs, hxs, hread⟩ := t.lives.read
  have hasc := t.numbered.ascending
  rw [t.appended] at hasc
  have chain : Chain cs := t.lives.chain.sublist (sublist_append_left cs [c])
  obtain ⟨ys, hys, hnorm⟩ := exists_sublist_norm (chain.ascending.sublist hxs) (pairwise_append.mp hasc).1
    fun x hx => t.origin x (hxs.subset hx)
  refine ⟨ys ++ h.recent, ?_, suffix_append ys h.recent, fun m hm => ?_⟩
  · rw [t.appended]
    exact hys.append_right h.recent
  · rw [hread m hm, map_append, map_append, hnorm, t.recent]

theorem start_inv (maxBytes : Int) {p : PartitionLog} (fresh : PartitionLog.openPartition [] maxBytes = .ok p) :
    Inv [] (start p) := by
  cases fresh
  refine ⟨⟨[], ⟨0, []⟩, [], ⟨⟨Forall₂.nil, ⟨rfl, Segment.createSegmentWithSuffix_holds _ _ _, rfl⟩, rfl, .inl rfl, ?_,
    ?_, ?_⟩, rfl, rfl, ?_, rfl, ?_⟩⟩, rfl⟩
  · refine ⟨fun x hx => ?_, pairwise_singleton _ _⟩
    rw [mem_singleton.mp hx]
    exact (Stored.nil 0).sound
  · intro i r hr
    cases hr
  · intro x hx
    rw [mem_singleton.mp hx]
  · intro i r hr
    cases hr
  · intro r hr
    cases hr

/-- Over the lifetime of a log every operation succeeds, each append gets an offset above all earlier ones, the high
    water never goes back, and a read from 0 returns part of what was appended, in order, with all that was
    appended since the last rollover. -/
theorem lifetime (maxBytes : Int) {p : PartitionLog} (fresh : PartitionLog.openPartition [] maxBytes = .ok p)
    (ops : List Upkeep) (fitting : Allowed step Fitting (start p) ops) :
    ∃ h, runAll step (start p) ops = .ok h ∧ (h.appended.Pairwise fun a b => a.offset < b.offset) ∧
      (∀ done, done <+: ops → ∃ g, runAll step (start p) done = .ok g ∧ g.log.highWater ≤ h.log.highWater) ∧
      ∃ rs : List Record, rs.Sublist h.appended ∧ h.recent <:+ rs ∧ (rs.Pairwise fun a b => a.offset < b.offset) ∧
        ∀ m : Int, 0 < m → (h.log.read 0 m).1 = .ok ((rs.map Record.norm).take m.toNat) ∧
          (m ≤ maxSlice → h.log.readPanics 0 m = false) := by
  have hreach : ∀ done, done <+: ops → ∃ g, runAll step (start p) done = .ok g ∧ Inv done g := by
    rintro done ⟨rest, rfl⟩
    exact runAll_invariant step_inv fitting.of_append (start_inv maxBytes fresh)
  have hhigh : ∀ {done g}, Inv done g → g.log.highWater = appends done := by
    rintro done g ⟨⟨cs, c, older, tells⟩, count⟩
    rw [tells.highWater, count]
  obtain ⟨h, hrun, inv⟩ := hreach ops prefix_rfl
  obtain ⟨cs, c, older, tells⟩ := inv.tells
  obtain ⟨rs, hrs, hrecent, hread⟩ := tells.read
  refine ⟨h, hrun, tells.numbered.ascending, fun done hdone => ?_, rs, hrs, hrecent, tells.numbered.ascending.sublist hrs,
    fun m hm => ⟨hread m hm, h.log.readPanics_of_le 0⟩⟩
  obtain ⟨g, hg, ginv⟩ := hreach done hdone
  refine ⟨g, hg, ?_⟩
  rw [hhigh ginv, hhigh inv]
  exact Int.ofNat_le.mpr hdone.sublist.countP_le

/-- Two appends fill a segment of 60 bytes; the second record of the key outlives the first. -/
theorem lifetime_compacted :
    ∃ h, runAll step (start ⟨60, [], createSegment 0 60⟩)
        [.append ⟨0, 1, some [1], some [1], []⟩, .append ⟨0, 2, some [1], some [2], []⟩, .compact, .enforceTimeRetention 2,
          .enforceSizeRetention 100, .reopen 60, .append ⟨0, 3, none, some [3], []⟩] = .ok h ∧
      ∃ rs : List Record, rs.Sublist h.appended ∧ h.recent <:+ rs ∧ (h.log.read 0 9).1 = .ok ((rs.map Record.norm).take 9) := by
  obtain ⟨h, hrun, -, -, rs, hrs, hrecent, -, hread⟩ := lifetime 60 (p := ⟨60, [], createSegment 0 60⟩) rfl
    [.append ⟨0, 1, some [1], some [1], []⟩, .append ⟨0, 2, some [1], some [2], []⟩, .compact, .enforceTimeRetention 2,
      .enforceSizeRetention 100, .reopen 60, .append ⟨0, 3, none, some [3], []⟩] (by decide +kernel)
  exact ⟨h, hrun, rs, hrs, hrecent, (hread 9 (by decide)).1⟩

end History
end Holocron.Log

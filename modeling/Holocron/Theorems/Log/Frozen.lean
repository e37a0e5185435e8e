import Holocron.Theorems.Log.Overlap
import Holocron.Theorems.Log.Reopen

/-! Sealed segments whose index entries wrap, as compaction may leave them: a read returns records in order, if not all
    of them. -/

namespace Holocron.Log
open Lib List

def Boundary (rs : List Record) (n : Nat) : Prop := ∃ a b, rs = a ++ b ∧ n = (frames a).length

structure Segment.Frozen (s : Segment) (c : Chunk) : Prop where
  base : s.baseOffset = c.base
  canonical : s.compacting = false
  readOnly : s.logBuf = none
  data : s.logFile.data = frames c.records
  highWater : s.highWater = c.next
  index : ∀ e ∈ s.idx, Boundary c.records e.position
  sound : Sound c.base c.records

theorem Segment.Represents.frozen {s : Segment} {c : Chunk} (h : s.Represents c) (readOnly : s.logBuf = none) : s.Frozen c where
  base := h.base
  canonical := h.canonical
  readOnly := readOnly
  data := h.holds.data_of_none readOnly
  highWater := h.highWater
  index e he := by
    obtain ⟨a, r, b, hrs, -, hpos⟩ := h.holds.indexed.entries e he
    exact ⟨a, r :: b, hrs, hpos⟩
  sound := h.base ▸ h.holds.stored.sound

variable {rs : List Record}

theorem boundary_lookup {idx : Index} (h : ∀ e ∈ idx, Boundary rs e.position) (x : Nat) : Boundary rs (idx.lookup x) := by
  have hle := search_le idx.length fun j => decide (x < (idx.getD j default).relativeOffset)
  unfold Index.lookup
  dsimp only
  split
  · exact ⟨[], rs, rfl, rfl⟩
  · have hlt : search idx.length (fun j => decide (x < (idx.getD j default).relativeOffset)) - 1 < idx.length := by omega
    rw [getD_eq_getElem _ _ hlt]
    exact h _ (getElem_mem hlt)

namespace Segment.Frozen

variable {s : Segment} {c : Chunk}

section
variable (h : s.Frozen c)
include h

theorem flush_eq : s.flushIfActive = s := by
  rw [flushIfActive, h.readOnly]

theorem readFrom_some {n m : Int} (hm : ¬ m ≤ 0) (hn : ¬ s.highWater ≤ n) {a b : List Record} (hsplit : c.records = a ++ b)
    (hpos : s.idx.lookup (uint32 (max n s.baseOffset - s.baseOffset)) = (frames a).length) :
    ∃ s', s.readFrom n m = (.ok (((since n b).map Record.norm).take m.toNat), s') ∧ s'.Frozen c := by
  have hdata : s.flushIfActive.logFile.data = frames (a ++ b) := by rw [h.flush_eq, h.data, hsplit]
  have hfits : ∀ r ∈ b, Fits r := fun r hr => h.sound.fits r (hsplit ▸ mem_append_right a hr)
  obtain ⟨rd, hread, hsame⟩ := readFrom_boundary hdata hfits hm hn hpos
  have hsince : since (max n s.baseOffset) b = since n b := by
    refine filter_congr fun r hr => ?_
    have := h.sound.base_le r (hsplit ▸ mem_append_right a hr)
    rw [h.base]
    simp only [decide_eq_decide]
    omega
  rw [hsince, h.flush_eq] at hread
  rw [h.flush_eq] at hsame
  exact ⟨_, hread, h.base, h.canonical, h.readOnly, hsame.data.trans h.data, h.highWater, h.index, h.sound⟩

theorem readFrom (n m : Int) :
    ∃ (out : List Record) (s' : Segment), s.readFrom n m = (.ok (out.map Record.norm), s') ∧ s'.Frozen c ∧
      out.Sublist (since n c.records) := by
  by_cases hm : m ≤ 0
  · exact ⟨[], s, by rw [Segment.readFrom, if_pos hm]; rfl, h, nil_sublist _⟩
  by_cases hn : s.highWater ≤ n
  · exact ⟨[], s, by rw [Segment.readFrom, if_neg hm, if_pos hn]; rfl, h, nil_sublist _⟩
  obtain ⟨a, b, hsplit, hpos⟩ := boundary_lookup h.index (uint32 (max n s.baseOffset - s.baseOffset))
  obtain ⟨s', hread, hfrozen⟩ := h.readFrom_some hm hn hsplit hpos
  rw [← map_take] at hread
  refine ⟨_, s', hread, hfrozen, (take_sublist _ _).trans ?_⟩
  rw [hsplit]
  exact (sublist_append_right a b).filter _

theorem readFrom_base : ∃ b, b <:+ c.records ∧ ∀ n m, n ≤ c.base →
    ∃ s', s.readFrom n m = (.ok ((b.map Record.norm).take m.toNat), s') ∧ s'.Frozen c := by
  obtain ⟨a, b, hsplit, hpos⟩ := boundary_lookup h.index (uint32 0)
  refine ⟨b, ⟨a, hsplit.symm⟩, fun n m hbase => ?_⟩
  by_cases hm : m ≤ 0
  · exact ⟨s, by rw [Segment.readFrom, if_pos hm, Int.toNat_of_nonpos hm]; rfl, h⟩
  by_cases hn : s.highWater ≤ n
  · -- only an empty segment ends at or below its base
    have hnil : b = [] := by
      refine eq_nil_iff_forall_not_mem.mpr fun r hr => ?_
      have hmem : r ∈ c.records := hsplit ▸ mem_append_right a hr
      have hlow := h.sound.base_le r hmem
      have hhigh := lt_endOffset c.base h.sound.ascending r hmem
      rw [h.highWater, Chunk.next] at hn
      omega
    exact ⟨s, by rw [Segment.readFrom, if_neg hm, if_pos hn, hnil, map_nil, take_nil], h⟩
  have hzero : max n s.baseOffset - s.baseOffset = 0 := by
    rw [h.base]
    omega
  obtain ⟨s', hread, hfrozen⟩ := h.readFrom_some hm hn hsplit (hzero ▸ hpos)
  refine ⟨s', ?_, hfrozen⟩
  rw [hread, since_eq_self fun r hr => Int.le_trans hbase (h.sound.base_le r (hsplit ▸ mem_append_right a hr))]

end

end Segment.Frozen

/-- The index of a file below 4 GiB is rebuilt with an entry for frames only. -/
theorem reindexes_boundary {base : Int} (bytes : (frames rs).length < 2 ^ 32) :
    Segment.Reindexes base rs fun xs idx => ∀ e ∈ idx, Boundary xs e.position := by
  intro a r b hrs idx hidx
  have hkeep : ∀ e ∈ idx, Boundary (a ++ [r]) e.position := by
    intro e he
    obtain ⟨x, y, rfl, hpos⟩ := hidx e he
    exact ⟨x, y ++ [r], by rw [append_assoc], hpos⟩
  refine ⟨hkeep, fun e he => ?_⟩
  rcases mem_append.mp he with he | he
  · exact hkeep e he
  · rw [mem_singleton.mp he]
    refine ⟨a, [r], rfl, ?_⟩
    rw [hrs, frames_append, length_append] at bytes
    dsimp only [uint32]
    rw [toUnsigned_of_lt (Int.natCast_nonneg _) (by omega), Int.toNat_natCast]

theorem openSegment_frozen {c : Chunk} (h : Sound c.base c.records) (maxBytes : Int) (idxFile : Option Bytes) :
    ∃ s, Segment.openSegment c.base maxBytes (frames c.records) idxFile false = .ok s ∧ s.Frozen c := by
  obtain ⟨idx, since, f, hidx, hdata, -, -, hopen⟩ := Segment.openSegment_whole c.base maxBytes c.records h.fits
    (reindexes_boundary h.bytes) (fun e he => by cases he) idxFile false
  exact ⟨_, hopen, rfl, rfl, rfl, hdata, rfl, hidx, h⟩

theorem sublist_since_append (asc : rs.Pairwise fun a b => a.offset < b.offset) {n : Int} {batch rest : List Record}
    {r : Record} (hbatch : batch.Sublist (since n rs)) (hlast : batch.getLast? = some r)
      (hrest : rest.Sublist (since (r.offset + 1) rs)) :
    (batch ++ rest).Sublist (since n rs) := by
  have hr := mem_since.mp (hbatch.subset (mem_of_getLast? hlast))
  have hbelow : ∀ x ∈ batch, x.offset < r.offset + 1 := by
    have hend := lt_endOffset 0 ((asc.filter _).sublist hbatch)
    rwa [endOffset, hlast] at hend
  rw [since_split asc (show n ≤ r.offset + 1 by omega)]
  refine Sublist.append ?_ hrest
  have hfilter := hbatch.filter fun x => decide (x.offset < r.offset + 1)
  rw [filter_eq_self.mpr fun x hx => decide_eq_true (hbelow x hx), since, filter_filter] at hfilter
  have heq : rs.filter (fun x => decide (x.offset < r.offset + 1) && decide (n ≤ x.offset)) = between n (r.offset + 1) rs :=
    filter_congr fun x _ => Bool.and_comm _ _
  exact heq ▸ hfilter

theorem drain_sublist {σ : Type} {read : σ → Int → Except LogError (List Record) × σ} (inv : σ → Prop)
    (asc : rs.Pairwise fun a b => a.offset < b.offset)
    (hread : ∀ s n, inv s → ∃ (out : List Record) (s' : σ), read s n = (.ok (out.map Record.norm), s') ∧ inv s' ∧
      out.Sublist (since n rs))
    (fuel : Nat) (s : σ) (n : Int) (hinv : inv s) :
    ∃ (out : List Record) (s' : σ), drain read fuel s n = (.ok (out.map Record.norm), s') ∧ inv s' ∧
      out.Sublist (since n rs) := by
  induction fuel generalizing s n with
  | zero => exact ⟨[], s, rfl, hinv, nil_sublist _⟩
  | succ fuel ih =>
    obtain ⟨batch, s₁, hr, hinv₁, hbatch⟩ := hread s n hinv
    simp only [drain, hr, getLast?_map]
    cases hlast : batch.getLast? with
    | none => exact ⟨[], s₁, rfl, hinv₁, nil_sublist _⟩
    | some r =>
      obtain ⟨rest, s', hdrain, hinv', hrest⟩ := ih s₁ (r.offset + 1) hinv₁
      simp only [Option.map_some, Record.norm_offset, hdrain]
      exact ⟨batch ++ rest, s', by rw [Except.map, map_append], hinv', sublist_since_append asc hbatch hlast hrest⟩

/-- A pass over sealed segments gives some of their records, in order. -/
theorem streamSealedRecords_frozen {ss : List Segment} {cs : List Chunk} (rep : Forall₂ Segment.Frozen ss cs) :
    ∃ (out : List Record) (ss' : List Segment), streamSealedRecords ss = .ok (out.map Record.norm, ss') ∧
      Forall₂ Segment.Frozen ss' cs ∧ out.Sublist (records cs) := by
  induction rep with
  | nil => exact ⟨[], [], rfl, Forall₂.nil, Sublist.slnil⟩
  | @cons s c ss cs hs _ ih =>
    obtain ⟨out, s', hstream, hfrozen, hout⟩ := drain_sublist (fun t => t.Frozen c) hs.sound.ascending
      (fun t n ht => ht.readFrom n compactBatchSize) (s.size + 1) s s.baseOffset hs
    obtain ⟨more, ss', hrest, hreps, hmore⟩ := ih
    refine ⟨out ++ more, s' :: ss', ?_, Forall₂.cons hfrozen hreps, (hout.trans filter_sublist).append hmore⟩
    simp [streamSealedRecords, Segment.stream, hstream, hrest, bind, Except.bind]

end Holocron.Log

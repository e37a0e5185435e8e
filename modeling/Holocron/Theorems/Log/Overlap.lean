import Holocron.Theorems.Log.Compact

/-! Reading a log whose first segment overlaps the others, as a promoted placeholder does (`Spliced`). -/

namespace Holocron.Log
open Lib List

def between (n x : Int) (rs : List Record) : List Record :=
  rs.filter fun r => decide (n ≤ r.offset) && decide (r.offset < x)

variable {n x m low : Int} {rs others first batch l : List Record} {r : Record}

theorem mem_between : r ∈ between n x rs ↔ r ∈ rs ∧ n ≤ r.offset ∧ r.offset < x := by
  simp [between]

theorem between_eq_nil (h : ∀ r ∈ rs, n ≤ r.offset → x ≤ r.offset) : between n x rs = [] := by
  refine filter_eq_nil_iff.mpr fun r hr => ?_
  have := h r hr
  simp only [Bool.and_eq_true, decide_eq_true_eq]
  omega

theorem between_eq_since (h : ∀ r ∈ rs, r.offset < x) : between n x rs = since n rs :=
  filter_congr fun r hr => by simp [h r hr]

section
variable (asc : rs.Pairwise fun a b => a.offset < b.offset)
include asc

theorem since_split (h : n ≤ x) :
    since n rs = between n x rs ++ since x rs := by
  induction rs with
  | nil => rfl
  | cons r rs ih =>
    have hrest : ∀ {a}, a ∈ rs → r.offset < a.offset := rel_of_pairwise_cons asc
    have ih := ih asc.of_cons
    by_cases hx : x ≤ r.offset
    · have hnone : between n x (r :: rs) = [] := between_eq_nil fun a ha _ => by
        rcases mem_cons.mp ha with rfl | ha
        · exact hx
        · exact Int.le_trans hx (Int.le_of_lt (hrest ha))
      have hall : ∀ m, m ≤ x → since m (r :: rs) = r :: rs := fun m hm => since_eq_self fun a ha => by
        rcases mem_cons.mp ha with rfl | ha
        · omega
        · have := hrest ha
          omega
      rw [hnone, hall n h, hall x (Int.le_refl x), nil_append]
    · have hsince : since x (r :: rs) = since x rs := filter_cons_of_neg (by simpa using hx)
      by_cases hn : n ≤ r.offset
      · rw [hsince, show since n (r :: rs) = r :: since n rs from filter_cons_of_pos (by simpa using hn),
          show between n x (r :: rs) = r :: between n x rs from filter_cons_of_pos (by simp [hn]; omega), ih,
          cons_append]
      · rw [hsince, show since n (r :: rs) = since n rs from filter_cons_of_neg (by simpa using hn),
          show between n x (r :: rs) = between n x rs from filter_cons_of_neg (by simp [hn]), ih]

theorem take_eq_between {m : Nat}
    (h : ((since n rs).take m).getLast? = some r) : (since n rs).take m = between n (r.offset + 1) rs := by
  have hn : n ≤ r.offset := (mem_since.mp (mem_of_mem_take (mem_of_getLast? h))).2
  have hsplit := since_split asc (n := n) (x := r.offset + 1) (by omega)
  rw [since_past_batch asc h] at hsplit
  nth_rewrite 1 [← take_append_drop m (since n rs)] at hsplit
  exact append_cancel_right hsplit

theorem between_append {y : Int} (hny : n ≤ y) (hyx : y ≤ x) :
    between n x rs = between n y rs ++ between y x rs := by
  have h₁ := since_split asc (Int.le_trans hny hyx)
  rw [since_split asc hny, since_split asc hyx, ← append_assoc] at h₁
  exact (append_cancel_right h₁).symm

end

/-- Records of `first` up to some offset, then those of `others`: the change comes past `low`, or when
    `first` has no more. -/
def Spliced (first others : List Record) (low n : Int) (l : List Record) : Prop :=
  ∃ x, n ≤ x ∧ l = between n x first ++ since x others ∧ (low ≤ x ∨ ∀ r ∈ first, r.offset < x) ∧
    (x = n ∨ ∃ r ∈ first, x = r.offset + 1)

theorem Spliced.eq_since (h : Spliced first others low n l)
    (past : ∀ r ∈ first, r.offset < n) : l = since n others := by
  obtain ⟨x, hnx, rfl, -, hend⟩ := h
  obtain rfl : x = n := by
    rcases hend with hend | ⟨r, hr, hend⟩
    · exact hend
    · have := past r hr
      omega
  rw [between_eq_nil fun r _ hn => hn, nil_append]

theorem Spliced.prepend (asc : first.Pairwise fun a b => a.offset < b.offset)
    (hr : r ∈ first) (hn : n ≤ r.offset) (h : Spliced first others low (r.offset + 1) l) :
    Spliced first others low n (between n (r.offset + 1) first ++ l) := by
  obtain ⟨x, hx, rfl, hlow, hend⟩ := h
  refine ⟨x, by omega, ?_, hlow, Or.inr ?_⟩
  · rw [← append_assoc, ← between_append asc (by omega) hx]
  · rcases hend with rfl | hend
    · exact ⟨r, hr, rfl⟩
    · exact hend

theorem endOffset_since (n : Int) (rs : List Record) :
    endOffset n (since n rs) = n ∨ ∃ r ∈ rs, endOffset n (since n rs) = r.offset + 1 := by
  cases hlast : (since n rs).getLast? with
  | none => exact Or.inl (by rw [endOffset, hlast]; rfl)
  | some r => exact Or.inr ⟨r, (mem_since.mp (mem_of_getLast? hlast)).1, by rw [endOffset, hlast]; rfl⟩

theorem le_endOffset_since (n : Int) (rs : List Record) : n ≤ endOffset n (since n rs) := by
  cases hlast : (since n rs).getLast? with
  | none => rw [endOffset, hlast]; exact Int.le_refl n
  | some r =>
    have := (mem_since.mp (mem_of_getLast? hlast)).2
    rw [endOffset, hlast]
    exact Int.le_trans this (by simp only [Option.map_some, Option.getD_some]; omega)

theorem rest_of_batch (asc : others.Pairwise fun a b => a.offset < b.offset) {k : Nat} {rest : List Record}
    (hk : 0 < k) (hrest : (since (endOffset n batch) others).take k = rest) (hlast : (batch ++ rest).getLast? = some r) :
    endOffset n batch ≤ r.offset + 1 ∧ rest ++ since (r.offset + 1) others = since (endOffset n batch) others ∧
      (r ∈ batch ∨ r ∈ others ∧ endOffset n batch ≤ r.offset) := by
  subst hrest
  cases hnil : since (endOffset n batch) others with
  | nil =>
    rw [hnil, take_nil, append_nil] at hlast
    have hend : endOffset n batch = r.offset + 1 := by rw [endOffset, hlast]; rfl
    exact ⟨Int.le_of_eq hend, by rw [← hend, hnil, take_nil]; rfl, Or.inl (mem_of_getLast? hlast)⟩
  | cons a l =>
    rw [← hnil]
    have hne : (since (endOffset n batch) others).take k ≠ [] := by
      rw [hnil, ne_eq, take_eq_nil_iff, not_or]
      exact ⟨by omega, cons_ne_nil a l⟩
    rw [getLast?_append_of_ne_nil _ hne] at hlast
    obtain ⟨hr, hle⟩ := mem_since.mp (mem_of_mem_take (mem_of_getLast? hlast))
    exact ⟨by omega, by rw [since_past_batch asc hlast, take_append_drop], Or.inr ⟨hr, hle⟩⟩

theorem since_length_le (h : n ≤ m) (rs : List Record) : (since m rs).length ≤ (since n rs).length := by
  rw [since, since, ← countP_eq_length_filter, ← countP_eq_length_filter]
  refine countP_mono_left fun r _ hr => ?_
  have := of_decide_eq_true hr
  exact decide_eq_true (by omega)

theorem since_length_lt (hr : r ∈ rs) (hn : n ≤ r.offset) : (since (r.offset + 1) rs).length < (since n rs).length := by
  obtain ⟨a, b, rfl⟩ := append_of_mem hr
  have ha := since_length_le (n := n) (m := r.offset + 1) (by omega) a
  have hb := since_length_le (n := n) (m := r.offset + 1) (by omega) b
  have h₁ : since n (r :: b) = r :: since n b := filter_cons_of_pos (by simpa using hn)
  have h₂ : since (r.offset + 1) (r :: b) = since (r.offset + 1) b :=
    filter_cons_of_neg (by rw [decide_eq_true_eq]; omega)
  rw [since_append, since_append, h₁, h₂, length_append, length_append, length_cons]
  omega

theorem lt_endOffset_since (asc : rs.Pairwise fun a b => a.offset < b.offset) (n : Int) :
    ∀ r ∈ rs, r.offset < endOffset n (since n rs) := by
  intro r hr
  by_cases hn : n ≤ r.offset
  · exact lt_endOffset n (asc.filter _) r (mem_since.mpr ⟨hr, hn⟩)
  · exact Int.lt_of_lt_of_le (Int.not_le.mp hn) (le_endOffset_since n rs)

namespace PartitionLog

variable {p : PartitionLog} {first : Chunk} {cs : List Chunk} {c : Chunk} {low : Int}

structure Overlaps (p : PartitionLog) (first : Chunk) (cs : List Chunk) (c : Chunk) (low : Int) : Prop where
  covers : p.Covers (first :: cs) c
  layout : Layout (cs ++ [c])
  ascending : ((first :: (cs ++ [c])).map Chunk.base).Pairwise (· < ·)
  low : ∃ x, (cs ++ [c])[0]? = some x ∧ x.base = low

theorem Overlaps.low_le (h : p.Overlaps first cs c low) : ∀ x ∈ cs ++ [c], low ≤ x.base := by
  obtain ⟨x₀, hx₀, rfl⟩ := h.low
  obtain ⟨hlt, heq⟩ := List.getElem?_eq_some_iff.mp hx₀
  intro x hx
  obtain ⟨i, hi, rfl⟩ := mem_iff_getElem.mp hx
  rcases Nat.eq_zero_or_pos i with rfl | hpos
  · rw [← heq]
  · rw [← heq]
    exact Int.le_of_lt (pairwise_iff_getElem.mp h.layout.chained 0 i hlt hi hpos).1

/-- From `low` on a read goes by the first segment. -/
theorem Overlaps.read_above (h : p.Overlaps first cs c low) (hm : 0 < m) (hn : low ≤ n) :
    ∃ p', p.read n m = (.ok (((since n (records (cs ++ [c]))).map Record.norm).take m.toNat), p') ∧
      p'.Overlaps first cs c low := by
  obtain ⟨hfirst, hafter⟩ := firstSegment_bounds h.ascending (bases_eq h.covers.segments) n
  obtain ⟨i, hi⟩ : ∃ i, p.firstSegment n = i + 1 := by
    rcases Nat.eq_zero_or_pos (p.firstSegment n) with hzero | hpos
    · obtain ⟨x₀, hx₀, rfl⟩ := h.low
      have := hafter 1 x₀ (by omega) hx₀
      omega
    · exact ⟨p.firstSegment n - 1, by omega⟩
  obtain ⟨x, hx, hbase⟩ := hfirst (by omega)
  rw [hi] at hx
  have hlayout := h.layout
  rw [← take_append_drop i (cs ++ [c])] at hlayout
  have hsegs := forall₂_drop (i + 1) h.covers.segments
  obtain ⟨ss', hloop, hrep, hkept⟩ := readLoop_layout (Layout.append_iff.mp hlayout).2.1 hsegs n m.toNat
  rw [since_records_drop h.layout hx hbase] at hloop
  rw [← hi] at hloop hkept
  have hrep' : Forall₂ Segment.Represents ss' ((first :: cs ++ [c]).drop (p.firstSegment n)) := by
    rw [hi, cons_append]
    exact hrep
  obtain ⟨p', hread, hcovers, -⟩ := h.covers.read hm hloop hrep' hkept
  exact ⟨p', hread, hcovers, h.layout, h.ascending, h.low⟩

theorem endOffset_norm (n : Int) (rs : List Record) : endOffset n (rs.map Record.norm) = endOffset n rs := by
  rw [endOffset, getLast?_map, Option.map_map]
  rfl

section
variable (h : p.Overlaps first cs c low)
include h

/-- Below `low` it starts in the first segment and goes on in the others from past what it got there. -/
theorem Overlaps.read_below (hm : 0 < m) (hn : n < low)
    (hbatch : (since n first.records).take m.toNat = batch) :
    ∃ p', p.read n m =
        (.ok ((batch ++ (since (endOffset n batch) (records (cs ++ [c]))).take (m.toNat - batch.length)).map Record.norm), p') ∧
      p'.Overlaps first cs c low := by
  obtain ⟨hfirst, -⟩ := firstSegment_bounds h.ascending (bases_eq h.covers.segments) n
  have hzero : p.firstSegment n = 0 := by
    rcases Nat.eq_zero_or_pos (p.firstSegment n) with hzero | hpos
    · exact hzero
    · obtain ⟨x, hx, hbase⟩ := hfirst hpos
      obtain ⟨i, hi⟩ : ∃ i, p.firstSegment n = i + 1 := ⟨p.firstSegment n - 1, by omega⟩
      rw [hi] at hx
      have := h.low_le x (mem_of_getElem? (hx))
      omega
  have hsegs := h.covers.segments
  obtain ⟨s, ss, hs, hss, heq⟩ := forall₂_cons_right_iff.mp hsegs
  obtain ⟨s', hreadFrom, hholds, hkept⟩ := hs.holds.readFrom n m
  rw [← map_take, hbatch] at hreadFrom
  obtain ⟨ss', hrest, hreps, hkepts⟩ := readLoop_layout h.layout hss (endOffset n batch) (m.toNat - batch.length)
  rw [← map_take] at hrest
  have hloop : readLoop (p.segments.drop (p.firstSegment n)) n m.toNat =
      (.ok ((batch ++ (since (endOffset n batch) (records (cs ++ [c]))).take (m.toNat - batch.length)).map Record.norm),
        s' :: ss') := by
    rw [hzero, drop_zero, heq, readLoop, if_neg (by omega), Int.toNat_of_nonneg (Int.le_of_lt hm), hreadFrom]
    simp only
    rw [show ((batch.map Record.norm).getLast?.map fun r => r.offset + 1).getD n =
      endOffset n batch from endOffset_norm n batch, length_map, hrest, map_append]
    rfl
  obtain ⟨p', hread, hcovers, -⟩ := h.covers.read hm hloop
    (by rw [hzero]; exact Forall₂.cons (hs.kept hkept hholds) hreps)
    (by rw [hzero, heq]; exact Forall₂.cons hkept hkepts)
  exact ⟨p', hread, hcovers, h.layout, h.ascending, h.low⟩

theorem Overlaps.ascending_first : first.records.Pairwise fun a b => a.offset < b.offset := by
  obtain ⟨s, ss, hs, -, -⟩ := forall₂_cons_right_iff.mp h.covers.sealed
  exact hs.holds.stored.ascending

/-- Reading on to the end from any offset yields a splice. -/
theorem Overlaps.drain (hm : 0 < m) (fuel : Nat) (n : Int)
    (hfuel : (since n first.records).length + (since n (records (cs ++ [c]))).length < fuel) :
    ∃ l p', Log.drain (fun p cursor => p.read cursor m) fuel p n = (.ok (l.map Record.norm), p') ∧
      Spliced first.records (records (cs ++ [c])) low n l := by
  have asc := h.ascending_first
  have ascOthers := h.layout.ascending
  induction fuel generalizing p n with
  | zero => omega
  | succ fuel ih =>
    by_cases hn : low ≤ n
    · obtain ⟨p', hdrain, -⟩ := drain_exact (fun p => p.Overlaps first cs c low) low ascOthers (m := m.toNat)
        (by omega) (fun p n hn hp => hp.read_above hm hn) (fuel + 1) p n hn (by omega) h
      refine ⟨_, p', hdrain, n, Int.le_refl n, ?_, Or.inl hn, Or.inl rfl⟩
      rw [between_eq_nil fun _ _ h => h, nil_append]
    have hbelow := Int.not_le.mp hn
    generalize hbatch : (since n first.records).take m.toNat = batch
    obtain ⟨p₁, hread, h₁⟩ := h.read_below hm hbelow hbatch
    simp only [drain, hread, getLast?_map]
    -- The batch comes from the first segment alone and leaves records there, or it takes all of them.
    by_cases hfull : m.toNat ≤ (since n first.records).length
    · have hlen : batch.length = m.toNat := by rw [← hbatch, length_take, Nat.min_eq_left hfull]
      obtain ⟨r, hr⟩ : ∃ r, batch.getLast? = some r :=
        Option.isSome_iff_exists.mp (getLast?_isSome.mpr (ne_nil_of_length_pos (by omega)))
      obtain ⟨hmem, hnr⟩ := mem_since.mp (mem_of_mem_take (hbatch ▸ mem_of_getLast? hr))
      have hlast := hr
      rw [← hbatch] at hlast
      obtain ⟨l, p', hdrain, hspliced⟩ := ih h₁ (r.offset + 1) (by
        have h₂ := since_length_lt hmem hnr
        have h₃ := since_length_le (n := n) (m := r.offset + 1) (by omega) (records (cs ++ [c]))
        omega)
      simp only [hlen, Nat.sub_self, take_zero, append_nil, hr, Option.map_some, Record.norm_offset, hdrain]
      refine ⟨between n (r.offset + 1) first.records ++ l, p', ?_, hspliced.prepend asc hmem hnr⟩
      rw [← take_eq_between asc hlast, hbatch, map_append]
      rfl
    · have hall : since n first.records = batch := by rw [← hbatch, take_of_length_le (by omega)]
      have hpast := lt_endOffset_since asc n
      rw [hall] at hpast
      have hnext : n ≤ endOffset n batch := hall ▸ le_endOffset_since n first.records
      -- What the read found is all there is from `n` to the next offset and then some of the others.
      have hdone : Spliced first.records (records (cs ++ [c])) low n
          (batch ++ since (endOffset n batch) (records (cs ++ [c]))) := by
        refine ⟨endOffset n batch, hnext, ?_, Or.inr hpast, hall ▸ endOffset_since n first.records⟩
        rw [between_eq_since hpast, hall]
      generalize hrest : (since (endOffset n batch) (records (cs ++ [c]))).take (m.toNat - batch.length) = rest
      have hroom : 0 < m.toNat - batch.length := by
        rw [← hall]
        omega
      cases hlast : (batch ++ rest).getLast? with
      | none =>
        obtain ⟨rfl, rfl⟩ := append_eq_nil_iff.mp (getLast?_eq_none_iff.mp hlast)
        refine ⟨[], p₁, rfl, ?_⟩
        rcases take_eq_nil_iff.mp hrest with hzero | hnil
        · omega
        · rwa [hnil] at hdone
      | some r =>
        obtain ⟨hnr, hrest, hfound⟩ := rest_of_batch ascOthers hroom hrest hlast
        have hfuel' : (since (r.offset + 1) first.records).length + (since (r.offset + 1)
            (records (cs ++ [c]))).length < fuel := by
          have h₂ := since_length_le (n := n) (m := r.offset + 1) (by omega) first.records
          have h₃ := since_length_le (n := n) (m := r.offset + 1) (by omega) (records (cs ++ [c]))
          rcases hfound with hr | ⟨hr, hle⟩
          · obtain ⟨hr, hle⟩ := mem_since.mp (hall ▸ hr)
            have := since_length_lt hr hle
            omega
          · have := since_length_lt (n := n) hr (by omega)
            omega
        obtain ⟨l, p', hdrain, hspliced⟩ := ih h₁ (r.offset + 1) hfuel'
        have hl := hspliced.eq_since fun a ha => Int.lt_of_lt_of_le (hpast a ha) hnr
        simp only [Option.map_some, Record.norm_offset, hdrain]
        refine ⟨batch ++ (rest ++ l), p', ?_, by rwa [hl, hrest]⟩
        simp [Except.map]

end

end PartitionLog
end Holocron.Log

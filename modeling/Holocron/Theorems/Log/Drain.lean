import Holocron.Theorems.Log.Compact

/-! Reading a log to its end: a reader that goes on until nothing is left puts the file position back at the end. -/

namespace Holocron.Log
open Lib List

def cursorAfter (n : Int) (batch : List Record) : Int := (batch.getLast?.map fun r => r.offset + 1).getD n

theorem cursorAfter_append (n : Int) (a b : List Record) : cursorAfter n (a ++ b) = cursorAfter (cursorAfter n a) b := by
  unfold cursorAfter
  rw [getLast?_append]
  cases b.getLast? <;> simp

theorem cursorAfter_norm (n : Int) (batch : List Record) : cursorAfter n (batch.map Record.norm) = cursorAfter n batch := by
  simp only [cursorAfter, getLast?_map, Option.map_map, Function.comp_def, Record.norm_offset]

variable {rs : List Record} {n m : Int} {s : Segment}

theorem since_cursorAfter (asc : rs.Pairwise fun a b => a.offset < b.offset) {m : Nat} (hm : 0 < m) :
    since (cursorAfter n ((since n rs).take m)) rs = (since n rs).drop m := by
  unfold cursorAfter
  cases hlast : ((since n rs).take m).getLast? with
  | none =>
    rcases take_eq_nil_iff.mp (getLast?_eq_none_iff.mp hlast) with h | h
    · exact absurd h (Nat.pos_iff_ne_zero.mp hm)
    · simp [h]
  | some r => exact since_past_batch asc hlast

namespace Segment

theorem readLoop_drained (rs : List Record) (fits : ∀ r ∈ rs, Fits r)
    (asc : rs.Pairwise fun a b => a.offset < b.offset) (n : Int)
    (max fuel : Nat) (rd : Reader) (out : List Record) (hrest : rd.rest = frames rs) (hfuel : rs.length < fuel)
    (hroom : (since n rs).length + out.length ≤ max) (hmore : out.length < max ∨ rs = []) :
    (readLoop fuel rd n max out).2.rest = [] := by
  induction rs generalizing fuel rd out with
  | nil =>
    obtain ⟨fuel, rfl⟩ := Nat.exists_eq_add_one_of_ne_zero (Nat.ne_of_gt hfuel)
    obtain ⟨rd', heof, hrest', -⟩ := readRecordFrom_eof hrest
    rw [readLoop]
    split
    · exact hrest
    · simpa only [heof] using hrest'
  | cons r rs ih =>
    obtain ⟨fuel, rfl⟩ := Nat.exists_eq_add_one_of_ne_zero (Nat.ne_of_gt (Nat.lt_of_le_of_lt (Nat.zero_le _) hfuel))
    obtain ⟨rd', hread, hrest', -⟩ := readRecordFrom_encode (fits r mem_cons_self) hrest
    have hroom' : out.length < max := hmore.resolve_right (cons_ne_nil r rs)
    have ih' := fun out => ih (fun x hx => fits x (mem_cons_of_mem r hx)) asc.of_cons fuel rd' out hrest'
      (Nat.lt_of_succ_lt_succ hfuel)
    rw [readLoop, if_neg (Nat.not_le.mpr hroom')]
    simp only [hread]
    by_cases hlow : r.norm.offset < n
    · rw [if_pos hlow]
      rw [show since n (r :: rs) = since n rs from filter_cons_of_neg (by simpa using hlow)] at hroom
      exact ih' out hroom (.inl hroom')
    · -- from here on every record counts
      have hall : since n rs = rs := since_eq_self fun x hx => by
        have := rel_of_pairwise_cons asc hx
        rw [Record.norm_offset] at hlow
        omega
      rw [if_neg hlow]
      rw [show since n (r :: rs) = r :: since n rs from filter_cons_of_pos (by simpa using hlow), length_cons, hall] at hroom
      refine ih' (out ++ [r.norm]) (by rw [hall, length_append, length_singleton]; omega) ?_
      rw [length_append, length_singleton]
      rcases eq_nil_or_concat rs with hrs | ⟨init, x, rfl⟩
      · exact .inr hrs
      · rw [concat_eq_append, length_append, length_singleton] at hroom
        exact .inl (by omega)

/-- A read that returns all there is from its offset on leaves the position at the end. -/
theorem Holds.readFrom_tailed (h : s.Holds rs) (hm : ¬ m ≤ 0) (hn : ¬ s.highWater ≤ n)
    (hall : (since n rs).length ≤ m.toNat) : (s.readFrom n m).2.logFile.Tailed := by
  obtain ⟨-, hdata, -, -⟩ := h.flush
  have stored := h.stored
  obtain ⟨a, b, rfl, hpos, hsince⟩ := h.boundary hn
  have hrest : (Reader.new (s.flushIfActive.logFile.seek (frames a).length)).rest = frames b := by
    rw [Reader.new_rest, File.seek_data, File.seek_pos, hdata, frames_append, drop_left' rfl]
  have hfuel : b.length < s.flushIfActive.logFile.data.length + 1 := by
    have := length_le_frames b
    rw [hdata, frames_append, length_append]
    omega
  have hfits : ∀ r ∈ b, Fits r := fun r hr => stored.fits r (mem_append_right a hr)
  have hdrained := readLoop_drained b hfits (pairwise_append.mp stored.ascending).2.1 (max n s.baseOffset) m.toNat
    _ _ [] hrest hfuel (by rw [hsince]; simpa using hall) (.inl (by rw [length_nil]; omega))
  obtain ⟨rd, hloop, hsame⟩ := readLoop_frames b hfits (max n s.baseOffset) m.toNat _ _ [] hrest hfuel
  rw [hloop] at hdrained
  have hwithin : (frames a).length ≤ s.flushIfActive.logFile.data.length := by
    rw [hdata, frames_append, length_append]
    exact Nat.le_add_right _ _
  rw [Segment.readFrom, if_neg hm, if_neg hn]
  simp only [flushIfActive_idx, flushIfActive_baseOffset, hpos, hloop]
  exact .inr (Reader.pos_of_rest_nil hdrained (hsame.pos hwithin))

def Drains (s : Segment) (rs : List Record) (n : Int) : Prop := s.logFile.Tailed ∨ since n rs ≠ []

theorem Holds.readFrom_drains (h : s.Holds rs) (drains : s.Drains rs n) :
    (s.readFrom n m).2.Drains rs (cursorAfter n (((since n rs).map Record.norm).take m.toNat)) := by
  rw [← map_take, cursorAfter_norm]
  by_cases hm : m ≤ 0
  · rw [Segment.readFrom, if_pos hm, Int.toNat_of_nonpos hm]
    exact drains
  by_cases hn : s.highWater ≤ n
  · have hnil : since n rs = [] := since_eq_nil fun r hr =>
      Int.lt_of_lt_of_le (lt_endOffset _ h.stored.ascending r hr) (h.highWater ▸ hn)
    rw [Segment.readFrom, if_neg hm, if_pos hn]
    exact .inl (drains.resolve_right fun hne => hne hnil)
  by_cases hall : (since n rs).length ≤ m.toNat
  · exact .inl (h.readFrom_tailed hm hn hall)
  · refine .inr fun hnil => hall ?_
    rw [since_cursorAfter h.stored.ascending (by omega)] at hnil
    exact drop_eq_nil_iff.mp hnil

end Segment

namespace PartitionLog

variable {cs : List Chunk} {c : Chunk}

/-- The records of the active segment lie past what a read of an earlier one returned. -/
theorem since_active {d : Chunk} (layout : Layout (c :: (cs ++ [d]))) (n : Int) (max : Nat) :
    since (cursorAfter n (((since n c.records).map Record.norm).take max)) d.records = since n d.records := by
  have hsub : Layout (c :: [d]) := by
    have := Layout.append_iff.mp (show Layout (c :: cs ++ [d]) from layout)
    refine Layout.append_iff.mpr (show Layout [c] ∧ Layout [d] ∧ _ from ⟨?_, this.2.1, fun x hx y hy => ?_⟩)
    · exact (Layout.append_iff.mp (this.1)).1
    · exact this.2.2 x (mem_append_left cs hx) y hy
  have := next_of_returned hsub n max
  rwa [records_cons, records_nil, append_nil] at this

theorem readLoop_drains {ss : List Segment} (rep : Forall₂ Segment.Represents ss cs)
    (hs : s.Represents c) (layout : Layout (cs ++ [c])) (n : Int) (max : Nat) (drains : s.Drains c.records n) :
    ∃ ss' s', (readLoop (ss ++ [s]) n max).2 = ss' ++ [s'] ∧
      s'.Drains c.records (cursorAfter n (((since n (records (cs ++ [c]))).map Record.norm).take max)) := by
  induction rep generalizing n max with
  | nil =>
    rw [nil_append, nil_append, readLoop]
    split
    · rename_i hzero
      refine ⟨[], s, rfl, ?_⟩
      rw [hzero]
      exact drains
    · obtain ⟨s', hread, -, -⟩ := hs.holds.readFrom n max
      have := hs.holds.readFrom_drains (m := max) drains
      simp only [hread] at this
      refine ⟨[], s', by simp [hread, readLoop], ?_⟩
      rwa [records_cons, records_nil, append_nil]
  | @cons t d ss cs ht rep ih =>
    rw [cons_append, readLoop]
    split
    · rename_i hzero
      refine ⟨t :: ss, s, rfl, ?_⟩
      rw [hzero]
      exact drains
    · obtain ⟨t', hread, -, -⟩ := ht.holds.readFrom n max
      have hactive := since_active layout n max
      have hnext := next_of_returned layout n max
      have hdrains : s.Drains c.records (cursorAfter n (((since n d.records).map Record.norm).take max)) := by
        rw [Segment.Drains, hactive]
        exact drains
      obtain ⟨ss', s', hloop, hdrains'⟩ :=
        ih layout.tail _ (max - (((since n d.records).map Record.norm).take max).length) hdrains
      refine ⟨t' :: ss', s', ?_, ?_⟩
      · simp only [hread]
        exact congrArg (t' :: ·) hloop
      · replace hnext : since (cursorAfter n (((since n d.records).map Record.norm).take max))
          (records (cs ++ [c])) = _ := hnext
        rw [hnext, ← cursorAfter_append] at hdrains'
        have hroom : max - (((since n d.records).map Record.norm).take max).length =
            max - ((since n d.records).map Record.norm).length := by
          rw [length_take]
          omega
        rw [hroom] at hdrains'
        rwa [cons_append, records_cons, since_append, map_append, take_append]

/-- A reader that goes on from `n` keeps the log, and the position of the active file where it was or on its way to the
    end. -/
theorem Holds.read_drains {p : PartitionLog} (h : p.Holds cs c) (hm : 0 < m)
    (drains : p.active.Drains c.records n) :
    ∃ p', p.read n m = (.ok (((since n (records (cs ++ [c]))).map Record.norm).take m.toNat), p') ∧ p'.Holds cs c ∧
      p'.active.Drains c.records (cursorAfter n (((since n (records (cs ++ [c]))).map Record.norm).take m.toNat)) := by
  obtain ⟨p', hread, hholds, -⟩ := h.read (n := n) hm
  refine ⟨p', hread, hholds, ?_⟩
  have hle : p.firstSegment n ≤ p.sealed.length := by
    have := p.firstSegment_lt n
    rwa [segments, length_append, length_singleton, Nat.lt_succ_iff] at this
  have hchunks : (cs ++ [c]).drop (p.firstSegment n) = cs.drop (p.firstSegment n) ++ [c] :=
    drop_append_of_le_length (h.sealed.length_eq ▸ hle)
  have hlayout := h.layout
  rw [← take_append_drop (p.firstSegment n) (cs ++ [c]), hchunks] at hlayout
  replace hlayout := (Layout.append_iff.mp hlayout).2.1
  obtain ⟨ss', s', hloop, hdrains⟩ :=
    readLoop_drains (forall₂_drop (p.firstSegment n) h.sealed) h.active hlayout n m.toNat drains
  have hsegments : p.segments.drop (p.firstSegment n) = p.sealed.drop (p.firstSegment n) ++ [p.active] :=
    drop_append_of_le_length hle
  rw [← hchunks, firstSegment_spec h.layout h.segments] at hdrains
  have hactive : p'.active = s' := by
    rw [PartitionLog.read, if_neg (Int.not_le.mpr hm)] at hread
    have hp' : p.setSegments (p.segments.take (p.firstSegment n) ++
      (readLoop (p.segments.drop (p.firstSegment n)) n m.toNat).2) = p' :=
      congrArg Prod.snd hread
    rw [← hp', hsegments, hloop]
    simp [setSegments]
  rw [hactive]
  exact hdrains

end PartitionLog
end Holocron.Log

import Holocron.Lib.Refine
import Holocron.Log.Segment
import Holocron.Theorems.Log.Frame
import Mathlib.Data.List.GetD

/-! A segment that stores a list of records (`Segment.Holds`): file and buffer are their frames, and index entries point
    at the frames they name. -/

namespace Holocron.Log
open Lib List

/-! ### Records of a segment -/

def frames (rs : List Record) : Bytes := rs.flatMap encodeRecord

def endOffset (base : Int) (rs : List Record) : Int := (rs.getLast?.map fun r => r.offset + 1).getD base

def since (n : Int) (rs : List Record) : List Record := rs.filter fun r => decide (n ≤ r.offset)

structure Sound (base : Int) (rs : List Record) : Prop where
  fits : ∀ r ∈ rs, Fits r
  ascending : rs.Pairwise fun a b => a.offset < b.offset
  base_le : ∀ r ∈ rs, base ≤ r.offset
  bytes : (frames rs).length < 2 ^ 32

/-- Ascending records that one segment can hold from its base on. -/
structure Stored (base : Int) (rs : List Record) : Prop extends sound : Sound base rs where
  span : ∀ r ∈ rs, r.offset - base < 2 ^ 32

@[simp] theorem frames_nil : frames [] = [] := rfl
@[simp] theorem frames_cons (r : Record) (rs : List Record) : frames (r :: rs) = encodeRecord r ++ frames rs := rfl
@[simp] theorem frames_append (a b : List Record) : frames (a ++ b) = frames a ++ frames b := flatMap_append

theorem length_le_frames (rs : List Record) : rs.length ≤ (frames rs).length := by
  induction rs with
  | nil => simp
  | cons r rs ih =>
    have := length_encodeRecord r
    simp only [length_cons, frames_cons, length_append]
    omega

@[simp] theorem since_nil (n : Int) : since n [] = [] := rfl

theorem since_append (n : Int) (a b : List Record) : since n (a ++ b) = since n a ++ since n b := filter_append ..

variable {rs : List Record} {base n : Int} {r : Record}

theorem mem_since : r ∈ since n rs ↔ r ∈ rs ∧ n ≤ r.offset := by
  rw [since, mem_filter, decide_eq_true_eq]

theorem since_eq_nil (h : ∀ r ∈ rs, r.offset < n) : since n rs = [] :=
  filter_eq_nil_iff.mpr fun r hr => by simpa using h r hr

theorem since_eq_self (h : ∀ r ∈ rs, n ≤ r.offset) : since n rs = rs :=
  filter_eq_self.mpr fun r hr => by simpa using h r hr

@[simp] theorem endOffset_nil (base : Int) : endOffset base [] = base := rfl
@[simp] theorem endOffset_concat (base : Int) (rs : List Record) (r : Record) :
    endOffset base (rs ++ [r]) = r.offset + 1 := by simp [endOffset]

theorem endOffset_cons (base : Int) (r : Record) (rs : List Record) :
    endOffset base (r :: rs) = endOffset (r.offset + 1) rs := by
  rcases eq_nil_or_concat rs with rfl | ⟨rs, x, rfl⟩
  · rfl
  · rw [concat_eq_append, endOffset_concat, ← cons_append, endOffset_concat]

theorem lt_endOffset (base : Int) (h : rs.Pairwise fun a b => a.offset < b.offset) :
    ∀ r ∈ rs, r.offset < endOffset base rs := by
  rcases eq_nil_or_concat rs with rfl | ⟨rs, x, rfl⟩
  · intro r hr; cases hr
  · rw [concat_eq_append] at h ⊢
    rw [endOffset_concat]
    intro r hr
    rcases mem_append.mp hr with hr | hr
    · have := (pairwise_append.mp h).2.2 r hr x (mem_singleton_self x)
      omega
    · rw [mem_singleton.mp hr]
      omega

theorem Stored.nil (base : Int) : Stored base [] where
  fits _ h := by cases h
  ascending := Pairwise.nil
  base_le _ h := by cases h
  span _ h := by cases h
  bytes := by simp

theorem Sound.base_le_end (h : Sound base rs) : base ≤ endOffset base rs := by
  rcases eq_nil_or_concat rs with rfl | ⟨rs, x, rfl⟩
  · simp
  · rw [concat_eq_append] at h ⊢
    rw [endOffset_concat]
    have := h.base_le x (by simp)
    omega

theorem Stored.base_le_end (h : Stored base rs) : base ≤ endOffset base rs := h.sound.base_le_end

theorem Stored.of_append_left {a b : List Record} (h : Stored base (a ++ b)) : Stored base a where
  fits r hr := h.fits r (mem_append_left b hr)
  ascending := (pairwise_append.mp h.ascending).1
  base_le r hr := h.base_le r (mem_append_left b hr)
  span r hr := h.span r (mem_append_left b hr)
  bytes := by
    have := h.bytes
    rw [frames_append, length_append] at this
    omega

theorem Stored.end_le (h : Stored base rs) : endOffset base rs - base ≤ 2 ^ 32 := by
  rcases eq_nil_or_concat rs with rfl | ⟨rs, x, rfl⟩
  · simp
  · rw [concat_eq_append] at h ⊢
    rw [endOffset_concat]
    have := h.span x (by simp)
    omega

theorem Stored.concat (h : Stored base rs) (hoff : endOffset base rs ≤ r.offset)
    (hsigned : Signed 8 r.offset) (hspan : r.offset - base < 2 ^ 32) (hbytes : (frames (rs ++ [r])).length < 2 ^ 32) :
    Stored base (rs ++ [r]) where
  fits x hx := by
    rcases mem_append.mp hx with hx | hx
    · exact h.fits x hx
    · rw [mem_singleton.mp hx]
      refine ⟨hsigned, ?_⟩
      have := length_encodeRecord r
      simp only [frames_append, frames_cons, length_append] at hbytes
      omega
  ascending := by
    refine pairwise_append.mpr ⟨h.ascending, pairwise_singleton _ _, ?_⟩
    intro a ha b hb
    rw [mem_singleton.mp hb]
    have := lt_endOffset base h.ascending a ha
    omega
  base_le x hx := by
    rcases mem_append.mp hx with hx | hx
    · exact h.base_le x hx
    · rw [mem_singleton.mp hx]
      have := h.base_le_end
      omega
  span x hx := by
    rcases mem_append.mp hx with hx | hx
    · exact h.span x hx
    · rw [mem_singleton.mp hx]
      exact hspan
  bytes := hbytes

/-- Records in offset order are told by their members. -/
theorem ascending_ext {xs ys : List Record} (hx : xs.Pairwise fun a b => a.offset < b.offset)
    (hy : ys.Pairwise fun a b => a.offset < b.offset) (h : ∀ r, r ∈ xs ↔ r ∈ ys) : xs = ys := by
  have hne : ∀ {a b : Record}, a.offset < b.offset → a ≠ b := by
    rintro a b hab rfl
    exact Int.lt_irrefl _ hab
  have hperm := (perm_ext_iff_of_nodup (hx.imp hne) (hy.imp hne)).mpr h
  exact hperm.eq_of_pairwise (fun a b _ _ hab hba => absurd hba (Int.lt_asymm hab)) hx hy

/-! ### Records in place -/

def Numbered (rs : List Record) : Prop := ∀ (i : Nat) (r : Record), rs[i]? = some r → r.offset = i

section
variable {rs : List Record} (h : Numbered rs)
include h

theorem Numbered.concat (hoff : r.offset = rs.length) : Numbered (rs ++ [r]) := by
  intro i x hx
  rcases of_getElem?_concat hx with hx | ⟨rfl, rfl⟩
  · exact h i x hx
  · exact hoff

theorem Numbered.nonneg : ∀ r ∈ rs, 0 ≤ r.offset := by
  intro r hr
  obtain ⟨i, hi⟩ := mem_iff_getElem?.mp hr
  rw [h i r hi]
  exact Int.natCast_nonneg i

theorem Numbered.ascending : rs.Pairwise fun a b => a.offset < b.offset := by
  refine pairwise_iff_getElem.mpr fun i j hi hj hij => ?_
  rw [h i _ (getElem?_eq_getElem hi), h j _ (getElem?_eq_getElem hj)]
  exact Int.ofNat_lt.mpr hij

theorem Numbered.since_eq_drop (hn : 0 ≤ n) : since n rs = rs.drop n.toNat := by
  have hbefore : since n (rs.take n.toNat) = [] := by
    refine since_eq_nil fun r hr => ?_
    obtain ⟨i, hi⟩ := mem_iff_getElem?.mp hr
    rw [getElem?_take] at hi
    split at hi
    · rw [h i r hi]
      omega
    · cases hi
  have hbehind : since n (rs.drop n.toNat) = rs.drop n.toNat := by
    refine since_eq_self fun r hr => ?_
    obtain ⟨i, hi⟩ := mem_iff_getElem?.mp hr
    rw [getElem?_drop] at hi
    rw [h _ r hi]
    omega
  nth_rewrite 1 [← take_append_drop n.toNat rs]
  rw [since_append, hbefore, hbehind, nil_append]

end

/-! ### The index -/

structure Indexed (base : Int) (rs : List Record) (idx : Index) : Prop where
  entries : ∀ e ∈ idx, ∃ a r b, rs = a ++ r :: b ∧ (e.relativeOffset : Int) = r.offset - base ∧
    e.position = (frames a).length
  sorted : idx.Pairwise fun a b => a.relativeOffset < b.relativeOffset

theorem Indexed.nil (base : Int) (rs : List Record) : Indexed base rs [] where
  entries _ h := by cases h
  sorted := Pairwise.nil

section
variable {base : Int} {rs : List Record} {idx : Index} (h : Indexed base rs idx)
include h

theorem Indexed.append_right (xs : List Record) :
    Indexed base (rs ++ xs) idx where
  entries e he := by
    obtain ⟨a, r, b, rfl, h1, h2⟩ := h.entries e he
    exact ⟨a, r, b ++ xs, by simp, h1, h2⟩
  sorted := h.sorted

theorem Indexed.add
    (hs : Stored base (rs ++ [r])) :
    Indexed base (rs ++ [r]) (idx.add (uint32 (r.offset - base)) (uint32 (frames rs).length)) where
  entries e he := by
    rcases mem_append.mp he with he | he
    · exact (h.append_right [r]).entries e he
    · rw [mem_singleton.mp he]
      have hbase := hs.base_le r (by simp)
      have hspan := hs.span r (by simp)
      have hbytes := hs.bytes
      simp only [frames_append, length_append] at hbytes
      refine ⟨rs, r, [], rfl, ?_, ?_⟩
      · simp only [uint32]
        rw [toUnsigned_of_lt (by omega) (by omega)]
        exact Int.toNat_of_nonneg (by omega)
      · simp only [uint32]
        rw [toUnsigned_of_lt (by omega) (by omega)]
        exact Int.toNat_natCast _
  sorted := by
    refine pairwise_append.mpr ⟨h.sorted, pairwise_singleton _ _, ?_⟩
    intro e he x hx
    rw [mem_singleton.mp hx]
    obtain ⟨a, y, b, rfl, h1, -⟩ := h.entries e he
    have hlt : y.offset < r.offset :=
      (pairwise_append.mp hs.ascending).2.2 y (by simp) r (mem_singleton_self r)
    have hspan := hs.span r (by simp)
    simp only [uint32]
    rw [toUnsigned_of_lt (by omega) (by omega)]
    omega

theorem Indexed.lookup
    (hs : rs.Pairwise fun a b => a.offset < b.offset) (x : Nat) :
    ∃ a b, rs = a ++ b ∧ idx.lookup x = (frames a).length ∧ ∀ r ∈ a, r.offset - base < x := by
  have mono : Threshold idx.length fun j => decide (x < (idx.getD j default).relativeOffset) := by
    intro i j hij hj hi
    simp only [decide_eq_true_eq, getD_eq_getElem _ _ hj, getD_eq_getElem _ _ (Nat.lt_of_le_of_lt hij hj)] at hi ⊢
    rcases Nat.eq_or_lt_of_le hij with rfl | hlt
    · exact hi
    · have := pairwise_iff_getElem.mp h.sorted i j (Nat.lt_of_le_of_lt hij hj) hj hlt
      omega
  obtain ⟨hle, hbelow, -⟩ := search_spec mono
  unfold Index.lookup
  simp only
  split
  · exact ⟨[], rs, rfl, rfl, fun _ hr => by cases hr⟩
  · rename_i hne
    have hlt : search idx.length (fun j => decide (x < (idx.getD j default).relativeOffset)) - 1 < idx.length := by omega
    have hrel := hbelow _ (Nat.sub_lt (Nat.pos_of_ne_zero hne) Nat.one_pos)
    simp only [decide_eq_false_iff_not, getD_eq_getElem _ _ hlt] at hrel ⊢
    obtain ⟨a, r, b, rfl, h1, h2⟩ := h.entries _ (getElem_mem hlt)
    refine ⟨a, r :: b, rfl, h2, fun y hy => ?_⟩
    have := (pairwise_append.mp hs).2.2 y hy r (by simp)
    omega

end

/-! ### Segments that hold records -/

namespace Segment

structure Holds (s : Segment) (rs : List Record) : Prop where
  stored : Stored s.baseOffset rs
  content : s.logFile.data ++ s.logBuf.getD [] = frames rs
  pending : s.logBuf.getD [] ≠ [] → s.logFile.Tailed
  size : s.size = (frames rs).length
  highWater : s.highWater = endOffset s.baseOffset rs
  indexed : Indexed s.baseOffset rs s.idx

structure Kept (s s' : Segment) : Prop where
  baseOffset : s'.baseOffset = s.baseOffset
  maxBytes : s'.maxBytes = s.maxBytes
  compacting : s'.compacting = s.compacting
  active : s'.logBuf.isSome = s.logBuf.isSome
  appending : s'.logFile.appending = s.logFile.appending

theorem Kept.refl (s : Segment) : Kept s s := ⟨rfl, rfl, rfl, rfl, rfl⟩

theorem Kept.trans {a b c : Segment} (h : Kept a b) (h' : Kept b c) : Kept a c :=
  ⟨h'.baseOffset.trans h.baseOffset, h'.maxBytes.trans h.maxBytes, h'.compacting.trans h.compacting,
    h'.active.trans h.active, h'.appending.trans h.appending⟩

theorem createSegmentWithSuffix_holds (base maxBytes : Int) (compacting : Bool) :
    (createSegmentWithSuffix base maxBytes compacting).Holds [] where
  stored := Stored.nil base
  content := rfl
  pending h := absurd rfl h
  size := rfl
  highWater := rfl
  indexed := Indexed.nil base []

variable {s : Segment}

theorem Holds.data_of_none (h : s.Holds rs) (hb : s.logBuf = none) :
    s.logFile.data = frames rs := by
  have := h.content
  rwa [hb, Option.getD_none, append_nil] at this

theorem flushIfActive_kept (s : Segment) : Kept s s.flushIfActive := by
  unfold flushIfActive
  cases hb : s.logBuf with
  | none => exact Kept.refl s
  | some buf => exact ⟨rfl, rfl, rfl, by rw [hb]; rfl, (bufFlush_flags s.logFile buf).1⟩

@[simp] theorem flushIfActive_highWater (s : Segment) : s.flushIfActive.highWater = s.highWater := by
  unfold flushIfActive
  cases s.logBuf <;> rfl

@[simp] theorem flushIfActive_idx (s : Segment) : s.flushIfActive.idx = s.idx := by
  unfold flushIfActive
  cases s.logBuf <;> rfl

@[simp] theorem flushIfActive_baseOffset (s : Segment) : s.flushIfActive.baseOffset = s.baseOffset :=
  (flushIfActive_kept s).baseOffset

section
variable {s : Segment} {rs : List Record} (h : s.Holds rs)
include h

theorem Holds.flush :
    s.flushIfActive.Holds rs ∧ s.flushIfActive.logFile.data = frames rs ∧ s.flushIfActive.logBuf.getD [] = [] ∧
      (s.logFile.Tailed → s.flushIfActive.logFile.Tailed) := by
  unfold flushIfActive
  cases hb : s.logBuf with
  | none => exact ⟨h, h.data_of_none hb, by simp [hb], id⟩
  | some buf =>
    have hcontent := h.content
    have hpending := h.pending
    rw [hb, Option.getD_some] at hcontent hpending
    have hdata : (bufFlush s.logFile buf).data = frames rs := by
      by_cases hnil : buf = []
      · rw [hnil, append_nil] at hcontent
        rw [bufFlush, if_pos hnil, hcontent]
      · rw [bufFlush_data (hpending hnil), hcontent]
    refine ⟨?_, hdata, rfl, fun ht => bufFlush_tailed ht⟩
    exact ⟨h.stored, by simpa using hdata, fun hne => absurd rfl hne, h.size, h.highWater, h.indexed⟩

theorem Holds.persistIndex : s.persistIndex.Holds rs :=
  ⟨h.stored, h.content, h.pending, h.size, h.highWater, h.indexed⟩

theorem Holds.snapshotSync : s.snapshotSync.Holds rs :=
  h.flush.1.persistIndex

end

theorem snapshotSync_kept (s : Segment) : Kept s s.snapshotSync :=
  (flushIfActive_kept s).trans ⟨rfl, rfl, rfl, rfl, rfl⟩

theorem sealSegment_size (s : Segment) : s.sealSegment.size = s.size := by
  unfold sealSegment flushIfActive
  cases s.logBuf <;> rfl

theorem Holds.sealSegment (h : s.Holds rs) :
    s.sealSegment.Holds rs ∧ s.sealSegment.logFile.data = frames rs := by
  obtain ⟨hflush, hdata, -, -⟩ := h.flush
  refine ⟨⟨hflush.stored, ?_, fun hne => absurd rfl hne, hflush.size, hflush.highWater, hflush.indexed⟩, hdata⟩
  simpa [Segment.sealSegment, Segment.persistIndex] using hdata

/-! ### Appending -/

theorem append_eq {buf : Bytes} (hbuf : s.logBuf = some buf) (r : Record) :
    ∃ idx since, (idx = s.idx.add (uint32 (r.offset - s.baseOffset)) (uint32 s.size) ∨ idx = s.idx) ∧
      s.append r = .ok (r.offset,
        { s with
          logFile := (bufWrite s.logFile buf (encodeRecord r)).1
          logBuf := some (bufWrite s.logFile buf (encodeRecord r)).2
          idx := idx
          size := s.size + (encodeRecord r).length
          bytesSinceIndex := since
          highWater := r.offset + 1 }) := by
  simp only [append, hbuf]
  split
  · exact ⟨_, _, Or.inl rfl, rfl⟩
  · exact ⟨_, _, Or.inr rfl, rfl⟩

theorem Holds.indexed_append (h : s.Holds rs)
    (hs : Stored s.baseOffset (rs ++ [r])) {idx : Index}
    (hidx : idx = s.idx.add (uint32 (r.offset - s.baseOffset)) (uint32 s.size) ∨ idx = s.idx) :
    Indexed s.baseOffset (rs ++ [r]) idx := by
  rcases hidx with rfl | rfl
  · rw [h.size]
    exact h.indexed.add hs
  · exact h.indexed.append_right [r]

theorem Holds.append (h : s.Holds rs) (hb : s.logBuf.isSome)
    (ht : s.logFile.Tailed) (hs : Stored s.baseOffset (rs ++ [r])) :
    ∃ s', s.append r = .ok (r.offset, s') ∧ s'.Holds (rs ++ [r]) ∧ s'.logFile.Tailed ∧ Kept s s' := by
  obtain ⟨buf, hbuf⟩ := Option.isSome_iff_exists.mp hb
  obtain ⟨idx, since, hidx, happ⟩ := append_eq hbuf r
  have hcontent := h.content
  rw [hbuf, Option.getD_some] at hcontent
  refine ⟨_, happ, ⟨hs, ?_, fun _ => bufWrite_tailed ht, ?_, ?_, h.indexed_append hs hidx⟩, bufWrite_tailed ht,
    ⟨rfl, rfl, rfl, by rw [hbuf]; rfl, (bufWrite_flags s.logFile buf _).1⟩⟩
  · simp [bufWrite_data buf (encodeRecord r) ht, hcontent]
  · simp [h.size]
  · simp

/-! ### Reading -/

/-- The read loop over a stream of frames collects the records it is asked for. -/
theorem readLoop_frames (rs : List Record) (fits : ∀ r ∈ rs, Fits r) (n : Int) (max fuel : Nat) (rd : Reader)
    (out : List Record) (hrest : rd.rest = frames rs) (hfuel : rs.length < fuel) :
    ∃ rd', readLoop fuel rd n max out = (.ok (out ++ ((since n rs).map Record.norm).take (max - out.length)), rd') ∧
      Reader.Same rd rd' := by
  induction rs generalizing fuel rd out with
  | nil =>
    obtain ⟨fuel, rfl⟩ : ∃ k, fuel = k + 1 := ⟨fuel - 1, by simp at hfuel; omega⟩
    obtain ⟨rd', heof, -, hsame⟩ := readRecordFrom_eof hrest
    rw [readLoop]
    split
    · exact ⟨rd, by simp, Reader.Same.refl rd⟩
    · exact ⟨rd', by simp [heof], hsame⟩
  | cons r rs ih =>
    obtain ⟨fuel, rfl⟩ : ∃ k, fuel = k + 1 := ⟨fuel - 1, by simp at hfuel; omega⟩
    obtain ⟨rd', hread, hrest', hsame⟩ := readRecordFrom_encode (fits r (by simp)) hrest
    have ih' := fun out => ih (fun x hx => fits x (mem_cons_of_mem r hx)) fuel rd' out hrest' (by simpa using hfuel)
    rw [readLoop]
    split
    · rename_i hfull
      exact ⟨rd, by simp [Nat.sub_eq_zero_of_le hfull], Reader.Same.refl rd⟩
    · simp only [hread]
      by_cases hlow : r.norm.offset < n
      · obtain ⟨rd'', h, hsame'⟩ := ih' out
        refine ⟨rd'', ?_, hsame.trans hsame'⟩
        rw [if_pos hlow, h, show since n (r :: rs) = since n rs from filter_cons_of_neg (by simpa using hlow)]
      · obtain ⟨rd'', h, hsame'⟩ := ih' (out ++ [r.norm])
        refine ⟨rd'', ?_, hsame.trans hsame'⟩
        rw [if_neg hlow, h, show since n (r :: rs) = r :: since n rs from filter_cons_of_pos (by simpa using hlow)]
        obtain ⟨k, hk⟩ : ∃ k, max - out.length = k + 1 := ⟨max - out.length - 1, by omega⟩
        simp [hk, show max - (out.length + (0 + 1)) = k by omega]

/-- Frames tell the records they are of, up to empty and nil slices. -/
theorem frames_injective {rs' : List Record} (fits : ∀ r ∈ rs, Fits r) (fits' : ∀ r ∈ rs', Fits r)
    (h : frames rs = frames rs') : rs.map Record.norm = rs'.map Record.norm := by
  -- both are what the read loop collects from the lowest offset on
  have hread : ∀ xs, (∀ r ∈ xs, Fits r) → frames xs = frames rs → xs.length ≤ rs.length + rs'.length →
      (readLoop (rs.length + rs'.length + 1) (Reader.new ⟨frames rs, 0, false, false⟩) (-(256 ^ 8 : Nat))
        (rs.length + rs'.length) []).1 = .ok (xs.map Record.norm) := by
    intro xs hfits hframes hlen
    obtain ⟨rd', hloop, -⟩ := readLoop_frames xs hfits (-(256 ^ 8 : Nat)) (rs.length + rs'.length) (rs.length + rs'.length + 1)
      (Reader.new ⟨frames rs, 0, false, false⟩) [] (by rw [Reader.new_rest, hframes, drop_zero]) (Nat.lt_succ_of_le hlen)
    have hlow : ∀ r ∈ xs, -(256 ^ 8 : Nat) ≤ r.offset := fun r hr => by have := (hfits r hr).offset.1; omega
    rw [hloop, since_eq_self hlow, nil_append, length_nil, take_of_length_le (by rw [length_map]; exact hlen)]
  exact Except.ok.inj ((hread rs fits rfl (Nat.le_add_right _ _)).symm.trans (hread rs' fits' h.symm (Nat.le_add_left _ _)))

theorem readFrom_boundary {a b : List Record} (hdata : s.flushIfActive.logFile.data = frames (a ++ b))
    (fits : ∀ r ∈ b, Fits r) {m : Int} (hm : ¬ m ≤ 0) (hn : ¬ s.highWater ≤ n)
    (hpos : s.idx.lookup (uint32 (max n s.baseOffset - s.baseOffset)) = (frames a).length) :
    ∃ rd, s.readFrom n m = (.ok (((since (max n s.baseOffset) b).map Record.norm).take m.toNat),
      { s.flushIfActive with logFile := rd.file }) ∧
      Reader.Same (Reader.new (s.flushIfActive.logFile.seek (frames a).length)) rd := by
  have hrest : (Reader.new (s.flushIfActive.logFile.seek (frames a).length)).rest = frames b := by
    rw [Reader.new_rest, File.seek_data, File.seek_pos, hdata, frames_append, drop_left' rfl]
  have hfuel : b.length < s.flushIfActive.logFile.data.length + 1 := by
    have := length_le_frames b
    rw [hdata, frames_append, length_append]
    omega
  obtain ⟨rd, hread, hsame⟩ := readLoop_frames b fits (max n s.baseOffset) m.toNat _ _ [] hrest hfuel
  refine ⟨rd, ?_, hsame⟩
  rw [readFrom, if_neg hm, if_neg hn]
  simp [flushIfActive_idx, flushIfActive_baseOffset, hpos, hread]

/-- Below the high water the index sends a read to a frame boundary that is not past the offset. -/
theorem Holds.boundary (h : s.Holds rs) (hn : ¬ s.highWater ≤ n) :
    ∃ a b, rs = a ++ b ∧ s.idx.lookup (uint32 (max n s.baseOffset - s.baseOffset)) = (frames a).length ∧
      since (max n s.baseOffset) b = since n rs := by
  -- Below the high water the offset is within 32 bits of the base.
  have hrel : uint32 (max n s.baseOffset - s.baseOffset) = max n s.baseOffset - s.baseOffset := by
    have hlt : max n s.baseOffset - s.baseOffset < 2 ^ 32 := by
      have := h.stored.end_le
      rw [h.highWater] at hn
      omega
    rw [uint32, toUnsigned_of_lt (by omega) (by omega)]
    omega
  obtain ⟨a, b, rfl, hpos, hlow⟩ := h.indexed.lookup h.stored.ascending (uint32 (max n s.baseOffset - s.baseOffset))
  refine ⟨a, b, rfl, hpos, ?_⟩
  have ha : since (max n s.baseOffset) a = [] := since_eq_nil fun r hr => by
    have := hlow r hr
    omega
  rw [← nil_append (since _ b), ← ha, ← since_append]
  refine filter_congr fun r hr => ?_
  have := h.stored.base_le r hr
  simp only [decide_eq_decide]
  omega

theorem Holds.readFrom (h : s.Holds rs) (n m : Int) :
    ∃ s', s.readFrom n m = (.ok (((since n rs).map Record.norm).take m.toNat), s') ∧ s'.Holds rs ∧ Kept s s' := by
  by_cases hm : m ≤ 0
  · rw [Segment.readFrom, if_pos hm]
    exact ⟨s, by simp [Int.toNat_of_nonpos hm], h, Kept.refl s⟩
  by_cases hhw : s.highWater ≤ n
  · rw [Segment.readFrom, if_pos hhw]
    rw [h.highWater] at hhw
    have hnil : since n rs = [] := since_eq_nil fun r hr =>
      Int.lt_of_lt_of_le (lt_endOffset _ h.stored.ascending r hr) hhw
    exact ⟨s, by simp [hnil], h, Kept.refl s⟩
  · obtain ⟨hflush, hdata, hbuf, -⟩ := h.flush
    obtain ⟨a, b, rfl, hpos, hsince⟩ := h.boundary hhw
    obtain ⟨rd, hread, hsame⟩ := readFrom_boundary hdata (fun r hr => h.stored.fits r (mem_append_right a hr)) hm hhw hpos
    rw [hsince] at hread
    refine ⟨_, hread, ?_, (flushIfActive_kept s).trans ⟨rfl, rfl, rfl, rfl, hsame.appending⟩⟩
    refine ⟨hflush.stored, ?_, fun hne => absurd hbuf hne, hflush.size, hflush.highWater, hflush.indexed⟩
    rw [hbuf, append_nil]
    exact hsame.data.trans hdata

/-! ### Reopening -/

def Reindexes (base : Int) (rs : List Record) (inv : List Record → Index → Prop) : Prop :=
  ∀ a r b, rs = a ++ r :: b → ∀ idx, inv a idx →
    inv (a ++ [r]) idx ∧ inv (a ++ [r]) (idx.add (uint32 (r.offset - base)) (uint32 (frames a).length))

theorem reindexes_indexed (stored : Stored base rs) : Reindexes base rs (Indexed base) := by
  intro a r b hrs idx hidx
  rw [hrs, show a ++ r :: b = a ++ [r] ++ b by simp] at stored
  exact ⟨hidx.append_right [r], hidx.add stored.of_append_left⟩

theorem recoverLoop_frames {inv : List Record → Index → Prop} (a b : List Record) (tail : Bytes)
    (fits : ∀ r ∈ b, Fits r) (reindexes : Reindexes s.baseOffset (a ++ b) inv) (indexed : inv a s.idx)
    (hw : s.highWater = endOffset s.baseOffset a) (fuel : Nat) (rd : Reader) (hrest : rd.rest = frames b ++ tail) :
    ∃ idx since rd', inv (a ++ b) idx ∧ rd'.rest = tail ∧ Reader.Same rd rd' ∧
      recoverLoop (b.length + fuel) rd (frames a).length s = recoverLoop fuel rd' (frames (a ++ b)).length
        { s with idx := idx, bytesSinceIndex := since, highWater := endOffset s.baseOffset (a ++ b) } := by
  induction b generalizing s a rd with
  | nil => exact ⟨s.idx, s.bytesSinceIndex, rd, by simpa using indexed, by simpa using hrest, Reader.Same.refl rd,
      by simp [← hw]⟩
  | cons r b ih =>
    have hassoc : a ++ r :: b = a ++ [r] ++ b := by simp
    rw [frames_cons, append_assoc] at hrest
    obtain ⟨rd₁, hread, hrest₁, hsame₁⟩ := readRecordFrom_encode (fits r (by simp)) hrest
    obtain ⟨hskip, hadd⟩ := reindexes a r b rfl s.idx indexed
    rw [hassoc] at reindexes ⊢
    have hlen : (frames (a ++ [r])).length = (frames a).length + (encodeRecord r).length := by simp
    have hstep : ∃ idx since, inv (a ++ [r]) idx ∧
        recoverLoop ((r :: b).length + fuel) rd (frames a).length s =
          recoverLoop (b.length + fuel) rd₁ (frames (a ++ [r])).length
            { s with idx := idx, bytesSinceIndex := since, highWater := r.offset + 1 } := by
      rw [length_cons, Nat.add_right_comm, hlen]
      simp only [recoverLoop, hread]
      split
      · exact ⟨_, _, hadd, rfl⟩
      · exact ⟨_, _, hskip, rfl⟩
    obtain ⟨idx₁, since₁, hidx₁, hloop⟩ := hstep
    obtain ⟨idx, since, rd', hidx, hrest', hsame, hrec⟩ :=
      ih (s := { s with idx := idx₁, bytesSinceIndex := since₁, highWater := r.offset + 1 }) (a ++ [r])
        (fun x hx => fits x (mem_cons_of_mem r hx)) reindexes hidx₁ (by simp) rd₁ hrest₁
    exact ⟨idx, since, rd', hidx, hrest', hsame₁.trans hsame, by rw [hloop, hrec]⟩

structure Reopened (base maxBytes : Int) (forAppend : Bool) (rs : List Record) (s : Segment) : Prop where
  holds : s.Holds rs
  baseOffset : s.baseOffset = base
  maxBytes : s.maxBytes = maxBytes
  compacting : s.compacting = false
  logBuf : s.logBuf = if forAppend then some [] else none
  data : s.logFile.data = frames rs
  appending : s.logFile.appending = false

section
variable {inv : List Record → Index → Prop} (base maxBytes : Int) (rs : List Record) (fits : ∀ r ∈ rs, Fits r)
  (reindexes : Reindexes base rs inv) (start : inv [] [])
include fits reindexes start

theorem openSegment_recover (tail : Bytes) (idxFile : Option Bytes) (forAppend : Bool) :
    ∃ fuel idx since rd, inv rs idx ∧ rd.rest = tail ∧
      Reader.Same (Reader.new ⟨frames rs ++ tail, 0, false, forAppend⟩) rd ∧
      openSegment base maxBytes (frames rs ++ tail) idxFile forAppend =
        recoverLoop (fuel + 1) rd (frames rs).length
          { baseOffset := base, maxBytes := maxBytes, compacting := false
            logFile := ⟨frames rs ++ tail, 0, false, forAppend⟩, logBuf := if forAppend then some [] else none
            idx := idx, idxFile := idxFile, size := 0, bytesSinceIndex := since, highWater := endOffset base rs } := by
  obtain ⟨fuel, hfuel⟩ : ∃ fuel, (frames rs ++ tail).length + 1 = rs.length + (fuel + 1) :=
    ⟨(frames rs ++ tail).length - rs.length, by
      have := length_le_frames rs
      rw [length_append]
      omega⟩
  let s : Segment :=
    { baseOffset := base, maxBytes := maxBytes, compacting := false
      logFile := ⟨frames rs ++ tail, 0, false, forAppend⟩, logBuf := if forAppend then some [] else none
      idx := [], idxFile := idxFile, size := 0, bytesSinceIndex := 0, highWater := base }
  obtain ⟨idx, since, rd, hidx, hrest, hsame, hrec⟩ := recoverLoop_frames (s := s)
    [] rs tail fits reindexes start rfl (fuel + 1) (Reader.new s.logFile) rfl
  refine ⟨fuel, idx, since, rd, hidx, hrest, hsame, ?_⟩
  rw [← hfuel] at hrec
  exact hrec

theorem openSegment_whole (idxFile : Option Bytes) (forAppend : Bool) :
    ∃ idx since f, inv rs idx ∧ f.data = frames rs ∧ f.appending = false ∧ f.pos = f.data.length ∧
      openSegment base maxBytes (frames rs) idxFile forAppend = .ok
        { baseOffset := base, maxBytes := maxBytes, compacting := false, logFile := f
          logBuf := if forAppend then some [] else none, idx := idx, idxFile := idxFile, size := (frames rs).length
          bytesSinceIndex := since, highWater := endOffset base rs } := by
  obtain ⟨fuel, idx, since, rd, hidx, hrest, hsame, hopen⟩ :=
    openSegment_recover base maxBytes rs fits reindexes start [] idxFile forAppend
  obtain ⟨rd', heof, hrest', hsame'⟩ := readRecordFrom_eof hrest
  have hall := hsame.trans hsame'
  rw [append_nil] at hopen hall
  refine ⟨idx, since, rd'.file, hidx, hall.data, hall.appending, Reader.pos_of_rest_nil hrest' (hall.pos (Nat.zero_le _)), ?_⟩
  rw [hopen]
  simp only [recoverLoop, heof]

end

section
variable {base : Int} {rs : List Record} (stored : Stored base rs) (maxBytes : Int) (idxFile : Option Bytes)
include stored

theorem openSegment_frames (forAppend : Bool) :
    ∃ s, openSegment base maxBytes (frames rs) idxFile forAppend = .ok s ∧ Reopened base maxBytes forAppend rs s ∧
      s.logFile.Tailed := by
  obtain ⟨idx, since, f, hidx, hdata, happending, hpos, hopen⟩ :=
    openSegment_whole base maxBytes rs stored.fits (reindexes_indexed stored) (Indexed.nil base []) idxFile forAppend
  refine ⟨_, hopen, ⟨⟨stored, ?_, ?_, rfl, rfl, hidx⟩, rfl, rfl, rfl, rfl, hdata, happending⟩, Or.inr hpos⟩
  · cases forAppend <;> simpa using hdata
  · cases forAppend <;> simp

end

theorem recoverLoop_torn {rd : Reader} (torn : Torn rd.rest) :
    ∃ rd', Reader.Same rd rd' ∧ ∀ fuel pos s, recoverLoop (fuel + 1) rd pos s =
      match rd'.file.truncate pos with
      | none => .error .truncate
      | some f => .ok { s with logFile := f.seek pos, size := pos } := by
  obtain ⟨rd', hread, hsame⟩ := readRecordFrom_first rd
  refine ⟨rd', hsame, fun fuel pos s => ?_⟩
  rcases torn with h | h <;> rewrite [recoverLoop, hread, h] <;> rfl

section
variable {base : Int} {rs : List Record} (stored : Stored base rs) (maxBytes : Int) (idxFile : Option Bytes)
    {tail : Bytes} (torn : Torn tail)
include stored torn

/-- A torn tail is cut off when the segment is opened for appending, -/
theorem openSegment_tail :
    ∃ s, openSegment base maxBytes (frames rs ++ tail) idxFile true = .ok s ∧ Reopened base maxBytes true rs s ∧
      s.logFile.Tailed := by
  obtain ⟨fuel, idx, since, rd, hidx, hrest, hsame, hopen⟩ :=
    openSegment_recover base maxBytes rs stored.fits (reindexes_indexed stored) (Indexed.nil base []) tail idxFile true
  obtain ⟨rd', hsame', hloop⟩ := recoverLoop_torn (hrest ▸ torn)
  have hdata : rd'.file.data = frames rs ++ tail := (hsame.trans hsame').data
  have hwritable : rd'.file.writable = true := (hsame.trans hsame').writable
  rw [hopen, hloop]
  simp only [File.truncate, hwritable, hdata, take_left' rfl]
  refine ⟨_, rfl, ⟨⟨stored, ?_, ?_, rfl, rfl, hidx⟩, rfl, rfl, rfl, rfl, rfl, (hsame.trans hsame').appending⟩, Or.inr rfl⟩
  · simp
  · simp

/-- and makes a read-only open fail. -/
theorem openSegment_tail_readOnly : openSegment base maxBytes (frames rs ++ tail) idxFile false = .error .truncate := by
  obtain ⟨fuel, idx, since, rd, hidx, hrest, hsame, hopen⟩ :=
    openSegment_recover base maxBytes rs stored.fits (reindexes_indexed stored) (Indexed.nil base []) tail idxFile false
  obtain ⟨rd', hsame', hloop⟩ := recoverLoop_torn (hrest ▸ torn)
  have hwritable : rd'.file.writable = false := (hsame.trans hsame').writable
  rw [hopen, hloop]
  simp [File.truncate, hwritable]

end

/-- A whole frame of a right checksum whose body does not decode makes every open fail. -/
theorem openSegment_malformed {base : Int} {rs : List Record} (stored : Stored base rs) (maxBytes : Int)
    (idxFile : Option Bytes) {tail : Bytes} (malformed : firstFrame tail = .error .malformed) (forAppend : Bool) :
    openSegment base maxBytes (frames rs ++ tail) idxFile forAppend = .error (.frame .malformed) := by
  obtain ⟨fuel, idx, since, rd, hidx, hrest, hsame, hopen⟩ :=
    openSegment_recover base maxBytes rs stored.fits (reindexes_indexed stored) (Indexed.nil base []) tail idxFile forAppend
  obtain ⟨rd', hread, -⟩ := readRecordFrom_first rd
  rw [hopen, recoverLoop, hread, hrest, malformed]

inductive SegmentOp where
  | append (r : Record)
  | read (fromOffset maxRecords : Int)
  deriving DecidableEq, Repr

namespace SegmentOp

def appended : SegmentOp → Option Record
  | .append r => some r
  | .read .. => none

end SegmentOp

/-- The answer is an offset or records. -/
def act (s : Segment) : SegmentOp → (Except LogError Int ⊕ Except LogError (List Record)) × Segment
  | .append r =>
    match s.append r with
    | .error e => (.inl (.error e), s)
    | .ok (offset, s') => (.inl (.ok offset), s')
  | .read n m => (.inr (s.readFrom n m).1, (s.readFrom n m).2)

def answerOf (rs : List Record) : SegmentOp → Except LogError Int ⊕ Except LogError (List Record)
  | .append r => .inl (.ok r.offset)
  | .read n m => .inr (.ok (((since n rs).map Record.norm).take m.toNat))

/-- A file that is not in append mode is written at its end only if no read has left the position before it. -/
def Tailing (s : Segment) (op : SegmentOp) : Prop := op.appended.isSome → s.logFile.Tailed

theorem Holds.act {op : SegmentOp} (h : s.Holds rs) (hb : s.logBuf.isSome) (tailing : s.Tailing op)
    (stored : Stored s.baseOffset (rs ++ op.appended.toList)) :
    (s.act op).1 = answerOf rs op ∧ (s.act op).2.Holds (rs ++ op.appended.toList) ∧ Kept s (s.act op).2 := by
  cases op with
  | append r =>
    obtain ⟨s', happ, hs', -, hkept⟩ := h.append hb (tailing rfl) stored
    simp only [Segment.act, happ]
    exact ⟨rfl, hs', hkept⟩
  | read n m =>
    obtain ⟨s', hread, hs', hkept⟩ := h.readFrom n m
    simp only [Segment.act, hread]
    exact ⟨rfl, by simpa [SegmentOp.appended] using hs', hkept⟩

/-- Two segments with the same records give the same answers. -/
theorem Holds.same_answers {t : Segment} (hs : s.Holds rs) (ht : t.Holds rs) (hsb : s.logBuf.isSome) (htb : t.logBuf.isSome)
    (hbase : t.baseOffset = s.baseOffset) (happending : t.logFile.appending = true) {ops : List SegmentOp}
    (stored : Stored s.baseOffset (rs ++ ops.filterMap SegmentOp.appended))
      (tailing : Along (fun s op => (s.act op).2) s ops Tailing) :
    trace Segment.act s ops = trace Segment.act t ops := by
  induction ops generalizing s t rs with
  | nil => rfl
  | cons op ops ih =>
    obtain ⟨hop, hops⟩ := Along.cons_iff.mp tailing
    have hrs : rs ++ (op :: ops).filterMap SegmentOp.appended = rs ++ op.appended.toList ++
        ops.filterMap SegmentOp.appended := by
      cases h : op.appended <;> simp [h]
    rw [hrs] at stored
    obtain ⟨hans, hs', hkept⟩ := hs.act hsb hop stored.of_append_left
    obtain ⟨hans', ht', hkept'⟩ := ht.act htb (fun _ => Or.inl happending) (hbase ▸ stored.of_append_left)
    rw [trace, trace, hans, hans']
    exact congrArg _ (ih hs' ht' (hkept.active ▸ hsb) (hkept'.active ▸ htb) (by rw [hkept.baseOffset, hkept'.baseOffset, hbase])
      (hkept'.appending.trans happending) (hkept.baseOffset ▸ stored) hops)

/-- The segment that the records are appended to. -/
def written (base maxBytes : Int) (rs : List Record) : Segment := rs.foldl (fun s r => (s.act (.append r)).2)
    (createSegment base maxBytes)

theorem written_holds (maxBytes : Int) (stored : Stored base rs) :
    (written base maxBytes rs).Holds rs ∧ Kept (createSegment base maxBytes) (written base maxBytes rs) := by
  induction rs using reverseRecOn with
  | nil => exact ⟨createSegmentWithSuffix_holds base maxBytes false, Kept.refl _⟩
  | append_singleton rs r ih =>
    obtain ⟨hholds, hkept⟩ := ih stored.of_append_left
    have htailing : (written base maxBytes rs).Tailing (.append r) := fun _ => Or.inl (hkept.appending.trans rfl)
    have hact := hholds.act (hkept.active.trans rfl) htailing (by rw [hkept.baseOffset]; exact stored)
    rw [written, foldl_append]
    exact ⟨hact.2.1, hkept.trans hact.2.2⟩

/-- With a tail that starts with no valid frame the newest segment file opens exactly if it does not start with a whole
    frame of a malformed body. What is opened has the frames before the tail, and as long as no append comes on a
    position that a read has left before the end, appends and reads are then answered as by the segment that was
    written. -/
theorem torn_tail_recovers {base : Int} {rs : List Record} (stored : Stored base rs) (maxBytes : Int)
    (idxFile : Option Bytes) {tail : Bytes} (invalid : ∀ x, firstFrame tail ≠ .ok x) :
    ((∃ s, openSegment base maxBytes (frames rs ++ tail) idxFile true = .ok s) ↔ firstFrame tail ≠ .error .malformed) ∧
      ∀ s, openSegment base maxBytes (frames rs ++ tail) idxFile true = .ok s →
        s.logFile.data = frames rs ∧ s.highWater = endOffset base rs ∧
          ∀ ops, Stored base (rs ++ ops.filterMap SegmentOp.appended) → Along (fun s op => (s.act op).2) s ops Tailing →
            trace act s ops = trace act (written base maxBytes rs) ops := by
  have hmalformed (h : firstFrame tail = _) := openSegment_malformed stored maxBytes idxFile h true
  have hopens : firstFrame tail ≠ .error .malformed →
      ∃ s, openSegment base maxBytes (frames rs ++ tail) idxFile true = .ok s ∧ Reopened base maxBytes true rs s := by
    intro hne
    rcases hfirst : firstFrame tail with e | x
    · cases e with
      | eof =>
        rw [eq_nil_of_firstFrame hfirst, append_nil]
        obtain ⟨s, hopen, hre, -⟩ := openSegment_frames stored maxBytes idxFile true
        exact ⟨s, hopen, hre⟩
      | malformed => exact absurd hfirst hne
      | unexpectedEOF =>
        obtain ⟨s, hopen, hre, -⟩ := openSegment_tail stored maxBytes idxFile (.inl hfirst)
        exact ⟨s, hopen, hre⟩
      | tornFrame =>
        obtain ⟨s, hopen, hre, -⟩ := openSegment_tail stored maxBytes idxFile (.inr hfirst)
        exact ⟨s, hopen, hre⟩
    · exact absurd hfirst (invalid x)
  have hne : ∀ s, openSegment base maxBytes (frames rs ++ tail) idxFile true = .ok s → firstFrame tail ≠ .error .malformed := by
    intro s hs hfirst
    cases (hmalformed hfirst).symm.trans hs
  refine ⟨⟨fun ⟨s, hs⟩ => hne s hs, fun h => (hopens h).imp fun s hs => hs.1⟩, fun s hs => ?_⟩
  obtain ⟨s', hopen, hre⟩ := hopens (hne s hs)
  obtain rfl : s' = s := Except.ok.inj (hopen.symm.trans hs)
  refine ⟨hre.data, hre.baseOffset ▸ hre.holds.highWater, fun ops hops tailing => ?_⟩
  obtain ⟨hwritten, hkept⟩ := written_holds maxBytes stored
  exact hre.holds.same_answers hwritten (by rw [hre.logBuf]; rfl) (hkept.active.trans rfl)
    (by rw [hkept.baseOffset, hre.baseOffset]; rfl) (hkept.appending.trans rfl) (by rwa [hre.baseOffset]) tailing

def stamped (offset : Int) (value : UInt8) : Record := ⟨offset, 1, some [1], some [value], []⟩

/-- Two records with a gap between them, and the beginning of a third frame. -/
def tornFile : Bytes := frames [stamped 5 1, stamped 7 2] ++ (encodeRecord (stamped 8 3)).take 20

theorem stored_stamped : Stored 5 ([stamped 5 1, stamped 7 2] ++ [stamped 8 4]) := by
  have hone := (Stored.nil 5).concat (r := stamped 5 1) (Int.le_refl 5) (show Signed 8 5 by decide)
    (show 5 - 5 < 2 ^ 32 by decide) (by decide +kernel)
  have htwo := hone.concat (r := stamped 7 2) (by decide) (show Signed 8 7 by decide) (show 7 - 5 < 2 ^ 32 by decide)
    (by decide +kernel)
  exact htwo.concat (by decide) (show Signed 8 8 by decide) (show 8 - 5 < 2 ^ 32 by decide) (by decide +kernel)

theorem torn_tail_recovers_two :
    ∃ s, openSegment 5 100 tornFile none true = .ok s ∧ s.logFile.data = frames [stamped 5 1, stamped 7 2] ∧ s.highWater = 8 ∧
      trace act s [.append (stamped 8 4), .read 6 10] = trace act (written 5 100 [stamped 5 1, stamped 7 2])
        [.append (stamped 8 4), .read 6 10] := by
  have hfirst : firstFrame ((encodeRecord (stamped 8 3)).take 20) = .error .unexpectedEOF := by decide +kernel
  have hinvalid : ∀ x, firstFrame ((encodeRecord (stamped 8 3)).take 20) ≠ .ok x := fun x hx => by
    cases hfirst.symm.trans hx
  obtain ⟨hopens, hgood⟩ := torn_tail_recovers stored_stamped.of_append_left 100 none hinvalid
  obtain ⟨s, hs⟩ := hopens.mpr fun hmalformed => by cases hfirst.symm.trans hmalformed
  obtain ⟨hdata, hhigh, hanswers⟩ := hgood s hs
  have htailed : ((openSegment 5 100 tornFile none true).toOption.map fun s =>
      decide (s.logFile.pos = s.logFile.data.length)) = some true := by
    decide +kernel
  have hend : s.logFile.Tailed := by
    rw [tornFile, hs] at htailed
    exact .inr (of_decide_eq_true (Option.some.inj htailed))
  exact ⟨s, hs, hdata, hhigh, hanswers _ stored_stamped (.cons (fun _ => hend) (.cons (fun happend => by cases happend) .nil))⟩

/-- Eight zeros are a frame without a body: no record, and not a torn frame either. -/
theorem zeros_fail_open :
    firstFrame (replicate 8 0) = .error .malformed ∧ openSegment 0 100 (replicate 8 0) none true =
      .error (.frame .malformed) := by
  decide +kernel

end Segment
end Holocron.Log

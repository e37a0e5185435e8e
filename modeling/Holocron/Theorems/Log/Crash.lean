import Holocron.Theorems.Log.Overlap
import Holocron.Theorems.Log.Reopen

/-! Crashes during compaction, by the log file that recovery makes for every base offset (`Dir.logAt`). -/

namespace Holocron.Log
open Lib List

def after (d : Dir) (steps : List FsStep) : Dir := steps.foldl FsStep.apply d

@[simp] theorem after_nil (d : Dir) : after d [] = d := rfl
@[simp] theorem after_cons (d : Dir) (s : FsStep) (steps : List FsStep) : after d (s :: steps) = after (s.apply d) steps := rfl
@[simp] theorem after_append (d : Dir) (a b : List FsStep) : after d (a ++ b) = after (after d a) b := foldl_append

variable {d : Dir}

theorem after_distinct (h : d.names.Nodup) (steps : List FsStep) : (after d steps).names.Nodup := by
  induction steps generalizing d with
  | nil => exact h
  | cons s steps ih =>
    refine ih ?_
    cases s with
    | write n b => exact Dir.write_distinct h n b
    | remove n => exact Dir.remove_distinct h n
    | rename a b => exact Dir.rename_distinct h a b

theorem logName_inj {b b' : Int} {c c' : Bool} : segmentLogName b c = segmentLogName b' c' ↔ b = b' ∧ c = c' := by
  simp [segmentLogName]

theorem logName_ne_indexName (b b' : Int) (c c' : Bool) : segmentLogName b c ≠ segmentIndexName b' c' := by
  simp [segmentLogName, segmentIndexName]

theorem removals_take (cs : List Chunk) (k : Nat) (d : Dir) :
    ∃ i, i ≤ cs.length ∧ (k ≥ (removals cs).length → i = cs.length) ∧
      (∀ b, (after d ((removals cs).take k)).get? (segmentLogName b false) =
        if b ∈ (cs.take i).map Chunk.base then none else d.get? (segmentLogName b false)) ∧
      ∀ b, (after d ((removals cs).take k)).get? (segmentLogName b true) = d.get? (segmentLogName b true) := by
  induction cs generalizing k d with
  | nil => exact ⟨0, Nat.le_refl 0, fun _ => rfl, fun b => by simp [removals], fun b => by simp [removals]⟩
  | cons x cs ih =>
    have hsteps : removals (x :: cs) =
      .remove (segmentLogName x.base false) :: .remove (segmentIndexName x.base false) :: removals cs := rfl
    have hlen : (removals (x :: cs)).length = (removals cs).length + 2 := by rw [hsteps]; rfl
    cases k with
    | zero => exact ⟨0, Nat.zero_le _, fun h => by omega, fun b => by simp, fun b => rfl⟩
    | succ k =>
      -- The first step takes the log file of `x` away; the second, its index, changes no log file.
      have hfirst : ∀ b c, ((d.remove (segmentLogName x.base false)).get? (segmentLogName b c)) =
          if b = x.base ∧ c = false then none else d.get? (segmentLogName b c) := by
        intro b c
        rw [Dir.get?_remove]
        simp only [logName_inj]
      cases k with
      | zero =>
        refine ⟨1, by simp, fun h => by omega, fun b => ?_, fun b => ?_⟩
        all_goals
          rw [hsteps, take_succ_cons, take_zero, after_cons, after_nil, FsStep.apply, hfirst]
          simp
      | succ k =>
        obtain ⟨i, hi, hall, hcanon, hplace⟩ := ih k
          ((d.remove (segmentLogName x.base false)).remove (segmentIndexName x.base false))
        refine ⟨i + 1, by simpa using hi, fun h => by rw [length_cons, hall (by omega)], fun b => ?_, fun b => ?_⟩
        · rw [hsteps, take_succ_cons, take_succ_cons, after_cons, after_cons, FsStep.apply, FsStep.apply, hcanon,
            Dir.get?_remove, if_neg (logName_ne_indexName _ _ _ _), hfirst]
          by_cases hb : b = x.base <;> simp [hb]
        · rw [hsteps, take_succ_cons, take_succ_cons, after_cons, after_cons, FsStep.apply, FsStep.apply, hplace,
            Dir.get?_remove, if_neg (logName_ne_indexName _ _ _ _), hfirst]
          simp

theorem placements_take (base : Int) (data idx : Bytes) (k : Nat) (fresh : d.get? (segmentLogName base true) = none) :
    (∀ b, (after d ((placements base data idx).take k)).get? (segmentLogName b false) = d.get? (segmentLogName b false)) ∧
      (∀ b, b ≠ base →
        (after d ((placements base data idx).take k)).get? (segmentLogName b true) = d.get? (segmentLogName b true)) ∧
      (after d ((placements base data idx).take k)).get? (segmentLogName base true) =
        if k = 0 then none else some (data.take (k - 1)) := by
  induction k with
  | zero => exact ⟨fun b => rfl, fun b _ => rfl, by simpa using fresh⟩
  | succ k ih =>
    obtain ⟨hcanon, hother, hplace⟩ := ih
    have hlen : (placements base data idx).length = data.length + 2 := by simp [placements]
    rw [take_add_one, after_append]
    rcases Nat.lt_trichotomy k (data.length + 1) with hk | rfl | hk
    · have hstep : (placements base data idx)[k]? = some (.write (segmentLogName base true) (data.take k)) := by
        rw [placements, getElem?_append_left (by simpa using hk), getElem?_map, getElem?_range hk]
        rfl
      rw [hstep, Option.toList_some, after_cons, after_nil, FsStep.apply]
      refine ⟨fun b => ?_, fun b hb => ?_, ?_⟩
      · rw [Dir.get?_write, if_neg (by simp [logName_inj]), hcanon]
      · rw [Dir.get?_write, if_neg (by simp [logName_inj, hb]), hother b hb]
      · rw [Dir.get?_write, if_pos rfl, if_neg (Nat.succ_ne_zero k), Nat.add_sub_cancel]
    · have hstep : (placements base data idx)[data.length + 1]? = some (.write (segmentIndexName base true) idx) := by
        rw [placements]
        simp
      rw [hstep, Option.toList_some, after_cons, after_nil, FsStep.apply]
      refine ⟨fun b => ?_, fun b hb => ?_, ?_⟩
      · rw [Dir.get?_write, if_neg (logName_ne_indexName _ _ _ _), hcanon]
      · rw [Dir.get?_write, if_neg (logName_ne_indexName _ _ _ _), hother b hb]
      · rw [Dir.get?_write, if_neg (logName_ne_indexName _ _ _ _), hplace, if_neg (by omega), if_neg (by omega),
          take_of_length_le (by omega), take_of_length_le (by omega)]
    · rw [getElem?_eq_none (by omega), Option.toList_none, after_nil]
      refine ⟨hcanon, hother, ?_⟩
      rw [hplace, if_neg (by omega), if_neg (by omega), take_of_length_le (by omega), take_of_length_le (by omega)]

theorem renames_take (base : Int) (k : Nat) (gone : d.get? (segmentLogName base false) = none) (b : Int) :
    (after d ((renames base).take k)).logAt b = d.logAt b := by
  have hlog : ((d.rename (segmentLogName base true) (segmentLogName base false)).getD d).logAt b = d.logAt b := by
    simp only [Dir.logAt, Dir.get?_rename, logName_inj]
    by_cases hplace : d.get? (segmentLogName base true) = none
    · simp [hplace]
    · by_cases hb : b = base
      · subst hb
        simp [hplace, gone]
      · simp [hb]
  rcases k with _ | _ | k
  · rfl
  · exact hlog
  · have hall : (renames base).take (k + 2) = renames base := take_of_length_le (by simp [renames])
    rw [hall, ← hlog]
    simp [renames, after_cons, after_nil, FsStep.apply, Dir.logAt, Dir.get?_rename, logName_ne_indexName _ _ _ _, ↓reduceIte]

/-- What a crash leaves of a directory without placeholders: the first `i` sealed segments are gone, and
    `placed` counts where no canonical log file has its base. -/
structure Leaves (d : Dir) (cs : List Chunk) (base : Int) (i : Nat) (placed : Option Bytes) (d' : Dir) : Prop where
  distinct : d'.names.Nodup
  logs : ∀ b, d'.logAt b =
    (if b ∈ (cs.take i).map Chunk.base then none else d.logAt b).or (if b = base then placed else none)

theorem logAt_of_no_placeholder (clean : ∀ b, d.get? (segmentLogName b true) = none) (b : Int) :
    d.logAt b = d.get? (segmentLogName b false) := by rw [Dir.logAt, clean, Option.or_none]

variable {cs : List Chunk} {data : Bytes} {rs : List Record} {c : Chunk}

section
variable {d : Dir} (distinct : d.names.Nodup) (clean : ∀ b, d.get? (segmentLogName b true) = none)
include distinct clean

theorem crash_of_removals
    (cs : List Chunk) (base : Int) (k : Nat) : ∃ i, Leaves d cs base i none (after d ((removals cs).take k)) := by
  obtain ⟨i, -, -, hcanon, hplace⟩ := removals_take cs k d
  refine ⟨i, after_distinct distinct _, fun b => ?_⟩
  rw [Dir.logAt, hcanon, hplace, clean, logAt_of_no_placeholder clean, ite_self, Option.or_none]

/-- Segments go only once the placeholder is whole. -/
theorem crash_of_rewrite
    {base : Int} (gone : base ∈ cs.map Chunk.base ∨ d.get? (segmentLogName base false) = none)
    (data idx : Bytes) (k : Nat) :
    ∃ i placed, Leaves d cs base i placed (after d ((placements base data idx ++ removals cs ++ renames base).take k)) ∧
      (placed = some data ∨ i = 0) := by
  have hlen : (placements base data idx).length = data.length + 2 := by simp [placements]
  obtain ⟨hcanon, hother, hplace⟩ := placements_take base data idx k (clean base)
  have hdistinct := after_distinct distinct ((placements base data idx ++ removals cs ++ renames base).take k)
  rw [take_append, take_append, after_append, after_append] at hdistinct ⊢
  by_cases hk : k ≤ (placements base data idx).length
  · rw [Nat.sub_eq_zero_of_le hk, Nat.sub_eq_zero_of_le (by rw [length_append]; omega), take_zero, take_zero,
      after_nil, after_nil] at hdistinct ⊢
    refine ⟨0, if k = 0 then none else some (data.take (k - 1)), ⟨hdistinct, fun b => ?_⟩, Or.inr rfl⟩
    rw [Dir.logAt, hcanon, logAt_of_no_placeholder clean]
    by_cases hb : b = base
    · rw [hb, hplace]
      simp
    · rw [hother b hb, clean]
      simp [hb]
  · have hdata : data.take (k - 1) = data := take_of_length_le (by omega)
    rw [if_neg (by omega), hdata] at hplace
    obtain ⟨i, -, hall, hcanon', hplace'⟩ := removals_take cs (k - (placements base data idx).length)
      (after d ((placements base data idx).take k))
    have hlogs : ∀ b, (after (after d ((placements base data idx).take k))
        ((removals cs).take (k - (placements base data idx).length))).logAt b =
          (if b ∈ (cs.take i).map Chunk.base then none else d.logAt b).or (if b = base then some data else none) := by
      intro b
      rw [Dir.logAt, hcanon', hplace', hcanon, logAt_of_no_placeholder clean]
      by_cases hb : b = base
      · rw [hb, hplace]
        simp
      · rw [hother b hb, clean]
        simp [hb]
    refine ⟨i, some data, ⟨hdistinct, fun b => ?_⟩, Or.inl rfl⟩
    rw [← hlogs]
    by_cases hk' : k ≤ (placements base data idx).length + (removals cs).length
    · have hnone : k - (placements base data idx ++ removals cs).length = 0 := by
        rw [length_append]
        omega
      rw [hnone, take_zero, after_nil]
    · -- Every sealed segment is gone, so the placeholder's canonical name is free.
      refine renames_take base _ ?_ b
      rw [hcanon', hcanon, hall (by omega), take_length]
      rcases gone with h | h
      · rw [if_pos h]
      · simp [h]

end

def wholeFrames (n : Nat) : List Record → List Record
  | [] => []
  | r :: rs => if (encodeRecord r).length ≤ n then r :: wholeFrames (n - (encodeRecord r).length) rs else []

theorem wholeFrames_initial (n : Nat) (rs : List Record) : wholeFrames n rs <+: rs := by
  induction rs generalizing n with
  | nil => exact prefix_refl []
  | cons r rs ih =>
    rw [wholeFrames]
    split
    · exact cons_prefix_cons.mpr ⟨rfl, ih _⟩
    · exact nil_prefix

theorem Image.cons (h : Image rs data) (r : Record) : Image (r :: rs) (encodeRecord r ++ data) := by
  rcases h with rfl | ⟨x, k, fits, hpos, hk, rfl⟩
  · exact Or.inl rfl
  · exact Or.inr ⟨x, k, fits, hpos, hk, by rw [frames_cons, append_assoc]⟩

theorem image_of_prefix (fits : ∀ r ∈ rs, Fits r) (h : data <+: frames rs) :
    Image (wholeFrames data.length rs) data := by
  induction rs generalizing data with
  | nil =>
    rw [frames_nil, prefix_nil] at h
    exact Or.inl h
  | cons r rs ih =>
    rw [frames_cons] at h
    rw [wholeFrames]
    by_cases hlen : (encodeRecord r).length ≤ data.length
    · obtain ⟨rest, rfl⟩ : encodeRecord r <+: data := prefix_of_prefix_length_le (prefix_append _ _) h hlen
      rw [if_pos hlen, length_append, Nat.add_sub_cancel_left]
      exact (ih (fun x hx => fits x (mem_cons_of_mem r hx)) ((prefix_append_right_inj _).mp h)).cons r
    · rw [if_neg hlen]
      have hdata : data = (encodeRecord r).take data.length := by
        have htake := prefix_iff_eq_take.mp h
        rwa [take_append_of_le_length (by omega)] at htake
      rcases Nat.eq_zero_or_pos data.length with hzero | hpos
      · exact Or.inl (length_eq_zero_iff.mp hzero)
      · exact Or.inr ⟨r, data.length, fits r mem_cons_self, hpos, by omega, by simpa using hdata⟩

def Chunk.cut (c : Chunk) (n : Nat) : Chunk := ⟨c.base, wholeFrames n c.records⟩

theorem Stored.cut (h : Stored c.base c.records) (n : Nat) : Stored (c.cut n).base (c.cut n).records := by
  obtain ⟨rest, hrest⟩ := wholeFrames_initial n c.records
  rw [← hrest] at h
  exact h.of_append_left

namespace PartitionLog

variable {p : PartitionLog} {cs : List Chunk} {c : Chunk}

def durable (p : PartitionLog) (c : Chunk) : Chunk := c.cut p.active.logFile.data.length

theorem Holds.cut (h : p.Holds cs c) : Layout (cs ++ [p.durable c]) :=
  Layout.replace_last h.layout rfl (Stored.cut (h.layout.stored c (by simp)) _)

theorem Holds.dir_onDisk (h : p.Holds cs c) : OnDisk p.dir cs (p.durable c) := by
  refine files_onDisk h.cut h.flushed h.active.base h.active.canonical ?_
  exact image_of_prefix (h.layout.stored c (by simp)).fits ⟨_, h.active.holds.content⟩

theorem Covers.clean (h : p.Covers cs c) (b : Int) : p.dir.get? (segmentLogName b true) = none :=
  Dir.get?_eq_none_iff.mpr fun hin => Bool.noConfusion (files_canonical h.canonical _ hin)

end PartitionLog

theorem Layout.split (h : Layout (cs ++ [c])) (i : Nat) :
    Layout (cs.drop i ++ [c]) ∧ ∀ x ∈ cs.take i, ∀ y ∈ cs.drop i ++ [c], x.base < y.base ∧ x.next ≤ y.base := by
  rw [← take_append_drop i cs, append_assoc] at h
  exact (append_iff.mp h).2

section Leaves

variable {d d' : Dir} {cs : List Chunk} {c : Chunk} {base : Int} {i : Nat} {placed : Option Bytes}

section
variable (h : Leaves d cs base i placed d')
include h

theorem Leaves.logAt_rest (layout : Layout (cs ++ [c])) {x : Chunk}
    (hx : x ∈ cs.drop i ++ [c]) (hdata : d.logAt x.base = some data) : d'.logAt x.base = some data := by
  have hnot : x.base ∉ (cs.take i).map Chunk.base := by
    intro hin
    obtain ⟨y, hy, heq⟩ := mem_map.mp hin
    exact absurd heq (Int.ne_of_lt ((layout.split i).2 y hy x hx).1)
  rw [h.logs, if_neg hnot, hdata, Option.some_or]

theorem Leaves.isSome_rest (disk : OnDisk d cs c) (layout : Layout (cs ++ [c])) {b : Int}
    (hb : b ∈ (cs.drop i ++ [c]).map Chunk.base) : (d'.logAt b).isSome := by
  obtain ⟨x, hx, rfl⟩ := mem_map.mp hb
  have hin : x ∈ cs ++ [c] := by
    rw [← take_append_drop i cs, append_assoc]
    exact mem_append_right _ hx
  obtain ⟨data, hdata⟩ := Option.isSome_iff_exists.mp ((disk.logs x.base).mpr (mem_map_of_mem hin))
  rw [h.logAt_rest layout hx hdata]
  rfl

/-- The remaining segments, when the placeholder does not count. -/
theorem Leaves.onDisk_rest (disk : OnDisk d cs c) (layout : Layout (cs ++ [c]))
    (idle : placed = none ∨ base ∈ (cs.drop i).map Chunk.base) : OnDisk d' (cs.drop i) c := by
  obtain ⟨hrest, horder⟩ := layout.split i
  refine ⟨hrest.stored, hrest.bases, h.distinct, fun b => ?_, fun x hx => ?_, ?_⟩
  · constructor
    · intro hsome
      rw [h.logs] at hsome
      by_cases hb : b ∈ (cs.take i).map Chunk.base
      · rw [if_pos hb] at hsome
        rcases idle with rfl | hbase
        · simp at hsome
        · by_cases heq : b = base
          · rw [heq, map_append]
            exact mem_append_left _ hbase
          · simp [heq] at hsome
      · by_cases heq : b = base ∧ placed ≠ none
        · rw [heq.1, map_append]
          exact mem_append_left _ (idle.resolve_left heq.2)
        · have hnone : (if b = base then placed else none) = none := by
            by_cases hbb : b = base
            · rw [if_pos hbb]
              exact not_not.mp fun hne => heq ⟨hbb, hne⟩
            · rw [if_neg hbb]
          rw [if_neg hb, hnone, Option.or_none, disk.logs, ← take_append_drop i cs, append_assoc, map_append,
            mem_append] at hsome
          exact hsome.resolve_left hb
    · exact h.isSome_rest disk layout
  · exact h.logAt_rest layout (mem_append_left _ hx) (disk.sealed x (mem_of_mem_drop hx))
  · obtain ⟨data, hdata, himage⟩ := disk.active
    exact ⟨data, h.logAt_rest layout (by simp) hdata, himage⟩

end

/-- The placeholder stands for the segment of its base once that one is gone. -/
theorem Leaves.onDisk_promoted {live : List Record} (h : Leaves d cs base i (some (frames live)) d') (disk : OnDisk d cs c)
    (layout : Layout (cs ++ [c])) (gone : base ∈ (cs.take i).map Chunk.base) (stored : Stored base live) :
    OnDisk d' (⟨base, live⟩ :: cs.drop i) c := by
  obtain ⟨hrest, horder⟩ := layout.split i
  have hlow : ∀ y ∈ cs.drop i ++ [c], base < y.base := by
    intro y hy
    obtain ⟨x, hx, rfl⟩ := mem_map.mp gone
    exact (horder x hx y hy).1
  have hplaced : d'.logAt base = some (frames live) := by
    rw [h.logs, if_pos gone, if_pos rfl, Option.none_or]
  refine ⟨?_, ?_, h.distinct, fun b => ?_, ?_, ?_⟩
  · intro x hx
    rcases mem_cons.mp hx with rfl | hx
    · exact stored
    · exact hrest.stored x hx
  · rw [cons_append, map_cons, pairwise_cons]
    refine ⟨fun b hb => ?_, hrest.bases⟩
    obtain ⟨y, hy, rfl⟩ := mem_map.mp hb
    exact hlow y hy
  · rw [cons_append, map_cons, mem_cons]
    constructor
    · intro hsome
      rw [h.logs] at hsome
      by_cases hb : b = base
      · exact Or.inl hb
      · rw [if_neg hb, Option.or_none] at hsome
        by_cases hbt : b ∈ (cs.take i).map Chunk.base
        · rw [if_pos hbt] at hsome
          cases hsome
        · rw [if_neg hbt, disk.logs, ← take_append_drop i cs, append_assoc, map_append, mem_append] at hsome
          exact Or.inr (hsome.resolve_left hbt)
    · rintro (rfl | hb)
      · rw [hplaced]
        rfl
      · exact h.isSome_rest disk layout hb
  · intro x hx
    rcases mem_cons.mp hx with rfl | hx
    · exact hplaced
    · exact h.logAt_rest layout (mem_append_left _ hx) (disk.sealed x (mem_of_mem_drop hx))
  · obtain ⟨data, hdata, himage⟩ := disk.active
    exact ⟨data, h.logAt_rest layout (by simp) hdata, himage⟩

end Leaves

theorem length_records_le {ss : List Segment} (rep : Forall₂ Segment.Represents ss cs) :
    (records cs).length ≤ (ss.map Segment.size).sum := by
  induction rep with
  | nil => exact Nat.le_refl 0
  | @cons s c ss cs hs _ ih =>
    have := length_le_frames c.records
    rw [records_cons, length_append, map_cons, sum_cons, hs.holds.size]
    omega

theorem length_since_le (n : Int) (rs : List Record) : (since n rs).length ≤ rs.length := length_filter_le _ rs

namespace PartitionLog

variable {p : PartitionLog} {cs : List Chunk} {c first : Chunk} {low batch : Int}

theorem Holds.readToEnd (h : p.Holds cs c) (hb : 0 < batch) (n : Int) :
    p.readToEnd batch n = .ok ((since n (records (cs ++ [c]))).map Record.norm) := by
  have hlen := length_records_le h.segments
  have hfuel : (since n (records (cs ++ [c]))).length < (p.segments.map Segment.size).sum + 1 := by
    have := length_since_le n (records (cs ++ [c]))
    omega
  obtain ⟨p', hdrain, -⟩ := drain_exact (fun p => p.Holds cs c) n h.layout.ascending (m := batch.toNat) (by omega)
    (fun p n _ hp => by
      obtain ⟨p', hread, hp', -⟩ := hp.read (n := n) hb
      exact ⟨p', hread, hp'⟩) _ p n (Int.le_refl n) hfuel h
  rw [PartitionLog.readToEnd, hdrain]

theorem Overlaps.readToEnd (h : p.Overlaps first cs c low) (hb : 0 < batch) (n : Int) :
    ∃ l, p.readToEnd batch n = .ok (l.map Record.norm) ∧ Spliced first.records (records (cs ++ [c])) low n l := by
  have hlen := length_records_le h.covers.segments
  rw [cons_append, records_cons, length_append] at hlen
  have h₁ := length_since_le n first.records
  have h₂ := length_since_le n (records (cs ++ [c]))
  obtain ⟨l, p', hdrain, hspliced⟩ := h.drain hb ((p.segments.map Segment.size).sum + 1) n (by omega)
  exact ⟨l, by rw [PartitionLog.readToEnd, hdrain], hspliced⟩

end PartitionLog

end Holocron.Log

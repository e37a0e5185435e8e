import Mathlib.Data.List.Flatten
import Holocron.Theorems.Log.Crash
import Holocron.Theorems.Log.Run

/-! Crash safety of compaction. A crash can lose the write buffer, or leave a cut placeholder that stops the partition
    from opening. -/

namespace Holocron.Log
open Lib List

theorem since_norm (n : Int) (rs : List Record) :
    (since n rs).map Record.norm = (rs.map Record.norm).filter fun r => decide (n ≤ keying.rank r) := by
  rw [filter_map]
  rfl

theorem sealedRecords_append (a b : List Chunk) : sealedRecords (a ++ b) = sealedRecords a ++ sealedRecords b := by
  rw [sealedRecords, records_append, map_append]
  rfl

variable {cs : List Chunk} {r : Record} {c : Chunk}

theorem Layout.returned_ascending (h : Layout cs) : keying.Ascending (sealedRecords cs) :=
  norm_ascending h.ascending

theorem mem_sealedRecords : r ∈ sealedRecords cs ↔ ∃ x ∈ cs, ∃ a ∈ x.records, a.norm = r := by
  simp only [sealedRecords, mem_map, mem_records]
  constructor
  · rintro ⟨a, ⟨x, hx, ha⟩, rfl⟩
    exact ⟨x, hx, a, ha, rfl⟩
  · rintro ⟨x, hx, a, ha, rfl⟩
    exact ⟨a, ⟨x, hx, ha⟩, rfl⟩

theorem Layout.lt_of_dropped (h : Layout (cs ++ [c])) {i : Nat}
    (hr : r ∈ sealedRecords (cs.take i)) {y : Chunk} (hy : y ∈ cs.drop i ++ [c]) : r.offset < y.base := by
  obtain ⟨x, hx, a, ha, rfl⟩ := mem_sealedRecords.mp hr
  have hlt := h.lt_next (mem_append_left _ (mem_of_mem_take hx)) a ha
  have := ((h.split i).2 x hx y hy).2
  rw [Record.norm_offset]
  omega

theorem sealedRecords_split (cs : List Chunk) (c : Chunk) (i : Nat) :
    sealedRecords (cs ++ [c]) = sealedRecords (cs.take i) ++ sealedRecords (cs.drop i) ++ sealedRecords [c] := by
  rw [← sealedRecords_append, take_append_drop, sealedRecords_append]

/-- Dropping the first `i` chunks hides nothing live if no live record is in them. -/
theorem live_of_rest (h : Layout (cs ++ [c])) (i : Nat)
    (kept : ∀ r, keying.Retained (sealedRecords cs) r → r ∈ sealedRecords (cs.drop i)) (n : Int) (k : Bytes) :
    keying.live k ((since n (records (cs.drop i ++ [c]))).map Record.norm) =
      keying.live k ((since n (records (cs ++ [c]))).map Record.norm) := by
  have hcs : sealedRecords (cs.take i) ++ sealedRecords (cs.drop i) = sealedRecords cs := by
    rw [← sealedRecords_append, take_append_drop]
  rw [since_norm, since_norm, ← sealedRecords, ← sealedRecords, sealedRecords_split cs c i, sealedRecords_append]
  refine Keying.live_splice (x := n) (sealedRecords_split cs c i ▸ h.returned_ascending) ?_ (Int.le_refl n) ?_ ?_
    (fun _ _ hn => hn) k
  · rw [← sealedRecords_append]
    exact (h.split i).1.returned_ascending.filter _
  · intro a
    rw [mem_filter, decide_eq_true_eq]
    constructor
    · exact Or.inr
    · rintro (⟨-, h₁, h₂⟩ | h)
      · omega
      · exact h
  · intro a ha _
    exact kept a (hcs ▸ ha)

/-- So does a placeholder with the live records before the chunks that remain, wherever a read changes over. -/
theorem live_of_promoted (h : Layout (cs ++ [c])) {i : Nat} {low : Int}
    (hlow : ∀ r ∈ sealedRecords (cs.take i), r.offset < low) {n : Int} {l : List Record}
    (spliced : Spliced (liveRecords (sealedRecords cs)) (records (cs.drop i ++ [c])) low n l) (k : Bytes) :
    keying.live k (l.map Record.norm) = keying.live k ((since n (records (cs ++ [c]))).map Record.norm) := by
  obtain ⟨x, hnx, rfl, hreach, hend⟩ := spliced
  have hcs : sealedRecords (cs.take i) ++ sealedRecords (cs.drop i) = sealedRecords cs := by
    rw [← sealedRecords_append, take_append_drop]
  have hsealed : (sealedRecords cs).Pairwise fun a b => a.offset < b.offset := (Layout.append_iff.mp h).1.returned_ascending
  have hlive : ∀ r, r ∈ liveRecords (sealedRecords cs) ↔ keying.Retained (sealedRecords cs) r :=
    fun r => mem_liveRecords hsealed
  have hin : ∀ r, keying.Retained (sealedRecords cs) r → r ∈ sealedRecords cs := by
    rintro r ⟨k, hk⟩
    exact (live_key hk).1
  have hall := h.returned_ascending
  have hafter : ∀ r ∈ sealedRecords cs, ∀ a ∈ sealedRecords [c], r.offset < a.offset := by
    rw [sealedRecords_append] at hall
    exact fun r hr a ha => hall.rank_lt hr ha
  -- Live records come out of a read already, so reading them again changes nothing.
  have hnorm : (between n x (liveRecords (sealedRecords cs))).map Record.norm =
      between n x (liveRecords (sealedRecords cs)) := by
    refine (map_congr_left fun r hr => ?_).trans (map_id _)
    obtain ⟨y, hy, a, ha, rfl⟩ := mem_sealedRecords.mp (hin r ((hlive r).mp (mem_between.mp hr).1))
    exact a.norm_norm
  rw [map_append, since_norm, since_norm, ← sealedRecords, ← sealedRecords, sealedRecords_split cs c i,
    sealedRecords_append, hnorm]
  refine Keying.live_splice (x := x) (sealedRecords_split cs c i ▸ hall) ?_ hnx ?_ ?_ ?_ k
  · refine pairwise_append.mpr ⟨(hsealed.filter _).filter _, ?_, fun a ha b hb => ?_⟩
    · rw [← sealedRecords_append]
      exact (h.split i).1.returned_ascending.filter _
    · have h₁ := (mem_between.mp ha).2.2
      have h₂ := of_decide_eq_true (mem_filter.mp hb).2
      exact Int.lt_of_lt_of_le h₁ h₂
  · intro a
    rw [mem_append, mem_between, hlive, hcs, mem_filter, decide_eq_true_eq]
    rfl
  · -- Below `low` only dropped chunks have live records; they are all in the placeholder.
    intro a ha hx
    rw [hcs] at ha
    rcases hreach with hreach | hreach
    · have hmem := hin a ha
      rw [← hcs] at hmem
      refine (mem_append.mp hmem).resolve_left fun hdropped => ?_
      have h₁ := hlow a hdropped
      have h₂ : x ≤ a.offset := hx
      omega
    · have h₁ := hreach a ((hlive a).mpr ha)
      have h₂ : x ≤ a.offset := hx
      omega
  · intro a ha hn
    rcases hend with rfl | ⟨r, hr, rfl⟩
    · exact hn
    · have := hafter r (hin r ((hlive r).mp hr)) a ha
      rw [keying_rank]
      omega

namespace PartitionLog

variable {p : PartitionLog} {cs : List Chunk} {c : Chunk} {base : Int}

/-- The directory opens, and reading from any offset to the end then shows the same live record of every
    key as it does in `p`. -/
def Recovers (p : PartitionLog) (d : Dir) : Prop :=
  ∀ maxBytes, ∃ q, openPartition d maxBytes = .ok q ∧ ∀ batch n, 0 < batch →
    ∃ before after, p.readToEnd batch n = .ok before ∧ q.readToEnd batch n = .ok after ∧
      ∀ key, keying.live key after = keying.live key before

/-- Compaction succeeds, and the partition recovers wherever it crashes. -/
def CrashSafe (p : PartitionLog) : Prop :=
  ∃ steps p', p.compact = .ok (steps, p') ∧ ∀ k ≤ steps.length, p.Recovers (p.crashed steps k)

/-- The write buffer holds nothing that matters: what is in the files shows the same live records. -/
def Durable (p : PartitionLog) (cs : List Chunk) (c : Chunk) : Prop :=
  ∀ key, keying.live key (sealedRecords (cs ++ [p.durable c])) = keying.live key (sealedRecords (cs ++ [c]))

/-- The lowest live offset of the sealed segments is the base of one of them. -/
def Aligned (cs : List Chunk) : Prop :=
  ∀ r ∈ liveRecords (sealedRecords cs), (∀ x ∈ liveRecords (sealedRecords cs), r.offset ≤ x.offset) →
    r.offset ∈ cs.map Chunk.base

/-- What is live in the sealed segments fits one segment: its bytes and its offsets within 32 bits. -/
def Mergeable (cs : List Chunk) : Prop :=
  (frames (liveRecords (sealedRecords cs))).length < 2 ^ 32 ∧
    ∀ a ∈ liveRecords (sealedRecords cs), ∀ b ∈ liveRecords (sealedRecords cs), b.offset - a.offset < 2 ^ 32

theorem stored_live (layout : Layout cs) (h : Mergeable cs) (hbase : ∃ r ∈ liveRecords (sealedRecords cs), r.offset = base)
    (hle : ∀ r ∈ liveRecords (sealedRecords cs), base ≤ r.offset) : Stored base (liveRecords (sealedRecords cs)) := by
  have hmem : ∀ r ∈ liveRecords (sealedRecords cs), ∃ a ∈ records cs, a.norm = r := fun r hr =>
    mem_map.mp (mem_of_mem_filter hr)
  refine ⟨⟨fun r hr => ?_, layout.returned_ascending.filter _, hle, h.1⟩, fun r hr => ?_⟩
  · obtain ⟨a, ha, rfl⟩ := hmem r hr
    obtain ⟨x, hx, ha⟩ := mem_records.mp ha
    exact ((layout.stored x hx).fits a ha).norm
  · obtain ⟨r₀, hr₀, rfl⟩ := hbase
    exact h.2 r₀ hr₀ r hr

/-- What a reader sees depends on the write buffer only as `Durable` says. -/
theorem Durable.live_since (h : p.Durable cs c) (layout : Layout (cs ++ [c])) (cut : Layout (cs ++ [p.durable c]))
    (n : Int) (k : Bytes) : keying.live k ((since n (records (cs ++ [p.durable c]))).map Record.norm) =
      keying.live k ((since n (records (cs ++ [c]))).map Record.norm) := by
  rw [since_norm, since_norm]
  exact (Keying.live_from cut.returned_ascending n k).trans
    ((congrArg _ (h k)).trans (Keying.live_from layout.returned_ascending n k).symm)

section Recovery

variable {base : Int} {i : Nat} {placed : Option Bytes} {d : Dir}

theorem Holds.recovers_rest (h : p.Holds cs c) (durable : p.Durable cs c) (leaves : Leaves p.dir cs base i placed d)
    (idle : placed = none ∨ base ∈ (cs.drop i).map Chunk.base)
    (kept : ∀ r, keying.Retained (sealedRecords cs) r → r ∈ sealedRecords (cs.drop i)) : p.Recovers d := by
  intro maxBytes
  obtain ⟨q, hopen, hcovers, -, -⟩ := openPartition_onDisk (leaves.onDisk_rest h.dir_onDisk h.cut idle) maxBytes
  have hq : q.Holds (cs.drop i) (p.durable c) := ⟨hcovers, (h.cut.split i).1⟩
  refine ⟨q, hopen, fun batch n hb => ⟨_, _, h.readToEnd hb n, hq.readToEnd hb n, fun key => ?_⟩⟩
  rw [live_of_rest h.cut i kept, durable.live_since h.layout h.cut]

theorem Holds.recovers_promoted (h : p.Holds cs c) (durable : p.Durable cs c)
    (leaves : Leaves p.dir cs base i (some (frames (liveRecords (sealedRecords cs)))) d)
    (gone : base ∈ (cs.take i).map Chunk.base) (stored : Stored base (liveRecords (sealedRecords cs))) : p.Recovers d := by
  intro maxBytes
  have hdisk := leaves.onDisk_promoted h.dir_onDisk h.cut gone stored
  obtain ⟨q, hopen, hcovers, -, -⟩ := openPartition_onDisk hdisk maxBytes
  obtain ⟨y, hy⟩ : ∃ y, (cs.drop i ++ [p.durable c])[0]? = some y := by
    cases cs.drop i with
    | nil => exact ⟨_, rfl⟩
    | cons y ys => exact ⟨y, rfl⟩
  have hq : q.Overlaps ⟨base, liveRecords (sealedRecords cs)⟩ (cs.drop i) (p.durable c) y.base :=
    ⟨hcovers, (h.cut.split i).1, hdisk.ascending, y, hy, rfl⟩
  refine ⟨q, hopen, fun batch n hb => ?_⟩
  obtain ⟨l, hread, hspliced⟩ := hq.readToEnd hb n
  refine ⟨_, _, h.readToEnd hb n, hread, fun key => ?_⟩
  rw [live_of_promoted h.cut (fun r hr => h.cut.lt_of_dropped hr (mem_of_getElem? hy)) hspliced,
    durable.live_since h.layout h.cut]

end Recovery

theorem Holds.crashSafe (h : p.Holds cs c) (nonneg : ∀ r ∈ records cs, 0 ≤ r.offset) (durable : p.Durable cs c)
    (aligned : Aligned cs) (mergeable : Mergeable cs) : p.CrashSafe := by
  have layout := (Layout.append_iff.mp h.layout).1
  have asc : (sealedRecords cs).Pairwise fun a b => a.offset < b.offset := layout.returned_ascending
  have distinct := h.dir_onDisk.distinct
  by_cases hlive : liveRecords (sealedRecords cs) = []
  · have hnone : ∀ r, ¬ keying.Retained (sealedRecords cs) r := fun r hr => by
      have := (mem_liveRecords asc).mpr hr
      rw [hlive] at this
      cases this
    by_cases hcs : cs = []
    · subst hcs
      refine ⟨[], p, h.compact_nothing, fun k _ => ?_⟩
      have hleaves : Leaves p.dir [] 0 0 none (p.crashed [] k) :=
        ⟨by simpa [crashed] using distinct, fun b => by simp [crashed]⟩
      exact h.recovers_rest durable hleaves (Or.inl rfl) fun r hr => absurd hr (hnone r)
    · have hcompact := h.compact_drop hcs hlive
      refine ⟨_, _, hcompact, fun k _ => ?_⟩
      obtain ⟨i, hleaves⟩ := crash_of_removals distinct h.clean cs 0 k
      exact h.recovers_rest durable hleaves (Or.inl rfl) fun r hr => absurd hr (hnone r)
  · obtain ⟨base, idx, s, -, hcompact, ⟨r₀, hr₀, hbase⟩, hle⟩ := h.compact_rewrite nonneg hlive
    have hin : base ∈ cs.map Chunk.base := hbase ▸ aligned r₀ hr₀ fun x hx => hbase ▸ hle x hx
    refine ⟨_, _, hcompact, fun k _ => ?_⟩
    obtain ⟨i, placed, hleaves, hwhole⟩ := crash_of_rewrite distinct h.clean (Or.inl hin)
      (frames (liveRecords (sealedRecords cs))) idx k
    rw [← take_append_drop i cs, map_append, mem_append] at hin
    rcases hin with hin | hin
    · -- The segment of that base is gone, so the placeholder is whole and takes its place.
      have hpos : i ≠ 0 := by
        rintro rfl
        cases hin
      obtain rfl := hwhole.resolve_right hpos
      exact h.recovers_promoted durable hleaves hin (stored_live layout mergeable ⟨r₀, hr₀, hbase⟩ hle)
    · refine h.recovers_rest durable hleaves (Or.inr hin) fun r hr => ?_
      have hmem : r ∈ sealedRecords (cs.take i) ++ sealedRecords (cs.drop i) := by
        rw [← sealedRecords_append, take_append_drop]
        obtain ⟨k, hk⟩ := hr
        exact (live_key hk).1
      refine (mem_append.mp hmem).resolve_left fun hdropped => ?_
      obtain ⟨y, hy, rfl⟩ := mem_map.mp hin
      have h₁ := h.layout.lt_of_dropped hdropped (mem_append_left _ hy)
      have h₂ := hle r ((mem_liveRecords asc).mpr hr)
      omega

/-- A crash before the first step already loses the write buffer. -/
theorem Holds.durable_of_crashSafe (h : p.Holds cs c) (nonneg : ∀ r ∈ records (cs ++ [c]), 0 ≤ r.offset)
    (safe : p.CrashSafe) : p.Durable cs c := by
  obtain ⟨steps, p', -, hrecovers⟩ := safe
  obtain ⟨q, hopen, hread⟩ := hrecovers 0 (Nat.zero_le _) 0
  obtain ⟨q', hopen', hcovers, -, -⟩ := openPartition_onDisk h.dir_onDisk 0
  obtain rfl : q' = q := Except.ok.inj (hopen'.symm.trans hopen)
  have hq : q'.Holds cs (p.durable c) := ⟨hcovers, h.cut⟩
  obtain ⟨before, after, hbefore, hafter, hlive⟩ := hread 1 0 Int.one_pos
  rw [h.readToEnd Int.one_pos, since_eq_self nonneg] at hbefore
  rw [hq.readToEnd Int.one_pos, since_eq_self] at hafter
  · cases hbefore
    cases hafter
    exact hlive
  · intro r hr
    refine nonneg r ?_
    rw [records_append, mem_append] at hr ⊢
    refine hr.imp_right fun hr => ?_
    rw [records_cons, records_nil, append_nil] at hr ⊢
    exact (wholeFrames_initial _ _).subset hr

/-- A cut frame in a segment that is not the last stops the open. -/
theorem openSegments_torn {d : Dir} (maxBytes : Int) {a : List Chunk} {bases : List Int} (hbases : bases ≠ [])
    (stored : ∀ x ∈ a, Stored x.base x.records)
    (sealed : ∀ x ∈ a, d.get? (segmentLogName x.base false) = some (frames x.records)) (fits : Fits r)
    (torn : d.get? (segmentLogName base false) = some ((encodeRecord r).take 1)) :
    openSegments d maxBytes (a.map Chunk.base ++ base :: bases) = .error .truncate := by
  induction a with
  | nil =>
    have htail : Torn ((encodeRecord r).take 1) := torn_take fits Nat.one_pos (by rw [length_encodeRecord]; omega)
    have hopen := Segment.openSegment_tail_readOnly (Stored.nil base) maxBytes (d.get? (segmentIndexName base false)) htail
    have hmore : bases.isEmpty = false := isEmpty_eq_false_iff.mpr hbases
    simp only [frames_nil, nil_append] at hopen
    simp [openSegments, torn, hmore, hopen, bind, Except.bind]
  | cons x a ih =>
    obtain ⟨s, hopen, -, -⟩ := Segment.openSegment_frames (stored x mem_cons_self) maxBytes
      (d.get? (segmentIndexName x.base false)) false
    have hmore : (a.map Chunk.base ++ base :: bases).isEmpty = false := by simp
    have hrest := ih (fun y hy => stored y (mem_cons_of_mem x hy)) (fun y hy => sealed y (mem_cons_of_mem x hy))
    simp [openSegments, sealed x mem_cons_self, hmore, hopen, hrest, bind, Except.bind]

/-- A cut placeholder at a base of its own, below the active segment, stops the open. -/
theorem openPartition_torn {d : Dir} (disk : OnDisk d cs c) (fresh : base ∉ cs.map Chunk.base) (hlt : base < c.base)
    (fits : Fits r) {d' : Dir} (leaves : Leaves d cs base 0 (some ((encodeRecord r).take 1)) d') (maxBytes : Int) :
    openPartition d' maxBytes = .error .truncate := by
  have hlogs : ∀ b, d'.logAt b = (d.logAt b).or (if b = base then some ((encodeRecord r).take 1) else none) := fun b => by
    rw [leaves.logs, take_zero, map_nil, if_neg not_mem_nil]
  have hascending := disk.ascending
  rw [map_append] at hascending
  obtain ⟨hcs, -, hactive⟩ := pairwise_append.mp hascending
  -- The bases found: those below the placeholder's, its own, and the rest with the active one.
  let below := cs.filter fun x => decide (x.base < base)
  let above := cs.filter fun x => decide (base < x.base)
  have hsub : ∀ f, ((cs.filter f).map Chunk.base).Pairwise (· < ·) := fun f =>
    hcs.sublist (filter_sublist.map Chunk.base)
  have hmem : ∀ b, b ∈ below.map Chunk.base ++ base :: (above.map Chunk.base ++ [c.base]) ↔
      b ∈ (cs ++ [c]).map Chunk.base ∨ b = base := by
    intro b
    simp only [map_append, map_singleton, mem_append, mem_cons, mem_map, mem_filter,
      decide_eq_true_eq, below, above, not_mem_nil, or_false]
    constructor
    · rintro (⟨x, ⟨hx, -⟩, rfl⟩ | rfl | ⟨x, ⟨hx, -⟩, rfl⟩ | rfl)
      · exact Or.inl (Or.inl ⟨x, hx, rfl⟩)
      · exact Or.inr rfl
      · exact Or.inl (Or.inl ⟨x, hx, rfl⟩)
      · exact Or.inl (Or.inr rfl)
    · rintro ((⟨x, hx, rfl⟩ | rfl) | rfl)
      · rcases Int.lt_trichotomy x.base base with h | h | h
        · exact Or.inl ⟨x, ⟨hx, h⟩, rfl⟩
        · exact Or.inr (Or.inl h)
        · exact Or.inr (Or.inr (Or.inl ⟨x, ⟨hx, h⟩, rfl⟩))
      · exact Or.inr (Or.inr (Or.inr rfl))
      · exact Or.inr (Or.inl rfl)
  have hsorted : (below.map Chunk.base ++ base :: (above.map Chunk.base ++ [c.base])).Pairwise (· < ·) := by
    refine pairwise_append.mpr ⟨hsub _, pairwise_cons.mpr ⟨?_, pairwise_append.mpr
      ⟨hsub _, pairwise_singleton _ _, ?_⟩⟩, ?_⟩
    · intro b hb
      rcases mem_append.mp hb with hb | hb
      · obtain ⟨x, hx, rfl⟩ := mem_map.mp hb
        exact of_decide_eq_true (mem_filter.mp hx).2
      · rwa [mem_singleton.mp hb]
    · intro a ha b hb
      obtain ⟨x, hx, rfl⟩ := mem_map.mp ha
      exact hactive x.base (mem_map_of_mem (mem_of_mem_filter hx)) b hb
    · intro a ha b hb
      obtain ⟨x, hx, rfl⟩ := mem_map.mp ha
      have hx' := of_decide_eq_true (mem_filter.mp hx).2
      rcases mem_cons.mp hb with rfl | hb
      · exact hx'
      rcases mem_append.mp hb with hb | hb
      · obtain ⟨y, hy, rfl⟩ := mem_map.mp hb
        exact Int.lt_trans hx' (of_decide_eq_true (mem_filter.mp hy).2)
      · rw [mem_singleton.mp hb]
        exact Int.lt_trans hx' hlt
  have hbases := discoverSegments_eq (recover_distinct leaves.distinct) hsorted fun b => by
    rw [recover_log, hlogs, hmem, ← disk.logs]
    by_cases hb : b = base <;> simp [hb]
  have hnone : d.logAt base = none := by
    rw [← Option.not_isSome_iff_eq_none, disk.logs, map_append, mem_append]
    rintro (h | h)
    · exact fresh h
    · exact absurd (mem_singleton.mp h) (Int.ne_of_lt hlt)
  have hopen : openSegments (recoverCompactingSegments d') (segmentBytes maxBytes)
      (below.map Chunk.base ++ base :: (above.map Chunk.base ++ [c.base])) = .error .truncate := openSegments_torn _ (by simp)
    (fun x hx => disk.stored x (mem_append_left _ (mem_of_mem_filter hx)))
    (fun x hx => by rw [recover_log, hlogs, disk.sealed x (mem_of_mem_filter hx), Option.some_or]) fits
    (by rw [recover_log, hlogs, hnone, if_pos rfl, Option.none_or])
  simp only [openPartition, hbases, hopen, bind, Except.bind]

/-- So a crash after the placeholder's first byte breaks a partition that is not aligned. -/
theorem Holds.aligned_of_crashSafe (h : p.Holds cs c) (nonneg : ∀ r ∈ records cs, 0 ≤ r.offset) (safe : p.CrashSafe) :
    Aligned cs := by
  intro r hr hlowest
  by_contra hfresh
  have layout := (Layout.append_iff.mp h.layout).1
  obtain ⟨base, idx, s, -, hcompact, ⟨r₀, hr₀, hbase⟩, hle⟩ := h.compact_rewrite nonneg (ne_nil_of_mem hr)
  obtain rfl : base = r.offset := Int.le_antisymm (hle r hr) (hbase ▸ hlowest r₀ hr₀)
  have hlt : r.offset < (p.durable c).base := by
    refine h.cut.lt_of_dropped (i := cs.length) ?_ (y := p.durable c) (by simp)
    rw [take_length]
    exact mem_of_mem_filter hr
  obtain ⟨x, xs, hlive⟩ := exists_cons_of_ne_nil (ne_nil_of_mem hr)
  have fits : Fits x := by
    obtain ⟨a, ha, rfl⟩ := mem_map.mp (mem_of_mem_filter (hlive ▸ mem_cons_self))
    obtain ⟨y, hy, ha⟩ := mem_records.mp ha
    exact ((layout.stored y hy).fits a ha).norm
  obtain ⟨hcanon, hother, hplace⟩ := placements_take r.offset (frames (liveRecords (sealedRecords cs))) idx 2 (h.clean r.offset)
  have hfirst : (frames (liveRecords (sealedRecords cs))).take 1 = (encodeRecord x).take 1 := by
    have := length_encodeRecord x
    rw [hlive, frames_cons, take_append_of_le_length (by omega)]
  -- Two steps in, the placeholder has one byte.
  obtain ⟨steps, p'', hcompact', hrecovers⟩ := safe
  obtain ⟨rfl, rfl⟩ := Prod.mk.inj (Except.ok.inj (hcompact'.symm.trans hcompact))
  have hlen : 2 ≤ (placements r.offset (frames (liveRecords (sealedRecords cs))) idx).length := by simp [placements]
  obtain ⟨q, hopen, -⟩ := hrecovers 2 (by rw [length_append, length_append]; omega) 0
  rw [crashed, take_append_of_le_length (by rw [length_append]; omega), take_append_of_le_length hlen] at hopen
  have hleaves : Leaves p.dir cs r.offset 0 (some ((encodeRecord x).take 1))
      (after p.dir ((placements r.offset (frames (liveRecords (sealedRecords cs))) idx).take 2)) := by
    refine ⟨after_distinct h.dir_onDisk.distinct _, fun b => ?_⟩
    rw [take_zero, map_nil, if_neg not_mem_nil, Dir.logAt, hcanon, logAt_of_no_placeholder h.clean]
    by_cases hb : b = r.offset
    · rw [hb, hplace, if_pos rfl, if_neg (by omega), hfirst]
    · rw [hother b hb, h.clean, if_neg hb]
  have herror := openPartition_torn h.dir_onDisk hfresh hlt fits hleaves 0
  cases hopen.symm.trans herror

/-- Compaction is crash safe only where the write buffer holds nothing live and the lowest live offset of
    the sealed segments is one of their bases; there it is, if what it merges fits one segment. -/
theorem compact_crashSafe (h : p.Holds cs c) (nonneg : ∀ r ∈ records (cs ++ [c]), 0 ≤ r.offset) :
    (p.CrashSafe → p.Durable cs c ∧ Aligned cs) ∧ (p.Durable cs c ∧ Aligned cs ∧ Mergeable cs → p.CrashSafe) := by
  have hsealed : ∀ r ∈ records cs, 0 ≤ r.offset := fun r hr => nonneg r (by simp [hr])
  constructor
  · intro safe
    exact ⟨h.durable_of_crashSafe nonneg safe, h.aligned_of_crashSafe hsealed safe⟩
  · rintro ⟨durable, aligned, mergeable⟩
    exact h.crashSafe hsealed durable aligned mergeable

def keyed (k v : Bytes) : Record := ⟨0, 1, some k, some v, []⟩

/-- Two records are appended and their segment is sealed. -/
theorem Holds.seal_pair (h : p.Holds cs ⟨base, []⟩) (ht : p.active.logFile.Tailed) {a b : Record}
    (stored : Stored base [a, b]) :
    ∃ q : PartitionLog, q.Holds (cs ++ [⟨base, [a, b]⟩]) ⟨b.offset + 1, []⟩ ∧ q.active.logFile.Tailed := by
  obtain ⟨p₁, -, h₁, ht₁, -⟩ := h.append_active ht (Stored.of_append_left (a := [a]) stored)
  obtain ⟨p₂, -, h₂, -, -⟩ := h₁.append_active ht₁ stored
  exact ⟨_, h₂.rollLocked (cons_ne_nil _ _), Or.inl rfl⟩

/-- A log with two records in its one sealed segment. -/
theorem exists_sealed {a b : Record} (stored : Stored 0 [a, b]) :
    ∃ p : PartitionLog, p.Holds [⟨0, [a, b]⟩] ⟨b.offset + 1, []⟩ ∧ p.active.logFile.Tailed := by
  obtain ⟨p, -, h, hactive⟩ := openPartition_empty 60
  exact h.seal_pair (by rw [hactive]; exact Or.inl rfl) stored

theorem stored_pair (k₁ v₁ k₂ v₂ : Bytes) (bytes : (frames [keyed k₁ v₁, { keyed k₂ v₂ with offset := 1 }]).length < 2 ^ 32) :
    Stored 0 [keyed k₁ v₁, { keyed k₂ v₂ with offset := 1 }] := by
  have hfirst : (frames ([] ++ [keyed k₁ v₁])).length < 2 ^ 32 := by
    rw [frames_cons, length_append] at bytes
    rw [nil_append, frames_cons, frames_nil, append_nil]
    exact Nat.lt_of_le_of_lt (Nat.le_add_right _ _) bytes
  have stored := (Stored.nil 0).concat (r := keyed k₁ v₁) (Int.le_refl 0) (show Signed 8 0 by decide)
    (show 0 - 0 < 2 ^ 32 by decide) hfirst
  exact stored.concat (Int.le_refl 1) (show Signed 8 1 by decide) (show 1 - 0 < 2 ^ 32 by decide) bytes

theorem compact_crashSafe_sealed : ∃ p : PartitionLog,
    p.Holds [⟨0, [keyed [1] [1], { keyed [2] [2] with offset := 1 }]⟩] ⟨2, []⟩ ∧ p.CrashSafe := by
  obtain ⟨p, h, -⟩ := exists_sealed (stored_pair [1] [1] [2] [2] (by decide +kernel))
  exact ⟨p, h, (compact_crashSafe h (by decide)).2 ⟨fun key => rfl, by unfold Aligned; decide, by
    unfold Mergeable; decide +kernel⟩⟩

def appended (rs : List Record) : Except LogError PartitionLog := do
  runAll step (← openPartition [] 60) (rs.map Op.append)

/-- The first record of the sealed segment has a later version in it, so the placeholder gets a base of
    its own; a crash after its first byte leaves a directory that does not open. -/
theorem compact_not_crashSafe : ∃ p, appended [keyed [1] [1], keyed [1] [2]] = .ok p ∧ ¬ p.CrashSafe := by
  have hlen : (do let p ← appended [keyed [1] [1], keyed [1] [2]]
                  let x ← p.compact
                  Except.ok (decide (2 ≤ x.1.length))) = Except.ok true := by decide +kernel
  have hcrash : (do let p ← appended [keyed [1] [1], keyed [1] [2]]
                    let x ← p.compact
                    openPartition (p.crashed x.1 2) 60) = Except.error .truncate := by decide +kernel
  cases happ : appended [keyed [1] [1], keyed [1] [2]] with
  | error e =>
    rw [happ] at hlen
    cases hlen
  | ok p =>
    refine ⟨p, rfl, ?_⟩
    rintro ⟨steps, p', hcompact, hrecovers⟩
    simp only [happ, hcompact, bind, Except.bind] at hlen hcrash
    obtain ⟨q, hopen, -⟩ := hrecovers 2 (of_decide_eq_true (Except.ok.inj hlen)) 60
    cases hopen.symm.trans hcrash

end PartitionLog

end Holocron.Log

import Holocron.Theorems.Log.CompactSafe

/-! Compaction leaves exactly the last record of every key that has a value; a second one changes nothing. -/

namespace Holocron.Log
open Lib List

def fold (rs : List Record) : Bytes → Slice :=
  rs.foldl (fun m r => if Slice.bytes r.key = [] then m else Function.update m (Slice.bytes r.key) r.value) fun _ => none

theorem fold_concat (rs : List Record) (r : Record) (k : Bytes) :
    fold (rs ++ [r]) k = if keying.key r = some k then r.value else fold rs k := by
  rw [fold, foldl_concat, ← fold]
  by_cases hempty : r.key.bytes = []
  · rw [if_pos hempty, if_neg]
    intro hk
    exact (keying_key.mp hk).2 ((keying_key.mp hk).1 ▸ hempty)
  · rw [if_neg hempty]
    by_cases hk : k = r.key.bytes
    · rw [hk, Function.update_self, if_pos (keying_key.mpr ⟨rfl, hempty⟩)]
    · rw [Function.update_of_ne hk, if_neg fun h => hk (keying_key.mp h).1.symm]

theorem fold_eq_live (rs : List Record) (k : Bytes) : fold rs k = (keying.live k rs).bind Record.value := by
  induction rs using reverseRecOn with
  | nil => rfl
  | append_singleton rs r ih =>
    rw [fold_concat, live_concat, ih]
    split
    · cases hvalue : r.value with
      | none => rfl
      | some v => exact hvalue.symm
    · rfl

/-- The last record of its key, and no tombstone. -/
structure Survives (rs : List Record) (r : Record) : Prop where
  mem : r ∈ rs
  keyed : Slice.bytes r.key ≠ []
  valued : r.value ≠ none
  last : ∀ x ∈ rs, Slice.bytes x.key = Slice.bytes r.key → x.offset ≤ r.offset

variable {rs : List Record}

theorem retained_iff_survives (asc : rs.Pairwise fun a b => a.offset < b.offset) {r : Record} :
    keying.Retained rs r ↔ Survives rs r := by
  rw [Keying.retained_iff (K := keying) asc]
  constructor
  · rintro ⟨hmem, halive, k, hkey, hmax⟩
    obtain ⟨rfl, hne⟩ := keying_key.mp hkey
    exact ⟨hmem, hne, Option.isSome_iff_ne_none.mp halive, fun x hx hk => hmax x hx (keying_key.mpr ⟨hk, hne⟩)⟩
  · intro h
    exact ⟨h.mem, Option.isSome_iff_ne_none.mpr h.valued, _, keying_key.mpr ⟨rfl, h.keyed⟩,
      fun x hx hk => h.last x hx (keying_key.mp hk).1⟩

theorem liveRecords_idem (asc : rs.Pairwise fun a b => a.offset < b.offset) :
    liveRecords (liveRecords rs) = liveRecords rs := by
  have hasc : (liveRecords rs).Pairwise fun a b => a.offset < b.offset := asc.filter _
  refine filter_eq_self.mpr fun r hr => ((tracks_foldl _).keeps hasc hr).mpr ((retained_iff_survives hasc).mpr ?_)
  have hs := (retained_iff_survives asc).mp ((mem_liveRecords asc).mp hr)
  exact ⟨hr, hs.keyed, hs.valued, fun x hx hk => hs.last x (mem_of_mem_filter hx) hk⟩

/-- A placeholder that takes records it can store holds them. -/
theorem appendAll_holds (rs : List Record) {done : List Record} {s : Segment} (h : s.Holds done) (hb : s.logBuf.isSome)
    (ht : s.logFile.Tailed) (stored : Stored s.baseOffset (done ++ rs)) :
    ∃ s', rs.foldlM (fun s r => (Segment.append s r).map Prod.snd) s = .ok s' ∧ s'.Holds (done ++ rs) ∧ Segment.Kept s s' := by
  induction rs generalizing done s with
  | nil => exact ⟨s, rfl, by rwa [append_nil], Segment.Kept.refl s⟩
  | cons r rs ih =>
    rw [show done ++ r :: rs = done ++ [r] ++ rs by simp] at stored ⊢
    obtain ⟨t, happ, hholds, htailed, hkept⟩ := h.append hb ht stored.of_append_left
    obtain ⟨s', hfold, hall, hkept'⟩ := ih hholds (hkept.active.trans hb) htailed (hkept.baseOffset ▸ stored)
    refine ⟨s', ?_, hall, hkept.trans hkept'⟩
    rw [foldlM_cons, happ]
    exact hfold

namespace PartitionLog

variable {p : PartitionLog} {cs : List Chunk} {c : Chunk}

theorem live_normal (cs : List Chunk) : (liveRecords (sealedRecords cs)).map Record.norm = liveRecords (sealedRecords cs) := by
  refine (map_congr_left fun r hr => ?_).trans (map_id _)
  obtain ⟨a, -, rfl⟩ := mem_map.mp (mem_of_mem_filter hr)
  exact a.norm_norm

/-- What a compaction does: it leaves chunks `cs'` with the live records and the same active segment. -/
structure Compacts (p : PartitionLog) (cs : List Chunk) (c : Chunk) (p' : PartitionLog) (cs' : List Chunk) : Prop where
  holds : p'.Holds cs' c
  records : records cs' = liveRecords (sealedRecords cs)
  active : p'.active = p.active
  maxBytes : p'.maxBytes = p.maxBytes

theorem Holds.layout_live (h : p.Holds cs c) {base : Int} (stored : Stored base (liveRecords (sealedRecords cs)))
    (hbase : ∃ r ∈ liveRecords (sealedRecords cs), r.offset = base) :
      Layout ([⟨base, liveRecords (sealedRecords cs)⟩] ++ [c]) := by
  obtain ⟨-, hlast, -⟩ := Layout.append_iff.mp h.layout
  have hlt : ∀ r ∈ liveRecords (sealedRecords cs), r.offset < c.base := fun r hr =>
    h.layout.lt_of_dropped (i := cs.length) (by rw [take_length]; exact mem_of_mem_filter hr) (by simp)
  refine Layout.append_iff.mpr ⟨⟨?_, pairwise_singleton _ _⟩, hlast, ?_⟩
  · intro x hx
    rwa [mem_singleton.mp hx]
  · intro x hx y hy
    rw [mem_singleton.mp hx, mem_singleton.mp hy]
    obtain ⟨r, hr, rfl⟩ := hbase
    refine ⟨hlt r hr, ?_⟩
    obtain ⟨init, z, hz⟩ := eq_nil_or_concat _ |>.resolve_left (ne_nil_of_mem hr)
    rw [Chunk.next, hz, concat_eq_append, endOffset_concat]
    exact hlt z (by rw [hz]; simp)

theorem Holds.compact_spec (h : p.Holds cs c) (nonneg : ∀ r ∈ Log.records cs, 0 ≤ r.offset) (mergeable : Mergeable cs) :
    ∃ steps p' cs', p.compact = .ok (steps, p') ∧ p.Compacts cs c p' cs' ∧ ∃ steps', p'.compact = .ok (steps', p') := by
  have asc := h.sealed_ascending
  obtain ⟨hlayout, hlast, -⟩ := Layout.append_iff.mp h.layout
  by_cases hlive : liveRecords (sealedRecords cs) = []
  · by_cases hcs : cs = []
    · subst hcs
      exact ⟨_, p, [], h.compact_nothing, ⟨h, rfl, rfl, rfl⟩, _, h.compact_nothing⟩
    · have hnone : Holds { p with sealed := [] } [] c :=
        ⟨⟨Forall₂.nil, h.active, by simp, h.writable⟩, hlast⟩
      exact ⟨_, _, [], h.compact_drop hcs hlive, ⟨hnone, hlive.symm, rfl, rfl⟩, _, hnone.compact_nothing⟩
  · obtain ⟨base, idx, s, hfold, hcompact, hbase, hle⟩ := h.compact_rewrite nonneg hlive
    have stored := stored_live hlayout mergeable hbase hle
    obtain ⟨s', hfold', hholds, hkept⟩ := appendAll_holds (liveRecords (sealedRecords cs))
      (Segment.createSegmentWithSuffix_holds base p.maxBytes true) rfl (.inl rfl) stored
    obtain rfl : s' = s := Except.ok.inj (hfold'.symm.trans hfold)
    obtain ⟨hseal, -⟩ := hholds.sealSegment
    have hsealBase : s'.sealSegment.baseOffset = base := (Segment.flushIfActive_kept s').baseOffset.trans hkept.baseOffset
    have hnew : Holds { p with sealed := [{ s'.sealSegment with compacting := false }] }
        [⟨base, liveRecords (sealedRecords cs)⟩] c := by
      refine ⟨⟨Forall₂.cons ⟨hsealBase, ?_, rfl⟩ Forall₂.nil, h.active, ?_, h.writable⟩, h.layout_live stored hbase⟩
      · exact ⟨hseal.stored, hseal.content, hseal.pending, hseal.size, hseal.highWater, hseal.indexed⟩
      · intro t ht
        rw [mem_singleton.mp ht]
        rfl
    refine ⟨_, _, _, hcompact, ⟨hnew, by simp, rfl, rfl⟩, ?_⟩
    -- the second compaction writes the same records to a placeholder of the same base
    have hsame : liveRecords (sealedRecords [⟨base, liveRecords (sealedRecords cs)⟩]) = liveRecords (sealedRecords cs) := by
      rw [sealedRecords, records_cons, records_nil, append_nil, live_normal, liveRecords_idem asc]
    have hnonneg : ∀ r ∈ records [⟨base, liveRecords (sealedRecords cs)⟩], 0 ≤ r.offset := by
      intro r hr
      rw [records_cons, records_nil, append_nil] at hr
      obtain ⟨a, ha, rfl⟩ := mem_map.mp (mem_of_mem_filter hr)
      exact nonneg a ha
    obtain ⟨base', idx', s₂, hfold₂, hcompact₂, ⟨r', hr', hbase'⟩, hle'⟩ := hnew.compact_rewrite hnonneg (by rwa [hsame])
    rw [hsame] at hfold₂ hr' hle'
    obtain ⟨r, hr, hroff⟩ := hbase
    obtain rfl : base' = base := Int.le_antisymm (hroff ▸ hle' r hr) (hbase' ▸ hle r' hr')
    obtain rfl : s₂ = s' := Except.ok.inj (hfold₂.symm.trans hfold)
    exact ⟨_, hcompact₂⟩

/-- Compaction keeps exactly the survivors of the sealed segments, all of the active one and the high water; doing it
    again changes nothing, and the log folds to the same map. -/
theorem compact_exact (h : p.Holds cs c) (nonneg : ∀ r ∈ Log.records cs, 0 ≤ r.offset) (mergeable : Mergeable cs) :
    ∃ steps p' kept, p.compact = .ok (steps, p') ∧
      (∀ n m : Int, 0 < m → (p.read n m).1 = .ok ((since n (sealedRecords cs ++ sealedRecords [c])).take m.toNat)) ∧
      (∀ n m : Int, 0 < m → (p'.read n m).1 = .ok ((since n (kept ++ sealedRecords [c])).take m.toNat)) ∧
      (kept.Pairwise fun a b => a.offset < b.offset) ∧ (∀ r, r ∈ kept ↔ Survives (sealedRecords cs) r) ∧
      p'.active = p.active ∧ p'.highWater = p.highWater ∧
      (∃ steps', p'.compact = .ok (steps', p')) ∧
      fold (kept ++ sealedRecords [c]) = fold (sealedRecords cs ++ sealedRecords [c]) := by
  have asc := h.sealed_ascending
  have hasc : (liveRecords (sealedRecords cs)).Pairwise fun a b => a.offset < b.offset := asc.filter _
  have hread : ∀ {q : PartitionLog} {ds}, q.Holds ds c → ∀ n m, 0 < m →
      (q.read n m).1 = .ok ((since n (sealedRecords ds ++ sealedRecords [c])).take m.toNat) := by
    intro q ds hq n m hm
    obtain ⟨q', hr, -⟩ := hq.read (n := n) hm
    rw [hr, since_norm, ← sealedRecords, sealedRecords_append]
    rfl
  obtain ⟨steps, p', cs', hcompact, hcompacts, hagain⟩ := h.compact_spec nonneg mergeable
  refine ⟨steps, p', liveRecords (sealedRecords cs), hcompact, hread h, ?_, hasc, ?_, hcompacts.active, ?_, hagain, ?_⟩
  · have hafter : sealedRecords cs' = liveRecords (sealedRecords cs) := by rw [sealedRecords, hcompacts.records, live_normal]
    exact hafter ▸ hread hcompacts.holds
  · exact fun r => (mem_liveRecords asc).trans (retained_iff_survives asc)
  · rw [PartitionLog.highWater, PartitionLog.highWater, hcompacts.active]
  · funext k
    rw [fold_eq_live, fold_eq_live, Keying.live_append_of_retained (K := keying) asc hasc fun r => mem_liveRecords asc]

theorem compact_exact_pair : ∃ p p' : PartitionLog, ∃ steps steps',
    p.Holds [⟨0, [keyed [1] [1], { keyed [1] [2] with offset := 1 }]⟩] ⟨2, []⟩ ∧ p.compact = .ok (steps, p') ∧
      p'.highWater = p.highWater ∧ p'.compact = .ok (steps', p') := by
  obtain ⟨p, h, -⟩ := exists_sealed (stored_pair [1] [1] [1] [2] (by decide +kernel))
  obtain ⟨steps, p', kept, hcompact, -, -, -, -, -, hhigh, ⟨steps', hagain⟩, -⟩ :=
    compact_exact h (by decide) (by unfold Mergeable; decide +kernel)
  exact ⟨p, p', steps, steps', h, hcompact, hhigh, hagain⟩

end PartitionLog
end Holocron.Log

import Holocron.Lib.Keyed
import Holocron.Log.Compact
import Holocron.Theorems.Log.Partition

/-! What compaction computes: the map of pass 1 has the live records of the sealed segments, and the placeholder holds
    exactly those. -/

namespace Holocron.Log
open Lib List

variable {rs : List Record} {r : Record} {m : Latest} {ss : List Segment} {cs : List Chunk} {s : Segment} {k : Bytes}

theorem since_past_batch (asc : rs.Pairwise fun a b => a.offset < b.offset) {n : Int} {m : Nat}
    (h : ((since n rs).take m).getLast? = some r) : since (r.offset + 1) rs = (since n rs).drop m := by
  have hmem : r ∈ (since n rs).take m := mem_of_getLast? h
  have hn : n ≤ r.offset := (mem_since.mp (mem_of_mem_take hmem)).2
  have hl : (since n rs).Pairwise fun a b => a.offset < b.offset := asc.filter _
  have hwiden : since (r.offset + 1) rs = since (r.offset + 1) (since n rs) := by
    rw [since, since, since, filter_filter]
    refine filter_congr fun x _ => ?_
    by_cases hx : r.offset + 1 ≤ x.offset
    · simp [show n ≤ x.offset by omega]
    · simp [hx]
  rw [hwiden]
  rw [← take_append_drop m (since n rs)] at hl
  obtain ⟨htake, -, hcross⟩ := pairwise_append.mp hl
  nth_rewrite 1 [← take_append_drop m (since n rs)]
  obtain ⟨init, hinit⟩ := getLast?_eq_some_iff.mp h
  have hlow : since (r.offset + 1) ((since n rs).take m) = [] := by
    refine since_eq_nil fun x hx => ?_
    rw [hinit] at hx htake
    rcases mem_append.mp hx with hx | hx
    · have := (pairwise_append.mp htake).2.2 x hx r (mem_singleton_self r)
      omega
    · rw [mem_singleton.mp hx]
      omega
  have hhigh : since (r.offset + 1) ((since n rs).drop m) = (since n rs).drop m := since_eq_self fun x hx => by
    have := hcross r hmem x hx
    omega
  rw [since_append, hlow, hhigh, nil_append]

theorem drain_exact {σ : Type} {read : σ → Int → Except LogError (List Record) × σ} (inv : σ → Prop) (low : Int)
    (asc : rs.Pairwise fun a b => a.offset < b.offset) {m : Nat} (hm : 0 < m)
    (hread : ∀ s n, low ≤ n → inv s → ∃ s', read s n = (.ok (((since n rs).map Record.norm).take m), s') ∧ inv s')
      (fuel : Nat) (s : σ)
    (n : Int) (hlow : low ≤ n) (hfuel : (since n rs).length < fuel) (hinv : inv s) :
    ∃ s', drain read fuel s n = (.ok ((since n rs).map Record.norm), s') ∧ inv s' := by
  induction fuel generalizing s n with
  | zero => omega
  | succ fuel ih =>
    obtain ⟨s₁, hr, hinv₁⟩ := hread s n hlow hinv
    simp only [drain, hr, ← map_take, getLast?_map]
    cases hlast : ((since n rs).take m).getLast? with
    | none =>
      have hnil : since n rs = [] := by
        rcases take_eq_nil_iff.mp (getLast?_eq_none_iff.mp hlast) with h | h
        · omega
        · exact h
      exact ⟨s₁, by simp [hnil], hinv₁⟩
    | some r =>
      have hpast := since_past_batch asc hlast
      have hne : since n rs ≠ [] := fun hnil => by simp [hnil] at hlast
      have hn : n ≤ r.offset := (mem_since.mp (mem_of_mem_take (mem_of_getLast? hlast))).2
      have hlen : (since (r.offset + 1) rs).length < fuel := by
        have := length_pos_iff.mpr hne
        rw [hpast, length_drop]
        omega
      obtain ⟨s', hdrain, hinv'⟩ := ih s₁ (r.offset + 1) (by omega) hlen hinv₁
      simp only [Option.map_some, Record.norm_offset, hdrain, hpast]
      refine ⟨s', ?_, hinv'⟩
      simp only [Except.map, ← map_append, take_append_drop]

theorem Segment.Holds.stream (h : s.Holds rs) :
    ∃ s', s.stream = (.ok (rs.map Record.norm), s') ∧ s'.Holds rs ∧ Segment.Kept s s' := by
  have hall : since s.baseOffset rs = rs := since_eq_self h.stored.base_le
  have hread : ∀ t n, s.baseOffset ≤ n → t.Holds rs ∧ Kept s t →
      ∃ t', t.readFrom n compactBatchSize = (.ok (((since n rs).map Record.norm).take compactBatchSize), t') ∧
        t'.Holds rs ∧ Kept s t' := by
    rintro t n - ⟨ht, hk⟩
    obtain ⟨t', hr, ht', hk'⟩ := ht.readFrom n compactBatchSize
    exact ⟨t', hr, ht', hk.trans hk'⟩
  have hfuel : (since s.baseOffset rs).length < s.size + 1 := by
    have := length_le_frames rs
    rw [hall, h.size]
    omega
  obtain ⟨s', hdrain, hinv⟩ := drain_exact (fun t => t.Holds rs ∧ Kept s t) s.baseOffset h.stored.ascending
    (by decide) hread (s.size + 1) s s.baseOffset (Int.le_refl _) hfuel ⟨h, Kept.refl s⟩
  rw [hall] at hdrain
  exact ⟨s', hdrain, hinv⟩

def sealedRecords (cs : List Chunk) : List Record := (records cs).map Record.norm

theorem streamSealedRecords_spec (rep : Forall₂ Segment.Represents ss cs) :
    ∃ ss', streamSealedRecords ss = .ok (sealedRecords cs, ss') ∧ Forall₂ Segment.Represents ss' cs := by
  induction rep with
  | nil => exact ⟨[], rfl, Forall₂.nil⟩
  | @cons s c ss cs hs _ ih =>
    obtain ⟨s', hstream, hholds, hkept⟩ := hs.holds.stream
    obtain ⟨ss', hrest, hreps⟩ := ih
    refine ⟨s' :: ss', ?_, Forall₂.cons (hs.kept hkept hholds) hreps⟩
    simp [streamSealedRecords, hstream, hrest, bind, Except.bind, sealedRecords, records_cons]

def keying : Keying Record Bytes where
  rank r := r.offset
  key r := if Slice.bytes r.key = [] then none else some (Slice.bytes r.key)
  alive r := r.value.isSome

@[simp] theorem keying_rank (r : Record) : keying.rank r = r.offset := rfl
@[simp] theorem keying_alive (r : Record) : keying.alive r = r.value.isSome := rfl

theorem keying_key : keying.key r = some k ↔ r.key.bytes = k ∧ k ≠ [] := by
  simp only [keying]
  split
  · rename_i h
    constructor
    · intro hk
      cases hk
    · rintro ⟨rfl, hne⟩
      exact absurd h hne
  · rename_i h
    constructor
    · rintro ⟨⟩
      exact ⟨rfl, h⟩
    · rintro ⟨rfl, -⟩
      rfl

def Tracks (m : Latest) (rs : List Record) : Prop :=
  ∀ k o, (k, o) ∈ m ↔ ∃ r, keying.live k rs = some r ∧ r.offset = o

theorem live_key (h : keying.live k rs = some r) : r ∈ rs ∧ r.key.bytes = k ∧ k ≠ [] ∧ r.value ≠ none := by
  obtain ⟨hlast, halive⟩ := Keying.live_eq_some_iff.mp h
  obtain ⟨hin, hkey⟩ := mem_filter.mp (mem_of_getLast? hlast)
  obtain ⟨hk, hne⟩ := keying_key.mp (of_decide_eq_true hkey)
  refine ⟨hin, hk, hne, fun hnone => ?_⟩
  rw [keying_alive, hnone] at halive
  cases halive

theorem live_concat (k : Bytes) (rs : List Record) (r : Record) :
    keying.live k (rs ++ [r]) =
      if keying.key r = some k then (if r.value = none then none else some r) else keying.live k rs := by
  rw [Keying.live, Keying.last_concat]
  split
  · cases hv : r.value <;> simp [hv]
  · rfl

theorem Tracks.note (h : Tracks m rs) (r : Record) : Tracks (m.note r) (rs ++ [r]) := by
  have hdelete : ∀ k o, (k, o) ∈ m.delete r.key.bytes ↔ (k, o) ∈ m ∧ k ≠ r.key.bytes := by
    simp [Latest.delete]
  intro k o
  rw [live_concat]
  unfold Latest.note
  by_cases hempty : r.key.bytes = []
  · have hkey : keying.key r ≠ some k := fun hk => (keying_key.mp hk).2 ((keying_key.mp hk).1 ▸ hempty)
    rw [if_pos hempty, if_neg hkey]
    exact h k o
  rw [if_neg hempty]
  by_cases hk : r.key.bytes = k
  · have hkey : keying.key r = some k := keying_key.mpr ⟨hk, hk ▸ hempty⟩
    rw [if_pos hkey]
    by_cases hv : r.value = none
    · rw [if_pos hv, if_pos hv, hdelete]
      simp [hk]
    · rw [if_neg hv, if_neg hv, mem_cons, hdelete]
      simp [hk, eq_comm]
  · have hkey : keying.key r ≠ some k := fun h' => hk (keying_key.mp h').1
    rw [if_neg hkey, ← h k o]
    by_cases hv : r.value = none
    · rw [if_pos hv, hdelete]
      exact ⟨And.left, fun hm => ⟨hm, fun h' => hk h'.symm⟩⟩
    · rw [if_neg hv, mem_cons, hdelete]
      constructor
      · rintro (heq | hm)
        · exact absurd (congrArg Prod.fst heq).symm hk
        · exact hm.1
      · exact fun hm => Or.inr ⟨hm, fun h' => hk h'.symm⟩

theorem tracks_foldl (rs : List Record) : Tracks (rs.foldl Latest.note []) rs := by
  have key : ∀ rs done m, Tracks m done → Tracks (rs.foldl Latest.note m) (done ++ rs) := by
    intro rs
    induction rs with
    | nil => exact fun done m h => by simpa using h
    | cons r rs ih =>
      intro done m h
      have := ih (done ++ [r]) (m.note r) (h.note r)
      rwa [append_assoc] at this
  refine key rs [] [] fun k o => ?_
  constructor
  · intro h
    cases h
  · rintro ⟨r, hr, -⟩
    cases hr

theorem Tracks.lookup (h : Tracks m rs) (k : Bytes) : m.lookup k = (keying.live k rs).map Record.offset := by
  cases hlook : m.lookup k with
  | some o =>
    obtain ⟨a, b, rfl, -⟩ := lookup_eq_some_iff.mp hlook
    obtain ⟨r, hr, rfl⟩ := (h k o).mp (by simp)
    rw [hr, Option.map_some]
  | none =>
    cases hr : keying.live k rs with
    | none => rfl
    | some r =>
      have hmem := (h k r.offset).mpr ⟨r, hr, rfl⟩
      have := lookup_eq_none_iff.mp hlook _ hmem
      simp at this

theorem newBase_foldl (m : Latest) (nonneg : ∀ e ∈ m, 0 ≤ e.2) (o : Int) (ho : 0 ≤ o) :
    let low := m.foldl (fun newBase e => if newBase < 0 ∨ e.2 < newBase then e.2 else newBase) o
    low ≤ o ∧ (∀ e ∈ m, low ≤ e.2) ∧ (low = o ∨ ∃ e ∈ m, e.2 = low) := by
  induction m generalizing o with
  | nil => exact ⟨Int.le_refl o, by simp, Or.inl rfl⟩
  | cons e m ih =>
    have he := nonneg e mem_cons_self
    have hm : ∀ e ∈ m, 0 ≤ e.2 := fun x hx => nonneg x (mem_cons_of_mem e hx)
    simp only [foldl_cons]
    by_cases hlt : e.2 < o
    · rw [if_pos (Or.inr hlt)]
      obtain ⟨h₁, h₂, h₃⟩ := ih hm e.2 he
      refine ⟨by omega, ?_, Or.inr ?_⟩
      · intro x hx
        rcases mem_cons.mp hx with rfl | hx
        · exact h₁
        · exact h₂ x hx
      · rcases h₃ with h₃ | ⟨x, hx, h₃⟩
        · exact ⟨e, mem_cons_self, h₃.symm⟩
        · exact ⟨x, mem_cons_of_mem e hx, h₃⟩
    · rw [if_neg (by omega)]
      obtain ⟨h₁, h₂, h₃⟩ := ih hm o ho
      refine ⟨h₁, ?_, h₃.imp_right fun ⟨x, hx, hxo⟩ => ⟨x, mem_cons_of_mem e hx, hxo⟩⟩
      intro x hx
      rcases mem_cons.mp hx with rfl | hx
      · omega
      · exact h₂ x hx

theorem Tracks.newBase (h : Tracks m rs) (hne : m ≠ []) (nonneg : ∀ r ∈ rs, 0 ≤ r.offset) :
    (∃ k r, keying.live k rs = some r ∧ r.offset = m.newBase) ∧
      ∀ k r, keying.live k rs = some r → m.newBase ≤ r.offset := by
  have hpos : ∀ e ∈ m, 0 ≤ e.2 := by
    rintro ⟨k, o⟩ he
    obtain ⟨r, hr, rfl⟩ := (h k o).mp he
    exact nonneg r (live_key hr).1
  obtain ⟨e, m', rfl⟩ := exists_cons_of_ne_nil hne
  have hfold := newBase_foldl m' (fun x hx => hpos x (mem_cons_of_mem e hx)) e.2 (hpos e mem_cons_self)
  have hbase : Latest.newBase (e :: m') =
      m'.foldl (fun newBase e => if newBase < 0 ∨ e.2 < newBase then e.2 else newBase) e.2 := rfl
  obtain ⟨h₁, h₂, h₃⟩ := hfold
  constructor
  · obtain ⟨x, hx, hxo⟩ : ∃ x ∈ e :: m', x.2 = Latest.newBase (e :: m') := by
      rcases h₃ with h₃ | ⟨x, hx, hxo⟩
      · exact ⟨e, mem_cons_self, h₃.symm⟩
      · exact ⟨x, mem_cons_of_mem e hx, hxo⟩
    obtain ⟨r, hr, hro⟩ := (h x.1 x.2).mp hx
    exact ⟨x.1, r, hr, hro.trans hxo⟩
  · intro k r hr
    rcases mem_cons.mp ((h k r.offset).mpr ⟨r, hr, rfl⟩) with heq | hm
    · rw [show r.offset = e.2 from congrArg Prod.snd heq]
      exact h₁
    · exact h₂ _ hm

theorem Tracks.keeps (h : Tracks m rs) (asc : rs.Pairwise fun a b => a.offset < b.offset) (hr : r ∈ rs) :
    m.keeps r = true ↔ keying.Retained rs r := by
  simp only [Latest.keeps, Bool.and_eq_true, decide_eq_true_eq, h.lookup, Option.map_eq_some_iff]
  constructor
  · rintro ⟨hne, x, hx, hoff⟩
    obtain rfl : x = r := Keying.Ascending.eq_of_rank (K := keying) asc (live_key hx).1 hr hoff
    exact ⟨_, hx⟩
  · rintro ⟨k, hk⟩
    obtain ⟨-, rfl, hne, -⟩ := live_key hk
    exact ⟨hne, r, hk, rfl⟩

/-- Appending to a file in append mode leaves the frames in the file and the buffer, and every index entry at the
    start of one, whatever their size. -/
theorem appendAll_data (rs : List Record) {buf : Bytes} (hbuf : s.logBuf = some buf)
    (happ : s.logFile.appending = true) :
    ∃ s', rs.foldlM (fun s r => (Segment.append s r).map Prod.snd) s = .ok s' ∧ s'.baseOffset = s.baseOffset ∧
      s'.compacting = s.compacting ∧ s'.logFile.appending = true ∧
      (∃ buf', s'.logBuf = some buf' ∧ s'.logFile.data ++ buf' = s.logFile.data ++ buf ++ frames rs) ∧
      s'.size = s.size + (frames rs).length ∧ s'.highWater = endOffset s.highWater rs ∧
      ∀ e ∈ s'.idx, e ∈ s.idx ∨ ∃ a b, rs = a ++ b ∧ e.position = uint32 (s.size + (frames a).length : Nat) := by
  induction rs generalizing s buf with
  | nil => exact ⟨s, rfl, rfl, rfl, happ, ⟨buf, hbuf, by simp⟩, rfl, rfl, fun e he => .inl he⟩
  | cons r rs ih =>
    obtain ⟨idx, gap, hidx, hr⟩ := Segment.append_eq hbuf r
    obtain ⟨s', hfold, hbase, hcomp, hmode, ⟨buf', hbuf', hdata⟩, hsize, hhigh, hentries⟩ := ih
      (s := { s with
        logFile := (bufWrite s.logFile buf (encodeRecord r)).1
        logBuf := some (bufWrite s.logFile buf (encodeRecord r)).2
        idx := idx
        size := s.size + (encodeRecord r).length
        bytesSinceIndex := gap
        highWater := r.offset + 1 }) rfl ((bufWrite_flags s.logFile buf _).1.trans happ)
    refine ⟨s', ?_, hbase, hcomp, hmode, ⟨buf', hbuf', ?_⟩, ?_, ?_, ?_⟩
    · rw [foldlM_cons, hr]
      exact hfold
    · rw [hdata, bufWrite_data buf (encodeRecord r) (Or.inl happ), frames_cons, append_assoc]
    · rw [hsize, frames_cons, length_append, Nat.add_assoc]
    · rw [hhigh, endOffset_cons]
    · intro e he
      rcases hentries e he with he | ⟨a, b, rfl, hpos⟩
      · rcases hidx with rfl | rfl
        · rcases mem_append.mp he with he | he
          · exact .inl he
          · rw [mem_singleton.mp he]
            exact .inr ⟨[], r :: rs, rfl, rfl⟩
        · exact .inl he
      · refine .inr ⟨r :: a, b, rfl, ?_⟩
        rw [hpos, frames_cons, length_append, Nat.add_assoc]

theorem placeholder_spec (rs : List Record) (base maxBytes : Int) :
    ∃ s idx, rs.foldlM (fun s r => (Segment.append s r).map Prod.snd) (createSegmentWithSuffix base maxBytes true) = .ok s ∧
      s.sealSegment.baseOffset = base ∧ s.sealSegment.compacting = true ∧ s.sealSegment.logFile.data = frames rs ∧
      s.sealSegment.idxFile = some idx ∧ s.sealSegment.size = (frames rs).length ∧ s.sealSegment.highWater = endOffset base rs ∧
      ∀ e ∈ s.sealSegment.idx, ∃ a b, rs = a ++ b ∧ e.position = uint32 (frames a).length := by
  obtain ⟨s, hfold, hbase, hcomp, hmode, ⟨buf, hbuf, hdata⟩, hsize, hhigh, hentries⟩ :=
    appendAll_data rs (s := createSegmentWithSuffix base maxBytes true) rfl rfl
  refine ⟨s, s.flushIfActive.idx.writeTo, hfold, ?_, ?_, ?_, rfl, ?_, ?_, ?_⟩
  · exact (Segment.flushIfActive_kept s).baseOffset.trans hbase
  · exact (Segment.flushIfActive_kept s).compacting.trans hcomp
  · have : s.sealSegment.logFile.data = (bufFlush s.logFile buf).data := by
      simp [Segment.sealSegment, Segment.persistIndex, Segment.flushIfActive, hbuf]
    rw [this, bufFlush_data (Or.inl hmode), hdata]
    rfl
  · rw [Segment.sealSegment_size, hsize]
    exact Nat.zero_add _
  · exact (Segment.flushIfActive_highWater s).trans hhigh
  · intro e he
    rcases hentries e ((Segment.flushIfActive_idx s) ▸ he) with he | ⟨a, b, hsplit, hpos⟩
    · cases he
    · exact ⟨a, b, hsplit, by rw [hpos]; congr 2; exact Nat.zero_add _⟩

def removals (cs : List Chunk) : List FsStep :=
  cs.flatMap fun x => [.remove (segmentLogName x.base false), .remove (segmentIndexName x.base false)]

def placements (base : Int) (data idx : Bytes) : List FsStep :=
  (List.range (data.length + 1)).map (fun i => .write (segmentLogName base true) (data.take i)) ++
    [.write (segmentIndexName base true) idx]

def renames (base : Int) : List FsStep :=
  [.rename (segmentLogName base true) (segmentLogName base false),
    .rename (segmentIndexName base true) (segmentIndexName base false)]

theorem removeSteps_eq (rep : Forall₂ Segment.Represents ss cs) :
    ss.flatMap Segment.removeSteps = removals cs := by
  induction rep with
  | nil => rfl
  | @cons s c ss cs hs _ ih =>
    rw [flatMap_cons, ih]
    simp [removals, Segment.removeSteps, Segment.logPath, Segment.idxPath, hs.base, hs.canonical]

def liveRecords (rs : List Record) : List Record := rs.filter (rs.foldl Latest.note []).keeps

theorem mem_liveRecords (asc : rs.Pairwise fun a b => a.offset < b.offset) : r ∈ liveRecords rs ↔ keying.Retained rs r := by
  rw [liveRecords, mem_filter]
  constructor
  · rintro ⟨hr, hkeep⟩
    exact ((tracks_foldl rs).keeps asc hr).mp hkeep
  · intro h
    obtain ⟨k, hk⟩ := h
    have hr := (live_key hk).1
    exact ⟨hr, ((tracks_foldl rs).keeps asc hr).mpr ⟨k, hk⟩⟩

theorem latest_eq_nil_iff (asc : rs.Pairwise fun a b => a.offset < b.offset) :
    rs.foldl Latest.note [] = [] ↔ liveRecords rs = [] := by
  constructor
  · intro h
    refine eq_nil_iff_forall_not_mem.mpr fun r hr => ?_
    obtain ⟨k, hk⟩ := (mem_liveRecords asc).mp hr
    have := (tracks_foldl rs k r.offset).mpr ⟨r, hk, rfl⟩
    rw [h] at this
    cases this
  · intro h
    refine eq_nil_iff_forall_not_mem.mpr fun ⟨k, o⟩ he => ?_
    obtain ⟨r, hr, -⟩ := (tracks_foldl rs k o).mp he
    have := (mem_liveRecords asc).mpr ⟨k, hr⟩
    rw [h] at this
    cases this

theorem norm_ascending (h : rs.Pairwise fun a b => a.offset < b.offset) :
    (rs.map Record.norm).Pairwise fun a b => a.offset < b.offset := pairwise_map.mpr h

namespace PartitionLog

variable {p : PartitionLog} {cs : List Chunk} {c : Chunk}

theorem Holds.sealed_ascending (h : p.Holds cs c) : (sealedRecords cs).Pairwise fun a b => a.offset < b.offset :=
  norm_ascending (Layout.append_iff.mp h.layout).1.ascending

theorem Holds.compact_nothing (h : p.Holds [] c) : p.compact = .ok ([], p) := by
  rw [compact, if_pos (forall₂_nil_right_iff.mp h.sealed)]

/-- Nothing is live: the sealed segments are removed. -/
theorem Holds.compact_drop (h : p.Holds cs c) (hne : cs ≠ []) (hlive : liveRecords (sealedRecords cs) = []) :
    p.compact = .ok (removals cs, { p with sealed := [] }) := by
  have hsealed : p.sealed ≠ [] := fun hnil => hne (forall₂_nil_left_iff.mp (hnil ▸ h.sealed))
  obtain ⟨ss, hstream, hreps⟩ := streamSealedRecords_spec h.sealed
  rw [compact, if_neg hsealed, hstream]
  simp only [bind, Except.bind]
  rw [if_pos ((latest_eq_nil_iff h.sealed_ascending).mpr hlive), removeSteps_eq hreps]

theorem Holds.compact_rewrite (h : p.Holds cs c) (nonneg : ∀ r ∈ records cs, 0 ≤ r.offset)
    (hlive : liveRecords (sealedRecords cs) ≠ []) :
    ∃ base idx s, (liveRecords (sealedRecords cs)).foldlM (fun s r => (Segment.append s r).map Prod.snd)
        (createSegmentWithSuffix base p.maxBytes true) = .ok s ∧
      p.compact = .ok (placements base (frames (liveRecords (sealedRecords cs))) idx ++ removals cs ++ renames base,
        { p with sealed := [{ s.sealSegment with compacting := false }] }) ∧
      (∃ r ∈ liveRecords (sealedRecords cs), r.offset = base) ∧ ∀ r ∈ liveRecords (sealedRecords cs), base ≤ r.offset := by
  have asc := h.sealed_ascending
  have hne : cs ≠ [] := fun hnil => hlive (by rw [hnil]; rfl)
  have hsealed : p.sealed ≠ [] := fun hnil => hne (forall₂_nil_left_iff.mp (hnil ▸ h.sealed))
  have hlatest : (sealedRecords cs).foldl Latest.note [] ≠ [] := fun hnil => hlive ((latest_eq_nil_iff asc).mp hnil)
  obtain ⟨ss, hstream, hreps⟩ := streamSealedRecords_spec h.sealed
  obtain ⟨ss', hstream', hreps'⟩ := streamSealedRecords_spec hreps
  obtain ⟨hmin, hle⟩ := (tracks_foldl (sealedRecords cs)).newBase hlatest (by
    intro r hr
    obtain ⟨x, hx, rfl⟩ := mem_map.mp hr
    exact nonneg x hx)
  obtain ⟨s, idx, hfold, hbase, hcomp, hdata, hidx, -⟩ := placeholder_spec (liveRecords (sealedRecords cs))
    ((sealedRecords cs).foldl Latest.note []).newBase p.maxBytes
  refine ⟨((sealedRecords cs).foldl Latest.note []).newBase, idx, s, hfold, ?_, ?_, ?_⟩
  · rw [compact, if_neg hsealed, hstream]
    simp only [bind, Except.bind]
    rw [if_neg hlatest, hstream']
    simp only
    rw [show (sealedRecords cs).filter ((sealedRecords cs).foldl Latest.note []).keeps =
      liveRecords (sealedRecords cs) from rfl, hfold]
    simp only [removeSteps_eq hreps', Segment.placeholderSteps, Segment.finalizeSteps, Segment.logPath,
      Segment.idxPath, hbase, hcomp, hdata, hidx, Option.map_some]
    rfl
  · obtain ⟨k, r, hr, hoff⟩ := hmin
    exact ⟨r, (mem_liveRecords asc).mpr ⟨k, hr⟩, hoff⟩
  · intro r hr
    obtain ⟨k, hk⟩ := (mem_liveRecords asc).mp hr
    exact hle k r hk

end PartitionLog
end Holocron.Log

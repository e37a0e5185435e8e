import Holocron.Storage.Sweep
import Holocron.Theorems.Log.Retain
import Holocron.Theorems.Storage.Gaps
import Holocron.Theorems.Storage.Replay

/-! A partition of the disk store that is read as a map, under appends, ticks of the sweeper, reopens and replays. -/

namespace Holocron.Storage
open Lib Log

namespace FileStore

variable {s : FileStore} {p q : PartitionRef} {φ ψ : List Record → Prop} {P : PartitionLog → Prop}

theorem Opens.imp {Q : PartitionLog → Prop} (h : s.Opens p P) (imp : ∀ l, P l → Q l) : s.Opens p Q := by
  unfold Opens at h ⊢
  cases hlog : s.logs p with
  | some l =>
    rw [hlog] at h
    exact imp l h
  | none =>
    rw [hlog] at h
    intro maxBytes
    obtain ⟨l, hopen, hl⟩ := h maxBytes
    exact ⟨l, hopen, imp l hl⟩

theorem shows_new (segmentSize : Int) (p : PartitionRef) (empty : φ []) :
    (FileStore.new segmentSize fun _ => []).Opens p (PartitionLog.Shows φ) := PartitionLog.shows_empty empty

theorem Opens.append_shows (h : s.Opens p (PartitionLog.Shows φ)) {now : Int64} {r : Record} (fits : Fits s now p r)
    (step : ∀ n rs, φ rs → ψ (rs ++ [(stamp now n r).norm])) :
    ∃ n s', Store.append s .background now p r = (.ok n, s') ∧ s'.Opens p (PartitionLog.Shows ψ) := by
  obtain ⟨l, s₁, hopen, hl, -, -⟩ := h.opened
  have hsmall : l.Small (.append (stamp now l.highWater r)) := by
    refine fits l.highWater s₁ ?_ l (by rw [hopen])
    simp only [Store.highWater, highWater, guarded, Ctx.background, hopen]
  obtain ⟨l', happend, hl'⟩ := hl.append rfl hsmall (step l.highWater)
  refine ⟨l.highWater, s₁.setLog p l', ?_, of_self rfl hl'⟩
  simp only [Store.append, FileStore.append, guarded, Ctx.background, hopen, happend]

theorem Opens.reopened (h : s.Opens p (PartitionLog.Shows φ)) :
    (FileStore.new s.segmentSize s.close).Opens p (PartitionLog.Shows φ) := by
  unfold Opens at h
  simp only [Opens, new, close]
  cases hl : s.logs p with
  | some l =>
    rw [hl] at h
    exact h.reopen
  | none =>
    rw [hl] at h
    exact h

theorem setLog_openLog (hq : q ≠ p) (l : PartitionLog) : ((s.setLog p l).openLog q).1 = (s.openLog q).1 := by
  simp only [openLog, setLog, Function.update_of_ne hq]
  cases s.logs q with
  | some l => rfl
  | none =>
    dsimp only
    split <;> rfl

theorem openLog_openLog (hq : q ≠ p) : ((s.openLog p).2.openLog q).1 = (s.openLog q).1 := by
  have hopen : (s.openLog p).2 = s ∨ ∃ l, (s.openLog p).2 = s.setLog p l := by
    unfold openLog
    split
    · exact .inl rfl
    · split
      · exact .inl rfl
      · exact .inr ⟨_, rfl⟩
  rcases hopen with hopen | ⟨l, hopen⟩
  · rw [hopen]
  · rw [hopen, setLog_openLog hq]

theorem Opens.replay {α : Type} (take : α → Record → α) (h : s.Opens p (PartitionLog.Shows φ)) (a : α) :
    ∃ rs l, φ rs ∧ (s.openLog p).1 = .ok l ∧ ∀ s₁ (fuel : Nat), (s₁.openLog p).1 = .ok l → rs.length < fuel →
      ∃ s₂ : FileStore, Storage.replay take p fuel 0 s₁ a = some (.ok (rs.foldl take a), s₂) ∧ ∀ q ≠ p,
        (s₂.openLog q).1 = (s₁.openLog q).1 := by
  obtain ⟨l, s', hopen, ⟨cs, c, hl⟩, -, -⟩ := h.opened
  refine ⟨sealedRecords (cs ++ [c]), l, hl.shown, by rw [hopen], fun s₁ fuel hopen₁ hfuel => ?_⟩
  have hall : since 0 (records (cs ++ [c])) = records (cs ++ [c]) := since_eq_self hl.nonneg
  rw [sealedRecords, List.length_map] at hfuel
  obtain ⟨l', hreplay, -, -⟩ := @replay_holds _ take p _ _ _ s₁ (s₁.openLog p).2 l (Prod.ext hopen₁ rfl) hl.holds 0
    (Int.le_refl 0) (.inl hl.tailed) (by rwa [hall]) a
  rw [hall] at hreplay
  exact ⟨_, hreplay, fun q hq => (setLog_openLog hq l').trans (openLog_openLog hq)⟩

variable {f : PartitionLog → Option LogError × PartitionLog} {dir : Dir}

/-- What sweeping one open log keeps, a pass keeps. -/
theorem forEach_keeps {I : FileStore → Prop} (keeps : ∀ s q l, I s → s.logs q = some l → I (s.setLog q (f l).2))
    (order : List PartitionRef) (h : I s) : I (forEach f order s) := by
  induction order generalizing s with
  | nil => exact h
  | cons q rest ih =>
    unfold forEach
    cases hlog : s.logs q with
    | none => exact ih h
    | some l =>
      have hset := keeps s q l h hlog
      dsimp only
      split
      · rename_i hf
        rw [hf] at hset
        exact hset
      · rename_i hf
        rw [hf] at hset
        exact ih hset

theorem Opens.forEach (h : s.Opens p P) (keeps : ∀ l, P l → P (f l).2) (order : List PartitionRef) :
    (FileStore.forEach f order s).Opens p P := by
  refine forEach_keeps (I := fun s => s.Opens p P) (fun s q l hs hlog => ?_) order h
  by_cases hq : q = p
  · subst hq
    unfold Opens at hs
    rw [hlog] at hs
    exact of_self rfl (keeps l hs)
  · exact hs.setLog_other hq _

def Closed (s : FileStore) (p : PartitionRef) (dir : Dir) : Prop := s.logs p = none ∧ s.disk p = dir

theorem Closed.forEach (h : s.Closed p dir) (order : List PartitionRef) : (FileStore.forEach f order s).Closed p dir := by
  refine forEach_keeps (I := fun s => s.Closed p dir) (fun s q l hs hlog => ?_) order h
  have hp : p ≠ q := fun hp => by rw [← hp, hs.1] at hlog; cases hlog
  exact ⟨(Function.update_of_ne hp ..).trans hs.1, hs.2⟩

theorem Closed.tick {w : Sweeper} (h : s.Closed p dir) (now : Int64) (orders : Orders) :
    (w.tick now orders s).Closed p dir := by
  have htime : ∀ t : FileStore, t.Closed p dir →
      (if 0 < w.retention then t.enforceRetention now w.retention orders.time else t).Closed p dir := by
    intro t ht
    unfold enforceRetention
    split
    · split
      · exact ht
      · exact ht.forEach _
    · exact ht
  have hsize : ∀ t : FileStore, t.Closed p dir →
      (if 0 < w.retentionBytes then t.enforceSizeRetention w.retentionBytes orders.size else t).Closed p dir := by
    intro t ht
    unfold enforceSizeRetention
    split
    · split
      · exact ht
      · exact ht.forEach _
    · exact ht
  unfold Sweeper.tick
  dsimp only
  split
  · exact (hsize _ (htime s h)).forEach _
  · exact hsize _ (htime s h)

end FileStore

/-- No segment that a tick deletes holds a live record, and what compaction writes fits one segment. -/
structure Sweeper.Spares (w : Sweeper) (now : Int64) (cs : List Chunk) (c : Chunk) : Prop where
  time : 0 < w.retention → SparedByTime (now - w.retention) cs c
  size : 0 < w.retentionBytes → SparedBySize w.retentionBytes.toInt cs c
  compaction : w.compactionEnabled → PartitionLog.Mergeable cs

section
variable {w : Sweeper} {now : Int64} {φ : List Record → Prop} {l : PartitionLog}

theorem Sweeper.Spares.suffix {gone kept : List Chunk} {c : Chunk} (h : w.Spares now (gone ++ kept) c)
    (unneeded : ∀ x ∈ gone, ¬ x.Needed (gone ++ kept ++ [c])) (asc : keying.Ascending (sealedRecords (gone ++ kept))) :
    w.Spares now kept c :=
  ⟨fun ht => (h.time ht).suffix unneeded, fun hs => (h.size hs).suffix unneeded, fun hc => (h.compaction hc).suffix asc⟩

def Spared (w : Sweeper) (now : Int64) (φ : List Record → Prop) (l : PartitionLog) : Prop :=
  ∃ cs c, l.ShowsAs φ cs c ∧ w.Spares now cs c

section
variable (ofMap : PartitionLog.OfMap φ)
include ofMap

theorem Spared.enforceTimeRetention (on : 0 < w.retention) (h : Spared w now φ l) :
    Spared w now φ (l.enforceTimeRetention (now - w.retention)).2 := by
  obtain ⟨cs, c, hl, hspares⟩ := h
  obtain ⟨deleted, l', gone, kept, hpass, rfl, hholds, hactive, hunneeded⟩ := hl.holds.enforceTimeRetention (hspares.time on)
  rw [hpass]
  exact ⟨kept, c, hl.swept ofMap (PartitionLog.swept_of_dropped hholds hactive hunneeded),
    hspares.suffix hunneeded hl.holds.sealed_ascending⟩

theorem Spared.enforceSizeRetention (on : 0 < w.retentionBytes) (h : Spared w now φ l) :
    Spared w now φ (l.enforceSizeRetention w.retentionBytes.toInt).2 := by
  obtain ⟨cs, c, hl, hspares⟩ := h
  obtain ⟨gone, kept, rfl, hholds, hactive, hunneeded⟩ := hl.holds.enforceSizeRetention (hspares.size on)
  exact ⟨kept, c, hl.swept ofMap (PartitionLog.swept_of_dropped hholds hactive hunneeded),
    hspares.suffix hunneeded hl.holds.sealed_ascending⟩

/-- Compaction of a log that has been compacted changes nothing. -/
theorem compacted_compact (on : w.compactionEnabled)
    (h : Spared w now φ l ∨ l.Shows φ ∧ ∃ steps, l.compact = .ok (steps, l)) :
    ∃ steps l', l.compact = .ok (steps, l') ∧ l'.Shows φ ∧ ∃ steps, l'.compact = .ok (steps, l') := by
  rcases h with ⟨cs, c, hl, hspares⟩ | ⟨hl, steps, hcompact⟩
  · have hnonneg : ∀ r ∈ records cs, 0 ≤ r.offset :=
      fun r hr => hl.nonneg r (by rw [records_append]; exact List.mem_append_left _ hr)
    obtain ⟨steps, l', cs', hcompact, hcompacts, hagain⟩ := hl.holds.compact_spec hnonneg (hspares.compaction on)
    exact ⟨steps, l', hcompact, ⟨cs', c, hl.swept ofMap (hcompacts.swept hl.holds.sealed_ascending)⟩, hagain⟩
  · exact ⟨steps, l, hcompact, hl, steps, hcompact⟩

theorem FileStore.Opens.tick {s : FileStore} {p : PartitionRef} (h : s.Opens p (PartitionLog.Shows φ))
    (spares : ∀ l, s.logs p = some l → ∀ cs c, l.Holds cs c → w.Spares now cs c) (orders : Orders) :
    (w.tick now orders s).Opens p (PartitionLog.Shows φ) := by
  cases hlog : s.logs p with
  | none =>
    obtain ⟨hnone, hdisk⟩ := (show s.Closed p (s.disk p) from ⟨hlog, rfl⟩).tick (w := w) now orders
    unfold Opens at h ⊢
    rw [hlog] at h
    rw [hnone, hdisk]
    exact h
  | some l =>
    have hstart : s.Opens p (Spared w now φ) := by
      unfold Opens at h ⊢
      rw [hlog] at h ⊢
      obtain ⟨cs, c, hl⟩ := h
      exact ⟨cs, c, hl, spares l hlog cs c hl.holds⟩
    have htime : (if 0 < w.retention then s.enforceRetention now w.retention orders.time else s).Opens p (Spared w now φ) := by
      split
      · rename_i on
        rw [enforceRetention, if_neg (Int64.not_le.mpr on)]
        exact hstart.forEach (fun l hl => hl.enforceTimeRetention ofMap on) orders.time
      · exact hstart
    unfold Sweeper.tick
    generalize (if 0 < w.retention then s.enforceRetention now w.retention orders.time else s) = s₁ at htime ⊢
    have hsize : (if 0 < w.retentionBytes then s₁.enforceSizeRetention w.retentionBytes orders.size else s₁).Opens p
        (Spared w now φ) := by
      split
      · rename_i on
        rw [enforceSizeRetention, if_neg (Int64.not_le.mpr on)]
        exact htime.forEach (fun l hl => hl.enforceSizeRetention ofMap on) orders.size
      · exact htime
    dsimp only
    generalize (if 0 < w.retentionBytes then s₁.enforceSizeRetention w.retentionBytes orders.size else s₁) = s₂ at hsize ⊢
    split
    · rename_i on
      have hpass : (s₂.compact orders.compaction).Opens p fun l => Spared w now φ l ∨ l.Shows φ ∧ ∃ steps,
          l.compact = .ok (steps, l) := by
        refine forEach (hsize.imp fun l => .inl) (fun l hl => ?_) orders.compaction
        obtain ⟨steps, l', hcompact, hl', hagain⟩ := compacted_compact ofMap on hl
        simp only [hcompact]
        exact .inr ⟨hl', hagain⟩
      exact hpass.imp fun l hl => hl.elim (fun ⟨cs, c, hl, _⟩ => ⟨cs, c, hl⟩) And.left
    · exact hsize.imp fun l ⟨cs, c, hl, _⟩ => ⟨cs, c, hl⟩

end

end
end Holocron.Storage

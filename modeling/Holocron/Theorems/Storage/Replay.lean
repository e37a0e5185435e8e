import Holocron.Storage.Replay
import Holocron.Theorems.Log.Drain
import Holocron.Theorems.Storage.Contract

/-! Replaying an internal topic takes in all of its records in order and leaves the store ready for the next append. -/

namespace Holocron.Storage
open Lib Log List

variable {α : Type}

namespace FileStore

theorem openLog_of_logs {s : FileStore} {p : PartitionRef} {l : PartitionLog} (h : s.logs p = some l) :
    s.openLog p = (.ok l, s) := by
  simp only [openLog, h]

@[simp] theorem setLog_logs_self (s : FileStore) (p : PartitionRef) (l : PartitionLog) : (s.setLog p l).logs p = some l :=
  Function.update_self ..

@[simp] theorem setLog_setLog (s : FileStore) (p : PartitionRef) (l l' : PartitionLog) :
    (s.setLog p l).setLog p l' = s.setLog p l' := by
  simp only [setLog, Function.update_idem]

theorem replay_holds {take : α → Record → α} {p : PartitionRef} {cs : List Chunk} {c : Chunk} {fuel : Nat} {s s₁ : FileStore}
    {l : PartitionLog} (hopen : s.openLog p = (.ok l, s₁)) (h : l.Holds cs c) {n : Int} (hn : 0 ≤ n)
      (drains : l.active.Drains c.records n)
    (hfuel : (since n (records (cs ++ [c]))).length < fuel) (a : α) :
    ∃ l', replay take p fuel n s a = some (.ok (((since n (records (cs ++ [c]))).map Record.norm).foldl take a),
      s₁.setLog p l') ∧ l'.Holds cs c ∧ l'.active.logFile.Tailed := by
  induction fuel generalizing s s₁ l n a with
  | zero => omega
  | succ fuel ih =>
    obtain ⟨l₁, hread, h₁, drains₁⟩ := h.read_drains (n := n) (m := replayBatch) (by decide) drains
    have hstore : Store.read s .background p n replayBatch =
        (.ok (((since n (records (cs ++ [c]))).map Record.norm).take replayBatch.toNat), s₁.setLog p l₁) := by
      simp only [Store.read, read, guarded, Ctx.background, if_neg (Int.not_lt.mpr hn), hopen, hread]
    rw [← map_take, cursorAfter_norm] at drains₁
    simp only [replay, hstore, ← map_take, getLast?_map]
    cases hlast : ((since n (records (cs ++ [c]))).take replayBatch.toNat).getLast? with
    | none =>
      have hnil : since n (records (cs ++ [c])) = [] := by
        rcases take_eq_nil_iff.mp (getLast?_eq_none_iff.mp hlast) with h | h
        · cases h
        · exact h
      have hactive : since n c.records = [] := by
        rw [records_append, since_append, records_cons, records_nil, append_nil] at hnil
        exact (append_eq_nil_iff.mp hnil).2
      refine ⟨l₁, by rw [hnil]; rfl, h₁, ?_⟩
      rw [hnil] at drains₁
      exact drains₁.resolve_right fun hne => hne hactive
    | some r =>
      have hpast := since_past_batch h.layout.ascending hlast
      have hmem := mem_since.mp (mem_of_mem_take (mem_of_getLast? hlast))
      have hcursor : cursorAfter n ((since n (records (cs ++ [c]))).take replayBatch.toNat) = r.offset + 1 := by
        rw [cursorAfter, hlast]
        rfl
      rw [hcursor] at drains₁
      have hlen : (since (r.offset + 1) (records (cs ++ [c]))).length < fuel := by
        have hpos := length_pos_of_mem (mem_since.mpr hmem)
        rw [hpast, length_drop]
        have : replayBatch.toNat = 256 := rfl
        omega
      obtain ⟨l', hreplay, h', htailed⟩ := ih (openLog_of_logs (setLog_logs_self s₁ p l₁)) h₁ (by omega) drains₁ hlen
        ((((since n (records (cs ++ [c]))).take replayBatch.toNat).map Record.norm).foldl take a)
      refine ⟨l', ?_, h', htailed⟩
      simp only [Option.map_some, Record.norm_offset, hreplay, setLog_setLog, hpast, ← foldl_append, ← map_append,
        take_append_drop]

end FileStore

/-- On disk a replay takes in every record of the partition and changes no partition. -/
theorem replay_file (take : α → Record → α) {s : FileStore} {m : Contents} (rep : Contract.Rep s m) (p : PartitionRef)
    {fuel : Nat} (hfuel : (m p).length < fuel) (a : α) :
    ∃ s', replay take p fuel 0 s a = some (.ok ((m p).foldl take a), s') ∧ Contract.Rep s' m := by
  obtain ⟨rs, hkeeps, hrs⟩ := rep p
  obtain ⟨l, s₁, hopen, hready, hlogs, hdisk⟩ := hkeeps.opened
  obtain ⟨cs, c, hholds, hchunks⟩ := hready.stores.chunks
  have hall : since 0 (records (cs ++ [c])) = rs := by
    rw [hchunks]
    exact since_eq_self hready.numbered.nonneg
  have hlen : rs.length < fuel := by rwa [← hrs, length_map] at hfuel
  obtain ⟨l', hreplay, hholds', htailed⟩ := @FileStore.replay_holds _ take p _ _ _ _ _ _ hopen hholds 0 (Int.le_refl 0)
    (.inl hready.tailed) (by rwa [hall]) a
  rw [hall, hrs] at hreplay
  refine ⟨_, hreplay, fun q => ?_⟩
  by_cases hq : q = p
  · subst hq
    refine ⟨rs, FileStore.Keeps.of_self rfl ⟨⟨⟨cs, c, hholds', hchunks⟩, ?_⟩, htailed, hready.numbered⟩, hrs⟩
    rw [hholds'.highWater, ← hholds.highWater, hready.stores.highWater]
  · obtain ⟨qs, hq₁, hq₂⟩ := rep q
    exact ⟨qs, FileStore.Keeps.of_update rfl rfl hq (FileStore.Keeps.of_update hlogs hdisk hq hq₁), hq₂⟩

theorem replay_memory (take : α → Record → α) {s : MemoryStore} {p : PartitionRef} (numbered : Numbered (s.get p))
    {fuel : Nat} {n : Int} (hn : 0 ≤ n) (hfuel : (since n (s.get p)).length < fuel) (a : α) :
    replay take p fuel n s a = some (.ok ((since n (s.get p)).foldl take a), s) := by
  induction fuel generalizing n a with
  | zero => omega
  | succ fuel ih =>
    have hread : Store.read s .background p n replayBatch = (.ok ((since n (s.get p)).take replayBatch.toNat), s) := by
      rw [numbered.since_eq_drop hn]
      simp only [Store.read, MemoryStore.read, if_neg (Int.not_lt.mpr hn)]
      rfl
    simp only [replay, hread]
    cases hlast : ((since n (s.get p)).take replayBatch.toNat).getLast? with
    | none =>
      have hnil : since n (s.get p) = [] := by
        rcases take_eq_nil_iff.mp (getLast?_eq_none_iff.mp hlast) with h | h
        · cases h
        · exact h
      rw [hnil]
      rfl
    | some r =>
      have hpast := since_past_batch numbered.ascending hlast
      have hmem := mem_since.mp (mem_of_mem_take (mem_of_getLast? hlast))
      have hlen : (since (r.offset + 1) (s.get p)).length < fuel := by
        have hpos := length_pos_of_mem (mem_since.mpr hmem)
        rw [hpast, length_drop]
        have : replayBatch.toNat = 256 := rfl
        omega
      dsimp only
      rw [ih (by omega) hlen, hpast, ← foldl_append, take_append_drop]

/-- A replay with enough fuel folds all records of the partition. -/
class Replays (σ : Type) [Store σ] [Contract σ] : Prop where
  replay {α : Type} (take : α → Record → α) {s : σ} {m : Contents} (rep : Contract.Rep s m) {p : PartitionRef}
    (numbered : Numbered (m p)) {fuel : Nat}
    (hfuel : (m p).length < fuel) (a : α) :
      ∃ s', Storage.replay take p fuel 0 s a = some (.ok ((m p).foldl take a), s') ∧ Contract.Rep s' m

instance : Replays FileStore where
  replay take _ _ rep p _ _ hfuel a := replay_file take rep p hfuel a

instance : Replays MemoryStore where
  replay take s m rep p numbered fuel hfuel a := by
    have hget : s.get p = m p := rep p
    have hall : since 0 (m p) = m p := since_eq_self numbered.nonneg
    have hreplay := replay_memory take (hget ▸ numbered : Numbered (s.get p)) (Int.le_refl 0)
      (by rw [hget, hall]; exact hfuel) a
    rw [hget, hall] at hreplay
    exact ⟨s, hreplay, rep⟩

end Holocron.Storage

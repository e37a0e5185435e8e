import Holocron.Lib.Assoc
import Holocron.Groups.OffsetStore
import Holocron.Theorems.Storage.Sweep

/-! Keys differ as long as no name holds a NUL; Commit and DeleteGroup keep topic and entries together. -/

namespace Holocron.Groups
open Lib Log Storage Concurrent List

theorem decimal_digits (n : Nat) :
    Nat.ofDigits 10 (((Nat.digits 10 n).reverse.map fun d => UInt8.ofNat (48 + d)).reverse.map fun b => b.toNat - 48) = n := by
  have hdigits : ((Nat.digits 10 n).map fun d => (UInt8.ofNat (48 + d)).toNat - 48) = Nat.digits 10 n := by
    refine (map_congr_left fun d hd => ?_).trans (map_id _)
    have hlt : d < 10 := Nat.digits_lt_base (by decide) hd
    rw [UInt8.toNat_ofNat_of_lt' (show 48 + d < 256 by omega), Nat.add_sub_cancel_left, id]
  rw [← map_reverse, reverse_reverse, map_map]
  exact (congrArg (Nat.ofDigits 10) hdigits).trans (Nat.ofDigits_digits 10 n)

/-- The digits of a number without its sign. -/
theorem decimal_eq (x : Int) : ∃ ds, decimal x = (if x < 0 then [45] else []) ++ ds ∧ ds ≠ [] ∧
    (∀ b ∈ ds, 48 ≤ b.toNat ∧ b.toNat ≤ 57) ∧ Nat.ofDigits 10 (ds.reverse.map fun b => b.toNat - 48) = x.natAbs := by
  by_cases hx : x = 0
  · refine ⟨[48], by rw [decimal, if_pos hx], cons_ne_nil _ _, fun b hb => ?_, by rw [hx]; rfl⟩
    rw [mem_singleton.mp hb]
    exact ⟨Nat.le_refl 48, Nat.le_of_ble_eq_true rfl⟩
  · refine ⟨_, by rw [decimal, if_neg hx], fun hnil => ?_, fun b hb => ?_, decimal_digits x.natAbs⟩
    · have hdigits := reverse_eq_nil_iff.mp (map_eq_nil_iff.mp hnil)
      exact hx (Int.natAbs_eq_zero.mp (Nat.digits_eq_nil_iff_eq_zero.mp hdigits))
    · obtain ⟨d, hd, rfl⟩ := mem_map.mp hb
      have hlt : d < 10 := Nat.digits_lt_base (by decide) (mem_reverse.mp hd)
      rw [UInt8.toNat_ofNat_of_lt' (show 48 + d < 256 by omega)]
      exact ⟨Nat.le_add_right 48 d, by omega⟩

theorem decimal_noNUL (x : Int) : 0 ∉ decimal x := by
  obtain ⟨ds, heq, -, hds, -⟩ := decimal_eq x
  rw [heq]
  intro hmem
  rcases mem_append.mp hmem with hmem | hmem
  · split at hmem
    · exact absurd (mem_singleton.mp hmem) (by decide)
    · cases hmem
  · exact absurd (hds 0 hmem).1 (by decide)

theorem decimal_injective {x y : Int} (h : decimal x = decimal y) : x = y := by
  obtain ⟨ds, hx, -, hds, hvx⟩ := decimal_eq x
  obtain ⟨es, hy, -, hes, hvy⟩ := decimal_eq y
  rw [hx, hy] at h
  have hsign : ∀ b, (∀ d ∈ b, 48 ≤ d.toNat ∧ d.toNat ≤ 57) → ∀ rest : Bytes, 45 :: rest ≠ b := by
    intro b hb rest heq
    exact absurd (hb 45 (heq ▸ mem_cons_self)).1 (by decide)
  by_cases hxneg : x < 0 <;> by_cases hyneg : y < 0
  · rw [if_pos hxneg, if_pos hyneg] at h
    obtain rfl : ds = es := (cons.inj h).2
    omega
  · rw [if_pos hxneg, if_neg hyneg] at h
    exact absurd h (hsign es hes ds)
  · rw [if_neg hxneg, if_pos hyneg] at h
    exact absurd h.symm (hsign ds hds es)
  · rw [if_neg hxneg, if_neg hyneg, nil_append, nil_append] at h
    rw [h] at hvx
    omega

def NoNUL (b : Bytes) : Prop := (0 : UInt8) ∉ b

instance (b : Bytes) : Decidable (NoNUL b) := inferInstanceAs (Decidable (_ ∉ _))

section
variable {g t g' t' : Bytes} {p p' : Int32}

theorem joinKey_ne_nil (g t : Bytes) (p : Int32) : joinKey g t p ≠ [] := by simp [joinKey]

theorem count_joinKey (g t : Bytes) (p : Int32) : (joinKey g t p).count 0 = g.count 0 + t.count 0 + 2 := by
  simp only [joinKey, count_append, count_cons_self, count_eq_zero_of_not_mem (decimal_noNUL p.toInt)]
  omega

theorem splitNUL_joinKey (hg : NoNUL g) (ht : NoNUL t) : splitNUL (joinKey g t p) = [g, t, decimal p.toInt] := by
  rw [splitNUL, joinKey, splitOn_append_cons_self_of_not_mem hg, splitOn_append_cons_self_of_not_mem ht,
    splitOn_eq_singleton (decimal_noNUL p.toInt)]

/-- No other key is that of names without a NUL. -/
theorem joinKey_inj (hg : NoNUL g) (ht : NoNUL t) : joinKey g' t' p' = joinKey g t p ↔ g' = g ∧ t' = t ∧ p' = p := by
  refine ⟨fun h => ?_, fun ⟨hg, ht, hp⟩ => by rw [hg, ht, hp]⟩
  have hcount := congrArg (count 0) h
  rw [count_joinKey, count_joinKey, count_eq_zero_of_not_mem hg, count_eq_zero_of_not_mem ht] at hcount
  have hg' : NoNUL g' := count_eq_zero.mp (by omega)
  have ht' : NoNUL t' := count_eq_zero.mp (by omega)
  have hsplit := congrArg splitNUL h
  rw [splitNUL_joinKey hg' ht', splitNUL_joinKey hg ht] at hsplit
  simp only [cons.injEq, and_true] at hsplit
  exact ⟨hsplit.1, hsplit.2.1, Int32.toInt_inj.mp (decimal_injective hsplit.2.2)⟩

theorem groupOf_joinKey (scanned : Bytes → Bytes) (hg : NoNUL g) (ht : NoNUL t) : groupOf scanned (joinKey g t p) = g := by
  rw [groupOf, splitNUL_joinKey hg ht]

end

namespace Entries

theorem lookup_delete (m : Entries) (k k' : Bytes) : lookup k (m.delete k') = if k = k' then none else lookup k m :=
  Assoc.get_delete m k k'

theorem lookup_set (m : Entries) (k k' : Bytes) (o : Int) : lookup k (m.set k' o) = if k = k' then some o else lookup k m :=
  Assoc.get_set m k k' o

theorem mem_keys {m : Entries} {k : Bytes} : k ∈ m.map Prod.fst ↔ (lookup k m).isSome := Assoc.mem_keys (m := m)

theorem lookup_deleteAll (keys : List Bytes) (m : Entries) (k : Bytes) :
    lookup k (keys.foldl Entries.delete m) = if k ∈ keys then none else lookup k m := by
  induction keys generalizing m with
  | nil => rfl
  | cons x keys ih =>
    rw [foldl_cons, ih, lookup_delete]
    by_cases hx : k = x
    · subst hx
      rw [if_pos rfl, ite_self, if_pos mem_cons_self]
    · rw [if_neg hx]
      simp [hx]

theorem decodeOffsetValue_encode {o : Int} (h : Signed 8 o) : decodeOffsetValue (encodeOffsetValue o) = o := by
  rw [decodeOffsetValue, encodeOffsetValue, if_neg (by simp), toSigned_ofBigEndian h]

theorem lookup_replayRecord (m : Entries) (r : Record) (k : Bytes) :
    lookup k (replayRecord m r) = if k = r.key.bytes then r.value.map decodeOffsetValue else lookup k m := by
  unfold replayRecord
  cases r.value with
  | none => rw [lookup_delete]; rfl
  | some v => rw [lookup_set]; rfl

theorem lookup_replay (rs : List Record) {k : Bytes} (hk : k ≠ []) :
    lookup k (rs.foldl replayRecord []) = (fold rs k).map decodeOffsetValue := by
  induction rs using reverseRecOn with
  | nil => rfl
  | append_singleton rs r ih =>
    rw [foldl_concat, lookup_replayRecord, fold_concat, ih]
    by_cases hkey : r.key.bytes = k
    · rw [if_pos hkey.symm, if_pos (keying_key.mpr ⟨hkey, hk⟩)]
    · rw [if_neg (Ne.symm hkey), if_neg fun h => hkey (keying_key.mp h).1]

def Agree (m : Entries) (rs : List Record) : Prop := ∀ k ≠ [], List.lookup k (rs.foldl replayRecord []) = List.lookup k m

theorem agree_ofMap (m : Entries) : PartitionLog.OfMap (Agree m) := by
  intro rs rs' _ hfold h k hk
  rw [lookup_replay rs' hk, hfold, ← lookup_replay rs hk, h k hk]

section
variable {m : Entries} {rs : List Record} (h : Agree m rs) (now : Int64) (n : Int) (k : Bytes)
include h

theorem Agree.commit {o : Int} (ho : Signed 8 o) :
    Agree (m.set k o) (rs ++ [(stamp now n (commitRecord k o)).norm]) := by
  intro x hx
  have hvalue : Slice.norm (some (encodeOffsetValue o)) = some (encodeOffsetValue o) := by
    cases henc : encodeOffsetValue o with
    | nil => exact absurd (congrArg length henc) (by simp [encodeOffsetValue])
    | cons b bs => rfl
  rw [foldl_concat, lookup_replayRecord, lookup_set, h x hx]
  simp only [Record.norm, stamp, commitRecord, Slice.bytes_norm, hvalue, Option.map_some, decodeOffsetValue_encode ho]
  rfl

theorem Agree.tombstone :
    Agree (m.delete k) (rs ++ [(stamp now n (tombstone k)).norm]) := by
  intro x hx
  rw [foldl_concat, lookup_replayRecord, lookup_delete, h x hx]
  simp only [Record.norm, Slice.bytes_norm]
  rfl

end

end Entries

abbrev Committed := Bytes → Bytes → Int32 → Option Int

namespace Committed

def commit (m : Committed) (group topic : Bytes) (partition : Int32) (offset : Int) : Committed := fun g t p =>
  if g = group ∧ t = topic ∧ p = partition then some offset else m g t p

def deleteGroup (m : Committed) (group : Bytes) : Committed := fun g t p => if g = group then none else m g t p

end Committed

structure Entries.Records (es : Entries) (m : Committed) : Prop where
  lookup : ∀ g t p, List.lookup (joinKey g t p) es = m g t p
  named : ∀ k, (List.lookup k es).isSome → ∃ g t p, NoNUL g ∧ NoNUL t ∧ k = joinKey g t p

variable {keys : List Bytes} {group topic : Bytes}

namespace Entries.Records

variable {es : Entries} {m : Committed} {o : TopicOffsetStore}

theorem commit (h : es.Records m) (hg : NoNUL group) (ht : NoNUL topic) (partition : Int32) (offset : Int) :
    Entries.Records (es.set (joinKey group topic partition) offset) (m.commit group topic partition offset) := by
  refine ⟨fun g t p => ?_, fun k hk => ?_⟩
  · rw [lookup_set, h.lookup]
    simp only [joinKey_inj hg ht]
    rfl
  · rw [lookup_set] at hk
    split at hk
    · exact ⟨group, topic, partition, hg, ht, ‹_›⟩
    · exact h.named k hk

theorem mem_keysOf (h : o.entries.Records m) (scanned : Bytes → Bytes) (group : Bytes) {g t : Bytes} {p : Int32}
    (hsome : (m g t p).isSome) : joinKey g t p ∈ o.keysOf scanned group ↔ g = group := by
  have hkey : joinKey g t p ∈ o.entries.map Prod.fst := mem_keys.mpr (by rw [h.lookup]; exact hsome)
  obtain ⟨g', t', p', hg, ht, heq⟩ := h.named (joinKey g t p) (by rw [h.lookup]; exact hsome)
  obtain ⟨rfl, rfl, -⟩ := (joinKey_inj hg ht).mp heq
  rw [TopicOffsetStore.keysOf, mem_filter, groupOf_joinKey scanned hg ht]
  simp [hkey]

theorem deleteGroup (h : o.entries.Records m) {scanned : Bytes → Bytes}
    (hkeys : keys.Perm (o.keysOf scanned group)) : Entries.Records (keys.foldl Entries.delete o.entries)
      (m.deleteGroup group) := by
  refine ⟨fun g t p => ?_, fun k hk => ?_⟩
  · rw [lookup_deleteAll, h.lookup, Committed.deleteGroup]
    cases hm : m g t p with
    | none => rw [ite_self, ite_self]
    | some n => simp only [hkeys.mem_iff, h.mem_keysOf scanned group (hm ▸ rfl : (m g t p).isSome)]
  · rw [lookup_deleteAll] at hk
    split at hk
    · cases hk
    · exact h.named k hk

end Entries.Records

namespace TopicOffsetStore

def Synced (o : TopicOffsetStore) (s : FileStore) : Prop := s.Opens o.pref (PartitionLog.Shows (Entries.Agree o.entries))

def TombstonesFit (pref : PartitionRef) (now : Int64) : FileStore → List Bytes → Prop
  | _, [] => True
  | s, k :: rest => Fits s now pref (tombstone k) ∧
      TombstonesFit pref now (Store.append s .background now pref (tombstone k)).2 rest

variable {o : TopicOffsetStore} {s : FileStore} {now : Int64}

theorem Synced.commit (h : o.Synced s) {partition : Int32} {offset : Int} (hoffset : Signed 8 offset)
    (fits : Fits s now o.pref (commitRecord (joinKey group topic partition) offset)) :
    ∃ s', o.commit s now group topic partition offset =
      (.ok (), { o with entries := o.entries.set (joinKey group topic partition) offset }, s') ∧
      TopicOffsetStore.Synced { o with entries := o.entries.set (joinKey group topic partition) offset } s' ∧
      ∀ q P, q ≠ o.pref → s.Opens q P → s'.Opens q P := by
  obtain ⟨n, s', happend, hopens⟩ := FileStore.Opens.append_shows h fits fun n rs hrs => hrs.commit now n _ hoffset
  refine ⟨s', by simp only [TopicOffsetStore.commit, happend], hopens, fun q P hq hother => ?_⟩
  have := hother.append_other (Ne.symm hq) .background now (commitRecord (joinKey group topic partition) offset)
  rwa [show (s.append .background now o.pref (commitRecord (joinKey group topic partition) offset)).2 =
    s' from congrArg Prod.snd happend] at this

theorem appendTombstones_synced {es : Entries} {p : PartitionRef} (h : s.Opens p (PartitionLog.Shows es.Agree))
    (fits : TombstonesFit p now s keys) :
    ∃ s', appendTombstones p now s keys = (.ok (), s') ∧
      s'.Opens p (PartitionLog.Shows (Entries.Agree (keys.foldl Entries.delete es))) ∧
      ∀ q P, q ≠ p → s.Opens q P → s'.Opens q P := by
  induction keys generalizing s es with
  | nil => exact ⟨s, rfl, h, fun _ _ _ hother => hother⟩
  | cons k keys ih =>
    obtain ⟨hfit, hrest⟩ := fits
    obtain ⟨n, s₁, happend, hopens⟩ := FileStore.Opens.append_shows h hfit fun n rs hrs => hrs.tombstone now n k
    rw [happend] at hrest
    obtain ⟨s', hall, hopens', hothers⟩ := ih hopens hrest
    refine ⟨s', by simp only [appendTombstones, happend, hall], hopens', fun q P hq hother => hothers q P hq ?_⟩
    have := hother.append_other (Ne.symm hq) .background now (tombstone k)
    rwa [show (s.append .background now p (tombstone k)).2 = s₁ from congrArg Prod.snd happend] at this

theorem Synced.deleteGroup (h : o.Synced s) (fits : TombstonesFit o.pref now s keys) :
    ∃ s', o.deleteGroup s now keys = (.ok (), { o with entries := keys.foldl Entries.delete o.entries }, s') ∧
      TopicOffsetStore.Synced { o with entries := keys.foldl Entries.delete o.entries } s' ∧ ∀ q P, q ≠ o.pref →
        s.Opens q P → s'.Opens q P := by
  obtain ⟨s', hall, hopens, hothers⟩ := appendTombstones_synced h fits
  exact ⟨s', by simp only [TopicOffsetStore.deleteGroup, hall], hopens, hothers⟩

end TopicOffsetStore
end Holocron.Groups

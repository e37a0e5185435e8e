import Mathlib.Algebra.GroupWithZero.Nat
import Mathlib.Data.List.Perm.Basic

/-! Maps with finitely many keys, as lists of pairs. -/

namespace Lib
open List

abbrev Assoc (κ α : Type) := List (κ × α)

namespace Assoc

variable {κ α : Type} [DecidableEq κ] [BEq κ] [LawfulBEq κ] {m : Assoc κ α} {k : κ}

def delete (m : Assoc κ α) (k : κ) : Assoc κ α := m.filter fun e => decide (e.1 ≠ k)

def set (m : Assoc κ α) (k : κ) (a : α) : Assoc κ α := (k, a) :: m.delete k

def get (m : Assoc κ α) (k : κ) : Option α := List.lookup k m

def keys (m : Assoc κ α) : List κ := m.map Prod.fst

omit [DecidableEq κ] in
/-- Entries whose keys are chosen. -/
theorem get_filter (m : Assoc κ α) (keep : κ → Bool) (k : κ) : get (m.filter fun e => keep e.1) k = if keep k
    then m.get k else none := by
  unfold get
  induction m with
  | nil => exact (ite_self _).symm
  | cons e m ih =>
    obtain ⟨x, a⟩ := e
    rw [filter_cons, lookup_cons]
    by_cases hx : k = x
    · subst hx
      by_cases hk : keep k = true
      · rw [if_pos hk, lookup_cons, beq_self_eq_true, if_pos hk]
      · rw [if_neg hk, ih, if_neg hk, if_neg hk]
    · have hne : (k == x) = false := beq_eq_false_iff_ne.mpr hx
      split
      · rw [lookup_cons, hne, ih]
      · rw [ih, hne]

theorem get_delete (m : Assoc κ α) (k k' : κ) : (m.delete k').get k = if k = k' then none else m.get k := by
  rw [delete, get_filter m fun x => decide (x ≠ k')]
  by_cases hk : k = k'
  · rw [if_neg (by simpa using hk), if_pos hk]
  · rw [if_pos (by simpa using hk), if_neg hk]

theorem get_set (m : Assoc κ α) (k k' : κ) (a : α) : (m.set k' a).get k = if k = k' then some a else m.get k := by
  have hdelete := get_delete m k k'
  unfold get at hdelete ⊢
  rw [set, lookup_cons]
  by_cases hk : k = k'
  · rw [hk, beq_self_eq_true, if_pos rfl]
  · rw [show (k == k') = false from beq_eq_false_iff_ne.mpr hk, if_neg hk, hdelete, if_neg hk]

omit [DecidableEq κ] in
theorem mem_keys : k ∈ m.keys ↔ (m.get k).isSome := by
  rw [get]
  simp [keys]

omit [DecidableEq κ] in
/-- Where no key occurs twice, the map has what is listed. -/
theorem get_eq_some_iff (hm : m.keys.Nodup) {a : α} : m.get k = some a ↔ (k, a) ∈ m := by
  unfold get
  induction m with
  | nil => exact ⟨nofun, nofun⟩
  | cons e m ih =>
    obtain ⟨x, b⟩ := e
    obtain ⟨hx, hm⟩ := nodup_cons.mp hm
    rw [lookup_cons, mem_cons, Prod.mk.injEq]
    by_cases hk : k = x
    · subst hk
      have hnot : (k, a) ∉ m := fun h => hx (mem_map.mpr ⟨_, h, rfl⟩)
      rw [beq_self_eq_true]
      simp only [hnot, or_false, true_and, Option.some.injEq]
      exact eq_comm
    · rw [show (k == x) = false from beq_eq_false_iff_ne.mpr hk]
      simp only [hk, false_and, false_or]
      exact ih hm

omit [DecidableEq κ] in
theorem get_perm {m' : Assoc κ α} (h : m'.Perm m) (hm : m.keys.Nodup) (k : κ) : m'.get k = m.get k := by
  have hm' : m'.keys.Nodup := (h.map Prod.fst).nodup_iff.mpr hm
  refine Option.ext fun a => ?_
  rw [get_eq_some_iff hm, get_eq_some_iff hm']
  exact h.mem_iff

omit [BEq κ] [LawfulBEq κ] in
theorem nodup_delete (hm : m.keys.Nodup) (k : κ) : (m.delete k).keys.Nodup := hm.sublist (filter_sublist.map _)

theorem nodup_set (hm : m.keys.Nodup) (k : κ) (a : α) : (m.set k a).keys.Nodup := by
  refine nodup_cons.mpr ⟨fun hmem => ?_, nodup_delete hm k⟩
  have hget := mem_keys.mp hmem
  rw [get_delete, if_pos rfl] at hget
  cases hget

omit [BEq κ] [LawfulBEq κ] in
theorem delete_of_notMem (h : k ∉ m.keys) : m.delete k = m := by
  refine filter_eq_self.mpr fun e he => decide_eq_true fun hk => h ?_
  exact hk ▸ mem_map_of_mem he

omit [BEq κ] [LawfulBEq κ] in
/-- Entries with different keys that are set one after the other. -/
theorem foldl_set {es : Assoc κ α} (hes : es.keys.Nodup) (hm : ∀ k ∈ es.keys, k ∉ m.keys) :
    es.foldl (fun m e => m.set e.1 e.2) m = es.reverse ++ m := by
  induction es generalizing m with
  | nil => rfl
  | cons e es ih =>
    obtain ⟨hk, hes⟩ := nodup_cons.mp hes
    have hset : m.set e.1 e.2 = e :: m := by rw [set, delete_of_notMem (hm e.1 mem_cons_self)]
    have hdisjoint : ∀ k ∈ keys es, k ∉ keys (e :: m) := by
      intro k hk' hmem
      rcases mem_cons.mp hmem with rfl | hmem
      · exact hk hk'
      · exact hm k (mem_cons_of_mem _ hk') hmem
    rw [foldl_cons, hset, ih hes hdisjoint, reverse_cons, append_assoc, singleton_append]

def total (keep : κ → Bool) (weight : α → Nat) (m : Assoc κ α) : Nat :=
  ((m.filter fun e => keep e.1).map fun e => weight e.2).sum

section
variable {keep : κ → Bool} {weight : α → Nat} {m : Assoc κ α}

omit [DecidableEq κ] [BEq κ] [LawfulBEq κ] in
theorem total_append (m m' : Assoc κ α) : total keep weight (m ++ m') = total keep weight m + total keep weight m' := by
  simp [total]

omit [DecidableEq κ] [BEq κ] [LawfulBEq κ] in
theorem total_filter (q : κ × α → Bool) (m : Assoc κ α) :
    total keep weight (m.filter q) + total keep weight (m.filter fun e => !q e) = total keep weight m := by
  rw [← total_append]
  exact (((filter_append_perm q m).filter _).map _).sum_nat

omit [BEq κ] [LawfulBEq κ] in
theorem total_set (m : Assoc κ α) (k : κ) (a : α) :
    total keep weight (m.set k a) = (if keep k then weight a else 0) + total keep weight (m.delete k) := by
  rw [set, total]
  by_cases hk : keep k <;> simp [hk, total]

theorem filter_key (hm : m.keys.Nodup) (k : κ) : m.filter (fun e => decide (e.1 = k)) = (m.get k).toList.map (Prod.mk k) := by
  induction m with
  | nil => rfl
  | cons e m ih =>
    obtain ⟨x, a⟩ := e
    obtain ⟨hx, hm⟩ := nodup_cons.mp hm
    rw [filter_cons, get, lookup_cons]
    by_cases hk : k = x
    · subst hk
      have hrest : m.filter (fun e => decide (e.1 = k)) = [] :=
        filter_eq_nil_iff.mpr fun e he heq => hx (mem_map.mpr ⟨e, he, of_decide_eq_true heq⟩)
      simp [hrest]
    · rw [if_neg (by simpa using Ne.symm hk), ih hm, show (k == x) = false from beq_eq_false_iff_ne.mpr hk]
      rfl

theorem total_delete (hm : m.keys.Nodup) (k : κ) :
    total keep weight m = (if keep k then ((m.get k).map weight).getD 0 else 0) + total keep weight (m.delete k) := by
  have hsplit : total keep weight _ + total keep weight _ = total keep weight m := total_filter (fun e => decide (e.1 = k)) m
  rw [filter_key hm] at hsplit
  rw [← hsplit, delete]
  congr 1
  · cases m.get k <;> by_cases hk : keep k <;> simp [total, hk]
  · simp [decide_not]

end

end Assoc
end Lib

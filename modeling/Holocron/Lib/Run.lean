import Mathlib.Data.List.Induction
import Mathlib.Data.List.Perm.Basic

/-! Runs of a system whose actions may fail, and their invariant rule. -/

namespace Lib
open List

variable {σ α ε : Type}

def runAll (step : σ → α → Except ε σ) : σ → List α → Except ε σ
  | s, [] => .ok s
  | s, a :: rest => do
    let s' ← step s a
    runAll step s' rest

/-- The condition holds at every action of the run, up to one that fails. -/
def Allowed (step : σ → α → Except ε σ) (allows : σ → α → Prop) : σ → List α → Prop
  | _, [] => True
  | s, a :: rest => allows s a ∧ ∀ s', step s a = .ok s' → Allowed step allows s' rest

instance Allowed.decidable (step : σ → α → Except ε σ) (allows : σ → α → Prop) [∀ s a, Decidable (allows s a)] :
    ∀ (s : σ) (as : List α), Decidable (Allowed step allows s as)
  | _, [] => .isTrue trivial
  | s, a :: rest =>
    match h : step s a with
    | .error _ => decidable_of_iff (allows s a) ⟨fun ha => ⟨ha, fun s' hs' => by cases h.symm.trans hs'⟩, And.left⟩
    | .ok s' =>
      have := Allowed.decidable step allows s' rest
      decidable_of_iff (allows s a ∧ Allowed step allows s' rest)
        ⟨fun ⟨ha, hr⟩ => ⟨ha, fun t ht => by cases h.symm.trans ht; exact hr⟩, fun ⟨ha, hr⟩ => ⟨ha, hr s' h⟩⟩

variable {allows cond : σ → α → Prop} {as bs l : List α} {s : σ} {step : σ → α → Except ε σ} {f : σ → α → σ} {a : α}

theorem Allowed.cons {s' : σ} (allowed : allows s a) (hstep : step s a = .ok s') (h : Allowed step allows s' as) :
    Allowed step allows s (a :: as) := by
  refine ⟨allowed, fun t ht => ?_⟩
  rw [hstep] at ht
  exact Except.ok.inj ht ▸ h

theorem Allowed.of_forall (h : ∀ s a, allows s a) (s : σ) (as : List α) : Allowed step allows s as := by
  induction as generalizing s with
  | nil => trivial
  | cons a as ih => exact ⟨h s a, fun s' _ => ih s'⟩

theorem Allowed.and {p q : σ → α → Prop} (hp : Allowed step p s as) (hq : Allowed step q s as) :
    Allowed step (fun s a => p s a ∧ q s a) s as := by
  induction as generalizing s with
  | nil => trivial
  | cons a as ih => exact ⟨⟨hp.1, hq.1⟩, fun s' hs => ih (hp.2 s' hs) (hq.2 s' hs)⟩

theorem Allowed.of_append (h : Allowed step allows s (as ++ bs)) : Allowed step allows s as := by
  induction as generalizing s with
  | nil => trivial
  | cons a as ih => exact ⟨h.1, fun s' hs => ih (h.2 s' hs)⟩

theorem Allowed.of_append_right {s' : σ} (h : Allowed step allows s (as ++ bs)) (hrun : runAll step s as = .ok s') :
    Allowed step allows s' bs := by
  induction as generalizing s with
  | nil =>
    cases hrun
    exact h
  | cons a as ih =>
    rw [runAll] at hrun
    cases hstep : step s a with
    | error e =>
      rw [hstep] at hrun
      cases hrun
    | ok s₁ =>
      rw [hstep] at hrun
      exact ih (h.2 s₁ hstep) hrun

theorem runAll_append (step : σ → α → Except ε σ) (s : σ) (as bs : List α) :
    runAll step s (as ++ bs) = (runAll step s as).bind fun s' => runAll step s' bs := by
  induction as generalizing s with
  | nil => rfl
  | cons a as ih =>
    rw [cons_append, runAll, runAll]
    cases step s a with
    | error e => rfl
    | ok s' => exact ih s'

theorem runAll_concat (step : σ → α → Except ε σ) (s : σ) (as : List α) (a : α) :
    runAll step s (as ++ [a]) = (runAll step s as).bind fun s' => step s' a := by
  rw [runAll_append]
  refine congrArg _ (funext fun s' => ?_)
  rw [runAll]
  cases step s' a <;> rfl

/-- Actions that cannot fail. -/
theorem runAll_total (f : σ → α → σ) (s : σ) (as : List α) :
    runAll (fun s a => (.ok (f s a) : Except ε σ)) s as = .ok (as.foldl f s) := by
  induction as generalizing s with
  | nil => rfl
  | cons a as ih => exact ih (f s a)

/-- If every allowed action succeeds and keeps a relation between the actions so far and the state,
    then so does every run of allowed actions. -/
theorem runAll_invariant {inv : List α → σ → Prop}
    (keeps : ∀ done s a, inv done s → allows s a → ∃ s', step s a = .ok s' ∧ inv (done ++ [a]) s')
      (allowed : Allowed step allows s as)
    {done : List α} (start : inv done s) :
    ∃ s', runAll step s as = .ok s' ∧ inv (done ++ as) s' := by
  induction as generalizing s done with
  | nil => exact ⟨s, rfl, by simpa using start⟩
  | cons a as ih =>
    obtain ⟨s₁, hstep, hinv⟩ := keeps done s a start allowed.1
    obtain ⟨s', hrun, hinv'⟩ := ih (allowed.2 s₁ hstep) hinv
    refine ⟨s', ?_, by simpa using hinv'⟩
    rw [runAll, hstep]
    exact hrun

/-- The condition holds at every action, in the state that those before it leave. -/
def Along (f : σ → α → σ) (s : σ) (as : List α) (cond : σ → α → Prop) : Prop :=
  ∀ done a rest, as = done ++ a :: rest → cond (done.foldl f s) a

theorem Along.nil : Along f s [] cond := by
  intro done a rest h
  simp at h

theorem Along.cons (head : cond s a) (tail : Along f (f s a) as cond) : Along f s (a :: as) cond := by
  intro done x rest h
  cases done with
  | nil =>
    cases h
    exact head
  | cons b done =>
    cases h
    exact tail done x rest rfl

theorem Along.and {p q : σ → α → Prop} (hp : Along f s as p) (hq : Along f s as q) : Along f s as fun s a => p s a ∧ q s a :=
  fun done a rest has => ⟨hp done a rest has, hq done a rest has⟩

theorem Along.tail (h : Along f s (a :: as) cond) : Along f (f s a) as cond :=
  fun done x rest has => h (a :: done) x rest (by rw [has]; rfl)

theorem Along.cons_iff : Along f s (a :: as) cond ↔ cond s a ∧ Along f (f s a) as cond :=
  ⟨fun h => ⟨h [] a as rfl, h.tail⟩, fun h => .cons h.1 h.2⟩

instance Along.decidable [∀ s a, Decidable (cond s a)] : (s : σ) → (as : List α) → Decidable (Along f s as cond)
  | _, [] => isTrue .nil
  | s, a :: as =>
    have := Along.decidable (f s a) as
    decidable_of_iff (cond s a ∧ Along f (f s a) as cond) cons_iff.symm

theorem Along.of_append (h : Along f s (as ++ bs) cond) : Along f s as cond :=
  fun done a rest has => h done a (rest ++ bs) (by rw [has, append_assoc, cons_append])

theorem Along.of_append_right (h : Along f s (as ++ bs) cond) : Along f (as.foldl f s) bs cond := by
  intro done a rest hbs
  rw [← foldl_append]
  exact h (as ++ done) a rest (by rw [hbs, append_assoc])

theorem Along.last (h : Along f s (as ++ [a]) cond) : cond (as.foldl f s) a := h as a [] rfl

theorem Along.of_mem {P : α → Prop} (h : ∀ a ∈ as, P a) : Along f s as fun _ a => P a := by
  rintro done a rest rfl
  exact h a (mem_append_right _ mem_cons_self)

/-- What every action keeps in a state that meets the condition, a run of such actions keeps. -/
theorem Along.invariant (inv : List α → σ → Prop) (keeps : ∀ done s a, inv done s → cond s a → inv (done ++ [a]) (f s a))
    (start : inv [] s) (h : Along f s as cond) : inv as (as.foldl f s) := by
  induction as using reverseRecOn with
  | nil => exact start
  | append_singleton as a ih =>
    rw [foldl_append]
    exact keeps as _ a (ih h.of_append) h.last

/-- Where every action takes from a rank, a run is no longer than the rank it started from. -/
theorem Along.length_le {rank : σ → Nat} (takes : ∀ s a, cond s a → rank (f s a) < rank s) (h : Along f s as cond) :
    as.length ≤ rank s := by
  induction as generalizing s with
  | nil => exact Nat.zero_le _
  | cons a as ih =>
    obtain ⟨ha, hrest⟩ := cons_iff.mp h
    exact Nat.le_trans (Nat.succ_le_succ (ih hrest)) (takes s a ha)

/-- The last element of a kind. -/
theorem exists_last {α : Type} {P : α → Prop} {l : List α} (h : ∃ x ∈ l, P x) :
    ∃ a x b, l = a ++ x :: b ∧ P x ∧ ∀ y ∈ b, ¬ P y := by
  induction l with
  | nil =>
    obtain ⟨x, hx, -⟩ := h
    cases hx
  | cons z l ih =>
    by_cases hl : ∃ x ∈ l, P x
    · obtain ⟨a, x, b, rfl, hx, hb⟩ := ih hl
      exact ⟨z :: a, x, b, rfl, hx, hb⟩
    · obtain ⟨x, hx, hP⟩ := h
      rcases mem_cons.mp hx with rfl | hx
      · exact ⟨[], x, l, rfl, hP, fun y hy hPy => hl ⟨y, hy, hPy⟩⟩
      · exact absurd ⟨x, hx, hP⟩ hl

/-- After one process has moved, a process is that one or stands where it stood. -/
theorem of_getElem?_set {i j : Nat} {x : α} (h : (l.set i a)[j]? = some x) :
    j = i ∧ x = a ∨ j ≠ i ∧ l[j]? = some x := by
  rw [getElem?_set] at h
  split at h
  · rename_i hij
    split at h
    · exact .inl ⟨hij.symm, (Option.some.inj h).symm⟩
    · cases h
  · rename_i hij
    exact .inr ⟨fun hji => hij hji.symm, h⟩

/-- A process of a list that has got one more is an old one or the new one. -/
theorem of_getElem?_concat {j : Nat} {x : α} (h : (l ++ [a])[j]? = some x) :
    l[j]? = some x ∨ j = l.length ∧ x = a := by
  rcases Nat.lt_trichotomy j l.length with hj | rfl | hj
  · rw [getElem?_append_left hj] at h
    exact .inl h
  · rw [getElem?_concat_length] at h
    exact .inr ⟨rfl, (Option.some.inj h).symm⟩
  · rw [getElem?_eq_none (by rw [length_append]; exact hj)] at h
    cases h

theorem perm_eraseIdx {i : Nat} (h : l[i]? = some a) : l.Perm (a :: l.eraseIdx i) := by
  obtain ⟨hlt, rfl⟩ := List.getElem?_eq_some_iff.mp h
  exact (getElem_cons_eraseIdx_perm hlt).symm

end Lib

import Holocron.Lib.Run

/-! Objects that are called one call after the other: their answers compared with those of an abstract object. -/

namespace Lib

variable {σ μ κ α : Type}

def trace (step : σ → κ → α × σ) : σ → List κ → List (κ × α)
  | _, [] => []
  | s, c :: cs => (c, (step s c).1) :: trace step (step s c).2 cs

/-- An abstract object: which answers to a call are right in a state, and the state after the call. -/
structure Spec (μ κ α : Type) where
  right : μ → κ → α → Prop
  next : μ → κ → μ

namespace Spec

variable {S : Spec μ κ α} {step : σ → κ → α × σ}

def Follows (S : Spec μ κ α) : μ → List (κ × α) → Prop
  | _, [] => True
  | m, (c, a) :: rest => S.right m c a ∧ S.Follows (S.next m c) rest

/-- A relation to the abstract object under which the answers are right, and that the calls keep, makes every history
    right. -/
theorem follows_trace {R : σ → μ → Prop} {cond : σ → κ → Prop}
    (keeps : ∀ s m c, R s m → cond s c → S.right m c (step s c).1 ∧ R (step s c).2 (S.next m c)) {s : σ} {m : μ}
      (start : R s m) {cs : List κ}
    (h : Along (fun s c => (step s c).2) s cs cond) : S.Follows m (trace step s cs) := by
  induction cs generalizing s m with
  | nil => trivial
  | cons c cs ih =>
    obtain ⟨hc, hcs⟩ := Along.cons_iff.mp h
    obtain ⟨hright, hR⟩ := keeps s m c start hc
    exact ⟨hright, ih hR hcs⟩

end Spec

end Lib

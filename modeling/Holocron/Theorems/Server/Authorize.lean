import Holocron.Server.Authorize
import Mathlib.Data.List.TakeDrop

/-! Scopes are accepted by their grammar and mean what it says, and the authorizer grants what one of them says. -/

namespace Holocron.Server
open Lib List

/-- A verb, or a verb and a resource, without a blank; a star is the end of the resource or nowhere. -/
structure Grammatical (s verb : Bytes) (resource : Option Bytes) : Prop where
  text : s = verb ++ resource.elim [] (colon :: ·)
  blanks : ¬ (32 ∈ s ∨ 9 ∈ s ∨ 10 ∈ s)
  verb : verb ≠ [] ∧ star ∉ verb ∧ colon ∉ verb
  resource : ∀ r ∈ resource, r ≠ [] ∧ colon ∉ r ∧ star ∉ r.dropLast

/-- A bare verb denotes the empty resource, a star at the end whatever starts with what is before it. -/
def Denotes : Option Bytes → Bytes → Prop
  | none, requested => requested = []
  | some r, requested => requested = r ∨ ∃ body, r = body ++ [star] ∧ body <+: requested

def scopeOf (verb : Bytes) : Option Bytes → Scope
  | none => ⟨verb, [], false⟩
  | some r => if r.getLast? = some star then ⟨verb, r.dropLast, true⟩ else ⟨verb, r, false⟩

theorem cut_colon {verb : Bytes} (h : colon ∉ verb) (r : Bytes) : cut colon (verb ++ colon :: r) = some (verb, r) := by
  have hverb : ∀ b ∈ verb, decide (b ≠ colon) = true := fun b hb => decide_eq_true fun heq => h (heq ▸ hb)
  rw [cut, takeWhile_append_of_pos hverb, dropWhile_append_of_pos hverb]
  simp

theorem Grammatical.parse {s verb : Bytes} {resource : Option Bytes} (h : Grammatical s verb resource) :
    parseScope s = .ok (scopeOf verb resource) := by
  obtain ⟨rfl, blanks, ⟨hne, hstar, hcolon⟩, hresource⟩ := h
  unfold parseScope
  rw [if_neg fun hnil => hne (append_eq_nil_iff.mp hnil).1, if_neg blanks]
  cases resource with
  | none => rw [Option.elim_none, append_nil, cut, if_neg hcolon, if_neg hstar, scopeOf]
  | some r =>
    obtain ⟨hr, hsecond, hinner⟩ := hresource r rfl
    rw [Option.elim_some, cut_colon hcolon]
    simp only [if_neg hne, if_neg hstar, if_neg hr, if_neg hsecond, scopeOf]
    split
    · rename_i hall
      rw [hall]
      rfl
    · split
      · rfl
      · rename_i hlast
        refine if_neg fun hmem => ?_
        rw [← dropLast_append_getLast hr, mem_append, mem_singleton] at hmem
        exact hlast (by rw [getLast?_eq_some_getLast hr, hmem.resolve_left hinner])

theorem grammatical_of_parse {s : Bytes} {scope : Scope} (h : parseScope s = .ok scope) :
    ∃ verb resource, Grammatical s verb resource := by
  unfold parseScope at h
  split at h
  · cases h
  split at h
  · cases h
  rename_i hne blanks
  by_cases hmem : colon ∈ s
  · obtain ⟨verb, r, rfl, hcolon⟩ := eq_append_cons_of_mem hmem
    rw [cut_colon hcolon] at h
    dsimp only at h
    split at h
    · cases h
    split at h
    · cases h
    split at h
    · cases h
    split at h
    · cases h
    rename_i hverb hstar hr hsecond
    refine ⟨verb, some r, rfl, blanks, ⟨hverb, hstar, hcolon⟩, fun r' hr' => ?_⟩
    cases hr'
    refine ⟨hr, hsecond, fun hinner => ?_⟩
    rw [if_pos (dropLast_subset r hinner)] at h
    split at h
    · rename_i hall
      rw [hall] at hinner
      cases hinner
    · split at h <;> cases h
  · rw [cut, if_neg hmem] at h
    dsimp only at h
    split at h
    · cases h
    · exact ⟨s, none, (append_nil s).symm, blanks, ⟨hne, ‹_›, hmem⟩, nofun⟩

theorem scopeOf_matches (verb : Bytes) (resource : Option Bytes) (action : Action) (requested : Bytes) :
    (scopeOf verb resource).matches action requested = true ↔ verb = action.verb ∧ Denotes resource requested := by
  cases resource with
  | none => cases requested <;> simp [scopeOf, Scope.matches, Denotes]
  | some r =>
    by_cases hlast : ∃ body, r = body ++ [star]
    · obtain ⟨body, rfl⟩ := hlast
      have hdenotes : Denotes (some (body ++ [star])) requested ↔ body <+: requested := by
        refine ⟨?_, fun h => .inr ⟨body, rfl, h⟩⟩
        rintro (rfl | ⟨body', heq, h⟩)
        · exact prefix_append ..
        · rwa [append_cancel_right heq]
      rw [hdenotes]
      simp [scopeOf, Scope.matches]
    · have hscope : scopeOf verb (some r) = ⟨verb, r, false⟩ := if_neg (mt getLast?_eq_some_iff.mp hlast)
      rw [hscope]
      simp [Scope.matches, Denotes, not_exists.mp hlast]

theorem grants_iff {raw : Bytes} {action : Action} {requested : Bytes} : grants raw action requested = true ↔
    ∃ resource, Grammatical raw action.verb resource ∧ Denotes resource requested := by
  unfold grants
  constructor
  · intro h
    split at h
    · cases h
    · rename_i scope hparse
      obtain ⟨verb, resource, hgrammar⟩ := grammatical_of_parse hparse
      cases hgrammar.parse.symm.trans hparse
      obtain ⟨rfl, hdenotes⟩ := (scopeOf_matches ..).mp h
      exact ⟨resource, hgrammar, hdenotes⟩
  · rintro ⟨resource, hgrammar, hdenotes⟩
    rw [hgrammar.parse]
    exact (scopeOf_matches ..).mpr ⟨rfl, hdenotes⟩

/-- A scope is accepted exactly if it is in the grammar, and a principal may do what one of its scopes says. -/
theorem scopes_by_grammar : (∀ s, (∃ scope, parseScope s = .ok scope) ↔ ∃ verb resource, Grammatical s verb resource) ∧
    ∀ (p : Principal) (action : Action) (requested : Bytes), authorize p action requested = true ↔
      p.subject ≠ [] ∧ ∃ s ∈ p.scopes, ∃ resource, Grammatical s action.verb resource ∧ Denotes resource requested := by
  refine ⟨fun s => ⟨fun ⟨_, h⟩ => grammatical_of_parse h, fun ⟨_, _, h⟩ => ⟨_, h.parse⟩⟩, fun p action requested => ?_⟩
  by_cases hanonymous : p.subject = []
  · simp [authorize, Principal.isAnonymous, hanonymous]
  · simp [authorize, Principal.isAnonymous, grants_iff]

end Holocron.Server

import Holocron.Connect.HttpSource
import Holocron.Lib.Run

/-! Nothing is lost as long as no Send fails in the middle of a page that moves the cursor. -/

namespace Holocron.Connect.Http
open Lib List

variable {cfg : SourceConfig} {get : Bytes → Page} {page : Bytes}

/-- Every line of the page was sent. -/
def Delivered (cfg : SourceConfig) (get : Bytes → Page) (sent : List (Bytes × Nat)) (page : Bytes) : Prop :=
  ∀ i < (lines (get (buildURL cfg page)).body).length, (page, i) ∈ sent

theorem Delivered.append {sent : List (Bytes × Nat)} (h : Delivered cfg get sent page) (more : List (Bytes × Nat)) :
    Delivered cfg get (sent ++ more) page := fun i hi => mem_append_left _ (h i hi)

theorem length_poll (cfg : SourceConfig) (get : Bytes → Page) (page : Bytes) :
    (poll cfg get page).1.length = (lines (get (buildURL cfg page)).body).length := by
  exact length_map _

namespace State

/-- What holds at a stage: of the pages that were crossed, only the one that is being sent can still be undelivered. -/
def AtStage (cfg : SourceConfig) (get : Bytes → Page) (s : State) : Stage → Prop
  | .stopped => True
  | .polling _ => ∀ c ∈ s.crossed, Delivered cfg get s.sent c
  | .sending page cursor records i => records.length = (lines (get (buildURL cfg page)).body).length ∧
      (∀ j < i, (page, j) ∈ s.sent) ∧ ∀ c ∈ s.crossed, Delivered cfg get s.sent c ∨ c = page ∧ cursor ≠ page
  | .saving _ _ _ => ∀ c ∈ s.crossed, Delivered cfg get s.sent c

structure Inv (cfg : SourceConfig) (get : Bytes → Page) (s : State) : Prop where
  passed : ∀ c ∈ s.passed, Delivered cfg get s.sent c
  stage : s.AtStage cfg get s.stage

/-- A Send that fails is that of the first record of its page, or the page does not move the cursor. -/
def Whole (s : State) (a : Action) : Prop :=
  match a, s.stage with
  | .send false, .sending page cursor _ i => i = 0 ∨ cursor = page
  | _, _ => True

instance (s : State) (a : Action) : Decidable (s.Whole a) := by
  unfold Whole
  split <;> infer_instance

variable {s : State}

theorem Inv.new : Inv cfg get new := ⟨fun _ h => absurd h not_mem_nil, trivial⟩

theorem Inv.stopped (h : s.Inv cfg get) : Inv cfg get { s with stage := .stopped } := ⟨h.passed, trivial⟩

theorem Inv.afterPoll (h : s.Inv cfg get) (stage : s.stage = .polling page) : (s.afterPoll cfg get page).Inv cfg get := by
  have hcrossed : ∀ c ∈ s.crossed, Delivered cfg get s.sent c := by
    have hstage := h.stage
    rwa [stage] at hstage
  have hlength := length_poll cfg get page
  unfold State.afterPoll
  dsimp only
  -- the pages that are crossed then
  have hmem : ∀ c ∈ (if (poll cfg get page).2 = page then s.crossed else s.crossed ++ [page]),
      Delivered cfg get s.sent c ∨ c = page ∧ (poll cfg get page).2 ≠ page := by
    intro c hc
    split at hc
    · exact .inl (hcrossed c hc)
    · rename_i hmoved
      rcases mem_append.mp hc with hc | hc
      · exact .inl (hcrossed c hc)
      · exact .inr ⟨mem_singleton.mp hc, hmoved⟩
  refine ⟨h.passed, ?_⟩
  split
  · rename_i hnil
    intro c hc
    rcases hmem c hc with hdelivered | ⟨rfl, -⟩
    · exact hdelivered
    · intro i hi
      rw [← hlength, hnil] at hi
      exact absurd hi (Nat.not_lt_zero i)
  · exact ⟨hlength, fun j hj => absurd hj (Nat.not_lt_zero j), hmem⟩

section
variable (h : s.Inv cfg get) {page cursor : Bytes} {records : List SourceRecord} {i : Nat}
    (stage : s.stage = .sending page cursor records i)
include h stage

theorem Inv.sent :
    (s.afterSend page cursor records i true).Inv cfg get := by
  obtain ⟨hlength, hsent, hcrossed⟩ : s.AtStage cfg get (.sending page cursor records i) := stage ▸ h.stage
  have hupto : ∀ j < i + 1, (page, j) ∈ s.sent ++ [(page, i)] := by
    intro j hj
    rcases Nat.lt_succ_iff_lt_or_eq.mp hj with hj | rfl
    · exact mem_append_left _ (hsent j hj)
    · exact mem_append_right _ mem_cons_self
  unfold afterSend
  rw [if_pos rfl]
  refine ⟨fun c hc => (h.passed c hc).append _, ?_⟩
  split
  · exact ⟨hlength, hupto, fun c hc => (hcrossed c hc).imp_left fun hdelivered => hdelivered.append _⟩
  · intro c hc
    rcases hcrossed c hc with hdelivered | ⟨rfl, -⟩
    · exact hdelivered.append _
    · exact fun j hj => hupto j (by omega)

theorem Inv.failed
    (whole : i = 0 ∨ cursor = page) : (s.afterSend page cursor records i false).Inv cfg get := by
  obtain ⟨-, -, hcrossed⟩ : s.AtStage cfg get (.sending page cursor records i) := stage ▸ h.stage
  unfold afterSend
  rw [if_neg Bool.false_ne_true]
  refine ⟨h.passed, ?_⟩
  split
  · trivial
  · rename_i hi
    intro c hc
    exact (hcrossed c hc).resolve_right fun hpage => hpage.2 (whole.resolve_left hi)

end

theorem Inv.saved (h : s.Inv cfg get) {cursor : Bytes} {records : List SourceRecord} {failed : Bool}
    (stage : s.stage = .saving cursor records failed)
    (ok : Bool) : Inv cfg get { s.saveOffsets records ok with stage := if failed then .stopped else .polling cursor } := by
  have hcrossed : ∀ c ∈ s.crossed, Delivered cfg get s.sent c := by
    have hstage := h.stage
    rwa [stage] at hstage
  have hnext : ∀ t : State, t.crossed = s.crossed → t.sent = s.sent →
      t.AtStage cfg get (if failed then .stopped else .polling cursor) := by
    intro t ht hsent
    split
    · trivial
    · intro c hc
      rw [ht] at hc
      rw [hsent]
      exact hcrossed c hc
  unfold saveOffsets
  dsimp only
  split
  · refine ⟨fun c hc => ?_, hnext _ rfl rfl⟩
    exact (mem_append.mp hc).elim (h.passed c) (hcrossed c)
  · exact ⟨h.passed, hnext _ rfl rfl⟩

theorem Inv.step (h : s.Inv cfg get) {a : Action} (whole : s.Whole a) : (s.step cfg get a).Inv cfg get := by
  unfold State.step
  split
  · exact ⟨h.passed, fun c hc => absurd hc not_mem_nil⟩
  · exact h.stopped
  · rename_i hstage
    exact h.afterPoll hstage
  · exact h.stopped
  · rename_i ok page cursor records i hstage
    cases ok with
    | true => exact h.sent hstage
    | false =>
      unfold Whole at whole
      rw [hstage] at whole
      exact h.failed hstage whole
  · rename_i ok cursor records failed hstage
    exact h.saved hstage ok
  · exact h.stopped
  · exact h

/-- Every line of a page that the task has moved its cursor past in a saved offset was sent, as long as no Send fails in
    the middle of a page. -/
theorem delivers_at_least_once (cfg : SourceConfig) (get : Bytes → Page) {actions : List Action}
    (whole : Along (State.step cfg get) State.new actions Whole) :
    ∀ c ∈ (actions.foldl (State.step cfg get) State.new).passed,
      Delivered cfg get (actions.foldl (State.step cfg get) State.new).sent c := by
  have h := whole.invariant (fun _ s => s.Inv cfg get) (fun _ _ _ h hwhole => h.step hwhole) .new
  exact h.passed

def twoLines : SourceConfig := ⟨utf8 "http://e", utf8 "t", utf8 "c", utf8 "X-Next", []⟩

def endpoint (url : Bytes) : Page := if url = utf8 "http://e" then ⟨utf8 "1", utf8 "a\nb\n"⟩ else ⟨[], []⟩

theorem delivers_at_least_once_two_lines :
    Delivered twoLines endpoint ([.start, .poll, .send true, .send true, .save true, .poll, .crash].foldl
      (State.step twoLines endpoint) State.new).sent [] :=
  delivers_at_least_once twoLines endpoint (by
    repeat' refine .cons (by decide +kernel) ?_
    exact .nil) [] (by decide +kernel)

/-- The Send of b fails: the cursor 1 is saved for a, and the task that is started next polls the page after the two
    lines. -/
theorem failed_send_skips_line :
    let s := [.start, .poll, .send true, .send false, .save true, .start].foldl (State.step twoLines endpoint) State.new
    s.passed = [[]] ∧ s.stage = .polling (utf8 "1") ∧ s.sent = [([], 0)] ∧
      lines (endpoint (buildURL twoLines [])).body = [utf8 "a", utf8 "b"] := by
  decide +kernel

end State
end Holocron.Connect.Http

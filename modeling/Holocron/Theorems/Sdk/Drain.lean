import Mathlib.Data.List.Basic
import Holocron.Sdk.Drain

/-! What a replay through a consumer makes of the records it is given: of every key the value of its last record. -/

namespace Holocron.Sdk
open Lib List Function

variable {ω : Type} {decode : Bytes → Option ω} {k : Bytes}

def latest (k : Bytes) (rs : List Record) : Option Record := (rs.filter fun r => decide (Slice.bytes r.key = k)).getLast?

theorem latest_append (a b : List Record) : latest k (a ++ b) = (latest k b).or (latest k a) := by
  rw [latest, filter_append, getLast?_append]
  rfl

theorem latest_concat (rs : List Record) (r : Record) : latest k (rs ++ [r]) = if r.key.bytes = k then some r
    else latest k rs := by
  by_cases h : r.key.bytes = k <;> simp [latest, h]

variable {rs : List Record} {entries before : Bytes → Option ω} {r : Record}

theorem mem_of_latest (h : latest k rs = some r) : r ∈ rs ∧ r.key.bytes = k := by
  obtain ⟨hmem, hkey⟩ := mem_filter.mp (mem_of_getLast? h)
  exact ⟨hmem, of_decide_eq_true hkey⟩

def setting (decode : Bytes → Option ω) (r : Record) : Option (Option ω) :=
  match r.value with
  | none => some none
  | some v => (decode v).map some

def after (decode : Bytes → Option ω) (k : Bytes) (rs : List Record) (x : Option ω) : Option ω :=
  match latest k rs with
  | none => x
  | some r => (setting decode r).join

theorem after_of_none (h : latest k rs = none) (x : Option ω) : after decode k rs x = x := by
  rw [after, h]

theorem after_of_latest (h : latest k rs = some r) (x : Option ω) : after decode k rs x = (setting decode r).join := by
  rw [after, h]

theorem after_append (a b : List Record) (x : Option ω) :
    after decode k (a ++ b) x = after decode k b (after decode k a x) := by
  unfold after
  rw [latest_append]
  cases latest k b <;> rfl

theorem after_concat (rs : List Record) (r : Record) (x : Option ω) :
    after decode k (rs ++ [r]) x = if r.key.bytes = k then (setting decode r).join else after decode k rs x := by
  by_cases hk : r.key.bytes = k
  · rw [if_pos hk, after_of_latest (by rw [latest_concat, if_pos hk])]
  · rw [if_neg hk, after, latest_concat, if_neg hk, after]

theorem replayRecord_eq (entries : Bytes → Option ω) (r : Record) : replayRecord decode entries r =
    match setting decode r with
    | none => .error (.decode r.key.bytes)
    | some x => .ok (update entries r.key.bytes x) := by
  unfold replayRecord setting
  cases r.value with
  | none => rfl
  | some v =>
    dsimp only
    cases decode v <;> rfl

/-- All records decode, and the entries are what they leave of the ones before. -/
structure Folds (decode : Bytes → Option ω) (before : Bytes → Option ω) (rs : List Record)
    (entries : Bytes → Option ω) : Prop where
  decodes : ∀ r ∈ rs, (setting decode r).isSome
  entry : ∀ k, entries k = after decode k rs (before k)

theorem runAll_replayRecord :
    runAll (replayRecord decode) before rs = .ok entries ↔ Folds decode before rs entries := by
  induction rs using reverseRecOn generalizing entries with
  | nil =>
    constructor
    · rintro ⟨⟩
      exact ⟨forall_mem_nil _, fun _ => rfl⟩
    · exact fun h => congrArg Except.ok (funext h.entry).symm
  | append_singleton rs r ih =>
    rw [runAll_concat]
    constructor
    · intro h
      obtain ⟨mid, hmid, hlast⟩ : ∃ mid, runAll (replayRecord decode) before rs = .ok mid ∧
          replayRecord decode mid r = .ok entries := by
        cases hrs : runAll (replayRecord decode) before rs with
        | error e =>
          rw [hrs] at h
          cases h
        | ok mid =>
          rw [hrs] at h
          exact ⟨mid, rfl, h⟩
      have hfolds := ih.mp hmid
      rw [replayRecord_eq] at hlast
      cases hset : setting decode r with
      | none =>
        rw [hset] at hlast
        cases hlast
      | some x =>
        rw [hset] at hlast
        cases hlast
        refine ⟨fun a ha => ?_, fun k => ?_⟩
        · rcases mem_append.mp ha with ha | ha
          · exact hfolds.decodes a ha
          · rw [mem_singleton.mp ha, hset]
            rfl
        · rw [after_concat, hset]
          by_cases hk : r.key.bytes = k
          · rw [if_pos hk, ← hk, update_self]
            rfl
          · rw [if_neg hk, update_of_ne (Ne.symm hk)]
            exact hfolds.entry k
    · intro h
      have hmid : Folds decode before rs fun k => after decode k rs (before k) :=
        ⟨fun a ha => h.decodes a (mem_append_left _ ha), fun _ => rfl⟩
      rw [ih.mpr hmid]
      change replayRecord decode _ r = _
      obtain ⟨x, hx⟩ := Option.isSome_iff_exists.mp (h.decodes r mem_concat_self)
      rw [replayRecord_eq, hx]
      refine congrArg Except.ok (funext fun k => ?_)
      rw [h.entry, after_concat, hx]
      by_cases hk : r.key.bytes = k
      · rw [if_pos hk, ← hk, update_self]
        rfl
      · rw [if_neg hk, update_of_ne (Ne.symm hk)]

/-- What the Polls of a consumer can return when these records are left: a first part of them, or that the deadline has
    passed. -/
inductive Delivers : List Record → List Polled → Prop where
  | waiting (rs : List Record) : Delivers rs []
  | batch {b rs : List Record} {polls : List Polled} (nonempty : b ≠ []) (rest : Delivers rs polls) :
      Delivers (b ++ rs) (.ok b :: polls)
  | deadline (rs : List Record) (polls : List Polled) : Delivers rs (.error .deadlineExceeded :: polls)

def delivered : List Polled → List Record
  | .ok b :: polls => b ++ delivered polls
  | _ => []

theorem drain_delivered {polls : List Polled} (h : Delivers rs polls)
    (drained : drain decode polls before = some (.ok entries)) :
    delivered polls <+: rs ∧ Folds decode before (delivered polls) entries := by
  induction h generalizing before with
  | waiting rs => cases drained
  | deadline rs polls =>
    cases drained
    exact ⟨ nil_prefix, forall_mem_nil _, fun _ => rfl⟩
  | @batch b rs polls nonempty _ ih =>
    rw [drain, if_neg nonempty] at drained
    cases hb : runAll (replayRecord decode) before b with
    | error e =>
      rw [hb] at drained
      cases drained
    | ok mid =>
      rw [hb] at drained
      obtain ⟨hfirst, hfolds⟩ := ih drained
      have hmid := runAll_replayRecord.mp hb
      refine ⟨prefix_append_right_inj b |>.mpr hfirst, fun r hr => ?_, fun k => ?_⟩
      · exact (mem_append.mp hr).elim (hmid.decodes r) (hfolds.decodes r)
      · rw [hfolds.entry, hmid.entry, delivered, after_append]

/-- The records left decode, and end at every key in what those seen end in. -/
structure Repeats (decode : Bytes → Option ω) (seen left : List Record) : Prop where
  decodes : ∀ r ∈ left, (setting decode r).isSome
  same : ∀ k r, latest k left = some r → (setting decode r).join = after decode k seen none

theorem folds_append_iff {seen left : List Record} (h : Folds decode (fun _ => none) seen entries) :
    Folds decode (fun _ => none) (seen ++ left) entries ↔ Repeats decode seen left := by
  constructor
  · refine fun hall => ⟨fun r hr => hall.decodes r (mem_append_right _ hr), fun k r hr => ?_⟩
    have hentry := hall.entry k
    rw [h.entry, after_append] at hentry
    rw [hentry, after_of_latest hr]
  · refine fun hsame => ⟨fun r hr => (mem_append.mp hr).elim (h.decodes r) (hsame.decodes r), fun k => ?_⟩
    rw [h.entry, after_append]
    cases hr : latest k left with
    | none => rw [after_of_none hr]
    | some r => rw [after_of_latest hr, hsame.same k r hr]

end Holocron.Sdk

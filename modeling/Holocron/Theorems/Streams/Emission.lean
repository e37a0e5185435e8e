import Holocron.Streams.Window
import Holocron.Theorems.Streams.Chain

/-! What becomes of a closed window: one that a record closes goes through the operators behind the window operator, one
    that the punctuator closes goes to the sink as it is. -/

namespace Holocron.Streams
open Lib Sdk List

/-- A pipeline with a window operator; `closed` are the records of the windows closed so far, kept for the specification
    only. -/
structure Emitting where
  shared : Shared (Int32 → SubStore)
  sent : List Record
  closed : List Record

inductive Input where
  | record (x : PolledRecord)
  | tick (now : Int64) (parts : List Int32)

namespace Emitting

variable (cfg : Config) (op : WindowOp) (before : List (Operator (Int32 → SubStore))) (fs : List (Record → List Record))
    (sink : Bytes)

def upToWindow (s : Emitting) (x : PolledRecord) : List (Operator (Int32 → SubStore)) :=
  before ++ [op.operator cfg.extract (advanceWatermark s.shared (cfg.extract x.record)).1]

def step (s : Emitting) : Input → Emitting
  | .record x =>
    let ops := upToWindow cfg op before s x
    let (outs, shared) := (Task.pipeline (ops ++ fs.map pureOp) sink).process cfg s.shared x
    let closed := (flatOps x.partition.index ops [x.record] (advanceWatermark s.shared (cfg.extract x.record)).2).1
    ⟨shared, s.sent ++ outs, s.closed ++ closed⟩
  | .tick now parts =>
    let (watermark, shared) := advanceWatermark s.shared now
    let (out, stores) := op.punctuator watermark parts shared.stores
    ⟨{ shared with stores := stores }, s.sent ++ out, s.closed ++ out⟩

/-- At a record no operator writes more results into the slice it reads from than it has read (`next := out[:0]`). -/
def ResultsTrail (s : Emitting) : Input → Prop
  | .record x =>
    Trailed x.partition.index (upToWindow cfg op before s x ++ fs.map pureOp) [x.record]
      (advanceWatermark s.shared (cfg.extract x.record)).2
  | .tick _ _ => True

/-- The later operators make the same records of the windows that a tick closes. -/
def TickKept (s : Emitting) : Input → Prop
  | .record _ => True
  | .tick now parts =>
    let windows := (op.punctuator (advanceWatermark s.shared now).1 parts (advanceWatermark s.shared now).2.stores).1
    (windows.flatMap fun w => compose fs [w]) = windows

/-- Every closed window has reached the sink as the later operators compose. -/
def Reached (s : Emitting) : Prop := s.sent = s.closed.flatMap fun w => compose fs [w]

instance (s : Emitting) : (a : Input) → Decidable (TickKept op fs s a)
  | .record _ => isTrue trivial
  | .tick _ _ => inferInstanceAs (Decidable (_ = _))

instance (s : Emitting) : Decidable (s.Reached fs) := inferInstanceAs (Decidable (_ = _))

end Emitting

theorem compose_eq_flatMap (fs : List (Record → List Record)) (rs : List Record) :
    compose fs rs = rs.flatMap fun r => compose fs [r] := by
  induction fs generalizing rs with
  | nil => simp [compose]
  | cons f fs ih =>
    have hcons (rs : List Record) : compose (f :: fs) rs = compose fs (rs.flatMap f) := rfl
    simp only [hcons, flatMap_singleton]
    rw [ih, flatMap_assoc]
    exact flatMap_congr fun r _ => (ih (f r)).symm

theorem flatOps_append {σ : Type} {partition : Int32} (ops ops' : List (Operator σ)) (rs : List Record) (s : Shared σ) :
    flatOps partition (ops ++ ops') rs s =
      flatOps partition ops' (flatOps partition ops rs s).1 (flatOps partition ops rs s).2 := by
  induction ops generalizing rs s with
  | nil => rfl
  | cons o ops ih => exact ih _ _

namespace Emitting

variable {cfg : Config} {op : WindowOp} {before : List (Operator (Int32 → SubStore))} {fs : List (Record → List Record)}
    {sink : Bytes}

theorem reached_record (hsink : sink ≠ []) {s : Emitting} {x : PolledRecord}
    (trailed : ResultsTrail cfg op before fs s (.record x))
    (h : s.Reached fs) : (step cfg op before fs sink s (.record x)).Reached fs := by
  have hagrees : Agrees cfg x.partition.index _ (.ofOne x.record) _ := Trailed.agrees trailed (Nat.le_refl 1)
  unfold Agrees at hagrees
  rw [flatOps_append, flatOps_pureOp, compose_eq_flatMap] at hagrees
  unfold Reached at h ⊢
  simp only [step, Task.process, if_neg hsink, (Prod.mk.inj hagrees).1, flatMap_append, h]
  rfl

theorem reached_tick_iff (cfg : Config) (before : List (Operator (Int32 → SubStore))) (sink : Bytes) {s : Emitting}
    (h : s.Reached fs) (now : Int64) (parts : List Int32) :
    (step cfg op before fs sink s (.tick now parts)).Reached fs ↔ TickKept op fs s (.tick now parts) := by
  unfold Reached at h ⊢
  simp only [step, flatMap_append, h, append_cancel_left_eq, TickKept]
  exact eq_comm

/-- Where the operators' results trail, every closed window reaches the sink as the later operators compose, whenever
    one looks, exactly if these make the same records of the windows that the ticks close. -/
theorem windows_reach_sink (hsink : sink ≠ []) (shared : Shared (Int32 → SubStore)) {inputs : List Input}
    (trailed : Along (step cfg op before fs sink) ⟨shared, [], []⟩ inputs (ResultsTrail cfg op before fs)) :
    (∀ done rest, inputs = done ++ rest → (done.foldl (step cfg op before fs sink) ⟨shared, [], []⟩).Reached fs) ↔
      Along (step cfg op before fs sink) ⟨shared, [], []⟩ inputs (TickKept op fs) := by
  constructor
  · intro h done a rest hinputs
    cases a with
    | record x => trivial
    | tick now parts =>
      have hafter := h (done ++ [.tick now parts]) rest (by rw [hinputs, append_assoc]; rfl)
      rw [foldl_append] at hafter
      exact (reached_tick_iff cfg before sink (h done _ hinputs) now parts).mp hafter
  · intro kept done rest hinputs
    subst hinputs
    refine (trailed.of_append.and kept.of_append).invariant (fun _ s => s.Reached fs) (fun _ s a h cond => ?_) rfl
    cases a with
    | record x => exact reached_record hsink cond.1 h
    | tick now parts => exact (reached_tick_iff cfg before sink h now parts).mpr cond.2

def keyed (key : UInt8) (time : Int64) : PolledRecord := ⟨⟨0, time, some [key], none, []⟩, ⟨utf8 "t", 0⟩⟩

def idle : Emitting := ⟨⟨0, fun _ => [], fun _ _ => none, .empty⟩, [], []⟩

def ofFirstKey (r : Record) : List Record := if r.key = some [1] then [r] else []

/-- The first tick closes a window that the filter keeps; the window of the other key is closed by a record, and dropped. -/
def tickedAndClosed : List Input :=
  [.record (keyed 1 5), .tick 15 [0], .record (keyed 2 25), .record (keyed 1 45), .tick 100 [0]]

theorem windows_reach_sink_record :
    let run := tickedAndClosed.foldl (step Loop.plainConfig (tumblingCount 10) [] [ofFirstKey] (utf8 "out")) idle
    run.closed = [closedRecord [1] (encodeCount 1) 0 10, closedRecord [2] (encodeCount 1) 20 30, closedRecord [1]
      (encodeCount 1) 40 50] ∧ run.Reached [ofFirstKey] := by
  have htrailed : Along (step Loop.plainConfig (tumblingCount 10) [] [ofFirstKey] (utf8 "out")) idle tickedAndClosed
      (ResultsTrail Loop.plainConfig (tumblingCount 10) [] [ofFirstKey]) := by
    have hone : ∀ r, (ofFirstKey r).length ≤ 1 := fun r => by
      unfold ofFirstKey
      split
      · exact Nat.le_refl 1
      · exact Nat.zero_le 1
    intro done a rest _
    cases a with
    | record x => exact ⟨trivial, trails_of_single (f := runOp (pureOp ofFirstKey) x.partition.index)
        (fun _ r => hone r) 0 _ _, trivial⟩
    | tick now parts => trivial
  have hkept : Along (step Loop.plainConfig (tumblingCount 10) [] [ofFirstKey] (utf8 "out")) idle tickedAndClosed
      (TickKept (tumblingCount 10) [ofFirstKey]) := by
    decide +kernel
  exact ⟨by decide +kernel, (windows_reach_sink (by decide) _ htrailed).mpr hkept tickedAndClosed [] (append_nil _).symm⟩

/-- A window that a tick closes is sent although a later operator drops every record. -/
theorem tick_bypasses :
    let run (inputs : List Input) := inputs.foldl (step Loop.plainConfig (tumblingCount 10) [] [fun _ => []] (utf8 "out")) idle
    let window := closedRecord [1] (encodeCount 1) 0 10
    (run [.record (keyed 1 5), .tick 100 [0]]).closed = [window] ∧ (run [.record (keyed 1 5), .tick 100 [0]]).sent = [window] ∧
      (run [.record (keyed 1 5), .record (keyed 1 25)]).closed = [window] ∧
        (run [.record (keyed 1 5), .record (keyed 1 25)]).sent = [] := by
  decide +kernel

end Emitting
end Holocron.Streams

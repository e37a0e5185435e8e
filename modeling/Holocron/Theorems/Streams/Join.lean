import Holocron.Lib.Run
import Holocron.Streams.Join
import Mathlib.Data.List.Nodup

/-! Verdicts of left and outer joins: a record is paired or reported, never both, as long as none is paired with one
    whose window was closed. -/

namespace Holocron.Streams
open Lib List

inductive Emission where
  | pair (left right : BufferedRec)
  | noMatch (isLeft : Bool) (b : BufferedRec)
  deriving DecidableEq, Repr

def Emission.pairOf (side : Bool) (b m : BufferedRec) : Emission := if side then .pair b m else .pair m b

namespace JoinState

def buf (s : JoinState) (side : Bool) : Bytes → List BufferedRec := if side then s.leftBuf else s.rightBuf

def pending (s : JoinState) (side : Bool) : List BufferedRec := if side then s.pendingLeft else s.pendingRight

end JoinState

namespace JoinPipeline

variable (j : JoinPipeline)

/-- Records of the side wait for a counterpart. -/
def Pends (side : Bool) : Prop :=
  match j.joinFn with
  | .inner _ => False
  | .outer _ => True
  | .left _ => side = true

def render : Emission → Option Record
  | .pair left right => some (j.pair left.record right.record)
  | .noMatch isLeft b => j.noMatch isLeft b.record

def waits (watermark : Int64) (b : BufferedRec) : Bool := decide (watermark - j.window < b.eventTime)

def found (s : JoinState) (side : Bool) (b : BufferedRec) : List BufferedRec :=
  (s.buf (!side) (Slice.bytes b.record.key)).filter fun m => decide (abs (b.eventTime - m.eventTime) ≤ j.window)

def taken (s : JoinState) (side : Bool) (b : BufferedRec) : JoinState :=
  let s' := (j.found s side b).foldl (fun s m => j.unpend side m s) (buffer side b s)
  if j.found s side b = [] then j.pend side b s' else s'

def closed (s : JoinState) (watermark : Int64) : List Emission :=
  (s.pendingLeft.filter fun p => !j.waits watermark p).map (.noMatch true) ++
    (s.pendingRight.filter fun p => !j.waits watermark p).map (.noMatch false)

def emissions (s : JoinState) : JoinCall → List Emission
  | .record side b watermark => (j.found s side b).map (.pairOf side b) ++ j.closed (j.taken s side b) watermark
  | .flush watermark => j.closed s watermark

structure Joining where
  past : List JoinCall
  emitted : List Emission
  state : JoinState

def Joining.start : Joining := ⟨[], [], .empty⟩

def step (x : Joining) (c : JoinCall) : Joining := ⟨x.past ++ [c], x.emitted ++ j.emissions x.state c, (j.call x.state c).2⟩

/-- No earlier record of the side has the event time and the offset, and the records of the other side in reach have
    open windows. -/
def Orderly (x : Joining) : JoinCall → Prop
  | .record side b _ =>
    (j.Pends side → ∀ b' w, .record side b' w ∈ x.past → ¬ (b'.eventTime = b.eventTime ∧ b'.record.offset = b.record.offset)) ∧
      (j.Pends (!side) → ∀ m w, .record (!side) m w ∈ x.past → Slice.bytes m.record.key = Slice.bytes b.record.key →
        abs (b.eventTime - m.eventTime) ≤ j.window → ∀ c ∈ x.past, j.waits c.watermark m)
  | .flush _ => True

end JoinPipeline

def Paired (es : List Emission) (side : Bool) (b : BufferedRec) : Prop := ∃ m, Emission.pairOf side b m ∈ es

def reports (es : List Emission) (side : Bool) (b : BufferedRec) : Nat := es.count (.noMatch side b)

/-- The record is paired and not reported, or reported once and not paired. -/
def Verdict (es : List Emission) (side : Bool) (b : BufferedRec) : Prop := Paired es side b ∧ reports es side b = 0 ∨
    ¬ Paired es side b ∧ reports es side b = 1

/-! ### What a call does -/

namespace JoinPipeline

variable {j : JoinPipeline} {s : JoinState}

theorem filterMap_noMatch (side : Bool) (bs : List BufferedRec) :
    bs.filterMap (fun b => j.noMatch side b.record) = (bs.map (Emission.noMatch side)).filterMap j.render := by
  rw [filterMap_map]
  rfl

theorem flush_fst (w : Int64) : (j.flushPendingLocked s w).1 = (j.closed s w).filterMap j.render := by
  rw [closed, filterMap_append, ← filterMap_noMatch, ← filterMap_noMatch]
  unfold flushPendingLocked noMatch
  cases h : j.joinFn with
  | inner f => simp
  | outer f => rfl
  | left f => rfl

theorem onRecord_eq (side : Bool) (b : BufferedRec) (w : Int64) : j.onRecord s side b.record b.eventTime w =
    (((j.found s side b).map (.pairOf side b)).filterMap j.render ++ (j.flushPendingLocked (j.taken s side b) w).1,
      j.prune w (j.flushPendingLocked (j.taken s side b) w).2) := by
  have hpairs : ((j.found s side b).map (Emission.pairOf side b)).filterMap j.render =
      (j.found s side b).map fun m => if side then j.pair b.record m.record else j.pair m.record b.record := by
    rw [filterMap_map, ← filterMap_eq_map]
    cases side <;> rfl
  rw [hpairs]
  cases side <;> rfl

theorem call_fst (c : JoinCall) : (j.call s c).1 = (j.emissions s c).filterMap j.render := by
  cases c with
  | record side b w => simp only [call, emissions, onRecord_eq, flush_fst, filterMap_append]
  | flush w => exact flush_fst w

theorem outputs_eq (calls : List JoinCall) (x : Joining) :
    x.emitted.filterMap j.render ++ j.outputs x.state calls = ((calls.foldl j.step x).emitted).filterMap j.render := by
  induction calls generalizing x with
  | nil => exact append_nil _
  | cons c calls ih =>
    rw [foldl_cons, ← ih, outputs, call_fst, ← append_assoc, ← filterMap_append]
    rfl

/-! ### Pending records -/

variable {m b b' : BufferedRec} {side : Bool} {w : Int64} {pending : List BufferedRec} {k : Bytes}

theorem removePending_eq_filter (nodup : pending.Nodup)
    (h : ∀ x ∈ pending, x.eventTime = m.eventTime ∧ x.record.offset = m.record.offset → x = m) :
    removePending pending m.eventTime m.record.offset = pending.filter fun x => decide (x ≠ m) := by
  induction pending with
  | nil => rfl
  | cons x rest ih =>
    obtain ⟨hnot, nodup⟩ := nodup_cons.mp nodup
    rw [removePending]
    by_cases hx : x = m
    · subst hx
      have hrest : rest.filter (fun y => decide (y ≠ x)) = rest :=
        filter_eq_self.mpr fun y hy => decide_eq_true (ne_of_mem_of_not_mem hy hnot)
      rw [eraseP_cons_of_pos (by simp), filter_cons_of_neg (by simp), hrest]
    · rw [eraseP_cons_of_neg, filter_cons_of_pos (by simpa using hx)]
      · exact congrArg (x :: ·) (ih nodup fun y hy => h y (mem_cons_of_mem x hy))
      · exact fun hid => hx (h x mem_cons_self (of_decide_eq_true hid))

theorem foldl_removePending {found : List BufferedRec} (nodup : pending.Nodup)
    (h : ∀ x ∈ pending, ∀ m ∈ found, x.eventTime = m.eventTime ∧ x.record.offset = m.record.offset → x = m) :
    found.foldl (fun p m => removePending p m.eventTime m.record.offset) pending = pending.filter fun x =>
      decide (x ∉ found) := by
  induction found generalizing pending with
  | nil => exact (filter_eq_self.mpr fun x _ => by simp).symm
  | cons m found ih =>
    rw [foldl_cons, removePending_eq_filter nodup fun x hx => h x hx m mem_cons_self,
      ih (nodup.filter _) fun x hx y hy => h x (mem_of_mem_filter hx) y (mem_cons_of_mem m hy), filter_filter]
    simp [Bool.and_comm]

theorem Pends.not_inner (hp : j.Pends side) (f : Record → Record → Record) : j.joinFn ≠ .inner f := by
  intro h
  rw [Pends, h] at hp
  exact hp

def due (j : JoinPipeline) (s : JoinState) (side : Bool) : JoinCall → List BufferedRec
  | .record side' b _ => (j.taken s side' b).pending side
  | .flush _ => s.pending side

section
variable (hp : j.Pends side)
include hp

theorem pending_flush (w : Int64) : (j.flushPendingLocked s w).2.pending side = (s.pending side).filter (j.waits w) := by
  unfold flushPendingLocked
  cases h : j.joinFn with
  | inner f => exact absurd h (hp.not_inner f)
  | outer f | left f => cases side <;> rfl

theorem pending_call (c : JoinCall) : (j.call s c).2.pending side = (j.due s side c).filter (j.waits c.watermark) := by
  cases c with
  | record side' b w =>
    rw [call, onRecord_eq]
    exact pending_flush hp w
  | flush w => exact pending_flush hp w

theorem pending_foldl_unpend (side' : Bool) (ms : List BufferedRec) :
    (ms.foldl (fun s m => j.unpend side' m s) s).pending side =
      if side' = side then s.pending side else ms.foldl (fun p m => removePending p m.eventTime m.record.offset)
        (s.pending side) := by
  induction ms generalizing s with
  | nil => exact (ite_self _).symm
  | cons m ms ih =>
    have hone : (j.unpend side' m s).pending side = if side' = side then s.pending side
        else removePending (s.pending side) m.eventTime m.record.offset := by
      unfold unpend
      cases h : j.joinFn with
      | inner f => exact absurd h (hp.not_inner f)
      | outer f | left f => cases side <;> cases side' <;> rfl
    rw [foldl_cons, ih, hone]
    split <;> rfl

theorem pending_pend (side' : Bool) (b : BufferedRec) :
    (j.pend side' b s).pending side = if side' = side then s.pending side ++ [b] else s.pending side := by
  unfold pend
  unfold Pends at hp
  cases h : j.joinFn with
  | inner f =>
    rw [h] at hp
    exact hp.elim
  | outer f => cases side <;> cases side' <;> rfl
  | left f =>
    rw [h] at hp
    subst hp
    cases side' <;> rfl

theorem due_record (side' : Bool) (b : BufferedRec) (w : Int64) : j.due s side (.record side' b w) =
    if side' = side then s.pending side ++ (if j.found s side' b = [] then [b] else [])
    else (j.found s side' b).foldl (fun p m => removePending p m.eventTime m.record.offset) (s.pending side) := by
  have hbuffer : (buffer side' b s).pending side = s.pending side := by cases side <;> cases side' <;> rfl
  rw [due, taken]
  by_cases hfound : j.found s side' b = []
  · rw [if_pos hfound, pending_pend hp, pending_foldl_unpend hp, hbuffer, hfound]
    by_cases hside : side' = side
    · rw [if_pos hside, if_pos hside, if_pos hside, if_pos rfl]
    · rw [if_neg hside, if_neg hside, if_neg hside]
  · rw [if_neg hfound, pending_foldl_unpend hp, hbuffer]
    by_cases hside : side' = side
    · rw [if_pos hside, if_pos hside, if_neg hfound, append_nil]
    · rw [if_neg hside, if_neg hside]

end

/-! ### Emissions -/

theorem pairOf_eq_iff {m' : BufferedRec} : Emission.pairOf side b m = .pairOf side b' m' ↔ b = b' ∧ m = m' := by
  cases side
  · simp [Emission.pairOf, and_comm]
  · simp [Emission.pairOf]

theorem pairOf_not (side : Bool) (b m : BufferedRec) : Emission.pairOf (!side) b m = .pairOf side m b := by cases side <;> rfl

theorem not_mem_closed (side : Bool) (b m : BufferedRec) (w : Int64) : Emission.pairOf side b m ∉ j.closed s w := by
  cases side <;> simp [closed, Emission.pairOf]

theorem paired_record (side : Bool) :
    Paired (j.emissions s (.record side b' w)) side b ↔ b = b' ∧ j.found s side b' ≠ [] := by
  constructor
  · rintro ⟨m, hm⟩
    rcases mem_append.mp hm with hm | hm
    · obtain ⟨x, hx, heq⟩ := mem_map.mp hm
      exact ⟨(pairOf_eq_iff.mp heq).1.symm, ne_nil_of_mem hx⟩
    · exact absurd hm (not_mem_closed side b m w)
  · rintro ⟨rfl, hne⟩
    obtain ⟨m, hm⟩ := exists_mem_of_ne_nil _ hne
    exact ⟨m, mem_append_left _ (mem_map_of_mem hm)⟩

theorem paired_record_other (side : Bool) :
    Paired (j.emissions s (.record (!side) b' w)) side b ↔ b ∈ j.found s (!side) b' := by
  constructor
  · rintro ⟨m, hm⟩
    rcases mem_append.mp hm with hm | hm
    · obtain ⟨x, hx, heq⟩ := mem_map.mp hm
      rw [pairOf_not, pairOf_eq_iff] at heq
      rwa [← heq.1]
    · exact absurd hm (not_mem_closed side b m w)
  · intro hb
    refine ⟨b', mem_append_left _ (mem_map.mpr ⟨b, hb, pairOf_not side b' b⟩)⟩

theorem reports_pairs (side side' : Bool) (b b' : BufferedRec) (ms : List BufferedRec) :
    reports (ms.map (.pairOf side' b')) side b = 0 := by
  refine count_eq_zero.mpr fun h => ?_
  obtain ⟨m, -, heq⟩ := mem_map.mp h
  cases side' <;> cases heq

theorem count_noMatch (side side' : Bool) (b : BufferedRec) (bs : List BufferedRec) :
    (bs.map (Emission.noMatch side')).count (.noMatch side b) = if side' = side then bs.count b else 0 := by
  induction bs with
  | nil => exact (ite_self 0).symm
  | cons x bs ih =>
    rw [map_cons, count_cons, count_cons, ih]
    by_cases hside : side' = side
    · simp [hside]
    · simp [hside]

theorem reports_closed (side : Bool) (b : BufferedRec) (w : Int64) :
    reports (j.closed s w) side b = ((s.pending side).filter fun p => !j.waits w p).count b := by
  rw [reports, closed, count_append, count_noMatch, count_noMatch]
  cases side
  · exact Nat.zero_add _
  · exact Nat.add_zero _

theorem reports_emissions (side : Bool) (b : BufferedRec) (c : JoinCall) :
    reports (j.emissions s c) side b = ((j.due s side c).filter fun p => !j.waits c.watermark p).count b := by
  cases c with
  | record side' b' w =>
    have hpairs := reports_pairs side side' b b' (j.found s side' b')
    rw [reports] at hpairs
    rw [emissions, reports, count_append, hpairs, Nat.zero_add]
    exact reports_closed side b w
  | flush w => exact reports_closed side b w

theorem buf_flush (side : Bool) (w : Int64) : (j.flushPendingLocked s w).2.buf side = s.buf side := by
  unfold flushPendingLocked
  cases j.joinFn <;> rfl

theorem buf_taken (side side' : Bool) (b : BufferedRec) : (j.taken s side' b).buf side = (buffer side' b s).buf side := by
  have hunpend (s : JoinState) (m : BufferedRec) : (j.unpend side' m s).buf side = s.buf side := by
    unfold unpend
    cases j.joinFn <;> cases side' <;> rfl
  have hpend (s : JoinState) : (j.pend side' b s).buf side = s.buf side := by
    unfold pend
    cases j.joinFn <;> cases side' <;> rfl
  have hfold (ms : List BufferedRec) (s : JoinState) : (ms.foldl (fun s m => j.unpend side' m s) s).buf side = s.buf side := by
    induction ms generalizing s with
    | nil => rfl
    | cons m ms ih => exact (ih _).trans (hunpend s m)
  unfold taken
  split
  · rw [hpend, hfold]
  · rw [hfold]

theorem mem_buf_buffer {side' : Bool} (h : m ∈ (buffer side' b s).buf side k) :
    m ∈ s.buf side k ∨ m.record.key.bytes = k ∧ side' = side ∧ m = b := by
  by_cases hside : side' = side
  · subst hside
    have hbuf : (buffer side' b s).buf side' =
        Function.update (s.buf side') b.record.key.bytes (s.buf side' b.record.key.bytes ++ [b]) := by
      cases side' <;> rfl
    rw [hbuf] at h
    by_cases hk : k = b.record.key.bytes
    · subst hk
      rw [Function.update_self] at h
      rcases mem_append.mp h with h | h
      · exact .inl h
      · rw [mem_singleton.mp h]
        exact .inr ⟨rfl, rfl, rfl⟩
    · rw [Function.update_of_ne hk] at h
      exact .inl h
  · left
    revert h hside
    cases side <;> cases side' <;> first | exact fun h _ => h | exact fun _ hside => absurd rfl hside

theorem mem_buf_call {c : JoinCall} (h : m ∈ (j.call s c).2.buf side k) :
    m ∈ s.buf side k ∨ m.record.key.bytes = k ∧ ∃ w, c = .record side m w := by
  cases c with
  | record side' b w =>
    rw [call, onRecord_eq] at h
    have hprune (s : JoinState) (h : m ∈ (j.prune w s).buf side k) : m ∈ s.buf side k :=
      by cases side <;> exact mem_of_mem_filter h
    have hmem := hprune _ h
    rw [buf_flush, buf_taken] at hmem
    rcases mem_buf_buffer hmem with hmem | ⟨hk, rfl, rfl⟩
    · exact .inl hmem
    · exact .inr ⟨hk, w, rfl⟩
  | flush w =>
    rw [call, buf_flush] at h
    exact .inl h

/-! ### Accounts -/

def Standing (es : List Emission) (pending : List BufferedRec) (side : Bool) (b : BufferedRec) : Prop :=
  b ∈ pending ∧ ¬ Paired es side b ∧ reports es side b = 0 ∨ b ∉ pending ∧ Verdict es side b

structure Accounted (j : JoinPipeline) (x : Joining) : Prop where
  buffered {side : Bool} {k : Bytes} {m : BufferedRec} : m ∈ x.state.buf side k → Slice.bytes m.record.key = k ∧ ∃ w,
    .record side m w ∈ x.past
  unique {side : Bool} {b b' : BufferedRec} {w w' : Int64} : j.Pends side → .record side b w ∈ x.past →
    .record side b' w' ∈ x.past → b.eventTime = b'.eventTime ∧ b.record.offset = b'.record.offset → b = b'
  nodup {side : Bool} : j.Pends side → (x.state.pending side).Nodup
  known {side : Bool} {b : BufferedRec} : j.Pends side → b ∈ x.state.pending side ∨ Paired x.emitted side b ∨
    reports x.emitted side b ≠ 0 → ∃ w, .record side b w ∈ x.past
  standing {side : Bool} {b : BufferedRec} {w : Int64} : j.Pends side → .record side b w ∈ x.past →
    Standing x.emitted (x.state.pending side) side b
  reported {side : Bool} {b : BufferedRec} : j.Pends side → reports x.emitted side b ≠ 0 → ∃ c ∈ x.past,
    j.waits c.watermark b = false

namespace Accounted

variable {x : Joining} {c : JoinCall}

theorem start : Accounted j .start := by
  have hpending (side : Bool) : JoinState.empty.pending side = [] := by cases side <;> rfl
  have hbuf (side : Bool) (k : Bytes) : JoinState.empty.buf side k = [] := by cases side <;> rfl
  constructor
  · intro side k m hm
    rw [Joining.start, hbuf] at hm
    cases hm
  · exact fun _ hb => by cases hb
  · intro side _
    rw [Joining.start, hpending]
    exact .nil
  · rintro side b _ (hb | ⟨m, hm⟩ | hb)
    · rw [Joining.start, hpending] at hb
      cases hb
    · cases hm
    · exact absurd rfl hb
  · exact fun _ hb => by cases hb
  · exact fun _ hb => absurd rfl hb

theorem fresh (h : Accounted j x) (hp : j.Pends side) (orderly : j.Orderly x (.record side b w)) :
    b ∉ x.state.pending side ∧ ¬ Paired x.emitted side b ∧ reports x.emitted side b = 0 := by
  have hnone : ¬ ∃ w, .record side b w ∈ x.past := fun ⟨w, hw⟩ => orderly.1 hp b w hw ⟨rfl, rfl⟩
  refine ⟨fun hb => hnone (h.known hp (.inl hb)), fun hb => hnone (h.known hp (.inr (.inl hb))), ?_⟩
  by_contra hb
  exact hnone (h.known hp (.inr (.inr hb)))

theorem of_found (h : Accounted j x) (hp : j.Pends side) (orderly : j.Orderly x (.record (!side) b w))
    (hm : m ∈ j.found x.state (!side) b) : (∃ w, .record side m w ∈ x.past) ∧ ∀ c ∈ x.past, j.waits c.watermark m := by
  obtain ⟨hbuf, htime⟩ := mem_filter.mp hm
  rw [Bool.not_not] at hbuf
  obtain ⟨hkey, w', hw'⟩ := h.buffered hbuf
  refine ⟨⟨w', hw'⟩, ?_⟩
  have hopen := orderly.2
  rw [Bool.not_not] at hopen
  exact hopen hp m w' hw' hkey (of_decide_eq_true htime)

section
variable (h : Accounted j x) (hp : j.Pends side) (orderly : j.Orderly x c)
include h hp orderly

/-- A call leaves pending what was pending or arrives, but for what it pairs. -/
theorem due : (j.due x.state side c).Nodup ∧
    ∀ b, b ∈ j.due x.state side c ↔ (b ∈ x.state.pending side ∨ ∃ w, c = .record side b w) ∧
      ¬ Paired (j.emissions x.state c) side b := by
  have nodup := h.nodup hp
  cases c with
  | flush w =>
    refine ⟨nodup, fun b => ⟨fun hb => ⟨.inl hb, fun ⟨m, hm⟩ => not_mem_closed side b m w hm⟩, ?_⟩⟩
    rintro ⟨hb | ⟨w', hw⟩, -⟩
    · exact hb
    · cases hw
  | record side' b' w =>
    rw [due_record hp]
    by_cases hside : side' = side
    · -- the side of the arriving record
      subst hside
      have hfresh := (h.fresh hp orderly).1
      rw [if_pos rfl]
      refine ⟨?_, fun b => ?_⟩
      · split
        · exact nodup_append.mpr ⟨nodup, nodup_singleton b',
            fun x hx y hy => mem_singleton.mp hy ▸ ne_of_mem_of_not_mem hx hfresh⟩
        · rwa [append_nil]
      · have harrives : (∃ w', JoinCall.record side' b' w = .record side' b w') ↔ b = b' := by simp [eq_comm]
        rw [paired_record, harrives]
        by_cases hb : b = b'
        · subst hb
          by_cases hfound : j.found x.state side' b = [] <;> simp [hfresh]
        · split <;> simp [hb]
    · obtain rfl : side' = !side := Bool.eq_not.mpr hside
      rw [if_neg hside, foldl_removePending nodup fun y hy m hm => ?_]
      · refine ⟨nodup.filter _, fun b => ?_⟩
        rw [mem_filter, decide_eq_true_iff, paired_record_other]
        refine and_congr_left' ⟨.inl, ?_⟩
        rintro (hb | ⟨w', hw⟩)
        · exact hb
        · cases side <;> cases hw
      · obtain ⟨w₁, hw₁⟩ := h.known hp (.inl hy)
        obtain ⟨⟨w₂, hw₂⟩, -⟩ := h.of_found hp orderly hm
        exact h.unique hp hw₁ hw₂

/-- A record that was reported is not paired any more. -/
theorem not_paired (hb : reports x.emitted side b ≠ 0) :
    ¬ Paired (j.emissions x.state c) side b := by
  intro hpaired
  cases c with
  | flush w =>
    obtain ⟨m, hm⟩ := hpaired
    exact not_mem_closed side b m w hm
  | record side' b' w =>
    by_cases hside : side' = side
    · subst hside
      obtain ⟨rfl, -⟩ := (paired_record side').mp hpaired
      exact hb (h.fresh hp orderly).2.2
    · obtain rfl : side' = !side := Bool.eq_not.mpr hside
      obtain ⟨-, hopen⟩ := h.of_found hp orderly ((paired_record_other side).mp hpaired)
      obtain ⟨c, hc, hclosed⟩ := h.reported hp hb
      rw [hopen c hc] at hclosed
      cases hclosed

theorem before (hb : .record side b w ∈ x.past ++ [c]) :
    (b ∈ x.state.pending side ∨ ∃ w, c = .record side b w) ∧ ¬ Paired x.emitted side b ∧ reports x.emitted side b = 0 ∨
      ¬ (b ∈ x.state.pending side ∨ ∃ w, c = .record side b w) ∧ Verdict x.emitted side b := by
  rcases mem_append.mp hb with hpast | hb
  · rcases h.standing hp hpast with ⟨hmem, hnone⟩ | ⟨hmem, hverdict⟩
    · exact .inl ⟨.inl hmem, hnone⟩
    · refine .inr ⟨?_, hverdict⟩
      rintro (hpending | ⟨w', rfl⟩)
      · exact hmem hpending
      · exact orderly.1 hp b w hpast ⟨rfl, rfl⟩
  · obtain rfl := mem_singleton.mp hb
    exact .inl ⟨.inr ⟨w, rfl⟩, (h.fresh hp orderly).2⟩

theorem reports_step (b : BufferedRec) :
    reports (j.step x c).emitted side b = reports x.emitted side b + if b ∈ j.due x.state side c ∧
      j.waits c.watermark b = false then 1 else 0 := by
  have hnew := reports_emissions side b c (s := x.state) (j := j)
  rw [((h.due hp orderly).1.filter _).count] at hnew
  simp only [mem_filter, Bool.not_eq_true'] at hnew
  rw [← hnew]
  exact count_append

theorem of_reported (hb : reports (j.step x c).emitted side b ≠ 0) :
    reports x.emitted side b ≠ 0 ∨ b ∈ j.due x.state side c ∧ j.waits c.watermark b = false := by
  by_contra hnone
  obtain ⟨hzero, hnot⟩ := not_or.mp hnone
  rw [h.reports_step hp orderly, if_neg hnot] at hb
  exact hzero hb

theorem standing_step
    (hb : .record side b w ∈ x.past ++ [c]) : Standing (j.step x c).emitted ((j.step x c).state.pending side) side b := by
  have hdue := (h.due hp orderly).2 b
  have hreports := h.reports_step hp orderly b
  have hpending : b ∈ (j.step x c).state.pending side ↔ b ∈ j.due x.state side c ∧ j.waits c.watermark b = true := by
    rw [step, pending_call hp, mem_filter]
  have hpaired : Paired (j.step x c).emitted side b ↔ Paired x.emitted side b ∨ Paired (j.emissions x.state c) side b := by
    simp only [Paired, step, mem_append, exists_or]
  unfold Standing Verdict
  rw [hpending, hpaired]
  rcases h.before hp orderly hb with ⟨hmem, hnone, hzero⟩ | ⟨hmem, hverdict⟩
  · by_cases hnew : Paired (j.emissions x.state c) side b
    · have hnot : b ∉ j.due x.state side c := fun hb => (hdue.mp hb).2 hnew
      rw [if_neg fun hb => hnot hb.1] at hreports
      exact .inr ⟨fun hb => hnot hb.1, .inl ⟨.inr hnew, by omega⟩⟩
    · have hin := hdue.mpr ⟨hmem, hnew⟩
      cases hwaits : j.waits c.watermark b with
      | true =>
        rw [if_neg fun hb => by rw [hb.2] at hwaits; cases hwaits] at hreports
        exact .inl ⟨⟨hin, rfl⟩, not_or.mpr ⟨hnone, hnew⟩, by omega⟩
      | false =>
        rw [if_pos ⟨hin, hwaits⟩] at hreports
        exact .inr ⟨fun hb => Bool.false_ne_true hb.2, .inr ⟨not_or.mpr ⟨hnone, hnew⟩, by omega⟩⟩
  · have hnot : b ∉ j.due x.state side c := fun hb => hmem (hdue.mp hb).1
    rw [if_neg fun hb => hnot hb.1] at hreports
    refine .inr ⟨fun hb => hnot hb.1, ?_⟩
    rcases hverdict with ⟨hold, hzero⟩ | ⟨hnone, hone⟩
    · exact .inl ⟨.inl hold, by omega⟩
    · exact .inr ⟨not_or.mpr ⟨hnone, h.not_paired hp orderly (by omega)⟩, by omega⟩

/-- A record that is left pending or paired has arrived. -/
theorem arrived
    (hb : b ∈ j.due x.state side c ∨ Paired (j.emissions x.state c) side b) : ∃ w, .record side b w ∈ x.past ++ [c] := by
  have hold : (∃ w, .record side b w ∈ x.past) → ∃ w, .record side b w ∈ x.past ++ [c] :=
    fun ⟨w, hw⟩ => ⟨w, mem_append_left _ hw⟩
  rcases hb with hb | hb
  · rcases (((h.due hp orderly).2 b).mp hb).1 with hb | ⟨w, rfl⟩
    · exact hold (h.known hp (.inl hb))
    · exact ⟨w, mem_append_right _ (mem_singleton.mpr rfl)⟩
  · cases c with
    | flush w =>
      obtain ⟨m, hm⟩ := hb
      exact absurd hm (not_mem_closed side b m w)
    | record side' b' w =>
      by_cases hside : side' = side
      · subst hside
        obtain ⟨rfl, -⟩ := (paired_record side').mp hb
        exact ⟨w, mem_append_right _ (mem_singleton.mpr rfl)⟩
      · obtain rfl : side' = !side := Bool.eq_not.mpr hside
        exact hold (h.of_found hp orderly ((paired_record_other side).mp hb)).1

end

theorem step (h : Accounted j x) (orderly : j.Orderly x c) : Accounted j (j.step x c) := by
  refine ⟨fun hm => ?_, fun hp hb hb' hid => ?_, fun hp => ?_, fun hp hb => ?_,
    fun hp hb => h.standing_step hp orderly hb, fun hp hb => ?_⟩
  · rcases mem_buf_call hm with hm | ⟨hk, w, rfl⟩
    · obtain ⟨hk, w, hw⟩ := h.buffered hm
      exact ⟨hk, w, mem_append_left _ hw⟩
    · exact ⟨hk, w, mem_append_right _ (mem_singleton.mpr rfl)⟩
  · rcases mem_append.mp hb with hpast | hnew <;> rcases mem_append.mp hb' with hpast' | hnew'
    · exact h.unique hp hpast hpast' hid
    · obtain rfl := mem_singleton.mp hnew'
      exact absurd hid (orderly.1 hp _ _ hpast)
    · obtain rfl := mem_singleton.mp hnew
      exact absurd ⟨hid.1.symm, hid.2.symm⟩ (orderly.1 hp _ _ hpast')
    · cases (mem_singleton.mp hnew).trans (mem_singleton.mp hnew').symm
      rfl
  · rw [JoinPipeline.step, pending_call hp]
    exact (h.due hp orderly).1.filter _
  · rw [JoinPipeline.step, pending_call hp] at hb
    rcases hb with hb | ⟨m, hm⟩ | hb
    · exact h.arrived hp orderly (.inl (mem_of_mem_filter hb))
    · rcases mem_append.mp hm with hm | hm
      · obtain ⟨w, hw⟩ := h.known hp (.inr (.inl ⟨m, hm⟩))
        exact ⟨w, mem_append_left _ hw⟩
      · exact h.arrived hp orderly (.inr ⟨m, hm⟩)
    · rcases h.of_reported hp orderly hb with hb | ⟨hb, -⟩
      · obtain ⟨w, hw⟩ := h.known hp (.inr (.inr hb))
        exact ⟨w, mem_append_left _ hw⟩
      · exact h.arrived hp orderly (.inl hb)
  · rcases h.of_reported hp orderly hb with hb | ⟨-, hclosed⟩
    · obtain ⟨c', hc, hclosed⟩ := h.reported hp hb
      exact ⟨c', mem_append_left _ hc, hclosed⟩
    · exact ⟨c, mem_append_right _ (mem_singleton.mpr rfl), hclosed⟩

end Accounted
/-! ### Verdicts -/

def emitted (j : JoinPipeline) (calls : List JoinCall) (w : Int64) : List Emission :=
  ((calls ++ [JoinCall.flush w]).foldl j.step .start).emitted

/-- Where all calls are orderly, and the last flush closes every window, the outputs stand for exactly one verdict of
    every record. -/
theorem verdicts_exact (j : JoinPipeline) {calls : List JoinCall} (orderly : Along j.step .start calls j.Orderly) {w : Int64}
    (hlast : ∀ side b w', .record side b w' ∈ calls → b.eventTime ≤ w - j.window) :
    j.outputs .empty (calls ++ [.flush w]) = (j.emitted calls w).filterMap j.render ∧
      ∀ side, j.Pends side → ∀ b w', .record side b w' ∈ calls → Verdict (j.emitted calls w) side b := by
  refine ⟨outputs_eq _ .start, fun side hp b w' hb => ?_⟩
  obtain ⟨hpast, h⟩ := Along.invariant (fun done x => x.past = done ∧ Accounted j x)
    (fun _ _ _ h cond => ⟨congrArg (· ++ _) h.1, h.2.step cond⟩) ⟨rfl, .start⟩ orderly
  have hflush : j.Orderly (calls.foldl j.step .start) (.flush w) := trivial
  rw [emitted, foldl_append, foldl_cons]
  rcases h.standing_step hp hflush (mem_append_left _ (hpast ▸ hb)) with ⟨hpending, -⟩ | ⟨-, hverdict⟩
  · -- nothing is pending after the last flush
    rw [step, pending_call hp] at hpending
    have hwaits := (mem_filter.mp hpending).2
    exact absurd (of_decide_eq_true hwaits) (Int64.not_lt.mpr (hlast side b w' hb))
  · exact hverdict

def keepLeft : JoinPipeline := ⟨10, 0, .left fun left _ => left⟩

def arrival (key : UInt8) (eventTime : Int64) (offset : Int) : BufferedRec := ⟨eventTime, ⟨offset, 0, some [key], none, []⟩⟩

def inTime : List JoinCall := [.record true (arrival 0 0 0) 0, .record false (arrival 0 5 0) 5]

theorem verdicts_exact_inTime : Verdict (keepLeft.emitted inTime 20) true (arrival 0 0 0) := by
  have hfirst : keepLeft.Orderly .start (.record true (arrival 0 0 0) 0) :=
    ⟨fun _ _ _ h => (by cases h), fun _ _ _ h => (by cases h)⟩
  have hsecond : keepLeft.Orderly (keepLeft.step .start (.record true (arrival 0 0 0) 0))
      (.record false (arrival 0 5 0) 5) := by
    refine ⟨fun h => (by cases h), fun _ m w hm _ _ c hc => ?_⟩
    cases mem_singleton.mp hm
    cases mem_singleton.mp hc
    decide
  refine (verdicts_exact keepLeft (.cons hfirst (.cons hsecond .nil)) fun side b w hb => ?_).2 true rfl _ 0 mem_cons_self
  simp only [mem_cons, not_mem_nil, or_false] at hb
  rcases hb with ⟨-, rfl, -⟩ | ⟨-, rfl, -⟩ <;> decide

/-- Event times as watermarks allow for: no record is later than the allowed lateness, and a flush is at a watermark
    that was seen. -/
def Timely (j : JoinPipeline) (x : Joining) : JoinCall → Prop
  | .record _ b w => b.eventTime ≤ w ∧ ∀ c ∈ x.past, c.watermark - j.allowedLateness ≤ b.eventTime
  | .flush w => ∃ c ∈ x.past, w ≤ c.watermark

instance (j : JoinPipeline) (x : Joining) : DecidablePred (j.Timely x)
  | .record _ b w => inferInstanceAs (Decidable (b.eventTime ≤ w ∧ ∀ c ∈ x.past, c.watermark - j.allowedLateness ≤ b.eventTime))
  | .flush w => inferInstanceAs (Decidable (∃ c ∈ x.past, w ≤ c.watermark))

/-- A record of another key closes the window of the first one when its counterpart is about to arrive. -/
def onEdge : List JoinCall := [.record true (arrival 0 0 0) 0, .record true (arrival 1 10 1) 10,
    .record false (arrival 0 10 0) 10]

/-- The first two records, of two partitions, have the same event time and offset. -/
def clash : List JoinCall := [.record true (arrival 0 0 0) 0, .record true (arrival 1 0 0) 0, .record false (arrival 1 0 0) 0]

/-- A record is reported and then paired; another one is paired and reported, and the one that clashes with it gets no
    verdict. -/
theorem verdicts_fail :
    (Along keepLeft.step .start onEdge keepLeft.Timely ∧ ¬ Verdict (keepLeft.emitted onEdge 100) true (arrival 0 0 0)) ∧
      Along keepLeft.step .start clash keepLeft.Timely ∧ ¬ Verdict (keepLeft.emitted clash 100) true (arrival 0 0 0) ∧
        ¬ Verdict (keepLeft.emitted clash 100) true (arrival 1 0 0) := by
  have hedge : keepLeft.emitted onEdge 100 = [.noMatch true (arrival 0 0 0), .pair (arrival 0 0 0) (arrival 0 10 0),
    .noMatch true (arrival 1 10 1)] := by decide
  have hclash : keepLeft.emitted clash 100 = [.pair (arrival 1 0 0) (arrival 1 0 0), .noMatch true (arrival 1 0 0)] := by decide
  rw [hclash]
  refine ⟨⟨.cons (by decide) (.cons (by decide) (.cons (by decide) .nil)), ?_⟩, .cons (by decide)
    (.cons (by decide) (.cons (by decide) .nil)), ?_, ?_⟩
  · rintro (⟨-, h⟩ | ⟨h, -⟩)
    · cases h
    · exact h ⟨arrival 0 10 0, by decide⟩
  · rintro (⟨⟨m, hm⟩, -⟩ | ⟨-, h⟩)
    · simp [Emission.pairOf, arrival] at hm
    · cases h
  · rintro (⟨-, h⟩ | ⟨h, -⟩)
    · cases h
    · exact h ⟨arrival 1 0 0, by decide⟩

end JoinPipeline
end Holocron.Streams

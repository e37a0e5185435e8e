import Holocron.Streams.Joined
import Holocron.Theorems.Streams.Join
import Holocron.Theorems.Streams.Topology

/-! A join subscribes to the topics of its streams, so their operators have to leave every record as it is. -/

namespace Holocron.Streams
open Lib Sdk List

variable {σ : Type}

def joinInput (l r : Stream σ) : Shared σ → List JoinEvent → List JoinEvent
  | _, [] => []
  | s, .record isLeft x :: es =>
    let (rs, s) := flatOps x.partition.index (if isLeft then l.ops else r.ops) [x.record] s
    rs.map (fun r => .record isLeft ⟨r, x.partition⟩) ++ joinInput l r s es
  | s, .punctuate :: es => .punctuate :: joinInput l r s es

/-- Every record is of the topic of its side. -/
def JoinTask.Polls (t : JoinTask) (es : List JoinEvent) : Prop := ∀ isLeft x, .record isLeft x ∈ es →
    x.partition.topic = t.source isLeft

/-- What is emitted is the join of what the operators of the streams make of the records. -/
def JoinedStream.Honours (j : JoinedStream σ) (cfg : Config) (topic : Bytes) (stores : σ) (es : List JoinEvent) : Prop :=
  ((j.register topic).run cfg (Shared.start stores) es).1 =
    ((j.register topic).run cfg (Shared.start stores) (joinInput j.left j.right (Shared.start stores) es)).1

theorem joinInput_append (l r : Stream σ) (es : List JoinEvent) (s : Shared σ) :
    ∃ s', ∀ fs, joinInput l r s (es ++ fs) = joinInput l r s es ++ joinInput l r s' fs := by
  induction es generalizing s with
  | nil => exact ⟨s, fun _ => rfl⟩
  | cons e es ih =>
    cases e with
    | record isLeft x =>
      obtain ⟨s', hs'⟩ := ih (flatOps x.partition.index (if isLeft then l.ops else r.ops) [x.record] s).2
      exact ⟨s', fun fs => by simp [joinInput, hs']⟩
    | punctuate =>
      obtain ⟨s', hs'⟩ := ih s
      exact ⟨s', fun fs => by simp [joinInput, hs']⟩

theorem JoinTask.run_append (cfg : Config) (t : JoinTask) (es fs : List JoinEvent) (s : Shared σ) :
    t.run cfg s (es ++ fs) = ((t.run cfg s es).1 ++ (t.run cfg (t.run cfg s es).2 fs).1,
      (t.run cfg (t.run cfg s es).2 fs).2) := by
  induction es generalizing s with
  | nil => rfl
  | cons e es ih => simp [run, ih]

def still : Config := ⟨fun _ => 0, fun _ _ => []⟩

def showing (isLeft : Bool) : JoinPipeline :=
  ⟨0, 0, .outer fun left right => (if isLeft then left else right).getD ⟨0, 0, none, none, []⟩⟩

theorem showing_waits (show' : Bool) (r : Record) : (showing show').waits 0 ⟨0, r⟩ = false :=
  decide_eq_false (show ¬ 0 - 0 < 0 by decide)

structure Still (s : Shared σ) : Prop where
  watermark : s.watermark = 0
  pending : ∀ side, s.join.pending side = []
  buffered : ∀ side k, ∀ m ∈ s.join.buf side k, m.eventTime = 0

namespace Still

variable {s : Shared σ}

theorem start (stores : σ) : Still (Shared.start stores) := by
  refine ⟨rfl, fun side => ?_, fun side k m hm => ?_⟩
  · cases side <;> rfl
  · cases side <;> cases hm

section
variable (h : Still s) {t : JoinTask} {show' : Bool}
include h

theorem process (show' side : Bool) (x : PolledRecord) : (Task.joinSide (showing show') side).process still s x =
    (((showing show').call s.join (.record side ⟨0, x.record⟩ 0)).1,
      { s with join := ((showing show').call s.join (.record side ⟨0, x.record⟩ 0)).2 }) := by
  have hwatermark : advanceWatermark s 0 = (0, s) := by
    rw [advanceWatermark, h.watermark]
    rfl
  simp only [Task.process, still, hwatermark]
  rfl

theorem found (show' side : Bool) (r : Record) : (showing show').found s.join side ⟨0, r⟩ = s.join.buf (!side) r.key.bytes := by
  refine filter_eq_self.mpr fun m hm => ?_
  rw [h.buffered _ _ m hm]
  exact decide_eq_true (show abs (0 - 0) ≤ 0 by decide)

theorem due (show' side side' : Bool) (r : Record) : (showing show').due s.join side (.record side' ⟨0, r⟩ 0) =
    if side' = side ∧ s.join.buf (!side') r.key.bytes = [] then [⟨0, r⟩] else [] := by
  have hp : (showing show').Pends side := trivial
  rw [JoinPipeline.due_record hp, h.found, h.pending, JoinPipeline.foldl_removePending .nil (forall_mem_nil _), filter_nil]
  by_cases hside : side' = side <;> simp [hside]

/-- A record of the side that is shown comes out once for every counterpart, or once if there is none. -/
theorem out (side : Bool) (r : Record) : ((showing side).call s.join (.record side ⟨0, r⟩ 0)).1 =
    replicate (max 1 (s.join.buf (!side) r.key.bytes).length) r := by
  have hpair m : (showing side).render (.pairOf side ⟨0, r⟩ m) = some r := by cases side <;> rfl
  have hpairs (ms : List BufferedRec) :
      (ms.map (Emission.pairOf side ⟨0, r⟩)).filterMap (showing side).render = replicate ms.length r := by
    rw [filterMap_map, ← map_const', ← filterMap_eq_map]
    exact filterMap_congr fun m _ => hpair m
  have hreport : (showing side).render (.noMatch side ⟨0, r⟩) = some r := by cases side <;> rfl
  have hdue side' : ((showing side).taken s.join side ⟨0, r⟩).pending side' = _ := h.due side side' side r
  have hclosed : (showing side).closed ((showing side).taken s.join side ⟨0, r⟩) 0 =
      ((((showing side).taken s.join side ⟨0, r⟩).pending true).filter fun p => !(showing side).waits 0 p).map
        (.noMatch true) ++
        ((((showing side).taken s.join side ⟨0, r⟩).pending false).filter fun p => !(showing side).waits 0 p).map
          (.noMatch false) := rfl
  rw [JoinPipeline.call_fst, JoinPipeline.emissions, filterMap_append, hpairs, h.found, hclosed, hdue, hdue]
  cases hbuf : s.join.buf (!side) r.key.bytes with
  | nil => cases side <;> simp [showing_waits, hreport]
  | cons m ms => simp

theorem pending_call (show' side side' : Bool) (r : Record) :
    ((showing show').call s.join (.record side' ⟨0, r⟩ 0)).2.pending side = [] := by
  have hp : (showing show').Pends side := trivial
  rw [JoinPipeline.pending_call hp, h.due]
  split
  · exact filter_cons_of_neg (by rw [JoinCall.watermark, showing_waits]; exact Bool.false_ne_true)
  · rfl

theorem buf_call (show' side : Bool) (r : Record) (k : Bytes) :
    ((showing show').call s.join (.record side ⟨0, r⟩ 0)).2.buf (!side) k = s.join.buf (!side) k := by
  have hbuffer : (JoinPipeline.buffer side ⟨0, r⟩ s.join).buf (!side) = s.join.buf (!side) := by cases side <;> rfl
  have hprune x : ((showing show').prune 0 x).buf (!side) k = (x.buf (!side) k).filter fun e =>
      decide (0 - 0 - 0 ≤ e.eventTime) := by
    cases side <;> rfl
  rw [JoinPipeline.call, JoinPipeline.onRecord_eq, hprune, JoinPipeline.buf_flush, JoinPipeline.buf_taken, hbuffer]
  refine filter_eq_self.mpr fun m hm => ?_
  rw [h.buffered _ _ m hm]
  decide

theorem step (ht : t.pipeline = showing show') (e : JoinEvent) : Still (t.step still s e).2 := by
  cases e with
  | record side x =>
    rw [JoinTask.step, ht, h.process]
    refine ⟨h.watermark, fun side' => h.pending_call show' side' side x.record, fun side' k m hm => ?_⟩
    rcases JoinPipeline.mem_buf_call hm with hm | ⟨-, w, hw⟩
    · exact h.buffered side' k m hm
    · cases hw
      rfl
  | punctuate =>
    have hp side : (showing show').Pends side := trivial
    rw [JoinTask.step, ht]
    refine ⟨h.watermark, fun side => ?_, fun side k m hm => ?_⟩
    · exact (JoinPipeline.pending_flush (hp side) _).trans (by rw [h.pending]; rfl)
    · dsimp only at hm
      exact h.buffered side k m hm

theorem run (ht : t.pipeline = showing show') (es : List JoinEvent) : Still (t.run still s es).2 := by
  induction es generalizing s with
  | nil => exact h
  | cons e es ih => exact ih (h.step ht e)

theorem run_records {side : Bool} (ht : t.pipeline = showing side) (p : PartitionRef) (rs : List Record) :
    (t.run still s (rs.map fun r => .record side ⟨r, p⟩)).1 =
      rs.flatMap fun r => replicate (max 1 (s.join.buf (!side) r.key.bytes).length) r := by
  induction rs generalizing s with
  | nil => rfl
  | cons r rs ih =>
    have hstep : t.step still s (.record side ⟨r, p⟩) = _ :=
      (congrArg (fun j => (Task.joinSide j side).process still s ⟨r, p⟩) ht).trans (h.process side side ⟨r, p⟩)
    have hnext := h.step ht (.record side ⟨r, p⟩)
    rw [hstep] at hnext
    rw [map_cons, JoinTask.run, hstep]
    dsimp only
    rw [ih hnext, h.out, flatMap_cons]
    simp only [h.buf_call]

end

end Still

/-- The records that give as many copies of each as they should are the record itself. -/
theorem eq_singleton_of_replicate {α : Type} {c : α → Nat} (hpos : ∀ y, 0 < c y) {x : α} {ys : List α}
    (h : ys.flatMap (fun y => replicate (c y) y) = replicate (c x) x) : ys = [x] := by
  have hmem {y : α} {zs : List α} hy : y ∈ zs.flatMap fun y => replicate (c y) y :=
    mem_flatMap.mpr ⟨y, hy, mem_replicate.mpr ⟨Nat.ne_of_gt (hpos y), rfl⟩⟩
  cases ys with
  | nil => exact absurd (congrArg length h) (by rw [length_replicate]; exact Nat.ne_of_lt (hpos x))
  | cons y ys =>
    have hy := hmem (mem_cons_self (l := ys) (a := y))
    rw [h] at hy
    obtain rfl := (mem_replicate.mp hy).2
    rw [flatMap_cons] at h
    have hrest := append_cancel_left (h.trans (append_nil _).symm)
    have hnil : ys = [] := eq_nil_iff_forall_not_mem.mpr fun z hz => not_mem_nil (hrest ▸ hmem hz)
    rw [hnil]

/-- Joins honour the operators of their streams, whatever the kind of join, its window and the order of arrivals,
    exactly if the operators leave every record as it is. -/
theorem joins_honour_operators_iff (l r : Stream σ) (topic : Bytes) (stores : σ) :
    (∀ (window allowedLateness : Int64) (fn : JoinFn) (cfg : Config) (es : List JoinEvent),
      ((⟨l, r, window, allowedLateness, fn⟩ : JoinedStream σ).register topic).Polls es →
        (⟨l, r, window, allowedLateness, fn⟩ : JoinedStream σ).Honours cfg topic stores es) ↔
      ∀ es, (∀ isLeft x, .record isLeft x ∈ es → x.partition.topic = if isLeft then l.source else r.source) →
        joinInput l r (Shared.start stores) es = es := by
  refine ⟨fun hall es => ?_, fun hsame window allowedLateness fn cfg es hes => ?_⟩
  · induction es using reverseRecOn with
    | nil => exact fun _ => rfl
    | append_singleton es e ih =>
      intro hes
      have hes' := ih fun isLeft x hx => hes isLeft x (mem_append_left _ hx)
      obtain ⟨s', hs'⟩ := joinInput_append l r es (Shared.start stores)
      rw [hs', hes']
      cases e with
      | punctuate => rfl
      | record side x =>
        obtain ⟨rs, hrs⟩ : ∃ rs : List Record, joinInput l r s' [.record side x] = rs.map fun r =>
          .record side ⟨r, x.partition⟩ := ⟨_, append_nil _⟩
        rw [hrs]
        -- the join that shows the side tells the records apart
        have hhonours := hall 0 0 (showing side).joinFn still (es ++ [JoinEvent.record side x]) hes
        rw [JoinedStream.Honours, hs', hes', hrs, JoinTask.run_append, JoinTask.run_append] at hhonours
        have ht : ((⟨l, r, 0, 0, (showing side).joinFn⟩ : JoinedStream σ).register topic).pipeline = showing side := rfl
        have hstill := (Still.start stores).run ht es
        have hsame := append_cancel_left hhonours
        have hone := hstill.run_records ht x.partition [x.record]
        rw [map_singleton, flatMap_singleton] at hone
        rw [hstill.run_records ht, hone] at hsame
        rw [eq_singleton_of_replicate (fun y => Nat.lt_of_lt_of_le Nat.one_pos (Nat.le_max_left 1 _)) hsame.symm]
        rfl
  · rw [JoinedStream.Honours, hsame es hes]

def dropped : JoinedStream Unit :=
  ((⟨utf8 "l", []⟩ : Stream Unit).filter fun _ => false).join ⟨utf8 "r", []⟩ 0 fun left _ => left

/-- The join emits a record that the filter drops. -/
theorem filter_ignored : ¬ dropped.Honours still (utf8 "out") ()
    [.record true ⟨⟨0, 0, none, some [1], []⟩, ⟨utf8 "l", 0⟩⟩, .record false ⟨⟨0, 0, none, some [2], []⟩, ⟨utf8 "r", 0⟩⟩] := by
  unfold JoinedStream.Honours
  decide

end Holocron.Streams

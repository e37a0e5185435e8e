import Holocron.Theorems.Log.Reopen

/-! Runs of one partition log. A run whose appends all find the active file at its end reads back what was appended. -/

namespace Holocron.Log
open Lib List

inductive Op where
  | append (r : Record)
  | read (fromOffset maxRecords : Int)
  | sync
  | snapshot
  | reopen (maxBytes : Int)
  deriving DecidableEq, Repr

variable {p : PartitionLog} {rs : List Record}

namespace PartitionLog

def step (p : PartitionLog) : Op → Except LogError PartitionLog
  | .append r => (p.append { r with offset := p.highWater }).map Prod.snd
  | .read n m =>
    match p.read n m with
    | (.ok _, p') => .ok p'
    | (.error e, _) => .error e
  | .sync => .ok p.sync
  | .snapshot => .ok p.snapshot.2
  | .reopen maxBytes => openPartition p.close maxBytes

def written (ops : List Op) : List Record :=
  (ops.filterMap fun | .append r => some r | _ => none).mapIdx fun i r => { r with offset := i }

/-- An append keeps the active segment within 32 bits of bytes and of offsets, and the log within `int64`. -/
def Small (p : PartitionLog) : Op → Prop
  | .append r => p.active.size + (encodeRecord { r with offset := p.highWater }).length < 2 ^ 32 ∧
      p.highWater - p.active.baseOffset < 2 ^ 32 ∧ p.highWater < 2 ^ 63
  | _ => True

instance (p : PartitionLog) (op : Op) : Decidable (p.Small op) := by
  cases op <;> unfold Small <;> infer_instance

/-- An append finds the active file in append mode or at its end, and a read asks for no slice that Go refuses to make. -/
def Sound (p : PartitionLog) : Op → Prop
  | .append _ => p.active.logFile.Tailed
  | .read n m => p.readPanics n m = false
  | _ => True

instance (p : PartitionLog) (op : Op) : Decidable (p.Sound op) := by
  cases op <;> unfold Sound <;> infer_instance

structure Stores (p : PartitionLog) (rs : List Record) : Prop where
  chunks : ∃ cs c, p.Holds cs c ∧ records (cs ++ [c]) = rs
  highWater : p.highWater = rs.length

theorem written_concat_append (ops : List Op) (r : Record) :
    written (ops ++ [.append r]) = written ops ++ [{ r with offset := (written ops).length }] := by
  simp [written]

theorem written_concat_other (ops : List Op) {op : Op} (h : ∀ r, op ≠ .append r) : written (ops ++ [op]) = written ops := by
  cases op with
  | append r => exact absurd rfl (h r)
  | _ => simp [written]

theorem Stores.keep {p' : PartitionLog} (h : p.Stores rs) (keeps : ∀ cs c, p.Holds cs c → p'.Holds cs c) : p'.Stores rs := by
  obtain ⟨cs, c, hholds, hrs⟩ := h.chunks
  refine ⟨⟨cs, c, keeps cs c hholds, hrs⟩, ?_⟩
  rw [(keeps cs c hholds).highWater, ← hholds.highWater, h.highWater]

theorem Stores.append_record (h : p.Stores rs) {r : Record} (small : p.Small (.append r)) (atEnd : p.active.logFile.Tailed) :
    ∃ p', p.append { r with offset := rs.length } = .ok (rs.length, p') ∧
      p'.Stores (rs ++ [{ r with offset := rs.length }]) ∧ p'.active.logFile.Tailed := by
  obtain ⟨cs, c, hholds, hrs⟩ := h.chunks
  obtain ⟨hbytes, hspan, hint⟩ := small
  have stored : Stored c.base (c.records ++ [{ r with offset := p.highWater }]) := by
    refine hholds.stored_append rfl ?_ (hholds.active.base ▸ hspan) hbytes
    have := h.highWater
    simp only [Signed]
    omega
  obtain ⟨p', cs', c', happ, hholds', htailed, hnext', hrs'⟩ := hholds.append atEnd stored
  rw [h.highWater] at happ hnext' hrs'
  refine ⟨p', happ, ⟨⟨cs', c', hholds', by rw [hrs', hrs]⟩, ?_⟩, htailed⟩
  rw [hholds'.highWater, hnext']
  simp

theorem step_stores (done : List Op) (p : PartitionLog) (op : Op) (h : p.Stores (written done))
    (allowed : p.Small op ∧ p.Sound op) : ∃ p', p.step op = .ok p' ∧ p'.Stores (written (done ++ [op])) := by
  obtain ⟨small, sound⟩ := allowed
  cases op with
  | append r =>
    obtain ⟨p', happ, hstores, -⟩ := h.append_record small sound
    refine ⟨p', ?_, by rwa [written_concat_append]⟩
    simp only [step, h.highWater, happ, Except.map]
  | read n m =>
    rw [written_concat_other done (by simp)]
    obtain ⟨cs, c, hholds, hrs⟩ := h.chunks
    by_cases hm : 0 < m
    · obtain ⟨p', hread, hholds', -⟩ := hholds.read (n := n) hm
      refine ⟨p', by simp only [step, hread], ⟨⟨cs, c, hholds', hrs⟩, ?_⟩⟩
      rw [hholds'.highWater, ← hholds.highWater, h.highWater]
    · exact ⟨p, by simp only [step, read, if_pos (Int.not_lt.mp hm)], h⟩
  | sync =>
    rw [written_concat_other done (by simp)]
    exact ⟨p.sync, rfl, h.keep fun _ _ hp => hp.sync⟩
  | snapshot =>
    rw [written_concat_other done (by simp)]
    exact ⟨p.snapshot.2, rfl, h.keep fun _ _ hp => hp.snapshot⟩
  | reopen maxBytes =>
    rw [written_concat_other done (by simp)]
    obtain ⟨cs, c, hholds, hrs⟩ := h.chunks
    obtain ⟨p', hopen, hholds', -, -⟩ := hholds.reopen maxBytes
    refine ⟨p', hopen, ⟨⟨cs, c, hholds', hrs⟩, ?_⟩⟩
    rw [hholds'.highWater, ← hholds.highWater, h.highWater]

theorem openPartition_empty (maxBytes : Int) :
    ∃ p, openPartition [] maxBytes = .ok p ∧ p.Holds [] ⟨0, []⟩ ∧ p.active = createSegment 0 (segmentBytes maxBytes) := by
  refine ⟨_, rfl, ⟨⟨Forall₂.nil, ?_, ?_, rfl⟩, ?_⟩, rfl⟩
  · exact ⟨rfl, Segment.createSegmentWithSuffix_holds _ _ _, rfl⟩
  · intro s hs
    cases hs
  · refine ⟨fun c hc => ?_, pairwise_singleton _ _⟩
    rw [mem_singleton.mp hc]
    exact Stored.nil 0

/-- After every part of a run whose calls are all `Sound`, the high water counts the records written so far. A read panics
    exactly if it finds something to read and asks for more than `maxSlice` records; otherwise it returns the first of
    the records written, from its offset on. -/
theorem run_reads_written (maxBytes : Int) (ops : List Op) {p₀ : PartitionLog}
    (fresh : openPartition [] maxBytes = .ok p₀) (small : Allowed step Small p₀ ops) (sound : Allowed step Sound p₀ ops)
    (done : List Op) (reached : done <+: ops) :
    ∃ p, runAll step p₀ done = .ok p ∧ p.highWater = (written done).length ∧
      (written done).Pairwise (fun a b => a.offset < b.offset) ∧
      ∀ n m : Int, 0 < m →
        (p.readPanics n m = true ↔ maxSlice < m ∧ n < p.highWater) ∧
        (p.readPanics n m = false → (p.read n m).1 =
          .ok ((((written done).filter fun r => decide (n ≤ r.offset)).take m.toNat).map Record.norm)) := by
  obtain ⟨rest, rfl⟩ := reached
  obtain ⟨p, hopen, hempty, -⟩ := openPartition_empty maxBytes
  obtain rfl : p = p₀ := by
    rw [hopen] at fresh
    exact Except.ok.inj fresh
  have hstart : p.Stores (written []) := ⟨⟨[], ⟨0, []⟩, hempty, rfl⟩, hempty.highWater⟩
  obtain ⟨p', hrun, hstores⟩ := runAll_invariant step_stores (small.of_append.and sound.of_append) hstart
  obtain ⟨cs, c, hholds, hrs⟩ := hstores.chunks
  refine ⟨p', hrun, hstores.highWater, hrs ▸ hholds.layout.ascending, fun n m hm => ⟨hholds.readPanics n m, fun _ => ?_⟩⟩
  obtain ⟨p'', hread, -, -⟩ := hholds.read (n := n) hm
  rw [hread, hrs, map_take]
  rfl

/-- An append, a reopening, a read of the whole file and another append on the reopened segment. -/
theorem run_reads_written_reopened :
    ∃ p, runAll step ⟨segmentBytes 0, [], createSegment 0 (segmentBytes 0)⟩
        [.append ⟨0, 1, none, some [7], []⟩, .reopen 0, .read 0 5, .append ⟨0, 2, some [], some [8], []⟩] = .ok p ∧
      p.highWater = 2 ∧ p.readPanics 0 5 = false ∧
      (p.read 0 5).1 = .ok [⟨0, 1, none, some [7], []⟩, ⟨1, 2, none, some [8], []⟩] := by
  obtain ⟨p, hrun, hhw, -, hread⟩ := run_reads_written 0
    [.append ⟨0, 1, none, some [7], []⟩, .reopen 0, .read 0 5, .append ⟨0, 2, some [], some [8], []⟩] rfl
    (by decide +kernel) (by decide +kernel) _ (prefix_refl _)
  have hpanics : p.readPanics 0 5 = false := by
    rw [← Bool.not_eq_true, (hread 0 5 (by decide)).1]
    exact fun h => absurd h.1 (by decide)
  exact ⟨p, hrun, hhw, hpanics, (hread 0 5 (by decide)).2 hpanics⟩

/-! ### A read between two appends

After a reopen the handle is not in append mode. A read that stops at a frame boundary inside the file
leaves the position there, and the next append, once flushed, lies over the record that follows. -/

def valued (n : Int) (v : Bytes) : Record := ⟨n, 1, none, some v, []⟩

def wide : Bytes := List.replicate 4060 0

def overwriting : List Op :=
  [.append (valued 0 wide), .append (valued 0 [1]), .reopen 0, .read 0 1, .append (valued 0 [2])]

def emptyLog : PartitionLog := ⟨segmentBytes 0, [], createSegment 0 (segmentBytes 0)⟩

set_option maxRecDepth 100000 in
/-- The record appended after the read takes the place of the one before it. -/
theorem run_overwrites : ∃ p₀ p, openPartition [] 0 = .ok p₀ ∧ Allowed step Small p₀ overwriting ∧
    runAll step p₀ overwriting = .ok p ∧
    (p.read 0 10).1 ≠ .ok ((((written overwriting).filter fun r => decide (0 ≤ r.offset)).take 10).map Record.norm) := by
  have heval : Allowed step Small emptyLog overwriting ∧
      (runAll step emptyLog overwriting).map (fun p => ((p.read 0 10).1.map length).toOption) = .ok (some 2) := by
    decide +kernel
  obtain ⟨hallowed, hread⟩ := heval
  cases hrun : runAll step emptyLog overwriting with
  | error e =>
    rw [hrun] at hread
    cases hread
  | ok p =>
    refine ⟨emptyLog, p, rfl, hallowed, hrun, fun heq => ?_⟩
    rw [hrun] at hread
    simp only [Except.map, heq] at hread
    revert hread
    decide +kernel

end PartitionLog
end Holocron.Log

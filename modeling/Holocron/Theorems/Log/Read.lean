import Holocron.Log.Partition
import Holocron.Theorems.Log.Frame

/-! Whatever bytes the files of a log hold, a read returns records in normal form. -/

namespace Holocron.Log
open Lib List

theorem readBytes_norm {b : Bytes} {s : Slice} {n : Nat} (h : readBytes b = .ok (s, n)) : s.norm = s := by
  unfold readBytes at h
  split at h
  · cases h
  simp only at h
  split at h
  · cases h
  split at h
  · cases h
    rfl
  · next hfour hshort hzero =>
    cases h
    have hlen : ((b.drop 4).take (ofBigEndian (b.take 4))).length = ofBigEndian (b.take 4) := by
      rw [length_take, length_drop]
      omega
    cases hs : (b.drop 4).take (ofBigEndian (b.take 4)) with
    | nil =>
      rw [hs] at hlen
      exact absurd hlen.symm hzero
    | cons x xs => rfl

theorem ok_of_bind {ε α β : Type} {x : Except ε α} {f : α → Except ε β} {b : β} (h : x >>= f = .ok b) :
    ∃ a, x = .ok a ∧ f a = .ok b := by
  cases x with
  | error e => cases h
  | ok a => exact ⟨a, rfl, h⟩

theorem readHeaders_norm {count : Nat} {b : Bytes} {hs : List Header} (h : readHeaders count b = .ok hs) :
    hs.map Header.norm = hs := by
  induction count generalizing b hs with
  | zero =>
    cases h
    rfl
  | succ count ih =>
    obtain ⟨⟨key, n⟩, -, h⟩ := ok_of_bind h
    obtain ⟨⟨value, m⟩, hvalue, h⟩ := ok_of_bind h
    obtain ⟨rest, hrest, h⟩ := ok_of_bind h
    cases h
    simp [Header.norm, readBytes_norm hvalue, ih hrest]

theorem decodeBody_norm {body : Bytes} {r : Record} (h : decodeBody body = .ok r) : r.norm = r := by
  unfold decodeBody at h
  split at h
  · cases h
  obtain ⟨⟨key, n⟩, hkey, h⟩ := ok_of_bind h
  obtain ⟨⟨value, m⟩, hvalue, h⟩ := ok_of_bind h
  simp only at h
  split at h
  · cases h
  obtain ⟨headers, hheaders, h⟩ := ok_of_bind h
  cases h
  simp only [Record.norm, readBytes_norm hkey, readBytes_norm hvalue, readHeaders_norm hheaders]

theorem readRecordFrom_norm {rd rd' : Reader} {r : Record} {n : Nat} (h : readRecordFrom rd = (.ok (r, n), rd')) :
    r.norm = r := by
  unfold readRecordFrom at h
  simp only at h
  split at h
  · cases h
  split at h
  · cases h
  split at h
  · cases h
  split at h
  · cases h
  split at h
  · cases h
  split at h
  · cases h
  · next hdec =>
    cases h
    exact decodeBody_norm hdec

variable {rs : List Record} {n : Int} {max : Nat}

theorem Segment.readLoop_norm {fuel : Nat} {rd rd' : Reader} {out : List Record}
    (h : readLoop fuel rd n max out = (.ok rs, rd')) (hout : ∀ r ∈ out, r.norm = r) : ∀ r ∈ rs, r.norm = r := by
  induction fuel generalizing rd out with
  | zero =>
    cases h
    exact hout
  | succ fuel ih =>
    unfold readLoop at h
    split at h
    · cases h
      exact hout
    · split at h
      · next hread =>
        split at h
        · exact ih h hout
        · exact ih h (forall_mem_append.mpr ⟨hout, forall_mem_singleton.mpr (readRecordFrom_norm hread)⟩)
      · cases h
        exact hout
      · cases h
        exact hout
      · cases h

theorem Segment.readFrom_norm {s s' : Segment} {m : Int} (h : s.readFrom n m = (.ok rs, s')) :
    ∀ r ∈ rs, r.norm = r := by
  unfold readFrom at h
  split at h
  · cases h
    exact forall_mem_nil _
  split at h
  · cases h
    exact forall_mem_nil _
  · simp only [Prod.mk.injEq] at h
    exact readLoop_norm (Prod.ext h.1 rfl) (forall_mem_nil _)

theorem PartitionLog.readLoop_norm {segments segments' : List Segment}
    (h : readLoop segments n max = (.ok rs, segments')) : ∀ r ∈ rs, r.norm = r := by
  induction segments generalizing n max rs segments' with
  | nil =>
    cases h
    exact forall_mem_nil _
  | cons s rest ih =>
    unfold readLoop at h
    split at h
    · cases h
      exact forall_mem_nil _
    · split at h
      · cases h
      · next records s' hread =>
        obtain ⟨hloop, -⟩ := Prod.mk.inj h
        cases hrest : (readLoop rest ((records.getLast?.map fun r => r.offset + 1).getD n) (max - records.length)).1 with
        | error e =>
          rw [hrest] at hloop
          cases hloop
        | ok more =>
          rw [hrest] at hloop
          cases hloop
          exact forall_mem_append.mpr ⟨Segment.readFrom_norm hread, ih (Prod.ext hrest rfl)⟩

theorem PartitionLog.read_norm {l l' : PartitionLog} {m : Int} (h : l.read n m = (.ok rs, l')) :
    ∀ r ∈ rs, r.norm = r := by
  unfold read at h
  split at h
  · cases h
    exact forall_mem_nil _
  · obtain ⟨hloop, -⟩ := Prod.mk.inj h
    exact readLoop_norm (Prod.ext hloop rfl)

end Holocron.Log

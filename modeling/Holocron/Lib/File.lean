import Holocron.Lib.Bytes

/-! Files and their buffers: one seek position for reads and writes, a reader that fetches ahead, a writer whose bytes
    land at the end while the file is `Tailed`. -/

namespace Lib
open List

structure File where
  data : Bytes
  pos : Nat
  appending : Bool
  writable : Bool
  deriving DecidableEq, Repr

namespace File

def read (f : File) (n : Nat) : Bytes × File :=
  let b := (f.data.drop f.pos).take n
  (b, { f with pos := f.pos + b.length })

def write (f : File) (b : Bytes) : File :=
  let at_ := if f.appending then f.data.length else f.pos
  let pad := List.replicate (at_ - f.data.length) 0
  { f with
    data := f.data.take at_ ++ pad ++ b ++ f.data.drop (at_ + b.length)
    pos := at_ + b.length }

def seek (f : File) (n : Nat) : File := { f with pos := n }

def truncate (f : File) (n : Nat) : Option File :=
  if f.writable then some { f with data := f.data.take n } else none

def Tailed (f : File) : Prop := f.appending = true ∨ f.pos = f.data.length

instance (f : File) : Decidable f.Tailed := by unfold Tailed; infer_instance

section
variable (f : File) (n : Nat)

@[simp] theorem seek_data : (f.seek n).data = f.data := rfl
@[simp] theorem seek_pos : (f.seek n).pos = n := rfl
@[simp] theorem seek_appending : (f.seek n).appending = f.appending := rfl
@[simp] theorem seek_writable : (f.seek n).writable = f.writable := rfl

@[simp] theorem read_data : (f.read n).2.data = f.data := rfl
@[simp] theorem read_appending : (f.read n).2.appending = f.appending := rfl
@[simp] theorem read_writable : (f.read n).2.writable = f.writable := rfl

end

section
variable (f : File)
include f

@[simp] theorem write_appending (b : Bytes) : (f.write b).appending = f.appending := rfl
@[simp] theorem write_writable (b : Bytes) : (f.write b).writable = f.writable := rfl

theorem read_append_drop (n : Nat) :
    (f.read n).1 ++ f.data.drop (f.read n).2.pos = f.data.drop f.pos := by
  have hdrop : f.data.drop (f.read n).2.pos = (f.data.drop f.pos).drop n := by
    simp only [read, length_take, length_drop, drop_drop]
    by_cases h : n ≤ f.data.length - f.pos
    · rw [Nat.min_eq_left h]
    · rw [Nat.min_eq_right (by omega), drop_eq_nil_of_le (i := f.pos + (f.data.length - f.pos)) (by omega),
        drop_eq_nil_of_le (i := f.pos + n) (by omega)]
  rw [hdrop]
  exact take_append_drop n (f.data.drop f.pos)

theorem write_data (h : f.Tailed) (b : Bytes) : (f.write b).data = f.data ++ b := by
  have hat : (if f.appending then f.data.length else f.pos) = f.data.length := by
    rcases h with h | h <;> simp [h]
  simp [write, hat]

theorem write_tailed (h : f.Tailed) (b : Bytes) : (f.write b).Tailed := by
  rcases h with h | h
  · exact Or.inl h
  · refine Or.inr ?_
    simp [write, h]

end

end File

def bufSize : Nat := 4096

structure Reader where
  file : File
  buf : Bytes
  deriving DecidableEq, Repr

namespace Reader

def new (f : File) : Reader := ⟨f, []⟩

def rest (r : Reader) : Bytes := r.buf ++ r.file.data.drop r.file.pos

/-- One `Read` into `n` bytes. An empty buffer is filled with one read of the file, or passed by
    when the caller asks for at least a buffer's worth. -/
def read (r : Reader) (n : Nat) : Bytes × Reader :=
  if r.buf = [] then
    if bufSize ≤ n then
      let (b, f) := r.file.read n
      (b, ⟨f, []⟩)
    else
      let (b, f) := r.file.read bufSize
      (b.take n, ⟨f, b.drop n⟩)
  else (r.buf.take n, ⟨r.file, r.buf.drop n⟩)

/-- `io.ReadFull`: read until `n` bytes have come or a read brings none. Every read brings at least
    one byte or is the last, so `n` rounds are enough. -/
def readFullLoop : Nat → Reader → Nat → Bytes × Reader
  | 0, r, _ => ([], r)
  | fuel + 1, r, n =>
    if n = 0 then ([], r)
    else
      let (b, r') := r.read n
      if b = [] then ([], r')
      else
        let (c, r'') := readFullLoop fuel r' (n - b.length)
        (b ++ c, r'')

def readFull (r : Reader) (n : Nat) : Bytes × Reader := readFullLoop n r n

@[simp] theorem new_rest (f : File) : (new f).rest = f.data.drop f.pos := rfl

structure Same (r r' : Reader) : Prop where
  data : r'.file.data = r.file.data
  appending : r'.file.appending = r.file.appending
  writable : r'.file.writable = r.file.writable
  pos : r.file.pos ≤ r.file.data.length → r'.file.pos ≤ r'.file.data.length

theorem Same.refl (r : Reader) : Same r r := ⟨rfl, rfl, rfl, id⟩

theorem Same.trans {a b c : Reader} (h₁ : Same a b) (h₂ : Same b c) : Same a c :=
  ⟨h₂.data.trans h₁.data, h₂.appending.trans h₁.appending, h₂.writable.trans h₁.writable, h₂.pos ∘ h₁.pos⟩

theorem read_same (r : Reader) (n : Nat) : Same r (r.read n).2 := by
  unfold read
  split
  · split <;> exact ⟨rfl, rfl, rfl, fun h => by simp [File.read]; omega⟩
  · exact ⟨rfl, rfl, rfl, id⟩

/-- A reader with nothing left has taken the position to the end of the file. -/
theorem pos_of_rest_nil {r : Reader} (h : r.rest = []) (hpos : r.file.pos ≤ r.file.data.length) :
    r.file.pos = r.file.data.length := by
  have := drop_eq_nil_iff.mp (append_eq_nil_iff.mp h).2
  omega

theorem read_rest (r : Reader) (n : Nat) : (r.read n).1 ++ (r.read n).2.rest = r.rest := by
  unfold read
  split
  · rename_i hbuf
    split
    · simpa [rest, hbuf] using r.file.read_append_drop n
    · have h := r.file.read_append_drop bufSize
      simp only [rest, hbuf, ← append_assoc, take_append_drop]
      exact h
  · simp [rest, ← append_assoc]

/-- A read brings at most what was asked for, and nothing only at the end of the file. -/
theorem read_length (r : Reader) (n : Nat) : (r.read n).1.length ≤ n := by
  unfold read
  split
  · split
    · simp only [File.read, length_take]
      exact Nat.min_le_left _ _
    · simp only [length_take]
      exact Nat.min_le_left _ _
  · simp only [length_take]
    exact Nat.min_le_left _ _

theorem read_eq_nil (r : Reader) {n : Nat} (hn : 0 < n) (h : (r.read n).1 = []) : r.rest = [] := by
  unfold read at h
  split at h
  · rename_i hbuf
    split at h
    · simp only [File.read, take_eq_nil_iff, Nat.ne_of_gt hn, false_or] at h
      simp [rest, hbuf, h]
    · simp only [File.read, take_eq_nil_iff, Nat.ne_of_gt hn, false_or] at h
      rcases h with h | h
      · exact absurd h (by decide)
      · simp [rest, hbuf, h]
  · rename_i hbuf
    simp only [take_eq_nil_iff, Nat.ne_of_gt hn, false_or] at h
    exact absurd h hbuf

theorem readFullLoop_same (fuel : Nat) (r : Reader) (n : Nat) : Same r (readFullLoop fuel r n).2 := by
  induction fuel generalizing r n with
  | zero => exact Same.refl r
  | succ fuel ih =>
    simp only [readFullLoop]
    split
    · exact Same.refl r
    · split
      · exact read_same r n
      · exact (read_same r n).trans (ih _ _)

theorem readFullLoop_eq (fuel : Nat) (r : Reader) (n : Nat) (h : n ≤ fuel) :
    (readFullLoop fuel r n).1 = r.rest.take n ∧ (readFullLoop fuel r n).2.rest = r.rest.drop n := by
  induction fuel generalizing r n with
  | zero =>
    obtain rfl : n = 0 := by omega
    simp [readFullLoop]
  | succ fuel ih =>
    simp only [readFullLoop]
    split
    · rename_i hn
      subst hn
      simp
    · rename_i hn
      have hrest := read_rest r n
      have hlen := read_length r n
      split
      · rename_i hnil
        have hr := read_eq_nil r (Nat.pos_of_ne_zero hn) hnil
        rw [hnil, nil_append] at hrest
        simp [hrest, hr]
      · rename_i hne
        have hpos : 0 < (r.read n).1.length := length_pos_iff.mpr hne
        obtain ⟨h1, h2⟩ := ih (r.read n).2 (n - (r.read n).1.length) (by omega)
        rw [h1, h2, ← hrest]
        constructor
        · rw [take_append, take_of_length_le hlen]
        · rw [drop_append, drop_eq_nil_of_le hlen, nil_append]

theorem readFull_same (r : Reader) (n : Nat) : Same r (r.readFull n).2 := readFullLoop_same n r n

/-- Reading `n` bytes hands out the next `n` bytes of the stream, fewer only at its end. -/
theorem readFull_bytes (r : Reader) (n : Nat) : (r.readFull n).1 = r.rest.take n :=
  (readFullLoop_eq n r n (Nat.le_refl n)).1

theorem readFull_rest (r : Reader) (n : Nat) : (r.readFull n).2.rest = r.rest.drop n :=
  (readFullLoop_eq n r n (Nat.le_refl n)).2

end Reader

/-- `bufio.Writer.Write` of `p` with `buf` already buffered. What does not fit fills the buffer, which
    is written out; the remainder is buffered, or written past the buffer when it is larger. -/
def bufWrite (f : File) (buf p : Bytes) : File × Bytes :=
  if p.length ≤ bufSize - buf.length then (f, buf ++ p)
  else if buf = [] then (f.write p, [])
  else
    let n := bufSize - buf.length
    let f' := f.write (buf ++ p.take n)
    if (p.drop n).length ≤ bufSize then (f', p.drop n) else (f'.write (p.drop n), [])

def bufFlush (f : File) (buf : Bytes) : File := if buf = [] then f else f.write buf

variable {f : File} {buf : Bytes}

theorem bufWrite_tailed {p : Bytes} (h : f.Tailed) : (bufWrite f buf p).1.Tailed := by
  unfold bufWrite
  split
  · exact h
  · split
    · exact f.write_tailed h p
    · simp only
      split
      · exact f.write_tailed h _
      · exact File.write_tailed _ (f.write_tailed h _) _

/-- On a tailed file the bytes in the file and in the buffer grow by exactly what is written. -/
theorem bufWrite_data (buf p : Bytes) (h : f.Tailed) :
    (bufWrite f buf p).1.data ++ (bufWrite f buf p).2 = f.data ++ buf ++ p := by
  unfold bufWrite
  split
  · simp
  · split
    · rename_i hnil
      simp [f.write_data h, hnil]
    · simp only
      split
      · simp [f.write_data h]
      · rw [File.write_data _ (f.write_tailed h _), f.write_data h]
        simp

theorem bufWrite_flags (f : File) (buf p : Bytes) :
    (bufWrite f buf p).1.appending = f.appending ∧ (bufWrite f buf p).1.writable = f.writable := by
  unfold bufWrite
  split
  · simp
  · split
    · simp
    · simp only
      split <;> simp

theorem bufFlush_data (h : f.Tailed) : (bufFlush f buf).data = f.data ++ buf := by
  unfold bufFlush
  split
  · rename_i hnil; simp [hnil]
  · exact f.write_data h buf

theorem bufFlush_tailed (h : f.Tailed) : (bufFlush f buf).Tailed := by
  unfold bufFlush
  split
  · exact h
  · exact f.write_tailed h buf

theorem bufFlush_flags (f : File) (buf : Bytes) :
    (bufFlush f buf).appending = f.appending ∧ (bufFlush f buf).writable = f.writable := by
  unfold bufFlush
  split <;> simp

end Lib

import Mathlib.Data.List.Forall2
import Holocron.Lib.File

/-! Files that agree in everything but the bytes they hold: reading and writing move them in step. -/

namespace Lib
open List

/-- Both fail alike, or both succeed with related results. -/
inductive Both {ε α : Type} (R : α → α → Prop) : Except ε α → Except ε α → Prop
  | error (e : ε) : Both R (.error e) (.error e)
  | ok {x x' : α} (h : R x x') : Both R (.ok x) (.ok x')

namespace Both

variable {ε α β : Type} {R : α → α → Prop} {S : β → β → Prop}

theorem refl (hR : ∀ x, R x x) : ∀ res : Except ε α, Both R res res
  | .error e => .error e
  | .ok x => .ok (hR x)

theorem bind {res res' : Except ε α} (h : Both R res res') {f f' : α → Except ε β}
    (hf : ∀ x x', R x x' → Both S (f x) (f' x')) : Both S (res >>= f) (res' >>= f') := by
  cases h with
  | error e => exact .error e
  | ok h => exact hf _ _ h

end Both

section
variable {α β : Type} {R : α → β → Prop} {l : List α} {l' : List β}

theorem forall₂_getLast? (h : Forall₂ R l l') : Option.Rel R l.getLast? l'.getLast? := by
  induction h with
  | nil => exact .none
  | cons hx hrest ih =>
    cases hrest with
    | nil => exact .some hx
    | cons _ _ =>
      exact ih

theorem forall₂_dropLast (h : Forall₂ R l l') : Forall₂ R l.dropLast l'.dropLast := by
  rw [dropLast_eq_take, dropLast_eq_take, h.length_eq]
  exact forall₂_take _ h

end

structure File.Twin (f f' : File) : Prop where
  length : f'.data.length = f.data.length
  pos : f'.pos = f.pos
  appending : f'.appending = f.appending
  writable : f'.writable = f.writable

namespace File.Twin

variable {f f' : File}

theorem refl (f : File) : Twin f f := ⟨rfl, rfl, rfl, rfl⟩

section
variable (h : Twin f f')
include h

theorem seek (n : Nat) : Twin (f.seek n) (f'.seek n) := ⟨h.length, rfl, h.appending, h.writable⟩

theorem read (n : Nat) : (f'.read n).1.length = (f.read n).1.length ∧ Twin (f.read n).2 (f'.read n).2 := by
  have hlen : (f'.read n).1.length = (f.read n).1.length := by
    simp [File.read, h.length, h.pos]
  refine ⟨hlen, h.length, ?_, h.appending, h.writable⟩
  change f'.pos + (f'.read n).1.length = f.pos + (f.read n).1.length
  rw [hlen, h.pos]

theorem write {b b' : Bytes} (hb : b'.length = b.length) : Twin (f.write b) (f'.write b') := by
  refine ⟨?_, ?_, h.appending, h.writable⟩
  · simp [File.write, h.length, h.pos, h.appending, hb]
  · simp only [File.write, h.length, h.pos, h.appending, hb]

theorem truncate (n : Nat) : Option.Rel Twin (f.truncate n) (f'.truncate n) := by
  simp only [File.truncate, h.writable]
  split
  · refine .some ⟨?_, h.pos, h.appending, rfl⟩
    rw [length_take, length_take, h.length]
  · exact .none

end

end File.Twin

structure Reader.Twin (r r' : Reader) : Prop where
  file : r.file.Twin r'.file
  buf : r'.buf.length = r.buf.length

namespace Reader.Twin

variable {r r' : Reader}

theorem new {f f' : File} (h : f.Twin f') : Twin (Reader.new f) (Reader.new f') := ⟨h, rfl⟩

theorem read (h : Twin r r') (n : Nat) : (r'.read n).1.length = (r.read n).1.length ∧ Twin (r.read n).2 (r'.read n).2 := by
  have hnil : r'.buf = [] ↔ r.buf = [] := by rw [← length_eq_zero_iff, h.buf, length_eq_zero_iff]
  obtain ⟨hlen, hfile⟩ := h.file.read n
  obtain ⟨hlen', hfile'⟩ := h.file.read bufSize
  simp only [Reader.read, hnil]
  split
  · split
    · exact ⟨hlen, hfile, rfl⟩
    · refine ⟨?_, hfile', ?_⟩
      · rw [length_take, length_take, hlen']
      · rw [length_drop, length_drop, hlen']
  · refine ⟨?_, h.file, ?_⟩
    · rw [length_take, length_take, h.buf]
    · rw [length_drop, length_drop, h.buf]

theorem readFullLoop (fuel : Nat) (h : Twin r r') (n : Nat) :
    Twin (Reader.readFullLoop fuel r n).2 (Reader.readFullLoop fuel r' n).2 := by
  induction fuel generalizing r r' n with
  | zero => exact h
  | succ fuel ih =>
    obtain ⟨hlen, hnext⟩ := h.read n
    have hnil : (r'.read n).1 = [] ↔ (r.read n).1 = [] := by rw [← length_eq_zero_iff, hlen, length_eq_zero_iff]
    simp only [readFullLoop]
    split
    · exact h
    · simp only [hnil, hlen]
      split
      · exact hnext
      · exact ih hnext _

theorem readFull (h : Twin r r') (n : Nat) : Twin (r.readFull n).2 (r'.readFull n).2 := readFullLoop n h n

end Reader.Twin

theorem bufWrite_twin {f f' : File} (h : f.Twin f') {buf buf' p p' : Bytes} (hbuf : buf'.length = buf.length)
    (hp : p'.length = p.length) :
    (bufWrite f buf p).1.Twin (bufWrite f' buf' p').1 ∧ (bufWrite f' buf' p').2.length = (bufWrite f buf p).2.length := by
  have hnil : buf' = [] ↔ buf = [] := by rw [← length_eq_zero_iff, hbuf, length_eq_zero_iff]
  have hdrop : (p'.drop (bufSize - buf.length)).length = (p.drop (bufSize - buf.length)).length :=
    by rw [length_drop, length_drop, hp]
  have hfull : (buf' ++ p'.take (bufSize - buf.length)).length = (buf ++ p.take (bufSize - buf.length)).length := by
    rw [length_append, length_append, length_take, length_take, hbuf, hp]
  simp only [bufWrite, hnil, hbuf, hp, hdrop]
  split
  · exact ⟨h, by rw [length_append, length_append, hbuf, hp]⟩
  · split
    · exact ⟨h.write hp, rfl⟩
    · split
      · exact ⟨h.write hfull, hdrop⟩
      · exact ⟨(h.write hfull).write hdrop, rfl⟩

theorem bufFlush_twin {f f' : File} (h : f.Twin f') {buf buf' : Bytes} (hbuf : buf'.length = buf.length) :
    (bufFlush f buf).Twin (bufFlush f' buf') := by
  have hnil : buf' = [] ↔ buf = [] := by rw [← length_eq_zero_iff, hbuf, length_eq_zero_iff]
  simp only [bufFlush, hnil]
  split
  · exact h
  · exact h.write hbuf

end Lib

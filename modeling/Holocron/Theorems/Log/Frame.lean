import Holocron.Log.Frame

/-! A record whose frame fits its length fields is read as its normal form, and the reader stands after the frame. -/

namespace Holocron.Log
open Lib List

structure Fits (r : Record) : Prop where
  offset : Signed 8 r.offset
  body : (encodeBody r).length < 2 ^ 32

@[simp] theorem length_appendBytes (b : Bytes) : (appendBytes b).length = 4 + b.length := by
  simp [appendBytes]

/-- A slice comes back nil when it is empty. -/
theorem readBytes_appendBytes (b tail : Bytes) (h : (appendBytes b ++ tail).length < 2 ^ 32) :
    readBytes (appendBytes b ++ tail) = .ok (Slice.norm (some b), 4 + b.length) := by
  have hlen : (appendBytes b ++ tail).length = 4 + b.length + tail.length := by simp
  have hn : ofBigEndian ((appendBytes b ++ tail).take 4) = b.length := by
    rw [appendBytes, append_assoc, take_left' (length_bigEndian 4 _)]
    exact ofBigEndian_bigEndian_of_lt (by omega)
  have hbytes : ((appendBytes b ++ tail).drop 4).take b.length = b := by
    rw [appendBytes, append_assoc, drop_left' (length_bigEndian 4 _), take_left' rfl]
  unfold readBytes
  rw [if_neg (by omega)]
  simp only [hn, hbytes]
  rw [if_neg (by rw [hlen]; omega)]
  rcases b with _ | ⟨x, b⟩ <;> simp [Slice.norm]

theorem drop_appendBytes (b tail : Bytes) : (appendBytes b ++ tail).drop (4 + b.length) = tail :=
  drop_left' (length_appendBytes b)

theorem norm_some_bytes (s : Slice) : Slice.norm (some s.bytes) = s.norm := by
  rcases s with _ | _ | ⟨x, b⟩ <;> rfl

theorem bytes_norm_some (b : Bytes) : Slice.bytes (Slice.norm (some b)) = b := by
  rcases b with _ | ⟨x, b⟩ <;> rfl

theorem readHeaders_encode (hs : List Header) (h : (hs.flatMap encodeHeader).length < 2 ^ 32) :
    readHeaders hs.length (hs.flatMap encodeHeader) = .ok (hs.map Header.norm) := by
  induction hs with
  | nil => rfl
  | cons x hs ih =>
    simp only [flatMap_cons, encodeHeader, append_assoc, length_append, length_appendBytes] at h ⊢
    have hkey := readBytes_appendBytes x.key (appendBytes x.value.bytes ++ hs.flatMap encodeHeader)
      (by simp only [length_append, length_appendBytes]; omega)
    have hval := readBytes_appendBytes x.value.bytes (hs.flatMap encodeHeader)
      (by simp only [length_append, length_appendBytes]; omega)
    have hrest := ih (by omega)
    simp only [length_cons, readHeaders, hkey, bind, Except.bind, drop_appendBytes, hval, hrest,
      norm_some_bytes, bytes_norm_some, map_cons, Header.norm]

variable {r : Record}

theorem decodeBody_encodeBody (h : Fits r) : decodeBody (encodeBody r) = .ok r.norm := by
  obtain ⟨hoff, hbody⟩ := h
  have hlen : (encodeBody r).length = 16 + (4 + r.key.bytes.length) + (4 + r.value.bytes.length) + 4 +
      (r.headers.flatMap encodeHeader).length := by
    simp only [encodeBody, length_append, length_bigEndian, length_appendBytes]
  -- The headers are no more than the bytes that encode them, so their count fits too.
  have hcount : r.headers.length ≤ (r.headers.flatMap encodeHeader).length := by
    generalize r.headers = hs
    induction hs with
    | nil => simp
    | cons x hs ih => simp only [flatMap_cons, encodeHeader, length_append, length_appendBytes,
        length_cons]; omega
  have h8 : (encodeBody r).take 8 = bigEndian 8 (toUnsigned 8 r.offset) := by
    simp only [encodeBody, append_assoc]
    exact take_left' (length_bigEndian 8 _)
  have h16 : ((encodeBody r).drop 8).take 8 = bigEndian 8 r.timestamp.toUInt64.toNat := by
    simp only [encodeBody, append_assoc]
    exact take_left' (length_bigEndian 8 _)
  have hrest : (encodeBody r).drop 16 = appendBytes r.key.bytes ++ (appendBytes r.value.bytes ++
      (bigEndian 4 r.headers.length ++ r.headers.flatMap encodeHeader)) := by
    rw [show 16 = 8 + 8 from rfl, ← drop_drop]
    simp only [encodeBody, append_assoc]
    rw [drop_left' (length_bigEndian 8 _), drop_left' (length_bigEndian 8 _)]
  have hts : Int64.ofUInt64 (UInt64.ofNat (ofBigEndian (bigEndian 8 r.timestamp.toUInt64.toNat))) = r.timestamp := by
    rw [ofBigEndian_bigEndian_of_lt (by simpa using r.timestamp.toUInt64.toNat_lt)]
    simp
  have hkey := readBytes_appendBytes r.key.bytes (appendBytes r.value.bytes ++
    (bigEndian 4 r.headers.length ++ r.headers.flatMap encodeHeader))
    (by simp only [length_append, length_appendBytes, length_bigEndian]; omega)
  have hval := readBytes_appendBytes r.value.bytes (bigEndian 4 r.headers.length ++ r.headers.flatMap encodeHeader)
    (by simp only [length_append, length_bigEndian, length_appendBytes]; omega)
  have hcnt : ofBigEndian ((bigEndian 4 r.headers.length ++ r.headers.flatMap encodeHeader).take 4) =
      r.headers.length := by
    rw [take_left' (length_bigEndian 4 _)]
    exact ofBigEndian_bigEndian_of_lt (by omega)
  have hhdr := readHeaders_encode r.headers (by omega)
  unfold decodeBody
  rw [if_neg (by omega)]
  simp only [hrest, hkey, bind, Except.bind, drop_appendBytes, hval, h8, h16, hts, toSigned_ofBigEndian hoff]
  simp only [hcnt, drop_left' (length_bigEndian 4 _), hhdr, norm_some_bytes]
  rfl

section
variable {r : Record} (h : Fits r) {rd : Reader} {tail : Bytes} (hr : rd.rest = encodeRecord r ++ tail)
include h hr

/-- A stream that starts with the frame of a record yields its normal form and the frame's length, after
    three reads. -/
theorem readRecordFrom_reads :
    readRecordFrom rd = (.ok (r.norm, (encodeRecord r).length),
      (((rd.readFull 4).2.readFull (encodeBody r).length).2.readFull 4).2) ∧
    (((rd.readFull 4).2.readFull (encodeBody r).length).2.readFull 4).2.rest = tail := by
  have hlen : (encodeRecord r).length = 4 + (encodeBody r).length + 4 := by
    simp only [encodeRecord, length_append, length_bigEndian]
  simp only [encodeRecord, append_assoc] at hr
  have h1 : (rd.readFull 4).1 = bigEndian 4 (encodeBody r).length := by
    rw [Reader.readFull_bytes, hr, take_left' (length_bigEndian 4 _)]
  have hr1 : (rd.readFull 4).2.rest = encodeBody r ++ (bigEndian 4 (checksum (encodeBody r)).toNat ++ tail) := by
    rw [Reader.readFull_rest, hr, drop_left' (length_bigEndian 4 _)]
  have hn : ofBigEndian (bigEndian 4 (encodeBody r).length) = (encodeBody r).length :=
    ofBigEndian_bigEndian_of_lt (by simpa using h.body)
  have h2 : ((rd.readFull 4).2.readFull (encodeBody r).length).1 = encodeBody r := by
    rw [Reader.readFull_bytes, hr1, take_left' rfl]
  have hr2 : ((rd.readFull 4).2.readFull (encodeBody r).length).2.rest =
      bigEndian 4 (checksum (encodeBody r)).toNat ++ tail := by
    rw [Reader.readFull_rest, hr1, drop_left' rfl]
  have h3 : (((rd.readFull 4).2.readFull (encodeBody r).length).2.readFull 4).1 =
      bigEndian 4 (checksum (encodeBody r)).toNat := by
    rw [Reader.readFull_bytes, hr2, take_left' (length_bigEndian 4 _)]
  have hcrc : ofBigEndian (bigEndian 4 (checksum (encodeBody r)).toNat) = (checksum (encodeBody r)).toNat :=
    ofBigEndian_bigEndian_of_lt (by simpa using (checksum (encodeBody r)).toNat_lt)
  refine ⟨?_, by rw [Reader.readFull_rest, hr2, drop_left' (length_bigEndian 4 _)]⟩
  simp only [readRecordFrom, h1, hn, h2, h3, hcrc, decodeBody_encodeBody h, hlen, ne_eq,
    Nat.lt_irrefl]
  rfl

theorem readRecordFrom_encode :
    ∃ rd', readRecordFrom rd = (.ok (r.norm, (encodeRecord r).length), rd') ∧ rd'.rest = tail ∧ Reader.Same rd rd' := by
  obtain ⟨hread, hrest⟩ := readRecordFrom_reads h hr
  exact ⟨_, hread, hrest,
    ((Reader.readFull_same _ _).trans (Reader.readFull_same _ _)).trans (Reader.readFull_same _ _)⟩

end

theorem readRecordFrom_eof {rd : Reader} (hr : rd.rest = []) :
    ∃ rd', readRecordFrom rd = (.error .eof, rd') ∧ rd'.rest = [] ∧ Reader.Same rd rd' := by
  have h1 : (rd.readFull 4).1 = [] := by rw [Reader.readFull_bytes, hr]; rfl
  refine ⟨(rd.readFull 4).2, ?_, by rw [Reader.readFull_rest, hr]; rfl, Reader.readFull_same rd 4⟩
  simp [readRecordFrom, h1]

theorem length_encodeRecord (r : Record) : (encodeRecord r).length = 4 + (encodeBody r).length + 4 := by
  simp only [encodeRecord, length_append, length_bigEndian]

/-- What a file that goes on like this starts with. -/
def firstFrame (b : Bytes) : Except FrameError (Record × Nat) := (readRecordFrom (Reader.new ⟨b, 0, false, false⟩)).1

theorem readRecordFrom_first (rd : Reader) : ∃ rd', readRecordFrom rd = (firstFrame rd.rest, rd') ∧ Reader.Same rd rd' := by
  have h₁ := Reader.readFull_same rd 4
  have h₂ := h₁.trans (Reader.readFull_same (rd.readFull 4).2 (ofBigEndian (rd.rest.take 4)))
  have h₃ := h₂.trans (Reader.readFull_same _ 4)
  simp only [firstFrame, readRecordFrom, Reader.readFull_bytes, Reader.readFull_rest, Reader.new_rest, drop_zero]
  split
  · exact ⟨_, rfl, h₁⟩
  split
  · exact ⟨_, rfl, h₁⟩
  split
  · exact ⟨_, rfl, h₂⟩
  split
  · exact ⟨_, rfl, h₃⟩
  split
  · exact ⟨_, rfl, h₃⟩
  split
  · exact ⟨_, rfl, h₃⟩
  · exact ⟨_, rfl, h₃⟩

theorem error_of_bind {ε α β : Type} {x : Except ε α} {f : α → Except ε β} {e : ε} (h : x >>= f = .error e) :
    x = .error e ∨ ∃ a, f a = .error e := by
  cases x with
  | error e' =>
    cases h
    exact .inl rfl
  | ok a => exact .inr ⟨a, h⟩

theorem readBytes_ne_eof (b : Bytes) : readBytes b ≠ .error .eof := by
  intro h
  unfold readBytes at h
  split at h
  · cases h
  dsimp only at h
  split at h
  · cases h
  split at h <;> cases h

theorem readHeaders_ne_eof (count : Nat) (b : Bytes) : readHeaders count b ≠ .error .eof := by
  intro h
  induction count generalizing b with
  | zero => cases h
  | succ count ih =>
    rw [readHeaders] at h
    rcases error_of_bind h with h | ⟨⟨k, n⟩, h⟩
    · exact readBytes_ne_eof _ h
    rcases error_of_bind h with h | ⟨⟨v, m⟩, h⟩
    · exact readBytes_ne_eof _ h
    rcases error_of_bind h with h | ⟨rest, h⟩
    · exact ih _ h
    · cases h

theorem decodeBody_ne_eof (body : Bytes) : decodeBody body ≠ .error .eof := by
  intro h
  unfold decodeBody at h
  split at h
  · cases h
  rcases error_of_bind h with h | ⟨⟨key, n⟩, h⟩
  · exact readBytes_ne_eof _ h
  rcases error_of_bind h with h | ⟨⟨value, m⟩, h⟩
  · exact readBytes_ne_eof _ h
  dsimp only at h
  split at h
  · cases h
  rcases error_of_bind h with h | ⟨headers, h⟩
  · exact readHeaders_ne_eof _ _ h
  · cases h

/-- The reader reports the end of the file only where no byte is left. -/
theorem eq_nil_of_firstFrame {tail : Bytes} (h : firstFrame tail = .error .eof) : tail = [] := by
  simp only [firstFrame, readRecordFrom, Reader.readFull_bytes, Reader.readFull_rest, Reader.new_rest, drop_zero] at h
  split at h
  · rename_i hlen
    rw [length_take] at hlen
    exact length_eq_zero_iff.mp (by omega)
  split at h
  · cases h
  split at h
  · cases h
  split at h
  · cases h
  split at h
  · cases h
  split at h
  · rename_i hbody
    cases h
    exact absurd hbody (decodeBody_ne_eof _)
  · cases h

/-- No whole frame, or one with a wrong checksum or with fields that are cut short. -/
def Torn (tail : Bytes) : Prop := firstFrame tail = .error .unexpectedEOF ∨ firstFrame tail = .error .tornFrame

/-- A frame cut short anywhere is torn. -/
theorem torn_take (h : Fits r) {k : Nat} (hpos : 0 < k) (hk : k < (encodeRecord r).length) :
    Torn ((encodeRecord r).take k) := by
  have hlen := length_encodeRecord r
  have h1 : (((encodeRecord r).take k).take 4).length = min 4 k := by
    rw [length_take, length_take]
    omega
  left
  simp only [firstFrame, readRecordFrom, Reader.readFull_bytes, Reader.readFull_rest, Reader.new_rest, drop_zero]
  by_cases hk4 : k < 4
  · rw [if_neg (by omega), if_pos (by omega)]
  have hn : ofBigEndian (((encodeRecord r).take k).take 4) = (encodeBody r).length := by
    rw [take_take, Nat.min_eq_left (by omega), encodeRecord, append_assoc, take_left' (length_bigEndian 4 _)]
    exact ofBigEndian_bigEndian_of_lt (by simpa using h.body)
  simp only [length_take, length_drop]
  rw [if_neg (by omega), if_neg (by omega)]
  by_cases hbody : k - 4 < (encodeBody r).length
  · rw [if_pos (by omega)]
  · rw [if_neg (by omega), if_pos (by omega)]

theorem encodeRecord_norm (r : Record) : encodeRecord r.norm = encodeRecord r := by
  have hheader : ∀ h, encodeHeader h.norm = encodeHeader h := fun h => by simp [encodeHeader, Header.norm]
  have hbody : encodeBody r.norm = encodeBody r := by
    simp [encodeBody, Record.norm, flatMap_map, hheader]
  simp only [encodeRecord, hbody]

theorem Fits.norm (h : Fits r) : Fits r.norm := by
  refine ⟨h.offset, ?_⟩
  have hlen := congrArg length (encodeRecord_norm r)
  rw [length_encodeRecord, length_encodeRecord] at hlen
  have := h.body
  omega

end Holocron.Log

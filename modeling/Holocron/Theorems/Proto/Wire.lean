import Holocron.Proto.Wire

/-! A decoder takes exactly its own encoding off the front, as long as lengths fit 32 bits. -/

namespace Holocron.Wire
open Lib List

variable {t x s b : Bytes} {n : Nat} {r : Record}

theorem Decoder.of_bind {α β : Type} {d : Decoder α} {f : α → Decoder β} {y : β} (h : (d >>= f) b = .ok (y, t)) :
    ∃ x b', d b = .ok (x, b') ∧ f x b' = .ok (y, t) := by
  simp only [bind, StateT.bind] at h
  cases hd : d b with
  | error e =>
    rw [hd] at h
    cases h
  | ok p =>
    rw [hd] at h
    exact ⟨p.1, p.2, rfl, h⟩

theorem Decoder.of_pure {α : Type} {x y : α} (h : (pure x : Decoder α) b = .ok (y, t)) : y = x := by
  cases h
  rfl

theorem block_append (e : WireError) (h : b.length = n) (t : Bytes) :
    block n e (b ++ t) = .ok (b, t) := by
  have hle : ¬ (b ++ t).length < n := by
    rw [length_append]
    omega
  simp only [block, if_neg hle, take_left' h, drop_left' h]

@[simp] theorem length_encodeInt32 (x : Int32) : (encodeInt32 x).length = 4 := length_bigEndian ..
@[simp] theorem length_encodeInt64 (x : Int64) : (encodeInt64 x).length = 8 := length_bigEndian ..
@[simp] theorem length_encodeOffset (x : Int) : (encodeOffset x).length = 8 := length_bigEndian ..
@[simp] theorem length_encodeString (s : Bytes) : (encodeString s).length = 4 + s.length := by simp [encodeString]

@[simp] theorem int32_encode (x : Int32) : int32 (encodeInt32 x) = x := by
  rw [int32, encodeInt32, ofBigEndian_bigEndian_of_lt x.toUInt32.toNat_lt, UInt32.ofNat_toNat]
  exact x.toInt32_toUInt32

@[simp] theorem int64_encode (x : Int64) : int64 (encodeInt64 x) = x := by
  rw [int64, encodeInt64, ofBigEndian_bigEndian_of_lt x.toUInt64.toNat_lt, UInt64.ofNat_toNat]
  exact x.toInt64_toUInt64

theorem offset_encode {x : Int} (h : Signed 8 x) : offsetOf (encodeOffset x) = x := toSigned_ofBigEndian h

section Fields

variable {a b : Bytes} {i j : Nat}

@[simp] theorem slice_left (h : a.length = j) : slice (a ++ b) 0 j = a := by
  rw [slice, drop_zero, Nat.sub_zero, take_left' h]

@[simp] theorem slice_right (h : a.length ≤ i) : slice (a ++ b) i j = slice b (i - a.length) (j - a.length) := by
  rw [slice, drop_append, drop_eq_nil_of_le h]
  congr 1
  omega

theorem slice_cons {x : UInt8} (h : 0 < i) : slice (x :: b) i j = slice b (i - 1) (j - 1) := slice_right (a := [x]) h

@[simp] theorem slice_all (h : a.length = j) : slice a 0 j = a := by
  rw [slice, drop_zero, Nat.sub_zero, ← h, take_length]

end Fields

/-- A string is read back or, in a message too long for the length check, refused. -/
theorem decodeString_encode (h : s.length < 2 ^ 32) (t : Bytes) :
    decodeString (encodeString s ++ t) = .ok (s, t) ∨ decodeString (encodeString s ++ t) = .error .unexpectedEOF := by
  have hlen : ofBigEndian ((encodeString s ++ t).take 4) = s.length := by
    rw [encodeString, append_assoc, take_left' (length_bigEndian 4 _), ofBigEndian_bigEndian_of_lt h]
  have hshort : ¬ (encodeString s ++ t).length < 4 := by
    rw [length_append, length_encodeString]
    omega
  rw [decodeString, if_neg hshort]
  simp only [hlen]
  split
  · exact Or.inr rfl
  · refine Or.inl ?_
    rw [← drop_drop, encodeString, append_assoc, drop_left' (length_bigEndian 4 _), take_left' rfl,
      drop_left' rfl]

theorem decodeString_append (h : (encodeString s ++ t).length < 2 ^ 32) : decodeString (encodeString s ++ t) = .ok (s, t) := by
  rw [length_append, length_encodeString] at h
  rcases decodeString_encode (s := s) (by omega) t with hok | herr
  · exact hok
  · have hlen : ofBigEndian ((encodeString s ++ t).take 4) = s.length := by
      rw [encodeString, append_assoc, take_left' (length_bigEndian 4 _), ofBigEndian_bigEndian_of_lt (by omega)]
    rw [decodeString, if_neg (by rw [length_append, length_encodeString]; omega)] at herr
    simp only [length_append, length_encodeString] at herr
    rw [if_neg (by rw [Nat.mod_eq_of_lt] <;> omega)] at herr
    cases herr

theorem decodeBytes_append {b : Slice} (h : (encodeBytes b ++ t).length < 2 ^ 32) :
    decodeBytes (encodeBytes b ++ t) = .ok (Slice.norm b, t) := by
  have hs : decodeString (encodeBytes b ++ t) = .ok (Slice.bytes b, t) := decodeString_append h
  have hnorm : Slice.norm (some b.bytes) = b.norm := by rcases b with _ | _ | ⟨x, xs⟩ <;> rfl
  simp only [decodeBytes, bind, StateT.bind, hs, Except.bind, hnorm]
  rfl

def Takes {α : Type} (d : Decoder α) (e : Bytes) (v : α) : Prop := ∀ t, (e ++ t).length < 2 ^ 32 → d (e ++ t) = .ok (v, t)

section Takes

variable {α β : Type} {d : Decoder α} {e : Bytes} {v : α}

theorem Takes.bind {g : α → Decoder β} {e' : Bytes} {w : β} (hd : Takes d e v) (hg : Takes (g v) e' w) :
    Takes (d >>= g) (e ++ e') w := by
  intro t ht
  rw [append_assoc] at ht ⊢
  have hrest : (e' ++ t).length < 2 ^ 32 := by
    rw [length_append] at ht
    omega
  simp only [Bind.bind, StateT.bind, hd _ ht]
  exact hg t hrest

theorem Takes.map {f : α → β} (hd : Takes d e v) : Takes (d >>= fun x => Pure.pure (f x)) e (f v) := by
  have hpure : Takes (pure (f v)) [] (f v) := fun _ _ => rfl
  have h := bind (g := fun x => pure (f x)) hd hpure
  rwa [append_nil] at h

theorem Takes.whole (h : Takes d e v) (hlen : e.length < 2 ^ 32) : d e = .ok (v, []) := by
  have h := h [] (by rwa [append_nil])
  rwa [append_nil] at h

theorem Takes.of_length (h : e.length < 2 ^ 32 → Takes d e v) : Takes d e v := by
  intro t ht
  have hlen := ht
  rw [length_append] at hlen
  exact h (by omega) t ht

theorem Takes.string (s : Bytes) : Takes decodeString (encodeString s) s := fun _ => decodeString_append

theorem Takes.bytes (s : Slice) : Takes decodeBytes (encodeBytes s) s.norm := fun _ => decodeBytes_append

theorem Takes.block (err : WireError) (hx : x.length = n) : Takes (block n err) x x := fun t _ => block_append err hx t

theorem Takes.fields {err : WireError} {f : Bytes → α} (hx : x.length = n) (hv : f x = v) :
    Takes (Wire.block n err >>= fun b => Pure.pure (f b)) x v := hv ▸ (Takes.block err hx).map

end Takes

theorem decodeHeaders_takes (hs : List Header) : Takes (decodeHeaders hs.length) (hs.flatMap encodeHeader)
    (hs.map Header.norm) := by
  induction hs with
  | nil => exact fun _ _ => rfl
  | cons x hs ih =>
    rw [flatMap_cons, encodeHeader, append_assoc]
    exact .bind (.string x.key) (.bind (.bytes x.value) ih.map)

theorem length_headers_le (hs : List Header) : hs.length ≤ (hs.flatMap encodeHeader).length := by
  induction hs with
  | nil => exact Nat.le_refl 0
  | cons x hs ih =>
    rw [flatMap_cons, length_append, encodeHeader, length_append, length_encodeString, length_cons]
    omega

theorem decodeRecord_takes (r : Record) :
    Takes decodeRecord (encodeRecord r) { r.norm with offset := offsetOf (encodeOffset r.offset) } := by
  refine .of_length fun hlen => ?_
  have hcount : ofBigEndian (bigEndian 4 r.headers.length) = r.headers.length := by
    refine ofBigEndian_bigEndian_of_lt ?_
    have hle := length_headers_le r.headers
    simp only [encodeRecord, length_append] at hlen
    omega
  rw [encodeRecord, append_assoc, append_assoc, append_assoc]
  refine .bind (.block _ (by simp)) (.bind (.bytes r.key) (.bind (.bytes r.value) (.bind (.block _ (length_bigEndian 4 _)) ?_)))
  rw [hcount, slice_left (length_encodeOffset _), slice_right (by simp), length_encodeOffset,
    slice_all (length_encodeInt64 _), int64_encode]
  exact (decodeHeaders_takes r.headers).map

theorem decodeRecord_append (h : (encodeRecord r ++ t).length < 2 ^ 32) :
    decodeRecord (encodeRecord r ++ t) = .ok ({ r.norm with offset := offsetOf (encodeOffset r.offset) }, t) :=
      decodeRecord_takes r t h

/-- Whatever the lengths do to the rest, the timestamp is read from its own place. -/
theorem decodeRecord_timestamp {d : Record} {t' : Bytes} (h : decodeRecord (encodeRecord r ++ t) = .ok (d, t')) :
    d.timestamp = r.timestamp := by
  simp only [encodeRecord, append_assoc] at h
  have hfixed := block_append .unexpectedEOF (b := encodeOffset r.offset ++ encodeInt64 r.timestamp) (n := 16) (by simp)
    (encodeBytes r.key ++ (encodeBytes r.value ++ (bigEndian 4 r.headers.length ++ (r.headers.flatMap encodeHeader ++ t))))
  obtain ⟨b, rest, hb, h⟩ := Decoder.of_bind h
  obtain ⟨rfl, -⟩ := Prod.mk.inj (Except.ok.inj (hfixed.symm.trans hb))
  obtain ⟨_, _, -, h⟩ := Decoder.of_bind h
  obtain ⟨_, _, -, h⟩ := Decoder.of_bind h
  obtain ⟨_, _, -, h⟩ := Decoder.of_bind h
  obtain ⟨_, _, -, h⟩ := Decoder.of_bind h
  rw [Decoder.of_pure h]
  dsimp only
  rw [slice_right (by simp), length_encodeOffset, slice_all (length_encodeInt64 _), int64_encode]

/-! ### What was decoded is what stands in front -/

section
variable {b : Bytes}

theorem encodeOffset_offsetOf (h : b.length = 8) : encodeOffset (offsetOf b) = b := by
  have hlt := ofBigEndian_lt b
  rw [h] at hlt
  rw [encodeOffset, offsetOf, toUnsigned_toSigned hlt, ← h, bigEndian_ofBigEndian]

theorem encodeInt64_int64 (h : b.length = 8) : encodeInt64 (int64 b) = b := by
  have hlt := ofBigEndian_lt b
  rw [h] at hlt
  rw [encodeInt64, int64, UInt64.toUInt64_toInt64, UInt64.toNat_ofNat_of_lt' hlt, ← h, bigEndian_ofBigEndian]

theorem block_splits {e : WireError} (h : block n e b = .ok (x, t)) : b = x ++ t ∧ x.length = n := by
  unfold block at h
  split at h
  · cases h
  · cases h
    exact ⟨(take_append_drop n b).symm, by rw [length_take]; omega⟩

theorem decodeString_splits (h : decodeString b = .ok (s, t)) : b = encodeString s ++ t := by
  unfold decodeString at h
  split at h
  · cases h
  · simp only at h
    split at h
    · cases h
    · cases h
      have hfour : (b.take 4).length = 4 := by
        rw [length_take]
        omega
      have hlen : ((b.drop 4).take (ofBigEndian (b.take 4))).length = ofBigEndian (b.take 4) := by
        rw [length_take, length_drop]
        omega
      have hcount := bigEndian_ofBigEndian (b.take 4)
      rw [hfour] at hcount
      rw [encodeString, hlen, hcount, append_assoc, ← drop_drop, take_append_drop, take_append_drop]

theorem decodeBytes_splits {s : Slice} (h : decodeBytes b = .ok (s, t)) : s.norm = s ∧ b = encodeBytes s ++ t := by
  obtain ⟨s', t', hs, h⟩ := Decoder.of_bind h
  cases h
  refine ⟨Slice.norm_norm _, ?_⟩
  rw [encodeBytes, Slice.bytes_norm]
  exact decodeString_splits hs

theorem decodeHeaders_splits {count : Nat} {hs : List Header} (h : decodeHeaders count b = .ok (hs, t)) :
    hs.map Header.norm = hs ∧ hs.length = count ∧ b = hs.flatMap encodeHeader ++ t := by
  induction count generalizing b hs with
  | zero =>
    cases h
    exact ⟨rfl, rfl, rfl⟩
  | succ count ih =>
    obtain ⟨hk, b₁, hkey, h⟩ := Decoder.of_bind h
    obtain ⟨hv, b₂, hvalue, h⟩ := Decoder.of_bind h
    obtain ⟨rest, b₃, hrest, h⟩ := Decoder.of_bind h
    cases h
    obtain ⟨hnorm, rfl⟩ := decodeBytes_splits hvalue
    obtain ⟨hnorm', hlen, rfl⟩ := ih hrest
    rw [decodeString_splits hkey]
    refine ⟨by simp [Header.norm, hnorm, hnorm'], by rw [length_cons, hlen], ?_⟩
    simp [encodeHeader]

theorem decodeRecord_splits (h : decodeRecord b = .ok (r, t)) : r.norm = r ∧ b = encodeRecord r ++ t := by
  obtain ⟨fixed, b₁, hfixed, h⟩ := Decoder.of_bind h
  obtain ⟨key, b₂, hkey, h⟩ := Decoder.of_bind h
  obtain ⟨value, b₃, hvalue, h⟩ := Decoder.of_bind h
  obtain ⟨c, b₄, hcount, h⟩ := Decoder.of_bind h
  obtain ⟨headers, b₅, hheaders, h⟩ := Decoder.of_bind h
  cases h
  obtain ⟨rfl, hsixteen⟩ := block_splits hfixed
  obtain ⟨hk, rfl⟩ := decodeBytes_splits hkey
  obtain ⟨hv, rfl⟩ := decodeBytes_splits hvalue
  obtain ⟨rfl, hfour⟩ := block_splits hcount
  obtain ⟨hh, hlen, rfl⟩ := decodeHeaders_splits hheaders
  have hbe := bigEndian_ofBigEndian c
  rw [hfour] at hbe
  have hoffset : encodeOffset (offsetOf (slice fixed 0 8)) = fixed.take 8 := encodeOffset_offsetOf (by simp [slice, hsixteen])
  have htime : encodeInt64 (int64 (slice fixed 8 16)) = fixed.drop 8 := by
    rw [encodeInt64_int64 (by simp [slice, hsixteen]), slice, take_of_length_le (by simp [hsixteen])]
  refine ⟨by simp only [Record.norm, hk, hv, hh], ?_⟩
  simp only [encodeRecord, hoffset, htime, hlen, hbe, append_assoc]
  rw [← append_assoc (fixed.take 8), take_append_drop]

end

/-- A record is the only one its bytes decode to, and they are the only ones that decode to it. -/
theorem decodeRecord_canonical {b t : Bytes} {r : Record} (h : decodeRecord b = .ok (r, t)) :
    encodeRecord r = b.take (b.length - t.length) ∧ ∀ b', t = [] → decodeRecord b' = .ok (r, []) → b' = b := by
  obtain ⟨-, rfl⟩ := decodeRecord_splits h
  refine ⟨?_, ?_⟩
  · rw [length_append, Nat.add_sub_cancel, take_left' rfl]
  · rintro b' rfl h'
    exact (decodeRecord_splits h').2

theorem decodeRecord_canonical_bytes : encodeRecord ⟨1, 2, some [3], none, [⟨[5], some [6]⟩]⟩ =
    [0, 0, 0, 0, 0, 0, 0, 1, 0, 0, 0, 0, 0, 0, 0, 2, 0, 0, 0, 1, 3, 0, 0, 0, 0,
      0, 0, 0, 1, 0, 0, 0, 1, 5, 0, 0, 0, 1, 6] := by
  have h : decodeRecord ([0, 0, 0, 0, 0, 0, 0, 1, 0, 0, 0, 0, 0, 0, 0, 2, 0, 0, 0, 1, 3, 0, 0, 0, 0,
      0, 0, 0, 1, 0, 0, 0, 1, 5, 0, 0, 0, 1, 6] ++ [4]) =
    .ok (⟨1, 2, some [3], none, [⟨[5], some [6]⟩]⟩, [4]) := by decide +kernel
  exact (decodeRecord_canonical h).1

end Holocron.Wire

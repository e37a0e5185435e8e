import Holocron.Lib.Utf8

/-! JSON texts as `encoding/json` reads them into values of any type. Numbers are kept as they are written. -/

namespace Lib
open List

inductive JsonValue where
  | null
  | bool (b : Bool)
  | number (text : Bytes)
  | string (s : Bytes)
  | array (elements : List JsonValue)
  | object (members : List (Bytes × JsonValue))

namespace JsonValue

def skipSpace (b : Bytes) : Bytes := b.dropWhile fun c => c = 32 || c = 9 || c = 10 || c = 13

def isDigit (c : UInt8) : Bool := 48 ≤ c && c ≤ 57

def skipDigits (b : Bytes) : Option Bytes := if b.takeWhile isDigit = [] then none else some (b.dropWhile isDigit)

def skipFraction : Bytes → Option Bytes
  | 46 :: rest => skipDigits rest
  | b => some b

def skipExponent : Bytes → Option Bytes
  | 101 :: rest | 69 :: rest =>
    match rest with
    | 43 :: rest | 45 :: rest => skipDigits rest
    | rest => skipDigits rest
  | b => some b

/-- What follows a number: digits without a leading zero, then perhaps a fraction and an exponent. -/
def skipNumber (b : Bytes) : Option Bytes := do
  let b := match b with
    | 45 :: rest => rest
    | b => b
  let b ← match b with
    | 48 :: rest => some rest
    | b => skipDigits b
  skipExponent (← skipFraction b)

def hexDigit (c : UInt8) : Option Nat :=
  if isDigit c then some (c.toNat - 48)
  else if 97 ≤ c ∧ c ≤ 102 then some (c.toNat - 87)
  else if 65 ≤ c ∧ c ≤ 70 then some (c.toNat - 55)
  else none

def hex4 : Bytes → Option (Nat × Bytes)
  | a :: b :: c :: d :: rest => do some (((← hexDigit a) * 16 + (← hexDigit b)) * 256 + (← hexDigit c) * 16 +
      (← hexDigit d), rest)
  | _ => none

def encodeRune (r : Nat) : Bytes :=
  if r < 0x80 then [UInt8.ofNat r]
  else if r < 0x800 then [UInt8.ofNat (0xC0 + r / 64), UInt8.ofNat (0x80 + r % 64)]
  else if r < 0x10000 then [UInt8.ofNat (0xE0 + r / 4096), UInt8.ofNat (0x80 + r / 64 % 64), UInt8.ofNat (0x80 + r % 64)]
  else [UInt8.ofNat (0xF0 + r / 262144), UInt8.ofNat (0x80 + r / 4096 % 64), UInt8.ofNat (0x80 + r / 64 % 64),
    UInt8.ofNat (0x80 + r % 64)]

def surrogate (r : Nat) : Bool := 0xD800 ≤ r && r < 0xE000

/-- The rune of an escape `\uXXXX`: two surrogates are one rune, a lone one is replaced. -/
def escapedRune (r : Nat) (rest : Bytes) : Bytes × Bytes :=
  if surrogate r then
    match rest with
    | 92 :: 117 :: more =>
      match hex4 more with
      | some (low, rest') =>
        if r < 0xDC00 ∧ 0xDC00 ≤ low ∧ low < 0xE000 then (encodeRune (0x10000 + (r - 0xD800) * 0x400 + (low - 0xDC00)), rest')
        else (replacementChar, rest)
      | none => (replacementChar, rest)
    | _ => (replacementChar, rest)
  else (encodeRune r, rest)

def escaped (c : UInt8) : Option UInt8 :=
  if c = 34 ∨ c = 92 ∨ c = 47 then some c
  else if c = 98 then some 8
  else if c = 102 then some 12
  else if c = 110 then some 10
  else if c = 114 then some 13
  else if c = 116 then some 9
  else none

/-- A string after its opening quote; `n` bounds its characters. -/
def quoted : Nat → Bytes → Option (Bytes × Bytes)
  | 0, _ => none
  | _ + 1, [] => none
  | n + 1, c :: rest =>
    if c = 34 then some ([], rest)
    else if c < 32 then none
    else if c ≠ 92 then (quoted n rest).map (Prod.map (c :: ·) id)
    else
      match rest with
      | 117 :: rest => do
        let (r, rest) ← hex4 rest
        let (rune, rest) := escapedRune r rest
        (quoted n rest).map (Prod.map (rune ++ ·) id)
      | c :: rest => do
        let c ← escaped c
        (quoted n rest).map (Prod.map (c :: ·) id)
      | [] => none

def text (b : Bytes) : Option (Bytes × Bytes) :=
  match skipSpace b with
  | 34 :: rest => quoted (rest.length + 1) rest
  | _ => none

def scalar (b : Bytes) : Option (JsonValue × Bytes) :=
  if utf8 "null" <+: b then some (.null, b.drop 4)
  else if utf8 "true" <+: b then some (.bool true, b.drop 4)
  else if utf8 "false" <+: b then some (.bool false, b.drop 5)
  else (skipNumber b).map fun rest => (.number (b.take (b.length - rest.length)), rest)

mutual

/-- A value; `n` bounds how deep it goes and how many elements it has. -/
def value : Nat → Bytes → Option (JsonValue × Bytes)
  | 0, _ => none
  | n + 1, b =>
    match skipSpace b with
    | 123 :: rest =>
      match skipSpace rest with
      | 125 :: rest => some (.object [], rest)
      | rest => (members n rest).map (Prod.map .object id)
    | 91 :: rest =>
      match skipSpace rest with
      | 93 :: rest => some (.array [], rest)
      | rest => (elements n rest).map (Prod.map .array id)
    | 34 :: rest => (quoted (rest.length + 1) rest).map (Prod.map .string id)
    | rest => scalar rest

def elements : Nat → Bytes → Option (List JsonValue × Bytes)
  | 0, _ => none
  | n + 1, b => do
    let (v, rest) ← value n b
    match skipSpace rest with
    | 44 :: rest => (elements n rest).map (Prod.map (v :: ·) id)
    | 93 :: rest => some ([v], rest)
    | _ => none

def members : Nat → Bytes → Option (List (Bytes × JsonValue) × Bytes)
  | 0, _ => none
  | n + 1, b => do
    let (key, rest) ← text b
    match skipSpace rest with
    | 58 :: rest =>
      let (v, rest) ← value n rest
      match skipSpace rest with
      | 44 :: rest => (members n rest).map (Prod.map ((key, v) :: ·) id)
      | 125 :: rest => some ([(key, v)], rest)
      | _ => none
    | _ => none

end

def parse (b : Bytes) : Option JsonValue :=
  (value (2 * b.length + 1) b).bind fun (v, rest) => if skipSpace rest = [] then some v else none

end JsonValue
end Lib

import Holocron.Log.Frame

/-! The wire codec (proto/wire.go). A decoder takes what it reads off the front of its bytes. -/

namespace Holocron.Wire
open Lib

inductive WireError where
  | unexpectedEOF
  | short (what : String)
  | unknownCodec (codec : UInt8)
  | lz4
  | crc
  | badHandshake
  | shortAssignment
  deriving DecidableEq, Repr

abbrev Decoder := StateT Bytes (Except WireError)

def encodeString (s : Bytes) : Bytes := bigEndian 4 s.length ++ s

def encodeBytes (b : Slice) : Bytes := encodeString (Slice.bytes b)

def encodeInt32 (x : Int32) : Bytes := bigEndian 4 x.toUInt32.toNat

def encodeInt64 (x : Int64) : Bytes := bigEndian 8 x.toUInt64.toNat

/-- Offsets are `int64` in the source and integers here. -/
def encodeOffset (x : Int) : Bytes := bigEndian 8 (toUnsigned 8 x)

def int32 (b : Bytes) : Int32 := (UInt32.ofNat (ofBigEndian b)).toInt32

def int64 (b : Bytes) : Int64 := (UInt64.ofNat (ofBigEndian b)).toInt64

def offsetOf (b : Bytes) : Int := toSigned 8 (ofBigEndian b)

def block (n : Nat) (e : WireError) : Decoder Bytes := fun b =>
  if b.length < n then .error e else .ok (b.take n, b.drop n)

def decodeString : Decoder Bytes := fun b =>
  if b.length < 4 then .error .unexpectedEOF
  else
    let n := ofBigEndian (b.take 4)
    if (b.length - 4) % 2 ^ 32 < n then .error .unexpectedEOF
    else .ok ((b.drop 4).take n, b.drop (4 + n))

def decodeBytes : Decoder Slice := do
  let s ← decodeString
  return Slice.norm (some s)

def slice (b : Bytes) (i j : Nat) : Bytes := (b.drop i).take (j - i)

def encodeHeader (h : Header) : Bytes := encodeString h.key ++ encodeBytes h.value

def encodeRecord (r : Record) : Bytes :=
  encodeOffset r.offset ++ encodeInt64 r.timestamp ++ encodeBytes r.key ++ encodeBytes r.value ++
    bigEndian 4 r.headers.length ++ r.headers.flatMap encodeHeader

def decodeHeaders : Nat → Decoder (List Header)
  | 0 => return []
  | count + 1 => do
    let hk ← decodeString
    let hv ← decodeBytes
    let rest ← decodeHeaders count
    return ⟨hk, hv⟩ :: rest

def decodeRecord : Decoder Record := do
  let b ← block 16 .unexpectedEOF
  let key ← decodeBytes
  let value ← decodeBytes
  let c ← block 4 .unexpectedEOF
  let headers ← decodeHeaders (ofBigEndian c)
  return ⟨offsetOf (slice b 0 8), int64 (slice b 8 16), key, value, headers⟩

structure ProduceRequest where
  topic : Bytes
  partition : Int32
  record : Record
  deriving DecidableEq, Repr

def ProduceRequest.encode (r : ProduceRequest) : Bytes :=
  encodeString r.topic ++ encodeInt32 r.partition ++ encodeRecord r.record

def decodeProduceRequest : Decoder ProduceRequest := do
  let topic ← decodeString
  let b ← block 4 (.short "ProduceRequest")
  let record ← decodeRecord
  return ⟨topic, int32 b, record⟩

end Holocron.Wire

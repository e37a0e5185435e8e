import Holocron.Lib.File
import Holocron.Proto.Record

/-! Record framing on disk (broker/internal/log/frame.go): a length prefix, the body, and the CRC32C
    of the body. -/

namespace Holocron.Log
open Lib

def crcShift (c : UInt32) : UInt32 := if c &&& 1 = 1 then (c >>> 1) ^^^ 0x82f63b78 else c >>> 1

def crcTable (i : UInt32) : UInt32 :=
  crcShift (crcShift (crcShift (crcShift (crcShift (crcShift (crcShift (crcShift i)))))))

def crcUpdate (c : UInt32) (b : UInt8) : UInt32 := crcTable ((c ^^^ b.toUInt32) &&& 0xff) ^^^ (c >>> 8)

def checksum (b : Bytes) : UInt32 := ~~~ (b.foldl crcUpdate (~~~ 0))

/-- Errors of the frame reader, told apart as `errors.Is` tells them: the decoder's "short key",
    "short value" and "short header" errors wrap `io.ErrUnexpectedEOF`, its other errors wrap nothing. -/
inductive FrameError where
  | eof
  | unexpectedEOF
  | tornFrame
  | malformed
  deriving DecidableEq, Repr

def appendBytes (b : Bytes) : Bytes := bigEndian 4 b.length ++ b

def encodeHeader (h : Header) : Bytes := appendBytes h.key ++ appendBytes (Slice.bytes h.value)

def encodeBody (r : Record) : Bytes :=
  bigEndian 8 (toUnsigned 8 r.offset) ++ bigEndian 8 r.timestamp.toUInt64.toNat ++
    appendBytes (Slice.bytes r.key) ++ appendBytes (Slice.bytes r.value) ++
    bigEndian 4 r.headers.length ++ r.headers.flatMap encodeHeader

def encodeRecord (r : Record) : Bytes :=
  bigEndian 4 (encodeBody r).length ++ encodeBody r ++ bigEndian 4 (checksum (encodeBody r)).toNat

def readBytes (b : Bytes) : Except FrameError (Slice × Nat) :=
  if b.length < 4 then .error .unexpectedEOF
  else
    let n := ofBigEndian (b.take 4)
    if (b.length - 4) % 2 ^ 32 < n then .error .unexpectedEOF
    else if n = 0 then .ok (none, 4)
    else .ok (some ((b.drop 4).take n), 4 + n)

def readHeaders : Nat → Bytes → Except FrameError (List Header)
  | 0, _ => .ok []
  | count + 1, b => do
    let (hk, n) ← readBytes b
    let (hv, m) ← readBytes (b.drop n)
    let rest ← readHeaders count ((b.drop n).drop m)
    .ok (⟨Slice.bytes hk, hv⟩ :: rest)

def decodeBody (body : Bytes) : Except FrameError Record :=
  if body.length < 16 then .error .malformed
  else do
    let offset := toSigned 8 (ofBigEndian (body.take 8))
    let ts := Int64.ofUInt64 (UInt64.ofNat (ofBigEndian ((body.drop 8).take 8)))
    let b := body.drop 16
    let (key, n) ← readBytes b
    let b := b.drop n
    let (value, n) ← readBytes b
    let b := b.drop n
    if b.length < 4 then .error .malformed
    else
      let hdrCount := ofBigEndian (b.take 4)
      let headers ← readHeaders hdrCount (b.drop 4)
      .ok ⟨offset, ts, key, value, headers⟩

def readRecordFrom (r : Reader) : Except FrameError (Record × Nat) × Reader :=
  let (lenBuf, r) := r.readFull 4
  if lenBuf.length = 0 then (.error .eof, r)
  else if lenBuf.length < 4 then (.error .unexpectedEOF, r)
  else
    let bodyLen := ofBigEndian lenBuf
    let (body, r) := r.readFull bodyLen
    if body.length < bodyLen then (.error .unexpectedEOF, r)
    else
      let (crcBuf, r) := r.readFull 4
      if crcBuf.length < 4 then (.error .unexpectedEOF, r)
      else if (checksum body).toNat ≠ ofBigEndian crcBuf then (.error .tornFrame, r)
      else
        match decodeBody body with
        | .error e => (.error e, r)
        | .ok rec => (.ok (rec, 4 + bodyLen + 4), r)

end Holocron.Log

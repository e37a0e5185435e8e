import Holocron.Proto.Wire

/-! Frames, responses and the batch and fetch messages (proto/wire.go, proto/lz4.go). LZ4 is two functions on blocks. -/

namespace Holocron.Wire
open Lib

def maxFrameBytes : Nat := 64 * 1024 * 1024

abbrev OpCode := UInt8
abbrev Status := UInt8

def opProduce : OpCode := 0x01
def opFetch : OpCode := 0x02

def statusOK : Status := 0x00

inductive ReadError where
  | eof
  | unexpectedEOF
  | emptyFrame
  | tooLarge (n : Nat)
  | opcode (want got : OpCode)
  | missingStatus
  | protocol (status : Status) (message : Bytes)
  deriving DecidableEq, Repr

def readFrame (b : Bytes) : Except ReadError ((OpCode × Bytes) × Bytes) :=
  if b.length = 0 then .error .eof
  else if b.length < 4 then .error .unexpectedEOF
  else
    let n := ofBigEndian (b.take 4)
    if n = 0 then .error .emptyFrame
    else if maxFrameBytes < n then .error (.tooLarge n)
    else
      match (b.drop 4).take n with
      | [] => .error .eof
      | op :: body => if body.length + 1 < n then .error .unexpectedEOF else .ok ((op, body), b.drop (4 + n))

/-- A connection reads frames until an error ends it. -/
def readFrames : Nat → Bytes → List (OpCode × Bytes) × Option ReadError
  | 0, _ => ([], none)
  | fuel + 1, b =>
    match readFrame b with
    | .error e => ([], some e)
    | .ok (frame, rest) => (readFrames fuel rest).map (frame :: ·) id

/-- The length is written modulo 2^32, and checked by the reader only. -/
def writeFrame (op : OpCode) (payload : Bytes) : Bytes := bigEndian 4 (1 + payload.length) ++ op :: payload

def writeResponse (op : OpCode) (status : Status) (body : Bytes) : Bytes := writeFrame op (status :: body)

def writeErrorResponse (op : OpCode) (status : Status) (msg : Bytes) : Bytes := writeResponse op status (encodeString msg)

def readResponse (op : OpCode) (b : Bytes) : Except ReadError (Bytes × Bytes) :=
  match readFrame b with
  | .error e => .error e
  | .ok ((got, body), rest) =>
    if got ≠ op then .error (.opcode op got)
    else
      match body with
      | [] => .error .missingStatus
      | status :: body =>
        if status = statusOK then .ok (body, rest)
        else
          match decodeString body with
          | .error _ => .error (.protocol status [])
          | .ok (msg, _) => .error (.protocol status msg)

/-- `CompressBlock` into a buffer of the worst size, nothing where it fails; `UncompressBlock` into a buffer of
    the given size. -/
structure Lz4 where
  compressBlock : Bytes → Option Bytes
  uncompressBlock : Bytes → Nat → Option Bytes

namespace Lz4

def lz4Compress (lz : Lz4) (src : Bytes) : Option Bytes :=
  if src.length = 0 then some []
  else
    match lz.compressBlock src with
    | none => none
    | some dst => if dst.length = 0 then none else some dst

def lz4Decompress (lz : Lz4) (src : Bytes) (uncompressedLen : Nat) : Option Bytes :=
  if uncompressedLen = 0 then some []
  else
    match lz.uncompressBlock src uncompressedLen with
    | none => none
    | some dst => if dst.length ≠ uncompressedLen then none else some dst

end Lz4

/-- What follows is an uncompressed length and a block; the decoding goes on in what the block inflates to. -/
def inflate (lz : Lz4) (short : WireError) : Decoder Unit := fun b =>
  if b.length < 4 then .error short
  else
    match lz.lz4Decompress (b.drop 4) (ofBigEndian (b.take 4)) with
    | none => .error .lz4
    | some decoded => .ok ((), decoded)

abbrev Codec := UInt8

def codecNone : Codec := 0
def codecLZ4 : Codec := 1

structure ProduceBatchRequest where
  topic : Bytes
  partition : Int32
  codec : Codec
  records : List Record
  level : UInt8
  deriving DecidableEq, Repr

def decodeRecords : Nat → Decoder (List Record)
  | 0 => return []
  | count + 1 => do
    let rec_ ← decodeRecord
    let rest ← decodeRecords count
    return rec_ :: rest

def recordsBuf (lz : Lz4) (codec : Codec) : Decoder Unit :=
  if codec = codecLZ4 then inflate lz (.short "LZ4 length")
  else if codec = codecNone then return ()
  else throw (.unknownCodec codec)

def decodeProduceBatchRequest (lz : Lz4) : Decoder ProduceBatchRequest := do
  let topic ← decodeString
  let b ← block 5 (.short "ProduceBatchRequest")
  let codec := b.getD 4 0
  let c ← block 4 (.short "ProduceBatchRequest count")
  recordsBuf lz codec
  let records ← decodeRecords (ofBigEndian c)
  return ⟨topic, int32 (slice b 0 4), codec, records, 0⟩

structure FetchRequest where
  topic : Bytes
  partition : Int32
  fromOffset : Int64
  maxRecords : Int32
  maxWaitMs : Int32
  acceptCodec : Codec
  deriving DecidableEq, Repr

def decodeFetchRequest : Decoder FetchRequest := do
  let topic ← decodeString
  let b ← block 21 (.short "FetchRequest")
  return ⟨topic, int32 (slice b 0 4), int64 (slice b 4 12), int32 (slice b 12 16), int32 (slice b 16 20), b.getD 20 0⟩

structure FetchResponse where
  records : List Record
  codec : Codec
  deriving DecidableEq, Repr

def encodeFramedRecord (r : Record) : Bytes :=
  bigEndian 4 (encodeRecord r).length ++ encodeRecord r ++ bigEndian 4 (Log.checksum (encodeRecord r)).toNat

def decodeFramedRecord : Decoder Record := fun b =>
  if b.length < 4 then .error .unexpectedEOF
  else
    let bodyLen := ofBigEndian (b.take 4)
    let total := 4 + bodyLen + 4
    if b.length < total then .error .unexpectedEOF
    else
      let body := (b.drop 4).take bodyLen
      let gotCRC := ofBigEndian ((b.drop (4 + bodyLen)).take 4)
      if (Log.checksum body).toNat ≠ gotCRC then .error .crc
      else
        match decodeRecord body with
        | .error e => .error e
        | .ok (rec_, _) => .ok (rec_, b.drop total)

def decodeFramedRecords : Nat → Decoder (List Record)
  | 0 => return []
  | count + 1 => do
    let rec_ ← decodeFramedRecord
    let rest ← decodeFramedRecords count
    return rec_ :: rest

def fetchPayload (records : List Record) : Bytes := bigEndian 4 records.length ++ records.flatMap encodeFramedRecord

def FetchResponse.encode (lz : Lz4) (r : FetchResponse) : Bytes :=
  let payload := fetchPayload r.records
  if r.codec ≠ codecLZ4 then codecNone :: payload
  else
    match lz.lz4Compress payload with
    | none => codecNone :: payload
    | some compressed => codecLZ4 :: (bigEndian 4 payload.length ++ compressed)

def payloadBuf (lz : Lz4) (codec : Codec) : Decoder Unit :=
  if codec = codecLZ4 then inflate lz (.short "FetchResponse lz4 header") else return ()

def decodeFetchResponse (lz : Lz4) : Decoder FetchResponse := do
  let b ← block 1 (.short "FetchResponse")
  let codec := b.getD 0 0
  payloadBuf lz codec
  let c ← block 4 (.short "FetchResponse count")
  let records ← decodeFramedRecords (ofBigEndian c)
  return ⟨records, codec⟩

end Holocron.Wire

import Holocron.Lib.Bytes

/-! The record and its addresses (proto/record.go, proto/topic.go). A Go byte slice is an `Option Bytes`: `none` is the
    nil slice. -/

namespace Holocron
open Lib

/-- A Go byte slice; `none` is nil. -/
abbrev Slice := Option Bytes

def Slice.bytes (s : Slice) : Bytes := s.getD []

structure Header where
  key : Bytes
  value : Slice
  deriving DecidableEq, Repr

structure Record where
  offset : Int
  timestamp : Int64
  key : Slice
  value : Slice
  headers : List Header
  deriving DecidableEq, Repr

/-- The most records a slice can be made for, or `make` panics: a record takes 88 bytes, an allocation at most
    2^48 (linux/amd64). -/
def maxSlice : Nat := 2 ^ 48 / 88

structure PartitionRef where
  topic : Bytes
  index : Int32
  deriving DecidableEq, Repr

structure TopicConfig where
  name : Bytes
  partitionCount : Int32
  retentionMs : Int64
  segmentBytes : Int64
  deriving DecidableEq, Repr

def Slice.norm : Slice → Slice
  | some [] => none
  | s => s

def Header.norm (h : Header) : Header := { h with value := Slice.norm h.value }

/-- The record a decoder returns for `r`: empty byte strings normalised to nil. -/
def Record.norm (r : Record) : Record :=
  { r with key := Slice.norm r.key, value := Slice.norm r.value, headers := r.headers.map Header.norm }

@[simp] theorem Slice.bytes_norm (s : Slice) : Slice.bytes (Slice.norm s) = Slice.bytes s := by
  rcases s with _ | _ | ⟨b, bs⟩ <;> rfl

@[simp] theorem Slice.norm_norm (s : Slice) : Slice.norm (Slice.norm s) = Slice.norm s := by
  rcases s with _ | _ | ⟨b, bs⟩ <;> rfl

@[simp] theorem Record.norm_offset (r : Record) : r.norm.offset = r.offset := rfl
@[simp] theorem Record.norm_timestamp (r : Record) : r.norm.timestamp = r.timestamp := rfl
@[simp] theorem Record.norm_key (r : Record) : r.norm.key = Slice.norm r.key := rfl
@[simp] theorem Record.norm_value (r : Record) : r.norm.value = Slice.norm r.value := rfl

theorem Header.norm_norm (h : Header) : h.norm.norm = h.norm := by
  simp [Header.norm]

@[simp] theorem Record.norm_norm (r : Record) : r.norm.norm = r.norm := by
  simp [Record.norm, Header.norm_norm]

end Holocron

import Mathlib.Data.FinEnum
import Mathlib.Data.List.Dedup
import Holocron.Lib.Assoc
import Holocron.Lib.Run
import Holocron.Lib.Json
import Holocron.Groups.Assign
import Holocron.Groups.OffsetStore

/-! The schema registry (registry/registry.go): tables in memory, every change written to a topic that a new Service
    replays. `encoding/json` is a parameter. -/

namespace Holocron.Schemas
open Lib Groups

def headerRegistryOp : Bytes := utf8 "holocron.registry.op"

def headerRegistryVersion : Bytes := utf8 "holocron.registry.version"

def registryOpDeleteVersion : Bytes := utf8 "delete_version"

def registryOpConfig : Bytes := utf8 "config"

inductive Compatibility where
  | none
  | backward
  | forward
  | full
  | other (mode : Bytes)
  deriving DecidableEq, Repr

structure Schema where
  id : Int
  subject : Bytes
  version : Int
  schema : Bytes
  deriving DecidableEq, Repr

inductive RegistryError where
  | subjectNotFound (subject : Bytes)
  | versionNotFound (subject : Bytes) (version : Int)
  | schemaNotFound (id : Int)
  | unknownMode (mode : Compatibility)
  | produce
  | parseExisting
  | parseCandidate
  | backwardViolation (mode : Compatibility) (extra : List Bytes)
  | forwardViolation (mode : Compatibility) (extra : List Bytes)
  | missingVersionHeader
  | configDecode
  | replayDecode
  deriving DecidableEq, Repr

/-- `encoding/json`. A string comes back with its invalid bytes replaced, and so it makes no difference to the value of a
    document whether they were. -/
structure Json where
  marshalSchema : Schema → Bytes
  unmarshalSchema : Bytes → Option Bytes
  marshalConfig : Compatibility → Bytes
  unmarshalConfig : Bytes → Option Compatibility
  decode : Bytes → Option JsonValue
  schema_ne_nil (sc : Schema) : marshalSchema sc ≠ []
  unmarshal_schema (sc : Schema) : unmarshalSchema (marshalSchema sc) = some (toValidUTF8 sc.schema)
  unmarshal_config {mode : Compatibility} : (∀ text, mode ≠ .other text) → unmarshalConfig (marshalConfig mode) = some mode
  decode_valid (text : Bytes) : decode (toValidUTF8 text) = decode text

structure Service where
  byID : Int → Option Schema
  bySubject : Assoc Bytes (List Schema)
  compats : Bytes → Option Compatibility
  nextID : Int

/-- `strconv.Atoi` without its limit of 64 bits, which a version is within that was an `int` when it was written. -/
def atoi : Bytes → Option Int
  | 45 :: ds => (digits ds).map fun n => -(n : Int)
  | 43 :: ds => (digits ds).map fun n => (n : Int)
  | ds => (digits ds).map fun n => (n : Int)
where
  digits (ds : Bytes) : Option Nat :=
    if ds ≠ [] ∧ ∀ d ∈ ds, 48 ≤ d ∧ d ≤ 57 then some (ds.foldl (fun n d => n * 10 + (d.toNat - 48)) 0) else none

def headerValue (headers : List Header) (key : Bytes) : Option Bytes :=
  (headers.find? fun h => decide (h.key = key)).map fun h => Slice.bytes h.value

def headerInt (headers : List Header) (key : Bytes) : Option Int := (headerValue headers key).bind atoi

def appendByVersion : List Schema → Schema → List Schema
  | [], sc => [sc]
  | v :: rest, sc =>
    if v.version = sc.version then sc :: rest
    else if v.version > sc.version then sc :: v :: rest
    else v :: appendByVersion rest sc

/-- Members are matched with the field `required` whatever their case. -/
def isRequired (key : Bytes) : Bool := decide (key.map (fun c => if 65 ≤ c ∧ c ≤ 90 then c + 32 else c) = utf8 "required")

/-- `Unmarshal` of an array into the field: `null` empties it, and anything else is an error. -/
def unmarshalRequired : JsonValue → Option (List JsonValue)
  | .array elements => some elements
  | .null => some []
  | _ => none

/-- `Unmarshal` into a struct with the field alone; of several members for the field the last one counts. -/
def unmarshalDoc : JsonValue → Option (List JsonValue)
  | .object members => members.foldlM (fun required m => if isRequired m.1 then unmarshalRequired m.2 else some required) []
  | .null => some []
  | _ => none

def requiredFields (J : Json) (schemaText : Bytes) : Option (List Bytes) :=
  ((J.decode schemaText).bind unmarshalDoc).map fun required =>
    required.filterMap fun
      | .string s => some s
      | _ => none

namespace Service

def new : Service := ⟨fun _ => none, [], fun _ => none, 0⟩

def versions (s : Service) (subject : Bytes) : List Schema := (s.bySubject.get subject).getD []

def noteID (s : Service) (id : Int) : Service := if id ≥ s.nextID then { s with nextID := id + 1 } else s

def applyLocked (s : Service) (sc : Schema) : Service :=
  noteID { s with
    byID := Function.update s.byID sc.id (some sc)
    bySubject := s.bySubject.set sc.subject (appendByVersion (s.versions sc.subject) sc) } sc.id

def applyTombstoneLocked (s : Service) (subject : Bytes) : Service :=
  { s with
    byID := (s.versions subject).foldl (fun m sc => Function.update m sc.id none) s.byID
    bySubject := s.bySubject.delete subject }

def applyConfigLocked (s : Service) (subject : Bytes) (mode : Compatibility) : Service :=
  if mode = .other [] ∨ mode = .none then { s with compats := Function.update s.compats subject none }
  else { s with compats := Function.update s.compats subject (some mode) }

/-- Drop the first version of that number; other IDs bound to it stay. -/
def applyDeleteVersionLocked (s : Service) (subject : Bytes) (version : Int) : Service :=
  match (s.versions subject).find? fun sc => decide (sc.version = version) with
  | none => s
  | some sc =>
    let versions := (s.versions subject).eraseP fun sc => decide (sc.version = version)
    { s with
      byID := Function.update s.byID sc.id none
      bySubject := if versions = [] then s.bySubject.delete subject else s.bySubject.set subject versions }

def addVersion (s : Service) (subject text : Bytes) (id : Int) : Service :=
  let sc : Schema := ⟨id, subject, (s.versions subject).length + 1, text⟩
  noteID { s with byID := Function.update s.byID id (some sc), bySubject :=
    s.bySubject.set subject (s.versions subject ++ [sc]) } id

/-- A registration that is replayed: the text of the latest version again only binds one more ID to it. -/
def applyRegistration (s : Service) (subject text : Bytes) (id : Int) : Service :=
  match (s.versions subject).getLast? with
  | some latest =>
    if latest.schema = text then noteID { s with byID := Function.update s.byID id (some latest) } id
    else s.addVersion subject text id
  | none => s.addVersion subject text id

def applyPlain (J : Json) (s : Service) (r : Record) : Except RegistryError Service :=
  if Slice.bytes r.value = [] then .ok (s.applyTombstoneLocked (Slice.bytes r.key))
  else
    match J.unmarshalSchema (Slice.bytes r.value) with
    | none => .error .replayDecode
    | some text => .ok (s.applyRegistration (Slice.bytes r.key) text r.offset)

def applyRecord (J : Json) (s : Service) (r : Record) : Except RegistryError Service :=
  match headerValue r.headers headerRegistryOp with
  | some op =>
    if op = registryOpDeleteVersion then
      match headerInt r.headers headerRegistryVersion with
      | none => .error .missingVersionHeader
      | some v => .ok (s.applyDeleteVersionLocked (Slice.bytes r.key) v)
    else if op = registryOpConfig then
      match J.unmarshalConfig (Slice.bytes r.value) with
      | none => .error .configDecode
      | some mode => .ok (s.applyConfigLocked (Slice.bytes r.key) mode)
    else s.applyPlain J r
  | none => s.applyPlain J r

def replay (J : Json) (s : Service) (topic : List Record) : Except RegistryError Service := runAll (applyRecord J) s topic

/-- Poll until `target` records are seen, the high water of the topic at the start. `batches` is what the polls return;
    the next one waits for records that do not come. -/
def replayBounded (J : Json) (target : Int) : Int → Service → List (List Record) → Option (Except RegistryError Service)
  | seen, s, [] => if seen < target then none else some (.ok s)
  | seen, s, records :: rest =>
    if seen < target then
      match s.replay J records with
      | .error e => some (.error e)
      | .ok s' => replayBounded J target (seen + records.length) s' rest
    else some (.ok s)

def getByID (s : Service) (id : Int) : Except RegistryError Schema :=
  match s.byID id with
  | none => .error (.schemaNotFound id)
  | some sc => .ok sc

def getVersion (s : Service) (subject : Bytes) (version : Int) : Except RegistryError Schema :=
  if s.versions subject = [] then .error (.subjectNotFound subject)
  else
    match (s.versions subject).find? fun sc => decide (sc.version = version) with
    | none => .error (.versionNotFound subject version)
    | some sc => .ok sc

def getLatest (s : Service) (subject : Bytes) : Except RegistryError Schema :=
  match (s.versions subject).getLast? with
  | none => .error (.subjectNotFound subject)
  | some sc => .ok sc

def listSubjects (s : Service) : List Bytes := sortStrings s.bySubject.keys

def listVersions (s : Service) (subject : Bytes) : Except RegistryError (List Int) :=
  if s.versions subject = [] then .error (.subjectNotFound subject) else .ok ((s.versions subject).map Schema.version)

def getCompatibility (s : Service) (subject : Bytes) : Compatibility := (s.compats subject).getD .none

section
local instance : LawfulBEq Bytes := inferInstance

def setDiff (a b : List Bytes) : List Bytes := sortStrings (a.filter fun k => decide (k ∉ b)).dedup

end

def compatible (mode : Compatibility) (oldRequired newRequired : List Bytes) : Except RegistryError Bool :=
  let added := setDiff newRequired oldRequired
  let dropped := setDiff oldRequired newRequired
  match mode with
  | .backward => if added ≠ [] then .error (.backwardViolation mode added) else .ok true
  | .forward => if dropped ≠ [] then .error (.forwardViolation mode dropped) else .ok true
  | .full =>
    if added ≠ [] then .error (.backwardViolation mode added)
    else if dropped ≠ [] then .error (.forwardViolation mode dropped)
    else .ok true
  | _ => .ok true

def checkCompatibility (J : Json) (s : Service) (subject text : Bytes) (mode : Compatibility) : Except RegistryError Bool :=
  match mode with
  | .none | .other [] => .ok true
  | .other (_ :: _) => .error (.unknownMode mode)
  | _ =>
    match s.getLatest subject with
    | .error _ => .ok true
    | .ok latest =>
      match requiredFields J latest.schema, requiredFields J text with
      | none, _ => .error .parseExisting
      | some _, none => .error .parseCandidate
      | some oldRequired, some newRequired => compatible mode oldRequired newRequired

def enforce (J : Json) (s : Service) (subject text : Bytes) : Except RegistryError Unit :=
  let mode := s.getCompatibility subject
  if mode = .none ∨ mode = .other [] then .ok ()
  else
    match s.checkCompatibility J subject text mode with
    | .error e => .error e
    | .ok _ => .ok ()

end Service

def registration (J : Json) (subject text : Bytes) (version : Int) : Record :=
  ⟨0, 0, some subject, some (J.marshalSchema ⟨0, subject, version, text⟩), []⟩

def subjectTombstone (subject : Bytes) : Record := ⟨0, 0, some subject, none, []⟩

def configRecord (J : Json) (subject : Bytes) (mode : Compatibility) : Record :=
  ⟨0, 0, some subject, some (J.marshalConfig mode), [⟨headerRegistryOp, some registryOpConfig⟩]⟩

def deleteVersionRecord (subject : Bytes) (version : Int) : Record :=
  ⟨0, 0, some subject, some (utf8 "\x7b\x7d"),
    [⟨headerRegistryOp, some registryOpDeleteVersion⟩, ⟨headerRegistryVersion, some (decimal version)⟩]⟩

inductive Sent where
  | ok
  | failed (stored : Bool)
  deriving DecidableEq, Repr

def append (topic : List Record) (r : Record) : List Record := topic ++ [{ r with offset := topic.length }]

structure World where
  service : Service
  topic : List Record

inductive Op where
  | register (subject text : Bytes)
  | deleteSubject (subject : Bytes)
  | deleteVersion (subject : Bytes) (version : Int)
  | deleteByID (id : Int)
  | setCompatibility (subject : Bytes) (mode : Compatibility)
  deriving DecidableEq, Repr

namespace World

def produce (w : World) (r : Record) (sent : Sent) (apply : Int → Service) : Except RegistryError Int × World :=
  match sent with
  | .ok => (.ok w.topic.length, ⟨apply w.topic.length, append w.topic r⟩)
  | .failed true => (.error .produce, { w with topic := append w.topic r })
  | .failed false => (.error .produce, w)

def registerNext (J : Json) (w : World) (subject text : Bytes) (sent : Sent) : Except RegistryError Int × World :=
  let nextVersion : Int := (w.service.versions subject).length + 1
  match w.service.enforce J subject text with
  | .error e => (.error e, w)
  | .ok () => w.produce (registration J subject text nextVersion) sent fun id =>
    w.service.applyLocked ⟨id, subject, nextVersion, text⟩

def register (J : Json) (w : World) (subject text : Bytes) (sent : Sent) : Except RegistryError Int × World :=
  match (w.service.versions subject).getLast? with
  | some latest => if latest.schema = text then (.ok latest.id, w) else w.registerNext J subject text sent
  | none => w.registerNext J subject text sent

def deleteSubject (w : World) (subject : Bytes) (sent : Sent) : Except RegistryError Int × World :=
  match w.service.bySubject.get subject with
  | none => (.error (.subjectNotFound subject), w)
  | some _ => w.produce (subjectTombstone subject) sent fun _ => w.service.applyTombstoneLocked subject

def deleteVersion (w : World) (subject : Bytes) (version : Int) (sent : Sent) : Except RegistryError Int × World :=
  match w.service.bySubject.get subject with
  | none => (.error (.subjectNotFound subject), w)
  | some versions =>
    if versions.any fun sc => decide (sc.version = version) then
      w.produce (deleteVersionRecord subject version) sent fun _ => w.service.applyDeleteVersionLocked subject version
    else (.error (.versionNotFound subject version), w)

def deleteByID (w : World) (id : Int) (sent : Sent) : Except RegistryError Int × World :=
  match w.service.byID id with
  | none => (.error (.schemaNotFound id), w)
  | some sc => w.deleteVersion sc.subject sc.version sent

def setCompatibility (J : Json) (w : World) (subject : Bytes) (mode : Compatibility) (sent : Sent) :
    Except RegistryError Int × World :=
  match mode with
  | .other _ => (.error (.unknownMode mode), w)
  | _ => w.produce (configRecord J subject mode) sent fun _ => w.service.applyConfigLocked subject mode

def call (J : Json) (w : World) : Op × Sent → Except RegistryError Int × World
  | (.register subject text, sent) => w.register J subject text sent
  | (.deleteSubject subject, sent) => w.deleteSubject subject sent
  | (.deleteVersion subject version, sent) => w.deleteVersion subject version sent
  | (.deleteByID id, sent) => w.deleteByID id sent
  | (.setCompatibility subject mode, sent) => w.setCompatibility J subject mode sent

def step (J : Json) (w : World) (op : Op × Sent) : World := (w.call J op).2

end World
end Holocron.Schemas

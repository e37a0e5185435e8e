import Holocron.Lib.Bytes

/-! The HTTP source in cursor mode (connect/http/source.go) and the loop of the Worker that runs its task
    (connect/worker.go). -/

namespace Holocron.Connect.Http
open Lib

structure SourceConfig where
  url : Bytes
  topic : Bytes
  cursorParam : Bytes
  cursorHeader : Bytes
  initialCursor : Bytes
  deriving DecidableEq, Repr

structure Page where
  next : Bytes
  body : Bytes
  deriving DecidableEq, Repr

/-- The only key of a source offset is "cursor". -/
structure SourceRecord where
  topic : Bytes
  value : Bytes
  sourceOffset : Option Bytes
  deriving DecidableEq, Repr

def init (cfg : SourceConfig) (storedOffsets : List Bytes) : Bytes :=
  storedOffsets.foldl (fun cursor v => if v ≠ [] then v else cursor) cfg.initialCursor

def buildURL (cfg : SourceConfig) (cursor : Bytes) : Bytes :=
  if cfg.cursorParam = [] ∨ cursor = [] then cfg.url
  else
    let sep := if (63 : UInt8) ∈ cfg.url then utf8 "&" else utf8 "?"
    cfg.url ++ sep ++ cfg.cursorParam ++ utf8 "=" ++ cursor

def lines (body : Bytes) : List Bytes := (body.splitOn 10).filter fun line => decide (line ≠ [])

def poll (cfg : SourceConfig) (get : Bytes → Page) (cursor : Bytes) : List SourceRecord × Bytes :=
  let page := get (buildURL cfg cursor)
  let cursor := if cfg.cursorHeader ≠ [] ∧ page.next ≠ [] then page.next else cursor
  ((lines page.body).map fun line => ⟨cfg.topic, line, if cfg.cursorParam ≠ [] then some cursor else none⟩, cursor)

inductive Stage where
  | stopped
  | polling (cursor : Bytes)
  | sending (page cursor : Bytes) (records : List SourceRecord) (i : Nat)
  | saving (cursor : Bytes) (records : List SourceRecord) (failed : Bool)
  deriving DecidableEq, Repr

structure State where
  stored : List Bytes
  stage : Stage
  /-- The pages that the task has moved its cursor past since it was started; this and what follows is kept for the
      specification only. -/
  crossed : List Bytes
  passed : List Bytes
  sent : List (Bytes × Nat)
  deriving DecidableEq, Repr

inductive Action where
  | start
  /-- The context is done at the top of the loop; in the loop over the records a Send fails then. -/
  | stop
  | poll
  | pollFails
  | send (ok : Bool)
  | save (ok : Bool)
  | crash
  deriving DecidableEq, Repr

namespace State

def new : State := ⟨[], .stopped, [], [], []⟩

def afterPoll (cfg : SourceConfig) (get : Bytes → Page) (s : State) (page : Bytes) : State :=
  let polled := Http.poll cfg get page
  { s with
    stage := if polled.1 = [] then .polling polled.2 else .sending page polled.2 polled.1 0
    crossed := if polled.2 = page then s.crossed else s.crossed ++ [page] }

def afterSend (s : State) (page cursor : Bytes) (records : List SourceRecord) (i : Nat) (ok : Bool) : State :=
  if ok then
    { s with
      stage := if i + 1 < records.length then .sending page cursor records (i + 1) else .saving cursor records false
      sent := s.sent ++ [(page, i)] }
  else { s with stage := if i = 0 then .stopped else .saving cursor (records.take i) true }

/-- `saveSourceOffsetsBestEffort`; `ok` is whether they get to the store, an error is only recorded. -/
def saveOffsets (s : State) (records : List SourceRecord) (ok : Bool) : State :=
  let offsets := records.filterMap SourceRecord.sourceOffset
  if offsets ≠ [] ∧ ok then { s with stored := offsets, passed := s.passed ++ s.crossed } else s

def step (cfg : SourceConfig) (get : Bytes → Page) (s : State) (a : Action) : State :=
  match a, s.stage with
  | .start, .stopped => { s with stage := .polling (init cfg s.stored), crossed := [] }
  | .stop, .polling _ => { s with stage := .stopped }
  | .poll, .polling cursor => s.afterPoll cfg get cursor
  | .pollFails, .polling _ => { s with stage := .stopped }
  | .send ok, .sending page cursor records i => s.afterSend page cursor records i ok
  | .save ok, .saving cursor records failed =>
    { s.saveOffsets records ok with stage := if failed then .stopped else .polling cursor }
  | .crash, _ => { s with stage := .stopped }
  | _, _ => s

end State
end Holocron.Connect.Http

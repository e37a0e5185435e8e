import Holocron.Connect.Offsets
import Holocron.Lib.Json
import Holocron.Streams.Changelog
import Holocron.Theorems.Sdk.Drain

/-! Replay ends with its deadline: the map is that of the topic exactly if what was left says nothing new. -/

namespace Holocron.Connect
open Lib Sdk Streams List

variable {feed : Feed} {ω : Type}

theorem replay_delivered {decode : Bytes → Option ω} {records : List Record} (delivers : Delivers records feed.polls)
    {entries : Bytes → Option ω} (h : replay decode feed = some (.ok entries)) :
    Folds decode (fun _ => none) records entries ↔ Repeats decode (delivered feed.polls)
      (records.drop (delivered feed.polls).length) := by
  unfold replay at h
  split at h
  · obtain ⟨⟨left, rfl⟩, hfolds⟩ := drain_delivered delivers h
    rw [drop_left]
    exact folds_append_iff hfolds
  · cases h

theorem replay_of_openChangelog {name : Bytes} {partition : Int} {c : ChangelogStore}
    (h : openChangelogStorePartition (some feed) name partition = some (.ok c)) : replay some feed = some (.ok c.entries) := by
  unfold openChangelogStorePartition at h
  dsimp only at h
  split at h
  · cases h
  split at h
  · cases h
  cases hreplay : replay some feed with
  | none =>
    rw [hreplay] at h
    cases h
  | some res =>
    rw [hreplay] at h
    cases res with
    | error e => cases h
    | ok entries =>
      cases h
      rfl

theorem replay_of_openOffsets {codec : Codec ω} {topic : Bytes} {producer : Bool} {s : TopicOffsetStore ω}
    (h : openTopicOffsetStore codec (some feed) topic producer = some (.ok s)) :
      replay codec.unmarshal feed = some (.ok s.entries) := by
  unfold openTopicOffsetStore at h
  dsimp only at h
  cases hreplay : replay codec.unmarshal feed with
  | none =>
    rw [hreplay] at h
    cases h
  | some res =>
    rw [hreplay] at h
    cases res with
    | error e => cases h
    | ok entries =>
      cases producer with
      | false => cases h
      | true =>
        cases h
        rfl

/-- A store that is opened without an error has the fold of all records exactly if those that were left at the deadline
    repeat what the others say. -/
theorem replays_complete_iff {records : List Record} {feed : Feed} (delivers : Delivers records feed.polls) :
    (∀ name partition c, openChangelogStorePartition (some feed) name partition = some (.ok c) →
      (Folds some (fun _ => none) records c.entries ↔ Repeats some (delivered feed.polls)
        (records.drop (delivered feed.polls).length))) ∧
    ∀ (ω : Type) (codec : Codec ω) topic producer s, openTopicOffsetStore codec (some feed) topic producer = some (.ok s) →
      (Folds codec.unmarshal (fun _ => none) records s.entries ↔
        Repeats codec.unmarshal (delivered feed.polls) (records.drop (delivered feed.polls).length)) :=
  ⟨fun _ _ _ h => replay_delivered delivers (replay_of_openChangelog h),
    fun _ _ _ _ _ h => replay_delivered delivers (replay_of_openOffsets h)⟩

def first : Record := ⟨0, 0, some [97], some [1], []⟩
def second : Record := ⟨1, 0, some [98], some [2], []⟩

def inTime : Feed := ⟨true, [.ok [first], .ok [second], .error .deadlineExceeded]⟩

theorem replays_complete_two : ∃ c, openChangelogStorePartition (some inTime) [110] 0 = some (.ok c) ∧
    Folds some (fun _ => none) [first, second] c.entries := by
  have hsecond : Delivers ([second] ++ []) [.ok [second], .error .deadlineExceeded] :=
    .batch (cons_ne_nil _ _) (.deadline [] [])
  have hfirst : Delivers ([first] ++ [second]) inTime.polls := .batch (cons_ne_nil _ _) hsecond
  refine ⟨_, rfl, ((replays_complete_iff hfirst).1 [110] 0 _ rfl).mpr ⟨forall_mem_nil _, fun k r hr => ?_⟩⟩
  cases hr

def cutOff : Feed := ⟨true, [.ok [first], .error .deadlineExceeded]⟩

/-- Both stores are opened without an error and without the second key. -/
theorem replay_cut_off : Delivers ([first] ++ [second]) cutOff.polls ∧
    (openChangelogStorePartition (some cutOff) [110] 0).map (fun res => res.toOption.map fun c =>
      (c.get (some [97]), c.get (some [98]))) = some (some (some [1], none)) ∧
    (openTopicOffsetStore ⟨some, some⟩ (some cutOff) [110] true).map (fun res => res.toOption.map fun s =>
      (s.entries [97], s.entries [98])) = some (some (some [1], none)) :=
  ⟨.batch (cons_ne_nil _ _) (.deadline _ []), rfl, rfl⟩

/-- JSON gives numbers back as floats. -/
structure Json (ω : Type) extends Codec ω where
  floats : ω → ω
  unmarshal_marshal : ∀ {offsets b}, marshal offsets = some b → unmarshal b = some (floats offsets)

structure Save (ω : Type) where
  connector : Bytes
  taskIndex : Int
  offsets : ω
  sent : Bool

namespace TopicOffsetStore

variable (J : Json ω) (s t : TopicOffsetStore ω)

def call (x : Save ω) : Except OffsetsError Record × TopicOffsetStore ω :=
  s.save J.toCodec x.connector x.taskIndex x.offsets x.sent

def calls (xs : List (Save ω)) : TopicOffsetStore ω := xs.foldl (fun s x => (s.call J x).2) s

def written (xs : List (Save ω)) : List Record := xs.flatMap fun x => (t.call J x).1.toOption.toList

def reread (k : Bytes) : Option ω := (s.entries k).map J.floats

theorem replay_written (xs : List (Save ω)) : runAll (replayRecord J.unmarshal) (s.reread J)
    (t.written J xs) = .ok ((s.calls J xs).reread J) := by
  induction xs generalizing s with
  | nil => rfl
  | cons x xs ih =>
    have hone : runAll (replayRecord J.unmarshal) (s.reread J)
        (t.call J x).1.toOption.toList = .ok ((s.call J x).2.reread J) := by
      unfold call save
      rcases hm : J.marshal x.offsets with _ | v
      · rfl
      cases x.sent
      · rfl
      simp only [runAll, replayRecord, J.unmarshal_marshal hm, Except.toOption, if_true, Option.toList]
      refine congrArg Except.ok (funext fun k => ?_)
      exact (Function.apply_update (fun _ => Option.map J.floats) s.entries _ (some x.offsets) k).symm
    rw [written, flatMap_cons, runAll_append, hone]
    exact ih _

/-- The Polls return the records of one group of calls after another. -/
def polls : List (List (Save ω)) → List Polled
  | [] => [.error .deadlineExceeded]
  | xs :: groups => if t.written J xs = [] then polls groups else .ok (t.written J xs) :: polls groups

theorem drain_polls (groups : List (List (Save ω))) :
    drain J.unmarshal (t.polls J groups) (s.reread J) = some (.ok ((s.calls J groups.flatten).reread J)) := by
  induction groups generalizing s with
  | nil => rfl
  | cons xs groups ih =>
    have hxs := replay_written J s t xs
    rw [flatten_cons, calls, foldl_append, polls]
    refine Eq.trans ?_ (ih (s.calls J xs))
    split_ifs with hw
    · rw [hw] at hxs
      rw [← Except.ok.inj hxs]
    · rw [drain, if_neg hw, hxs]

/-- However the calls of Save end, a store opened on the topic loads what the live one does, up to JSON. -/
theorem reopened_loads (topic : Bytes) (groups : List (List (Save ω))) (connector : Bytes) (taskIndex : Int) :
    (openTopicOffsetStore J.toCodec (some ⟨true, polls J ⟨topic, fun _ => none⟩ groups⟩) topic true).map
      (Except.map fun s => s.load connector taskIndex) =
      some (.ok (((calls J ⟨topic, fun _ => none⟩ groups.flatten).load connector taskIndex).map J.floats)) := by
  have hdrain := drain_polls J ⟨topic, fun _ => none⟩ ⟨topic, fun _ => none⟩ groups
  change drain _ _ (fun _ => none) = _ at hdrain
  simp only [openTopicOffsetStore, replay, if_true, hdrain]
  rfl

/-- The offset of a source that reads page after page, as its task gives it or as JSON gives it back. -/
inductive Page where
  | int (n : Fin 10)
  | float (n : Fin 10)
  | nan
  deriving DecidableEq

/-- The text of a list of one map. There is none for a float that is not a number. -/
def Page.text : Page → Option Bytes
  | .int n | .float n => some (utf8 "[\x7b\"page\":" ++ UInt8.ofNat (48 + n) :: utf8 "\x7d]")
  | .nan => none

def Page.read (b : Bytes) : Option Page :=
  match JsonValue.parse b with
  | some (.array [.object [(key, .number [d])]]) => if key = utf8 "page"
      then some (.float (Fin.ofNat 10 (d.toNat - 48))) else none
  | _ => none

def Page.float64 : Page → Page
  | .int n | .float n => .float n
  | .nan => .nan

theorem Page.read_text {page : Page} {b : Bytes} (h : page.text = some b) : Page.read b = some page.float64 := by
  have hread : ∀ n : Fin 10, (Page.int n).text.bind Page.read = some (.float n) := by decide +kernel
  cases page with
  | int n | float n =>
    have hn := hread n
    rw [show (Page.int n).text = some b from h] at hn
    exact hn
  | nan => cases h

def pages : Json Page := ⟨⟨Page.text, Page.read⟩, Page.float64, Page.read_text⟩

/-- Three saves are stored; one send fails, and one offset has no JSON text. -/
def fiveSaves : List (List (Save Page)) :=
  [[⟨utf8 "files", 0, .int 1, true⟩, ⟨utf8 "files", 1, .int 7, true⟩],
    [⟨utf8 "files", 0, .int 2, false⟩, ⟨utf8 "files", 1, .nan, true⟩], [⟨utf8 "files", 0, .int 3, true⟩]]

theorem reopened_loads_pages :
    let reopened := openTopicOffsetStore pages.toCodec
      (some ⟨true, polls pages ⟨defaultConnectOffsetsTopic, fun _ => none⟩ fiveSaves⟩) defaultConnectOffsetsTopic true
    reopened.map (Except.map fun s => s.load (utf8 "files") 0) = some (.ok (some (.float 3))) ∧
      reopened.map (Except.map fun s => s.load (utf8 "files") 1) = some (.ok (some (.float 7))) :=
  ⟨(reopened_loads pages defaultConnectOffsetsTopic fiveSaves (utf8 "files") 0).trans (by decide +kernel),
    (reopened_loads pages defaultConnectOffsetsTopic fiveSaves (utf8 "files") 1).trans (by decide +kernel)⟩

end TopicOffsetStore
end Holocron.Connect

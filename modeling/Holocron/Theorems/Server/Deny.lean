import Holocron.Server.Dispatch
import Holocron.Theorems.Groups.OffsetStores
import Holocron.Theorems.Server.Fetch
import Holocron.Theorems.Storage.Observe

/-! A principal without grants is harmless as long as it stays away from existing groups and committed offsets. -/

namespace Holocron.Server
open Lib Storage Wire Topic Groups List

/-- No scope grants anything. -/
def Principal.Powerless (p : Principal) : Prop := ∀ raw ∈ p.scopes, ∀ action resource, grants raw action resource = false

variable {p : Principal} {resource : Bytes} {action : Action}

theorem authorize_eq_false (h : ∀ raw ∈ p.scopes, grants raw action resource = false) :
    authorize p action resource = false := by
  unfold authorize
  split
  · rfl
  · rw [any_eq_false]
    intro raw hraw
    rw [h raw hraw]
    exact Bool.false_ne_true

theorem Principal.Powerless.denied (h : p.Powerless) (action : Action) (resource : Bytes) :
    authorize p action resource = false := authorize_eq_false fun raw hraw => h raw hraw action resource

/-- The request leaves alone the groups of the manager and their offsets: what it does to groups, it does to others. -/
def Minds (scan : Scan) (m : Manager) (a : Arrival) : Prop :=
  match OpCode.ofByte a.op with
  | some .commit => ∀ req rest, decodeCommitRequest a.body ≠ .ok (req, rest)
  | some .joinGroup => ∀ req rest, decodeJoinGroupRequest a.body = .ok (req, rest) → req.topics = [] ∨ m.groups req.group = none
  | some .heartbeat => ∀ req rest, decodeHeartbeatRequest a.body = .ok (req, rest) →
      ∀ g, m.groups req.group = some g → req.memberID ∉ g.memberIDs
  | some .leaveGroup => ∀ req rest, decodeLeaveGroupRequest a.body = .ok (req, rest) →
      ∀ g, m.groups req.group = some g → req.memberID ∉ g.memberIDs
  | some .deleteGroup => ∀ name rest, decodeDeleteGroupRequest a.body = .ok (name, rest) →
      m.groups name = none ∧ m.offsetKeys (fun k => (scan.key k).1) name = []
  | _ => True

structure Undisturbed (m m' : Manager) : Prop where
  offsets : m'.offsets = m.offsets
  groups (name : Bytes) (g : Groups.Group) (h : m.groups name = some g) : m'.groups name = some g

/-- Topics and records are the same, and the groups undisturbed. -/
structure Untouched {σ : Type} [Store σ] (s s' : State σ) : Prop where
  registry : s'.core.registry = s.core.registry
  records : SameRecords s.core.store s'.core.store
  noManager : s.groups = none → s'.groups = none
  manager (m : Manager) (h : s.groups = some m) : ∃ m', s'.groups = some m' ∧ Undisturbed m m'

namespace Undisturbed

variable {m m' : Manager}

theorem refl (m : Manager) : Undisturbed m m := ⟨rfl, fun _ _ h => h⟩

variable {name : Bytes}

theorem set (h : Undisturbed m m') (free : m.groups name = none) {m'' : Manager} (offsets : m''.offsets = m'.offsets)
    {g : Option Groups.Group} (groups : m''.groups = Function.update m'.groups name g) : Undisturbed m m'' := by
  refine ⟨offsets.trans h.offsets, fun name' g' hg' => ?_⟩
  have hne : name' ≠ name := fun heq => by rw [heq, free] at hg'; cases hg'
  rw [groups, Function.update_of_ne hne]
  exact h.groups name' g' hg'

theorem evictStaleLocked (m : Manager) (g : Groups.Group) (now : Int) :
    (m.evictStaleLocked g now).2.1.offsets = m.offsets ∧ (m.evictStaleLocked g now).2.1.groups = m.groups := by
  simp only [Manager.evictStaleLocked]
  split <;> exact ⟨rfl, rfl⟩

theorem rebalanceLocked {m m' : Manager} {g g' : Groups.Group} {partitionsFor : PartitionsFor}
    (h : m.rebalanceLocked g partitionsFor = .ok (m', g')) : m'.offsets = m.offsets ∧ m'.groups = m.groups := by
  simp only [Manager.rebalanceLocked] at h
  split at h
  · cases h
  · cases h
    exact ⟨rfl, rfl⟩

section
variable (h : Undisturbed m m') {memberID : Bytes}
include h

theorem join (partitionsFor : PartitionsFor) (memberID fresh : Bytes) {topics : List Bytes} (now now' : Int)
    (free : topics = [] ∨ m.groups name = none) :
      Undisturbed m (m'.join partitionsFor name memberID fresh topics now now').2 := by
  unfold Manager.join
  split
  · exact h
  · rename_i hne
    replace free := free.resolve_left hne
    dsimp only
    generalize (if memberID = [] then fresh else memberID) = id
    generalize Groups.Group.mk _ _ _ _ _ _ = g
    obtain ⟨hoffsets, hgroups⟩ := evictStaleLocked m' g now'
    split
    · exact h.set free hoffsets (by rw [Manager.setGroup, hgroups])
    · split
      · exact h.set free hoffsets (by rw [Manager.setGroup, hgroups])
      · rename_i hrebalance
        obtain ⟨hoffsets', hgroups'⟩ := rebalanceLocked hrebalance
        exact h.set free (hoffsets'.trans hoffsets) (by rw [Manager.setGroup, hgroups', hgroups])

theorem free_of_member {g' : Groups.Group} (hg' : m'.groups name = some g') (hmember : ¬ memberID ∉ g'.memberIDs)
    (stranger : ∀ g, m.groups name = some g → memberID ∉ g.memberIDs) : m.groups name = none := by
  cases hg : m.groups name with
  | none => rfl
  | some g =>
    have heq : g = g' := Option.some.inj ((h.groups name g hg).symm.trans hg')
    exact absurd (heq ▸ stranger g hg) hmember

theorem heartbeatLocked (generation : Int32) (now now' : Int)
    (stranger : ∀ g, m.groups name = some g → memberID ∉ g.memberIDs) :
    Undisturbed m (m'.heartbeatLocked name memberID generation now now').2 := by
  unfold Manager.heartbeatLocked
  cases hg' : m'.groups name with
  | none => exact h
  | some g' =>
    dsimp only
    split
    · exact h
    · rename_i hmember
      have hfree := h.free_of_member hg' hmember stranger
      obtain ⟨hoffsets, hgroups⟩ := evictStaleLocked m' (g'.touch memberID now) now'
      exact h.set hfree hoffsets (by rw [Manager.setGroup, hgroups])

theorem heartbeatWait (generation : Int32) (now now' wait : Int) (call : Nat)
    (stranger : ∀ g, m.groups name = some g → memberID ∉ g.memberIDs) :
    Undisturbed m (m'.heartbeatWait name memberID generation now now' wait call).2 ∧
      (∀ needed m'', m'.heartbeatWait name memberID generation now now' wait call = (.ok needed, m'') →
        m.groups name = none) := by
  have hbeat := h.heartbeatLocked generation now now' stranger
  unfold Manager.heartbeatWait
  rcases hres : m'.heartbeatLocked name memberID generation now now' with ⟨e | needed, m₁⟩
  · rw [hres] at hbeat
    exact ⟨hbeat, fun needed m'' heq => nomatch heq⟩
  · rw [hres] at hbeat
    -- an answer without an error comes from a member, and no group there was has this one
    have hfree : m.groups name = none := by
      cases hg : m.groups name with
      | none => rfl
      | some g =>
        simp only [Manager.heartbeatLocked, h.groups name g hg, stranger g hg] at hres
        cases hres
    refine ⟨?_, fun _ _ _ => hfree⟩
    dsimp only
    split
    · exact hbeat
    · split
      · exact hbeat
      · exact hbeat.set hfree rfl rfl

theorem removeWatcher (call : Nat) (free : m.groups name = none) : Undisturbed m (m'.removeWatcher name call) := by
  unfold Manager.removeWatcher
  split
  · exact h
  · exact h.set free rfl rfl

theorem leave (stranger : ∀ g, m.groups name = some g → memberID ∉ g.memberIDs) :
    Undisturbed m (m'.leave name memberID) := by
  unfold Manager.leave
  cases hg' : m'.groups name with
  | none => exact h
  | some g' =>
    dsimp only
    split
    · exact h
    · rename_i hmember
      have hfree := h.free_of_member hg' hmember stranger
      split
      · exact h.set hfree rfl rfl
      · exact h.set hfree rfl rfl

theorem delete (scanned : Bytes → Bytes) (free : m.groups name = none)
    (uncommitted : m.offsetKeys scanned name = []) : Undisturbed m (m'.delete scanned name).2 := by
  have hkeys : m'.offsetKeys scanned name = [] := by rw [Manager.offsetKeys, h.offsets]; exact uncommitted
  simp only [Manager.delete, hkeys]
  split
  · exact h
  · exact h.set free rfl rfl

end

end Undisturbed

section

variable {σ : Type} [Store σ]

structure Calm (b b' : Broker σ) : Prop where
  registry : b'.registry = b.registry
  records : SameRecords b.store b'.store

theorem Calm.refl (b : Broker σ) : Calm b b := ⟨rfl, .refl _⟩

theorem Calm.trans {b b' b'' : Broker σ} (h : Calm b b') (h' : Calm b' b'') : Calm b b'' :=
  ⟨h'.registry.trans h.registry, h.records.trans h'.records⟩

section
variable {c : Conn} (denied : ∀ action resource, c.allows action resource = false)
include denied

theorem handleProduce_denied (now : Int64) (b : Broker σ) (body : Bytes) :
    (handleProduce c now b body).2 = b := by
  unfold handleProduce
  split
  · rfl
  · rw [denied]
    rfl

theorem handleProduceBatch_denied (lz : Lz4) (clock : Nat → Int64)
    (b : Broker σ) (body : Bytes) : (handleProduceBatch lz c clock b body).2 = b := by
  unfold handleProduceBatch
  split
  · rfl
  · rw [denied]
    rfl

theorem fetched_denied (b : Broker σ) (body : Bytes) :
    State.fetched c b body = b := by
  unfold State.fetched
  split
  · rfl
  · rw [denied]
    rfl

end

namespace Untouched

variable {s₀ s : State σ}

theorem refl (s : State σ) : Untouched s s := ⟨rfl, .refl _, id, fun m h => ⟨m, h, .refl m⟩⟩

section
variable (h : Untouched s₀ s) {α : Type}
include h

theorem core {b : Broker σ} (calm : Calm s.core b) : Untouched s₀ { s with core := b } :=
  ⟨calm.registry.trans h.registry, h.records.trans calm.records, h.noManager, h.manager⟩

theorem setGroups {m : Manager} (hm : s.groups = some m) {m' : Manager}
    (keeps : ∀ m₀, s₀.groups = some m₀ → Undisturbed m₀ m → Undisturbed m₀ m') : Untouched s₀ (s.setGroups m') := by
  refine ⟨h.registry, h.records, fun hnone => ?_, fun m₀ hm₀ => ⟨m', rfl, ?_⟩⟩
  · rw [h.noManager hnone] at hm
    cases hm
  · obtain ⟨m₁, hm₁, hkept⟩ := h.manager m₀ hm₀
    have heq : m = m₁ := Option.some.inj (hm.symm.trans hm₁)
    exact keeps m₀ hm₀ (heq ▸ hkept)

theorem managed {m : Manager} (hm : s.groups = some m) : ∃ m₀, s₀.groups = some m₀ ∧ Undisturbed m₀ m := by
  cases hm₀ : s₀.groups with
  | none =>
    rw [h.noManager hm₀] at hm
    cases hm
  | some m₀ =>
    obtain ⟨m₁, hm₁, hkept⟩ := h.manager m₀ hm₀
    exact ⟨m₀, rfl, Option.some.inj (hm₁.symm.trans hm) ▸ hkept⟩

/-- Without a committed offset of the group there is no tombstone to append. -/
theorem deleteGroup {scan : Scan} {a : Arrival} {m : Manager} (hm : s.groups = some m) {topic name : Bytes}
    (minds : ∀ m₀, s₀.groups = some m₀ → m₀.groups name = none ∧ m₀.offsetKeys (fun k => (scan.key k).1) name = []) :
    Untouched s₀ (s.deleteGroup scan a m topic name).2 := by
  obtain ⟨m₀, hm₀, hkept⟩ := h.managed hm
  have hkeys : (TopicOffsetStore.mk topic m.offsets).walkedKeys scan a.walk name = [] := by
    refine List.Perm.eq_nil ((TopicOffsetStore.walkedKeys_perm ⟨topic, m.offsets⟩ scan a.walk name).trans ?_)
    rw [hkept.offsets, TopicOffsetStore.keysOf, ← Manager.offsetKeys, (minds m₀ hm₀).2]
  unfold State.deleteGroup
  split
  · exact h
  · simp only [hkeys, TopicOffsetStore.deleteGroup, TopicOffsetStore.appendTombstones]
    exact h.setGroups hm fun m₁ hm₁ hkept₁ => hkept₁.set (minds m₁ hm₁).1 rfl rfl

theorem decoded {decoder : Decoder α} {body : Bytes} {handle : α → Response × State σ}
    (handled : ∀ req rest, decoder body = .ok (req, rest) → Untouched s₀ (handle req).2) :
      Untouched s₀ (s.decoded decoder body handle).2 := by
  unfold State.decoded
  split
  · exact h
  · rename_i req rest hres
    exact handled req rest hres

theorem authorized (powerless : p.Powerless)
    (handle : Response × State σ) : Untouched s₀ (s.authorized p action resource handle).2 := by
  rw [State.authorized, powerless.denied]
  exact h

theorem answered (reply : α → Reply) {res : Except BrokerError α × Broker σ} (calm : Calm s.core res.2) :
    Untouched s₀ (s.answered reply res).2 := by
  unfold State.answered
  split <;> exact h.core calm

theorem answeredSegments (reply : α → Reply) {res : Except SegmentsError α × Broker σ} (calm : Calm s.core res.2) :
    Untouched s₀ (s.answeredSegments reply res).2 := by
  unfold State.answeredSegments
  split <;> exact h.core calm

theorem withGroups (otherwise : Response) {handle : Manager → Response × State σ}
    (handled : ∀ m, s.groups = some m → Untouched s₀ (handle m).2) : Untouched s₀ (s.withGroups otherwise handle).2 := by
  unfold State.withGroups
  split
  · exact h
  · rename_i m hm
    exact handled m hm

theorem moved (reply : α → Reply) {res : Except RequestError α × Broker σ} (same : res.2 = s.core) :
    Untouched s₀ (s.moved reply res).2 := by
  rw [State.moved, same]
  exact h

end

end Untouched

variable [Snapshots σ] [Observed σ]

section
variable (b : Broker σ) (ctx : Ctx) (p : PartitionRef)

theorem highWater_calm : Calm b (b.highWater ctx p).2 := by
  have hrecords := Observed.highWater b.store ctx p
  unfold Broker.highWater
  split
  · exact .refl b
  · split <;> rename_i hres <;> rw [hres] at hrecords <;> exact ⟨rfl, hrecords⟩

theorem sync_calm : Calm b (b.sync ctx p).2 := by
  have hrecords := Observed.sync b.store ctx p
  unfold Broker.sync
  split
  · exact .refl b
  · split <;> rename_i hres <;> rw [hres] at hrecords <;> exact ⟨rfl, hrecords⟩

theorem listSegments_calm : Calm b (b.listSegments ctx p).2 := by
  unfold Broker.listSegments
  split
  · exact .refl b
  · split
    · exact .refl b
    · rename_i snapper hsnapper
      exact ⟨rfl, Observed.listSegments snapper hsnapper b.store ctx p⟩

theorem fetchSegmentChunk_calm (base : Int) (kind : Log.SegmentKind) (offset maxBytes : Int) :
    Calm b (b.fetchSegmentChunk ctx p base kind offset maxBytes).2 := by
  unfold Broker.fetchSegmentChunk
  split
  · exact .refl b
  · split
    · exact .refl b
    · rename_i snapper hsnapper
      exact ⟨rfl, Observed.fetchSegmentChunk snapper hsnapper b.store ctx p base kind offset maxBytes⟩

end

theorem offsetEntries_calm (entries : List OffsetEntry) (b : Broker σ) : Calm b (State.offsetEntries entries b).2 := by
  induction entries generalizing b with
  | nil => exact .refl b
  | cons e rest ih => exact (highWater_calm b .background ⟨e.topic, e.partition⟩).trans (ih _)

section
variable {lz : Lz4} {scan : Scan} {p : Principal} (powerless : p.Powerless) {s₀ s : State σ} (h : Untouched s₀ s)
include powerless h

/-- One request keeps what stays since some state, if it minds the groups of that state. -/
theorem Untouched.dispatch
    {a : Arrival} (minds : ∀ m, s₀.groups = some m → Minds scan m a) : Untouched s₀ (s.dispatch lz scan p a).2 := by
  have hconn : ∀ action resource, (a.conn p).allows action resource = false := powerless.denied
  unfold State.dispatch
  split <;> rename_i hop <;> simp only [Minds, hop] at minds
  · exact h.moved _ (handleProduce_denied hconn _ _ _)
  · unfold State.serveFetch
    split
    · exact h
    · exact h.moved _ (fetched_denied hconn _ _)
  · refine h.decoded fun topic _ _ => ?_
    split <;> exact h
  · exact h.decoded fun req _ _ => h.authorized powerless _
  · exact h.decoded fun req _ _ => h.answered _ (highWater_calm _ _ _)
  · exact h.decoded fun _ _ _ => h
  · exact h.authorized powerless _
  · exact h.authorized powerless _
  · exact h.decoded fun req _ _ => h.answeredSegments _ (listSegments_calm _ _ _)
  · exact h.decoded fun req _ _ => h.answeredSegments _ (fetchSegmentChunk_calm _ _ _ _ _ _ _)
  · exact h.decoded fun req _ _ => h.authorized powerless _
  · exact h
  · exact h.withGroups _ fun _ _ => h
  · exact h.decoded fun name _ _ => h.withGroups _ fun _ _ => h
  · exact h.decoded fun name _ _ => h.withGroups _ fun m _ => h.core (offsetEntries_calm _ _)
  · refine h.decoded fun name rest hreq => h.withGroups _ fun m hm => ?_
    have hkeeps : ∀ m₀, s₀.groups = some m₀ → Undisturbed m₀ m → Undisturbed m₀ (m.delete (fun k => (scan.key k).1) name).2 :=
      fun m₀ hm₀ hkept => hkept.delete _ (minds m₀ hm₀ name rest hreq).1 (minds m₀ hm₀ name rest hreq).2
    split
    · exact h.deleteGroup hm fun m₀ hm₀ => minds m₀ hm₀ name rest hreq
    · split <;> rename_i hres <;> rw [hres] at hkeeps <;> exact h.setGroups hm hkeeps
  · exact h
  · exact h.decoded fun req _ _ => h.authorized powerless _
  · refine h.decoded fun req rest hreq => h.withGroups _ fun m hm => ?_
    obtain ⟨m₀, hm₀, -⟩ := h.managed hm
    exact absurd hreq (minds m₀ hm₀ req rest)
  · refine h.decoded fun req rest hreq => h.withGroups _ fun m hm => ?_
    have hkeeps : ∀ m₀, s₀.groups = some m₀ → Undisturbed m₀ m →
        Undisturbed m₀ (m.join s.core.registry.partitionsFor req.group req.memberID a.fresh req.topics a.now a.now').2 :=
      fun m₀ hm₀ hkept => hkept.join _ _ _ _ _ (minds m₀ hm₀ req rest hreq)
    split <;> rename_i hres <;> rw [hres] at hkeeps <;> exact h.setGroups hm hkeeps
  · refine h.decoded fun req rest hreq => h.withGroups _ fun m hm => ?_
    have hbeat : ∀ m₀, s₀.groups = some m₀ → Undisturbed m₀ m →
        Undisturbed m₀ (m.heartbeatLocked req.group req.memberID req.generation a.now a.now').2 :=
      fun m₀ hm₀ hkept => hkept.heartbeatLocked _ _ _ (minds m₀ hm₀ req rest hreq)
    dsimp only
    split
    · have hwait := fun m₀ hm₀ (hkept : Undisturbed m₀ m) =>
        hkept.heartbeatWait req.generation a.now a.now'
          (min (req.maxWaitMs.toInt * 10 ^ 6) State.serverHeartbeatWaitCap) a.call (minds m₀ hm₀ req rest hreq)
      split <;> rename_i hres <;> simp only [hres] at hwait
      · exact h.setGroups hm fun m₀ hm₀ hkept => (hwait m₀ hm₀ hkept).1
      · exact h.setGroups hm fun m₀ hm₀ hkept => (hwait m₀ hm₀ hkept).1
      · exact h.setGroups hm fun m₀ hm₀ hkept => (hwait m₀ hm₀ hkept).1.removeWatcher a.call ((hwait m₀ hm₀ hkept).2 _ _ rfl)
    · split <;> rename_i hres <;> rw [hres] at hbeat <;> exact h.setGroups hm hbeat
  · refine h.decoded fun req rest hreq => h.withGroups _ fun m hm => ?_
    exact h.setGroups hm fun m₀ hm₀ hkept => hkept.leave (minds m₀ hm₀ req rest hreq)
  · exact h.decoded fun req _ _ => h.answered _ (sync_calm _ _ _)
  · exact h.moved _ (handleProduceBatch_denied hconn _ _ _ _)
  · exact h
  · exact h

theorem Untouched.serve
    {arrivals : List Arrival} (minds : ∀ a ∈ arrivals, ∀ m, s₀.groups = some m → Minds scan m a) :
    Untouched s₀ (s.serve lz scan p arrivals).2 := by
  induction arrivals generalizing s with
  | nil => exact h
  | cons a rest ih =>
    exact ih (h.dispatch powerless (minds a mem_cons_self)) fun b hb => minds b (mem_cons_of_mem a hb)

end

/-- Deny by default, as far as it goes: requests that mind the groups there are touch nothing. -/
theorem powerless_touches_nothing {p : Principal} (powerless : p.Powerless) (lz : Lz4) (scan : Scan) (s : State σ)
    {arrivals : List Arrival}
    (minds : ∀ a ∈ arrivals, ∀ m, s.groups = some m → Minds scan m a) : Untouched s (s.serve lz scan p arrivals).2 :=
  (Untouched.refl s).serve powerless minds

end

def nobody : Principal := ⟨utf8 "nobody", [utf8 "produce:"]⟩

theorem nobody_powerless : nobody.Powerless := by
  intro raw hraw action resource
  rw [mem_singleton.mp hraw]
  rfl

def oneMember : Manager where
  sessionTimeout := 10
  strategy := .range
  offsets := [(joinKey (utf8 "g") (utf8 "t") 0, 3)]
  groups := Function.update (fun _ => none) (utf8 "g")
    (some ⟨[utf8 "t"], [⟨utf8 "a", 0⟩], Function.update Assignments.none (utf8 "a") [⟨utf8 "t", 0⟩], 1, false, []⟩)
  woken := []

def oneGroup : State MemoryStore := ⟨oneTopic, some oneMember, some defaultOffsetsTopic⟩

def noScan : Scan := ⟨fun _ => ([], [], 0), fun _ => 0⟩

def request (op : UInt8) (body : Bytes) : Arrival := ⟨op, body, fun _ => 0, 5, 5, utf8 "b", 0, .listed, none, none⟩

def joinNew : Arrival := request 0x07 (encodeString (utf8 "h") ++ encodeString [] ++ encodeInt32 1 ++ encodeString (utf8 "t"))

def produceOne : Arrival := request 0x01 (produceValue [104, 105])

theorem joinNew_minds : Minds noScan oneMember joinNew := by
  intro req rest hreq
  refine .inr ?_
  have hgroup : (decodeJoinGroupRequest joinNew.body).map (fun x => x.1.group) = .ok (utf8 "h") := by decide +kernel
  rw [hreq] at hgroup
  rw [show req.group = utf8 "h" from Except.ok.inj hgroup]
  have hne : utf8 "h" ≠ utf8 "g" := by decide
  simp only [oneMember, Function.update_of_ne hne]

/-- It may join a group of its own, and what it produces is refused. -/
theorem powerless_touches_nothing_joined :
    Untouched oneGroup (oneGroup.serve incompressible noScan nobody [produceOne, joinNew]).2 := by
  refine powerless_touches_nothing nobody_powerless incompressible noScan oneGroup fun a ha m hm => ?_
  cases hm
  rcases mem_cons.mp ha with rfl | ha
  · trivial
  · rw [mem_singleton.mp ha]
    exact joinNew_minds

def commitSeven : Arrival := request 0x05 (encodeString (utf8 "g") ++ encodeString (utf8 "t") ++ encodeInt32 0 ++ encodeInt64 7)

def leaveFor : Arrival := request 0x09 (encodeString (utf8 "g") ++ encodeString (utf8 "a"))

/-- It moves the offset of a group it is not in, and takes the group's only member out. -/
theorem powerless_commits : nobody.Powerless ∧ oneMember.lookup (utf8 "g") ⟨utf8 "t", 0⟩ = 3 ∧
    (oneMember.groups (utf8 "g")).isSome ∧
    (oneGroup.serve incompressible noScan nobody [commitSeven, leaveFor]).2.groups.map
      (fun m => (m.lookup (utf8 "g") ⟨utf8 "t", 0⟩, (m.groups (utf8 "g")).isSome)) = some (7, false) := by
  refine ⟨nobody_powerless, ?_, ?_, ?_⟩ <;> decide +kernel

end Holocron.Server

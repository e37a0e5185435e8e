import Holocron.Embed.Disk
import Holocron.Theorems.Broker.Restart
import Holocron.Theorems.Groups.OffsetStore

/-! Committed offsets and producer checkpoints survive a restart as long as the sweeper deletes no segment with a live
    record. -/

namespace Holocron
open Lib Log Storage Broker Groups List Function

theorem encodeDedupKey_ne_nil (id : Bytes) (p : PartitionRef) : encodeDedupKey id p ≠ [] := by
  intro h
  have hlen := congrArg length h
  simp [encodeDedupKey] at hlen

def Short (id : Bytes) (p : PartitionRef) : Prop := id.length < 256 ^ 4 ∧ p.topic.length < 256 ^ 4

variable {p : PartitionRef} {rs : List Record} {l : PartitionLog} {r : Record}

theorem encodeDedupKey_inj {id id' : Bytes} {p' : PartitionRef} (h : Short id p) (h' : Short id' p') :
    encodeDedupKey id p = encodeDedupKey id' p' ↔ id = id' ∧ p = p' := by
  refine ⟨fun heq => ?_, fun ⟨hid, hp⟩ => by rw [hid, hp]⟩
  have hdecode := congrArg decodeDedupKey heq
  rw [decodeDedupKey_encode h.1 h.2, decodeDedupKey_encode h'.1 h'.2] at hdecode
  exact Prod.mk.inj (Option.some.inj hdecode)

theorem hydrated_eq_fold (h : ∀ r ∈ rs, ∃ id p cp, IsCheckpoint r id p cp) (p : PartitionRef) (id : Bytes) :
    (Short id p → hydrated rs p id = (fold rs (encodeDedupKey id p)).bind decodeDedupValue) ∧
      (¬ Short id p → hydrated rs p id = none) := by
  induction rs using reverseRecOn with
  | nil => exact ⟨fun _ => rfl, fun _ => rfl⟩
  | append_singleton rs r ih =>
    obtain ⟨ihshort, ihlong⟩ := ih fun x hx => h x (mem_append_left _ hx)
    obtain ⟨id', p', cp, hr⟩ := h r (mem_append_right rs (mem_singleton_self r))
    have hshort' : Short id' p' := ⟨hr.readable.id, hr.readable.topic⟩
    rw [hydrated_concat hr]
    have hupdate : update (hydrated rs) p' (update (hydrated rs p') id' (some cp)) p id =
        if id' = id ∧ p' = p then some cp else hydrated rs p id := by
      by_cases hp : p = p'
      · subst hp
        rw [update_self]
        by_cases hid : id = id'
        · rw [hid, update_self, if_pos ⟨rfl, rfl⟩]
        · rw [update_of_ne hid, if_neg fun h => hid h.1.symm]
      · rw [update_of_ne hp, if_neg fun h => hp h.2.symm]
    rw [hupdate]
    refine ⟨fun hshort => ?_, fun hlong => ?_⟩
    · have hsame : keying.key r = some (encodeDedupKey id p) ↔ id' = id ∧ p' = p := by
        rw [keying_key, hr.key, encodeDedupKey_inj hshort' hshort]
        exact and_iff_left (encodeDedupKey_ne_nil id p)
      rw [fold_concat, ihshort hshort]
      simp only [hsame, hr.value]
      split
      · exact (decodeDedupValue_encode hr.readable.offset).symm
      · rfl
    · rw [if_neg (fun ⟨hid, hp⟩ => hlong (hid ▸ hp ▸ hshort')), ihlong hlong]

def Hydrates (latest : PartitionRef → Bytes → Option ProducerCheckpoint) (rs : List Record) : Prop :=
  (∀ r ∈ rs, ∃ id p cp, IsCheckpoint r id p cp) ∧ hydrated rs = latest

theorem hydrates_ofMap (latest : PartitionRef → Bytes → Option ProducerCheckpoint) : PartitionLog.OfMap (Hydrates latest) := by
  rintro rs rs' hsub hfold ⟨hall, rfl⟩
  have hall' : ∀ r ∈ rs', ∃ id p cp, IsCheckpoint r id p cp := fun r hr => hall r (hsub r hr)
  refine ⟨hall', funext fun p => funext fun id => ?_⟩
  by_cases hshort : Short id p
  · rw [(hydrated_eq_fold hall' p id).1 hshort, (hydrated_eq_fold hall p id).1 hshort, hfold]
  · rw [(hydrated_eq_fold hall' p id).2 hshort, (hydrated_eq_fold hall p id).2 hshort]

def noteLatest (latest : PartitionRef → Bytes → Option ProducerCheckpoint) (id : Bytes) (p : PartitionRef)
    (cp : ProducerCheckpoint) :
    PartitionRef → Bytes → Option ProducerCheckpoint := Function.update latest p (Function.update (latest p) id (some cp))

theorem Hydrates.checkpoint {latest : PartitionRef → Bytes → Option ProducerCheckpoint} (h : Hydrates latest rs) {id : Bytes}
    {cp : ProducerCheckpoint} (readable : Readable id p cp) (now : Int64) (n : Int) :
    Hydrates (noteLatest latest id p cp) (rs ++ [(stamp now n (dedupRecord id p cp)).norm]) := by
  obtain ⟨hall, rfl⟩ := h
  refine ⟨fun r hr => ?_, hydrated_concat (isCheckpoint_dedupRecord readable now n) rs⟩
  rcases mem_append.mp hr with hr | hr
  · exact hall r hr
  · rw [mem_singleton.mp hr]
    exact ⟨id, p, cp, isCheckpoint_dedupRecord readable now n⟩

namespace Broker

variable {σ : Type} [Store σ]

/-- What a call leaves: of a record it stores, the record and then its checkpoint on the dedup topic. -/
theorem call_stored (b : Broker σ) (c : Call) :
    (∃ n s, b.decision c = .appended n ∧ Store.append b.store c.ctx c.now c.p (withTimestamp c.now c.record) = (.ok n, s) ∧
      (producerIdempKey c.record = none → (b.call c).2.store = s) ∧
      ∀ id seq, producerIdempKey c.record = some (id, seq) → c.p.topic ≠ b.dedupTopic → b.dedupTopic ≠ [] →
        (b.call c).2.store = (Store.append s .background c.now ⟨b.dedupTopic, 0⟩ (dedupRecord id c.p ⟨seq, n, c.now⟩)).2) ∨
    (∀ n, b.decision c ≠ .appended n) ∧
      ((b.call c).2.store = b.store ∨
        (b.call c).2.store = (Store.append b.store c.ctx c.now c.p (withTimestamp c.now c.record)).2) := by
  obtain ⟨hstore, htopic, -⟩ := evictFor_same b (producerIdempKey c.record) c.now c.p
  unfold decision call publish
  cases b.validate c.p with
  | error e => exact .inr ⟨nofun, .inl rfl⟩
  | ok _ =>
    dsimp only
    cases ((b.evictFor (producerIdempKey c.record) c.now c.p).partitions c.p).duplicate (producerIdempKey c.record) with
    | some n => exact .inr ⟨nofun, .inl hstore⟩
    | none =>
      rw [hstore]
      cases Store.append b.store c.ctx c.now c.p (withTimestamp c.now c.record) with
      | mk res s =>
        cases res with
        | error e => exact .inr ⟨nofun, .inr rfl⟩
        | ok n =>
          refine .inl ⟨n, s, rfl, rfl, fun hkey => by rw [hkey]; rfl, fun id seq hkey haway hset => ?_⟩
          rw [hkey] at htopic ⊢
          simp only [remember, setPartition, persistDedupCheckpoint, htopic, if_pos haway, if_neg hset]

end Broker

theorem Log.PartitionLog.append_offset {res : Int × PartitionLog} (h : l.append r = .ok res) :
    res.1 = r.offset := by
  unfold append Segment.append at h
  cases hbuf : l.active.logBuf with
  | none => rw [hbuf] at h; cases h
  | some buf =>
    rw [hbuf] at h
    exact (congrArg Prod.fst (Except.ok.inj h)).symm

variable {now : Int64}

theorem Storage.FileStore.append_offset {s s' : FileStore} {ctx : Ctx} {n : Int}
    (h : Store.append s ctx now p r = (.ok n, s')) : ∃ l, (s.openLog p).1 = .ok l ∧ l.highWater = n := by
  simp only [Store.append, FileStore.append, guarded] at h
  cases herr : ctx.err with
  | some e => rw [herr] at h; cases h
  | none =>
    rw [herr] at h
    cases hopen : s.openLog p with
    | mk res s₁ =>
      cases res with
      | error e => rw [hopen] at h; cases h
      | ok l =>
        simp only [hopen] at h
        refine ⟨l, rfl, ?_⟩
        cases happend : l.append (stamp now l.highWater r) with
        | error e => rw [happend] at h; cases h
        | ok res =>
          rw [happend] at h
          obtain rfl : res.1 = n := Except.ok.inj (congrArg Prod.fst h)
          exact (PartitionLog.append_offset happend).symm

namespace Embed
open Concurrent

/-- What a disk broker has been told: the commits of groups, and the last checkpoint of every producer on a partition. -/
structure Metadata where
  committed : Committed
  latest : PartitionRef → Bytes → Option ProducerCheckpoint

namespace Metadata

def none : Metadata := ⟨fun _ _ _ => .none, fun _ _ => .none⟩

def next (m : Metadata) (d : Disk) : Op → Metadata
  | .commit _ group topic partition offset => { m with committed := m.committed.commit group topic partition offset }
  | .deleteGroup _ group _ => { m with committed := m.committed.deleteGroup group }
  | .publish c =>
    match d.core.decision c, producerIdempKey c.record with
    | .appended n, some (id, seq) => { m with latest := noteLatest m.latest id c.p ⟨seq, n, c.now⟩ }
    | _, _ => m
  | .tick _ _ => m

def after : Metadata → Disk → List Op → Metadata
  | m, _, [] => m
  | m, d, op :: ops => after (m.next d op) (d.step op) ops

end Metadata

namespace Disk

def dedupPref (d : Disk) : PartitionRef := ⟨d.core.dedupTopic, 0⟩

/-- An operation that loses no metadata: names hold no NUL, nobody else writes to the internal topics, what is appended to
    them fits, and a tick deletes no segment of theirs with a live record. -/
def Safe (d : Disk) : Op → Prop
  | .commit now group topic partition offset => NoNUL group ∧ NoNUL topic ∧ Signed 8 offset ∧
      Fits d.core.store now d.offsets.pref (commitRecord (joinKey group topic partition) offset)
  | .deleteGroup now group keys => (∃ scanned, keys.Perm (d.offsets.keysOf scanned group)) ∧
      TopicOffsetStore.TombstonesFit d.offsets.pref now d.core.store keys
  | .publish c => c.p ≠ d.offsets.pref ∧ c.p.topic ≠ d.core.dedupTopic ∧
      (∀ l, (d.core.store.openLog c.p).1 = .ok l → Signed 8 l.highWater) ∧
      ∀ s n, Store.append d.core.store c.ctx c.now c.p (withTimestamp c.now c.record) = (.ok n, s) →
        ∀ id seq, producerIdempKey c.record = some (id, seq) → Fits s c.now d.dedupPref (dedupRecord id c.p ⟨seq, n, c.now⟩)
  | .tick now _ => ∀ p ∈ [d.offsets.pref, d.dedupPref], ∀ l, d.core.store.logs p = some l →
      ∀ cs c, l.Holds cs c → d.sweeper.Spares now cs c

structure Keeps (d : Disk) (m : Metadata) : Prop where
  distinct : d.dedupPref ≠ d.offsets.pref
  configured : d.core.dedupTopic ≠ []
  offsets : d.offsets.Synced d.core.store
  entries : d.offsets.entries.Records m.committed
  checkpoints : d.core.store.Opens d.dedupPref (PartitionLog.Shows (Hydrates m.latest))

theorem keeps_start (segmentSize : Int) (registry : Topic.Registry) (ttl : Int64) {dedupTopic offsetsTopic : Bytes}
    (sweeper : Sweeper) (configured : dedupTopic ≠ []) (distinct : dedupTopic ≠ offsetsTopic) :
    (Disk.start segmentSize registry ttl dedupTopic offsetsTopic sweeper).Keeps .none := by
  refine ⟨fun h => distinct (congrArg PartitionRef.topic h), configured, FileStore.shows_new segmentSize _ fun _ _ =>
    rfl, ⟨fun _ _ _ => rfl, ?_⟩, FileStore.shows_new segmentSize _ ⟨forall_mem_nil _, rfl⟩⟩
  intro k hk
  cases hk

variable {d : Disk} {m : Metadata}

section
variable (h : d.Keeps m) {group : Bytes}
include h

theorem Keeps.commit {topic : Bytes} {partition : Int32} {offset : Int}
    (safe : d.Safe (.commit now group topic partition offset)) :
    (d.step (.commit now group topic partition offset)).Keeps (m.next d (.commit now group topic partition offset)) := by
  obtain ⟨hgroup, htopic, hoffset, hfits⟩ := safe
  obtain ⟨s', hcommit, hsynced, hothers⟩ := h.offsets.commit hoffset hfits
  simp only [step, hcommit]
  exact ⟨h.distinct, h.configured, hsynced, h.entries.commit hgroup htopic partition offset,
    hothers _ _ h.distinct h.checkpoints⟩

theorem Keeps.deleteGroup {keys : List Bytes} (safe : d.Safe (.deleteGroup now group keys)) :
    (d.step (.deleteGroup now group keys)).Keeps (m.next d (.deleteGroup now group keys)) := by
  obtain ⟨⟨scanned, hkeys⟩, hfits⟩ := safe
  obtain ⟨s', hdelete, hsynced, hothers⟩ := h.offsets.deleteGroup hfits
  simp only [step, hdelete]
  exact ⟨h.distinct, h.configured, hsynced, h.entries.deleteGroup hkeys, hothers _ _ h.distinct h.checkpoints⟩

/-- Publish writes to its partition and to the dedup topic, a checkpoint if it stores a record of a producer. -/
theorem Keeps.publish {c : Call} (safe : d.Safe (.publish c)) : (d.step (.publish c)).Keeps (m.next d (.publish c)) := by
  obtain ⟨hoffsets, htopic, hsigned, hfits⟩ := safe
  have hdedup : c.p ≠ d.dedupPref := fun hp => htopic (by rw [hp]; rfl)
  have hpref : (d.step (.publish c)).dedupPref = d.dedupPref := by
    simp only [step, dedupPref, call_topic]
  have hfirst : ∀ {q} {P}, c.p ≠ q → d.core.store.Opens q P →
      (Store.append d.core.store c.ctx c.now c.p (withTimestamp c.now c.record)).2.Opens q P :=
    fun hq hopens => hopens.append_other hq _ _ _
  suffices hstore : (d.step (.publish c)).core.store.Opens d.offsets.pref (PartitionLog.Shows d.offsets.entries.Agree) ∧
      (d.step (.publish c)).core.store.Opens d.dedupPref (PartitionLog.Shows (Hydrates (m.next d (.publish c)).latest)) by
    refine ⟨hpref ▸ h.distinct, ?_, hstore.1, ?_, hpref ▸ hstore.2⟩
    · simp only [step, call_topic]
      exact h.configured
    · have hsame : (m.next d (.publish c)).committed = m.committed := by
        simp only [Metadata.next]
        split <;> rfl
      rw [hsame]
      exact h.entries
  rcases call_stored d.core c with ⟨n, s, hn, happend, hplain, hkeyed⟩ | ⟨hnot, hstore⟩
  · have hs : ∀ {q} {P}, c.p ≠ q → d.core.store.Opens q P → s.Opens q P := by
      intro q P hq hopens
      have := hfirst hq hopens
      rwa [happend] at this
    cases hkey : producerIdempKey c.record with
    | none =>
      simp only [step, hplain hkey, Metadata.next, hn, hkey]
      exact ⟨hs hoffsets h.offsets, hs hdedup h.checkpoints⟩
    | some key =>
      obtain ⟨id, seq⟩ := key
      have hfit := hfits s n happend id seq hkey
      have hreadable : Readable id c.p ⟨seq, n, c.now⟩ := by
        obtain ⟨log, hlog, rfl⟩ := FileStore.append_offset happend
        obtain ⟨l, s₁, hopen, -, -, -⟩ := (hs hdedup h.checkpoints).opened
        have hhigh : Store.highWater s .background d.dedupPref = (.ok l.highWater, s₁) := by
          simp only [Store.highWater, FileStore.highWater, guarded, Ctx.background, hopen]
        exact readable_of_small (hfit l.highWater s₁ hhigh l (by rw [hopen])) (hsigned log hlog)
      obtain ⟨k, s', hcheckpoint, hopens⟩ := FileStore.Opens.append_shows (hs hdedup h.checkpoints) hfit
        fun k rs hrs => hrs.checkpoint hreadable c.now k
      have hother := (hs hoffsets h.offsets).append_other h.distinct .background c.now (dedupRecord id c.p ⟨seq, n, c.now⟩)
      simp only [step, hkeyed id seq hkey htopic h.configured, Metadata.next, hn, hkey]
      refine ⟨hother, ?_⟩
      rw [show ⟨d.core.dedupTopic, 0⟩ = d.dedupPref from rfl, hcheckpoint]
      exact hopens
  · have hnext : m.next d (.publish c) = m := by
      simp only [Metadata.next]
      split
      · rename_i hn _
        exact absurd hn (hnot _)
      · rfl
    rw [hnext]
    rcases hstore with hstore | hstore
    · simp only [step, hstore]
      exact ⟨h.offsets, h.checkpoints⟩
    · simp only [step, hstore]
      exact ⟨hfirst hoffsets h.offsets, hfirst hdedup h.checkpoints⟩

theorem Keeps.tick {orders : Orders} (safe : d.Safe (.tick now orders)) :
    (d.step (.tick now orders)).Keeps (m.next d (.tick now orders)) := by
  refine ⟨h.distinct, h.configured, ?_, h.entries, ?_⟩
  · exact FileStore.Opens.tick (Entries.agree_ofMap _) h.offsets (safe _ (by simp)) orders
  · exact FileStore.Opens.tick (hydrates_ofMap _) h.checkpoints (safe _ (by simp)) orders

theorem Keeps.step {op : Op} (safe : d.Safe op) : (d.step op).Keeps (m.next d op) := by
  cases op with
  | commit => exact h.commit safe
  | deleteGroup => exact h.deleteGroup safe
  | publish => exact h.publish safe
  | tick => exact h.tick safe

theorem Keeps.run {ops : List Op} (safe : Along Disk.step d ops Safe) :
    (ops.foldl Disk.step d).Keeps (m.after d ops) := by
  induction ops generalizing d m with
  | nil => exact h
  | cons op ops ih =>
    obtain ⟨hsafe, hrest⟩ := Along.cons_iff.mp safe
    exact ih (h.step hsafe) hrest

theorem Keeps.restart : ∃ enough, ∀ fuel, enough < fuel → ∃ d', d.restart fuel = some (.ok d') ∧
    (∀ g t p, d'.offsets.lookup g t p = (m.committed g t p).getD noOffset) ∧ d'.core.dedup = m.latest := by
  have hoffsets : d.core.reopened.store.Opens d.offsets.pref _ := FileStore.Opens.reopened h.offsets
  have hdedup : d.core.reopened.store.Opens d.dedupPref _ := FileStore.Opens.reopened h.checkpoints
  obtain ⟨rs, l, hagree, hopen, hreplay⟩ := hoffsets.replay Entries.replayRecord []
  obtain ⟨cps, l', ⟨-, hlatest⟩, hopen', hreplay'⟩ := hdedup.replay hydrateRecord fun _ => .empty
  refine ⟨max rs.length cps.length, fun fuel hfuel => ?_⟩
  obtain ⟨s₁, hoffsets₁, hothers⟩ := hreplay d.core.reopened.store fuel hopen (Nat.lt_of_le_of_lt (Nat.le_max_left ..) hfuel)
  obtain ⟨s₂, hdedup₂, -⟩ := hreplay' s₁ fuel ((hothers _ h.distinct).trans hopen')
    (Nat.lt_of_le_of_lt (Nat.le_max_right ..) hfuel)
  refine ⟨{ d with
    core := { d.core.reopened with store := s₂, partitions := cps.foldl hydrateRecord fun _ => .empty }
    offsets := ⟨d.offsets.topic, rs.foldl Entries.replayRecord []⟩ }, ?_, fun g t p => ?_, hlatest⟩
  · have hopenStore : TopicOffsetStore.openStore d.offsets.topic fuel d.core.reopened.store =
        some (.ok ⟨d.offsets.topic, rs.foldl Entries.replayRecord []⟩, s₁) := by
      exact congrArg (Option.map _) hoffsets₁
    have hload : hydrateDedupFromTopic fuel { d.core.reopened with store := s₁ } =
        some (.ok { d.core.reopened with store := s₂, partitions := cps.foldl hydrateRecord fun _ => .empty }) := by
      exact congrArg (Option.map _) hdedup₂
    simp only [Disk.restart, Broker.restart, hopenStore, hload]
    rfl
  · rw [TopicOffsetStore.lookup, hagree _ (joinKey_ne_nil g t p), h.entries.lookup]

end

/-- Metadata survives sweeping and a restart, after any history of safe operations. -/
theorem metadata_survives_sweeping (segmentSize : Int) (registry : Topic.Registry) (ttl : Int64)
    {dedupTopic offsetsTopic : Bytes}
    (sweeper : Sweeper) (configured : dedupTopic ≠ []) (distinct : dedupTopic ≠ offsetsTopic) {ops : List Op}
    (safe : Along Disk.step (Disk.start segmentSize registry ttl dedupTopic offsetsTopic sweeper) ops Safe) :
    ∃ enough, ∀ fuel, enough < fuel →
      ∃ d', (ops.foldl Disk.step (Disk.start segmentSize registry ttl dedupTopic offsetsTopic sweeper)).restart fuel =
        some (.ok d') ∧ (∀ g t p, d'.offsets.lookup g t p =
          ((Metadata.none.after (Disk.start segmentSize registry ttl dedupTopic offsetsTopic sweeper) ops).committed g t
            p).getD noOffset) ∧
        d'.core.dedup = (Metadata.none.after (Disk.start segmentSize registry ttl dedupTopic offsetsTopic sweeper)
          ops).latest :=
  ((keeps_start segmentSize registry ttl sweeper configured distinct).run safe).restart

theorem streams_of_represents {ss : List Segment} {cs : List Chunk} (rep : Forall₂ Segment.Represents ss cs) :
    ss.map (fun s => s.stream.1) = cs.map fun x => .ok (x.records.map Record.norm) := by
  induction rep with
  | nil => rfl
  | cons hs _ ih =>
    obtain ⟨s', hstream, -⟩ := hs.holds.stream
    rw [map_cons, map_cons, ih, hstream]

def swept (segmentSize : Int) (sweeper : Sweeper) : Disk :=
  Disk.start segmentSize ⟨[], none⟩ 0 (utf8 "d") (utf8 "o") sweeper

def committed : Op := .commit 5 (utf8 "g") (utf8 "t") 0 7

def ticked : Op := .tick 7 ⟨[⟨utf8 "o", 0⟩], [⟨utf8 "o", 0⟩], [⟨utf8 "o", 0⟩]⟩

def again : Op := .commit 6 (utf8 "g") (utf8 "t") 0 8

def stored (now : Int64) (offset committed : Int) : Record :=
  stamp now offset (commitRecord (joinKey (utf8 "g") (utf8 "t") 0) committed)

/-- The sealed segment of a commit has expired when the tick comes, and the one of the commit after it has not. -/
theorem spares_expired {l : PartitionLog} {cs : List Chunk} {c : Chunk} (h : l.Holds cs c)
    (files : l.segments.map (fun s => s.stream.1) = [.ok [stored 5 0 7], .ok [stored 6 1 8], .ok []]) :
    Sweeper.Spares ⟨1, 0, true⟩ 7 cs c := by
  have hrecords := (streams_of_represents h.segments).symm.trans files
  rcases cs with _ | ⟨x, _ | ⟨y, _ | ⟨z, cs⟩⟩⟩ <;>
    simp only [nil_append, cons_append, map_cons, map_nil, cons.injEq, Except.ok.injEq] at hrecords
  · cases hrecords.2
  · cases hrecords.2.2
  · obtain ⟨hx, hy, hc, -⟩ := hrecords
    have hsealed : sealedRecords [x, y] = [stored 5 0 7, stored 6 1 8] := by
      simp [sealedRecords, records, hx, hy]
    have hall : sealedRecords ([x, y] ++ [c]) = [stored 5 0 7, stored 6 1 8] := by
      rw [sealedRecords_append, hsealed, sealedRecords, records, flatMap_cons, flatMap_nil, append_nil, hc, append_nil]
    refine ⟨fun _ z hz needed expired => ?_, fun hon => absurd hon (by decide), fun _ => ?_⟩
    · obtain ⟨r, hr, hretained⟩ := needed
      obtain ⟨last, hlast, hold⟩ := expired
      simp only [mem_cons, not_mem_nil, or_false] at hz
      rcases hz with rfl | rfl
      · have hnorm : r.norm = stored 5 0 7 := mem_singleton.mp (hx ▸ mem_map_of_mem hr)
        have hlive := (mem_liveRecords (by rw [hall]; decide +kernel)).mpr hretained
        rw [hall, hnorm] at hlive
        revert hlive
        decide +kernel
      · have hnorm : last.norm = stored 6 1 8 := mem_singleton.mp (hy ▸ mem_map_of_mem (mem_of_getLast? hlast))
        rw [← Record.norm_timestamp, hnorm] at hold
        revert hold
        decide +kernel
    · rw [PartitionLog.Mergeable, hsealed]
      decide +kernel
  · exact absurd hrecords.2.2.2 (by simp)

theorem safe_expired {d : Disk} (hsweeper : d.sweeper = ⟨1, 0, true⟩)
    (hfiles : (d.core.store.logs d.offsets.pref).map (fun l => l.segments.map fun s => s.stream.1) =
      some [.ok [stored 5 0 7], .ok [stored 6 1 8], .ok []])
    (hnone : (d.core.store.logs d.dedupPref).isNone) (orders : Orders) : d.Safe (.tick 7 orders) := by
  intro p hp l hl cs c hholds
  simp only [mem_cons, not_mem_nil, or_false] at hp
  rcases hp with rfl | rfl
  · rw [hl] at hfiles
    rw [hsweeper]
    exact spares_expired hholds (Option.some.inj hfiles)
  · rw [hl] at hnone
    cases hnone

set_option maxRecDepth 20000 in
theorem metadata_survives_sweeping_expired :
    ∃ fuel d', ([committed, again, ticked].foldl Disk.step (swept 32 ⟨1, 0, true⟩)).restart fuel = some (.ok d') ∧
      d'.offsets.lookup (utf8 "g") (utf8 "t") 0 = 8 := by
  have hsafe : Along step (swept 32 ⟨1, 0, true⟩) [committed, again, ticked] Safe := by
    refine .cons ⟨by decide +kernel, by decide +kernel, by decide, fits_of_small (by decide +kernel)⟩
      (.cons ⟨by decide +kernel, by decide +kernel, by decide, fits_of_small (by decide +kernel)⟩ (.cons ?_ .nil))
    exact safe_expired rfl (by decide +kernel) (by decide +kernel) _
  obtain ⟨enough, hall⟩ := metadata_survives_sweeping 32 ⟨[], none⟩ 0 ⟨1, 0, true⟩ (show utf8 "d" ≠ [] by decide +kernel)
    (show utf8 "d" ≠ utf8 "o" by decide +kernel) hsafe
  obtain ⟨d', hrestart, hlookup, -⟩ := hall (enough + 1) (Nat.lt_succ_self enough)
  exact ⟨enough + 1, d', hrestart, (hlookup _ _ _).trans (by decide +kernel)⟩

def checked (d : Disk) (check : Disk → Bool) : Bool :=
  match d.restart 2 with
  | some (.ok d') => check d'
  | _ => false

set_option maxRecDepth 20000 in
/-- The segment with the only commit is sealed and is deleted: after a restart there is no commit. -/
theorem sweeping_loses_commit : checked ([committed].foldl Disk.step (swept 32 ⟨1, 1, true⟩))
    (fun d => decide (d.offsets.lookup (utf8 "g") (utf8 "t") 0 = 7)) = true ∧
    checked ([committed, ticked].foldl Disk.step (swept 32 ⟨1, 1, true⟩))
      (fun d => decide (d.offsets.lookup (utf8 "g") (utf8 "t") 0 = noOffset)) = true := by
  constructor <;> decide +kernel

end Disk
end Embed
end Holocron

import Holocron.Theorems.Broker.Hydrate

/-! After a clean restart calls are decided as without it, as long as nobody publishes to the dedup topic itself. -/

namespace Holocron
open Lib Log Storage Broker Groups List

theorem key_le_encodeRecord (r : Record) : r.key.bytes.length ≤ (encodeRecord r).length := by
  simp only [length_encodeRecord, encodeBody, appendBytes, length_append]
  omega

variable {s : FileStore}

namespace Storage

theorem Contract.opened {m : Contents} (rep : Contract.Rep s m) (p : PartitionRef) :
    ∃ l, (s.openLog p).1 = .ok l ∧ l.highWater = (m p).length := by
  obtain ⟨rs, hkeeps, hrs⟩ := rep p
  obtain ⟨l, s', hopen, hready, -, -⟩ := hkeeps.opened
  exact ⟨l, by rw [hopen], by rw [hready.stores.highWater, ← hrs, length_map]⟩

end Storage

variable {p : PartitionRef} {now : Int64} {id : Bytes}

theorem readable_of_small {l : PartitionLog} {n : Int} {cp : ProducerCheckpoint}
    (small : l.Small (.append (stamp now n (dedupRecord id p cp)))) (hoffset : Signed 8 cp.lastOffset) : Readable id p cp := by
  have hbytes := Nat.lt_of_le_of_lt (key_le_encodeRecord _) (Nat.lt_of_le_of_lt (Nat.le_add_left _ _) small.1)
  have hlen : (encodeDedupKey id p).length < 2 ^ 32 := hbytes
  simp only [encodeDedupKey, length_append] at hlen
  exact ⟨by omega, by omega, hoffset⟩

variable {b : Broker FileStore} {l : Ledger} {c : Call}

/-- An append that has room is of a record that can be read back. -/
theorem Broker.Refines.readable (h : b.Refines l) (room : b.HasRoom c) (hctx : c.ctx.err = none)
    {seq : UInt64} (hkey : producerIdempKey c.record = some (id, seq)) :
    Readable id c.p ⟨seq, (l.records c.p).length, c.now⟩ := by
  have hback : c.ctx = .background := by rw [Ctx.background, ← hctx]
  obtain ⟨s', happend, rep'⟩ := Contract.append h.rep (p := c.p) (r := withTimestamp c.now c.record) c.now
    (by rw [stamp_withTimestamp]; exact room.1.room h.rep)
  obtain ⟨log, hopen, hhw⟩ := Contract.opened h.rep c.p
  obtain ⟨dlog, hdopen, -⟩ := Contract.opened rep' ⟨b.dedupTopic, 0⟩
  obtain ⟨-, -, hint⟩ := room.1.room h.rep log hopen
  exact readable_of_small ((room.2 s' _ (by rw [hback]; exact happend) id seq hkey).room rep' dlog hdopen)
    (by simp only [Signed]; omega)

namespace Broker

theorem refines_newDisk (segmentSize : Int) (registry : Topic.Registry) (ttl : Int64) (topic : Bytes) :
    (newDisk segmentSize registry ttl topic).Refines ⟨fun _ => [], fun _ _ => none⟩ :=
  ⟨fun _ => ⟨[], FileStore.ready_empty, rfl⟩, rfl⟩

theorem Refines.restart (h : b.Refines l) (offsetsTopic : Bytes) {fuel : Nat} (hfuel : ∀ p, (l.records p).length < fuel) :
    ∃ offsets b', b.restart offsetsTopic fuel = some (.ok (offsets, b')) ∧ b'.Refines (l.rehydrated b.settings) ∧
      b'.settings = b.settings := by
  have hreopened : Contract.Rep b.reopened.store l.records := Contract.reopened h.rep
  obtain ⟨s₁, hoffsets, rep₁⟩ := replay_file Entries.replayRecord hreopened ⟨offsetsTopic, 0⟩ (hfuel _) []
  obtain ⟨s₂, hhydrate, rep₂⟩ := replay_file hydrateRecord rep₁ ⟨b.dedupTopic, 0⟩ (hfuel _) fun _ => .empty
  refine ⟨⟨offsetsTopic, (l.records ⟨offsetsTopic, 0⟩).foldl Entries.replayRecord []⟩,
    { b.reopened with store := s₂, partitions := (l.records ⟨b.dedupTopic, 0⟩).foldl hydrateRecord fun _ => .empty },
      ?_, ⟨rep₂, rfl⟩, rfl⟩
  have hopen : TopicOffsetStore.openStore offsetsTopic fuel b.reopened.store =
      some (.ok ⟨offsetsTopic, (l.records ⟨offsetsTopic, 0⟩).foldl Entries.replayRecord []⟩, s₁) := by
    rw [TopicOffsetStore.openStore, hoffsets]
    rfl
  have hloaded : hydrateDedupFromTopic fuel { b.reopened with store := s₁ } =
      some (.ok { b.reopened with store := s₂, partitions := (l.records ⟨b.dedupTopic, 0⟩).foldl hydrateRecord fun _ =>
        .empty }) := by
    exact congrArg (Option.map _) hhydrate
  simp only [Broker.restart, hopen, hloaded]
  rfl

end Broker

namespace Ledger

theorem publish_length (S : Settings) (l : Ledger) (away : c.p.topic ≠ S.topic) (p : PartitionRef) :
    ((l.publish S c).2.records p).length ≤ (l.records p).length + 1 := by
  have hother : ⟨S.topic, 0⟩ ≠ c.p := fun hp => away (by rw [← hp])
  have happend : ∀ (m : Contents) q r, (m.append q r p).length ≤ (m p).length + 1 := by
    intro m q r
    by_cases hp : p = q
    · rw [hp, Contents.append_self, length_append, length_singleton]
    · rw [m.append_of_ne hp]
      exact Nat.le_succ _
  unfold publish
  split
  · exact Nat.le_succ _
  · split
    · rw [age_records]
      exact Nat.le_succ _
    · split
      · rw [age_records]
        exact Nat.le_succ _
      · simp only [note, store, age_records]
        split
        · exact happend _ _ _
        · dsimp only
          split
          · by_cases hp : p = c.p
            · rw [Contents.append_of_ne _ (hp ▸ hother.symm)]
              exact happend _ _ _
            · exact Nat.le_trans (happend _ _ _) (by rw [Contents.append_of_ne _ hp])
          · exact happend _ _ _

end Ledger

namespace Broker

theorem Refines.after_synced {S : Settings} (configured : S.topic ≠ []) {history later : List Call} {t : Int} {n : Nat}
    (h : b.Refines l) (hsettings : b.settings = S) (synced : l.Synced S t) (size : ∀ p, (l.records p).length ≤ n)
    (clock : (history ++ later).Pairwise fun c d => c.now ≤ d.now) (start : ∀ c ∈ history ++ later, t ≤ c.now.toInt)
    (away : ∀ c ∈ history, c.p.topic ≠ S.topic) (room : Along next b history HasRoom) :
    ∃ l' t', (b.after history).Refines l' ∧ (b.after history).settings = S ∧ l'.Synced S t' ∧
      (∀ p, (l'.records p).length ≤ n + history.length) ∧ ∀ c ∈ later, t' ≤ c.now.toInt := by
  induction history generalizing b l t n with
  | nil => exact ⟨l, t, h, hsettings, synced, size, start⟩
  | cons c history ih =>
    obtain ⟨hroom, htail⟩ := Along.cons_iff.mp room
    obtain ⟨-, hcall⟩ := h.call hroom
    rw [hsettings] at hcall
    have haway := away c mem_cons_self
    have hsynced := synced.publish (start c mem_cons_self) configured haway fun hctx id seq hkey => h.readable hroom hctx hkey
    have hlater : ∀ d ∈ history ++ later, c.now.toInt ≤ d.now.toInt := fun d hd =>
      Int64.le_iff_toInt_le.mp (rel_of_pairwise_cons clock hd)
    obtain ⟨l', t', hrefines, hset, hsync, hsize, hclock⟩ := ih hcall ((settings_call b c).trans hsettings) hsynced
      (fun p => Nat.le_trans (l.publish_length S haway p) (Nat.succ_le_succ (size p))) clock.of_cons hlater
      (fun d hd => away d (mem_cons_of_mem c hd)) htail
    refine ⟨l', t', hrefines, hset, hsync, fun p => ?_, hclock⟩
    have := hsize p
    rw [length_cons]
    omega

/-- Brokers over twin ledgers decide every call alike. -/
theorem Refines.run_twin {S : Settings} {calls : List Call} {b' : Broker FileStore} {l' : Ledger} {t : Int} (h : b.Refines l)
    (h' : b'.Refines l') (hsettings : b.settings = S) (hsettings' : b'.settings = S) (twin : l.Twin S t l')
    (clock : calls.Pairwise fun c d => c.now ≤ d.now) (start : ∀ c ∈ calls, t ≤ c.now.toInt) (room : Along next b calls HasRoom)
    (room' : Along next b' calls HasRoom) {done : List Call} {rest : List Call} (split : calls = done ++ c :: rest) :
    (b'.after done).decision c = (b.after done).decision c := by
  induction done generalizing calls b b' l l' t with
  | nil =>
    subst split
    obtain ⟨hdecision, -⟩ := h.call (Along.cons_iff.mp room).1
    obtain ⟨hdecision', -⟩ := h'.call (Along.cons_iff.mp room').1
    rw [hsettings] at hdecision
    rw [hsettings'] at hdecision'
    exact hdecision'.trans ((twin.publish (start c mem_cons_self)).1.symm.trans hdecision.symm)
  | cons d done ih =>
    subst split
    obtain ⟨hroom, htail⟩ := Along.cons_iff.mp room
    obtain ⟨hroom', htail'⟩ := Along.cons_iff.mp room'
    obtain ⟨-, hcall⟩ := h.call hroom
    obtain ⟨-, hcall'⟩ := h'.call hroom'
    rw [hsettings] at hcall
    rw [hsettings'] at hcall'
    have hlater : ∀ x ∈ done ++ c :: rest, d.now.toInt ≤ x.now.toInt := fun x hx =>
      Int64.le_iff_toInt_le.mp (rel_of_pairwise_cons clock hx)
    exact ih hcall hcall' ((settings_call b d).trans hsettings) ((settings_call b' d).trans hsettings')
      (twin.publish (start d mem_cons_self)).2 clock.of_cons hlater htail htail' rfl

/-- A broker that was restarted after calls that are not on the dedup topic decides and answers every later call as the
    broker that was not. -/
theorem dedup_survives_restart (segmentSize : Int) (registry : Topic.Registry) (ttl : Int64) {topic : Bytes}
    (configured : topic ≠ [])
    (offsetsTopic : Bytes) {history later : List Call} (clock : (history ++ later).Pairwise fun c d => c.now ≤ d.now)
    (away : ∀ c ∈ history, c.p.topic ≠ topic)
      (room : Along next (newDisk segmentSize registry ttl topic) (history ++ later) HasRoom)
    {fuel : Nat} (hfuel : history.length < fuel) :
    ∃ offsets b', ((newDisk segmentSize registry ttl topic).after history).restart offsetsTopic fuel =
      some (.ok (offsets, b')) ∧ (Along next b' later HasRoom → ∀ done c rest, later = done ++ c :: rest →
        (b'.after done).decision c = ((newDisk segmentSize registry ttl topic).after (history ++ done)).decision c ∧
        returned ((b'.after done).call c).1 =
          returned (((newDisk segmentSize registry ttl topic).after (history ++ done)).call c).1) := by
  have hstart : ∀ c ∈ history ++ later, -2 ^ 63 ≤ c.now.toInt := fun c _ => c.now.le_toInt
  obtain ⟨l, t, hrefines, hsettings, hsynced, hsize, hclock⟩ := (refines_newDisk segmentSize registry ttl topic).after_synced
    (n := 0) (S := (newDisk segmentSize registry ttl topic).settings) configured rfl ⟨rfl, fun _ _ => .inl rfl⟩
      (fun _ => Nat.le_refl 0)
    clock hstart away room.of_append
  obtain ⟨offsets, b', hrestart, hrefines', hsettings'⟩ := hrefines.restart offsetsTopic
    fun p => Nat.lt_of_le_of_lt ((hsize p).trans (Nat.le_of_eq (Nat.zero_add _))) hfuel
  rw [hsettings] at hrefines' hsettings'
  refine ⟨offsets, b', hrestart, fun room' done c rest hsplit => ?_⟩
  have hdecision := hrefines.run_twin hrefines' hsettings hsettings' hsynced (pairwise_append.mp clock).2.1 hclock
    room.of_append_right room' hsplit
  rw [← after_append] at hdecision
  exact ⟨hdecision, by rw [returned_call, returned_call, hdecision]⟩

def small (s : FileStore) (now : Int64) (p : PartitionRef) (r : Record) : Bool :=
  match (s.openLog p).1 with
  | .error _ => true
  | .ok l => decide (l.Small (.append (stamp now l.highWater r)))

theorem fits_of_small {r : Record} (h : small s now p r = true) : Fits s now p r := by
  intro hw s' hhw l hopen
  unfold small at h
  cases hlog : s.openLog p with
  | mk res s₁ =>
    rw [hlog] at hopen h
    obtain rfl : res = .ok l := hopen
    simp only [Store.highWater, FileStore.highWater, hlog] at hhw
    exact of_decide_eq_true h

def roomy (b : Broker FileStore) (c : Call) : Bool :=
  small b.store c.now c.p c.record &&
    match Store.append b.store c.ctx c.now c.p (withTimestamp c.now c.record), producerIdempKey c.record with
    | (.ok n, s'), some (id, seq) => small s' c.now ⟨b.dedupTopic, 0⟩ (dedupRecord id c.p ⟨seq, n, c.now⟩)
    | _, _ => true

theorem hasRoom_of_roomy (h : roomy b c = true) : b.HasRoom c := by
  obtain ⟨hrecord, hcheckpoint⟩ := Bool.and_eq_true_iff.mp h
  refine ⟨fits_of_small hrecord, fun s' n happend id seq hkey => fits_of_small ?_⟩
  simpa only [happend, hkey] using hcheckpoint

def disk : Broker FileStore := newDisk 1024 ⟨[⟨utf8 "t", 1, 0, 0⟩, ⟨utf8 "d", 1, 0, 0⟩], none⟩ 0 (utf8 "d")

def restarted (history : List Call) (check : Broker FileStore → Bool) : Bool :=
  match (disk.after history).restart (utf8 "o") 2 with
  | some (.ok (_, b')) => check b'
  | _ => false

theorem restarted_elim {history : List Call} {check : Broker FileStore → Bool} (h : restarted history check = true) :
    ∃ offsets b', (disk.after history).restart (utf8 "o") 2 = some (.ok (offsets, b')) ∧ check b' = true := by
  unfold restarted at h
  split at h
  · rename_i offsets b' heq
    exact ⟨offsets, b', heq, h⟩
  · cases h

set_option maxRecDepth 20000 in
theorem dedup_survives_restart_retried :
    ∃ offsets b', (disk.after [numbered 1]).restart (utf8 "o") 2 = some (.ok (offsets, b')) ∧
    b'.decision (numbered 1) = (disk.after [numbered 1]).decision (numbered 1) ∧
      (disk.after [numbered 1]).decision (numbered 1) = .duplicate 0 := by
  have hroom : Along next disk ([numbered 1] ++ [numbered 1]) HasRoom :=
    .cons (hasRoom_of_roomy (by decide +kernel)) (.cons (hasRoom_of_roomy (by decide +kernel)) .nil)
  obtain ⟨offsets, b', hrestart, hsame⟩ := dedup_survives_restart 1024 _ 0 (show utf8 "d" ≠ [] by decide +kernel) (utf8 "o")
    (by decide +kernel) (by decide +kernel) hroom (show 1 < 2 by decide)
  obtain ⟨_, _, hrestart', hroomy⟩ :=
    restarted_elim (show restarted [numbered 1] (roomy · (numbered 1)) = true by decide +kernel)
  obtain rfl : b' = _ := (Prod.mk.inj (Except.ok.inj (Option.some.inj (hrestart.symm.trans hrestart')))).2
  obtain ⟨hdecision, -⟩ := hsame (.cons (hasRoom_of_roomy hroomy) .nil) [] (numbered 1) [] rfl
  exact ⟨offsets, b', hrestart, hdecision, by decide +kernel⟩

def onDedupTopic : Call := { numbered 1 with p := ⟨utf8 "d", 0⟩ }

set_option maxRecDepth 20000 in
/-- Its checkpoint is kept in memory only: the broker that was restarted stores the retry as a new record. -/
theorem dedup_topic_not_covered : ∃ offsets b', (disk.after [onDedupTopic]).restart (utf8 "o") 2 = some (.ok (offsets, b')) ∧
    b'.decision onDedupTopic = .appended 1 ∧ (disk.after [onDedupTopic]).decision onDedupTopic = .duplicate 0 := by
  obtain ⟨offsets, b', hrestart, hdecision⟩ := restarted_elim
    (show restarted [onDedupTopic] (fun b => decide (b.decision onDedupTopic = .appended 1)) = true by decide +kernel)
  exact ⟨offsets, b', hrestart, of_decide_eq_true hdecision, by decide +kernel⟩

end Broker
end Holocron

import Holocron.Proto.Encode
import Holocron.Server.Handlers
import Holocron.Theorems.Broker.Publish
import Holocron.Theorems.Storage.Observe

/-! A produce batch that fails: its records are published one by one, and those before the failure stay. -/

namespace Holocron.Server
open Lib Log Storage Wire List

variable {σ : Type} [Store σ]

/-- Where the next record of the partition goes. -/
def mark (s : σ) (p : PartitionRef) : Except StoreError Int := (Store.highWater s .background p).1

/-- An append that succeeds moves the high-water mark of its partition by one and no other. One that fails has moved
    it or not: `Append` of a file log rolls the segment over after it has written the record. -/
class Marked (σ : Type) [Store σ] : Prop where
  append_ok {s s' : σ} {now : Int64} {p : PartitionRef} {r : Record} {n : Int}
    (h : Store.append s .background now p r = (.ok n, s')) : mark s p = .ok n ∧ mark s' p = .ok (n + 1)
  append_error {s s' : σ} {now : Int64} {p : PartitionRef} {r : Record} {e : StoreError}
    (h : Store.append s .background now p r = (.error e, s')) :
    mark s' p = mark s p ∨ ∃ n, mark s p = .ok n ∧ mark s' p = .ok (n + 1)
  append_other (s : σ) (now : Int64) {p q : PartitionRef} (r : Record) (hq : q ≠ p) :
    mark (Store.append s .background now p r).2 q = mark s q

instance : Marked MemoryStore where
  append_ok {s s' now p r n} h := by
    cases h
    refine ⟨rfl, ?_⟩
    simp [mark, Store.highWater, MemoryStore.highWater, guarded, Ctx.background, MemoryStore.get]
  append_error h := by cases h
  append_other s now p q r hq := by
    simp [mark, Store.highWater, Store.append, MemoryStore.append, MemoryStore.highWater, guarded, Ctx.background,
      MemoryStore.get, Function.update_of_ne hq]

theorem highWater_segmentAppend {s s' : Segment} {r : Record} {n : Int} (h : s.append r = .ok (n, s')) :
    n = r.offset ∧ s'.highWater = r.offset + 1 := by
  unfold Segment.append at h
  cases hbuf : s.logBuf with
  | none => simp [hbuf] at h
  | some buf =>
    simp only [hbuf, Except.ok.injEq, Prod.mk.injEq] at h
    obtain ⟨rfl, rfl⟩ := h
    exact ⟨rfl, rfl⟩

/-- An append writes the record at its offset and rolls over or not: either way the log ends behind it. -/
theorem highWater_append {l l' : PartitionLog} {r : Record} {n : Int} (h : l.append r = .ok (n, l')) :
    n = r.offset ∧ l'.highWater = r.offset + 1 := by
  unfold PartitionLog.append at h
  cases happ : l.active.append r with
  | error e => simp [happ, bind, Except.bind] at h
  | ok x =>
    obtain ⟨hoff, hmark⟩ := highWater_segmentAppend happ
    simp only [happ, bind, Except.bind, Except.ok.injEq, Prod.mk.injEq] at h
    obtain ⟨rfl, rfl⟩ := h
    refine ⟨hoff, ?_⟩
    split <;> exact hmark

section
variable {s s' : FileStore} {p : PartitionRef}

theorem mark_eq_openLog (s : FileStore) (p : PartitionRef) : mark s p = (s.openLog p).1.map PartitionLog.highWater := by
  simp only [mark, Store.highWater, FileStore.highWater_eq, Ctx.background]

theorem mark_setLog (s : FileStore) (p : PartitionRef) (l : PartitionLog) : mark (s.setLog p l) p = .ok l.highWater := by
  rw [mark_eq_openLog, FileStore.openLog_of_logs (l := l) (by simp [FileStore.setLog])]
  rfl

theorem mark_openLog (s : FileStore) (p q : PartitionRef) : mark (s.openLog p).2 q = mark s q := by
  rw [mark_eq_openLog, mark_eq_openLog, FileStore.openLog_again]

theorem mark_setLog_of_ne (s : FileStore) {q : PartitionRef} (l : PartitionLog) (hq : q ≠ p) :
    mark (s.setLog p l) q = mark s q := by
  rw [mark_eq_openLog, mark_eq_openLog, FileStore.setLog_openLog hq]

end

instance : Marked FileStore where
  append_ok {s s' now p r n} h := by
    have hmark := mark_eq_openLog s p
    simp only [Store.append, FileStore.append, guarded, Ctx.background] at h
    cases hopen : s.openLog p with
    | mk res s₁ =>
      cases res with
      | error e => simp [hopen] at h
      | ok l =>
        cases happ : l.append (stamp now l.highWater r) with
        | error e => simp [hopen, happ] at h
        | ok x =>
          obtain ⟨hoff, hend⟩ := highWater_append happ
          simp only [hopen, happ, Prod.mk.injEq, Except.ok.injEq] at h
          obtain ⟨rfl, rfl⟩ := h
          rw [hmark, hopen, mark_setLog, hend, hoff]
          exact ⟨rfl, rfl⟩
  append_error {s s' now p r e} h := by
    have hagain := mark_openLog s p p
    simp only [Store.append, FileStore.append, guarded, Ctx.background] at h
    cases hopen : s.openLog p with
    | mk res s₁ =>
      rw [hopen] at hagain
      cases res with
      | error e =>
        simp only [hopen, Prod.mk.injEq] at h
        exact .inl (h.2 ▸ hagain)
      | ok l =>
        cases happ : l.append (stamp now l.highWater r) with
        | error e =>
          simp only [hopen, happ, Prod.mk.injEq] at h
          exact .inl (h.2 ▸ hagain)
        | ok x => simp [hopen, happ] at h
  append_other s now {p q} r hq := by
    have hagain := mark_openLog s p q
    simp only [Store.append, FileStore.append, guarded, Ctx.background]
    cases hopen : s.openLog p with
    | mk res s₁ =>
      rw [hopen] at hagain
      cases res with
      | error e => exact hagain
      | ok l =>
        cases happ : l.append (stamp now l.highWater r) with
        | error e => simpa only [happ] using hagain
        | ok x => simpa only [happ, mark_setLog_of_ne _ _ hq] using hagain

/-- What an append runs into: an error before the record is written, or one after it. -/
inductive Fault where
  | before (e : LogError)
  | after (e : LogError)

/-- A store whose appends fail as told, one outcome for each. -/
structure Faulty (σ : Type) where
  store : σ
  faults : List (Option Fault)

def Faulty.append (s : Faulty σ) (ctx : Ctx) (now : Int64) (p : PartitionRef) (r : Record) :
    Except StoreError Int × Faulty σ :=
  let done := Store.append s.store ctx now p r
  match s.faults.head?.join with
  | none => (done.1, ⟨done.2, s.faults.tail⟩)
  | some (.before e) => (.error (.log e), ⟨s.store, s.faults.tail⟩)
  | some (.after e) => (.error (.log e), ⟨done.2, s.faults.tail⟩)

instance : Store (Faulty σ) where
  append := Faulty.append
  read s ctx p n m := ((Store.read s.store ctx p n m).1, { s with store := (Store.read s.store ctx p n m).2 })
  readPanics s := Store.readPanics s.store
  highWater s ctx p := ((Store.highWater s.store ctx p).1, { s with store := (Store.highWater s.store ctx p).2 })
  sync s ctx p := ((Store.sync s.store ctx p).1, { s with store := (Store.sync s.store ctx p).2 })
  deleteTopic s ctx topic :=
    ((Store.deleteTopic s.store ctx topic).1, { s with store := (Store.deleteTopic s.store ctx topic).2 })

theorem Marked.append_any [Marked σ] (s : σ) (now : Int64) (p : PartitionRef) (r : Record) :
    mark (Store.append s .background now p r).2 p = mark s p ∨
      ∃ n, mark s p = .ok n ∧ mark (Store.append s .background now p r).2 p = .ok (n + 1) := by
  cases happ : Store.append s .background now p r with
  | mk res s' =>
    cases res with
    | error e => exact append_error happ
    | ok n => exact .inr ⟨n, append_ok happ⟩

instance [Marked σ] : Marked (Faulty σ) where
  append_ok {s s' now p r n} h := by
    simp only [Store.append, Faulty.append] at h
    split at h
    · cases happ : Store.append s.store .background now p r with
      | mk res done =>
        rw [happ] at h
        cases h
        exact Marked.append_ok (σ := σ) happ
    · cases h
    · cases h
  append_error {s s' now p r e} h := by
    have hany := Marked.append_any s.store now p r
    simp only [Store.append, Faulty.append] at h
    split at h
    · cases (Prod.mk.inj h).2
      exact hany
    · cases h
      exact .inl rfl
    · cases h
      exact hany
  append_other s now {p q} r hq := by
    have hother := Marked.append_other s.store now r hq
    simp only [Store.append, Faulty.append]
    split
    · exact hother
    · rfl
    · exact hother

/-- The mark was moved on. -/
def Advanced (before after : Except StoreError Int) : Prop := ∃ n m, before = .ok n ∧ after = .ok m ∧ n < m

theorem Advanced.ne {before after : Except StoreError Int} (h : Advanced before after) : after ≠ before := by
  obtain ⟨n, m, rfl, rfl, hlt⟩ := h
  simpa using hlt.ne'

theorem Advanced.trans {x y z : Except StoreError Int} (h : Advanced x y) (h' : z = y ∨ Advanced y z) : Advanced x z := by
  obtain ⟨n, m, rfl, rfl, hlt⟩ := h
  rcases h' with rfl | ⟨n', k, hn, rfl, hlt'⟩
  · exact ⟨n, m, rfl, rfl, hlt⟩
  · cases hn
    exact ⟨n, k, rfl, rfl, hlt.trans hlt'⟩

/-- The dedup table answers the call, and nothing is appended. -/
def Repeats (b : Broker σ) (c : Broker.Call) : Prop :=
  (((b.evictFor (producerIdempKey c.record) c.now c.p).partitions c.p).duplicate (producerIdempKey c.record)).isSome

instance (b : Broker σ) (c : Broker.Call) : Decidable (Repeats b c) := inferInstanceAs (Decidable (_ = true))

/-- Publishing the calls up to the first that fails moves no mark: each of those before it is a repetition, and the
    failing one stores nothing either. -/
def Harmless (b : Broker σ) : List Broker.Call → Prop
  | [] => True
  | c :: rest =>
    if (b.call c).1.isOk then Repeats b c ∧ Harmless (b.call c).2 rest
    else mark (b.call c).2.store c.p = mark b.store c.p

instance Harmless.decidable : (b : Broker σ) → (calls : List Broker.Call) → Decidable (Harmless b calls)
  | _, [] => isTrue trivial
  | b, c :: rest =>
    have := Harmless.decidable (b.call c).2 rest
    decidable_of_iff (if (b.call c).1.isOk then Repeats b c ∧ Harmless (b.call c).2 rest
      else mark (b.call c).2.store c.p = mark b.store c.p) (by rw [Harmless])

section
variable [Marked σ] {b b' : Broker σ} {c : Broker.Call} {p : PartitionRef}

theorem mark_remember (b : Broker σ) (now : Int64) (p : PartitionRef) (offset : Int) (key : Option (Bytes × UInt64)) :
    mark (b.remember now p offset key).store p = mark b.store p := by
  cases key with
  | none => rfl
  | some key =>
    unfold Broker.remember
    dsimp only
    split
    · next htopic =>
      unfold Broker.persistDedupCheckpoint
      split
      · rfl
      · exact Marked.append_other _ _ _ fun hp => htopic (congrArg PartitionRef.topic hp)
    · rfl

/-- A call as a batch makes it: with no context to wait for, and nobody interrupts its fan-out. -/
def Batched (p : PartitionRef) (c : Broker.Call) : Prop := c = ⟨⟨.background, c.now, none⟩, p, c.record⟩

theorem mark_of_ok {n : Int} (hc : Batched p c) (h : b.call c = (.ok n, b')) :
    Repeats b c ∧ mark b'.store p = mark b.store p ∨ ¬ Repeats b c ∧ Advanced (mark b.store p) (mark b'.store p) := by
  obtain ⟨hstore, -⟩ := Broker.evictFor_same b (producerIdempKey c.record) c.now p
  rw [hc] at h ⊢
  simp only [Broker.call, Broker.publish] at h
  simp only [Repeats]
  split at h
  · cases h
  · generalize b.evictFor (producerIdempKey c.record) c.now p = b₀ at h hstore ⊢
    rw [← hstore]
    split at h
    · next hdup =>
      cases h
      exact .inl ⟨by rw [hdup]; rfl, rfl⟩
    · next hdup =>
      split at h
      · cases h
      · next offset s happ =>
        obtain ⟨hbefore, hafter⟩ := Marked.append_ok happ
        refine .inr ⟨by simp [hdup], ?_⟩
        cases (Prod.mk.inj h).2
        exact ⟨offset, offset + 1, hbefore, (mark_remember _ _ _ _ _).trans hafter, by omega⟩

theorem mark_of_error {e : BrokerError} (hc : Batched p c) (h : b.call c = (.error e, b')) :
    mark b'.store p = mark b.store p ∨ Advanced (mark b.store p) (mark b'.store p) := by
  obtain ⟨hstore, -⟩ := Broker.evictFor_same b (producerIdempKey c.record) c.now p
  rw [hc] at h
  simp only [Broker.call, Broker.publish] at h
  split at h
  · cases h
    exact .inl rfl
  · generalize b.evictFor (producerIdempKey c.record) c.now p = b₀ at h hstore
    rw [← hstore]
    split at h
    · cases h
    · split at h
      · next s happ =>
        cases h
        refine (Marked.append_error happ).imp_right fun hmoved => ?_
        obtain ⟨n, hn, hn'⟩ := hmoved
        exact ⟨n, n + 1, hn, hn', by omega⟩
      · -- nobody interrupts the fan-out
        simp [PartitionState.fanOut] at h

/-- The records of a batch are published until one fails. The mark then stands where it stood just when the run was
    harmless. -/
theorem publishAll_mark {calls : List Broker.Call} {e : BrokerError} (hcalls : ∀ c ∈ calls, Batched p c)
    (h : b.publishAll calls = (.error e, b')) :
    Harmless b calls ∧ mark b'.store p = mark b.store p ∨
      ¬ Harmless b calls ∧ Advanced (mark b.store p) (mark b'.store p) := by
  induction calls generalizing b with
  | nil => cases h
  | cons c calls ih =>
    have hc := hcalls c mem_cons_self
    have hp : c.p = p := by rw [hc]
    unfold Broker.publishAll at h
    unfold Harmless
    cases hcall : b.call c with
    | mk res b₁ =>
      rw [hcall] at h
      cases res with
      | error e =>
        cases h
        subst hp
        simp only [Except.isOk, Except.toBool, Bool.false_eq_true, ↓reduceIte]
        exact (mark_of_error hc hcall).imp (fun hsame => ⟨hsame, hsame⟩) fun hmoved => ⟨hmoved.ne, hmoved⟩
      | ok n =>
        have hrest := ih (fun c hc => hcalls c (mem_cons_of_mem _ hc)) h
        simp only [Except.isOk, Except.toBool, ↓reduceIte]
        rcases mark_of_ok hc hcall with ⟨hrep, hsame⟩ | ⟨hrep, hmoved⟩
        · rw [hsame] at hrest
          exact hrest.imp (fun hrest => ⟨⟨hrep, hrest.1⟩, hrest.2⟩) fun hrest => ⟨fun hall => hrest.1 hall.2, hrest.2⟩
        · exact .inr ⟨fun hall => hrep hall.1, hmoved.trans (hrest.imp And.right And.right)⟩

omit [Marked σ] in
theorem publishBatch_error {calls : List Broker.Call} {e : BrokerError} (h : b.publishBatch calls = (.error e, b')) :
    b.publishAll calls = (.error e, b') := by
  cases calls with
  | nil => cases h
  | cons c calls =>
    simp only [Broker.publishBatch] at h
    simp only [Broker.publishAll]
    split at h
    · cases h
      rfl
    · split at h
      · next hrest =>
        cases h
        exact hrest
      · cases h

end

def noLz4 : Lz4 := ⟨fun _ => none, fun _ _ => none⟩

/-- A record of an idempotent producer. -/
def numbered (seq : UInt8) : Record :=
  ⟨0, 5, none, some [seq], [⟨headerProducerID, some (utf8 "p")⟩, ⟨headerProducerSeq, some [0, 0, 0, 0, 0, 0, 0, seq]⟩]⟩

def twoRequest : ProduceBatchRequest := ⟨utf8 "t", 0, codecNone, [numbered 1, numbered 2], 0⟩

def twoRecords : Bytes := twoRequest.encode ⟨noLz4, fun _ _ => none⟩

def send (b : Broker (Faulty MemoryStore)) : Except RequestError Bytes × Broker (Faulty MemoryStore) :=
  handleProduceBatch noLz4 ⟨fun _ _ => true, none, none⟩ (fun _ => 7) b twoRecords

/-- The store takes the first record and fails the second one. -/
def sentOnce : Except RequestError Bytes × Broker (Faulty MemoryStore) :=
  send ⟨⟨.new, [none, some (.before .readOnly), some (.before .readOnly), some (.after .readOnly)]⟩,
    ⟨[⟨utf8 "t", 1, 0, 0⟩], none⟩, 0, [], fun _ => .empty⟩

def sentTwice : Except RequestError Bytes × Broker (Faulty MemoryStore) := send sentOnce.2

-- the third time the failing append has stored the record
example : ¬ Harmless sentTwice.2 (batchCalls (fun _ => 7) twoRequest) ∧
    (send sentTwice.2).2.store.store.get ⟨utf8 "t", 0⟩ = [numbered 1, { numbered 2 with offset := 1 }] := by
  decide +kernel

end Holocron.Server

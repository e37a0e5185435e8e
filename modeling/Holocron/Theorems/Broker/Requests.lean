import Holocron.Broker.Requests
import Holocron.Theorems.Broker.Batch
import Holocron.Theorems.Broker.Delivery

/-! A batch lands in one piece where nobody stores in between and none of its records is taken for a retry. -/

namespace Holocron.Requests
open Lib Log Storage Broker Subscribe List

variable {c : Call} {r : Record}

section
variable {σ : Type}

def answered (b : Broker σ) (c : Call) : Option Int :=
  ((b.evictFor (producerIdempKey c.record) c.now c.p).partitions c.p).duplicate (producerIdempKey c.record)

variable [Store σ]

theorem call_snd (b : Broker σ) (c : Call) : (b.call c).2 = b ∨ (b.call c).2 = (appendLocked b c).2 := by
  have hpublish : (State.publish (.start b) c).broker = (b.call c).2 := publish_broker rfl
  rw [← hpublish]
  unfold State.publish
  split
  · split <;> rename_i h <;> exact .inr (congrArg Prod.snd h).symm
  · exact .inl rfl

omit [Store σ] in
theorem not_checkpoints_self (b : Broker σ) (c : Call) : ¬ Checkpoints b c c.p := by
  rintro ⟨-, htopic, -, hp⟩
  exact htopic (by rw [hp])

variable [Served σ] {p : PartitionRef} {rs : List Record} {next : Int}

theorem rep_call_other {b : Broker σ} (rep : Served.Rep b.store p rs next) (hc : c.p ≠ p) (quiet : ¬ Checkpoints b c p) :
    Served.Rep (b.call c).2.store p rs next := by
  rcases call_snd b c with h | h
  · rwa [h]
  · rw [h]
    exact rep_appendLocked_other rep hc quiet

/-- A call on the partition: the dedup table answers it or it fails, or it stores the record at the next offset. -/
theorem call_self {b : Broker σ} (rep : Served.Rep b.store c.p rs next) (fits : Served.Fits b.store c.now c.p c.record) :
    (Served.Rep (b.call c).2.store c.p rs next ∧ ∀ n, (b.call c).1 = .ok n → answered b c = some n) ∨
    ∃ x, x.norm = (stamp c.now next c.record).norm ∧ Served.Rep (b.call c).2.store c.p (rs ++ [x]) (next + 1) ∧
      ∀ n, (b.call c).1 = .ok n → n = next := by
  obtain ⟨hstore, htopic, -⟩ := evictFor_same b (producerIdempKey c.record) c.now c.p
  unfold answered
  cases hvalid : b.validate c.p with
  | error e =>
    simp only [call, publish, hvalid]
    exact .inl ⟨rep, fun _ h => by cases h⟩
  | ok u =>
    simp only [call, publish, hvalid]
    generalize hb : b.evictFor (producerIdempKey c.record) c.now c.p = b' at hstore htopic ⊢
    rw [← hstore] at rep fits
    cases hdup : (b'.partitions c.p).duplicate (producerIdempKey c.record) with
    | some n => exact .inl ⟨rep, fun m hm => congrArg some (Except.ok.inj hm)⟩
    | none =>
      rcases ctx_cases c.ctx with hctx | ⟨e, hctx⟩
      · obtain ⟨s', happend, rep'⟩ := Served.append rep c.now (r := withTimestamp c.now c.record)
          (by rw [stamp_withTimestamp]; exact fits.room rep)
        rw [stamp_withTimestamp] at rep'
        simp only [hctx, happend]
        refine .inr ⟨_, (Served.norm_view _ : (Served.view σ _).norm = _), ?_, fun n hn => fanOut_offset hn⟩
        exact rep_remember (b := { b' with store := s' }) rep' c next (not_checkpoints_self _ c)
      · simp only [hctx, Served.append_done]
        exact .inl ⟨rep, fun _ h => by cases h⟩

end

def Batch.Open (x : Batch) : Prop := 0 < x.published ∧ x.published < x.records.length ∧ x.failed = none

instance (x : Batch) : Decidable x.Open := inferInstanceAs (Decidable (_ ∧ _))

structure Batch.Landed (x : Batch) (rs : List Record) (next : Int) : Prop where
  count : x.published ≤ x.records.length
  stored : ∀ (i : Nat) r, i < x.published → x.records[i]? = some r → ∃ y ∈ rs, y.offset = x.baseOffset + i ∧ Carries y r
  last : x.Open → next = x.baseOffset + x.published

section
variable {x : Batch} {rs : List Record} {next : Int} (h : x.Landed rs next)
include h

theorem Batch.Landed.grow (closed : ¬ x.Open) (y : Record) (next' : Int) :
    x.Landed (rs ++ [y]) next' where
  count := h.count
  stored i r hi hr := by
    obtain ⟨z, hz, hoff, hcarries⟩ := h.stored i r hi hr
    exact ⟨z, mem_append_left _ hz, hoff, hcarries⟩
  last hopen := absurd hopen closed

theorem Batch.Landed.fail (e : BrokerError) (next' : Int) :
    (x.advance (.error e)).Landed rs next' :=
  ⟨h.count, h.stored, fun hopen => by cases hopen.2.2⟩

theorem Batch.Landed.advance (running : x.failed = none)
    (hr : x.records[x.published]? = some r) {y : Record} (hoff : y.offset = next) (carries : Carries y r) :
    (x.advance (.ok next)).Landed (rs ++ [y]) (next + 1) := by
  have hlt := (List.getElem?_eq_some_iff.mp hr).1
  -- the base of a batch that has published nothing is the offset of this record
  have hbase : (x.advance (.ok next)).baseOffset + x.published = next := by
    by_cases hzero : x.published = 0
    · simp [Batch.advance, hzero]
    · simp only [Batch.advance, if_neg hzero]
      exact (h.last ⟨Nat.pos_of_ne_zero hzero, hlt, running⟩).symm
  refine ⟨hlt, fun i r' hi hr' => ?_, fun _ => ?_⟩
  · rcases Nat.lt_succ_iff_lt_or_eq.mp hi with hi | rfl
    · obtain ⟨z, hz, hzoff, hzcarries⟩ := h.stored i r' hi hr'
      have hsame : (x.advance (.ok next)).baseOffset = x.baseOffset := if_neg (by omega)
      exact ⟨z, mem_append_left _ hz, by rw [hsame, hzoff], hzcarries⟩
    · obtain rfl : r = r' := Option.some.inj (hr.symm.trans hr')
      exact ⟨y, mem_append_right _ (mem_singleton_self y), by rw [hbase, hoff], carries⟩
  · show next + 1 = (x.advance (.ok next)).baseOffset + (x.published + 1 : Nat)
    omega

end

section
variable {σ : Type} [Store σ] [Served σ] {k : Nat}

/-- A call of batch `k`, or of none, finds room, writes no checkpoint to the partition, and comes on it only when no
    other batch there is open. -/
structure Undisturbed (p : PartitionRef) (s : State σ) (c : Call) (k : Option Nat) : Prop where
  quiet : ¬ Checkpoints s.broker c p
  fits : c.p = p → Served.Fits s.broker.store c.now p c.record
  alone : c.p = p → ∀ (j : Nat) x, s.batches[j]? = some x → k ≠ some j → x.p = p → ¬ x.Open

/-- Every call is undisturbed, and one for the partition is not answered as a duplicate within a batch. -/
def Orderly (p : PartitionRef) (s : State σ) (a : Action) : Prop :=
  ∀ c, s.callOf a = some c →
    match a with
    | .next k _ => Undisturbed p s c (some k) ∧ (c.p = p → answered s.broker c = none)
    | _ => Undisturbed p s c none

def Inv (p : PartitionRef) (s : State σ) : Prop :=
  ∃ rs next, Served.Rep s.broker.store p rs next ∧ ∀ x ∈ s.batches, x.p = p → x.Landed rs next

theorem of_mem_modify {α : Type} {l : List α} {f : α → α} {y : α} (h : y ∈ l.modify k f) :
    (∃ j, j ≠ k ∧ l[j]? = some y) ∨ ∃ x, l[k]? = some x ∧ y = f x := by
  obtain ⟨j, hj⟩ := mem_iff_getElem?.mp h
  rw [getElem?_modify] at hj
  cases hx : l[j]? with
  | none =>
    rw [hx] at hj
    cases hj
  | some x =>
    rw [hx] at hj
    have hy : (if k = j then f x else x) = y := Option.some.inj hj
    by_cases hk : k = j
    · rw [if_pos hk] at hy
      exact .inr ⟨x, hk ▸ hx, hy.symm⟩
    · rw [if_neg hk] at hy
      exact .inl ⟨j, Ne.symm hk, by rw [hx, hy]⟩

variable {p : PartitionRef} {s : State σ} {a : Action} {rs : List Record} {env : Env}

omit [Store σ] [Served σ] in
theorem callOf_next (h : s.callOf (.next k env) = some c) :
    ∃ x r, s.batches[k]? = some x ∧ x.failed = none ∧ x.records[x.published]? = some r ∧ c = ⟨env, x.p, r⟩ := by
  simp only [State.callOf] at h
  cases hx : s.batches[k]? with
  | none =>
    rw [hx] at h
    cases h
  | some x =>
    simp only [hx] at h
    split at h
    · cases h
    · rename_i hfailed
      obtain ⟨r, hr, rfl⟩ := Option.map_eq_some_iff.mp h
      exact ⟨x, r, rfl, by simpa using hfailed, hr, rfl⟩

theorem Inv.publish (inv : Inv p s) (undisturbed : Undisturbed p s c none) : Inv p (s.step (.publish c)) := by
  obtain ⟨rs, next, rep, landed⟩ := inv
  by_cases hc : c.p = p
  · subst hc
    rcases call_self rep (undisturbed.fits rfl) with ⟨rep', -⟩ | ⟨y, -, rep', -⟩
    · exact ⟨rs, next, rep', landed⟩
    · refine ⟨rs ++ [y], next + 1, rep', fun x hx hp => ?_⟩
      obtain ⟨j, hj⟩ := mem_iff_getElem?.mp hx
      exact (landed x hx hp).grow (undisturbed.alone rfl j x hj nofun hp) y _
  · exact ⟨rs, next, rep_call_other rep hc undisturbed.quiet, landed⟩

theorem Inv.next (inv : Inv p s) (hcall : s.callOf (.next k env) = some c)
    (undisturbed : Undisturbed p s c (some k)) (fresh : c.p = p → answered s.broker c = none) :
      Inv p (s.step (.next k env)) := by
  obtain ⟨x, r, hx, running, hr, rfl⟩ := callOf_next hcall
  obtain ⟨rs, next, rep, landed⟩ := inv
  have hmem : x ∈ s.batches := mem_of_getElem? hx
  have hbatches : (s.step (.next k env)).batches = s.batches.modify k (·.advance (s.broker.call ⟨env, x.p, r⟩).1) := by
    simp only [State.step, hcall, State.record]
  have hbroker : (s.step (.next k env)).broker = (s.broker.call ⟨env, x.p, r⟩).2 := by
    simp only [State.step, hcall]
  unfold Inv
  rw [hbatches, hbroker]
  by_cases hp : x.p = p
  · subst hp
    have halone : ∀ j y, j ≠ k → s.batches[j]? = some y → y.p = x.p → ¬ y.Open :=
      fun j y hj hy => undisturbed.alone rfl j y hy fun h => hj (Option.some.inj h).symm
    rcases call_self rep (undisturbed.fits rfl) with ⟨rep', hdup⟩ | ⟨z, hnorm, rep', hnext⟩
    · refine ⟨rs, next, rep', fun y hy hyp => ?_⟩
      rcases of_mem_modify hy with ⟨j, hj, hy⟩ | ⟨x', hx', rfl⟩
      · exact landed y (mem_of_getElem? hy) hyp
      · obtain rfl : x = x' := Option.some.inj (hx.symm.trans hx')
        cases hres : (s.broker.call ⟨env, x.p, r⟩).1 with
        | error e => exact (landed x hmem rfl).fail e next
        | ok n => cases (fresh rfl).symm.trans (hdup n hres)
    · refine ⟨rs ++ [z], next + 1, rep', fun y hy hyp => ?_⟩
      rcases of_mem_modify hy with ⟨j, hj, hy⟩ | ⟨x', hx', rfl⟩
      · exact (landed y (mem_of_getElem? hy) hyp).grow (halone j y hj hy hyp) z _
      · obtain rfl : x = x' := Option.some.inj (hx.symm.trans hx')
        have hoff : z.offset = next := by
          rw [← Record.norm_offset, hnorm]
          rfl
        cases hres : (s.broker.call ⟨env, x.p, r⟩).1 with
        | error e =>
          refine ⟨(landed x hmem rfl).count, fun i r' hi hr' => ?_, fun hopen => by cases hopen.2.2⟩
          obtain ⟨y, hy, hyoff, hycarries⟩ := (landed x hmem rfl).stored i r' hi hr'
          exact ⟨y, mem_append_left _ hy, hyoff, hycarries⟩
        | ok n =>
          rw [hnext n hres]
          exact (landed x hmem rfl).advance running hr hoff ⟨_, _, hnorm⟩
  · refine ⟨rs, next, rep_call_other rep hp undisturbed.quiet, fun y hy hyp => ?_⟩
    rcases of_mem_modify hy with ⟨j, hj, hy⟩ | ⟨x', hx', rfl⟩
    · exact landed y (mem_of_getElem? hy) hyp
    · obtain rfl : x = x' := Option.some.inj (hx.symm.trans hx')
      cases hres : (s.broker.call ⟨env, x.p, r⟩).1 <;> rw [hres] at hyp <;> exact absurd hyp hp

theorem Inv.step (inv : Inv p s) (orderly : Orderly p s a) : Inv p (s.step a) := by
  cases a with
  | publish c => exact inv.publish (orderly c rfl)
  | request q records =>
    obtain ⟨rs, next, rep, landed⟩ := inv
    refine ⟨rs, next, rep, fun x hx hp => ?_⟩
    rcases mem_append.mp hx with hx | hx
    · exact landed x hx hp
    · rw [mem_singleton.mp hx]
      exact ⟨Nat.zero_le _, fun i r hi => absurd hi (Nat.not_lt_zero i), fun hopen => absurd hopen.1 (Nat.lt_irrefl 0)⟩
  | next k env =>
    cases hcall : s.callOf (.next k env) with
    | none =>
      simp only [State.step, hcall]
      exact inv
    | some c => exact inv.next hcall (orderly c hcall).1 (orderly c hcall).2

theorem inv_of_orderly {b : Broker σ} {next : Int} (rep : Served.Rep b.store p rs next) {run : List Action}
    (orderly : Along State.step (.start b) run (Orderly p)) : Inv p (run.foldl State.step (.start b)) :=
  orderly.invariant (fun _ s => Inv p s) (fun _ _ _ inv cond => inv.step cond) ⟨rs, next, rep, fun x hx => by cases hx⟩

theorem Batch.Landed.answered {x : Batch} {next base : Int} (h : x.Landed rs next) (hanswer : x.answer = some (.ok base))
    {i : Nat} (hr : x.records[i]? = some r) : ∃ y ∈ rs, y.offset = base + i ∧ Carries y r := by
  unfold answer at hanswer
  split at hanswer
  · cases hanswer
  · split at hanswer
    · rename_i hdone
      obtain rfl : x.baseOffset = base := Except.ok.inj (Option.some.inj hanswer)
      exact h.stored i r (Nat.lt_of_lt_of_le (List.getElem?_eq_some_iff.mp hr).1 hdone) hr
    · cases hanswer

/-- In a run in which nobody else stores a record on the partition between the first and the last record of a batch, and
    no record of a batch is answered from the dedup table, record `i` of every batch that is answered with success is
    stored at the base offset plus `i`. -/
theorem batches_contiguous {b : Broker σ} {rs : List Record} {next : Int} (rep : Served.Rep b.store p rs next)
    {run : List Action} (orderly : Along State.step (.start b) run (Orderly p)) :
    ∃ stored, contents (run.foldl State.step (.start b)).broker.store p = .ok stored ∧
      ∀ x ∈ (run.foldl State.step (.start b)).batches, x.p = p → ∀ base, x.answer = some (.ok base) →
        ∀ (i : Nat) r, x.records[i]? = some r → ∃ y ∈ stored, y.offset = base + i ∧ Carries y r := by
  obtain ⟨stored, next', rep', landed⟩ := inv_of_orderly rep orderly
  exact ⟨stored, Served.contents_eq rep', fun x hx hp base hanswer i r hr => (landed x hx hp).answered hanswer hr⟩

/-- No call for the partition is answered as a duplicate. -/
def Fresh (p : PartitionRef) (s : State σ) (a : Action) : Prop := ∀ c, s.callOf a = some c → c.p = p →
    answered s.broker c = none

omit [Served σ] in
theorem step_broker (h : s.callOf a = some c) : (s.step a).broker = (s.broker.call c).2 := by
  cases a with
  | request q records => cases h
  | publish c' | next k env => simp only [State.step, h]

/-- A call that succeeds and is not answered from the dedup table stores one new record at the offset it reports. -/
theorem Inv.stores (inv : Inv p s) (hcall : s.callOf a = some c) (hp : c.p = p) (fresh : Fresh p s a)
    (fits : Served.Fits s.broker.store c.now p c.record) {n : Int} (hok : (s.broker.call c).1 = .ok n) :
    ∃ stored y, contents s.broker.store p = .ok stored ∧ contents (s.step a).broker.store p = .ok (stored ++ [y]) ∧
      (∀ x ∈ stored, x.offset < n) ∧ y.offset = n ∧ Carries y c.record := by
  subst hp
  obtain ⟨rs, next, rep, -⟩ := inv
  rcases call_self rep fits with ⟨-, hdup⟩ | ⟨y, hnorm, rep', hnext⟩
  · cases (fresh c hcall rfl).symm.trans (hdup n hok)
  · have hoff : y.offset = next := by
      rw [← Record.norm_offset, hnorm]
      rfl
    obtain rfl := hnext n hok
    refine ⟨rs, y, Served.contents_eq rep, ?_, fun x hx => ((Served.within rep).2 x hx).2, hoff, ⟨_, _, hnorm⟩⟩
    rw [step_broker hcall]
    exact Served.contents_eq rep'

/-- In a run in which moreover no call on the partition is answered from the dedup table, every call that succeeds has
    stored one new record at the offset it reports, and so has every batch for each of its records. -/
theorem relays_stored {b : Broker σ} {rs : List Record} {next : Int} (rep : Served.Rep b.store p rs next) {run : List Action}
    (orderly : Along State.step (.start b) run fun s a => Orderly p s a ∧ Fresh p s a) :
    (∀ done a rest c n, run = done ++ a :: rest → (done.foldl State.step (.start b)).callOf a = some c → c.p = p →
      ((done.foldl State.step (.start b)).broker.call c).1 = .ok n →
      ∃ stored y, contents (done.foldl State.step (.start b)).broker.store p = .ok stored ∧
        contents ((done.foldl State.step (.start b)).step a).broker.store p = .ok (stored ++ [y]) ∧
        (∀ x ∈ stored, x.offset < n) ∧ y.offset = n ∧ Carries y c.record) ∧
    ∃ stored, contents (run.foldl State.step (.start b)).broker.store p = .ok stored ∧
      ∀ x ∈ (run.foldl State.step (.start b)).batches, x.p = p → ∀ base, x.answer = some (.ok base) →
        ∀ (i : Nat) r, x.records[i]? = some r → ∃ y ∈ stored, y.offset = base + i ∧ Carries y r := by
  have honly : Along State.step (.start b) run (Orderly p) := fun done a rest h => (orderly done a rest h).1
  constructor
  · intro done a rest c n hrun hcall hp hok
    obtain ⟨hnow, hfresh⟩ := orderly done a rest hrun
    have hinv : Inv p (done.foldl State.step (.start b)) := by
      rw [hrun] at honly
      exact inv_of_orderly rep honly.of_append
    have hfits : Served.Fits (done.foldl State.step (.start b)).broker.store c.now p c.record := by
      have := hnow c hcall
      cases a with
      | publish c' => exact this.fits hp
      | request q records => cases hcall
      | next k env => exact this.1.fits hp
    exact hinv.stores hcall hp hfresh hfits hok
  · obtain ⟨stored, next', rep', landed⟩ := inv_of_orderly rep honly
    exact ⟨stored, Served.contents_eq rep', fun x hx hp base hanswer i r hr => (landed x hx hp).answered hanswer hr⟩

end

def valued (v : UInt8) : Record := ⟨0, 1, none, some [v], []⟩

def numbered (v seq : UInt8) : Record :=
  ⟨0, 1, none, some [v], [⟨headerProducerID, some [65]⟩, ⟨headerProducerSeq, some [0, 0, 0, 0, 0, 0, 0, seq]⟩]⟩

def env : Env := ⟨.background, 1, none⟩

def Action.batch : Action → Option Nat
  | .next k _ => some k
  | _ => none

/-- `Orderly` and `Fresh` over the memory store, where every record fits, as a test. -/
def Calm (p : PartitionRef) (s : State MemoryStore) (a : Action) : Prop :=
  ∀ c ∈ s.callOf a, ¬ Checkpoints s.broker c p ∧ (c.p = p → answered s.broker c = none ∧
    ∀ j < s.batches.length, ∀ x ∈ s.batches[j]?, a.batch ≠ some j → x.p = p → ¬ x.Open)

instance (x : Batch) : Decidable x.Open := inferInstanceAs (Decidable (_ ∧ _))

instance (s : State MemoryStore) (a : Action) : Decidable (Calm p s a) :=
  inferInstanceAs (Decidable (∀ c ∈ s.callOf a, _))

theorem orderly_of_calm {s : State MemoryStore} (h : Calm p s a) : Orderly p s a ∧ Fresh p s a := by
  have hfresh : Fresh p s a := fun c hc hp => ((h c hc).2 hp).1
  have hcalls : ∀ c ∈ s.callOf a, Undisturbed p s c a.batch := fun c hc =>
    ⟨(h c hc).1, fun _ _ _ _ => trivial, fun hp j x hx =>
      ((h c hc).2 hp).2 j (List.getElem?_eq_some_iff.mp hx).1 x hx⟩
  refine ⟨fun c hc => ?_, hfresh⟩
  cases a with
  | next k env => exact ⟨hcalls c hc, hfresh c hc⟩
  | publish c' | request q records => exact hcalls c hc

/-- Two requests on one partition, the second received while the first, of a numbered producer, is worked off. -/
def twoRequests : List Action :=
  [.request part [numbered 7 1, numbered 8 2], .next 0 env, .request part [valued 9, valued 10], .next 0 env,
    .next 1 env, .next 1 env]

theorem batches_contiguous_two :
    ∃ stored, contents (twoRequests.foldl State.step (.start memory)).broker.store part = .ok stored ∧
      (∃ y ∈ stored, y.offset = 0 + ((1 : Nat) : Int) ∧ Carries y (numbered 8 2)) ∧
      ∃ y ∈ stored, y.offset = 2 + ((1 : Nat) : Int) ∧ Carries y (valued 10) := by
  have hcalm : Along State.step (.start memory) twoRequests (Calm part) := by decide +kernel
  obtain ⟨stored, hstored, hbatches⟩ :=
    batches_contiguous rep_memory fun done a rest h => (orderly_of_calm (hcalm done a rest h)).1
  refine ⟨stored, hstored, ?_, ?_⟩
  · exact hbatches ⟨part, [numbered 7 1, numbered 8 2], 2, 0, none⟩ (by decide +kernel) rfl 0 rfl 1 _ rfl
  · exact hbatches ⟨part, [valued 9, valued 10], 2, 2, none⟩ (by decide +kernel) rfl 2 rfl 1 _ rfl

/-- Another producer's record comes between the two records of a batch. -/
def slippedIn : List Action := [.request part [valued 7, valued 8], .next 0 env, .publish ⟨env, part, valued 9⟩, .next 0 env]

/-- The batch is answered with base offset 0, and its second record is not at offset 1. -/
theorem batch_interrupted : ∃ stored x, contents (slippedIn.foldl State.step (.start memory)).broker.store part = .ok stored ∧
    (slippedIn.foldl State.step (.start memory)).batches = [x] ∧ x.records = [valued 7, valued 8] ∧ x.answer = some (.ok 0) ∧
    ¬ ∃ y ∈ stored, y.offset = 0 + ((1 : Nat) : Int) ∧ Carries y (valued 8) := by
  refine ⟨_, _, rfl, rfl, rfl, rfl, ?_⟩
  rintro ⟨y, hy, hoff, hcarries⟩
  have hvalue := hcarries.value
  have hrecord : ∀ y ∈ [stamp 1 0 (valued 7), stamp 1 1 (valued 9), stamp 1 2 (valued 8)], y.offset = 1 →
      y.value.norm ≠ some [8] := by
    decide
  exact hrecord y hy hoff hvalue

theorem relays_stored_two : ∃ stored y,
    contents ((twoRequests.take 3).foldl State.step (.start memory)).broker.store part = .ok stored ∧
    contents ((twoRequests.take 4).foldl State.step (.start memory)).broker.store part = .ok (stored ++ [y]) ∧
    y.offset = 1 ∧ Carries y (numbered 8 2) := by
  have hcalm : Along State.step (.start memory) twoRequests (Calm part) := by decide +kernel
  obtain ⟨hcalls, -⟩ := relays_stored rep_memory fun done a rest h => orderly_of_calm (hcalm done a rest h)
  obtain ⟨stored, y, hbefore, hafter, -, hoff, hcarries⟩ := hcalls (twoRequests.take 3) (.next 0 env)
    (twoRequests.drop 4) ⟨env, part, numbered 8 2⟩ 1 rfl (by decide +kernel) rfl (by decide +kernel)
  exact ⟨stored, y, hbefore, hafter, hoff, hcarries⟩

/-- Two records of one producer, which numbers its records for each partition, relayed from two source partitions. -/
def relayed : List Action := [.publish ⟨env, part, numbered 7 5⟩, .publish ⟨env, part, numbered 8 3⟩]

/-- The second is answered with the offset of the first, and it is not stored. -/
theorem relay_swallowed :
    ((State.start memory).step (.publish ⟨env, part, numbered 7 5⟩) |>.broker.call ⟨env, part, numbered 8 3⟩).1 = .ok 0 ∧
    ∃ stored, contents ((State.start memory).step (.publish ⟨env, part, numbered 7 5⟩)).broker.store part = .ok stored ∧
      contents (relayed.foldl State.step (.start memory)).broker.store part = .ok stored :=
  ⟨by decide +kernel, _, rfl, rfl⟩

end Holocron.Requests

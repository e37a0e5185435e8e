import Holocron.Theorems.Broker.Publish

/-! Runs of `Publish`: acknowledged records are stored exactly if no call brings a sequence number below its producer's
    last. -/

namespace Holocron.Broker
open Lib Storage List Function

variable {σ : Type} [Store σ]

def next (b : Broker σ) (c : Call) : Broker σ := (b.call c).2

def after (b : Broker σ) (calls : List Call) : Broker σ := calls.foldl next b

theorem after_append (b : Broker σ) (as bs : List Call) : b.after (as ++ bs) = (b.after as).after bs := foldl_append

/-- The sequence is not below the last one that the broker has of the producer. -/
def InOrder (b : Broker σ) (c : Call) : Prop :=
  ∀ id seq cp, producerIdempKey c.record = some (id, seq) → b.dedup c.p id = some cp → cp.lastSeq ≤ seq

/-- A call of a producer is answered with an offset where the final log has the producer's record of that sequence. -/
def AckStored (final b : Broker σ) (c : Call) : Prop :=
  ∀ id seq n, producerIdempKey c.record = some (id, seq) → (b.call c).1 = .ok n →
    ∃ (rs : List Record) (i : Nat) (r : Record), contents final.store c.p = .ok rs ∧ n = i ∧ rs[i]? = some r ∧
      producerIdempKey r = some (id, seq)

def Before (x y : Record) : Prop :=
  ∀ id s t, producerIdempKey x = some (id, s) → producerIdempKey y = some (id, t) → s < t

structure Deduped (dedup : Bytes → Option ProducerCheckpoint) (before added : List Record) : Prop where
  checkpoint : ∀ id cp, dedup id = some cp →
    ∃ (i : Nat) (r : Record), cp.lastOffset = i ∧ (before ++ added)[i]? = some r ∧ producerIdempKey r = some (id, cp.lastSeq)
  covered : ∀ r ∈ added, ∀ id seq, producerIdempKey r = some (id, seq) → ∃ cp, dedup id = some cp ∧ seq ≤ cp.lastSeq
  ascending : added.Pairwise Before

theorem Deduped.start {before : List Record} : Deduped (fun _ => none) before [] :=
  ⟨nofun, nofun, .nil⟩

variable {dedup : Bytes → Option ProducerCheckpoint} {b : Broker σ} {before m : Contents} {seq : UInt64} {id : Bytes}

theorem Deduped.rebase {before added : List Record} (h : Deduped dedup before added) : Deduped dedup (before ++ added) [] :=
  ⟨by simpa using h.checkpoint, nofun, .nil⟩

theorem getElem?_extend {α : Type} {xs : List α} {i : Nat} {x : α} (h : xs[i]? = some x) (ys : List α) :
    (xs ++ ys)[i]? = some x := by
  rw [List.getElem?_append_left (List.getElem?_eq_some_iff.mp h).1]
  exact h

section
variable {before added : List Record} (h : Deduped dedup before added)
include h

theorem Deduped.skip {extra : List Record} (hnone : ∀ x ∈ extra, producerIdempKey x = none) :
    Deduped dedup before (added ++ extra) := by
  have hno : ∀ x ∈ extra, ∀ k, producerIdempKey x ≠ some k := by
    intro x hx k hk
    rw [hnone x hx] at hk
    cases hk
  refine ⟨fun id cp hcp => ?_, fun r hr id seq hkey => ?_, ?_⟩
  · obtain ⟨i, r, hoff, hget, hkey⟩ := h.checkpoint id cp hcp
    exact ⟨i, r, hoff, by rw [← append_assoc]; exact getElem?_extend hget extra, hkey⟩
  · rcases mem_append.mp hr with hr | hr
    · exact h.covered r hr id seq hkey
    · exact absurd hkey (hno r hr _)
  · refine pairwise_append.mpr ⟨h.ascending, ?_, fun x _ y hy id s t _ ht => absurd ht (hno y hy _)⟩
    exact pairwise_of_forall_mem_list fun x hx y hy id s t hs _ => absurd hs (hno x hx _)

theorem Deduped.note {r : Record}
    (hkey : producerIdempKey r = some (id, seq)) (now : Int64) (fresh : ∀ cp, dedup id = some cp → cp.lastSeq < seq) :
    Deduped (update dedup id (some ⟨seq, (before ++ added).length, now⟩)) before (added ++ [r]) := by
  refine ⟨fun id' cp hcp => ?_, fun x hx id' s hs => ?_, ?_⟩
  · by_cases hid : id' = id
    · subst hid
      rw [update_self] at hcp
      cases hcp
      exact ⟨_, r, rfl, by rw [← append_assoc, getElem?_concat_length], hkey⟩
    · rw [update_of_ne hid] at hcp
      obtain ⟨i, x, hoff, hget, hx⟩ := h.checkpoint id' cp hcp
      exact ⟨i, x, hoff, by rw [← append_assoc]; exact getElem?_extend hget _, hx⟩
  · by_cases hid : id' = id
    · subst hid
      refine ⟨_, update_self .., ?_⟩
      rcases mem_append.mp hx with hx | hx
      · obtain ⟨cp, hcp, hle⟩ := h.covered x hx id' s hs
        exact UInt64.le_of_lt (UInt64.lt_of_le_of_lt hle (fresh cp hcp))
      · obtain rfl := mem_singleton.mp hx
        rw [hkey] at hs
        cases hs
        exact UInt64.le_refl _
    · rw [update_of_ne hid]
      rcases mem_append.mp hx with hx | hx
      · exact h.covered x hx id' s hs
      · obtain rfl := mem_singleton.mp hx
        rw [hkey] at hs
        cases hs
        exact absurd rfl hid
  · refine pairwise_append.mpr ⟨h.ascending, pairwise_singleton _ _, fun x hx y hy id' s t hs ht => ?_⟩
    obtain rfl := mem_singleton.mp hy
    rw [hkey] at ht
    cases ht
    obtain ⟨cp, hcp, hle⟩ := h.covered x hx id s hs
    exact UInt64.lt_of_le_of_lt hle (fresh cp hcp)

theorem Deduped.once (id : Bytes) (seq : UInt64) :
    added.countP (fun r => decide (producerIdempKey r = some (id, seq))) ≤ 1 := by
  have hcount : ∀ rs : List Record, rs.Pairwise Before →
      rs.countP (fun r => decide (producerIdempKey r = some (id, seq))) ≤ 1 := by
    intro rs hrs
    induction hrs with
    | nil => exact Nat.zero_le _
    | @cons r rs hr hrs ih =>
      by_cases hkey : producerIdempKey r = some (id, seq)
      · have hrest : rs.countP (fun r => decide (producerIdempKey r = some (id, seq))) = 0 := by
          refine countP_eq_zero.mpr fun x hx hdec => ?_
          exact UInt64.lt_irrefl _ (hr x hx id seq seq hkey (of_decide_eq_true hdec))
        simp [hkey, hrest]
      · simpa [hkey] using ih
  exact hcount added h.ascending

end

structure Tracks [Contract σ] (before : Contents) (b : Broker σ) (m : Contents) : Prop where
  rep : Contract.Rep b.store m
  ttl : b.dedupTTL = 0
  valid : ∀ p id cp, b.dedup p id = some cp → b.validate p = .ok ()
  deduped : ∀ p, ∃ added, m p = before p ++ added ∧ Deduped (b.dedup p) (before p) added

variable [Contract σ] {c : Call} {m' : Contents} {calls : List Call} {b' : Broker σ}

theorem Tracks.rebase (h : Tracks before b m) : Tracks m b m := by
  refine ⟨h.rep, h.ttl, h.valid, fun p => ⟨[], (append_nil _).symm, ?_⟩⟩
  obtain ⟨added, hm, hdeduped⟩ := h.deduped p
  rw [hm]
  exact hdeduped.rebase

theorem Outcome.tracks {res : Except BrokerError Int} (h : Outcome b m c res b' m')
    (tracks : Tracks before b m) (rep' : Contract.Rep b'.store m')
      (config : b'.registry = b.registry ∧ b'.dedupTTL = b.dedupTTL) :
    Tracks before b' m' := by
  cases h with
  | refused e | duplicate key last le => exact tracks
  | @appended _ _ _ r valid same fresh stored others checkpoint kept offset =>
    refine ⟨rep', config.2.trans tracks.ttl, fun p id cp hcp => ?_, fun p => ?_⟩
    · rw [validate_congr config.1]
      by_cases hp : p = c.p
      · rw [hp]
        exact valid
      · rw [kept p hp] at hcp
        exact tracks.valid p id cp hcp
    · obtain ⟨added, hm, hdeduped⟩ := tracks.deduped p
      by_cases hp : p = c.p
      · subst hp
        refine ⟨added ++ [r], by rw [stored, hm, append_assoc], ?_⟩
        have hkey : producerIdempKey r = producerIdempKey c.record :=
          (producerIdempKey_of_norm same).trans (producerIdempKey_stamp ..)
        rw [checkpoint]
        cases hc : producerIdempKey c.record with
        | none => exact hdeduped.skip fun x hx => by rw [mem_singleton.mp hx, hkey, hc]
        | some key =>
          rw [hm]
          refine hdeduped.note (hkey.trans hc) c.now fun cp hcp => ?_
          have hdup := fresh
          simp only [dedup] at hcp
          simp only [hc, PartitionState.duplicate, hcp, ite_eq_right_iff, reduceCtorEq] at hdup
          exact UInt64.not_le.mp hdup
      · obtain ⟨extra, hextra, hnone⟩ := others p hp
        refine ⟨added ++ extra, by rw [hextra, hm, append_assoc], ?_⟩
        rw [kept p hp]
        exact hdeduped.skip hnone

section
variable (h : Tracks before b m)
include h

theorem Tracks.call (room : b.HasRoom c) :
    ∃ m', Outcome b m c (b.call c).1 (b.next c) m' ∧ Tracks before (b.next c) m' := by
  obtain ⟨b₀, m', hb₀, houtcome, rep'⟩ := publish_outcome c h.rep room
  rw [evictFor_of_ttl h.ttl, or_self] at hb₀
  subst hb₀
  exact ⟨m', houtcome, houtcome.tracks h rep' (call_config _ c)⟩

theorem Tracks.run (room : Along next b calls HasRoom) :
    ∃ m', Tracks before (b.after calls) m' :=
  Along.invariant (fun _ b => ∃ m, Tracks before b m)
    (fun _ _ _ ⟨_, h⟩ hroom => (h.call hroom).imp fun _ h => h.2) ⟨m, h⟩ room

theorem Tracks.grows (room : Along next b calls HasRoom)
    (rep' : Contract.Rep (b.after calls).store m') (p : PartitionRef) :
    ∃ more, m' p = m p ++ more := by
  obtain ⟨m₁, h₁⟩ := h.rebase.run room
  obtain ⟨more, hmore, -⟩ := h₁.deduped p
  have hsame : (Except.ok (m₁ p) : Except StoreError (List Record)) = .ok (m' p) := by
    rw [← Contract.contents_eq h₁.rep, Contract.contents_eq rep']
  exact ⟨more, by rw [← hmore, Except.ok.inj hsame]⟩

end

theorem Outcome.stored {n : Int} (h : Outcome b m c (.ok n) b' m') (tracks : Tracks before b m)
    (order : b.InOrder c) (hkey : producerIdempKey c.record = some (id, seq)) :
    ∃ (i : Nat) (r : Record), n = i ∧ (m' c.p)[i]? = some r ∧ producerIdempKey r = some (id, seq) := by
  cases h with
  | @duplicate id' seq' cp key last le =>
    obtain ⟨rfl, rfl⟩ := Prod.mk.inj (Option.some.inj (hkey.symm.trans key))
    obtain ⟨added, hm, hdeduped⟩ := tracks.deduped c.p
    obtain ⟨i, r, hoff, hget, hr⟩ := hdeduped.checkpoint id cp last
    rw [UInt64.le_antisymm le (order id seq cp hkey last)]
    exact ⟨i, r, hoff, by rw [hm]; exact hget, hr⟩
  | @appended _ _ _ r valid same fresh stored others checkpoint kept offset =>
    refine ⟨_, r, offset n rfl, by rw [stored, getElem?_concat_length], ?_⟩
    rw [producerIdempKey_of_norm same, producerIdempKey_stamp, hkey]

/-- A call that is out of order is acknowledged at an offset where a record of another number stands. -/
theorem Tracks.misplaced (h : Tracks before b m)
    (hkey : producerIdempKey c.record = some (id, seq)) {cp : ProducerCheckpoint} (hlast : b.dedup c.p id = some cp)
    (hlt : seq < cp.lastSeq) :
    ∃ (i : Nat) (r : Record), (b.call c).1 = .ok i ∧ (m c.p)[i]? = some r ∧ producerIdempKey r ≠ some (id, seq) := by
  obtain ⟨added, hm, hdeduped⟩ := h.deduped c.p
  obtain ⟨i, r, hoff, hget, hr⟩ := hdeduped.checkpoint id cp hlast
  refine ⟨i, r, ?_, by rw [hm]; exact hget, fun hne => ?_⟩
  · rw [← hoff]
    exact call_duplicate h.ttl (h.valid _ _ _ hlast) hkey hlast (UInt64.le_of_lt hlt)
  · rw [hr] at hne
    cases hne
    exact UInt64.lt_irrefl _ hlt

/-- Over every run no key is appended twice, and every acknowledged record is stored at its offset exactly
    if every call is in order. -/
theorem publish_idempotent {b : Broker σ} {m : Contents} (rep : Contract.Rep b.store m) (ttl : b.dedupTTL = 0)
    (start : ∀ p id, b.dedup p id = none) (calls : List Call) (room : Along next b calls HasRoom) :
    (∀ p, ∃ before added, contents b.store p = .ok before ∧ contents (b.after calls).store p = .ok (before ++ added) ∧
      ∀ id seq, added.countP (fun r => decide (producerIdempKey r = some (id, seq))) ≤ 1) ∧
    (Along next b calls (AckStored (b.after calls)) ↔ Along next b calls InOrder) := by
  have tracks : Tracks m b m := by
    refine ⟨rep, ttl, fun p id cp hcp => ?_, fun p => ⟨[], (append_nil _).symm, ?_⟩⟩
    · rw [start p id] at hcp
      cases hcp
    · rw [show b.dedup p = fun _ => none from funext (start p)]
      exact .start
  obtain ⟨m', tracks'⟩ := tracks.run room
  refine ⟨fun p => ?_, fun hacked done c rest hcalls => ?_, fun horder done c rest hcalls => ?_⟩
  · obtain ⟨added, hadded, hdeduped⟩ := tracks'.deduped p
    refine ⟨m p, added, Contract.contents_eq rep p, ?_, hdeduped.once⟩
    rw [Contract.contents_eq tracks'.rep, hadded]
  all_goals
    subst hcalls
    obtain ⟨m₁, tracks₁⟩ := tracks.run room.of_append
    have room₁ := room.of_append_right
  · intro id seq cp hkey hlast
    by_contra hlt
    obtain ⟨i, r, hok, hget, hne⟩ := tracks₁.misplaced hkey hlast (UInt64.not_le.mp hlt)
    obtain ⟨rs, j, r', hrs, hij, hget', hkey'⟩ := hacked done c rest rfl id seq _ hkey hok
    obtain ⟨more, hmore⟩ := tracks₁.grows room₁ (by rw [← after_append]; exact tracks'.rep) c.p
    rw [Contract.contents_eq tracks'.rep, hmore] at hrs
    cases hrs
    cases Int.ofNat.inj hij
    rw [getElem?_extend hget more] at hget'
    cases hget'
    exact hne hkey'
  · intro id seq n hkey hok
    obtain ⟨m₂, houtcome, tracks₂⟩ := tracks₁.call (room done c rest rfl)
    rw [show ((b.after done).call c).1 = .ok n from hok] at houtcome
    obtain ⟨i, r, hn, hget, hr⟩ := houtcome.stored tracks₁ (horder done c rest rfl) hkey
    obtain ⟨more, hmore⟩ := tracks₂.grows room₁.tail
      (by rw [after_append] at tracks'; exact tracks'.rep) c.p
    exact ⟨m' c.p, i, r, Contract.contents_eq tracks'.rep c.p, hn, by rw [hmore]; exact getElem?_extend hget more, hr⟩

def single : Broker MemoryStore := ⟨MemoryStore.new, ⟨[⟨utf8 "t", 1, 0, 0⟩], none⟩, 0, [], fun _ => .empty⟩

def numbered (seq : UInt8) : Call :=
  ⟨⟨.background, 5, none⟩, ⟨utf8 "t", 0⟩,
    ⟨0, 0, none, some [seq], [⟨headerProducerID, some (utf8 "p")⟩, ⟨headerProducerSeq, some [0, 0, 0, 0, 0, 0, 0, seq]⟩]⟩⟩

theorem publish_idempotent_retried :
    ((single.after [numbered 1]).call (numbered 1)).1 = .ok 0 ∧
      Along next single [numbered 1, numbered 1] (AckStored (single.after [numbered 1, numbered 1])) := by
  refine ⟨by decide +kernel, (publish_idempotent (m := fun _ => []) (fun _ => rfl) rfl (fun _ _ => rfl)
    [numbered 1, numbered 1] fun _ _ _ _ => hasRoom_memory _ _).2.mpr ?_⟩
  refine .cons ?_ (.cons ?_ .nil)
  · intro id seq cp _ hlast
    cases hlast
  · intro id seq cp hkey hlast
    rw [show producerIdempKey (numbered 1).record = some (utf8 "p", 1) from by decide +kernel] at hkey
    cases hkey
    cases hlast
    exact UInt64.le_refl _

/-- After record two, record one is acknowledged at the offset of record two and not stored. -/
theorem publish_drops_late :
    ((single.after [numbered 2]).call (numbered 1)).1 = .ok 0 ∧
      ∃ r, contents (single.after [numbered 2, numbered 1]).store ⟨utf8 "t", 0⟩ = .ok [r] ∧
        producerIdempKey r = some (utf8 "p", 2) ∧ producerIdempKey (numbered 1).record = some (utf8 "p", 1) := by
  refine ⟨by decide +kernel, stamp 5 0 (numbered 2).record, ?_⟩
  decide +kernel

end Holocron.Broker

import Holocron.Broker.Hydrate
import Holocron.Theorems.Broker.Ledger
import Holocron.Theorems.Storage.Replay

/-! Replay gives the table in memory but for aged checkpoints, which age out before they could answer. -/

namespace Holocron
open Lib Log Storage Broker Groups List Function

variable {p : PartitionRef} {id : Bytes}

theorem decodeDedupKey_encode (hid : id.length < 256 ^ 4) (htopic : p.topic.length < 256 ^ 4) :
    decodeDedupKey (encodeDedupKey id p) = some (id, p) := by
  have hsigned : Signed 4 p.index.toInt := ⟨by have := p.index.le_toInt; omega, by have := p.index.toInt_lt; omega⟩
  have h₁ : encodeDedupKey id p =
      bigEndian 4 id.length ++ (id ++
        (bigEndian 4 p.topic.length ++ (p.topic ++ bigEndian 4 (toUnsigned 4 p.index.toInt)))) := by
    simp only [encodeDedupKey, append_assoc]
  rw [h₁, decodeDedupKey, if_neg (by simp)]
  simp only [take_left' (length_bigEndian 4 _), ofBigEndian_bigEndian_of_lt hid]
  rw [if_neg (by simp)]
  simp only [take_left' rfl, drop_left' rfl, take_left' (length_bigEndian 4 _), drop_left' (length_bigEndian 4 _),
    ofBigEndian_bigEndian_of_lt htopic]
  rw [if_neg (by simp)]
  simp only [take_of_length_le (Nat.le_of_eq (length_bigEndian 4 _)), toSigned_ofBigEndian hsigned, Int32.ofInt_toInt]

variable {cp : ProducerCheckpoint} {t : Int}

theorem decodeDedupValue_encode (h : Signed 8 cp.lastOffset) :
    decodeDedupValue (encodeDedupValue cp) = some cp := by
  have hseen : Signed 8 cp.lastSeen.toInt := ⟨by have := cp.lastSeen.le_toInt; omega, by have := cp.lastSeen.toInt_lt; omega⟩
  have hseq : cp.lastSeq.toNat < 256 ^ 8 := cp.lastSeq.toNat_lt
  have h₁ : encodeDedupValue cp = bigEndian 8 cp.lastSeq.toNat ++
      (bigEndian 8 (toUnsigned 8 cp.lastOffset) ++ bigEndian 8 (toUnsigned 8 cp.lastSeen.toInt)) := by
    simp [encodeDedupValue]
  have h₂ : (encodeDedupValue cp).drop 16 = bigEndian 8 (toUnsigned 8 cp.lastSeen.toInt) := by
    rw [encodeDedupValue, drop_left' (by simp)]
  rw [decodeDedupValue, if_neg (by simp [encodeDedupValue]), h₂, h₁]
  simp only [take_left' (length_bigEndian 8 _), drop_left' (length_bigEndian 8 _),
    take_of_length_le (Nat.le_of_eq (length_bigEndian 8 _)), ofBigEndian_bigEndian_of_lt hseq, toSigned_ofBigEndian h,
    toSigned_ofBigEndian hseen, Int64.ofInt_toInt, UInt64.ofNat_toNat]

def hydrated (rs : List Record) : PartitionRef → Bytes → Option ProducerCheckpoint := fun p =>
  ((rs.foldl hydrateRecord fun _ => .empty) p).dedup

structure Readable (id : Bytes) (p : PartitionRef) (cp : ProducerCheckpoint) : Prop where
  id : id.length < 256 ^ 4
  topic : p.topic.length < 256 ^ 4
  offset : Signed 8 cp.lastOffset

structure IsCheckpoint (r : Record) (id : Bytes) (p : PartitionRef) (cp : ProducerCheckpoint) : Prop where
  readable : Readable id p cp
  key : Slice.bytes r.key = encodeDedupKey id p
  value : r.value = some (encodeDedupValue cp)

theorem isCheckpoint_dedupRecord (h : Readable id p cp) (now : Int64) (n : Int) :
    IsCheckpoint (stamp now n (dedupRecord id p cp)).norm id p cp := by
  refine ⟨h, by simp only [dedupRecord]; rfl, ?_⟩
  cases hvalue : encodeDedupValue cp with
  | nil => exact absurd (congrArg length hvalue) (by simp [encodeDedupValue])
  | cons b bs => simp only [Record.norm, stamp, dedupRecord, hvalue, Slice.norm]

theorem hydrated_concat {r : Record} (h : IsCheckpoint r id p cp) (rs : List Record) :
    hydrated (rs ++ [r]) = update (hydrated rs) p (update (hydrated rs p) id (some cp)) := by
  have htake : ∀ parts, hydrateRecord parts r = hydrateDedup parts id p cp := by
    intro parts
    unfold hydrateRecord
    rw [h.key, h.value, decodeDedupKey_encode h.readable.id h.readable.topic, Slice.bytes, Option.getD_some,
      decodeDedupValue_encode h.readable.offset]
  funext q
  rw [hydrated, foldl_concat, htake, hydrateDedup]
  by_cases hq : q = p
  · subst hq
    rw [update_self, update_self]
    rfl
  · rw [update_of_ne hq, update_of_ne hq]
    rfl

def Alike (ttl : Int64) (t : Int) (x y : Option ProducerCheckpoint) : Prop := x = y ∨ x = none ∧ ∃ cp, y = some cp ∧
    Stale ttl t cp

theorem Alike.mono {ttl : Int64} {t' : Int} {x y : Option ProducerCheckpoint} (h : Alike ttl t x y) (ht : t ≤ t') :
    Alike ttl t' x y := by
  rcases h with h | ⟨hx, cp, hy, hstale⟩
  · exact .inl h
  · exact .inr ⟨hx, cp, hy, hstale.mono ht⟩

section
variable {ttl : Int64} {t : Int} {x y : Option ProducerCheckpoint} (h : Alike ttl t x y)
include h

theorem Alike.aged :
    (x.filter fun cp => decide (¬ Stale ttl t cp)) = y.filter fun cp => decide (¬ Stale ttl t cp) := by
  rcases h with rfl | ⟨rfl, cp, rfl, hstale⟩
  · rfl
  · simp [Option.filter, hstale]

/-- Ageing the first only makes it differ more. -/
theorem Alike.aged_left :
    Alike ttl t (x.filter fun cp => decide (¬ Stale ttl t cp)) y := by
  rcases h with rfl | ⟨rfl, hy⟩
  · cases x with
    | none => exact .inl rfl
    | some cp =>
      by_cases hstale : Stale ttl t cp
      · exact .inr ⟨by simp [hstale], cp, rfl, hstale⟩
      · exact .inl (by simp [hstale])
  · exact .inr ⟨rfl, hy⟩

end

namespace Ledger

structure Twin (S : Settings) (t : Int) (l l' : Ledger) : Prop where
  records : l.records = l'.records
  dedup : ∀ p id, Alike S.ttl t (l.dedup p id) (l'.dedup p id)

theorem Twin.mono {S : Settings} {t' : Int} {l l' : Ledger} (h : Twin S t l l') (ht : t ≤ t') : Twin S t' l l' :=
  ⟨h.records, fun p id => (h.dedup p id).mono ht⟩

variable {S : Settings} {l l' : Ledger} {c : Call}

theorem Twin.age (h : Twin S c.now.toInt l l') : Twin S c.now.toInt (l.age S c) (l'.age S c) := by
  refine ⟨by rw [age_records, age_records, h.records], fun p id => ?_⟩
  unfold Ledger.age
  split
  · by_cases hp : p = c.p
    · subst hp
      simp only [update_self]
      exact .inl (h.dedup c.p id).aged
    · simp only [update_of_ne hp]
      exact h.dedup p id
  · exact h.dedup p id

theorem Twin.answer_eq (h : Twin S c.now.toInt l l') :
    (l.age S c).answer c.p (producerIdempKey c.record) = (l'.age S c).answer c.p (producerIdempKey c.record) := by
  cases hkey : producerIdempKey c.record with
  | none => rfl
  | some key =>
    have hsame : (l.age S c).dedup c.p = (l'.age S c).dedup c.p := by
      funext id
      simp only [Ledger.age, hkey, Option.isSome_some, ↓reduceIte, update_self]
      exact (h.dedup c.p id).aged
    rw [answer, answer, hsame]

theorem Twin.store (h : Twin S t l l') : Twin S t (l.store c) (l'.store c) :=
  ⟨by simp only [Ledger.store, h.records], h.dedup⟩

theorem Twin.note (h : Twin S c.now.toInt l l') (offset : Int) :
    Twin S c.now.toInt (l.note S c offset) (l'.note S c offset) := by
  unfold Ledger.note
  cases producerIdempKey c.record with
  | none => exact h
  | some key =>
    obtain ⟨id, seq⟩ := key
    refine ⟨by simp only [h.records], fun p x => ?_⟩
    by_cases hp : p = c.p
    · subst hp
      simp only [update_self]
      by_cases hx : x = id
      · subst hx
        simp only [update_self]
        exact .inl rfl
      · simp only [update_of_ne hx]
        exact h.dedup c.p x
    · simp only [update_of_ne hp]
      exact h.dedup p x

theorem Twin.publish (h : Twin S t l l') (ht : t ≤ c.now.toInt) :
    (l.publish S c).1 = (l'.publish S c).1 ∧ Twin S c.now.toInt (l.publish S c).2 (l'.publish S c).2 := by
  have hnow := h.mono ht
  have haged := hnow.age
  unfold Ledger.publish
  rw [← hnow.answer_eq, ← h.records]
  split
  · exact ⟨rfl, hnow⟩
  · split
    · exact ⟨rfl, haged⟩
    · split
      · exact ⟨rfl, haged⟩
      · exact ⟨rfl, haged.store.note _⟩

def rehydrated (S : Settings) (l : Ledger) : Ledger := ⟨l.records, hydrated (l.records ⟨S.topic, 0⟩)⟩

def Synced (S : Settings) (t : Int) (l : Ledger) : Prop := Twin S t l (l.rehydrated S)

theorem Synced.age {l : Ledger} (h : Synced S c.now.toInt l) : Synced S c.now.toInt (l.age S c) := by
  refine ⟨rfl, fun p id => ?_⟩
  have hsame : (l.age S c).rehydrated S = l.rehydrated S := by simp only [rehydrated, age_records]
  unfold Ledger.age
  split
  · by_cases hp : p = c.p
    · subst hp
      simp only [update_self]
      exact (h.dedup c.p id).aged_left
    · simp only [update_of_ne hp]
      exact h.dedup p id
  · exact h.dedup p id

theorem Synced.publish {l : Ledger} (h : Synced S t l) (ht : t ≤ c.now.toInt) (configured : S.topic ≠ [])
    (away : c.p.topic ≠ S.topic) (readable : c.ctx.err = none → ∀ id seq, producerIdempKey c.record = some (id, seq) →
      Readable id c.p ⟨seq, (l.records c.p).length, c.now⟩) : Synced S c.now.toInt (l.publish S c).2 := by
  have hnow : Synced S c.now.toInt l := h.mono ht
  have haged := hnow.age
  have hother : ⟨S.topic, 0⟩ ≠ c.p := fun hp => away (by rw [← hp])
  unfold Ledger.publish
  split
  · exact hnow
  · split
    · exact haged
    · split
      · exact haged
      · rename_i hctx
        have hstored : Synced S c.now.toInt ((l.age S c).store c) := by
          refine ⟨rfl, fun p id => ?_⟩
          have : ((l.age S c).store c).rehydrated S = ⟨((l.age S c).store c).records, hydrated (l.records ⟨S.topic, 0⟩)⟩ := by
            simp only [rehydrated, Ledger.store, age_records, Contents.append_of_ne _ hother]
          rw [this]
          have := haged.dedup p id
          simp only [rehydrated, age_records] at this
          exact this
        unfold Ledger.note
        cases hkey : producerIdempKey c.record with
        | none => exact hstored
        | some key =>
          obtain ⟨id, seq⟩ := key
          have hread := readable (Option.not_isSome_iff_eq_none.mp hctx) id seq hkey
          refine ⟨rfl, fun p x => ?_⟩
          simp only [rehydrated, if_pos (And.intro away configured), Contents.append_self,
            hydrated_concat (isCheckpoint_dedupRecord hread _ _)]
          have hprior := hstored.dedup p x
          by_cases hp : p = c.p
          · subst hp
            simp only [update_self]
            by_cases hx : x = id
            · subst hx
              simp only [update_self]
              exact .inl rfl
            · simp only [update_of_ne hx]
              exact hprior
          · simp only [update_of_ne hp]
            exact hprior

end Ledger
end Holocron

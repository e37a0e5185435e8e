import Holocron.Theorems.Broker.Idempotence

/-! Batches in sequence, above the producer's checkpoint, land as a whole or up to the record at which they fail. -/

namespace Holocron
open Lib Storage List

/-- The record, once it has a timestamp and an offset, up to empty slices. -/
def Carries (stored r : Record) : Prop := ∃ now offset, stored.norm = (stamp now offset r).norm

theorem Carries.key {stored r : Record} (h : Carries stored r) : producerIdempKey stored = producerIdempKey r := by
  obtain ⟨now, offset, hnorm⟩ := h
  rw [producerIdempKey_of_norm hnorm, producerIdempKey_stamp]

theorem Carries.value {stored r : Record} (h : Carries stored r) : stored.value.norm = r.value.norm := by
  obtain ⟨now, offset, hnorm⟩ := h
  exact congrArg Record.value hnorm

namespace Broker

variable {σ : Type} {m : Contents} {p : PartitionRef}

/-- The records' numbers ascend and are above the checkpoint of their producer. -/
structure InSequence (b : Broker σ) (p : PartitionRef) (rs : List Record) : Prop where
  ascending : rs.Pairwise Before
  above : ∀ r ∈ rs, ∀ id seq cp, producerIdempKey r = some (id, seq) → b.dedup p id = some cp → cp.lastSeq < seq

structure Landed (p : PartitionRef) (m m' : Contents) (taken : List Record) : Prop where
  stored : ∃ rs, m' p = m p ++ rs ∧ List.Forall₂ Carries rs taken
  others : ∀ q ≠ p, ∃ extra, m' q = m q ++ extra ∧ ∀ x ∈ extra, producerIdempKey x = none

theorem Landed.nil (p : PartitionRef) (m : Contents) : Landed p m m [] :=
  ⟨⟨[], (append_nil _).symm, .nil⟩, fun _ _ => ⟨[], (append_nil _).symm, nofun⟩⟩

theorem Landed.append {m₁ m₂ : Contents} {as bs : List Record} (ha : Landed p m m₁ as) (hb : Landed p m₁ m₂ bs) :
    Landed p m m₂ (as ++ bs) := by
  obtain ⟨rs, hrs, has⟩ := ha.stored
  obtain ⟨ts, hts, hbs⟩ := hb.stored
  refine ⟨⟨rs ++ ts, by rw [hts, hrs, append_assoc], rel_append has hbs⟩, fun q hq => ?_⟩
  obtain ⟨x, hx, hxnone⟩ := ha.others q hq
  obtain ⟨y, hy, hynone⟩ := hb.others q hq
  refine ⟨x ++ y, by rw [hy, hx, append_assoc], fun z hz => ?_⟩
  rcases mem_append.mp hz with hz | hz
  · exact hxnone z hz
  · exact hynone z hz

variable [Store σ] [Contract σ] {b : Broker σ} {calls : List Call}

theorem call_inSequence {c : Call} (rep : Contract.Rep b.store m) (room : b.HasRoom c)
    (hseq : ∀ id seq cp, producerIdempKey c.record = some (id, seq) → b.dedup c.p id = some cp → cp.lastSeq < seq) :
    ∃ m' taken, Contract.Rep (b.next c).store m' ∧ Landed c.p m m' taken ∧ taken <+: [c.record] ∧
      (∀ n, (b.call c).1 = .ok n → n = (m c.p).length ∧ taken = [c.record]) ∧
      ∀ id cp, (b.next c).dedup c.p id = some cp → b.dedup c.p id = some cp ∨
        producerIdempKey c.record = some (id, cp.lastSeq) := by
  obtain ⟨b₀, m', hb₀, houtcome, rep'⟩ := publish_outcome c rep room
  have hold : ∀ id cp, b₀.dedup c.p id = some cp → b.dedup c.p id = some cp := by
    intro id cp hcp
    rcases hb₀ with rfl | rfl
    · exact hcp
    · exact evictFor_dedup hcp
  have hnext : (b.call c).2 = b.next c := rfl
  rw [hnext] at houtcome rep'
  generalize (b.call c).1 = res at houtcome ⊢
  cases houtcome with
  | refused e =>
    refine ⟨m, [], rep', .nil c.p m, nil_prefix, nofun, fun id cp hcp => .inl (hold id cp hcp)⟩
  | @duplicate id seq cp key last le =>
    exact absurd (hseq id seq cp key (hold id cp last)) (UInt64.not_lt.mpr le)
  | @appended _ _ _ r valid same fresh stored others checkpoint kept offset =>
    refine ⟨m', [c.record], rep', ⟨⟨[r], stored, .cons ⟨_, _, same⟩ .nil⟩, others⟩, prefix_rfl,
      fun n hn => ⟨offset n hn, rfl⟩, ?_⟩
    intro id cp hcp
    rw [checkpoint] at hcp
    cases hkey : producerIdempKey c.record with
    | none =>
      rw [hkey] at hcp
      exact .inl (hold id cp hcp)
    | some key =>
      obtain ⟨id', seq⟩ := key
      rw [hkey] at hcp
      by_cases hid : id = id'
      · subst hid
        simp only [noted, Function.update_self, Option.some.injEq] at hcp
        subst hcp
        exact .inr rfl
      · simp only [noted, Function.update_of_ne hid] at hcp
        exact .inl (hold id cp hcp)

theorem publishAll_spec (hp : ∀ c ∈ calls, c.p = p)
    (rep : Contract.Rep b.store m) (room : Along next b calls HasRoom) (hseq : b.InSequence p (calls.map Call.record)) :
    ∃ m' taken, Contract.Rep (b.publishAll calls).2.store m' ∧ Landed p m m' taken ∧ taken <+: calls.map Call.record ∧
      ((b.publishAll calls).1 = .ok () → taken = calls.map Call.record) := by
  induction calls generalizing b m with
  | nil => exact ⟨m, [], rep, .nil p m, prefix_rfl, fun _ => rfl⟩
  | cons c rest ih =>
    obtain rfl := hp c mem_cons_self
    obtain ⟨hbefore, hascending⟩ := pairwise_cons.mp hseq.ascending
    obtain ⟨m₁, taken₁, rep₁, hlanded, hprefix, hok, hdedup⟩ := call_inSequence rep (room [] c rest rfl)
      (hseq.above _ mem_cons_self)
    have hres : ((b.call c).1, b.next c) = b.call c := rfl
    rw [publishAll, ← hres]
    cases hc : (b.call c).1 with
    | error e =>
      exact ⟨m₁, taken₁, rep₁, hlanded, hprefix.trans (prefix_append [c.record] _), nofun⟩
    | ok n =>
      obtain ⟨-, rfl⟩ := hok n hc
      have hseq' : (b.next c).InSequence c.p (rest.map Call.record) := by
        refine ⟨hascending, fun r hr id seq cp hkey hcp => ?_⟩
        rcases hdedup id cp hcp with hcp | hcp
        · exact hseq.above r (mem_cons_of_mem _ hr) id seq cp hkey hcp
        · exact hbefore r hr id _ _ hcp hkey
      obtain ⟨m₂, taken₂, rep₂, hlanded₂, hprefix₂, hall⟩ := ih (fun d hd => hp d (mem_cons_of_mem _ hd)) rep₁ room.tail hseq'
      refine ⟨m₂, c.record :: taken₂, rep₂, hlanded.append hlanded₂, prefix_cons_iff.mpr (.inr ⟨taken₂, rfl, hprefix₂⟩),
        fun h => ?_⟩
      rw [hall h, map_cons]

omit [Contract σ] in
theorem publishBatch_cons (b : Broker σ) (c : Call) (rest : List Call) :
    (b.publishBatch (c :: rest)).2 = (b.publishAll (c :: rest)).2 ∧
      ∀ n, (b.publishBatch (c :: rest)).1 = .ok n → (b.publishAll (c :: rest)).1 = .ok () ∧ (b.call c).1 = .ok n := by
  rw [publishBatch, publishAll]
  obtain ⟨res, b'⟩ := b.call c
  cases res with
  | error e => exact ⟨rfl, nofun⟩
  | ok base =>
    dsimp only
    obtain ⟨done, b''⟩ := b'.publishAll rest
    cases done with
    | error e => exact ⟨rfl, nofun⟩
    | ok u => exact ⟨rfl, fun n hn => ⟨rfl, hn⟩⟩

/-- A batch in sequence lands at the end of the partition, as a whole if it is acknowledged. -/
theorem publishBatch_spec (hp : ∀ c ∈ calls, c.p = p) (hne : calls ≠ [])
    (rep : Contract.Rep b.store m) (room : Along next b calls HasRoom)
    (hseq : b.InSequence p (calls.map Call.record)) :
    ∃ m' taken, Contract.Rep (b.publishBatch calls).2.store m' ∧ Landed p m m' taken ∧ taken <+: calls.map Call.record ∧
      ∀ n, (b.publishBatch calls).1 = .ok n → n = (m p).length ∧ taken = calls.map Call.record := by
  obtain ⟨m', taken, rep', hlanded, hprefix, hall⟩ := publishAll_spec hp rep room hseq
  obtain ⟨c, rest, rfl⟩ := exists_cons_of_ne_nil hne
  obtain rfl := hp c mem_cons_self
  obtain ⟨_, _, -, -, -, hok, -⟩ := call_inSequence rep (room [] c rest rfl) (hseq.above _ mem_cons_self)
  obtain ⟨hstate, hresult⟩ := publishBatch_cons b c rest
  refine ⟨m', taken, hstate ▸ rep', hlanded, hprefix, fun n hn => ?_⟩
  obtain ⟨hdone, hfirst⟩ := hresult n hn
  exact ⟨(hok n hfirst).1, hall hdone⟩

end Broker
end Holocron

import Holocron.Sdk.Producer
import Holocron.Theorems.Broker.Batch

/-! As long as every delivery is in sequence, a Send that returns an offset has its record there and nowhere else. -/

namespace Holocron.Sdk
open Lib Storage Broker List Function

/-! ### The key of a stamped record -/

theorem shift_or (acc : UInt64) (x : UInt8) :
    ((acc <<< 8) ||| x.toUInt64).toNat = (acc.toNat * 256 + x.toNat) % 2 ^ 64 := by
  have hx : x.toNat < 2 ^ 8 := x.toNat_lt
  have hshift : (acc <<< 8).toNat = (acc.toNat % 2 ^ 56) <<< 8 := by
    rw [UInt64.toNat_shiftLeft, show (8 : UInt64).toNat % 64 = 8 from rfl]
    omega
  rw [UInt64.toNat_or, hshift, UInt8.toNat_toUInt64, ← Nat.shiftLeft_add_eq_or_of_lt hx]
  omega

/-- The loop that reads a sequence number computes the big-endian value of its bytes. -/
theorem foldl_shift_or (b : Bytes) :
    (b.foldl (fun (acc : UInt64) x => (acc <<< 8) ||| x.toUInt64) 0).toNat = ofBigEndian b % 2 ^ 64 := by
  induction b using reverseRecOn with
  | nil => rfl
  | append_singleton b x ih =>
    rw [foldl_append, foldl_cons, foldl_nil, shift_or, ofBigEndian_append]
    omega

theorem producerIdempKey_stampIdempotencyHeaders {id : Bytes} (hid : id ≠ []) (seq : UInt64) (r : Record) :
    producerIdempKey (stampIdempotencyHeaders id seq r) = some (id, seq) := by
  have hne : headerProducerID ≠ headerProducerSeq := by decide +kernel
  have hlt : seq.toNat < 256 ^ 8 := seq.toNat_lt
  have hseq : (bigEndian 8 seq.toNat).foldl (fun (acc : UInt64) x => (acc <<< 8) ||| x.toUInt64) 0 = seq := by
    apply UInt64.toNat_inj.mp
    rw [foldl_shift_or, ofBigEndian_bigEndian_of_lt hlt]
    exact Nat.mod_eq_of_lt seq.toNat_lt
  have hlastID : lastHeader headerProducerID (stampIdempotencyHeaders id seq r).headers = some (some id) := by
    simp [lastHeader, stampIdempotencyHeaders, hne.symm]
  have hlastSeq : lastHeader headerProducerSeq (stampIdempotencyHeaders id seq r).headers =
      some (some (bigEndian 8 seq.toNat)) := by
    simp [lastHeader, stampIdempotencyHeaders, foldl_append]
  simp [producerIdempKey, hlastID, hlastSeq, Slice.bytes, length_bigEndian, hid, ↓reduceIte, hseq]

/-! ### Where a key stands -/

/-- The record at the place is the only one with the key. -/
structure UniqueAt (rs : List Record) (key : Bytes × UInt64) (i : Nat) (r : Record) : Prop where
  get : rs[i]? = some r
  keyed : producerIdempKey r = some key
  unique : ∀ j x, rs[j]? = some x → producerIdempKey x = some key → j = i

section
variable {rs extra : List Record} {key : Bytes × UInt64} {i : Nat} {r : Record} (h : UniqueAt rs key i r)
  (hno : ∀ x ∈ extra, producerIdempKey x ≠ some key)
include h hno

theorem UniqueAt.append : UniqueAt (rs ++ extra) key i r := by
  refine ⟨getElem?_extend h.get extra, h.keyed, fun j x hx hkey => ?_⟩
  by_cases hj : j < rs.length
  · rw [getElem?_append_left hj] at hx
    exact h.unique j x hx hkey
  · rw [getElem?_append_right (Nat.not_lt.mp hj)] at hx
    exact absurd hkey (hno x (mem_of_getElem? hx))

theorem UniqueAt.prepend : UniqueAt (extra ++ rs) key (extra.length + i) r := by
  refine ⟨?_, h.keyed, fun j x hx hkey => ?_⟩
  · rw [getElem?_append_right (Nat.le_add_right _ _), Nat.add_sub_cancel_left]
    exact h.get
  · by_cases hj : j < extra.length
    · rw [getElem?_append_left hj] at hx
      exact absurd hkey (hno x (mem_of_getElem? hx))
    · rw [getElem?_append_right (Nat.not_lt.mp hj)] at hx
      rw [← h.unique _ x hx hkey, Nat.add_sub_cancel' (Nat.not_lt.mp hj)]

end

variable {i : Nat} {rs : List Record} {r : Record}

theorem UniqueAt.mem {key : Bytes × UInt64} (h : UniqueAt rs key i r) : r ∈ rs :=
  mem_of_getElem? h.get

/-! ### Results -/

variable {entries : List Entry} {e : SendError} {t : Nat}

namespace Results

variable {results : Results} {u : Nat} {n base : Int}

theorem resolve_ok {res : Except SendError Int} (h : results.resolve t res u = some (.ok n)) :
    results u = some (.ok n) ∨ u = t ∧ res = .ok n := by
  unfold resolve at h
  split at h
  · by_cases hu : u = t
    · subst hu
      rw [update_self] at h
      exact .inr ⟨rfl, Option.some.inj h⟩
    · rw [update_of_ne hu] at h
      exact .inl h
  · exact .inl h

theorem resolve_of_ne (h : u ≠ t) (res : Except SendError Int) : results.resolve t res u = results u := by
  unfold resolve
  split
  · exact update_of_ne h ..
  · rfl

theorem fail_ok (h : results.fail e entries u = some (.ok n)) : results u = some (.ok n) := by
  induction entries generalizing results with
  | nil => exact h
  | cons entry rest ih =>
    rcases resolve_ok (ih h) with h | ⟨-, h⟩
    · exact h
    · cases h

theorem fail_of_forall_ne (h : ∀ x ∈ entries, u ≠ x.ticket) : results.fail e entries u = results u := by
  induction entries generalizing results with
  | nil => rfl
  | cons entry rest ih =>
    exact (ih fun x hx => h x (mem_cons_of_mem _ hx)).trans (resolve_of_ne (h entry mem_cons_self) _)

theorem assign_ok (h : results.assign base entries u = some (.ok n)) :
    results u = some (.ok n) ∨ ∃ (i : Nat) (x : Entry), entries[i]? = some x ∧ x.ticket = u ∧ n = base + i := by
  induction entries generalizing results base with
  | nil => exact .inl h
  | cons entry rest ih =>
    rcases ih h with hrest | ⟨i, x, hx, hticket, hn⟩
    · rcases resolve_ok hrest with hold | ⟨hu, hres⟩
      · exact .inl hold
      · exact .inr ⟨0, entry, rfl, hu.symm, by rw [← Except.ok.inj hres]; exact (Int.add_zero _).symm⟩
    · exact .inr ⟨i + 1, x, hx, hticket, by rw [hn]; omega⟩

theorem assign_of_forall_ne (h : ∀ x ∈ entries, u ≠ x.ticket) : results.assign base entries u = results u := by
  induction entries generalizing results base with
  | nil => rfl
  | cons entry rest ih =>
    exact (ih fun x hx => h x (mem_cons_of_mem _ hx)).trans (resolve_of_ne (h entry mem_cons_self) _)

end Results

/-! ### The invariant -/

def Sent.stamped (o : Options) (x : Sent) : Record := stampIdempotencyHeaders o.producerID x.seq x.record

def Sent.key (o : Options) (x : Sent) : Bytes × UInt64 := (o.producerID, x.seq)

theorem Sent.key_stamped (o : Options) (x : Sent) : producerIdempKey (x.stamped o) = some (x.key o) :=
  producerIdempKey_stampIdempotencyHeaders o.named x.seq x.record

theorem forall₂_getElem? {α β : Type} {R : α → β → Prop} {xs : List α} {ys : List β} (h : Forall₂ R xs ys) {x : α}
    (hx : xs[i]? = some x) : ∃ y, ys[i]? = some y ∧ R x y := by
  induction h generalizing i with
  | nil => cases hx
  | cons hxy _ ih =>
    cases i with
    | zero =>
      cases hx
      exact ⟨_, rfl, hxy⟩
    | succ i => exact ih hx

namespace State

variable {σ : Type}

def inFlight (s : State σ) : List Entry := s.ready ++ s.pending ++ s.flights.flatMap Prod.snd

variable [Store σ] [Contract σ]

/-- Every record on its way is some Send's and not stored yet, and every Send that returned an offset has
    its record there and nowhere else. -/
structure Good (o : Options) (s : State σ) (m : Contents) : Prop where
  rep : Contract.Rep s.broker.store m
  tickets : (s.inFlight.map Entry.ticket).Nodup
  waiting : ∀ e ∈ s.inFlight, ∃ x, s.sends[e.ticket]? = some x ∧ e.pref = x.pref ∧ e.record = x.stamped o ∧
    ∀ r ∈ m x.pref, producerIdempKey r ≠ some (x.key o)
  flights : ∀ f ∈ s.flights, f.2 ≠ [] ∧ ∀ e ∈ f.2, e.pref = f.1
  below : ∀ x ∈ s.sends, x.seq < s.idempSeqs x.pref
  distinct : ∀ (i j : Nat) (x y : Sent), s.sends[i]? = some x → s.sends[j]? = some y → x.pref = y.pref → x.seq = y.seq → i = j
  stored : ∀ p, ∀ r ∈ m p, ∀ seq, producerIdempKey r = some (o.producerID, seq) → seq < s.idempSeqs p
  unsent : ∀ t, s.sends.length ≤ t → s.results t = none
  acked : ∀ (t : Nat) (x : Sent) (n : Int), s.sends[t]? = some x → s.results t = some (.ok n) →
    ∃ (i : Nat) (r : Record), n = i ∧ UniqueAt (m x.pref) (x.key o) i r ∧ Carries r (x.stamped o)

variable {m : Contents} {o : Options} {s s' : State σ} {p pref : PartitionRef} {taken : List Entry} {b : Broker σ}

theorem Good.landed (h : Good o s m) (hin : ∀ e ∈ taken, e ∈ s.inFlight)
    (hp : ∀ e ∈ taken, e.pref = p) (hrs : Forall₂ Carries rs (taken.map Entry.record))
    (hr : rs[i]? = some r) :
    ∃ e x, taken[i]? = some e ∧ s.sends[e.ticket]? = some x ∧ x.pref = p ∧ producerIdempKey r = some (x.key o) ∧
      Carries r (x.stamped o) := by
  obtain ⟨e, he, hcarries⟩ := forall₂_getElem? (forall₂_map_right_iff.mp hrs) hr
  have hmem := mem_of_getElem? he
  obtain ⟨x, hx, hpref, hrecord, -⟩ := h.waiting e (hin e hmem)
  rw [hrecord] at hcarries
  exact ⟨e, x, he, hx, hpref.symm.trans (hp e hmem), by rw [hcarries.key, x.key_stamped], hcarries⟩

/-- A step that takes some records off their way, and lands the first of them. -/
theorem Good.settle {m' : Contents} (h : Good o s m) (hsends : s'.sends = s.sends) (hseqs : s'.idempSeqs = s.idempSeqs)
    {gone : List Entry} (hperm : s.inFlight.Perm (gone ++ s'.inFlight))
    (hflights : ∀ f ∈ s'.flights, f ∈ s.flights ∨ f.2 ≠ [] ∧ ∀ e ∈ f.2, e.pref = f.1) (rep' : Contract.Rep s'.broker.store m')
    (htaken : taken <+: gone) (hp : ∀ e ∈ taken, e.pref = p) (hlanded : Landed p m m' (taken.map Entry.record))
    (hacked : ∀ t n, s'.results t = some (.ok n) → s.results t = some (.ok n) ∨ ∃ (i : Nat) (e : Entry),
      taken[i]? = some e ∧ e.ticket = t ∧ n = (m p).length + i)
    (hunsent : ∀ t, s.sends.length ≤ t → s'.results t = none) : Good o s' m' := by
  have htickets : ((gone ++ s'.inFlight).map Entry.ticket).Nodup := (hperm.map _).nodup_iff.mp h.tickets
  rw [map_append, nodup_append] at htickets
  obtain ⟨hgone, hrest, hapart⟩ := htickets
  have hin : ∀ e ∈ taken, e ∈ s.inFlight := fun e he => hperm.mem_iff.mpr (mem_append_left _ (htaken.subset he))
  have hold : ∀ e ∈ s'.inFlight, e ∈ s.inFlight := fun e he => hperm.mem_iff.mpr (mem_append_right _ he)
  obtain ⟨rs, hrs, hcarried⟩ := hlanded.stored
  have hland := fun {i} {r} (hr : rs[i]? = some r) => h.landed hin hp hcarried hr
  -- A record that landed has the key of one that was taken, so a key that was not on its way does not land.
  have hnew : ∀ t x, s.sends[t]? = some x → (∀ e ∈ taken, x.pref = p → e.ticket ≠ t) → ∃ extra,
      m' x.pref = m x.pref ++ extra ∧ ∀ r ∈ extra, producerIdempKey r ≠ some (x.key o) := by
    intro t x hx hno
    by_cases hxp : x.pref = p
    · refine ⟨rs, by rw [hxp, hrs], fun r hr hkey => ?_⟩
      obtain ⟨i, hi⟩ := mem_iff_getElem?.mp hr
      obtain ⟨e, y, he, hy, hyp, hykey, -⟩ := hland hi
      rw [hykey] at hkey
      exact hno e (mem_of_getElem? he) hxp
        (h.distinct _ _ y x hy hx (hyp.trans hxp.symm) (congrArg Prod.snd (Option.some.inj hkey)))
    · obtain ⟨extra, hextra, hnone⟩ := hlanded.others x.pref hxp
      refine ⟨extra, hextra, fun r hr hkey => ?_⟩
      rw [hnone r hr] at hkey
      cases hkey
  refine ⟨rep', hrest, fun e he => ?_, ?_, by rw [hsends, hseqs]; exact h.below, by rw [hsends]; exact h.distinct, ?_,
    by rw [hsends]; exact hunsent, fun t x n hx hn => ?_⟩
  · obtain ⟨x, hx, hpref, hrecord, hfree⟩ := h.waiting e (hold e he)
    refine ⟨x, by rw [hsends]; exact hx, hpref, hrecord, fun r hr => ?_⟩
    obtain ⟨extra, hextra, hfree'⟩ := hnew e.ticket x hx fun e₁ he₁ _ heq =>
      hapart _ (mem_map_of_mem (htaken.subset he₁)) _ (mem_map_of_mem he) heq
    rw [hextra] at hr
    rcases mem_append.mp hr with hr | hr
    · exact hfree r hr
    · exact hfree' r hr
  · intro f hf
    rcases hflights f hf with hf | hf
    · exact h.flights f hf
    · exact hf
  · intro q r hr seq hkey
    rw [hseqs]
    by_cases hq : q = p
    · subst hq
      rw [hrs] at hr
      rcases mem_append.mp hr with hr | hr
      · exact h.stored q r hr seq hkey
      · obtain ⟨i, hi⟩ := mem_iff_getElem?.mp hr
        obtain ⟨e, y, -, hy, rfl, hykey, -⟩ := hland hi
        rw [hykey] at hkey
        cases hkey
        exact h.below y (mem_of_getElem? hy)
    · obtain ⟨extra, hextra, hnone⟩ := hlanded.others q hq
      rw [hextra] at hr
      rcases mem_append.mp hr with hr | hr
      · exact h.stored q r hr seq hkey
      · rw [hnone r hr] at hkey
        cases hkey
  · rw [hsends] at hx
    rcases hacked t n hn with hn | ⟨i, e, he, rfl, hoffset⟩
    · obtain ⟨i, r, hi, hat, hcarries⟩ := h.acked t x n hx hn
      obtain ⟨extra, hextra, hfree⟩ := hnew t x hx fun e he _ heq => by
        obtain ⟨y, hy, -, -, hyfree⟩ := h.waiting e (hin e he)
        rw [heq, hx] at hy
        cases hy
        exact hyfree r hat.mem hat.keyed
      exact ⟨i, r, hi, by rw [hextra]; exact hat.append hfree, hcarries⟩
    · obtain ⟨r, hr, -⟩ := forall₂_getElem? (forall₂_map_right_iff.mp hcarried).flip he
      obtain ⟨e', y, he', hy, hyp, hkey, hcarries⟩ := hland hr
      rw [he] at he'
      cases he'
      rw [hx] at hy
      cases hy
      have hat : UniqueAt rs (x.key o) i r := by
        refine ⟨hr, hkey, fun j r' hr' hkey' => ?_⟩
        obtain ⟨e₁, y, he₁, hy, hyp', hykey, -⟩ := hland hr'
        rw [hykey] at hkey'
        have hsame := h.distinct _ _ y x hy hx (hyp'.trans hyp.symm) (congrArg Prod.snd (Option.some.inj hkey'))
        have hnodup : (taken.map Entry.ticket).Nodup := hgone.sublist (htaken.sublist.map _)
        refine (List.getElem?_inj ?_ hnodup).mp ?_
        · rw [length_map]
          exact (List.getElem?_eq_some_iff.mp he₁).1
        · rw [List.getElem?_map, List.getElem?_map, he₁, he, Option.map_some, Option.map_some, hsame]
      obtain ⟨z, hz, -, -, hfree⟩ := h.waiting e (hin e (mem_of_getElem? he))
      rw [hx] at hz
      cases hz
      refine ⟨(m p).length + i, r, by rw [hoffset, Int.natCast_add], ?_, hcarries⟩
      rw [hyp] at hfree ⊢
      rw [hrs]
      exact hat.prepend hfree

/-! ### Steps -/

theorem synced_rep (o : Options) (rep : Contract.Rep b.store m) (syncCtx : Ctx) (pref : PartitionRef) :
    Contract.Rep (synced o b syncCtx pref).2.store m := by
  unfold synced
  split
  · have hsync := Contract.sync rep syncCtx pref
    unfold sync
    split
    · exact rep
    · split <;> rename_i hres <;> rw [hres] at hsync <;> exact hsync
  · exact rep

theorem finish_spec (o : Options) (s : State σ) (pref : PartitionRef) (entries : List Entry) (syncCtx : Ctx)
    (called : Except BrokerError Int × Broker σ) :
    ∃ b results, s.finish o pref entries syncCtx called = { s with broker := b, results := results } ∧
      (∀ m, Contract.Rep called.2.store m → Contract.Rep b.store m) ∧
      (∀ t n, results t = some (.ok n) → s.results t = some (.ok n) ∨
        ∃ (base : Int) (i : Nat) (e : Entry), called.1 = .ok base ∧ entries[i]? = some e ∧ e.ticket = t ∧ n = base + i) ∧
      ∀ t, (∀ e ∈ entries, t ≠ e.ticket) → results t = s.results t := by
  obtain ⟨res, b⟩ := called
  cases res with
  | error e => exact ⟨b, _, rfl, fun _ h => h, fun t n h => .inl (Results.fail_ok h), fun t h => Results.fail_of_forall_ne h⟩
  | ok base =>
    have hrep := fun m (rep : Contract.Rep b.store m) => synced_rep o rep syncCtx pref
    rw [finish]
    generalize synced o b syncCtx pref = done at hrep ⊢
    obtain ⟨res, b'⟩ := done
    cases res with
    | error e => exact ⟨b', _, rfl, hrep, fun t n h => .inl (Results.fail_ok h), fun t h => Results.fail_of_forall_ne h⟩
    | ok u =>
      refine ⟨b', _, rfl, hrep, fun t n h => ?_, fun t h => Results.assign_of_forall_ne h⟩
      exact (Results.assign_ok h).imp id fun ⟨i, e, he⟩ => ⟨base, i, e, rfl, he⟩

theorem Good.ticket_lt (h : Good o s m) {e : Entry} (he : e ∈ s.inFlight) : e.ticket < s.sends.length := by
  obtain ⟨x, hx, -⟩ := h.waiting e he
  exact (List.getElem?_eq_some_iff.mp hx).1

omit [Store σ] [Contract σ] in
theorem lt_succ {n : UInt64} (h : n + 1 ≠ 0) : n < n + 1 := by
  have hn := n.toNat_lt
  have hne : (n + 1).toNat ≠ 0 := fun h0 => h (UInt64.toNat_inj.mp h0)
  rw [UInt64.lt_iff_toNat_lt]
  rw [UInt64.toNat_add, UInt64.toNat_one] at hne ⊢
  omega

theorem Good.stamp (h : Good o s m) (r : Record) (hwrap : s.idempSeqs pref + 1 ≠ 0) : Good o (s.stamp o pref r) m := by
  have hsucc : s.idempSeqs pref < s.idempSeqs pref + 1 := lt_succ hwrap
  have hgrow : ∀ q, s.idempSeqs q ≤ (s.stamp o pref r).idempSeqs q := by
    intro q
    by_cases hq : q = pref
    · subst hq
      simpa [State.stamp] using UInt64.le_of_lt hsucc
    · simp [State.stamp, update_of_ne hq]
  have hnew : ∀ i x, (s.sends ++ [⟨pref, s.idempSeqs pref, r⟩])[i]? = some x →
      s.sends[i]? = some x ∨ i = s.sends.length ∧ x = ⟨pref, s.idempSeqs pref, r⟩ := by
    intro i x hx
    rcases Nat.lt_trichotomy i s.sends.length with hi | rfl | hi
    · rw [List.getElem?_append_left hi] at hx
      exact .inl hx
    · rw [List.getElem?_concat_length] at hx
      exact .inr ⟨rfl, (Option.some.inj hx).symm⟩
    · rw [List.getElem?_eq_none (by rw [length_append]; exact hi)] at hx
      cases hx
  have hflight : (s.stamp o pref r).inFlight.Perm
      (⟨s.sends.length, pref, stampIdempotencyHeaders o.producerID (s.idempSeqs pref) r⟩ :: s.inFlight) := by
    simp only [inFlight, State.stamp, append_assoc]
    exact perm_middle
  refine ⟨h.rep, ?_, fun e he => ?_, h.flights, fun x hx => ?_, fun i j x y hx hy hpref hseq => ?_,
    fun p x hx seq hkey => ?_, fun t ht => h.unsent t ?_, fun t x n hx hn => ?_⟩
  · refine (hflight.map _).nodup_iff.mpr (nodup_cons.mpr ⟨fun hmem => ?_, h.tickets⟩)
    obtain ⟨e, he, heq⟩ := mem_map.mp hmem
    exact absurd (h.ticket_lt he) (by rw [heq]; exact Nat.lt_irrefl _)
  · rcases mem_cons.mp (hflight.mem_iff.mp he) with rfl | he
    · refine ⟨⟨pref, s.idempSeqs pref, r⟩, List.getElem?_concat_length, rfl, rfl, fun x hx hkey => ?_⟩
      exact UInt64.lt_irrefl _ (h.stored pref x hx _ hkey)
    · obtain ⟨x, hx, hrest⟩ := h.waiting e he
      exact ⟨x, getElem?_extend hx _, hrest⟩
  · rcases mem_append.mp hx with hx | hx
    · exact UInt64.lt_of_lt_of_le (h.below x hx) (hgrow x.pref)
    · obtain rfl := mem_singleton.mp hx
      simpa [State.stamp] using hsucc
  · rcases hnew i x hx with hx | ⟨rfl, rfl⟩ <;> rcases hnew j y hy with hy | ⟨rfl, rfl⟩
    · exact h.distinct i j x y hx hy hpref hseq
    · have := h.below x (mem_of_getElem? hx)
      rw [hpref, hseq] at this
      exact absurd this (UInt64.lt_irrefl _)
    · have := h.below y (mem_of_getElem? hy)
      rw [← hpref, ← hseq] at this
      exact absurd this (UInt64.lt_irrefl _)
    · rfl
  · exact UInt64.lt_of_lt_of_le (h.stored p x hx seq hkey) (hgrow p)
  · simp only [State.stamp, length_append] at ht
    omega
  · rcases hnew t x hx with hx | ⟨rfl, rfl⟩
    · exact h.acked t x n hx hn
    · rw [show (s.stamp o pref r).results = s.results from rfl, h.unsent _ (Nat.le_refl _)] at hn
      cases hn

theorem Good.discard (h : Good o s m) (hsends : s'.sends = s.sends) (hseqs : s'.idempSeqs = s.idempSeqs)
    (hbroker : s'.broker = s.broker) (gone : List Entry) (hperm : s.inFlight.Perm (gone ++ s'.inFlight))
    (hflights : ∀ f ∈ s'.flights, f ∈ s.flights ∨ f.2 ≠ [] ∧ ∀ e ∈ f.2, e.pref = f.1)
    (hacked : ∀ t n, s'.results t = some (.ok n) → s.results t = some (.ok n))
      (hunsent : ∀ t, s.sends.length ≤ t → s'.results t = none) :
    Good o s' m :=
  h.settle hsends hseqs hperm hflights (hbroker ▸ h.rep) nil_prefix (p := ⟨[], 0⟩) nofun (.nil _ m)
    (fun t n hn => .inl (hacked t n hn)) hunsent

theorem Good.finish (h : Good o s m) (s₁ : State σ) (hsends : s₁.sends = s.sends) (hseqs : s₁.idempSeqs = s.idempSeqs)
    (hresults : s₁.results = s.results) (hperm : s.inFlight.Perm (entries ++ s₁.inFlight))
      (hflights : ∀ f ∈ s₁.flights, f ∈ s.flights)
    (hp : ∀ e ∈ entries, e.pref = p) (syncCtx : Ctx) {called : Except BrokerError Int × Broker σ}
    (hcalled : ∃ m' taken, Contract.Rep called.2.store m' ∧ Landed p m m' taken ∧ taken <+: entries.map Entry.record ∧
      ∀ n, called.1 = .ok n → n = (m p).length ∧ taken = entries.map Entry.record) :
    ∃ m', Good o (s₁.finish o p entries syncCtx called) m' := by
  obtain ⟨m', taken, rep', hlanded, hprefix, hok⟩ := hcalled
  obtain ⟨b, results, hfinish, hrep, hacked, hkept⟩ := finish_spec o s₁ p entries syncCtx called
  have htaken : taken = (entries.take taken.length).map Entry.record := by
    rw [map_take]
    exact prefix_iff_eq_take.mp hprefix
  rw [htaken] at hlanded
  rw [hfinish]
  refine ⟨m', h.settle hsends hseqs hperm (fun f hf => .inl (hflights f hf)) (hrep m' rep') ( take_prefix _ entries)
    (fun e he => hp e (mem_of_mem_take he)) hlanded (fun t n hn => ?_) fun t ht => ?_⟩
  · rcases hacked t n hn with hn | ⟨base, i, e, hbase, he, hticket, hn⟩
    · exact .inl (hresults ▸ hn)
    · obtain ⟨rfl, hall⟩ := hok base hbase
      refine .inr ⟨i, e, ?_, hticket, hn⟩
      rw [hall, length_map, take_length]
      exact he
  · have hne : ∀ e ∈ entries, t ≠ e.ticket := by
      intro e he heq
      exact absurd (h.ticket_lt (hperm.mem_iff.mpr (mem_append_left _ he))) (by rw [← heq]; exact Nat.not_lt.mpr ht)
    exact (hkept t hne).trans (hresults ▸ h.unsent t ht)

/-! ### Runs -/

omit [Contract σ] in
/-- The delivery of a step is in sequence, and a stamping does not wrap the counter. -/
def Orderly (o : Options) (s : State σ) : Action → Prop
  | .stamp pref _ => s.idempSeqs pref + 1 ≠ 0
  | .proceed i _ _ => o.linger = false → ∀ e, s.ready[i]? = some e → s.broker.InSequence e.pref [e.record]
  | .deliver i _ _ => ∀ f, s.flights[i]? = some f → s.broker.InSequence f.1 (f.2.map Entry.record)
  | _ => True

/-- The broker has room for what the step delivers. -/
def HasRoom (o : Options) (s : State σ) : Action → Prop
  | .proceed i env _ => o.linger = false → ∀ e, s.ready[i]? = some e → s.broker.HasRoom ⟨env, e.pref, e.record⟩
  | .deliver i env _ => ∀ f, s.flights[i]? = some f → Along Broker.next s.broker (calls f.1 env f.2) Broker.HasRoom
  | _ => True

omit [Store σ] [Contract σ] in
theorem calls_record (pref : PartitionRef) (env : Nat → Env) (entries : List Entry) :
    (calls pref env entries).map Call.record = entries.map Entry.record := by
  induction entries generalizing env with
  | nil => rfl
  | cons e rest ih => rw [calls, map_cons, ih, map_cons]

omit [Store σ] [Contract σ] in
theorem calls_p {env : Nat → Env} {c : Call} (h : c ∈ calls pref env entries) : c.p = pref := by
  induction entries generalizing env with
  | nil => cases h
  | cons e rest ih =>
    rcases mem_cons.mp h with rfl | h
    · rfl
    · exact ih h

omit [Store σ] [Contract σ] in
theorem perm_ready {e : Entry} (h : s.ready[i]? = some e) :
    s.inFlight.Perm (e :: (s.ready.eraseIdx i ++ s.pending ++ s.flights.flatMap Prod.snd)) :=
  ((perm_eraseIdx h).append_right _).append_right _

omit [Store σ] [Contract σ] in
theorem perm_pending (s : State σ) (pref : PartitionRef) :
    s.inFlight.Perm (s.pending.filter (fun e => decide (e.pref = pref)) ++
      (s.ready ++ s.pending.filter (fun e => decide (e.pref ≠ pref)) ++ s.flights.flatMap Prod.snd)) := by
  have hsplit : s.pending.Perm (s.pending.filter (fun e => decide (e.pref = pref)) ++
      s.pending.filter (fun e => decide (e.pref ≠ pref))) := by
    simpa only [decide_not] using (filter_append_perm (fun e => decide (e.pref = pref)) s.pending).symm
  refine ((hsplit.append_left s.ready).append_right _).trans ?_
  simp only [← append_assoc]
  exact (perm_append_comm.append_right _).append_right _

theorem Good.fails (h : Good o s m) (hsends : s'.sends = s.sends) (hseqs : s'.idempSeqs = s.idempSeqs)
    (hbroker : s'.broker = s.broker) (gone : List Entry) (hperm : s.inFlight.Perm (gone ++ s'.inFlight))
    (hflights : s'.flights = s.flights) (ht : t < s.sends.length)
    (hresults : s'.results = s.results.resolve t (.error e)) : Good o s' m := by
  refine h.discard hsends hseqs hbroker gone hperm (fun f hf => .inl (hflights ▸ hf)) (fun u n hn => ?_) fun u hu => ?_
  · rw [hresults] at hn
    rcases Results.resolve_ok hn with hn | ⟨-, hn⟩
    · exact hn
    · cases hn
  · rw [hresults, Results.resolve_of_ne (Nat.ne_of_gt (Nat.lt_of_lt_of_le ht hu))]
    exact h.unsent u hu

theorem Good.step (h : Good o s m) {a : Action} (orderly : s.Orderly o a) (room : s.HasRoom o a) :
    ∃ m', Good o (s.step o a) m' := by
  cases a with
  | stamp pref r => exact ⟨m, h.stamp r orderly⟩
  | refuse i =>
    rw [State.step]
    cases he : s.ready[i]? with
    | none => exact ⟨m, h⟩
    | some e =>
      have hperm := perm_ready he
      exact ⟨m, h.fails rfl rfl rfl [e] hperm rfl (h.ticket_lt (hperm.mem_iff.mpr mem_cons_self)) rfl⟩
  | proceed i env syncCtx =>
    rw [State.step]
    cases he : s.ready[i]? with
    | none => exact ⟨m, h⟩
    | some e =>
      have hperm := perm_ready he
      dsimp only
      rw [proceed]
      cases hlinger : o.linger with
      | false =>
        refine h.finish { s with ready := s.ready.eraseIdx i } rfl rfl rfl hperm (fun f hf => hf)
          (fun x hx => by rw [mem_singleton.mp hx]) syncCtx ?_
        obtain ⟨m', taken, rep', hlanded, hprefix, hok, -⟩ :=
          call_inSequence h.rep (room hlinger e he) ((orderly hlinger e he).above _ mem_cons_self)
        exact ⟨m', taken, rep', hlanded, hprefix, hok⟩
      | true =>
        rw [if_pos rfl]
        split
        · exact ⟨m, h.fails rfl rfl rfl [e] hperm rfl (h.ticket_lt (hperm.mem_iff.mpr mem_cons_self)) rfl⟩
        · refine ⟨m, h.discard rfl rfl rfl [] (hperm.trans ?_) (fun f hf => .inl hf) (fun t n hn => hn) h.unsent⟩
          simp only [inFlight, nil_append, append_assoc]
          rw [← append_assoc, ← append_assoc]
          exact perm_middle.symm
  | abandon t e =>
    rw [State.step]
    split
    · exact ⟨m, h.fails rfl rfl rfl [] (List.Perm.refl _) rfl ‹_› rfl⟩
    · exact ⟨m, h⟩
  | take pref =>
    refine ⟨m, ?_⟩
    simp only [State.step, State.take]
    split
    · exact h
    · refine h.discard rfl rfl rfl [] ((perm_pending s pref).trans ?_) (fun f hf => ?_) (fun t n hn => hn) h.unsent
      · simp only [inFlight, flatMap_append, flatMap_singleton]
        rw [← append_assoc (s.ready ++ _)]
        exact perm_append_comm
      · rcases mem_append.mp hf with hf | hf
        · exact .inl hf
        · rw [mem_singleton.mp hf]
          exact .inr ⟨‹_›, fun e he => of_decide_eq_true (mem_filter.mp he).2⟩
  | deliver i env syncCtx =>
    rw [State.step]
    cases hf : s.flights[i]? with
    | none => exact ⟨m, h⟩
    | some f =>
      obtain ⟨pref, entries⟩ := f
      obtain ⟨hne, hpref⟩ := h.flights _ (mem_of_getElem? hf)
      refine h.finish { s with flights := s.flights.eraseIdx i } rfl rfl rfl ?_ (fun f hf => mem_of_mem_eraseIdx hf) hpref
        syncCtx ?_
      · refine (((perm_eraseIdx hf).flatMap_right Prod.snd).append_left (s.ready ++ s.pending)).trans ?_
        simp only [inFlight, flatMap_cons, ← append_assoc]
        refine List.Perm.append_right _ ?_
        rw [append_assoc entries]
        exact perm_append_comm
      · have hseq := orderly _ hf
        rw [← calls_record pref env] at hseq ⊢
        refine publishBatch_spec (fun c hc => calls_p hc) ?_ h.rep (room _ hf) hseq
        obtain ⟨e, rest, rfl⟩ := exists_cons_of_ne_nil hne
        exact cons_ne_nil _ _
  | shutdown pref =>
    have hperm := perm_pending s pref
    refine ⟨m, h.discard rfl rfl rfl _ hperm (fun f hf => .inl hf) (fun t n hn => Results.fail_ok hn) fun t ht => ?_⟩
    refine (Results.fail_of_forall_ne fun e he heq => ?_).trans (h.unsent t ht)
    exact absurd (h.ticket_lt (hperm.mem_iff.mpr (mem_append_left _ he))) (by rw [← heq]; exact Nat.not_lt.mpr ht)

theorem good_start (rep : Contract.Rep b.store m)
    (hnew : ∀ p, ∀ r ∈ m p, ∀ seq, producerIdempKey r ≠ some (o.producerID, seq)) : Good o (start b) m where
  rep := rep
  tickets := nodup_nil
  waiting := nofun
  flights := nofun
  below := nofun
  distinct := nofun
  stored p r hr seq hkey := absurd hkey (hnew p r hr seq)
  unsent _ _ := rfl
  acked := nofun

/-- In every run whose deliveries are all in sequence, a Send that returned an offset has its record there,
    nowhere else in the partition, and shares it with no other Send. -/
theorem acked_stored {o : Options} {b : Broker σ} {m : Contents} (rep : Contract.Rep b.store m)
    (hnew : ∀ p, ∀ r ∈ m p, ∀ seq, producerIdempKey r ≠ some (o.producerID, seq)) (run : List Action)
    (room : Along (step o) (start b) run (HasRoom o)) (orderly : Along (step o) (start b) run (Orderly o)) :
    ∀ (t : Nat) (x : Sent) (n : Int), (run.foldl (step o) (start b)).sends[t]? = some x →
      (run.foldl (step o) (start b)).results t = some (.ok n) →
      (∃ (rs : List Record) (i : Nat) (r : Record), contents (run.foldl (step o) (start b)).broker.store x.pref =
        .ok rs ∧ n = i ∧ UniqueAt rs (x.key o) i r ∧ Carries r (x.stamped o)) ∧
      ∀ (u : Nat) (y : Sent), (run.foldl (step o) (start b)).sends[u]? = some y → y.pref = x.pref →
        (run.foldl (step o) (start b)).results u = some (.ok n) → u = t := by
  have hgood : ∃ m', Good o (run.foldl (step o) (start b)) m' :=
    Along.invariant (fun _ s => ∃ m', Good o s m')
      (fun _ s a ⟨_, h⟩ hcond => h.step hcond.1 hcond.2) ⟨m, good_start rep hnew⟩ (orderly.and room)
  obtain ⟨m', hgood⟩ := hgood
  intro t x n hx hn
  obtain ⟨i, r, hi, hat, hcarries⟩ := hgood.acked t x n hx hn
  refine ⟨⟨m' x.pref, i, r, Contract.contents_eq hgood.rep x.pref, hi, hat, hcarries⟩, fun u y hy hpref hu => ?_⟩
  obtain ⟨j, r', hj, hat', -⟩ := hgood.acked u y n hy hu
  have hsame := hat'.get
  rw [hpref, ← Int.ofNat.inj (hi.symm.trans hj), hat.get] at hsame
  cases hsame
  have hkeys := hat.keyed.symm.trans hat'.keyed
  exact hgood.distinct u t y x hy hx hpref (congrArg Prod.snd (Option.some.inj hkeys)).symm

/-! ### Two Sends -/

def direct : Options := ⟨utf8 "p", by decide +kernel, false, .acksLocal⟩

def stampValue (v : UInt8) : Action := .stamp ⟨utf8 "t", 0⟩ ⟨0, 0, none, some [v], []⟩

def publishAt (i : Nat) : Action := .proceed i ⟨.background, 5, none⟩ .background

instance : DecidableRel Before := fun x y =>
  decidable_of_iff (∀ a ∈ producerIdempKey x, ∀ b ∈ producerIdempKey y, a.1 = b.1 → a.2 < b.2)
    ⟨fun h _ _ _ hx hy => h _ hx _ hy rfl, by rintro h ⟨id, s⟩ hx ⟨id', t⟩ hy rfl; exact h id s t hx hy⟩

instance (b : Broker σ) (p : PartitionRef) (rs : List Record) : Decidable (b.InSequence p rs) :=
  decidable_of_iff (rs.Pairwise Before ∧ ∀ r ∈ rs, ∀ key ∈ producerIdempKey r, ∀ cp ∈ b.dedup p key.1, cp.lastSeq < key.2)
    ⟨fun h => ⟨h.1, fun r hr _ _ cp hkey hcp => h.2 r hr _ hkey cp hcp⟩,
      fun h => ⟨h.ascending, fun r hr _ hkey cp hcp => h.above r hr _ _ cp hkey hcp⟩⟩

instance (o : Options) (s : State σ) : (a : Action) → Decidable (s.Orderly o a)
  | .stamp _ _ => inferInstanceAs (Decidable (_ ≠ _))
  | .proceed i _ _ => inferInstanceAs (Decidable (_ → ∀ e ∈ s.ready[i]?, _))
  | .deliver i _ _ => inferInstanceAs (Decidable (∀ f ∈ s.flights[i]?, _))
  | .refuse _ | .abandon _ _ | .take _ | .shutdown _ => .isTrue trivial

theorem state_hasRoom_memory (o : Options) (s : State MemoryStore) (a : Action) : s.HasRoom o a := by
  cases a with
  | proceed i env syncCtx => exact fun _ _ _ => hasRoom_memory _ _
  | deliver i env syncCtx => exact fun _ _ _ _ _ _ => hasRoom_memory _ _
  | _ => trivial

def lingering : Options := { direct with linger := true }

def enqueue : Action := .proceed 0 ⟨.background, 5, none⟩ .background

def flush : List Action := [.take ⟨utf8 "t", 0⟩, .deliver 0 (fun _ => ⟨.background, 5, none⟩) .background]

/-- Two Sends share a batch; a third stamps its record while the batch is on its way. -/
def overlapping : List Action := [stampValue 1, stampValue 2, enqueue, enqueue, stampValue 3] ++ flush ++ enqueue :: flush

theorem acked_stored_overlapping :
    (overlapping.foldl (step lingering) (start single)).results 1 = some (.ok 1) ∧
      ∃ rs r, contents (overlapping.foldl (step lingering) (start single)).broker.store ⟨utf8 "t", 0⟩ = .ok rs ∧
        UniqueAt rs (utf8 "p", 1) 1 r ∧
        Carries r (stampIdempotencyHeaders (utf8 "p") 1 ⟨0, 0, none, some [2], []⟩) := by
  have hres : (overlapping.foldl (step lingering) (start single)).results 1 = some (.ok 1) := by decide +kernel
  have horderly : Along (step lingering) (start single) overlapping (Orderly lingering) := by decide +kernel
  have hacked := acked_stored (m := fun _ => []) (fun _ => rfl) nofun overlapping
    (fun _ _ _ _ => state_hasRoom_memory _ _ _) horderly
    1 ⟨⟨utf8 "t", 0⟩, 1, ⟨0, 0, none, some [2], []⟩⟩ 1 (by decide +kernel) hres
  obtain ⟨⟨rs, i, r, hrs, hi, hat, hcarries⟩, -⟩ := hacked
  cases Int.ofNat.inj hi
  exact ⟨hres, rs, r, hrs, hat, hcarries⟩

/-- Two Sends stamp their records and publish them the other way round: both return offset 0, where the
    second one's record stands alone. -/
theorem acked_lost :
    ([stampValue 1, stampValue 2, publishAt 1, publishAt 0].foldl (step direct) (start single)).results 0 = some (.ok 0) ∧
      ([stampValue 1, stampValue 2, publishAt 1, publishAt 0].foldl (step direct) (start single)).results 1 = some (.ok 0) ∧
      contents ([stampValue 1, stampValue 2, publishAt 1, publishAt 0].foldl (step direct) (start single)).broker.store
        ⟨utf8 "t", 0⟩ = .ok [Storage.stamp 5 0 (stampIdempotencyHeaders (utf8 "p") 1 ⟨0, 0, none, some [2], []⟩)] := by
  decide +kernel

end State
end Holocron.Sdk

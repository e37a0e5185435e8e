import Holocron.Lib.Run
import Holocron.Sdk.Consumer

/-! The pumps of a consumer and the queue between them and Poll: which pump runs, what a step of a pump can do
    and what Poll takes. -/

namespace Holocron.Sdk
open Lib List

def Hand.Holds (h : Hand) (r : Record) : Prop := h = .received r ∨ h = .recorded r

def Hand.record : Hand → Option Record
  | .empty => none
  | .received r | .recorded r => some r

theorem Hand.not_holds_empty (r : Record) : ¬ Hand.empty.Holds r := nofun

theorem Hand.holds_received {r x : Record} (h : (Hand.received r).Holds x) : x = r := by
  rcases h with h | h <;> cases h
  rfl

theorem Hand.holds_recorded {r x : Record} (h : (Hand.recorded r).Holds x) : x = r := by
  rcases h with h | h <;> cases h
  rfl

structure Pump.Continues (y x : Pump) : Prop where
  partition : x.partition = y.partition
  hand : x.hand = y.hand
  next : x.next = y.next
  history : x.history = y.history
  running : x.cancelled = false → y.cancelled = false

theorem Pump.Continues.refl (x : Pump) : Pump.Continues x x := ⟨rfl, rfl, rfl, rfl, id⟩

variable {x : Pump}

theorem Pump.Continues.trans {y z : Pump} (h₁ : Continues z y) (h₂ : Continues y x) : Continues z x :=
  ⟨h₂.partition.trans h₁.partition, h₂.hand.trans h₁.hand, h₂.next.trans h₁.next, h₂.history.trans h₁.history,
    fun hrun => h₁.running (h₂.running hrun)⟩

namespace Consumer

def Registered (c : Consumer) : Prop :=
  ∀ (k : Nat) (pump : Pump), c.pumps[k]? = some pump → pump.cancelled = false → c.pumpCancel.lookup pump.partition = some k

theorem cancel_getElem? (c : Consumer) (k j : Nat) :
    (c.cancel k).pumps[j]? = (c.pumps[j]?).map fun pump => if k = j then { pump with cancelled := true } else pump := by
  simp only [cancel, getElem?_modify]
  cases c.pumps[j]? with
  | none => rfl
  | some pump => by_cases h : k = j <;> simp [h]

variable {c : Consumer} {j k : Nat} {pump : Pump} {p : PartitionRef} {fromOffset : Int} {assignments : List Assigned}

theorem of_cancel (h : (c.cancel k).pumps[j]? = some pump) (hrun : pump.cancelled = false) :
    c.pumps[j]? = some pump ∧ j ≠ k := by
  rw [cancel_getElem?] at h
  obtain ⟨pump₀, hpump₀, heq⟩ := Option.map_eq_some_iff.mp h
  by_cases hk : k = j
  · rw [if_pos hk] at heq
    rw [← heq] at hrun
    cases hrun
  · rw [if_neg hk] at heq
    exact ⟨heq ▸ hpump₀, fun hj => hk hj.symm⟩

theorem cancel_continues (h : (c.cancel k).pumps[j]? = some x) : ∃ y, c.pumps[j]? = some y ∧ y.Continues x := by
  rw [cancel_getElem?] at h
  obtain ⟨y, hy, rfl⟩ := Option.map_eq_some_iff.mp h
  refine ⟨y, hy, ?_⟩
  split
  · exact ⟨rfl, rfl, rfl, rfl, nofun⟩
  · exact .refl y

theorem length_cancel (c : Consumer) (k : Nat) : (c.cancel k).pumps.length = c.pumps.length := length_modify ..

theorem cancelPumpsLocked_none (h : c.Registered) (hpump : c.cancelPumpsLocked.pumps[k]? = some pump) :
    pump.cancelled = true := by
  have hfold : ∀ (entries : List (Sigma fun _ : PartitionRef => Nat)) (d : Consumer) j x,
      (entries.foldl (fun c e => c.cancel e.2) d).pumps[j]? = some x → x.cancelled = false →
        d.pumps[j]? = some x ∧ ∀ e ∈ entries, j ≠ e.2 := by
    intro entries
    induction entries with
    | nil => exact fun d j x hx _ => ⟨hx, nofun⟩
    | cons e rest ih =>
      intro d j x hx hrun
      obtain ⟨hx', hrest⟩ := ih (d.cancel e.2) j x hx hrun
      obtain ⟨hx'', hne⟩ := of_cancel hx' hrun
      refine ⟨hx'', fun e' he' => ?_⟩
      rcases mem_cons.mp he' with rfl | he'
      · exact hne
      · exact hrest e' he'
  by_contra hrun
  obtain ⟨hpump', hall⟩ := hfold _ c k pump hpump (Bool.not_eq_true _ ▸ hrun)
  have hmem := AList.mem_lookup_iff.mp (h k pump hpump' (Bool.not_eq_true _ ▸ hrun))
  exact hall _ hmem rfl

structure SameQueue (c d : Consumer) : Prop where
  fanIn : d.fanIn = c.fanIn
  assignment : d.assignment = c.assignment
  latest : d.latest = c.latest
  polledMax : d.polledMax = c.polledMax
  seekFloor : d.seekFloor = c.seekFloor
  closed : d.closed = c.closed

theorem SameQueue.trans {d e : Consumer} (h₁ : SameQueue c d) (h₂ : SameQueue d e) : SameQueue c e :=
  ⟨h₂.fanIn.trans h₁.fanIn, h₂.assignment.trans h₁.assignment, h₂.latest.trans h₁.latest, h₂.polledMax.trans h₁.polledMax,
    h₂.seekFloor.trans h₁.seekFloor, h₂.closed.trans h₁.closed⟩

theorem cancelPumpsLocked_sameQueue (c : Consumer) : SameQueue c c.cancelPumpsLocked := by
  have hfold : ∀ (entries : List (Sigma fun _ : PartitionRef => Nat)) d,
      SameQueue d (entries.foldl (fun c e => c.cancel e.2) d) := by
    intro entries
    induction entries with
    | nil => exact fun d => ⟨rfl, rfl, rfl, rfl, rfl, rfl⟩
    | cons e rest ih => exact fun d => SameQueue.trans (d := d.cancel e.2) ⟨rfl, rfl, rfl, rfl, rfl, rfl⟩ (ih (d.cancel e.2))
  obtain ⟨h₁, h₂, h₃, h₄, h₅, h₆⟩ := hfold c.pumpCancel.entries c
  exact ⟨h₁, h₂, h₃, h₄, h₅, h₆⟩

section
variable (c : Consumer) (p : PartitionRef)

theorem displace_sameQueue : SameQueue c (c.displace p) := by
  unfold displace
  split <;> exact ⟨rfl, rfl, rfl, rfl, rfl, rfl⟩

theorem displace_pumpCancel : (c.displace p).pumpCancel = c.pumpCancel := by
  unfold displace
  split <;> rfl

theorem length_displace : (c.displace p).pumps.length = c.pumps.length := by
  unfold displace
  split
  · exact c.length_cancel _
  · rfl

end

/-- A pump that runs on is of another partition. -/
theorem of_displace (h : c.Registered) (hpump : (c.displace p).pumps[j]? = some pump) (hrun : pump.cancelled = false) :
    c.pumps[j]? = some pump ∧ pump.partition ≠ p := by
  unfold displace at hpump
  split at hpump
  · rename_i k hk
    obtain ⟨hpump', hne⟩ := of_cancel hpump hrun
    refine ⟨hpump', fun hp => hne ?_⟩
    have hreg := h j pump hpump' hrun
    rw [hp, hk] at hreg
    exact (Option.some.inj hreg).symm
  · rename_i hk
    refine ⟨hpump, fun hp => ?_⟩
    have hreg := h j pump hpump hrun
    rw [hp, hk] at hreg
    cases hreg

theorem displace_continues (h : (c.displace p).pumps[j]? = some x) : ∃ y, c.pumps[j]? = some y ∧ y.Continues x := by
  unfold displace at h
  split at h
  · exact cancel_continues h
  · exact ⟨x, h, .refl x⟩

theorem startPump_sameQueue (c : Consumer) (p : PartitionRef) (fromOffset : Int) (ok : Bool) :
    SameQueue c (c.startPump p fromOffset ok).2 := by
  obtain ⟨h₁, h₂, h₃, h₄, h₅, h₆⟩ := c.displace_sameQueue p
  unfold startPump
  split
  · exact ⟨rfl, rfl, rfl, rfl, rfl, rfl⟩
  · split <;> exact ⟨h₁, h₂, h₃, h₄, h₅, h₆⟩

theorem startPump_running (h : c.Registered) {ok : Bool} (hpump : (c.startPump p fromOffset ok).2.pumps[j]? = some pump)
    (hrun : pump.cancelled = false) :
    c.pumps[j]? = some pump ∧ (c.closed = false → pump.partition ≠ p) ∨
      j = c.pumps.length ∧ pump = ⟨p, fromOffset, false, false, .empty, []⟩ := by
  unfold startPump at hpump
  split at hpump
  · rename_i hclosed
    exact .inl ⟨hpump, fun hopen => absurd (hopen.symm.trans hclosed) Bool.false_ne_true⟩
  · split at hpump
    · rcases Nat.lt_trichotomy j (c.displace p).pumps.length with hj | hj | hj
      · rw [getElem?_append_left hj] at hpump
        exact .inl ((of_displace h hpump hrun).imp id fun hne _ => hne)
      · subst hj
        rw [getElem?_concat_length] at hpump
        exact .inr ⟨c.length_displace p, (Option.some.inj hpump).symm⟩
      · rw [getElem?_eq_none (by rw [length_append]; exact hj)] at hpump
        cases hpump
    · exact .inl ((of_displace h hpump hrun).imp id fun hne _ => hne)

theorem startPump_continues {ok : Bool} (h : (c.startPump p fromOffset ok).2.pumps[j]? = some x) :
    (∃ y, c.pumps[j]? = some y ∧ y.Continues x) ∨ x = ⟨p, fromOffset, false, false, .empty, []⟩ := by
  unfold startPump at h
  split at h
  · exact .inl ⟨x, h, .refl x⟩
  · split at h
    · rw [getElem?_append] at h
      split at h
      · exact .inl (displace_continues h)
      · exact .inr (mem_singleton.mp (mem_of_getElem? h))
    · exact .inl (displace_continues h)

theorem startPump_registered (h : c.Registered) (p : PartitionRef) (fromOffset : Int) (ok : Bool) :
    (c.startPump p fromOffset ok).2.Registered := by
  intro j pump hpump hrun
  cases hclosed : c.closed with
  | true =>
    simp only [startPump, hclosed] at hpump ⊢
    exact h j pump hpump hrun
  | false =>
    rcases startPump_running h hpump hrun with ⟨hold, hne⟩ | ⟨rfl, rfl⟩
    · have hlookup := h j pump hold hrun
      cases ok <;> simp [startPump, hclosed, displace_pumpCancel, AList.lookup_insert_ne (hne hclosed),
        AList.lookup_erase_ne (hne hclosed), hlookup]
    · cases ok with
      | true => simp [startPump, hclosed, length_displace]
      | false =>
        simp only [startPump, hclosed, Bool.false_eq_true, ↓reduceIte] at hpump
        rw [getElem?_eq_none (by rw [length_displace])] at hpump
        cases hpump

theorem startAll_registered (h : c.Registered) (fromOffset : Int) (assignments : List Assigned) :
    (c.startAll fromOffset assignments).Registered := by
  induction assignments generalizing c with
  | nil => exact h
  | cons a rest ih =>
    rw [startAll]
    have hstart := startPump_registered h a.partition (startOffset a.committed fromOffset) a.ok
    split
    · rename_i c' heq
      rw [heq] at hstart
      exact ih hstart
    · rename_i c' heq
      rw [heq] at hstart
      exact hstart

theorem startAll_sameQueue (c : Consumer) (fromOffset : Int) (assignments : List Assigned) :
    SameQueue c (c.startAll fromOffset assignments) := by
  induction assignments generalizing c with
  | nil => exact ⟨rfl, rfl, rfl, rfl, rfl, rfl⟩
  | cons a rest ih =>
    rw [startAll]
    have hstart := c.startPump_sameQueue a.partition (startOffset a.committed fromOffset) a.ok
    split
    · rename_i c' heq
      rw [heq] at hstart
      exact hstart.trans (ih c')
    · rename_i c' heq
      rw [heq] at hstart
      exact hstart

theorem startAll_continues (h : (c.startAll fromOffset assignments).pumps[j]? = some x) :
    (∃ y, c.pumps[j]? = some y ∧ y.Continues x) ∨
      ∃ a ∈ assignments, Pump.Continues ⟨a.partition, startOffset a.committed fromOffset, false, false, .empty, []⟩ x := by
  induction assignments generalizing c with
  | nil => exact .inl ⟨x, h, .refl x⟩
  | cons a rest ih =>
    rw [startAll] at h
    split at h
    · rename_i c' heq
      rcases ih h with ⟨y, hy, hyx⟩ | ⟨b, hb, hbx⟩
      · have hstart := @startPump_continues y c j a.partition (startOffset a.committed fromOffset) a.ok (by rw [heq]; exact hy)
        rcases hstart with ⟨z, hz, hzy⟩ | rfl
        · exact .inl ⟨z, hz, hzy.trans hyx⟩
        · exact .inr ⟨a, mem_cons_self, hyx⟩
      · exact .inr ⟨b, mem_cons_of_mem _ hb, hbx⟩
    · rename_i c' heq
      have hstart := @startPump_continues x c j a.partition (startOffset a.committed fromOffset) a.ok (by rw [heq]; exact h)
      rcases hstart with hold | rfl
      · exact .inl hold
      · exact .inr ⟨a, mem_cons_self, .refl _⟩

inductive Moved (c : Consumer) (k : Nat) : PumpStep → Consumer → Prop where
  | idle (step : PumpStep) : Moved c k step c
  | receive {pump : Pump} (r : Record) (pumpAt : c.pumps[k]? = some pump) (hand : pump.hand = .empty)
      (le : pump.next ≤ r.offset) : Moved c k (.receive r)
        (c.setPump k { pump with next := r.offset + 1, hand := .received r, history := pump.history ++ [r] })
  | note {pump : Pump} {r : Record} (pumpAt : c.pumps[k]? = some pump) (hand : pump.hand = .received r) :
      Moved c k .note ((c.setPump k { pump with hand := .recorded r }).recordLatest pump.partition r.offset)
  | send {pump : Pump} {r : Record} (pumpAt : c.pumps[k]? = some pump) (hand : pump.hand = .recorded r) :
      Moved c k .send { c.setPump k { pump with hand := .empty } with fanIn := c.fanIn ++ [⟨pump.partition, .ok r⟩] }
  | forward {pump : Pump} (e : ProtocolError) (pumpAt : c.pumps[k]? = some pump) :
      Moved c k (.forward e) { c with fanIn := c.fanIn ++ [⟨pump.partition, .error e⟩] }
  | exit {pump : Pump} (pumpAt : c.pumps[k]? = some pump) (hand : pump.hand = .empty) :
      Moved c k .exit (c.setPump k { pump with ended := true })
  | drop {pump : Pump} (pumpAt : c.pumps[k]? = some pump) (cancelled : pump.cancelled = true) :
      Moved c k .exit (c.setPump k { pump with ended := true, hand := .empty })

theorem pumpStep_moved (c : Consumer) (k : Nat) (step : PumpStep) : Moved c k step (c.pumpStep k step) := by
  unfold pumpStep
  split
  · exact .idle step
  · rename_i pump hpump
    split
    · exact .idle step
    · split
      · rename_i r hhand
        split
        · rename_i hle
          exact .receive r hpump hhand hle
        · exact .idle _
      · rename_i r hhand
        exact .note hpump hhand
      · rename_i r hhand
        split
        · exact .send hpump hhand
        · exact .idle _
      · rename_i e hhand
        split
        · exact .forward e hpump
        · exact .idle _
      · rename_i hhand
        exact .exit hpump hhand
      · split
        · rename_i hcancelled
          exact .drop hpump hcancelled
        · exact .idle _
      · exact .idle _

theorem recordLatest_sameQueue (c : Consumer) (p : PartitionRef) (offset : Int) :
    (c.recordLatest p offset).fanIn = c.fanIn ∧ (c.recordLatest p offset).pumps = c.pumps ∧
      (c.recordLatest p offset).pumpCancel = c.pumpCancel ∧ (c.recordLatest p offset).assignment = c.assignment ∧
      (c.recordLatest p offset).seekFloor = c.seekFloor ∧ (c.recordLatest p offset).polledMax = c.polledMax ∧
      (c.recordLatest p offset).closed = c.closed := by
  unfold recordLatest
  split
  · split <;> exact ⟨rfl, rfl, rfl, rfl, rfl, rfl, rfl⟩
  · exact ⟨rfl, rfl, rfl, rfl, rfl, rfl, rfl⟩

theorem setPump_getElem? (h : (c.setPump k pump).pumps[j]? = some x) :
    j = k ∧ x = pump ∨ j ≠ k ∧ c.pumps[j]? = some x := of_getElem?_set h

theorem mem_setPump (h : x ∈ (c.setPump k pump).pumps) : x = pump ∨ x ∈ c.pumps := by
  obtain ⟨j, hj⟩ := mem_iff_getElem?.mp h
  rcases setPump_getElem? hj with ⟨-, hx⟩ | ⟨-, hx⟩
  · exact .inl hx
  · exact .inr (mem_of_getElem? hx)

section
variable {c' : Consumer} {step : PumpStep} (h : Moved c k step c')
include h

/-- A step changes neither whose a pump is nor whether it runs. -/
theorem Moved.origin (hx : c'.pumps[j]? = some x) :
    ∃ y, c.pumps[j]? = some y ∧ y.partition = x.partition ∧ y.cancelled = x.cancelled := by
  have hset : ∀ {pump pump'}, c.pumps[k]? = some pump → (c.setPump k pump').pumps[j]? = some x →
      pump.partition = pump'.partition → pump.cancelled = pump'.cancelled →
        ∃ y, c.pumps[j]? = some y ∧ y.partition = x.partition ∧ y.cancelled = x.cancelled := by
    intro pump pump' hpump hj hpartition hcancelled
    rcases setPump_getElem? hj with ⟨rfl, rfl⟩ | ⟨-, hold⟩
    · exact ⟨pump, hpump, hpartition, hcancelled⟩
    · exact ⟨x, hold, rfl, rfl⟩
  cases h with
  | idle => exact ⟨x, hx, rfl, rfl⟩
  | receive r hpump hhand hle => exact hset hpump hx rfl rfl
  | note hpump hhand =>
    rw [(recordLatest_sameQueue _ _ _).2.1] at hx
    exact hset hpump hx rfl rfl
  | send hpump hhand => exact hset hpump hx rfl rfl
  | forward e hpump => exact ⟨x, hx, rfl, rfl⟩
  | exit hpump hhand | drop hpump hcancelled => exact hset hpump hx rfl rfl

theorem Moved.frame :
    c'.pumpCancel = c.pumpCancel ∧ c'.assignment = c.assignment ∧ c'.seekFloor = c.seekFloor ∧ c'.polledMax = c.polledMax ∧
      c'.closed = c.closed := by
  cases h with
  | note hpump hhand =>
    obtain ⟨-, -, h₁, h₂, h₃, h₄, h₅⟩ := recordLatest_sameQueue (c.setPump k _) _ _
    exact ⟨h₁, h₂, h₃, h₄, h₅⟩
  | _ => exact ⟨rfl, rfl, rfl, rfl, rfl⟩

theorem Moved.registered (hreg : c.Registered) : c'.Registered := by
  intro j x hx hrun
  obtain ⟨y, hy, hpartition, hcancelled⟩ := h.origin hx
  rw [h.frame.1, ← hpartition]
  exact hreg j y hy (hcancelled.trans hrun)

end

inductive Taken (c : Consumer) : Except ProtocolError (Option PolledRecord) → Consumer → Prop where
  | error {p : PartitionRef} {e : ProtocolError} {rest : List Inflight} (fanIn : c.fanIn = ⟨p, .error e⟩ :: rest) :
      Taken c (.error e) { c with fanIn := rest }
  | revoked {p : PartitionRef} {r : Record} {rest : List Inflight} (fanIn : c.fanIn = ⟨p, .ok r⟩ :: rest)
      (revoked : p ∉ c.assignment) : Taken c (.ok none) { c with fanIn := rest }
  | below {p : PartitionRef} {r : Record} {rest : List Inflight} {floor : Int} (fanIn : c.fanIn = ⟨p, .ok r⟩ :: rest)
      (sought : c.seekFloor.lookup p = some floor) : Taken c (.ok none) { c with fanIn := rest }
  | returned {p : PartitionRef} {r : Record} {rest : List Inflight} {floors : OffsetMap} (fanIn : c.fanIn = ⟨p, .ok r⟩ :: rest)
      (assigned : p ∈ c.assignment) (floor : floors = c.seekFloor ∨ floors = c.seekFloor.erase p) :
      Taken c (.ok (some ⟨r, p⟩)) { c with fanIn := rest, seekFloor := floors }

theorem takeOne_taken {c' : Consumer} {res : Except ProtocolError (Option PolledRecord)} (h : c.takeOne = some (res, c')) :
    Taken c res c' := by
  unfold takeOne at h
  split at h
  · cases h
  · rename_i x rest hfanIn
    obtain ⟨p, payload⟩ := x
    cases payload with
    | error e =>
      cases h
      exact .error hfanIn
    | ok r =>
      dsimp only at h
      split at h
      · rename_i hrevoked
        cases h
        exact .revoked hfanIn hrevoked
      · rename_i hassigned
        have hassigned := not_not.mp hassigned
        unfold belowSeekFloor at h
        cases hfloor : c.seekFloor.lookup p with
        | none =>
          rw [hfloor] at h
          cases h
          exact .returned hfanIn hassigned (.inl rfl)
        | some floor =>
          rw [hfloor] at h
          dsimp only at h
          by_cases hlt : r.offset < floor
          · rw [if_pos hlt] at h
            cases h
            exact .below hfanIn hfloor
          · rw [if_neg hlt] at h
            cases h
            exact .returned hfanIn hassigned (.inr rfl)

end Consumer
end Holocron.Sdk

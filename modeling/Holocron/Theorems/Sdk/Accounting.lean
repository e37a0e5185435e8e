import Holocron.Theorems.Sdk.Consumer

/-! Where a received record is: with the caller of Poll, in the pump's hand or in the fan-in channel. -/

namespace Holocron.Sdk.Consumer
open Lib List

def lastPump (c : Consumer) (p : PartitionRef) : Option Pump :=
  (c.pumps.filter fun pump => decide (pump.partition = p)).getLast?

variable {p : PartitionRef}

theorem mem_of_lastPump {c : Consumer} {pump : Pump} (h : c.lastPump p = some pump) :
    pump ∈ c.pumps ∧ pump.partition = p := by
  have hmem := mem_filter.mp (mem_of_getLast? h)
  exact ⟨hmem.1, of_decide_eq_true hmem.2⟩

def Traced (c : Consumer) (kept : PolledRecord → Prop) (pump : Pump) (r : Record) : Prop :=
  pump.hand.Holds r ∨ ⟨pump.partition, .ok r⟩ ∈ c.fanIn ∨ kept ⟨r, pump.partition⟩

structure Accounted (c : Consumer) (kept : PolledRecord → Prop) : Prop where
  floor : c.seekFloor = ∅
  registered : c.Registered
  assigned : ∀ pump ∈ c.pumps, pump.cancelled = false → pump.partition ∈ c.assignment
  traced : ∀ pump ∈ c.pumps, pump.cancelled = false → ∀ r ∈ pump.history, c.Traced kept pump r

variable {c : Consumer} {kept kept' : PolledRecord → Prop}

theorem accounted_new : Consumer.new.Accounted kept := by
  refine ⟨rfl, ?_, ?_, ?_⟩
  · intro k pump hpump
    cases hpump
  · intro pump hpump
    cases hpump
  · intro pump hpump
    cases hpump

section
variable (h : c.Accounted kept) {d : Consumer}
include h

theorem Accounted.mono (hkept : ∀ x, kept x → kept' x) : c.Accounted kept' :=
  ⟨h.floor, h.registered, h.assigned, fun pump hpump hrun r hr =>
    (h.traced pump hpump hrun r hr).imp_right (Or.imp_right (hkept _))⟩

theorem Accounted.join (fromOffset : Int) (assignments : List Assigned) : (c.join fromOffset assignments).Accounted kept := by
  unfold Consumer.join
  split
  · exact h
  · have hnone : ∀ (k : Nat) pump, c.cancelPumpsLocked.pumps[k]? = some pump → pump.cancelled = true :=
      fun k pump hpump => cancelPumpsLocked_none h.registered hpump
    generalize hd : { c.cancelPumpsLocked with assignment := assignments.map Assigned.partition } = d
    have hpumps : d.pumps = c.cancelPumpsLocked.pumps := by rw [← hd]
    have hreg : d.Registered := by
      intro k pump hpump hrun
      rw [hpumps] at hpump
      rw [hnone k pump hpump] at hrun
      cases hrun
    -- so a pump that runs is new
    have hnew : ∀ pump ∈ (d.startAll fromOffset assignments).pumps, pump.cancelled = false →
        pump.history = [] ∧ pump.partition ∈ assignments.map Assigned.partition := by
      intro pump hpump hrun
      obtain ⟨k, hk⟩ := mem_iff_getElem?.mp hpump
      rcases startAll_continues hk with ⟨y, hy, hyx⟩ | ⟨a, ha, hax⟩
      · rw [hpumps] at hy
        have hcancelled := hyx.running hrun
        rw [hnone k y hy] at hcancelled
        cases hcancelled
      · rw [hax.history, hax.partition]
        exact ⟨rfl, mem_map_of_mem ha⟩
    have hqueue := d.startAll_sameQueue fromOffset assignments
    refine ⟨?_, startAll_registered hreg fromOffset assignments, ?_, ?_⟩
    · rw [hqueue.seekFloor, ← hd]
      exact c.cancelPumpsLocked_sameQueue.seekFloor.trans h.floor
    · intro pump hpump hrun
      rw [hqueue.assignment, ← hd]
      exact (hnew pump hpump hrun).2
    · intro pump hpump hrun r hr
      rw [(hnew pump hpump hrun).1] at hr
      cases hr

/-- A step of a pump leaves what other pumps have received where it is, and moves what its own has. -/
theorem Accounted.pump (k : Nat) (step : PumpStep) : (c.pumpStep k step).Accounted kept := by
  have hmoved := c.pumpStep_moved k step
  generalize c.pumpStep k step = d at hmoved
  obtain ⟨-, hassignment, hfloor, -⟩ := hmoved.frame
  refine ⟨hfloor.trans h.floor, hmoved.registered h.registered, ?_, ?_⟩
  · intro x hx hrun
    obtain ⟨j, hj⟩ := mem_iff_getElem?.mp hx
    obtain ⟨y, hy, hpartition, hcancelled⟩ := hmoved.origin hj
    have hy' := h.assigned y (mem_of_getElem? hy) (hcancelled.trans hrun)
    rw [hpartition] at hy'
    exact hassignment ▸ hy'
  intro x hx hrun y hy
  cases hmoved with
  | idle => exact h.traced x hx hrun y hy
  | @receive pump r hpump hhand hle =>
    rcases mem_setPump hx with rfl | hx
    · rcases mem_append.mp hy with hold | hnew
      · rcases h.traced pump (mem_of_getElem? hpump) hrun y hold with hholds | hrest
        · rw [hhand] at hholds
          exact absurd hholds (Hand.not_holds_empty y)
        · exact .inr hrest
      · cases mem_singleton.mp hnew
        exact .inl (.inl rfl)
    · exact h.traced x hx hrun y hy
  | @note pump r hpump hhand =>
    obtain ⟨hfanIn, hpumps, -⟩ := recordLatest_sameQueue (c.setPump k { pump with hand := .recorded r }) pump.partition r.offset
    rw [hpumps] at hx
    rw [Traced, hfanIn]
    rcases mem_setPump hx with rfl | hx
    · rcases h.traced pump (mem_of_getElem? hpump) hrun y hy with hholds | hrest
      · rw [hhand] at hholds
        cases Hand.holds_received hholds
        exact .inl (.inr rfl)
      · exact .inr hrest
    · exact h.traced x hx hrun y hy
  | @send pump r hpump hhand =>
    -- the record sent moves from the hand to the end of the channel
    rcases mem_setPump hx with rfl | hx
    · rcases h.traced pump (mem_of_getElem? hpump) hrun y hy with hholds | hqueued | hrest
      · rw [hhand] at hholds
        cases Hand.holds_recorded hholds
        exact .inr (.inl mem_concat_self)
      · exact .inr (.inl (mem_append_left _ hqueued))
      · exact .inr (.inr hrest)
    · exact (h.traced x hx hrun y hy).imp_right (Or.imp_left (mem_append_left _))
  | forward e hpump => exact (h.traced x hx hrun y hy).imp_right (Or.imp_left (mem_append_left _))
  | @exit pump hpump hhand =>
    rcases mem_setPump hx with rfl | hx
    · exact h.traced pump (mem_of_getElem? hpump) hrun y hy
    · exact h.traced x hx hrun y hy
  | @drop pump hpump hcancelled =>
    rcases mem_setPump hx with rfl | hx
    · rw [hcancelled] at hrun
      cases hrun
    · exact h.traced x hx hrun y hy

theorem Accounted.take {x : Option PolledRecord} (htaken : Taken c (.ok x) d) :
    d.Accounted fun y => y ∈ x.toList ∨ kept y := by
  cases htaken with
  | @revoked p r rest hfanIn hrevoked =>
    refine ⟨h.floor, h.registered, h.assigned, fun pump hpump hrun y hy => ?_⟩
    rcases h.traced pump hpump hrun y hy with hholds | hqueued | hkept
    · exact .inl hholds
    · rw [hfanIn] at hqueued
      rcases mem_cons.mp hqueued with heq | hrest
      · cases heq
        exact absurd (h.assigned pump hpump hrun) hrevoked
      · exact .inr (.inl hrest)
    · exact .inr (.inr (.inr hkept))
  | below hfanIn hsought =>
    rw [h.floor] at hsought
    cases hsought
  | @returned p r rest floors hfanIn hassigned hfloors =>
    refine ⟨?_, h.registered, h.assigned, fun pump hpump hrun y hy => ?_⟩
    · rcases hfloors with rfl | rfl
      · exact h.floor
      · rw [h.floor]
        rfl
    · rcases h.traced pump hpump hrun y hy with hholds | hqueued | hkept
      · exact .inl hholds
      · rw [hfanIn] at hqueued
        rcases mem_cons.mp hqueued with heq | hrest
        · cases heq
          exact .inr (.inr (.inl mem_cons_self))
        · exact .inr (.inl hrest)
      · exact .inr (.inr (.inr hkept))

theorem Accounted.take_error {e : ProtocolError} (htaken : Taken c (.error e) d) : d.Accounted kept := by
  cases htaken with
  | @error p e rest hfanIn =>
    refine ⟨h.floor, h.registered, h.assigned, fun pump hpump hrun y hy => ?_⟩
    rcases h.traced pump hpump hrun y hy with hholds | hqueued | hkept
    · exact .inl hholds
    · rw [hfanIn] at hqueued
      rcases mem_cons.mp hqueued with heq | hrest
      · cases heq
      · exact .inr (.inl hrest)
    · exact .inr (.inr hkept)

theorem Accounted.recordPolled (out : List PolledRecord) : (c.recordPolled out).Accounted kept :=
  ⟨h.floor, h.registered, h.assigned, h.traced⟩

/-- What a pump that runs has received, and nothing holds on its way, is with the caller. -/
theorem Accounted.kept_of {pump : Pump} (hpump : c.lastPump p = some pump)
    (hrun : pump.cancelled = false) {r : Record} (hr : r ∈ pump.history) (hhand : ¬ pump.hand.Holds r)
    (hqueue : ⟨p, .ok r⟩ ∉ c.fanIn) : kept ⟨r, p⟩ := by
  obtain ⟨hmem, rfl⟩ := mem_of_lastPump hpump
  rcases h.traced pump hmem hrun r hr with hholds | hqueued | hkept
  · exact absurd hholds hhand
  · exact absurd hqueued hqueue
  · exact hkept

end

end Holocron.Sdk.Consumer

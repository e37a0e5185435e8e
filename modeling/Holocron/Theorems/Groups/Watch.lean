import Holocron.Theorems.Groups.FailedJoin

/-! HeartbeatWait among the other calls: what would make the answer of a waiting call wrong wakes it first, but for
    Delete. -/

namespace Holocron.Groups
open Lib Topic List Function

def Op.call : Op → Option Nat
  | .wait _ _ _ _ _ _ call | .removeWatcher _ call => some call
  | _ => none

def Op.deletes : Op → Option Bytes
  | .delete _ name => some name
  | _ => none

/-- The group of a name; one that is not there has no watchers. -/
def Manager.group (m : Manager) (name : Bytes) : Group := (m.groups name).getD .new

theorem Manager.group_eq {m : Manager} {name : Bytes} {g : Group} (h : m.groups name = some g) : m.group name = g := by
  rw [group, h]
  rfl

section
variable {w : Nat} {m m' : Manager} {g g' : Group}

/-- For the watcher the group goes on as it was, or all its watchers are woken. -/
def Told (w : Nat) (m : Manager) (g : Group) (m' : Manager) (g' : Group) : Prop :=
  (w ∈ m'.woken ↔ w ∈ m.woken) ∧ g'.watchers.count w = g.watchers.count w ∧
      g'.generation = g.generation ∧ g'.dirty = g.dirty ∧ g.memberIDs ⊆ g'.memberIDs ∨
    (w ∈ m'.woken ↔ w ∈ m.woken ∨ w ∈ g.watchers) ∧ w ∉ g'.watchers

theorem Told.refl (w : Nat) (m : Manager) (g : Group) : Told w m g m g := .inl ⟨.rfl, rfl, rfl, rfl, Subset.refl _⟩

theorem Told.touch (w : Nat) (m : Manager) (g : Group) (id : Bytes) (now : Int) : Told w m g m (g.touch id now) :=
  .inl ⟨.rfl, rfl, rfl, rfl, fun _ hx => Group.mem_touch.mpr (.inl hx)⟩

section
variable (h : Told w m g m' g')
include h

theorem Told.notify {x : Group} (hx : x.watchers = g'.watchers) :
    w ∈ (m'.notifyWatchersLocked x).1.woken ↔ w ∈ m.woken ∨ w ∈ g.watchers := by
  rcases h with ⟨hwoken, hcount, -⟩ | ⟨hwoken, hnot⟩
  · have hmem : w ∈ g'.watchers ↔ w ∈ g.watchers := by rw [← count_pos_iff, hcount, count_pos_iff]
    simp [Manager.notifyWatchersLocked, hx, hwoken, hmem]
  · simp [Manager.notifyWatchersLocked, hx, hwoken, hnot]

theorem Told.watchers {ws : List Nat} (hw : ws.count w = g'.watchers.count w) :
    Told w m g m' { g' with watchers := ws } := by
  refine h.imp (fun ⟨hwoken, hcount, hrest⟩ => ⟨hwoken, hw.trans hcount, hrest⟩) fun ⟨hwoken, hnot⟩ => ⟨hwoken, ?_⟩
  rwa [← count_eq_zero, hw, count_eq_zero]

theorem Told.other (hw : w ∉ g.watchers) : w ∉ g'.watchers ∧ (w ∈ m'.woken ↔ w ∈ m.woken) := by
  rcases h with ⟨hwoken, hcount, -⟩ | ⟨hwoken, hnot⟩
  · exact ⟨count_eq_zero.mp (hcount.trans (count_eq_zero.mpr hw)), hwoken⟩
  · exact ⟨hnot, by simp [hwoken, hw]⟩

end

theorem watchers_foldl_remove (ids : List Bytes) (g : Group) : (ids.foldl Group.remove g).watchers = g.watchers := by
  induction ids generalizing g with
  | nil => rfl
  | cons id ids ih => exact ih _

theorem Told.evict (h : Told w m g m' g') (now : Int) :
    Told w m g (m'.evictStaleLocked g' now).2.1 (m'.evictStaleLocked g' now).2.2 := by
  unfold Manager.evictStaleLocked
  dsimp only
  split_ifs
  · exact h
  · exact .inr ⟨h.notify (watchers_foldl_remove _ _), not_mem_nil⟩

/-- What a call does to one group. -/
def Moves (w : Nat) (m m' : Manager) : Prop :=
  ∃ name g', Told w m (m.group name) m' g' ∧ ∀ x, m'.group x = if x = name then g' else m.group x

theorem Moves.refl (w : Nat) (m : Manager) : Moves w m m := ⟨[], _, .refl w m _, fun x => by split_ifs with h <;> simp [h]⟩

theorem Told.moves {name : Bytes} (h : Told w m (m.group name) m' g') (hgroups : m'.groups = m.groups) :
    Moves w m (m'.setGroup name g') :=
  ⟨name, g', h, fun x => by by_cases hx : x = name <;> simp [Manager.setGroup, Manager.group, hx, hgroups]⟩

theorem join_moves (w : Nat) (m : Manager) (pf : PartitionsFor) (name id fresh : Bytes) (topics : List Bytes)
    (now now' : Int) : Moves w m (m.join pf name id fresh topics now now').2 := by
  unfold Manager.join
  split
  · exact .refl w m
  · dsimp only
    generalize (if id = [] then fresh else id) = member
    rw [show (m.groups name).getD .new = m.group name from rfl]
    have htouch : Told w m (m.group name) m { (m.group name).touch member now with
        topics := mergeTopics ((m.group name).touch member now).topics topics } := .touch w m (m.group name) member now
    generalize hg : ({ (m.group name).touch member now with topics := _ } : Group) = g at htouch ⊢
    have hevict := htouch.evict now'
    obtain ⟨-, woken, hgroups⟩ := m.evictStaleLocked_spec g now'
    generalize m.evictStaleLocked g now' = x at hevict hgroups ⊢
    obtain ⟨n, m₂, g₂⟩ := x
    cases hgroups
    split
    · exact hevict.moves rfl
    · generalize hm : { m with woken := woken } = m₂ at hevict ⊢
      have hgroups : m₂.groups = m.groups := hm ▸ rfl
      cases hassign : m₂.assignments g₂ pf with
      | error e =>
        simp only [Manager.rebalanceLocked, hassign]
        exact hevict.moves hgroups
      | ok as =>
        simp only [Manager.rebalanceLocked, hassign]
        exact Told.moves (.inr ⟨hevict.notify rfl, not_mem_nil⟩) hgroups

theorem heartbeat_cases (w : Nat) (m : Manager) (name id : Bytes) (generation : Int32) (now now' : Int) :
    m.heartbeatLocked name id generation now now' = (.error .unknownMember, m) ∨
      ∃ m₁ g₁, Told w m (m.group name) m₁ g₁ ∧ m₁.groups = m.groups ∧ (g₁.dirty = false → id ∈ g₁.memberIDs) ∧
        m.heartbeatLocked name id generation now now' =
          (.ok (decide (generation ≠ g₁.generation) || g₁.dirty), m₁.setGroup name g₁) := by
  unfold Manager.heartbeatLocked
  split
  · exact .inl rfl
  · next g hg =>
    split
    · exact .inl rfl
    · rw [Manager.group_eq hg]
      have hevict := (Told.touch w m g id now).evict now'
      obtain ⟨-, woken, hm⟩ := m.evictStaleLocked_spec (g.touch id now) now'
      refine .inr ⟨_, _, hevict, by rw [hm], ?_⟩
      unfold Manager.evictStaleLocked
      dsimp only
      split_ifs with hnone hpos hpos
      · cases hpos
      · exact ⟨fun _ => Group.mem_touch.mpr (.inr rfl), rfl⟩
      · exact ⟨nofun, rfl⟩
      · exact absurd (length_pos_iff.mpr hnone) hpos

theorem act_moves (m : Manager) {op : Op} (hcall : op.call ≠ some w) (hdelete : op.deletes = none) : Moves w m (m.act op) := by
  cases op with
  | join pf name id fresh topics now now' => exact join_moves w m pf name id fresh topics now now'
  | leave name id =>
    simp only [Manager.act, Manager.leave]
    split
    · exact .refl w m
    · next g hg =>
      split
      · exact .refl w m
      · have hnotify := (Told.refl w m (m.group name)).notify (x := { g.remove id with dirty := true })
          (by rw [Manager.group_eq hg]; rfl)
        split
        · refine ⟨name, .new, .inr ⟨hnotify, not_mem_nil⟩, fun x => ?_⟩
          by_cases hx : x = name <;> simp [Manager.group, Manager.notifyWatchersLocked, hx]
        · exact Told.moves (.inr ⟨hnotify, not_mem_nil⟩) rfl
  | delete scanned name => cases hdelete
  | heartbeat name id generation now now' =>
    rcases heartbeat_cases w m name id generation now now' with h | ⟨m₁, g₁, htold, hgroups, -, h⟩ <;> rw [Manager.act, h]
    · exact .refl w m
    · exact htold.moves hgroups
  | wait name id generation now now' maxWait call =>
    have hother : [call].count w = 0 := count_eq_zero.mpr (by simpa using fun h : w = call => hcall (h ▸ rfl))
    rcases heartbeat_cases w m name id generation now now' with h | ⟨m₁, g₁, htold, hgroups, -, h⟩ <;>
      simp only [Manager.act, Manager.heartbeatWait, h]
    · exact .refl w m
    · split_ifs
      · exact htold.moves hgroups
      · simp only [Manager.setGroup, update_self, update_idem]
        exact (htold.watchers (by rw [count_append, hother]; rfl)).moves hgroups
  | removeWatcher name call =>
    have hne : w ≠ call := fun h => hcall (h ▸ rfl)
    simp only [Manager.act, Manager.removeWatcher]
    split
    · exact .refl w m
    · next g hg =>
      have htold : Told w m (m.group name) m g := Manager.group_eq hg ▸ .refl w m _
      exact (htold.watchers (count_erase_of_ne hne)).moves rfl

/-- No group has the watcher. -/
def Absent (w : Nat) (m : Manager) : Prop := ∀ x, w ∉ (m.group x).watchers

/-- A call that waits is registered in its group as it was, or its watcher has been woken, or its group deleted. -/
structure Pending (w : Nat) (name id : Bytes) (generation : Int32) (deleted : Prop) (m : Manager) : Prop where
  elsewhere : ∀ x ≠ name, w ∉ (m.group x).watchers
  once : (m.group name).watchers.count w ≤ 1
  registered : w ∈ (m.group name).watchers → w ∉ m.woken ∧ (m.group name).generation = generation ∧
    (m.group name).dirty = false ∧ id ∈ (m.group name).memberIDs
  signalled : w ∈ (m.group name).watchers ∨ w ∈ m.woken ∨ deleted

variable {name id : Bytes} {generation : Int32} {deleted : Prop}

section
variable (h : Pending w name id generation deleted m)
include h

theorem Pending.moves (hm : Moves w m m') : Pending w name id generation deleted m' := by
  obtain ⟨x, g', htold, hgroup⟩ := hm
  by_cases hx : x = name
  · subst hx
    have hsame : m'.group x = g' := by rw [hgroup, if_pos rfl]
    have helsewhere : ∀ y ≠ x, w ∉ (m'.group y).watchers := fun y hy => by
      rw [hgroup, if_neg hy]
      exact h.elsewhere y hy
    rcases htold with ⟨hwoken, hcount, hgeneration, hdirty, hids⟩ | ⟨hwoken, hnot⟩ <;> rw [← hsame] at *
    · have hmem : w ∈ (m'.group x).watchers ↔ w ∈ (m.group x).watchers := by rw [← count_pos_iff, hcount, count_pos_iff]
      refine ⟨helsewhere, hcount ▸ h.once, fun hw => ?_, by rw [hmem, hwoken]; exact h.signalled⟩
      obtain ⟨hsilent, hgeneration', hdirty', hid⟩ := h.registered (hmem.mp hw)
      exact ⟨fun hw => hsilent (hwoken.mp hw), hgeneration.trans hgeneration', hdirty.trans hdirty', hids hid⟩
    · refine ⟨helsewhere, (count_eq_zero.mpr hnot).symm ▸ Nat.zero_le 1, fun hw => absurd hw hnot, .inr ?_⟩
      have := h.signalled
      tauto
  · obtain ⟨hnot, hwoken⟩ := htold.other (h.elsewhere x hx)
    have hsame : m'.group name = m.group name := by rw [hgroup, if_neg (Ne.symm hx)]
    refine ⟨fun y hy => ?_, hsame ▸ h.once, by rw [hsame, hwoken]; exact h.registered, by rw [hsame, hwoken]; exact h.signalled⟩
    rw [hgroup]
    split_ifs
    · exact hnot
    · exact h.elsewhere y hy

theorem Pending.delete (scanned : Bytes → Bytes) (x : Bytes) (hx : x = name → deleted) :
    Pending w name id generation deleted (m.delete scanned x).2 := by
  unfold Manager.delete
  dsimp only
  split
  · exact h
  generalize hm' : { m with groups := update m.groups x none, offsets := _ } = m'
  have hgroup (y : Bytes) : m'.group y = if y = x then .new else m.group y := by
    subst hm'
    by_cases hy : y = x <;> simp [Manager.group, hy]
  have hwoken : m'.woken = m.woken := hm' ▸ rfl
  refine ⟨fun y hy => ?_, ?_, fun hw => ?_, ?_⟩ <;> rw [hgroup] at * <;> split_ifs at * with hyx
  · exact not_mem_nil
  · exact h.elsewhere y hy
  · exact Nat.zero_le 1
  · exact h.once
  · cases hw
  · rw [hwoken]
    exact h.registered hw
  · exact .inr (.inr (hx hyx.symm))
  · rw [hwoken]
    exact h.signalled

theorem Pending.run {ops : List Op} (hothers : ∀ op ∈ ops, op.call ≠ some w)
    (hdeleted : (∃ op ∈ ops, op.deletes = some name) → deleted) :
      Pending w name id generation deleted (ops.foldl Manager.act m) :=
  foldlRecOn ops _ h fun m h op hop => by
    cases hdel : op.deletes with
    | none => exact h.moves (act_moves m (hothers op hop) hdel)
    | some x =>
      cases op <;> cases hdel
      exact h.delete _ x fun hx => hdeleted ⟨_, hop, hx ▸ rfl⟩

end

/-- The call registers if there is nothing to tell. -/
theorem wait_pending (fresh : Absent w m ∧ w ∉ m.woken) {now now' maxWait : Int} (hmax : 0 < maxWait)
    (h : m.heartbeatWait name id generation now now' maxWait w = (.ok false, m')) :
      Pending w name id generation deleted m' := by
  rcases heartbeat_cases w m name id generation now now' with hb | ⟨m₁, g₁, htold, hgroups, hid, hb⟩ <;>
    simp only [Manager.heartbeatWait, hb] at h
  · cases h
  · obtain ⟨hnot, hwoken⟩ := htold.other (fresh.1 name)
    have hneeded : ¬ ((decide (generation ≠ g₁.generation) || g₁.dirty) = true ∨ maxWait ≤ 0) := by
      split_ifs at h <;> simp_all
    rw [if_neg hneeded] at h
    simp only [Manager.setGroup, update_self, update_idem] at h
    obtain ⟨-, rfl⟩ := Prod.mk.inj h
    obtain ⟨hgeneration, hdirty⟩ : generation = g₁.generation ∧ g₁.dirty = false := by simpa [hmax] using hneeded
    generalize hm' : { m₁ with groups := update m₁.groups name _ } = m'
    have hhere : m'.group name = { g₁ with watchers := g₁.watchers ++ [w] } := hm' ▸ Manager.group_eq (update_self ..)
    refine ⟨fun x hx => ?_, ?_, fun _ => ?_, .inl ?_⟩
    · have hsame : m'.group x = m.group x := by simp [← hm', Manager.group, hx, hgroups]
      exact hsame ▸ fresh.1 x
    · simp [hhere, count_eq_zero.mpr hnot]
    · rw [hhere, ← hm']
      exact ⟨fun hw => fresh.2 (hwoken.mp hw), hgeneration.symm, hdirty, hid hdirty⟩
    · simp [hhere]

/-- Where the call is not woken and its group not deleted, the answer that nothing changed is right when it returns. -/
theorem unwoken_unchanged (fresh : Absent w m ∧ w ∉ m.woken) {now now' maxWait : Int} (hmax : 0 < maxWait)
    (h : m.heartbeatWait name id generation now now' maxWait w = (.ok false, m')) (ops : List Op)
    (others : ∀ op ∈ ops, op.call ≠ some w) :
    let last := ops.foldl Manager.act m'
    ((∀ op ∈ ops, op.deletes ≠ some name) → w ∉ last.woken →
      ∃ g, last.groups name = some g ∧ g.generation = generation ∧ g.dirty = false ∧ id ∈ g.memberIDs) ∧
      Absent w (last.removeWatcher name w) ∧ (w ∈ last.woken → Absent w last) := by
  intro last
  have hpending : Pending w name id generation (∃ op ∈ ops, op.deletes = some name) last :=
    (wait_pending fresh hmax h).run others fun hdel => hdel
  refine ⟨fun hkept hnot => ?_, fun x => ?_, fun hw x hx => ?_⟩
  · have hw : w ∈ (last.group name).watchers := by
      have := hpending.signalled
      tauto
    cases hg : last.groups name with
    | none => simp [Manager.group, hg, Group.new] at hw
    | some g => exact ⟨g, rfl, Manager.group_eq hg ▸ (hpending.registered hw).2⟩
  · have hgroup : (last.removeWatcher name w).group x =
        if x = name then { last.group x with watchers := (last.group x).watchers.erase w } else last.group x := by
      unfold Manager.removeWatcher
      split
      · next hg => split_ifs with hx <;> simp [Manager.group, hx, hg, Group.new]
      · next g hg => split_ifs with hx <;> simp [Manager.group, Manager.setGroup, hx, hg]
    rw [hgroup]
    split_ifs with hx
    · have := hpending.once
      rw [← hx] at this
      exact count_eq_zero.mp (by rw [count_erase_self]; omega)
    · exact hpending.elsewhere x hx
  · by_cases hxn : x = name
    · exact (hpending.registered (hxn ▸ hx)).1 hw
    · exact hpending.elsewhere x hxn hx

end

def alone : Manager := ((Manager.new .range 10).join (fun _ => .ok 1) (utf8 "g") (utf8 "a") [] [utf8 "t"] 0 0).2

/-- The call of the only member is not woken when its group is deleted, and need not notice that a peer has joined. -/
theorem changed_unnoticed :
    let m := (alone.heartbeatWait (utf8 "g") (utf8 "a") 1 1 1 5 0).2
    let deleted := m.act (.delete id (utf8 "g"))
    let joined := m.act (.join (fun _ => .ok 1) (utf8 "g") (utf8 "b") [] [utf8 "t"] 2 2)
    (alone.heartbeatWait (utf8 "g") (utf8 "a") 1 1 1 5 0).1 = .ok false ∧
      0 ∉ deleted.woken ∧ (deleted.groups (utf8 "g")).isNone ∧ 0 ∈ joined.woken ∧
      (joined.groups (utf8 "g")).map Group.generation = some 2 := by
  decide +kernel

/-- While the call waits, its member joins again, beats on another connection and waits there as well, and another
    group comes and goes. -/
def meanwhile : List Op :=
  [.join (fun _ => .ok 1) (utf8 "g") (utf8 "a") [] [utf8 "t"] 2 2, .heartbeat (utf8 "g") (utf8 "a") 1 3 3,
    .wait (utf8 "g") (utf8 "a") 1 3 3 5 1, .join (fun _ => .ok 2) (utf8 "h") (utf8 "b") [] [utf8 "t"] 4 4,
    .removeWatcher (utf8 "g") 1, .delete id (utf8 "h"), .leave (utf8 "g") (utf8 "b")]

theorem unwoken_unchanged_meanwhile :
    let last := meanwhile.foldl Manager.act (alone.act (.wait (utf8 "g") (utf8 "a") 1 1 1 5 0))
    (∃ g, last.groups (utf8 "g") = some g ∧ g.generation = 1 ∧ g.dirty = false ∧ utf8 "a" ∈ g.memberIDs) ∧
      Absent 0 (last.removeWatcher (utf8 "g") 0) := by
  have h : alone.heartbeatWait (utf8 "g")
    (utf8 "a") 1 1 1 5 0 = (.ok false, alone.act (.wait (utf8 "g") (utf8 "a") 1 1 1 5 0)) :=
    Prod.ext (by decide +kernel) rfl
  have fresh : Absent 0 alone := fun x => by
    by_cases hx : x = utf8 "g"
    · rw [hx]
      decide +kernel
    · have hnone : alone.groups x = none := update_of_ne hx _ _
      simp [Manager.group, hnone, Group.new]
  obtain ⟨hkept, habsent, -⟩ := unwoken_unchanged ⟨fresh, by decide +kernel⟩ (by decide) h meanwhile (by decide)
  exact ⟨hkept (by decide +kernel) (by decide +kernel), habsent⟩

end Holocron.Groups

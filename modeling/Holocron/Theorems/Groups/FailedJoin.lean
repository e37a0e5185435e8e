import Holocron.Groups.Manager

/-! A join that fails: its member and its topics stay in the group, where every later rebalance finds them. -/

namespace Holocron.Groups
open Lib Topic List Function

inductive Op where
  | join (pf : PartitionsFor) (name id fresh : Bytes) (topics : List Bytes) (now now' : Int)
  | leave (name id : Bytes)
  | delete (scanned : Bytes → Bytes) (name : Bytes)
  | heartbeat (name id : Bytes) (generation : Int32) (now now' : Int)
  | wait (name id : Bytes) (generation : Int32) (now now' maxWait : Int) (call : Nat)
  | removeWatcher (name : Bytes) (call : Nat)

def Op.name : Op → Bytes
  | .join _ name _ _ _ _ _ | .leave name _ | .delete _ name | .heartbeat name _ _ _ _ | .wait name _ _ _ _ _ _ |
    .removeWatcher name _ => name

def Manager.act (m : Manager) : Op → Manager
  | .join pf name id fresh topics now now' => (m.join pf name id fresh topics now now').2
  | .leave name id => m.leave name id
  | .delete scanned name => (m.delete scanned name).2
  | .heartbeat name id generation now now' => (m.heartbeatLocked name id generation now now').2
  | .wait name id generation now now' maxWait call => (m.heartbeatWait name id generation now now' maxWait call).2
  | .removeWatcher name call => m.removeWatcher name call

/-- Only `Delete` takes committed offsets away. -/
def Op.forget (m : Manager) : Op → Entries
  | .delete scanned name => (m.offsetKeys scanned name).foldl Entries.delete m.offsets
  | _ => m.offsets

@[simp] theorem Group.mem_touch {g : Group} {id x : Bytes} {now : Int} :
    x ∈ (g.touch id now).memberIDs ↔ x ∈ g.memberIDs ∨ x = id := by
  by_cases h : x = id
  · simp [touch, memberIDs, h]
  · simp only [touch, memberIDs, mem_map]
    grind

/-- A group that has lost some of its members. -/
structure Without (ids : List Bytes) (g g' : Group) : Prop where
  topics : g'.topics = g.topics
  generation : g'.generation = g.generation
  members : ∀ id, id ∈ g'.memberIDs ↔ id ∈ g.memberIDs ∧ id ∉ ids
  assignments : ∀ id, g'.assignments id = if id ∈ ids then [] else g.assignments id

theorem Without.foldl_remove (ids : List Bytes) (g : Group) : Without ids g (ids.foldl Group.remove g) := by
  induction ids generalizing g with
  | nil => exact ⟨rfl, rfl, by simp, by simp⟩
  | cons id ids ih =>
    obtain ⟨htopics, hgeneration, hmembers, hassignments⟩ := ih (g.remove id)
    refine ⟨htopics, hgeneration, fun x => (hmembers x).trans ?_, fun x => (hassignments x).trans ?_⟩
    · simp [Group.remove, Group.memberIDs]
      grind
    · by_cases hx : x = id <;> simp [Group.remove, hx]

namespace Manager

def stale (m : Manager) (now : Int) (g : Group) : List Bytes :=
  (g.members.filter fun x => decide (x.lastHeartbeat < now - m.sessionTimeout)).map Member.id

theorem evictStaleLocked_spec (m : Manager) (g : Group) (now : Int) :
    Without (m.stale now g) g (m.evictStaleLocked g now).2.2 ∧
      ∃ woken, (m.evictStaleLocked g now).2.1 = { m with woken := woken } := by
  have hremoved := Without.foldl_remove (m.stale now g) g
  unfold evictStaleLocked
  dsimp only
  split_ifs with h
  · rw [show m.stale now g = [] from h] at hremoved ⊢
    exact ⟨hremoved, _, rfl⟩
  · exact ⟨⟨hremoved.topics, hremoved.generation, hremoved.members, hremoved.assignments⟩, _, rfl⟩

/-- Two managers that agree on everything but one group, and on whom they have woken. -/
structure Besides (name : Bytes) (m m' : Manager) : Prop where
  rest : ∃ groups woken, m' = { m with groups := groups, woken := woken }
  groups : ∀ x ≠ name, m'.groups x = m.groups x

/-- An eviction looks at the one group. -/
theorem evictStaleLocked_congr (m : Manager) (groups : Bytes → Option Group) (woken : List Nat) (g : Group) (now : Int) :
    ∃ n g' w w', m.evictStaleLocked g now = (n, { m with woken := w }, g') ∧
      evictStaleLocked { m with groups := groups, woken := woken } g now =
        (n, { m with groups := groups, woken := w' }, g') := by
  unfold evictStaleLocked
  dsimp only
  split_ifs
  · exact ⟨_, _, _, _, rfl, rfl⟩
  · exact ⟨_, _, _, _, rfl, rfl⟩

/-- Where a join finds the same group it gives the same answer and leaves the same group; the others are as they
    were. -/
theorem join_congr {m : Manager} {groups : Bytes → Option Group} {name : Bytes} (h : groups name = m.groups name)
    (woken : List Nat) (pf : PartitionsFor) (id fresh : Bytes) (topics : List Bytes) (now now' : Int) :
    ∃ res g w w', m.join pf name id fresh topics now now' =
        (res, { m with groups := update m.groups name g, woken := w }) ∧
      join { m with groups := groups, woken := woken } pf name id fresh topics now now' =
        (res, { m with groups := update groups name g, woken := w' }) := by
  unfold join
  by_cases hnone : topics = []
  · refine ⟨.error .noTopicsRequested, m.groups name, m.woken, woken, ?_, ?_⟩
    · rw [if_pos hnone, update_eq_self]
    · rw [if_pos hnone, ← h, update_eq_self]
  rw [if_neg hnone, if_neg hnone]
  simp only [h]
  generalize (if id = [] then fresh else id) = member
  generalize (m.groups name).getD .new = g₀
  generalize decide (member ∈ g₀.memberIDs) = returning
  generalize decide (length _ ≠ _) = expanded
  generalize ({ g₀.touch member now with topics := mergeTopics (g₀.touch member now).topics topics } : Group) = g
  obtain ⟨n, g', w, w', hevict, hevict'⟩ := m.evictStaleLocked_congr groups woken g now'
  simp only [hevict, hevict']
  split_ifs
  · exact ⟨_, _, _, _, rfl, rfl⟩
  · have hassign : assignments { m with groups := groups, woken := w' } g' pf = m.assignments g' pf := rfl
    have hassign' : assignments { m with woken := w } g' pf = m.assignments g' pf := rfl
    simp only [rebalanceLocked, hassign, hassign']
    cases m.assignments g' pf with
    | error e | ok as => exact ⟨_, _, _, _, rfl, rfl⟩

theorem heartbeatLocked_congr {m : Manager} {groups : Bytes → Option Group} {name : Bytes} (h : groups name = m.groups name)
    (woken : List Nat) (id : Bytes) (generation : Int32) (now now' : Int) :
    ∃ res g w w', m.heartbeatLocked name id generation now now' =
        (res, { m with groups := update m.groups name g, woken := w }) ∧
      heartbeatLocked { m with groups := groups, woken := woken } name id generation now now' =
        (res, { m with groups := update groups name g, woken := w' }) := by
  have hsame (res : Except GroupError Bool) :
      ∃ g w w', (res, m) = (res, { m with groups := update m.groups name g, woken := w }) ∧
      (res, ({ m with groups := groups, woken := woken } : Manager)) =
        (res, { m with groups := update groups name g, woken := w' }) :=
    ⟨m.groups name, m.woken, woken, by rw [update_eq_self], by rw [← h, update_eq_self]⟩
  unfold heartbeatLocked
  simp only [h]
  cases m.groups name with
  | none => exact ⟨_, hsame _⟩
  | some g =>
    by_cases hmem : id ∉ g.memberIDs
    · simp only [hmem, not_false_eq_true, ↓reduceIte]
      exact ⟨_, hsame _⟩
    · obtain ⟨n, g', w, w', hevict, hevict'⟩ := m.evictStaleLocked_congr groups woken (g.touch id now) now'
      simp only [hmem, ↓reduceIte, hevict, hevict']
      exact ⟨_, _, _, _, rfl, rfl⟩

theorem act_congr {m : Manager} {groups : Bytes → Option Group} {op : Op} (h : groups op.name = m.groups op.name)
    (woken : List Nat) :
    ∃ g w w', m.act op = { m with groups := update m.groups op.name g, woken := w, offsets := op.forget m } ∧
      act { m with groups := groups, woken := woken } op =
        { m with groups := update groups op.name g, woken := w', offsets := op.forget m } := by
  have hsame : ∃ g w w', m = { m with groups := update m.groups op.name g, woken := w } ∧
      ({ m with groups := groups, woken := woken } : Manager) =
        { m with groups := update groups op.name g, woken := w' } :=
    ⟨m.groups op.name, m.woken, woken, by rw [update_eq_self], by rw [← h, update_eq_self]⟩
  cases op with
  | join pf name id fresh topics now now' =>
    obtain ⟨res, g, w, w', hjoin, hjoin'⟩ := join_congr h woken pf id fresh topics now now'
    exact ⟨g, w, w', congrArg Prod.snd hjoin, congrArg Prod.snd hjoin'⟩
  | leave name id =>
    simp only [Op.name, Op.forget, act, leave] at h hsame ⊢
    simp only [h]
    cases m.groups name with
    | none => exact hsame
    | some g =>
      by_cases hmem : id ∉ g.memberIDs
      · simp only [hmem, not_false_eq_true, ↓reduceIte]
        exact hsame
      · by_cases hempty : (g.remove id).members = []
        all_goals
          simp only [hmem, ↓reduceIte, notifyWatchersLocked, hempty]
          exact ⟨_, _, _, rfl, rfl⟩
  | delete scanned name =>
    simp only [Op.name, Op.forget, act, delete] at h hsame ⊢
    have hkeys : offsetKeys { m with groups := groups, woken := woken } scanned name = m.offsetKeys scanned name := rfl
    simp only [h, hkeys]
    split_ifs with hunknown
    · rw [hunknown.2]
      exact hsame
    · exact ⟨_, _, _, rfl, rfl⟩
  | heartbeat name id generation now now' =>
    obtain ⟨res, g, w, w', hbeat, hbeat'⟩ := heartbeatLocked_congr h woken id generation now now'
    exact ⟨g, w, w', congrArg Prod.snd hbeat, congrArg Prod.snd hbeat'⟩
  | wait name id generation now now' maxWait call =>
    simp only [Op.name, Op.forget, act, heartbeatWait] at h ⊢
    obtain ⟨res, g, w, w', hbeat, hbeat'⟩ := heartbeatLocked_congr h woken id generation now now'
    simp only [hbeat, hbeat']
    cases res with
    | error e => exact ⟨_, _, _, rfl, rfl⟩
    | ok needed =>
      simp only [update_self]
      split_ifs
      · exact ⟨_, _, _, rfl, rfl⟩
      · cases g with
        | none => exact ⟨_, _, _, rfl, rfl⟩
        | some g =>
          simp only [setGroup, update_idem]
          exact ⟨_, _, _, rfl, rfl⟩
  | removeWatcher name call =>
    simp only [Op.name, Op.forget, act, removeWatcher] at h hsame ⊢
    simp only [h]
    cases m.groups name with
    | none => exact hsame
    | some g => exact ⟨_, _, _, rfl, rfl⟩

/-- Nothing that happens to the one group shows in another. -/
theorem Besides.act {name : Bytes} {m m' : Manager} (h : Besides name m m') (op : Op) :
    Besides name (m.act op) (m'.act op) := by
  obtain ⟨⟨groups, woken, rfl⟩, hgroups⟩ := h
  by_cases hname : op.name = name
  · obtain ⟨g, w, -, hact, -⟩ := @act_congr m _ op rfl []
    obtain ⟨g', w', -, hact', -⟩ := @act_congr { m with groups := groups, woken := woken } _ op rfl []
    rw [hact, hact', hname]
    exact ⟨⟨_, _, rfl⟩, fun x hx => by simpa only [update_of_ne hx] using hgroups x hx⟩
  · obtain ⟨g, w, w', hact, hact'⟩ := act_congr (hgroups op.name hname) woken
    rw [hact, hact']
    refine ⟨⟨_, _, rfl⟩, fun x hx => ?_⟩
    by_cases hx' : x = op.name
    · simp [hx']
    · simpa only [update_of_ne hx'] using hgroups x hx

theorem Besides.run {name : Bytes} {m m' : Manager} (h : Besides name m m') (ops : List Op) :
    Besides name (ops.foldl Manager.act m) (ops.foldl Manager.act m') := by
  induction ops generalizing m m' with
  | nil => exact h
  | cons op ops ih => exact ih (h.act op)

theorem Besides.join {name : Bytes} {m m' : Manager} (h : Besides name m m') (pf : PartitionsFor) {x : Bytes}
    (hx : x ≠ name) (id fresh : Bytes) (topics : List Bytes) (now now' : Int) :
    (m'.join pf x id fresh topics now now').1 = (m.join pf x id fresh topics now now').1 := by
  obtain ⟨⟨groups, woken, rfl⟩, hgroups⟩ := h
  obtain ⟨res, g, w, w', hjoin, hjoin'⟩ := join_congr (hgroups x hx) woken pf id fresh topics now now'
  rw [hjoin, hjoin']

@[simp] theorem mem_mergeTopics {a b : List Bytes} {t : Bytes} : t ∈ mergeTopics a b ↔ t ∈ a ∨ t ∈ b := by
  simp [mergeTopics, sortStrings]

theorem isOk_assignEach (perTopic : Bytes → Int32 → Assignments) (pf : PartitionsFor) (topics : List Bytes)
    (out : Assignments) : (assignEach perTopic pf topics out).isOk = topics.all fun t => (pf t).isOk := by
  induction topics generalizing out with
  | nil => rfl
  | cons t topics ih =>
    unfold assignEach
    cases hpf : pf t with
    | error e => simp [hpf, Except.isOk, Except.toBool]
    | ok n =>
      rw [all_cons, hpf]
      exact ih _

theorem isOk_allPartitions (pf : PartitionsFor) (topics : List Bytes) :
    (allPartitions pf topics).isOk = topics.all fun t => (pf t).isOk := by
  induction topics with
  | nil => rfl
  | cons t topics ih =>
    unfold allPartitions
    cases hpf : pf t with
    | error e => simp [hpf, Except.isOk, Except.toBool]
    | ok n =>
      rw [all_cons, ← ih, hpf]
      cases allPartitions pf topics <;> rfl

/-- A rebalance succeeds, by any strategy, where every topic of the group can be had. -/
theorem isOk_assignments (m : Manager) (g : Group) (pf : PartitionsFor) :
    (m.assignments g pf).isOk = g.topics.all fun t => (pf t).isOk := by
  unfold assignments
  cases m.strategy with
  | range | roundRobin => exact isOk_assignEach ..
  | sticky =>
    rw [← isOk_allPartitions]
    unfold assignSticky
    cases allPartitions pf g.topics with
    | error e => rfl
    | ok ps =>
      dsimp only
      split_ifs <;> rfl

/-- The group of a join before anybody is evicted. -/
def joining (m : Manager) (name member : Bytes) (topics : List Bytes) (now : Int) : Group :=
  let g := (m.groups name).getD .new
  { g.touch member now with topics := mergeTopics g.topics topics }

/-- A join for some topics evicts who is stale, and is answered at once or after a rebalance. -/
theorem join_cases (m : Manager) (pf : PartitionsFor) (name id fresh : Bytes) {topics : List Bytes} (now now' : Int)
    (htopics : topics ≠ []) {member : Bytes} (hmember : member = if id = [] then fresh else id) :
    ∃ g woken, Without (m.stale now' (m.joining name member topics now)) (m.joining name member topics now) g ∧
      ((member ∈ ((m.groups name).getD .new).memberIDs ∧ ∃ res, (m.join pf name id fresh topics now now').1 = .ok res) ∨
        (∃ as res, m.assignments g pf = .ok as ∧ (m.join pf name id fresh topics now now').1 = .ok res) ∨
        ∃ e, m.assignments g pf = .error e ∧ m.join pf name id fresh topics now now' =
          (.error (.topic e), { m with groups := update m.groups name (some g), woken := woken })) := by
  obtain ⟨hwithout, woken, hm⟩ := m.evictStaleLocked_spec (m.joining name member topics now) now'
  refine ⟨_, woken, hwithout, ?_⟩
  unfold join
  rw [if_neg htopics]
  simp only [← hmember]
  rw [show ({ ((m.groups name).getD .new).touch member now with
      topics := mergeTopics (((m.groups name).getD .new).touch member now).topics topics } : Group) =
    m.joining name member topics now from rfl]
  generalize m.evictStaleLocked (m.joining name member topics now) now' = x at hm ⊢
  obtain ⟨n, m₂, g⟩ := x
  dsimp only at hm ⊢
  subst hm
  split_ifs with hskip
  · exact .inl ⟨of_decide_eq_true hskip.1, _, rfl⟩
  · have hassign : assignments { m with woken := woken } g pf = m.assignments g pf := rfl
    simp only [rebalanceLocked, hassign]
    cases m.assignments g pf with
    | error e => exact .inr (.inr ⟨e, rfl, rfl⟩)
    | ok as => exact .inr (.inl ⟨as, _, rfl, rfl⟩)

/-- A join of somebody new succeeds where every topic of the group and of its own can be had. -/
theorem isOk_join (m : Manager) (pf : PartitionsFor) (name : Bytes) {id : Bytes} (fresh : Bytes) {topics : List Bytes}
    (now now' : Int) (hid : id ≠ []) (hnew : id ∉ ((m.groups name).getD .new).memberIDs) (htopics : topics ≠ []) :
    (m.join pf name id fresh topics now now').1.isOk =
      (mergeTopics ((m.groups name).getD .new).topics topics).all fun t => (pf t).isOk := by
  obtain ⟨g, woken, hwithout, hjoin⟩ := m.join_cases pf name id fresh now now' htopics (if_neg hid).symm
  have hall := isOk_assignments m g pf
  rw [hwithout.topics] at hall
  rcases hjoin with ⟨hmem, -⟩ | ⟨as, res, has, hres⟩ | ⟨e, he, hres⟩
  · exact absurd hmem hnew
  · rw [hres]
    rw [has] at hall
    exact hall
  · rw [hres]
    rw [he] at hall
    exact hall

theorem mem_joining {m : Manager} {name member x : Bytes} {topics : List Bytes} {now : Int} :
    x ∈ (m.joining name member topics now).memberIDs ↔ x ∈ ((m.groups name).getD .new).memberIDs ∨ x = member :=
  Group.mem_touch

theorem member_stale {m : Manager} {name member : Bytes} {topics : List Bytes} {now now' : Int} :
    member ∈ m.stale now' (m.joining name member topics now) ↔ now < now' - m.sessionTimeout := by
  simp only [stale, joining, Group.touch, mem_map, mem_filter, mem_append, mem_singleton, decide_eq_true_eq]
  constructor
  · rintro ⟨x, ⟨⟨-, hne⟩ | rfl, hstale⟩, hx⟩
    · exact absurd hx hne
    · exact hstale
  · exact fun h => ⟨⟨member, now⟩, ⟨.inr rfl, h⟩, rfl⟩

/-- The group is as it was but for heartbeats and those evicted. -/
def Kept (m m' : Manager) (name : Bytes) (evicted : List Bytes) : Prop :=
  m'.groups name = m.groups name ∨ ∃ g ∈ m.groups name, ∃ g' ∈ m'.groups name, Without evicted g g'

/-- The group had the topics of the join and its member, unless that one is stale at once. -/
def Known (m : Manager) (name member : Bytes) (topics : List Bytes) (now now' : Int) : Prop :=
  ∃ g ∈ m.groups name, mergeTopics g.topics topics = g.topics ∧ (member ∈ g.memberIDs ∨ now < now' - m.sessionTimeout)

theorem kept_iff {m m' : Manager} {name member : Bytes} {topics : List Bytes} {now now' : Int} {g : Group}
    (h : Without (m.stale now' (m.joining name member topics now)) (m.joining name member topics now) g)
    (hgroup : m'.groups name = some g) :
    Kept m m' name (m.stale now' (m.joining name member topics now)) ↔ Known m name member topics now now' := by
  have htopics : g.topics = mergeTopics ((m.groups name).getD .new).topics topics := h.topics
  have hmember : member ∈ g.memberIDs ∨ now < now' - m.sessionTimeout := by
    rw [← member_stale, h.members, mem_joining]
    tauto
  constructor
  · rintro (hsame | ⟨g₀, hg₀, g', hg', hwithout⟩)
    · have hg : m.groups name = some g := hsame ▸ hgroup
      rw [hg] at htopics
      exact ⟨g, hg, htopics.symm, hmember⟩
    · obtain rfl : g = g' := Option.some.inj (hgroup.symm.trans hg')
      rw [Option.mem_def.mp hg₀] at htopics
      exact ⟨g₀, hg₀, htopics.symm.trans hwithout.topics, hmember.imp_left fun hin => ((hwithout.members _).mp hin).1⟩
  · rintro ⟨g₀, hg₀, hmerge, hin⟩
    have hold : (m.groups name).getD .new = g₀ := by rw [Option.mem_def.mp hg₀]; rfl
    refine .inr ⟨g₀, hg₀, g, hgroup, ?_, ?_, fun x => ?_, fun x => ?_⟩
    · rw [htopics, hold, hmerge]
    · rw [h.generation, ← hold]
      rfl
    · rw [h.members, mem_joining, hold]
      refine and_congr_left fun hx => or_iff_left_of_imp fun hxm => ?_
      subst hxm
      exact hin.resolve_right fun hnow => hx (member_stale.mpr hnow)
    · rw [h.assignments, ← hold]
      rfl

theorem flatten_concat_notMem (ids : List Bytes) : ids.flatten ++ [0] ∉ ids := fun h => by
  have hle := (sublist_flatten_of_mem h).length_le
  rw [length_append, length_singleton] at hle
  omega

def topicT : PartitionsFor := fun t => if t = utf8 "t" then .ok 1 else .error (.topicNotFound t)

/-- The group of `a` and `c` has lost `c`, and then its topic was deleted. -/
def shrunk : Manager :=
  [.join (fun _ => .ok 1) (utf8 "g") (utf8 "a") [] [utf8 "t"] 0 0,
    .join (fun _ => .ok 1) (utf8 "g") (utf8 "c") [] [utf8 "u"] 1 1, .leave (utf8 "g") (utf8 "c")].foldl act (.new .range 10)

/-- A second group is founded, and has a call waiting, before the later join. -/
def founded : List Op :=
  [.join topicT (utf8 "h") (utf8 "b") [] [utf8 "t"] 6 6, .wait (utf8 "h") (utf8 "b") 1 7 7 5 0, .leave (utf8 "g") (utf8 "a")]

-- on its own group even such a join tells: the member would be stale when the next one comes
example :
    let m' := (shrunk.join topicT (utf8 "g") (utf8 "a") [] [utf8 "t"] 5 5).2
    (shrunk.join (fun _ => .ok 1) (utf8 "g") (utf8 "b") [] [utf8 "t"] 12 12).1 =
        .ok ⟨utf8 "b", 3, [⟨⟨utf8 "t", 0⟩, -1⟩, ⟨⟨utf8 "u", 0⟩, -1⟩]⟩ ∧
      (m'.join (fun _ => .ok 1) (utf8 "g") (utf8 "b") [] [utf8 "t"] 12 12).1 = .ok ⟨utf8 "b", 3, []⟩ := by
  decide +kernel

end Manager
end Holocron.Groups

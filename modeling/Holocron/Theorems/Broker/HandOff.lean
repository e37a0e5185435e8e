import Holocron.Theorems.Broker.Delivery

/-! From catch-up to live records: a subscriber gets a beginning of the log, unless the context of a Publish ends in its
    fan-out. -/

namespace Holocron.Subscribe
open Lib Log Storage Broker

structure Rejected (x : Subscription) : Prop where
  negative : x.fromOffset < 0
  hw : 0 ≤ x.hwAtRegister
  delivered : x.delivered = []
  pump : x.pump = .catchUp x.fromOffset ∨ x.pump = .stopped ∨ x.pump = .closed

section
variable {σ : Type} [Store σ] [Served σ] {s s' : State σ} {p : PartitionRef} {a : Action} {j : Nat} {x : Subscription}

theorem Rejected.pumped (h : Rejected x) (hpumped : Pumped s j x s') (hx : s.subs[j]? = some x) :
    ∀ y, s'.subs[j]? = some y → Rejected y := by
  have hset : ∀ {w y}, (s.subs.set j w)[j]? = some y → y = w := fun hy =>
    (Option.some.inj ((List.getElem?_set_self (List.getElem?_eq_some_iff.mp hx).1).symm.trans hy)).symm
  have hpump : ∀ {pump}, x.pump = pump → pump = .catchUp x.fromOffset ∨ pump = .stopped ∨ pump = .closed :=
    fun heq => heq ▸ h.pump
  cases hpumped with
  | @read cursor r rs st at_ _ read =>
    -- the cursor is negative, so the read is an error
    obtain rfl : cursor = x.fromOffset := by simpa using hpump at_
    rcases ctx_cases x.ctx with hctx | ⟨e, hctx⟩
    · obtain ⟨e, hread⟩ := Served.read_negative s.broker.store x.p h.negative catchUpBatchSize
      rw [hctx, hread] at read
      cases read
    · rw [hctx, Served.read_done] at read
      cases read
  | ended =>
    intro y hy
    cases hset hy
    exact ⟨h.negative, h.hw, h.delivered, .inr (.inl rfl)⟩
  | @caughtUp cursor at_ reached =>
    obtain rfl : cursor = x.fromOffset := by simpa using hpump at_
    exact absurd (Int.lt_of_lt_of_le h.negative h.hw) (Int.not_lt.mpr reached)
  | removed _ free =>
    intro y hy
    simp only [State.removeSubscriber, free] at hy
    cases hset hy
    exact ⟨h.negative, h.hw, h.delivered, .inr (.inr rfl)⟩
  | waits =>
    intro y hy
    cases hx.symm.trans hy
    exact h
  | batchDone at_ | sent at_ | dropped at_ | took at_ | forwarded at_ => simpa using hpump at_

structure Follows (s : State σ) (a : Action) (j : Nat) (x y : Subscription) : Prop where
  sub : s.subs[j]? = some x
  p : y.p = x.p
  live : y.ctx = .background → x.ctx = .background ∧ ∀ e, a ≠ .cancel j e
  rejected : Rejected x → Rejected y

omit [Store σ] [Served σ] in
theorem Follows.refl (hx : s.subs[j]? = some x) (ha : ∀ k e, a ≠ .cancel k e) : Follows s a j x x :=
  ⟨hx, rfl, fun hctx => ⟨hctx, ha j⟩, id⟩

omit [Store σ] [Served σ] in
theorem follows_set {k : Nat} {z w y : Subscription} (hz : s.subs[k]? = some z) (hy : (s.subs.set k w)[j]? = some y)
    (ha : ∀ i e, i ≠ k → a ≠ .cancel i e) (hw : Follows s a k z w) : ∃ x, Follows s a j x y := by
  rcases of_getElem?_set hy with ⟨rfl, rfl⟩ | ⟨hjk, hy⟩
  · exact ⟨z, hw⟩
  · exact ⟨y, hy, rfl, fun hctx => ⟨hctx, fun e => ha j e hjk⟩, id⟩

/-- Where a subscription comes from. -/
theorem Stepped.before (h : Stepped s a s') {y : Subscription} (hy : s'.subs[j]? = some y) :
    (∃ x, Follows s a j x y) ∨ ∃ ctx q fromOffset hw, a = .subscribe ctx q fromOffset ∧ s'.lock q = none ∧
      Store.highWater s.broker.store ctx q = (.ok hw, s'.broker.store) ∧
        y = ⟨q, fromOffset, hw, ctx, [], [], [], .catchUp fromOffset⟩ := by
  cases h with
  | waits a missing =>
    refine .inl ⟨y, hy, rfl, fun hctx => ⟨hctx, fun e ha => ?_⟩, id⟩
    cases hy.symm.trans (missing j e ha)
  | refused => exact .inl ⟨y, .refl hy nofun⟩
  | @subscribed ctx q hw st fromOffset _ free highWater =>
    rcases of_getElem?_concat hy with hy | ⟨-, rfl⟩
    · exact .inl ⟨y, .refl hy nofun⟩
    · exact .inr ⟨ctx, q, fromOffset, hw, rfl, free, highWater, rfl⟩
  | rejected | published | returned | cut => exact .inl ⟨y, .refl hy nofun⟩
  | @sent q r k todo z held sub =>
    exact .inl (follows_set sub hy nofun ⟨sub, rfl, fun hctx => ⟨hctx, nofun⟩,
      fun h => ⟨h.negative, h.hw, h.delivered, h.pump⟩⟩)
  | @pumped k z s' sub hpumped =>
    obtain ⟨w, hsubs, hp, hctx, -⟩ := hpumped.subs sub
    have hw : s'.subs[k]? = some w := by rw [hsubs, List.getElem?_set_self (List.getElem?_eq_some_iff.mp sub).1]
    rw [hsubs] at hy
    exact .inl (follows_set sub hy nofun ⟨sub, hp, fun h => ⟨hctx ▸ h, nofun⟩, fun h => h.pumped hpumped sub w hw⟩)
  | @stopped k z sub =>
    exact .inl (follows_set sub hy nofun ⟨sub, rfl, fun hctx => ⟨hctx, nofun⟩,
      fun h => ⟨h.negative, h.hw, h.delivered, .inr (.inl rfl)⟩⟩)
  | @cancelled k z sub e =>
    refine .inl (follows_set sub hy (fun i e' hik heq => hik (Action.cancel.inj heq).1.symm) ⟨sub, rfl, fun hctx => ?_,
      fun h => ⟨h.negative, h.hw, h.delivered, h.pump⟩⟩)
    have := congrArg Ctx.err hctx
    simp [Subscription.cancel, Ctx.background] at this
  | @received k z r out sub nonempty =>
    refine .inl (follows_set sub hy nofun ⟨sub, rfl, fun hctx => ⟨hctx, nofun⟩, fun h => ?_⟩)
    have := h.delivered
    simp [Subscription.delivered, nonempty] at this

/-- A quiet step; one that subscribes to the partition starts from a negative offset, from the end of the log or behind,
    or from an offset such that the log has no gap from there on. -/
def HandsOff (p : PartitionRef) (s : State σ) : Action → Prop
  | .subscribe _ q fromOffset => q = p → fromOffset < 0 ∨
      ∀ rs next, Served.Rep s.broker.store p rs next → next ≤ fromOffset ∨ Dense fromOffset next rs
  | a => Quiet p s a

theorem HandsOff.quiet (h : HandsOff p s a) : Quiet p s a := by
  cases a with
  | publish c => exact h
  | cut q => exact h
  | _ => trivial

def Inv (p : PartitionRef) (s : State σ) : Prop :=
  ∃ log next, Serves s p log next ∧ ∀ j x, s.subs[j]? = some x → x.p = p → x.ctx = .background →
    Fed x (announced s p j next) log next ∨ Rejected x

omit [Store σ] [Served σ] in
theorem fed_start {log : List Record} {next fromOffset : Int} (free : s.lock p = none) (nonneg : 0 ≤ fromOffset)
    (dense : next ≤ fromOffset ∨ Dense fromOffset next log) (j : Nat) :
    Fed ⟨p, fromOffset, next, .background, [], [], [], .catchUp fromOffset⟩ (announced s p j next) log next := by
  have hannounced : announced s p j next = next := by simp only [announced, free]
  rw [hannounced]
  refine .catchUp rfl nonneg (Int.le_refl _) (Int.le_max_left ..) (Int.le_refl _) ?_ (fun hlt => ?_) ?_
  · exact (between_self next log).symm
  · exact dense.resolve_left (Int.not_le.mpr hlt)
  · exact (between_self fromOffset log).symm

theorem Inv.step (h : Inv p s) (hands : HandsOff p s a) : Inv p (s.step a) := by
  obtain ⟨log, next, hserves, hsubs⟩ := h
  obtain ⟨log', next', hserves', hcarries, -⟩ := hserves.step hands.quiet
  refine ⟨log', next', hserves', fun j y hy hp hctx => ?_⟩
  rcases (stepped s a).before hy with ⟨x, hsub, hxp, hlive, hrejected⟩ | ⟨ctx, q, fromOffset, hw, rfl, hfree, hhw, hnew⟩
  · obtain ⟨hxctx, ha⟩ := hlive hctx
    rcases hsubs j x hsub (hxp ▸ hp) hxctx with hfed | hrej
    · obtain ⟨y', hy', -, -, -, hfed'⟩ := hcarries j x hsub (hxp ▸ hp) hxctx hfed ha
      cases hy.symm.trans hy'
      exact .inl hfed'
    · exact .inr (hrejected hrej)
  · -- the high water that was read is where the log ends
    subst hnew
    obtain rfl : q = p := hp
    obtain rfl : ctx = .background := hctx
    obtain ⟨rs, rep, rfl⟩ := hserves.rep
    obtain ⟨rs', rep', rfl⟩ := hserves'.rep
    obtain ⟨st, hread, rep₁⟩ := Served.highWater rep
    obtain ⟨hok, hstore⟩ := Prod.mk.inj (hhw.symm.trans hread)
    obtain ⟨rfl, rfl⟩ := Served.rep_unique (hstore ▸ rep₁) rep'
    cases hok
    by_cases hneg : fromOffset < 0
    · exact .inr ⟨hneg, (Served.within rep).1, rfl, .inl rfl⟩
    · have hdense := ((hands rfl).resolve_left hneg) rs next rep
      exact .inl (fed_start hfree (Int.not_lt.mp hneg) (hdense.imp_right Dense.norm) j)

/-- In every run in which no Publish to the partition is cut short, no checkpoint is written to it and nobody subscribes
    across a gap, a live subscriber has got a beginning of what is stored from its offset on. -/
theorem handed_off {b : Broker σ} {rs : List Record} {next : Int} (rep : Served.Rep b.store p rs next) (run : List Action)
    (hands : Along State.step (.start b) run (HandsOff p)) :
    ∃ stored, contents (run.foldl State.step (.start b)).broker.store p = .ok stored ∧
      (stored.Pairwise fun a b => a.offset < b.offset) ∧
      ∀ x ∈ (run.foldl State.step (.start b)).subs, x.p = p → x.ctx = .background →
        x.delivered.map Record.norm <+: (since x.fromOffset stored).map Record.norm := by
  have hstart : Inv p (State.start b) := ⟨_, next, ⟨⟨rs, rep, rfl⟩, owned b [], nofun⟩, nofun⟩
  obtain ⟨log, next', hserves, hsubs⟩ := hands.invariant (fun _ s => Inv p s) (fun _ _ _ h ha => h.step ha) hstart
  obtain ⟨stored, rep', rfl⟩ := hserves.rep
  refine ⟨stored, Served.contents_eq rep', Served.ascending rep', fun x hx hp hctx => ?_⟩
  obtain ⟨j, hj⟩ := List.mem_iff_getElem?.mp hx
  rw [since_map_norm]
  rcases hsubs j x hj hp hctx with hfed | hrej
  · exact hfed.delivered_prefix hserves.ascending
  · rw [hrej.delivered]
    exact ⟨_, List.nil_append _⟩

end

theorem quiet_hello (s : State MemoryStore) : Quiet part s (.publish hello) :=
  ⟨fun h => (by cases h.1), fun _ _ _ _ => trivial⟩

def greeting : List Action := [.subscribe .background part 0, .pump 0, .publish hello, .send part, .pump 0, .pump 0]

theorem handed_off_greeting : ∃ stored, contents (greeting.foldl State.step (.start memory)).broker.store part = .ok stored ∧
    stored.length = 1 ∧ ∀ x ∈ (greeting.foldl State.step (.start memory)).subs, x.p = part → x.ctx = .background →
      x.delivered.map Record.norm <+: (since x.fromOffset stored).map Record.norm := by
  have hempty : ∀ rs next, Served.Rep (State.start memory).broker.store part rs next → next ≤ 0 ∨ Dense 0 next rs :=
    fun rs next rep => .inl (Int.le_of_eq (Served.rep_unique rep rep_memory).2)
  obtain ⟨stored, hstored, -, hprefix⟩ := handed_off rep_memory greeting (.cons (fun _ => .inr hempty) (.cons trivial
    (.cons (quiet_hello _) (.cons trivial (.cons trivial (.cons trivial .nil))))))
  exact ⟨stored, hstored, congrArg List.length (Except.ok.inj (hstored.symm.trans rfl)), hprefix⟩

/-- The first Publish is cancelled before it has sent its record, the second is not. -/
def interrupted : List Action :=
  [.subscribe .background part 0, .pump 0, .publish hello, .cut part, .publish hello, .send part, .pump 0, .pump 0, .receive 0]

/-- The subscriber gets record 1 and never record 0. -/
theorem cut_leaves_gap : ∃ x stored, (interrupted.foldl State.step (.start memory)).subs = [x] ∧ x.p = part ∧
    x.ctx = .background ∧
    contents (interrupted.foldl State.step (.start memory)).broker.store part = .ok stored ∧ stored.map Record.offset = [0, 1] ∧
    x.received.map Record.offset = [1] ∧ ¬ x.delivered.map Record.norm <+: (since x.fromOffset stored).map Record.norm :=
  ⟨_, _, rfl, rfl, rfl, rfl, rfl, rfl, by decide⟩

end Holocron.Subscribe

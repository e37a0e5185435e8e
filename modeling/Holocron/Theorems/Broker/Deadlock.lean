import Holocron.Theorems.Broker.Subscribe

/-! A partition gets stuck for good only if the pump stops with its channel full, or a Publish starts then. -/

namespace Holocron.Subscribe
open Lib Storage Broker List Function

variable {σ : Type}

def Subscription.Full (x : Subscription) : Prop := defaultSubscriberBuffer ≤ x.sub.length

instance (x : Subscription) : Decidable x.Full := inferInstanceAs (Decidable (_ ≤ _))

/-- The Publish that holds the lock sends to a full channel, whose pump waits for the lock. -/
def Wedged (s : State σ) (p : PartitionRef) : Prop :=
  ∃ r j todo x, s.lock p = some ⟨r, j :: todo⟩ ∧ s.subs[j]? = some x ∧ x.p = p ∧ x.Full ∧ x.pump = .stopped

instance (s : State σ) (p : PartitionRef) : Decidable (Wedged s p) := by
  refine decidable_of_iff (∃ f ∈ s.lock p, ∃ j ∈ f.todo.head?, ∃ x ∈ s.subs[j]?, x.p = p ∧ x.Full ∧ x.pump = .stopped) ⟨?_, ?_⟩
  · rintro ⟨⟨r, todo⟩, hlock, j, hj, x, hx, h⟩
    obtain ⟨rest, rfl⟩ := head?_eq_some_iff.mp hj
    exact ⟨r, j, rest, x, hlock, hx, h⟩
  · rintro ⟨r, j, todo, x, hlock, hx, h⟩
    exact ⟨_, hlock, j, rfl, x, hx, h⟩

variable {s s' : State σ} {z w : Subscription} {p : PartitionRef} {k : Nat}

theorem Wedged.keep (h : Wedged s p) (lock : s'.lock p = s.lock p)
    (subs : ∀ (j : Nat) x, s.subs[j]? = some x → x.p = p → x.Full → x.pump = .stopped → ∃ y, s'.subs[j]? = some y ∧
      y.p = x.p ∧ y.sub = x.sub ∧ y.pump = x.pump) :
    Wedged s' p := by
  obtain ⟨r, j, todo, x, hlock, hx, hp, hfull, hpump⟩ := h
  obtain ⟨y, hy, hyp, hysub, hypump⟩ := subs j x hx hp hfull hpump
  refine ⟨r, j, todo, y, lock.trans hlock, hy, hyp.trans hp, ?_, hypump.trans hpump⟩
  rwa [Subscription.Full, hysub]

theorem kept_set (hz : s.subs[k]? = some z) {j : Nat} {x : Subscription} (hx : s.subs[j]? = some x)
    (hw : j = k → w.p = z.p ∧ w.sub = z.sub ∧ w.pump = z.pump) :
    ∃ y, (s.subs.set k w)[j]? = some y ∧ y.p = x.p ∧ y.sub = x.sub ∧ y.pump = x.pump := by
  by_cases hjk : j = k
  · subst hjk
    cases hz.symm.trans hx
    exact ⟨w, List.getElem?_set_self (List.getElem?_eq_some_iff.mp hx).1, hw rfl⟩
  · exact ⟨x, (List.getElem?_set_ne (Ne.symm hjk)).trans hx, rfl, rfl, rfl⟩

variable [Store σ] {a : Action}

/-- Only the context of the blocked Publish can end a wedge. -/
theorem Wedged.step (h : Wedged s p) (ha : a ≠ .cut p) : Wedged (s.step a) p := by
  have hheld : s.lock p ≠ none := by
    obtain ⟨r, j, todo, x, hlock, -⟩ := h
    rw [hlock]
    nofun
  have hstep := stepped s a
  generalize s.step a = s' at hstep ⊢
  cases hstep with
  | waits => exact h
  | refused => exact h
  | rejected => exact h
  | subscribed =>
    refine h.keep rfl fun j x hx _ _ _ => ⟨x, ?_, rfl, rfl, rfl⟩
    exact (List.getElem?_append_left (List.getElem?_eq_some_iff.mp hx).1).trans hx
  | @published c r b _ free =>
    have hne : p ≠ c.p := fun hp => hheld (hp ▸ free)
    exact h.keep (update_of_ne hne ..) fun j x hx _ _ _ => ⟨x, hx, rfl, rfl, rfl⟩
  | @sent q r k todo z held sub room =>
    have hne : p ≠ q := by
      rintro rfl
      obtain ⟨r', j, todo', x, hlock, hx, -, hfull, -⟩ := h
      cases hlock.symm.trans held
      cases hx.symm.trans sub
      exact absurd room (Nat.not_lt.mpr hfull)
    refine h.keep (State.setLock_of_ne _ hne _) fun j x hx _ hfull _ => kept_set sub hx ?_
    rintro rfl
    cases hx.symm.trans sub
    exact absurd room (Nat.not_lt.mpr hfull)
  | @returned q r held =>
    have hne : p ≠ q := by
      rintro rfl
      obtain ⟨r', j, todo', x, hlock, -⟩ := h
      cases hlock.symm.trans held
    exact h.keep (State.setLock_of_ne _ hne _) fun j x hx _ _ _ => ⟨x, hx, rfl, rfl, rfl⟩
  | @cut q r k todo held =>
    have hne : p ≠ q := fun hp => ha (hp ▸ rfl)
    exact h.keep (State.setLock_of_ne _ hne _) fun j x hx _ _ _ => ⟨x, hx, rfl, rfl, rfl⟩
  | @pumped k z s' sub hpumped =>
    refine h.keep (congrFun hpumped.lock p) fun j x hx hp hfull hpump => ?_
    by_cases hjk : j = k
    · subst hjk
      cases sub.symm.trans hx
      rw [hpumped.of_stopped hpump (hp ▸ hheld)]
      exact ⟨_, hx, rfl, rfl, rfl⟩
    · obtain ⟨y, hsubs, -⟩ := hpumped.subs sub
      exact ⟨x, by rw [hsubs, List.getElem?_set_ne (Ne.symm hjk)]; exact hx, rfl, rfl, rfl⟩
  | stopped sub =>
    refine h.keep rfl fun j x hx _ _ hpump => kept_set sub hx ?_
    rintro rfl
    cases hx.symm.trans sub
    exact ⟨rfl, rfl, hpump.symm⟩
  | cancelled sub | received sub => exact h.keep rfl fun j x hx _ _ _ => kept_set sub hx fun _ => ⟨rfl, rfl, rfl⟩

theorem Wedged.run (h : Wedged s p) {as : List Action} (has : .cut p ∉ as) : Wedged (as.foldl State.step s) p := by
  induction as generalizing s with
  | nil => exact h
  | cons a as ih =>
    rw [mem_cons, not_or] at has
    exact ih (h.step (Ne.symm has.1)) has.2

/-- A pump may stop only while its channel has room, and a Publish may start only if the channels of all stopped pumps
    have. -/
def Spared (s : State σ) : Action → Prop
  | .publish c => ∀ x ∈ s.subs, x.p = c.p → x.pump = .stopped → ¬ x.Full
  | .stop j => ∀ x, s.subs[j]? = some x → ¬ x.Full
  | .pump j => ∀ x cursor, s.subs[j]? = some x → x.pump = .catchUp cursor → cursor < x.hwAtRegister →
      ¬ x.Full ∨ ∃ r rs st, Store.read s.broker.store x.ctx x.p cursor catchUpBatchSize = (.ok (r :: rs), st)
  | _ => True

def Unblocked (s : State σ) : Prop :=
  ∀ p f, s.lock p = some f → ∀ j ∈ f.todo, ∀ x, s.subs[j]? = some x → x.pump = .stopped → ¬ x.Full

section
variable (h : Unblocked s)
include h

omit [Store σ] in
theorem Unblocked.not_wedged (p : PartitionRef) : ¬ Wedged s p := by
  rintro ⟨r, j, todo, x, hlock, hx, -, hfull, hpump⟩
  exact h p _ hlock j mem_cons_self x hx hpump hfull

omit [Store σ] in
theorem Unblocked.set (hz : s.subs[k]? = some z)
    (subs : s'.subs = s.subs.set k w) (lock : s'.lock = s.lock) (hw : w.pump = .stopped → w.Full → z.pump = .stopped ∧ z.Full) :
    Unblocked s' := by
  intro p f hf j hj x hx hpump hfull
  rw [subs] at hx
  rcases of_getElem?_set hx with ⟨rfl, rfl⟩ | ⟨-, hx⟩
  · obtain ⟨hpump', hfull'⟩ := hw hpump hfull
    exact h p f (lock ▸ hf) _ hj z hz hpump' hfull'
  · exact h p f (lock ▸ hf) j hj x hx hpump hfull

omit [Store σ] in
theorem Unblocked.sent (own : Owned s) {r : Record} {todo : List Nat}
    (held : s.lock p = some ⟨r, k :: todo⟩) (hz : s.subs[k]? = some z) :
    Unblocked ((s.setSub k { z with sub := z.sub ++ [r] }).setLock p (some ⟨r, todo⟩)) := by
  obtain ⟨hnodup, hown⟩ := own p _ held
  obtain ⟨y, hy, hyp⟩ := hown k mem_cons_self
  cases hz.symm.trans hy
  intro q f hf j hj x hx
  by_cases hq : q = p
  · subst hq
    rw [State.setLock_self] at hf
    cases hf
    rcases of_getElem?_set hx with ⟨rfl, -⟩ | ⟨-, hx⟩
    · exact absurd hj (nodup_cons.mp hnodup).1
    · exact h q _ held j (mem_cons_of_mem k hj) x hx
  · rw [State.setLock_of_ne _ hq] at hf
    rcases of_getElem?_set hx with ⟨rfl, -⟩ | ⟨-, hx⟩
    · obtain ⟨x', hx', hxq⟩ := (own q f hf).2 j hj
      cases hz.symm.trans hx'
      exact absurd (hxq.symm.trans hyp) hq
    · exact h q f hf j hj x hx

theorem Unblocked.pumped (hz : s.subs[k]? = some z)
    (hpumped : Pumped s k z s') (spared : Spared s (.pump k)) : Unblocked s' := by
  cases hpumped with
  | read => exact h.set hz rfl rfl fun hpump => by cases hpump
  | @ended cursor res st at_ behind read nothing =>
    refine h.set hz rfl rfl fun _ hfull => ?_
    -- a pump that ends found no record, so its channel has room
    rcases spared z cursor hz at_ behind with hroom | ⟨r, rs, st', hread⟩
    · exact absurd hfull hroom
    · cases read.symm.trans hread
      exact absurd rfl (nothing r rs)
  | caughtUp | batchDone | sent | dropped | took | forwarded => exact h.set hz rfl rfl fun hpump => by cases hpump
  | removed _ free =>
    simp only [State.removeSubscriber, free]
    exact h.set hz rfl rfl fun hpump => by cases hpump
  | waits => exact h

theorem Unblocked.step (own : Owned s) (spared : Spared s a) : Unblocked (s.step a) := by
  have hstep := stepped s a
  generalize s.step a = s' at hstep ⊢
  cases hstep with
  | waits => exact h
  | refused => exact h
  | rejected => exact h
  | subscribed =>
    intro p f hf j hj x hx
    rcases of_getElem?_concat hx with hx | ⟨-, rfl⟩
    · exact h p f hf j hj x hx
    · nofun
  | @published c r b _ free =>
    intro p f hf j hj x hx
    by_cases hp : p = c.p
    · subst hp
      cases (update_self ..).symm.trans hf
      obtain ⟨y, hy, hyp, -⟩ := State.mem_subscribers.mp hj
      cases hy.symm.trans hx
      exact spared _ (mem_of_getElem? hy) hyp
    · exact h p f ((update_of_ne hp ..).symm.trans hf) j hj x hx
  | sent held sub => exact h.sent own held sub
  | returned | cut => exact fun p f hf => h p f (lock_release hf)
  | pumped sub hpumped => exact h.pumped sub hpumped spared
  | @stopped k z sub => exact h.set sub rfl rfl fun _ hfull => absurd hfull (spared z sub)
  | cancelled sub | received sub => exact h.set sub rfl rfl fun hpump hfull => ⟨hpump, hfull⟩

end

/-- In every run in which no pump stops with its channel full and no Publish starts while a stopped one has a full
    channel, no partition gets stuck. -/
theorem never_wedged (b : Broker σ) (run : List Action) (spared : Along State.step (.start b) run Spared)
    (p : PartitionRef) : ¬ Wedged (run.foldl State.step (.start b)) p := by
  have hinv := spared.invariant (fun _ s => Owned s ∧ Unblocked s)
    (fun _ s a h ha => ⟨h.1.step a, h.2.step h.1 ha⟩) ⟨owned b [], nofun⟩
  exact hinv.2.not_wedged p

theorem spared_of_room (h : ∀ x ∈ s.subs, ¬ x.Full) (a : Action) : Spared s a := by
  cases a with
  | publish c => exact fun x hx _ _ => h x hx
  | stop j => exact fun x hx => h x (mem_of_getElem? hx)
  | pump j => exact fun x _ hx _ _ => .inl (h x (mem_of_getElem? hx))
  | _ => trivial

theorem never_wedged_stopped :
    ¬ Wedged ([.subscribe .background part 0, .pump 0, .cancel 0 .canceled, .stop 0, .publish hello].foldl State.step
      (.start memory)) part :=
  never_wedged memory _ (.cons (spared_of_room (by decide) _)
    (.cons (spared_of_room (by decide) _) (.cons (spared_of_room (by decide) _)
    (.cons (spared_of_room (by decide) _) (.cons (spared_of_room (by decide) _) .nil))))) part

def filling : Nat → List Action
  | 0 => []
  | n + 1 => [.publish hello, .send part, .send part] ++ filling n

theorem cut_not_mem_filling (p : PartitionRef) (n : Nat) : .cut p ∉ filling n := by
  induction n with
  | zero => nofun
  | succ n ih => simp [filling, ih]

def leaving : List Action := [.subscribe .background part 0, .pump 0, .cancel 0 .canceled]

set_option maxRecDepth 100000 in
/-- The subscriber goes away and the records of 256 Publish calls fill its channel. The next Publish holds the lock and
    blocks, while the pump waits for this lock to leave: no later step gets them apart. -/
theorem publish_wedges : ∃ run : List Action, (∀ p, .cut p ∉ run) ∧
    ∀ later : List Action, (∀ p, .cut p ∉ later) → Wedged ((run ++ later).foldl State.step (.start memory)) part := by
  refine ⟨leaving ++ (filling defaultSubscriberBuffer ++ [.stop 0, .publish hello]), fun p => ?_, fun later hlater => ?_⟩
  · simp [leaving, cut_not_mem_filling]
  · rw [foldl_append]
    exact Wedged.run (by decide +kernel) (hlater part)

end Holocron.Subscribe

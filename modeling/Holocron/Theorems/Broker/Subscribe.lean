import Holocron.Broker.Subscribe
import Holocron.Lib.Run

/-! What a step of the subscription model can do, and that its Publish is the broker's. -/

namespace Holocron.Subscribe
open Lib Storage Broker List Function

variable {σ : Type} {x : Subscription} {j : Nat}

namespace State

variable (s : State σ)

@[simp] theorem setSub_lock (j : Nat) (x : Subscription) : (s.setSub j x).lock = s.lock := rfl
@[simp] theorem setSub_broker (j : Nat) (x : Subscription) : (s.setSub j x).broker = s.broker := rfl
@[simp] theorem setSub_subs (j : Nat) (x : Subscription) : (s.setSub j x).subs = s.subs.set j x := rfl
@[simp] theorem setStore_lock (st : σ) : (s.setStore st).lock = s.lock := rfl
@[simp] theorem setStore_subs (st : σ) : (s.setStore st).subs = s.subs := rfl
@[simp] theorem setStore_store (st : σ) : (s.setStore st).broker.store = st := rfl
section
variable (p : PartitionRef) (f : Option FanOut)

@[simp] theorem setLock_subs : (s.setLock p f).subs = s.subs := rfl
@[simp] theorem setLock_broker : (s.setLock p f).broker = s.broker := rfl
@[simp] theorem setLock_self : (s.setLock p f).lock p = f := update_self ..

end

theorem setLock_of_ne {p q : PartitionRef} (h : q ≠ p) (f : Option FanOut) : (s.setLock p f).lock q = s.lock q :=
  update_of_ne h ..

theorem modify_of_some {s : State σ} (h : s.subs[j]? = some x) (f : Subscription → Subscription) :
    s.modify j f = s.setSub j (f x) := by
  simp only [modify, h]

theorem mem_subscribers {s : State σ} {p : PartitionRef} :
    j ∈ s.subscribers p ↔ ∃ x, s.subs[j]? = some x ∧ x.Registered p := by
  simp only [subscribers, mem_filter, mem_range, Option.any_eq_true, decide_eq_true_eq]
  exact ⟨fun h => h.2, fun ⟨x, hx, hreg⟩ => ⟨(List.getElem?_eq_some_iff.mp hx).1, x, hx, hreg⟩⟩

theorem subscribers_nodup (s : State σ) (p : PartitionRef) : (s.subscribers p).Nodup := nodup_range.filter _

end State

inductive Pumped [Store σ] (s : State σ) (j : Nat) (x : Subscription) : State σ → Prop where
  | read {cursor : Int} {r : Record} {rs : List Record} {st : σ} (at_ : x.pump = .catchUp cursor)
      (behind : cursor < x.hwAtRegister)
      (read : Store.read s.broker.store x.ctx x.p cursor catchUpBatchSize = (.ok (r :: rs), st)) :
      Pumped s j x ((s.setStore st).setSub j { x with pump := .send cursor (r :: rs) (rs.length + 1) })
  | ended {cursor : Int} {res : Except StoreError (List Record)} {st : σ} (at_ : x.pump = .catchUp cursor)
      (behind : cursor < x.hwAtRegister) (read : Store.read s.broker.store x.ctx x.p cursor catchUpBatchSize = (res, st))
      (nothing : ∀ r rs, res ≠ .ok (r :: rs)) : Pumped s j x ((s.setStore st).setSub j { x with pump := .stopped })
  | caughtUp {cursor : Int} (at_ : x.pump = .catchUp cursor) (reached : x.hwAtRegister ≤ cursor) :
      Pumped s j x (s.setSub j { x with pump := .live cursor })
  | batchDone {cursor : Int} {n : Nat} (at_ : x.pump = .send cursor [] n) :
      Pumped s j x (s.setSub j { x with pump := .catchUp (cursor + n) })
  | sent {cursor : Int} {r : Record} {todo : List Record} {n : Nat} (at_ : x.pump = .send cursor (r :: todo) n)
      (room : x.out.length < defaultSubscriberBuffer) :
      Pumped s j x (s.setSub j { x with out := x.out ++ [r], pump := .send cursor todo n })
  | dropped {cursor : Int} {r : Record} {rest : List Record} (at_ : x.pump = .live cursor) (sub : x.sub = r :: rest)
      (old : r.offset < cursor) : Pumped s j x (s.setSub j { x with sub := rest, pump := .live cursor })
  | took {cursor : Int} {r : Record} {rest : List Record} (at_ : x.pump = .live cursor) (sub : x.sub = r :: rest)
      (fresh : cursor ≤ r.offset) : Pumped s j x (s.setSub j { x with sub := rest, pump := .forward cursor r })
  | forwarded {cursor : Int} {r : Record} (at_ : x.pump = .forward cursor r) (room : x.out.length < defaultSubscriberBuffer) :
      Pumped s j x (s.setSub j { x with out := x.out ++ [r], pump := .live (r.offset + 1) })
  | removed (at_ : x.pump = .stopped) (free : s.lock x.p = none) : Pumped s j x (s.removeSubscriber j x)
  | waits (why : x.pump = .stopped ∨ x.pump = .closed ∨ defaultSubscriberBuffer ≤ x.out.length ∨ ∃ cursor,
      x.pump = .live cursor ∧ x.sub = []) : Pumped s j x s

theorem setSub_self {s : State σ} (h : s.subs[j]? = some x) : s.setSub j x = s := by
  obtain ⟨hlt, rfl⟩ := List.getElem?_eq_some_iff.mp h
  simp [State.setSub]

theorem pumped_catchUp [Store σ] {s : State σ} {cursor : Int} (hpump : x.pump = .catchUp cursor)
    (hlt : cursor < x.hwAtRegister) : Pumped s j x (s.catchUp j x cursor) := by
  unfold State.catchUp
  split
  · rename_i r rs st hread
    exact .read hpump hlt hread
  · rename_i res st hnothing hread
    exact .ended hpump hlt hread hnothing

theorem pumped [Store σ] {s : State σ} (hx : s.subs[j]? = some x) : Pumped s j x (s.pump j) := by
  simp only [State.pump, hx]
  cases hpump : x.pump with
  | catchUp cursor =>
    dsimp only
    split
    · exact pumped_catchUp hpump ‹_›
    · exact .caughtUp hpump (Int.not_lt.mp ‹_›)
  | send cursor todo n =>
    cases todo with
    | nil => exact .batchDone hpump
    | cons r todo =>
      dsimp only
      unfold Subscription.emit
      split
      · exact .sent hpump ‹_›
      · rw [setSub_self hx]
        exact .waits (.inr (.inr (.inl (Nat.not_lt.mp ‹_›))))
  | live cursor =>
    dsimp only
    unfold Subscription.take
    split
    · rw [setSub_self hx]
      exact .waits (.inr (.inr (.inr ⟨cursor, hpump, ‹_›⟩)))
    · rename_i r rest hsub
      split
      · exact .dropped hpump hsub ‹_›
      · exact .took hpump hsub (Int.not_lt.mp ‹_›)
  | forward cursor r =>
    dsimp only
    unfold Subscription.emit
    split
    · exact .forwarded hpump ‹_›
    · rw [setSub_self hx]
      exact .waits (.inr (.inr (.inl (Nat.not_lt.mp ‹_›))))
  | stopped =>
    cases hlock : s.lock x.p with
    | none => exact .removed hpump hlock
    | some f =>
      simp only [State.removeSubscriber, hlock]
      exact .waits (.inl hpump)
  | closed => exact .waits (.inr (.inl hpump))

namespace Pumped

variable [Store σ] {s s' : State σ} {j : Nat} {x : Subscription}

section
variable (h : Pumped s j x s')
include h

theorem lock : s'.lock = s.lock := by
  cases h with
  | removed _ free => simp only [State.removeSubscriber, free, State.setSub_lock]
  | _ => rfl

theorem subs (hx : s.subs[j]? = some x) :
    ∃ y, s'.subs = s.subs.set j y ∧ y.p = x.p ∧ y.ctx = x.ctx ∧ y.fromOffset = x.fromOffset ∧
      y.hwAtRegister = x.hwAtRegister := by
  cases h with
  | waits => exact ⟨x, congrArg State.subs (setSub_self hx).symm, rfl, rfl, rfl, rfl⟩
  | removed _ free =>
    simp only [State.removeSubscriber, free]
    exact ⟨_, rfl, rfl, rfl, rfl, rfl⟩
  | _ => exact ⟨_, rfl, rfl, rfl, rfl, rfl⟩

/-- A stopped pump does nothing while the lock is held. -/
theorem of_stopped (stopped : x.pump = .stopped) (held : s.lock x.p ≠ none) : s' = s := by
  cases h with
  | removed _ free => exact absurd free held
  | waits => rfl
  | _ => simp_all

end

end Pumped

inductive Stepped [Store σ] (s : State σ) : Action → State σ → Prop where
  | waits (a : Action) (missing : ∀ j e, a = .cancel j e → s.subs[j]? = none) : Stepped s a s
  | refused {ctx : Ctx} {p : PartitionRef} {e : StoreError} {st : σ} (fromOffset : Int)
      (highWater : Store.highWater s.broker.store ctx p = (.error e, st)) :
        Stepped s (.subscribe ctx p fromOffset) (s.setStore st)
  | subscribed {ctx : Ctx} {p : PartitionRef} {hw : Int} {st : σ} (fromOffset : Int) (valid : s.broker.validate p = .ok ())
      (free : s.lock p = none) (highWater : Store.highWater s.broker.store ctx p = (.ok hw, st)) :
      Stepped s (.subscribe ctx p fromOffset) { s with
        broker := { s.broker with store := st }.setPartition p
          { s.broker.partitions p with subscribers := (s.broker.partitions p).subscribers + 1 }
        subs := s.subs ++ [⟨p, fromOffset, hw, ctx, [], [], [], .catchUp fromOffset⟩] }
  | rejected {c : Call} {b : Broker σ} (valid : s.broker.validate c.p = .ok ()) (free : s.lock c.p = none)
      (append : appendLocked s.broker c = (none, b)) : Stepped s (.publish c) { s with broker := b }
  | published {c : Call} {r : Record} {b : Broker σ} (valid : s.broker.validate c.p = .ok ()) (free : s.lock c.p = none)
      (append : appendLocked s.broker c = (some r, b)) :
      Stepped s (.publish c) { s with broker := b, lock := Function.update s.lock c.p (some ⟨r, s.subscribers c.p⟩) }
  | sent {p : PartitionRef} {r : Record} {j : Nat} {todo : List Nat} {x : Subscription} (held : s.lock p = some ⟨r, j :: todo⟩)
      (sub : s.subs[j]? = some x) (room : x.sub.length < defaultSubscriberBuffer) :
      Stepped s (.send p) ((s.setSub j { x with sub := x.sub ++ [r] }).setLock p (some ⟨r, todo⟩))
  | returned {p : PartitionRef} {r : Record} (held : s.lock p = some ⟨r, []⟩) : Stepped s (.send p) (s.setLock p none)
  | cut {p : PartitionRef} {r : Record} {j : Nat} {todo : List Nat} (held : s.lock p = some ⟨r, j :: todo⟩) :
      Stepped s (.cut p) (s.setLock p none)
  | pumped {j : Nat} {x : Subscription} {s' : State σ} (sub : s.subs[j]? = some x) (pumped : Pumped s j x s') :
      Stepped s (.pump j) s'
  | stopped {j : Nat} {x : Subscription} (sub : s.subs[j]? = some x) (done : x.ctx.err ≠ none) (open_ : x.pump ≠ .closed) :
      Stepped s (.stop j) (s.setSub j { x with pump := .stopped })
  | cancelled {j : Nat} {x : Subscription} (sub : s.subs[j]? = some x) (e : CtxError) :
      Stepped s (.cancel j e) (s.setSub j (x.cancel e))
  | received {j : Nat} {x : Subscription} {r : Record} {out : List Record} (sub : s.subs[j]? = some x)
      (nonempty : x.out = r :: out) :
      Stepped s (.receive j) (s.setSub j { x with out := out, received := x.received ++ [r] })

section
variable [Store σ] {s s' : State σ}

section
variable (s : State σ)

theorem stepped_subscribe (ctx : Ctx) (p : PartitionRef) (fromOffset : Int) :
    Stepped s (.subscribe ctx p fromOffset) (s.subscribe ctx p fromOffset) := by
  unfold State.subscribe
  split
  · rename_i hvalid hfree
    split
    · exact .refused fromOffset ‹_›
    · exact .subscribed fromOffset hvalid hfree ‹_›
  · exact .waits _ nofun

theorem stepped_publish (c : Call) : Stepped s (.publish c) (s.publish c) := by
  unfold State.publish
  split
  · rename_i hvalid hfree
    split
    · exact .rejected hvalid hfree ‹_›
    · exact .published hvalid hfree ‹_›
  · exact .waits _ nofun

theorem stepped_send (p : PartitionRef) : Stepped s (.send p) (s.send p) := by
  unfold State.send
  split
  · exact .waits _ nofun
  · exact .returned ‹_›
  · rename_i r j todo hheld
    split
    · exact .waits _ nofun
    · split
      · exact .sent hheld ‹_› ‹_›
      · exact .waits _ nofun

theorem stepped_cut (p : PartitionRef) : Stepped s (.cut p) (s.cut p) := by
  unfold State.cut
  split
  · exact .cut ‹_›
  · exact .waits _ nofun

theorem stepped_pump (j : Nat) : Stepped s (.pump j) (s.pump j) := by
  cases hx : s.subs[j]? with
  | none =>
    simp only [State.pump, hx]
    exact .waits _ nofun
  | some x => exact .pumped hx (pumped hx)

theorem stepped_stop (j : Nat) : Stepped s (.stop j) (s.modify j Subscription.stop) := by
  cases hx : s.subs[j]? with
  | none =>
    simp only [State.modify, hx]
    exact .waits _ nofun
  | some x =>
    rw [State.modify_of_some hx]
    unfold Subscription.stop
    split
    iterate 3
      · rename_i herr hpump
        exact .stopped hx (by rw [herr]; nofun) (by rw [hpump]; nofun)
    · rw [setSub_self hx]
      exact .waits _ nofun

theorem stepped_receive (j : Nat) : Stepped s (.receive j) (s.modify j Subscription.receive) := by
  cases hx : s.subs[j]? with
  | none =>
    simp only [State.modify, hx]
    exact .waits _ nofun
  | some x =>
    rw [State.modify_of_some hx]
    unfold Subscription.receive
    split
    · rw [setSub_self hx]
      exact .waits _ nofun
    · exact .received hx ‹_›

theorem stepped (a : Action) : Stepped s a (s.step a) := by
  cases a with
  | subscribe ctx p fromOffset => exact stepped_subscribe s ctx p fromOffset
  | publish c => exact stepped_publish s c
  | send p => exact stepped_send s p
  | cut p => exact stepped_cut s p
  | pump j => exact stepped_pump s j
  | stop j => exact stepped_stop s j
  | receive j => exact stepped_receive s j
  | cancel j e =>
    change Stepped s _ (s.modify j _)
    cases hx : s.subs[j]? with
    | none =>
      simp only [State.modify, hx]
      refine .waits _ fun k e' heq => ?_
      cases heq
      exact hx
    | some x =>
      rw [State.modify_of_some hx]
      exact .cancelled hx e

end

omit [Store σ] in
def Owned (s : State σ) : Prop :=
  ∀ p f, s.lock p = some f → f.todo.Nodup ∧ ∀ j ∈ f.todo, ∃ x, s.subs[j]? = some x ∧ x.p = p

omit [Store σ] in
theorem Owned.of_lock {s : State σ} (h : Owned s) (lock : ∀ p f, s'.lock p = some f → s.lock p = some f)
    (subs : ∀ (j : Nat) x, s.subs[j]? = some x → ∃ y, s'.subs[j]? = some y ∧ y.p = x.p) : Owned s' := by
  intro p f hf
  obtain ⟨hnodup, hown⟩ := h p f (lock p f hf)
  refine ⟨hnodup, fun j hj => ?_⟩
  obtain ⟨x, hx, hxp⟩ := hown j hj
  obtain ⟨y, hy, hyp⟩ := subs j x hx
  exact ⟨y, hy, hyp.trans hxp⟩

omit [Store σ] in
theorem getElem?_setSub {s : State σ} {k : Nat} {z w : Subscription} (hz : s.subs[k]? = some z) (hw : w.p = z.p)
    (j : Nat) (x : Subscription) (hx : s.subs[j]? = some x) : ∃ y, (s.subs.set k w)[j]? = some y ∧ y.p = x.p := by
  by_cases hjk : j = k
  · subst hjk
    cases hz.symm.trans hx
    exact ⟨w, List.getElem?_set_self (List.getElem?_eq_some_iff.mp hx).1, hw⟩
  · exact ⟨x, (List.getElem?_set_ne (Ne.symm hjk)).trans hx, rfl⟩

omit [Store σ] in
theorem lock_release {s : State σ} {p q : PartitionRef} {f : FanOut} (h : (s.setLock p none).lock q = some f) :
    s.lock q = some f := by
  by_cases hq : q = p
  · subst hq
    rw [State.setLock_self] at h
    cases h
  · rwa [State.setLock_of_ne _ hq] at h

theorem Owned.step {s : State σ} (h : Owned s) (a : Action) : Owned (s.step a) := by
  have hstep := stepped s a
  generalize s.step a = s' at hstep ⊢
  cases hstep with
  | waits => exact h
  | refused => exact h
  | rejected => exact h
  | subscribed =>
    refine h.of_lock (fun _ _ hf => hf) fun j x hx => ⟨x, ?_, rfl⟩
    exact (List.getElem?_append_left (List.getElem?_eq_some_iff.mp hx).1).trans hx
  | @published c r b _ _ =>
    intro p f hf
    by_cases hp : p = c.p
    · subst hp
      cases (update_self ..).symm.trans hf
      refine ⟨s.subscribers_nodup c.p, fun j hj => ?_⟩
      obtain ⟨x, hx, hxp, -⟩ := State.mem_subscribers.mp hj
      exact ⟨x, hx, hxp⟩
    · exact h p f ((update_of_ne hp ..).symm.trans hf)
  | @sent q r k todo z held sub =>
    intro p f hf
    by_cases hp : p = q
    · subst hp
      rw [State.setLock_self] at hf
      cases hf
      obtain ⟨hnodup, hown⟩ := h p _ held
      refine ⟨(nodup_cons.mp hnodup).2, fun j hj => ?_⟩
      obtain ⟨x, hx, hxp⟩ := hown j (mem_cons_of_mem k hj)
      obtain ⟨y, hy, hyp⟩ := getElem?_setSub sub (w := { z with sub := z.sub ++ [r] }) rfl j x hx
      exact ⟨y, hy, hyp.trans hxp⟩
    · rw [State.setLock_of_ne _ hp] at hf
      have hset : Owned (s.setSub k { z with sub := z.sub ++ [r] }) := h.of_lock (fun _ _ hf => hf) (getElem?_setSub sub rfl)
      exact hset p f hf
  | returned | cut => exact h.of_lock (fun _ _ hf => lock_release hf) fun j x hx => ⟨x, hx, rfl⟩
  | pumped sub hpumped =>
    obtain ⟨y, hsubs, hyp, -⟩ := hpumped.subs sub
    refine h.of_lock (fun p f hf => by rwa [hpumped.lock] at hf) ?_
    rw [hsubs]
    exact getElem?_setSub sub hyp
  | @stopped k z sub => exact h.of_lock (fun _ _ hf => hf) (getElem?_setSub sub (w := { z with pump := .stopped }) rfl)
  | @cancelled k z sub e => exact h.of_lock (fun _ _ hf => hf) (getElem?_setSub sub (w := z.cancel e) rfl)
  | @received k z r out sub =>
    exact h.of_lock (fun _ _ hf => hf) (getElem?_setSub sub (w := { z with out := out, received := z.received ++ [r] }) rfl)

theorem owned (b : Broker σ) (run : List Action) : Owned (run.foldl State.step (.start b)) := by
  induction run using reverseRecOn with
  | nil => nofun
  | append_singleton run a ih =>
    rw [foldl_append]
    exact ih.step a

theorem publish_broker {s : State σ} {c : Call} (free : s.lock c.p = none) : (s.publish c).broker = (s.broker.call c).2 := by
  unfold State.publish call publish appendLocked
  cases hvalid : s.broker.validate c.p with
  | error e => rfl
  | ok u =>
    simp only [free]
    cases hdup : ((s.broker.evictFor (producerIdempKey c.record) c.now c.p).partitions c.p).duplicate
      (producerIdempKey c.record) with
    | some offset => rfl
    | none =>
      cases happend : Store.append (s.broker.evictFor (producerIdempKey c.record) c.now c.p).store c.ctx c.now c.p
        (withTimestamp c.now c.record) with
      | mk res st => cases res <;> rfl

def Counted (s : State σ) : Prop :=
  ∀ p, (s.broker.partitions p).subscribers = s.subs.countP fun x => decide (x.Registered p)

theorem subscribers_remember (b : Broker σ) (now : Int64) (q : PartitionRef) (offset : Int)
    (key : Option (Bytes × UInt64)) (p : PartitionRef) :
    ((b.remember now q offset key).partitions p).subscribers = (b.partitions p).subscribers := by
  cases key with
  | none => rfl
  | some key =>
    have hset : ∀ cp, ((b.setPartition q { b.partitions q with dedup := cp }).partitions p).subscribers =
        (b.partitions p).subscribers := by
      by_cases hp : p = q
      · subst hp
        simp [setPartition]
      · simp [setPartition, update_of_ne hp]
    unfold remember
    dsimp only
    split
    · unfold persistDedupCheckpoint
      split <;> exact hset _
    · exact hset _

omit [Store σ] in
theorem subscribers_evictFor (b : Broker σ) (key : Option (Bytes × UInt64)) (now : Int64) (q p : PartitionRef) :
    ((b.evictFor key now q).partitions p).subscribers = (b.partitions p).subscribers := by
  unfold evictFor
  split
  · by_cases hp : p = q
    · subst hp
      simp [setPartition, PartitionState.evictStaleDedupLocked]
    · simp [setPartition, update_of_ne hp]
  · rfl

theorem subscribers_appendLocked (b : Broker σ) (c : Call) (p : PartitionRef) :
    ((appendLocked b c).2.partitions p).subscribers = (b.partitions p).subscribers := by
  have hevict := subscribers_evictFor b (producerIdempKey c.record) c.now c.p p
  unfold appendLocked
  dsimp only
  split
  · exact hevict
  split
  · exact hevict
  · rw [← hevict]
    exact subscribers_remember ..

omit [Store σ] in
theorem countP_setSub {s : State σ} (hx : s.subs[j]? = some x) (y : Subscription) (p : PartitionRef) :
    (s.subs.set j y).countP (fun x => decide (x.Registered p)) =
      (s.subs.countP (fun x => decide (x.Registered p)) - if x.Registered p then 1 else 0) + if y.Registered p then 1
        else 0 := by
  obtain ⟨hj, rfl⟩ := List.getElem?_eq_some_iff.mp hx
  rw [countP_set hj]
  simp

omit [Store σ] in
theorem Counted.set {s : State σ} (h : Counted s) {y : Subscription} (hx : s.subs[j]? = some x)
    (subs : s'.subs = s.subs.set j y) (partitions : s'.broker.partitions = s.broker.partitions)
    (same : ∀ p, y.Registered p ↔ x.Registered p) : Counted s' := by
  intro p
  have hle : (if x.Registered p then 1 else 0) ≤ s.subs.countP fun x => decide (x.Registered p) := by
    obtain ⟨hj, rfl⟩ := List.getElem?_eq_some_iff.mp hx
    simpa only [decide_eq_true_eq] using boole_getElem_le_countP (p := fun x => decide (x.Registered p)) hj
  rw [subs, partitions, h p, countP_setSub hx]
  simp only [same p]
  exact (Nat.sub_add_cancel hle).symm

theorem Counted.pumped {s : State σ} (h : Counted s) (hx : s.subs[j]? = some x)
    (hpumped : Pumped s j x s') : Counted s' := by
  cases hpumped with
  | waits => exact h
  | removed at_ free =>
    intro p
    simp only [State.removeSubscriber, free]
    rw [State.setSub_subs, countP_setSub hx]
    by_cases hp : p = x.p
    · subst hp
      simp [setPartition, Subscription.Registered, at_, h x.p]
    · have hne : x.p ≠ p := Ne.symm hp
      simp [setPartition, update_of_ne hp, Subscription.Registered, hne, h p]
  | read at_ | ended at_ | caughtUp at_ | batchDone at_ | sent at_ | dropped at_ | took at_ | forwarded at_ =>
    exact h.set hx rfl rfl fun p => by simp [Subscription.Registered, at_]

theorem Counted.step {s : State σ} (h : Counted s) (a : Action) : Counted (s.step a) := by
  have hstep := stepped s a
  generalize s.step a = s' at hstep ⊢
  cases hstep with
  | waits => exact h
  | refused => exact h
  | subscribed =>
    rename_i q hw st _ _ _ _
    intro p
    rw [countP_append, ← h p]
    by_cases hp : p = q
    · subst hp
      simp [setPartition, Subscription.Registered]
    · simp [setPartition, update_of_ne hp, Subscription.Registered, Ne.symm hp]
  | rejected _ _ append | published _ _ append =>
    exact fun p => (congrArg (fun b => (b.2.partitions p).subscribers) append).symm.trans
      ((subscribers_appendLocked ..).trans (h p))
  | sent _ sub => exact h.set sub rfl rfl fun p => Iff.rfl
  | returned => exact h
  | cut => exact h
  | pumped sub hpumped => exact h.pumped sub hpumped
  | stopped sub _ open_ => exact h.set sub rfl rfl fun p => by simp [Subscription.Registered, open_]
  | cancelled sub | received sub => exact h.set sub rfl rfl fun p => Iff.rfl

end

def memory : Broker MemoryStore := ⟨.new, ⟨[⟨utf8 "t", 1, 0, 0⟩], none⟩, 0, [], fun _ => .empty⟩

def part : PartitionRef := ⟨utf8 "t", 0⟩

def hello : Call := ⟨⟨.background, 1, none⟩, part, ⟨0, 1, none, some [7], []⟩⟩

end Holocron.Subscribe

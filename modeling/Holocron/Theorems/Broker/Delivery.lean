import Holocron.Theorems.Broker.Publish
import Holocron.Theorems.Broker.Subscribe
import Holocron.Theorems.Storage.Gaps

/-! Subscribers receive the records from their first offset up to a cursor (`Fed`), as long as no Publish is cut short. -/

namespace Holocron.Subscribe
open Lib Log Storage Broker List

/-! ### Stores -/

variable {c : Call}

section
variable {σ : Type} [Store σ]

def Checkpoints (b : Broker σ) (c : Call) (p : PartitionRef) : Prop :=
  (producerIdempKey c.record).isSome ∧ c.p.topic ≠ b.dedupTopic ∧ b.dedupTopic ≠ [] ∧ p = ⟨b.dedupTopic, 0⟩

instance (b : Broker σ) (c : Call) (p : PartitionRef) : Decidable (Checkpoints b c p) := inferInstanceAs (Decidable (_ ∧ _))

theorem withTimestamp_offset (now : Int64) (offset : Int) (r : Record) :
    { withTimestamp now r with offset := offset } = stamp now offset r := by
  unfold withTimestamp stamp
  split <;> rfl

theorem appendLocked_spec (b : Broker σ) (c : Call) :
    ((appendLocked b c).1 = none ∧ ((appendLocked b c).2.store = b.store ∨
      ∃ e, Store.append b.store c.ctx c.now c.p (withTimestamp c.now c.record) = (.error e, (appendLocked b c).2.store))) ∨
    ∃ offset st, ∃ b' : Broker σ, Store.append b.store c.ctx c.now c.p (withTimestamp c.now c.record) =
      (.ok offset, st) ∧ b'.store = st ∧ b'.dedupTopic = b.dedupTopic ∧
      appendLocked b c = (some (stamp c.now offset c.record), b'.remember c.now c.p offset (producerIdempKey c.record)) := by
  obtain ⟨hstore, htopic, -⟩ := evictFor_same b (producerIdempKey c.record) c.now c.p
  unfold appendLocked
  dsimp only
  cases (((b.evictFor (producerIdempKey c.record) c.now c.p).partitions c.p).duplicate (producerIdempKey c.record)) with
  | some offset => exact .inl ⟨rfl, .inl hstore⟩
  | none =>
    rw [hstore]
    cases happend : Store.append b.store c.ctx c.now c.p (withTimestamp c.now c.record) with
    | mk res st =>
      cases res with
      | error e => exact .inl ⟨rfl, .inr ⟨e, rfl⟩⟩
      | ok offset =>
        refine .inr ⟨offset, st, { b.evictFor (producerIdempKey c.record) c.now c.p with store := st }, rfl, rfl, htopic, ?_⟩
        rw [← withTimestamp_offset]

variable [Served σ] {p : PartitionRef} {rs : List Record} {next : Int}

theorem rep_remember {b : Broker σ} (rep : Served.Rep b.store p rs next) (c : Call) (offset : Int)
    (quiet : ¬ Checkpoints b c p) :
    Served.Rep (b.remember c.now c.p offset (producerIdempKey c.record)).store p rs next := by
  cases hkey : producerIdempKey c.record with
  | none => exact rep
  | some key =>
    unfold remember
    dsimp only
    split
    · rename_i htopic
      unfold persistDedupCheckpoint
      split
      · exact rep
      · rename_i hdedup
        refine Served.append_other rep (fun hp => quiet ⟨by rw [hkey]; rfl, htopic, hdedup, hp.symm⟩) ..
    · exact rep

theorem rep_read {s : σ} (rep : Served.Rep s p rs next) (ctx : Ctx) (q : PartitionRef) (n m : Int) :
    Served.Rep (Store.read s ctx q n m).2 p rs next := by
  by_cases hq : q = p
  · subst hq
    rcases ctx_cases ctx with rfl | ⟨e, rfl⟩
    · by_cases hn : 0 ≤ n
      · obtain ⟨s', hread, rep'⟩ := Served.read rep hn m
        rwa [hread]
      · obtain ⟨e, hread⟩ := Served.read_negative s q (Int.not_le.mp hn) m
        rwa [hread]
    · rwa [Served.read_done]
  · exact Served.read_other rep hq ctx n m

theorem rep_highWater {s : σ} (rep : Served.Rep s p rs next) (ctx : Ctx) (q : PartitionRef) :
    Served.Rep (Store.highWater s ctx q).2 p rs next := by
  by_cases hq : q = p
  · subst hq
    rcases ctx_cases ctx with rfl | ⟨e, rfl⟩
    · obtain ⟨s', hhw, rep'⟩ := Served.highWater rep
      rwa [hhw]
    · rwa [Served.highWater_done]
  · exact Served.highWater_other rep hq ctx

theorem rep_appendLocked_other {b : Broker σ} (rep : Served.Rep b.store p rs next) (hc : c.p ≠ p)
    (quiet : ¬ Checkpoints b c p) : Served.Rep (appendLocked b c).2.store p rs next := by
  have happend := Served.append_other rep hc c.ctx c.now (withTimestamp c.now c.record)
  rcases appendLocked_spec b c with ⟨-, hstore | ⟨e, hstore⟩⟩ | ⟨offset, st, b', hok, rfl, htopic, heq⟩
  · rwa [hstore]
  · rwa [hstore] at happend
  · rw [hok] at happend
    rw [heq]
    exact rep_remember happend c offset (by rwa [Checkpoints, htopic])

theorem rep_appendLocked_self {b : Broker σ} (rep : Served.Rep b.store c.p rs next) (quiet : ¬ Checkpoints b c c.p)
    (fits : Served.Fits b.store c.now c.p c.record) :
    ((appendLocked b c).1 = none ∧ Served.Rep (appendLocked b c).2.store c.p rs next) ∨
    ∃ r x, (appendLocked b c).1 = some r ∧ r.offset = next ∧ x.norm = r.norm ∧
      Served.Rep (appendLocked b c).2.store c.p (rs ++ [x]) (next + 1) := by
  rcases ctx_cases c.ctx with hctx | ⟨e, hctx⟩
  · obtain ⟨s', happend, rep'⟩ := Served.append rep c.now (r := withTimestamp c.now c.record)
      (by rw [stamp_withTimestamp]; exact fits.room rep)
    rw [stamp_withTimestamp] at rep'
    rcases appendLocked_spec b c with ⟨hnone, hstore | ⟨e, hstore⟩⟩ | ⟨offset, st, b', hok, rfl, htopic, heq⟩
    · exact .inl ⟨hnone, by rwa [hstore]⟩
    · rw [hctx, happend] at hstore
      cases hstore
    · rw [hctx, happend] at hok
      obtain ⟨rfl, rfl⟩ : next = offset ∧ s' = b'.store := ⟨Except.ok.inj (Prod.mk.inj hok).1, (Prod.mk.inj hok).2⟩
      refine .inr ⟨stamp c.now next c.record, _, congrArg Prod.fst heq, rfl,
        (Served.norm_view _ : (Served.view σ _).norm = _), ?_⟩
      rw [heq]
      exact rep_remember rep' c next (by rwa [Checkpoints, htopic])
  · rcases appendLocked_spec b c with ⟨hnone, hstore | ⟨e', hstore⟩⟩ | ⟨offset, st, b', hok, -⟩
    · exact .inl ⟨hnone, by rwa [hstore]⟩
    · rw [hctx, Served.append_done] at hstore
      exact .inl ⟨hnone, by rwa [← (Prod.mk.inj hstore).2]⟩
    · rw [hctx, Served.append_done] at hok
      cases hok

end

/-! ### Subscriptions -/

/-- A subscription that has got what it should so far, in a log that ends at `next`: the subscriber has the records
    from its offset up to the cursor, and the channel those published since the registration, up to `sent`. -/
inductive Fed (x : Subscription) (sent : Int) (log : List Record) (next : Int) : Prop where
  | catchUp {cursor : Int} (at_ : x.pump = .catchUp cursor) (nonneg : 0 ≤ x.fromOffset) (lo : x.fromOffset ≤ cursor)
      (hi : cursor ≤ max x.fromOffset next) (hw : x.hwAtRegister ≤ sent)
      (sub : x.sub.map Record.norm = between x.hwAtRegister sent log) (dense : cursor < x.hwAtRegister → Dense cursor next log)
      (delivered : x.delivered.map Record.norm = between x.fromOffset cursor log)
  | send {cursor : Int} {todo : List Record} {n : Nat} (at_ : x.pump = .send cursor todo n) (nonneg : 0 ≤ x.fromOffset)
      (lo : x.fromOffset ≤ cursor) (hi : cursor + n ≤ next) (hw : x.hwAtRegister ≤ sent)
      (sub : x.sub.map Record.norm = between x.hwAtRegister sent log) (dense : Dense (cursor + n) next log)
      (delivered : x.delivered.map Record.norm ++ todo.map Record.norm = between x.fromOffset (cursor + n) log)
  | live {cursor first : Int} (at_ : x.pump = .live cursor) (lo : x.fromOffset ≤ cursor) (hi : cursor ≤ max x.fromOffset next)
      (le : first ≤ cursor) (bound : first ≤ sent) (sub : x.sub.map Record.norm = between first sent log)
      (delivered : x.delivered.map Record.norm = between x.fromOffset cursor log)
  | forward {cursor : Int} {r : Record} (at_ : x.pump = .forward cursor r) (lo : x.fromOffset ≤ r.offset)
      (bound : r.offset < sent) (sub : x.sub.map Record.norm = between (r.offset + 1) sent log)
      (delivered : x.delivered.map Record.norm ++ [r.norm] = between x.fromOffset (r.offset + 1) log)

variable {r : Record}

namespace Fed

variable {x : Subscription} {sent next : Int} {log : List Record}

section
variable (h : Fed x sent log next)
include h

theorem delivered_prefix (asc : log.Pairwise fun a b => a.offset < b.offset) :
    x.delivered.map Record.norm <+: since x.fromOffset log := by
  have hbetween : ∀ {cursor}, x.fromOffset ≤ cursor → between x.fromOffset cursor log <+: since x.fromOffset log :=
    fun hle => since_split asc hle ▸ prefix_append ..
  cases h with
  | catchUp _ _ lo _ _ _ _ delivered | live _ lo _ _ _ _ delivered => exact delivered ▸ hbetween lo
  | @send cursor todo n _ _ lo _ _ _ _ delivered =>
    exact (prefix_append ..).trans (delivered ▸ hbetween (show x.fromOffset ≤ cursor + n by omega))
  | @forward cursor r _ lo _ _ delivered =>
    exact (prefix_append ..).trans (delivered ▸ hbetween (show x.fromOffset ≤ r.offset + 1 by omega))

theorem running : x.pump ≠ .stopped ∧ x.pump ≠ .closed := by
  cases h with
  | _ at_ => exact ⟨by rw [at_]; nofun, by rw [at_]; nofun⟩

theorem append (hsent : sent ≤ next) (hoff : r.offset = next) : Fed x sent (log ++ [r]) (next + 1) := by
  have hsub : ∀ first, between first sent (log ++ [r]) = between first sent log := fun first =>
    between_concat_other log fun _ => hoff ▸ hsent
  have hdelivered : ∀ {cursor}, cursor ≤ max x.fromOffset next → between x.fromOffset cursor (log ++ [r]) =
    between x.fromOffset cursor log :=
    fun hle => between_concat_other log fun h => by omega
  cases h with
  | catchUp at_ nonneg lo hi hw sub dense delivered =>
    exact .catchUp at_ nonneg lo (by omega) hw (by rw [hsub]; exact sub) (fun hlt => (dense hlt).concat (by omega) hoff)
      (by rw [hdelivered hi]; exact delivered)
  | send at_ nonneg lo hi hw sub dense delivered =>
    exact .send at_ nonneg lo (by omega) hw (by rw [hsub]; exact sub) (dense.concat hi hoff)
      (by rw [hdelivered (by omega)]; exact delivered)
  | live at_ lo hi le bound sub delivered =>
    exact .live at_ lo (by omega) le bound (by rw [hsub]; exact sub) (by rw [hdelivered hi]; exact delivered)
  | forward at_ lo bound sub delivered =>
    exact .forward at_ lo bound (by rw [hsub]; exact sub) (by rw [hdelivered (by omega)]; exact delivered)

end

theorem announce {init : List Record} (h : Fed x r.offset (init ++ [r.norm]) next) (below : ∀ a ∈ init, a.offset < r.offset) :
    Fed { x with sub := x.sub ++ [r] } (r.offset + 1) (init ++ [r.norm]) next := by
  have hsub : ∀ {first}, first ≤ r.offset → x.sub.map Record.norm = between first r.offset (init ++ [r.norm]) →
      (x.sub ++ [r]).map Record.norm = between first (r.offset + 1) (init ++ [r.norm]) := by
    intro first hle heq
    have hother : between first r.offset (init ++ [r.norm]) = between first r.offset init :=
      between_concat_other init fun _ => Int.le_refl _
    rw [map_append, heq, hother]
    exact (between_concat_last (r := r.norm) below hle).symm
  cases h with
  | catchUp at_ nonneg lo hi hw sub dense delivered =>
    exact .catchUp at_ nonneg lo hi (Int.le_add_one hw) (hsub hw sub) dense delivered
  | send at_ nonneg lo hi hw sub dense delivered =>
    exact .send at_ nonneg lo hi (Int.le_add_one hw) (hsub hw sub) dense delivered
  | live at_ lo hi le bound sub delivered => exact .live at_ lo hi le (Int.le_add_one bound) (hsub bound sub) delivered
  | forward at_ lo bound sub delivered => exact .forward at_ lo (by omega) (hsub (by omega) sub) delivered

theorem receive (h : Fed x sent log next) {out : List Record} (hout : x.out = r :: out) :
    Fed { x with out := out, received := x.received ++ [r] } sent log next := by
  have hsame : Subscription.delivered { x with out := out, received := x.received ++ [r] } = x.delivered := by
    simp [Subscription.delivered, hout]
  cases h with
  | catchUp at_ nonneg lo hi hw sub dense delivered =>
    exact .catchUp at_ nonneg lo hi hw sub dense (by rw [hsame]; exact delivered)
  | send at_ nonneg lo hi hw sub dense delivered => exact .send at_ nonneg lo hi hw sub dense (by rw [hsame]; exact delivered)
  | live at_ lo hi le bound sub delivered => exact .live at_ lo hi le bound sub (by rw [hsame]; exact delivered)
  | forward at_ lo bound sub delivered => exact .forward at_ lo bound sub (by rw [hsame]; exact delivered)

end Fed

/-! ### Partitions -/

section
variable {σ : Type} [Store σ] [Served σ] {s s' : State σ} {p : PartitionRef} {log : List Record} {next : Int}
    {x z : Subscription} {a : Action}

def announced (s : State σ) (p : PartitionRef) (j : Nat) (next : Int) : Int :=
  match s.lock p with
  | some f => if j ∈ f.todo then next - 1 else next
  | none => next

omit [Store σ] [Served σ] in
theorem announced_le (s : State σ) (p : PartitionRef) (j : Nat) (next : Int) : announced s p j next ≤ next := by
  unfold announced
  split
  · split <;> omega
  · exact Int.le_refl next

omit [Store σ] [Served σ] in
theorem announced_of_lock (lock : s'.lock p = s.lock p) (j : Nat) (next : Int) :
    announced s' p j next = announced s p j next := by
  unfold announced
  rw [lock]

structure Serves (s : State σ) (p : PartitionRef) (log : List Record) (next : Int) : Prop where
  rep : ∃ rs, Served.Rep s.broker.store p rs next ∧ rs.map Record.norm = log
  owned : Owned s
  holding : ∀ f, s.lock p = some f → ∃ init, log = init ++ [f.record.norm] ∧ f.record.offset + 1 = next

namespace Serves

section
variable (h : Serves s p log next)
include h

theorem ascending : log.Pairwise fun a b => a.offset < b.offset := by
  obtain ⟨rs, rep, rfl⟩ := h.rep
  exact ascending_norm (Served.ascending rep)

theorem below : ∀ r ∈ log, r.offset < next := by
  obtain ⟨rs, rep, rfl⟩ := h.rep
  exact mem_norm (P := (· < next)) fun r hr => ((Served.within rep).2 r hr).2

theorem keep (owned : Owned s') (lock : s'.lock p = s.lock p)
    (rep : ∀ rs, Served.Rep s.broker.store p rs next → Served.Rep s'.broker.store p rs next) : Serves s' p log next := by
  obtain ⟨rs, hrep, hlog⟩ := h.rep
  exact ⟨⟨rs, rep rs hrep, hlog⟩, owned, lock ▸ h.holding⟩

end

end Serves

theorem Fed.read {sent cursor : Int} (h : Fed x sent log next) (hsent : sent ≤ next) (serves : Serves s p log next)
    (at_ : x.pump = .catchUp cursor) (behind : cursor < x.hwAtRegister) (hctx : x.ctx = .background) :
    ∃ r rs st, Store.read s.broker.store x.ctx p cursor catchUpBatchSize = (.ok (r :: rs), st) ∧
      Fed { x with pump := .send cursor (r :: rs) (rs.length + 1) } sent log next := by
  cases h with
  | catchUp at_' nonneg lo hi hw sub dense delivered =>
    cases at_.symm.trans at_'
    obtain ⟨rs, rep, rfl⟩ := serves.rep
    obtain ⟨st, hread, -⟩ := Served.read rep (Int.le_trans nonneg lo) catchUpBatchSize
    have hdense := dense behind
    have hlen : (since cursor rs).length = next - cursor := by
      rw [← length_map (f := Record.norm), since_map_norm]
      exact hdense
    generalize hbatch : (since cursor rs).take (catchUpBatchSize : Int).toNat = batch at hread
    cases batch with
    | nil =>
      have := congrArg length hbatch
      rw [length_take] at this
      simp only [catchUpBatchSize, length_nil] at this
      omega
    | cons r batch =>
      refine ⟨r, batch, st, by rw [hctx]; exact hread, ?_⟩
      have hcount : (since cursor rs).take (batch.length + 1) = r :: batch := by
        rw [← length_cons, ← hbatch, length_take, ← take_take, take_length]
      have hle : cursor + (batch.length + 1) ≤ next := by
        have := congrArg length hcount
        rw [length_take, length_cons] at this
        omega
      obtain ⟨htake, hrest⟩ := hdense.take serves.ascending serves.below hle
      rw [← since_map_norm, ← map_take, hcount] at htake
      refine .send rfl nonneg lo hle hw sub hrest ?_
      rw [between_append serves.ascending lo (show cursor ≤ cursor + (batch.length + 1 : Nat) by omega), htake]
      exact congrArg (· ++ _) delivered
  | _ at_' => cases at_.symm.trans at_'

theorem Fed.pumped {j : Nat} {sent : Int} (h : Fed x sent log next) (hsent : sent ≤ next) (serves : Serves s p log next)
    (hx : s.subs[j]? = some x) (hp : x.p = p) (hctx : x.ctx = .background) (hpumped : Pumped s j x s') :
    ∃ y, s'.subs[j]? = some y ∧ y.p = x.p ∧ y.ctx = x.ctx ∧ y.fromOffset = x.fromOffset ∧ Fed y sent log next := by
  have hset : ∀ y, (s.subs.set j y)[j]? = some y := fun y => List.getElem?_set_self (List.getElem?_eq_some_iff.mp hx).1
  have asc := serves.ascending
  cases hpumped with
  | @read cursor r rs st at_ behind read =>
    obtain ⟨r', rs', st', hread, hfed⟩ := h.read hsent serves at_ behind hctx
    rw [hp, hread] at read
    cases read
    exact ⟨_, hset _, rfl, rfl, rfl, hfed⟩
  | @ended cursor res st at_ behind read nothing =>
    -- a dense log has a record at the cursor
    obtain ⟨r', rs', st', hread, -⟩ := h.read hsent serves at_ behind hctx
    rw [hp, hread] at read
    cases read
    exact absurd rfl (nothing r' rs')
  | @caughtUp cursor at_ reached =>
    refine ⟨_, hset _, rfl, rfl, rfl, ?_⟩
    cases h with
    | catchUp at_' nonneg lo hi hw sub dense delivered =>
      cases at_.symm.trans at_'
      exact .live rfl lo hi reached hw sub delivered
    | _ at_' => cases at_.symm.trans at_'
  | @batchDone cursor n at_ =>
    refine ⟨_, hset _, rfl, rfl, rfl, ?_⟩
    cases h with
    | send at_' nonneg lo hi hw sub dense delivered =>
      cases at_.symm.trans at_'
      rw [map_nil, append_nil] at delivered
      exact .catchUp rfl nonneg (show x.fromOffset ≤ cursor + n by omega)
        (Int.le_trans hi (Int.le_max_right ..)) hw sub (fun _ => dense) delivered
    | _ at_' => cases at_.symm.trans at_'
  | @sent cursor r todo n at_ room =>
    refine ⟨_, hset _, rfl, rfl, rfl, ?_⟩
    cases h with
    | send at_' nonneg lo hi hw sub dense delivered =>
      cases at_.symm.trans at_'
      refine .send rfl nonneg lo hi hw sub dense ?_
      rw [← delivered]
      simp [Subscription.delivered]
    | _ at_' => cases at_.symm.trans at_'
  | @dropped cursor r rest at_ hsub old =>
    refine ⟨_, hset _, rfl, rfl, rfl, ?_⟩
    cases h with
    | live at_' lo hi le bound sub delivered =>
      cases at_.symm.trans at_'
      rw [hsub] at sub
      obtain ⟨-, hhi, -, hrest⟩ := between_cons asc sub.symm
      exact .live rfl lo hi old hhi hrest delivered
    | _ at_' => cases at_.symm.trans at_'
  | @took cursor r rest at_ hsub fresh =>
    refine ⟨_, hset _, rfl, rfl, rfl, ?_⟩
    cases h with
    | @live _ first at_' lo hi le bound sub delivered =>
      cases at_.symm.trans at_'
      rw [hsub] at sub
      obtain ⟨-, hhi, hone, hrest⟩ := between_cons asc sub.symm
      rw [Record.norm_offset] at hone
      refine .forward rfl (Int.le_trans lo fresh) hhi hrest ?_
      have hcursor : cursor ≤ r.offset + 1 := Int.le_add_one fresh
      -- the record is the first of the channel, so there is none between the cursor and it
      have hskip : between first cursor log = [] := by
        refine eq_nil_iff_forall_not_mem.mpr fun a ha => ?_
        have hmem : a ∈ between first (r.offset + 1) log := by
          rw [between_append asc le hcursor]
          exact mem_append_left _ ha
        rw [hone] at hmem
        have hlt := (mem_between.mp ha).2.2
        rw [mem_singleton.mp hmem] at hlt
        exact absurd fresh (Int.not_le.mpr hlt)
      rw [between_append asc le hcursor, hskip] at hone
      rw [between_append asc lo hcursor, ← delivered]
      exact congrArg (_ ++ ·) hone.symm
    | _ at_' => cases at_.symm.trans at_'
  | @forwarded cursor r at_ room =>
    refine ⟨_, hset _, rfl, rfl, rfl, ?_⟩
    cases h with
    | forward at_' lo bound sub delivered =>
      cases at_.symm.trans at_'
      refine .live rfl (Int.le_add_one lo) (Int.le_trans (Int.le_trans bound hsent) (Int.le_max_right ..))
        (Int.le_refl _) bound sub ?_
      rw [← delivered]
      simp [Subscription.delivered]
    | _ at_' => cases at_.symm.trans at_'
  | removed at_ => exact absurd at_ h.running.1
  | waits => exact ⟨x, hx, rfl, rfl, rfl, h⟩

/-! ### Steps -/

/-- No Publish to the partition is cut short, each has room for its record, and no checkpoint is written here. -/
def Quiet (p : PartitionRef) (s : State σ) : Action → Prop
  | .publish c => ¬ Checkpoints s.broker c p ∧ (c.p = p → Served.Fits s.broker.store c.now p c.record)
  | .cut q => q ≠ p
  | _ => True

theorem Pumped.rep {rs : List Record} {j : Nat} (h : Pumped s j x s') (rep : Served.Rep s.broker.store p rs next) :
    Served.Rep s'.broker.store p rs next := by
  cases h with
  | @read cursor r rs' st _ _ read | @ended cursor res st _ _ read =>
    have := rep_read rep x.ctx x.p cursor catchUpBatchSize
    rwa [read] at this
  | removed _ free =>
    simp only [State.removeSubscriber, free]
    exact rep
  | _ => exact rep

def Carries (s : State σ) (p : PartitionRef) (log : List Record) (next : Int) (a : Action) (s' : State σ)
    (log' : List Record) (next' : Int) : Prop :=
  ∀ j x, s.subs[j]? = some x → x.p = p → x.ctx = .background → Fed x (announced s p j next) log next → (∀ e, a ≠ .cancel j e) →
    ∃ y, s'.subs[j]? = some y ∧ y.p = x.p ∧ y.ctx = x.ctx ∧ y.fromOffset = x.fromOffset ∧
      Fed y (announced s' p j next') log' next'

omit [Store σ] [Served σ] in
/-- Subscriptions that a step does not touch go on as they are. -/
theorem carries_same (lock : s'.lock p = s.lock p)
    (subs : ∀ (j : Nat) x, s.subs[j]? = some x → x.p = p → s'.subs[j]? = some x) :
    Carries s p log next a s' log next := by
  intro j x hx hp _ hfed _
  exact ⟨x, subs j x hx hp, rfl, rfl, rfl, by rwa [announced_of_lock lock]⟩

omit [Store σ] [Served σ] in
theorem carries_set {k : Nat} {w : Subscription} (hz : s.subs[k]? = some z) (lock : s'.lock p = s.lock p)
    (subs : s'.subs = s.subs.set k w)
    (fed : z.p = p → z.ctx = .background → (∀ e, a ≠ .cancel k e) → ∀ sent, sent ≤ next → Fed z sent log next →
      w.p = z.p ∧ w.ctx = z.ctx ∧ w.fromOffset = z.fromOffset ∧ Fed w sent log next) :
    Carries s p log next a s' log next := by
  intro j x hx hp hctx hfed ha
  rw [announced_of_lock lock, subs]
  by_cases hjk : j = k
  · subst hjk
    cases hz.symm.trans hx
    exact ⟨w, List.getElem?_set_self (List.getElem?_eq_some_iff.mp hx).1, fed hp hctx ha _ (announced_le ..) hfed⟩
  · exact ⟨x, (List.getElem?_set_ne (Ne.symm hjk)).trans hx, rfl, rfl, rfl, hfed⟩

theorem Serves.published (h : Serves s c.p log next) {b : Broker σ} (free : s.lock c.p = none)
    (happend : appendLocked s.broker c = (some r, b)) (quiet : Quiet c.p s (.publish c)) (owned : Owned s')
    (lock : s'.lock = Function.update s.lock c.p (some ⟨r, s.subscribers c.p⟩)) (subs : s'.subs = s.subs)
      (broker : s'.broker = b) :
    Serves s' c.p (log ++ [r.norm]) (next + 1) ∧ Carries s c.p log next (.publish c) s' (log ++ [r.norm]) (next + 1) := by
  have hlock : s'.lock c.p = some ⟨r, s.subscribers c.p⟩ := by rw [lock, Function.update_self]
  obtain ⟨rs, rep, hlog⟩ := h.rep
  rcases rep_appendLocked_self rep quiet.1 (quiet.2 rfl) with ⟨hnone, -⟩ | ⟨r', x, hsome, hoff, hnorm, rep'⟩
  · rw [happend] at hnone
    cases hnone
  rw [happend] at hsome rep'
  cases hsome
  refine ⟨⟨⟨rs ++ [x], broker ▸ rep', ?_⟩, owned, fun f hf => ?_⟩, fun j y hy hp hctx hfed _ => ?_⟩
  · rw [map_append, hlog, map_singleton, hnorm]
  · cases hlock.symm.trans hf
    exact ⟨log, rfl, by rw [hoff]⟩
  · have hmem : j ∈ s.subscribers c.p := State.mem_subscribers.mpr ⟨y, hy, hp, hfed.running.2⟩
    rw [announced, free] at hfed
    refine ⟨y, subs ▸ hy, rfl, rfl, rfl, ?_⟩
    rw [announced, hlock]
    simp only [hmem, Int.add_sub_cancel]
    exact hfed.append (Int.le_refl next) hoff

section
variable (h : Serves s p log next)
include h

theorem Serves.sent {k : Nat} {todo : List Nat} (held : s.lock p = some ⟨r, k :: todo⟩)
    (hz : s.subs[k]? = some z) (owned : Owned ((s.setSub k { z with sub := z.sub ++ [r] }).setLock p (some ⟨r, todo⟩))) :
    Serves ((s.setSub k { z with sub := z.sub ++ [r] }).setLock p (some ⟨r, todo⟩)) p log next ∧
      Carries s p log next (.send p) ((s.setSub k { z with sub := z.sub ++ [r] }).setLock p (some ⟨r, todo⟩)) log next := by
  obtain ⟨init, rfl, rfl⟩ := h.holding _ held
  have hk : k ∉ todo := (nodup_cons.mp (h.owned p _ held).1).1
  refine ⟨⟨h.rep, owned, fun f hf => ?_⟩, fun j x hx hp hctx hfed _ => ?_⟩
  · rw [State.setLock_self] at hf
    cases hf
    exact ⟨init, rfl, rfl⟩
  have hbefore : announced s p j (r.offset + 1) = if j = k ∨ j ∈ todo then r.offset else r.offset + 1 := by
    simp [announced, held]
  have hafter : announced ((s.setSub k { z with sub := z.sub ++ [r] }).setLock p (some ⟨r, todo⟩)) p j (r.offset + 1) =
      if j ∈ todo then r.offset else r.offset + 1 := by
    simp [announced, State.setLock_self]
  rw [hbefore] at hfed
  rw [hafter]
  by_cases hjk : j = k
  · subst hjk
    cases hz.symm.trans hx
    rw [if_pos (.inl rfl)] at hfed
    rw [if_neg hk]
    refine ⟨_, List.getElem?_set_self (List.getElem?_eq_some_iff.mp hx).1, rfl, rfl, rfl, hfed.announce fun a ha => ?_⟩
    exact (pairwise_append.mp h.ascending).2.2 a ha r.norm (mem_singleton_self _)
  · refine ⟨x, (List.getElem?_set_ne (Ne.symm hjk)).trans hx, rfl, rfl, rfl, ?_⟩
    simpa only [hjk, false_or] using hfed

theorem Serves.returned (held : s.lock p = some ⟨r, []⟩) (owned : Owned (s.setLock p none)) :
    Serves (s.setLock p none) p log next ∧ Carries s p log next (.send p) (s.setLock p none) log next := by
  refine ⟨⟨h.rep, owned, fun f hf => ?_⟩, fun j x hx _ _ hfed _ => ⟨x, hx, rfl, rfl, rfl, ?_⟩⟩
  · rw [State.setLock_self] at hf
    cases hf
  · have hbefore : announced s p j next = next := by simp [announced, held]
    have hafter : announced (s.setLock p none) p j next = next := by simp [announced]
    rw [hbefore] at hfed
    rwa [hafter]

theorem Serves.step (quiet : Quiet p s a) :
    ∃ log' next', Serves (s.step a) p log' next' ∧ Carries s p log next a (s.step a) log' next' ∧
      ((∀ c, a ≠ .publish c) → log' = log ∧ next' = next) := by
  have howned := h.owned.step a
  have hstep := stepped s a
  generalize s.step a = s' at hstep howned ⊢
  cases hstep with
  | waits => exact ⟨log, next, h, carries_same rfl fun _ _ hx _ => hx, fun _ => ⟨rfl, rfl⟩⟩
  | @refused ctx q e st _ highWater =>
    refine ⟨log, next, h.keep howned rfl fun rs rep => ?_, carries_same rfl fun _ _ hx _ => hx, fun _ => ⟨rfl, rfl⟩⟩
    have := rep_highWater rep ctx q
    rwa [highWater] at this
  | @subscribed ctx q hw st _ _ _ highWater =>
    refine ⟨log, next, h.keep howned rfl fun rs rep => ?_, carries_same rfl fun j x hx _ => ?_, fun _ => ⟨rfl, rfl⟩⟩
    · have := rep_highWater rep ctx q
      rwa [highWater] at this
    · exact (List.getElem?_append_left (List.getElem?_eq_some_iff.mp hx).1).trans hx
  | @rejected c b _ _ append =>
    refine ⟨log, next, h.keep howned rfl fun rs rep => ?_, carries_same rfl fun _ _ hx _ => hx, fun _ => ⟨rfl, rfl⟩⟩
    rw [show b = (appendLocked s.broker c).2 by rw [append]]
    by_cases hc : c.p = p
    · subst hc
      rcases rep_appendLocked_self rep quiet.1 (quiet.2 rfl) with ⟨-, rep'⟩ | ⟨r, x, hsome, -⟩
      · exact rep'
      · rw [append] at hsome
        cases hsome
    · exact rep_appendLocked_other rep hc quiet.1
  | @published c r b _ free append =>
    by_cases hc : c.p = p
    · subst hc
      obtain ⟨hserves, hcarries⟩ := h.published free append quiet howned rfl rfl rfl
      exact ⟨_, _, hserves, hcarries, fun hne => absurd rfl (hne c)⟩
    · have hlock : Function.update s.lock c.p (some ⟨r, s.subscribers c.p⟩) p = s.lock p :=
        Function.update_of_ne (Ne.symm hc) ..
      refine ⟨log, next, h.keep howned hlock fun rs rep => ?_, carries_same hlock fun _ _ hx _ => hx, fun _ => ⟨rfl, rfl⟩⟩
      have := rep_appendLocked_other rep hc quiet.1
      rwa [append] at this
  | @sent q r k todo z held sub =>
    by_cases hq : q = p
    · subst hq
      obtain ⟨hserves, hcarries⟩ := h.sent held sub howned
      exact ⟨log, next, hserves, hcarries, fun _ => ⟨rfl, rfl⟩⟩
    · have hlock := (s.setSub k { z with sub := z.sub ++ [r] }).setLock_of_ne (Ne.symm hq) (some ⟨r, todo⟩)
      refine ⟨log, next, h.keep howned hlock fun _ rep => rep, carries_set sub hlock rfl fun hp => ?_, fun _ => ⟨rfl, rfl⟩⟩
      obtain ⟨y, hy, hyq⟩ := (h.owned q _ held).2 k mem_cons_self
      cases sub.symm.trans hy
      exact absurd (hyq.symm.trans hp) hq
  | @returned q r held =>
    by_cases hq : q = p
    · subst hq
      obtain ⟨hserves, hcarries⟩ := h.returned held howned
      exact ⟨log, next, hserves, hcarries, fun _ => ⟨rfl, rfl⟩⟩
    · have hlock := s.setLock_of_ne (Ne.symm hq) none
      exact ⟨log, next, h.keep howned hlock fun _ rep => rep, carries_same hlock fun _ _ hx _ => hx, fun _ => ⟨rfl, rfl⟩⟩
  | @cut q r k todo held =>
    have hlock := s.setLock_of_ne (Ne.symm quiet) none
    exact ⟨log, next, h.keep howned hlock fun _ rep => rep, carries_same hlock fun _ _ hx _ => hx, fun _ => ⟨rfl, rfl⟩⟩
  | @pumped k z s' sub hpumped =>
    refine ⟨log, next, h.keep howned (congrFun hpumped.lock p) fun rs rep => hpumped.rep rep, ?_, fun _ => ⟨rfl, rfl⟩⟩
    obtain ⟨w, hsubs, -⟩ := hpumped.subs sub
    refine carries_set sub (congrFun hpumped.lock p) hsubs fun hp hctx _ sent hsent hfed => ?_
    obtain ⟨y, hy, hy'⟩ := hfed.pumped hsent h sub hp hctx hpumped
    rw [hsubs, List.getElem?_set_self (List.getElem?_eq_some_iff.mp sub).1] at hy
    cases hy
    exact hy'
  | stopped sub done =>
    exact ⟨log, next, h.keep howned rfl fun _ rep => rep, carries_set sub rfl rfl fun _ hctx =>
      absurd (congrArg Ctx.err hctx) done, fun _ => ⟨rfl, rfl⟩⟩
  | cancelled sub e =>
    exact ⟨log, next, h.keep howned rfl fun _ rep => rep, carries_set sub rfl rfl fun _ _ ha => absurd rfl (ha e),
      fun _ => ⟨rfl, rfl⟩⟩
  | received sub nonempty =>
    exact ⟨log, next, h.keep howned rfl fun _ rep => rep,
      carries_set sub rfl rfl fun _ _ _ _ _ hfed => ⟨rfl, rfl, rfl, hfed.receive nonempty⟩, fun _ => ⟨rfl, rfl⟩⟩

end

end

theorem rep_memory : Served.Rep memory.store part [] 0 := ⟨rfl, nofun, rfl⟩

end Holocron.Subscribe

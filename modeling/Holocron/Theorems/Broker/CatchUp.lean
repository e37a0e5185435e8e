import Holocron.Theorems.Broker.HandOff

/-! The cursor of a catch-up goes on by the number of records read, so it is right only where the log has no gap. -/

namespace Holocron.Subscribe
open Lib Log Storage Broker List

def rounds (j : Nat) : Nat → List Action
  | 0 => []
  | n + 1 => .receive j :: .pump j :: rounds j n

section
variable {σ : Type} [Store σ]

/-- What Subscribe promises at every moment: the channel is open, the subscriber has got a beginning of what is stored
    from its offset on, and, as soon as no Publish is in its fan-out, will get all of it. -/
def Exact (s : State σ) (p : PartitionRef) (j : Nat) (fromOffset : Int) : Prop :=
  ∃ x stored, s.subs[j]? = some x ∧ contents s.broker.store p = .ok stored ∧ x.pump ≠ .stopped ∧ x.pump ≠ .closed ∧
    x.delivered.map Record.norm <+: (since fromOffset stored).map Record.norm ∧
    (s.lock p = none → ∃ n y, ((rounds j n).foldl State.step s).subs[j]? = some y ∧
      y.received.map Record.norm = (since fromOffset stored).map Record.norm)

variable [Served σ] {s s' : State σ} {p : PartitionRef} {j : Nat} {fromOffset next : Int} {log : List Record}

/-- The step is quiet, and does not cancel the subscription. -/
def Calm (p : PartitionRef) (j : Nat) (s : State σ) (a : Action) : Prop := Quiet p s a ∧ ∀ e, a ≠ .cancel j e

theorem calm_rounds (s : State σ) (n : Nat) : Along State.step s (rounds j n) (Calm p j) := by
  induction n generalizing s with
  | zero => exact .nil
  | succ n ih => exact .cons ⟨trivial, nofun⟩ (.cons ⟨trivial, nofun⟩ (ih _))

structure Live (s : State σ) (p : PartitionRef) (j : Nat) (fromOffset : Int) (log : List Record) (next : Int)
    (x : Subscription) : Prop where
  serves : Serves s p log next
  sub : s.subs[j]? = some x
  here : x.p = p
  ctx : x.ctx = .background
  start : x.fromOffset = fromOffset
  fed : Fed x (announced s p j next) log next

variable {x : Subscription} {rs : List Record}

theorem Live.step (h : Live s p j fromOffset log next x) {a : Action} (calm : Calm p j s a) :
    ∃ log' next' y, Live (s.step a) p j fromOffset log' next' y ∧ ((∀ c, a ≠ .publish c) → log' = log ∧ next' = next) := by
  obtain ⟨log', next', hserves, hcarries, hsame⟩ := h.serves.step calm.1
  obtain ⟨y, hy, hyp, hyctx, hyfrom, hfed⟩ := hcarries j x h.sub h.here h.ctx h.fed calm.2
  exact ⟨log', next', y, ⟨hserves, hy, hyp.trans h.here, hyctx.trans h.ctx, hyfrom.trans h.start, hfed⟩, hsame⟩

def Subscription.load (x : Subscription) (next : Int) : Nat :=
  x.out.length + 3 * x.sub.length +
    match x.pump with
    | .catchUp cursor => 4 * (next - cursor).toNat + 2
    | .send cursor todo n => 4 * (next - (cursor + n)).toNat + 2 * todo.length + 3
    | .forward _ _ => 2
    | _ => 0

theorem Live.pump {y : Subscription} (h : Live s p j fromOffset log next x)
    (h' : Live (s.step (.pump j)) p j fromOffset log next y) :
    y.load next < x.load next ∨ y = x ∧
      (defaultSubscriberBuffer ≤ x.out.length ∨ ∃ cursor, x.pump = .live cursor ∧ x.sub = []) := by
  have hsub := h'.sub
  have hfed := h'.fed
  have hset : ∀ {w}, (s.subs.set j w)[j]? = some y → y = w := fun hy =>
    (Option.some.inj ((List.getElem?_set_self (List.getElem?_eq_some_iff.mp h.sub).1).symm.trans hy)).symm
  have hpumped := pumped h.sub
  change (s.pump j).subs[j]? = some y at hsub
  generalize s.pump j = s' at hpumped hsub
  cases hpumped with
  | @read cursor r rs st at_ behind read =>
    cases hset hsub
    cases hfed with
    | send at_' _ _ hi =>
      cases at_'
      simp only [Subscription.load, at_, length_cons]
      omega
    | _ at_' => cases at_'
  | ended =>
    cases hset hsub
    exact absurd rfl hfed.running.1
  | @caughtUp cursor at_ | batchDone at_ =>
    cases hset hsub
    simp only [Subscription.load, at_]
    omega
  | sent at_ =>
    cases hset hsub
    simp only [Subscription.load, at_, length_append, length_cons, length_nil]
    omega
  | dropped at_ sub | took at_ sub =>
    cases hset hsub
    simp only [Subscription.load, sub, length_cons]
    omega
  | forwarded at_ =>
    cases hset hsub
    simp only [Subscription.load, at_, length_append, length_cons, length_nil]
    omega
  | removed at_ => exact absurd at_ h.fed.running.1
  | waits why =>
    cases h.sub.symm.trans hsub
    rcases why with hstopped | hclosed | hfull | hidle
    · exact absurd hstopped h.fed.running.1
    · exact absurd hclosed h.fed.running.2
    · exact .inr ⟨rfl, .inl hfull⟩
    · exact .inr ⟨rfl, .inr hidle⟩

theorem Live.receive (h : Live s p j fromOffset log next x) : Live (s.step (.receive j)) p j fromOffset log next x.receive := by
  obtain ⟨log', next', y, h', hsame⟩ := h.step (a := .receive j) ⟨trivial, nofun⟩
  obtain ⟨rfl, rfl⟩ := hsame nofun
  have hy := h'.sub
  change (s.modify j Subscription.receive).subs[j]? = some y at hy
  rw [State.modify_of_some h.sub, State.setSub_subs, List.getElem?_set_self (List.getElem?_eq_some_iff.mp h.sub).1] at hy
  cases hy
  exact h'

omit [Store σ] [Served σ] in
theorem lock_modify (s : State σ) (j : Nat) (f : Subscription → Subscription) : (s.modify j f).lock = s.lock := by
  unfold State.modify
  split <;> rfl

omit [Served σ] in
theorem lock_pump (s : State σ) (j : Nat) : (s.pump j).lock = s.lock := by
  cases hx : s.subs[j]? with
  | none => simp only [State.pump, hx]
  | some x => exact (pumped hx).lock

section
variable (h : Live s p j fromOffset log next x)
include h

theorem Live.finished (free : s.lock p = none) (hout : x.out = []) {cursor : Int}
    (hpump : x.pump = .live cursor) (hsub : x.sub = []) : x.received.map Record.norm = since fromOffset log := by
  have hannounced : announced s p j next = next := by simp only [announced, free]
  have hfed := h.fed
  rw [hannounced] at hfed
  cases hfed with
  | @live _ first at_ lo _ le _ sub delivered =>
    cases hpump.symm.trans at_
    rw [hsub] at sub
    rw [Subscription.delivered, hout, append_nil, h.start] at delivered
    rw [h.start] at lo
    have hrest : since cursor log = [] := since_eq_nil fun r hr => by
      refine Int.not_le.mp fun hle => ?_
      have hmem := mem_between.mpr ⟨hr, Int.le_trans le hle, h.serves.below r hr⟩
      rw [← sub] at hmem
      cases hmem
    rw [delivered, since_split h.serves.ascending lo, hrest, append_nil]
  | _ at_ => cases hpump.symm.trans at_

/-- With no Publish in its fan-out, the subscriber gets everything that is stored. -/
theorem Live.drains (free : s.lock p = none) :
    ∃ n y, ((rounds j n).foldl State.step s).subs[j]? = some y ∧ y.received.map Record.norm = since fromOffset log := by
  induction hload : x.load next using Nat.strongRecOn generalizing s x with
  | ind m ih =>
    subst hload
    have h₁ := h.receive
    obtain ⟨log', next', y, h₂, hsame⟩ := h₁.step (a := .pump j) ⟨trivial, nofun⟩
    rw [(hsame nofun).1, (hsame nofun).2] at h₂
    have hfree : ((s.step (.receive j)).step (.pump j)).lock p = none := by
      change ((s.modify j Subscription.receive).pump j).lock p = none
      rwa [lock_pump, lock_modify]
    have hless : y.load next < x.load next → ∃ n y, ((rounds j n).foldl State.step s).subs[j]? = some y ∧
        y.received.map Record.norm = since fromOffset log := by
      intro hlt
      obtain ⟨n, z, hz, hreceived⟩ := ih _ hlt h₂ hfree rfl
      exact ⟨n + 1, z, hz, hreceived⟩
    have hpump := h₁.pump h₂
    cases hout : x.out with
    | nil =>
      have hsame : x.receive = x := by simp only [Subscription.receive, hout]
      rw [hsame] at hpump
      rcases hpump with hlt | ⟨-, hfull | ⟨cursor, hlive, hsub⟩⟩
      · exact hless hlt
      · rw [hout] at hfull
        cases hfull
      · exact ⟨0, x, h.sub, h.finished free hout hlive hsub⟩
    | cons r out =>
      have hlt : x.receive.load next < x.load next := by
        simp only [Subscription.receive, hout, Subscription.load, length_cons]
        omega
      rcases hpump with hlt' | ⟨rfl, -⟩
      · exact hless (Nat.lt_trans hlt' hlt)
      · exact hless hlt

theorem Live.exact : Exact s p j fromOffset := by
  obtain ⟨stored, rep, rfl⟩ := h.serves.rep
  refine ⟨x, stored, h.sub, Served.contents_eq rep, h.fed.running.1, h.fed.running.2, ?_, fun free => ?_⟩
  · rw [since_map_norm, ← h.start]
    exact h.fed.delivered_prefix h.serves.ascending
  · rw [since_map_norm]
    exact h.drains free

end

theorem subscribe_step (rep : Served.Rep s.broker.store p rs next) (valid : s.broker.validate p = .ok ())
    (free : s.lock p = none) (fromOffset : Int) : (s.step (.subscribe .background p fromOffset)).subs[s.subs.length]? =
        some ⟨p, fromOffset, next, .background, [], [], [], .catchUp fromOffset⟩ ∧
      (s.step (.subscribe .background p fromOffset)).lock = s.lock ∧
      Served.Rep (s.step (.subscribe .background p fromOffset)).broker.store p rs next := by
  obtain ⟨st, hhw, rep'⟩ := Served.highWater rep
  change (s.subscribe .background p fromOffset).subs[s.subs.length]? = _ ∧ (s.subscribe .background p fromOffset).lock = _ ∧
    Served.Rep (s.subscribe .background p fromOffset).broker.store p rs next
  simp only [State.subscribe, valid, free, hhw]
  exact ⟨getElem?_concat_length, trivial, rep'⟩

structure Tally (s : State σ) (p : PartitionRef) (j : Nat) (fromOffset : Int) (rs : List Record) (next : Int)
    (x : Subscription) : Prop where
  rep : Served.Rep s.broker.store p rs next
  sub : s.subs[j]? = some x
  ctx : x.ctx = .background
  hw : x.hwAtRegister = next
  out : x.out.length ≤ 1
  count : match x.pump with
    | .catchUp cursor => cursor = fromOffset + x.delivered.length
    | .send cursor todo n => cursor + n = fromOffset + x.delivered.length + todo.length
    | .live _ | .forward _ _ => next ≤ fromOffset + x.delivered.length
    | .stopped | .closed => True

theorem Tally.receive (h : Tally s p j fromOffset rs next x) :
    Tally (s.step (.receive j)) p j fromOffset rs next x.receive ∧ x.receive.out = [] ∧
      x.receive.delivered = x.delivered ∧ x.receive.pump = x.pump := by
  have hstep : s.step (.receive j) = s.setSub j x.receive := State.modify_of_some h.sub _
  have hsub : (s.subs.set j x.receive)[j]? = some x.receive := List.getElem?_set_self (List.getElem?_eq_some_iff.mp h.sub).1
  have hout := h.out
  have hfacts : x.receive.out = [] ∧ x.receive.delivered = x.delivered ∧ x.receive.pump = x.pump ∧ x.receive.ctx = x.ctx ∧
      x.receive.hwAtRegister = x.hwAtRegister := by
    cases hx : x.out with
    | nil => simp [Subscription.receive, hx]
    | cons r out =>
      rw [hx, length_cons] at hout
      have hnil : out = [] := length_eq_zero_iff.mp (by omega)
      simp [Subscription.receive, Subscription.delivered, hx, hnil]
  obtain ⟨hempty, hdelivered, hpump, hctx, hhw⟩ := hfacts
  rw [hstep]
  refine ⟨⟨h.rep, hsub, hctx.trans h.ctx, hhw.trans h.hw, by rw [hempty]; exact Nat.zero_le 1, ?_⟩, hempty, hdelivered, hpump⟩
  rw [hpump, hdelivered]
  exact h.count

def Subscription.stage (x : Subscription) : Nat :=
  match x.pump with
  | .catchUp _ => 1
  | .send _ [] _ => 2
  | _ => 0

/-- A pump that runs alone ends, is past the end of the log by its own count, or gets on. -/
theorem Tally.pump (h : Tally s p j fromOffset rs next x) (hout : x.out = []) :
    ∃ y, Tally (s.step (.pump j)) p j fromOffset rs next y ∧
      (y.pump = .stopped ∨ y.pump = .closed ∨ next ≤ fromOffset + x.delivered.length ∨
      y.delivered.length = x.delivered.length ∧ y.stage < x.stage ∨ y.delivered.length = x.delivered.length + 1) := by
  have hcount := h.count
  have hset : ∀ w, (s.subs.set j w)[j]? = some w := fun w =>
    List.getElem?_set_self (List.getElem?_eq_some_iff.mp h.sub).1
  have hpumped := pumped h.sub
  have hrep := hpumped.rep h.rep
  change ∃ y, Tally (s.pump j) p j fromOffset rs next y ∧ _
  generalize s.pump j = s' at hpumped hrep ⊢
  have hlen : ∀ r, (x.out ++ [r]).length ≤ 1 := fun r => by rw [hout]; exact Nat.le_refl 1
  cases hpumped with
  | @read cursor r batch st at_ =>
    rw [at_] at hcount
    refine ⟨_, ⟨hrep, hset _, h.ctx, h.hw, h.out, ?_⟩, .inr (.inr (.inr (.inl ⟨rfl, by simp [Subscription.stage, at_]⟩)))⟩
    simp only [Subscription.delivered, length_cons] at hcount ⊢
    omega
  | ended => exact ⟨_, ⟨hrep, hset _, h.ctx, h.hw, h.out, trivial⟩, .inl rfl⟩
  | @caughtUp cursor at_ reached =>
    rw [at_] at hcount
    have hend : next ≤ fromOffset + x.delivered.length := by rw [← hcount, ← h.hw]; exact reached
    exact ⟨_, ⟨hrep, hset _, h.ctx, h.hw, h.out, hend⟩, .inr (.inr (.inl hend))⟩
  | @batchDone cursor n at_ =>
    rw [at_] at hcount
    refine ⟨_, ⟨hrep, hset _, h.ctx, h.hw, h.out, ?_⟩, .inr (.inr (.inr (.inl ⟨rfl, by simp [Subscription.stage, at_]⟩)))⟩
    simpa [Subscription.delivered] using hcount
  | @sent cursor r todo n at_ =>
    rw [at_] at hcount
    refine ⟨_, ⟨hrep, hset _, h.ctx, h.hw, hlen r, ?_⟩, .inr (.inr (.inr (.inr ?_)))⟩
    · simp only [Subscription.delivered, length_append, length_cons, length_nil] at hcount ⊢
      omega
    · simp [Subscription.delivered, Nat.add_assoc]
  | @dropped cursor r rest at_ | @took cursor r rest at_ =>
    rw [at_] at hcount
    exact ⟨_, ⟨hrep, hset _, h.ctx, h.hw, h.out, hcount⟩, .inr (.inr (.inl hcount))⟩
  | @forwarded cursor r at_ =>
    rw [at_] at hcount
    refine ⟨_, ⟨hrep, hset _, h.ctx, h.hw, hlen r, ?_⟩, .inr (.inr (.inl hcount))⟩
    simp only [Subscription.delivered, length_append] at hcount ⊢
    omega
  | removed at_ free =>
    simp only [State.removeSubscriber, free] at hrep ⊢
    exact ⟨_, ⟨hrep, hset _, h.ctx, h.hw, h.out, trivial⟩, .inr (.inl rfl)⟩
  | waits why =>
    refine ⟨x, h, ?_⟩
    rcases why with hstopped | hclosed | hfull | ⟨cursor, hlive, -⟩
    · exact .inl hstopped
    · exact .inr (.inl hclosed)
    · rw [hout] at hfull
      cases hfull
    · rw [hlive] at hcount
      exact .inr (.inr (.inl hcount))

theorem Tally.reaches (h : Tally s p j fromOffset rs next x) {bound : Nat}
    (going : ∀ n y, ((rounds j n).foldl State.step s).subs[j]? = some y → y.pump ≠ .stopped ∧ y.pump ≠ .closed ∧
      y.delivered.length ≤ bound) :
    next ≤ fromOffset + bound := by
  induction hm : 3 * (bound - x.delivered.length) + x.stage using Nat.strongRecOn generalizing s x with
  | ind m ih =>
    obtain ⟨h₁, hout, hdelivered, hpump⟩ := h.receive
    obtain ⟨y, h₂, hy⟩ := h₁.pump hout
    have hbound := (going 0 x h.sub).2.2
    obtain ⟨hstopped, hclosed, hbound'⟩ := going 1 y h₂.sub
    have hstage : x.receive.stage = x.stage := by simp only [Subscription.stage, hpump]
    have hnext : 3 * (bound - y.delivered.length) + y.stage < m → next ≤ fromOffset + bound := fun hlt =>
      ih _ hlt h₂ (fun n => going (n + 1)) rfl
    have htwo : y.stage ≤ 2 := by
      unfold Subscription.stage
      split <;> omega
    rcases hy with hy | hy | hy | ⟨hlen, hlt⟩ | hlen
    · exact absurd hy hstopped
    · exact absurd hy hclosed
    · rw [hdelivered] at hy
      omega
    all_goals exact hnext (by rw [hdelivered] at hlen; omega)

theorem rep_rounds (rep : Served.Rep s.broker.store p rs next) (j n : Nat) :
    Served.Rep ((rounds j n).foldl State.step s).broker.store p rs next := by
  induction n generalizing s with
  | zero => exact rep
  | succ n ih =>
    refine ih ?_
    have hreceive : (s.modify j Subscription.receive).broker = s.broker := by
      unfold State.modify
      split <;> rfl
    change Served.Rep ((s.modify j Subscription.receive).pump j).broker.store p rs next
    rw [← hreceive] at rep
    cases hx : (s.modify j Subscription.receive).subs[j]? with
    | none => simpa only [State.pump, hx] using rep
    | some x => exact (pumped hx).rep rep

/-- A subscription is exact in every run after it, if and only if the log has no gap between its offset and the end. -/
theorem subscribe_exact {rs : List Record} {b : Broker σ} (before : List Action)
    (reached : s = before.foldl State.step (.start b))
    (rep : Served.Rep s.broker.store p rs next) (valid : s.broker.validate p = .ok ()) (free : s.lock p = none)
      (fromOffset : Int) :
    (∀ run, Along State.step (s.step (.subscribe .background p fromOffset)) run (Calm p s.subs.length) →
      Exact (run.foldl State.step (s.step (.subscribe .background p fromOffset))) p s.subs.length fromOffset) ↔
    0 ≤ fromOffset ∧ (next ≤ fromOffset ∨ Dense fromOffset next rs) := by
  obtain ⟨hsub, hlock, hrep⟩ := subscribe_step rep valid free fromOffset
  have howned : Owned (s.step (.subscribe .background p fromOffset)) := by
    rw [reached]
    exact (owned b before).step _
  generalize s.step (.subscribe .background p fromOffset) = s₀ at *
  have hspan : ∀ lo ≤ next, (since lo rs).length ≤ next - lo := fun lo hlo =>
    length_le_span ((Served.ascending rep).filter _) hlo fun r hr =>
      ⟨(mem_since.mp hr).2, ((Served.within rep).2 r (mem_since.mp hr).1).2⟩
  constructor
  · intro hexact
    have hgoing : ∀ n y, ((rounds s.subs.length n).foldl State.step s₀).subs[s.subs.length]? = some y →
        y.pump ≠ .stopped ∧ y.pump ≠ .closed ∧ y.delivered.length ≤ (since fromOffset rs).length := by
      intro n y hy
      obtain ⟨x, stored, hx, hstored, hstopped, hclosed, hprefix, -⟩ := hexact _ (calm_rounds s₀ n)
      cases hy.symm.trans hx
      cases (Served.contents_eq (rep_rounds hrep s.subs.length n)).symm.trans hstored
      exact ⟨hstopped, hclosed, by simpa using hprefix.length_le⟩
    have hstart : Tally s₀ p s.subs.length fromOffset rs next ⟨p, fromOffset, next, .background, [], [], [],
      .catchUp fromOffset⟩ :=
      ⟨hrep, hsub, rfl, rfl, Nat.zero_le 1, (Int.add_zero fromOffset).symm⟩
    have hcount := hstart.reaches hgoing
    have hnext := (Served.within rep).1
    constructor
    · -- all records together are too few to count from a negative offset to the end
      have hall := hspan 0 hnext
      have hle : (since fromOffset rs).length ≤ rs.length := length_filter_le _ _
      rw [since_eq_self fun r hr => ((Served.within rep).2 r hr).1] at hall
      omega
    · rcases Int.le_total next fromOffset with hle | hle
      · exact .inl hle
      · exact .inr (Int.le_antisymm (hspan fromOffset hle) (by omega))
  · rintro ⟨hnonneg, hdense⟩ run hrun
    have hfree : s₀.lock p = none := by rw [hlock]; exact free
    have hstart : Live s₀ p s.subs.length fromOffset (rs.map Record.norm) next ⟨p, fromOffset, next, .background, [],
      [], [], .catchUp fromOffset⟩ :=
      ⟨⟨⟨rs, hrep, rfl⟩, howned, by rw [hfree]; nofun⟩, hsub, rfl, rfl, rfl,
        fed_start hfree hnonneg (hdense.imp_right Dense.norm) _⟩
    obtain ⟨log, next', x, hlive⟩ := hrun.invariant (fun _ s' => ∃ log next x, Live s' p s.subs.length fromOffset log next x)
      (fun _ _ _ ⟨_, _, _, h⟩ ha => by
        obtain ⟨log, next, y, h', -⟩ := h.step ha
        exact ⟨log, next, y, h'⟩) ⟨_, _, _, hstart⟩
    exact hlive.exact

end

def twice : List Action := [.publish hello, .send part, .publish hello, .send part]

/-- A subscription from the second of two records on, with a third that is published while it catches up. -/
theorem subscribe_exact_hello :
    Exact ([.publish hello, .pump 0, .send part, .pump 0, .send part, .receive 0].foldl State.step
      ((twice.foldl State.step (.start memory)).step (.subscribe .background part 1))) part 0 1 := by
  have rep : Served.Rep (twice.foldl State.step (.start memory)).broker.store part
      [⟨0, 1, none, some [7], []⟩, ⟨1, 1, none, some [7], []⟩] 2 := by
    refine ⟨by decide +kernel, fun i r hr => ?_, rfl⟩
    rcases i with _ | _ | i <;> cases hr <;> rfl
  refine (subscribe_exact twice rfl rep (by decide +kernel) (by decide +kernel) 1).mpr ⟨by decide,
    .inr (by decide +kernel)⟩ _ ?_
  exact .cons ⟨quiet_hello _, nofun⟩ (.cons ⟨trivial, nofun⟩ (.cons ⟨trivial, nofun⟩ (.cons ⟨trivial, nofun⟩
    (.cons ⟨trivial, nofun⟩ (.cons ⟨trivial, nofun⟩ .nil)))))

def compacted : Except LogError PartitionLog := do
  let l ← PartitionLog.openPartition [] 60
  let (_, l) ← l.append ⟨0, 1, some [1], some [7], []⟩
  let (_, l) ← l.append ⟨1, 1, some [1], some [8], []⟩
  let (_, l) ← l.compact
  return l

def gapped : Broker FileStore :=
  ⟨⟨60, fun p => if p = part then compacted.toOption else none, fun _ => []⟩, ⟨[⟨utf8 "t", 1, 0, 0⟩], none⟩, 0, [],
    fun _ => .empty⟩

/-- A subscriber from offset 0 gets record 1, the only one there is, and then gets it once more. -/
theorem catchUp_repeats : contents gapped.store part = .ok [⟨1, 1, some [1], some [8], []⟩] ∧
    ((rounds 0 6).foldl State.step ((State.start gapped).step (.subscribe .background part 0))).subs.map
      (fun x => (x.ctx, x.received.map Record.offset)) = [(.background, [1, 1])] := by
  decide +kernel

end Holocron.Subscribe

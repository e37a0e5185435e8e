import Holocron.Broker.Concurrent
import Holocron.Theorems.Broker.Publish

/-! Offsets stay dense under concurrency as long as no writer of an internal topic gets between the two steps of another
    append. -/

namespace Holocron.Concurrent
open Lib Log Storage Broker List Function

def logBytes (l : PartitionLog) : Bytes := l.segments.flatMap fun s => s.logFile.data ++ s.logBuf.getD []

structure Logged (l : PartitionLog) (rs : List Record) : Prop where
  bytes : logBytes l = frames rs
  appending : l.active.logFile.appending = true
  writable : l.active.logBuf.isSome
  highWater : l.highWater = rs.length
  numbered : Numbered rs

theorem logged_empty (maxBytes : Int) : ∃ l, PartitionLog.openPartition [] maxBytes = .ok l ∧ Logged l [] := by
  refine ⟨_, rfl, rfl, rfl, rfl, rfl, ?_⟩
  intro i r hr
  cases hr

theorem logBytes_eq (l : PartitionLog) :
    logBytes l = (l.sealed.flatMap fun s => s.logFile.data ++ s.logBuf.getD []) ++
      (l.active.logFile.data ++ l.active.logBuf.getD []) := by
  simp [logBytes, PartitionLog.segments]

variable {l : PartitionLog} {q p : PartitionRef} {r : Record} {s : State} {t : Thread} {rs : List Record}

theorem logBytes_rollLocked (happending : l.active.logFile.appending = true) (hwritable : l.active.logBuf.isSome) :
    logBytes l.rollLocked = logBytes l := by
  obtain ⟨buf, hbuf⟩ := Option.isSome_iff_exists.mp hwritable
  have hflush : (bufFlush l.active.logFile buf).data = l.active.logFile.data ++ buf := bufFlush_data (.inl happending)
  rw [logBytes_eq, logBytes_eq, hbuf, Option.getD_some, ← hflush]
  simp [PartitionLog.rollLocked, Segment.sealSegment, Segment.persistIndex, Segment.flushIfActive, hbuf, createSegment,
    createSegmentWithSuffix]

theorem Logged.append (h : Logged l rs) (hoff : r.offset = l.highWater) :
    ∃ l', l.append r = .ok (r.offset, l') ∧ Logged l' (rs ++ [r]) := by
  obtain ⟨buf, hbuf⟩ := Option.isSome_iff_exists.mp h.writable
  have hwrite := bufWrite_data (f := l.active.logFile) buf (encodeRecord r) (.inl h.appending)
  have hflags := bufWrite_flags l.active.logFile buf (encodeRecord r)
  obtain ⟨active, happ, hfile, hbuf', hhw⟩ : ∃ active, l.active.append r = .ok (r.offset, active) ∧
      active.logFile = (bufWrite l.active.logFile buf (encodeRecord r)).1 ∧
      active.logBuf = some (bufWrite l.active.logFile buf (encodeRecord r)).2 ∧ active.highWater = r.offset + 1 := by
    unfold Segment.append
    rw [hbuf]
    dsimp only
    split <;> exact ⟨_, rfl, rfl, rfl, rfl⟩
  have hoff' : r.offset = rs.length := hoff.trans h.highWater
  have hlogged : Logged { l with active := active } (rs ++ [r]) := by
    refine ⟨?_, ?_, ?_, ?_, h.numbered.concat hoff'⟩
    · rw [logBytes_eq, hfile, hbuf', Option.getD_some, hwrite, frames_append, ← h.bytes, logBytes_eq, hbuf]
      simp
    · rw [hfile, hflags.1]
      exact h.appending
    · rw [hbuf']
      rfl
    · rw [PartitionLog.highWater, hhw, hoff', length_append]
      rfl
  have hpart : l.append r = .ok (r.offset, if active.shouldRoll then PartitionLog.rollLocked { l with active := active }
      else { l with active := active }) := by
    simp only [PartitionLog.append, happ, bind, Except.bind]
  refine ⟨_, hpart, ?_⟩
  split
  · refine ⟨?_, rfl, rfl, ?_, hlogged.numbered⟩
    · rw [logBytes_rollLocked hlogged.appending hlogged.writable]
      exact hlogged.bytes
    · exact hlogged.highWater
  · exact hlogged

theorem openLog_error {f f' : FileStore} {e : StoreError} (h : f.openLog p = (.error e, f')) : f' = f := by
  unfold FileStore.openLog at h
  split at h
  · cases h
  · split at h
    · cases h
      rfl
    · cases h

theorem openLog_ok {f f' : FileStore} (h : f.openLog p = (.ok l, f')) :
    f'.logs = update f.logs p (some l) ∧ f'.disk = f.disk ∧
      (f.logs p = some l ∨ f.logs p = none ∧ PartitionLog.openPartition (f.disk p) f.segmentSize = .ok l) := by
  unfold FileStore.openLog at h
  split at h
  · rename_i l₀ hl
    cases h
    exact ⟨by rw [← hl, update_eq_self], rfl, .inl hl⟩
  · rename_i hl
    split at h
    · cases h
    · rename_i l₀ hopen
      cases h
      exact ⟨rfl, rfl, .inr ⟨hl, hopen⟩⟩

inductive Moved (s : State) (i : Nat) (s' : State) : Prop where
  | idle (store : s'.broker.store = s.broker.store) (threads : s'.threads = s.threads)
  | pass (t t' : Thread) (thread : s.threads[i]? = some t) (store : s'.broker.store = s.broker.store)
      (threads : s'.threads = s.threads.set i t') (quiet : t'.pending = none)
      (lock : ∀ p, t'.lock = some p → t.lock = some p ∨ ∀ u ∈ s.threads, u.lock ≠ some p)
  | opened (t t' : Thread) (q : PartitionRef) (l : PartitionLog) (r : Record) (thread : s.threads[i]? = some t)
      (reads : t.reads = some q) (openLog : s.broker.store.openLog q = (.ok l, s'.broker.store))
      (threads : s'.threads = s.threads.set i t') (pending : t'.pending = some (q, r)) (offset : r.offset = l.highWater)
      (lock : t'.lock = t.lock)
  | appended (t t' : Thread) (q : PartitionRef) (l l' : PartitionLog) (r : Record) (o : Int) (thread : s.threads[i]? = some t)
      (pending : t.pending = some (q, r)) (log : s.broker.store.logs q = some l) (append : l.append r = .ok (o, l'))
      (store : s'.broker.store = s.broker.store.setLog q l') (threads : s'.threads = s.threads.set i t')
      (quiet : t'.pending = none) (lock : ∀ p, t'.lock = some p → t.lock = some p)

theorem beginAppend_moved {s₀ : State} (hstore : s₀.broker.store = s.broker.store) (hthreads : s₀.threads = s.threads) {i : Nat}
    (ht : s.threads[i]? = some t) {now : Int64} {next : Record → Thread} {failed : Thread}
    (hreads : t.reads = some q) (hpending : ∀ x, (next x).pending = some (q, x)) (hlock : ∀ x, (next x).lock = t.lock)
    (hfailed : failed.pending = none) (hfailedLock : ∀ p, failed.lock = some p → t.lock = some p) :
    Moved s i (s₀.beginAppend i now q r next failed) := by
  unfold State.beginAppend
  split
  · rename_i e f hopen
    have hf := openLog_error hopen
    exact .pass t failed ht (hf.trans hstore) (congrArg (set · i failed) hthreads) hfailed fun p hp => .inl (hfailedLock p hp)
  · rename_i l f hopen
    rw [hstore] at hopen
    exact .opened t _ q l _ ht hreads hopen (congrArg (set · i _) hthreads) (hpending _) rfl (hlock _)

theorem finishAppend_some {s' : State} (h : s.finishAppend q r = some s') :
    ∃ l l' o, s.broker.store.logs q = some l ∧ l.append r = .ok (o, l') ∧ s'.broker.store = s.broker.store.setLog q l' ∧
      s'.threads = s.threads := by
  unfold State.finishAppend at h
  split at h
  · cases h
  · rename_i l hl
    split at h
    · cases h
    · rename_i o l' happ
      cases h
      exact ⟨l, l', o, hl, happ, rfl, rfl⟩

theorem State.afterAppend_moves (s : State) (i : Nat) (c : Call) (offset : Int) :
    ∃ t', (s.afterAppend i c offset).broker.store = s.broker.store ∧ (s.afterAppend i c offset).threads =
      s.threads.set i t' ∧ t'.pending = none ∧ t'.lock = some c.p := by
  unfold afterAppend
  split
  · exact ⟨.fanOut c.p, rfl, rfl, rfl, rfl⟩
  · dsimp only
    split
    · exact ⟨_, rfl, rfl, rfl, rfl⟩
    · exact ⟨.fanOut c.p, rfl, rfl, rfl, rfl⟩

theorem State.run_moved (s : State) (i : Nat) : Moved s i (s.run i) := by
  unfold run
  cases ht : s.threads[i]? with
  | none => exact .idle rfl rfl
  | some t =>
    cases t with
    | publish c =>
      dsimp only
      split
      · exact .pass _ .done ht rfl rfl rfl nofun
      · split
        · exact .idle rfl rfl
        · rename_i hfree
          refine .pass _ (.locked c) ht rfl rfl rfl fun p hp => .inr fun u hu hlock => hfree ?_
          cases hp
          exact any_eq_true.mpr ⟨u, hu, decide_eq_true hlock⟩
    | locked c =>
      dsimp only
      split
      · exact .pass _ .done ht (evictFor_same ..).1 rfl rfl nofun
      · refine beginAppend_moved ?_ ?_ ht ?_ ?_ ?_ ?_ ?_
        · exact (evictFor_same ..).1
        · rfl
        · rfl
        · exact fun _ => rfl
        · exact fun _ => rfl
        · rfl
        · exact nofun
    | append c r =>
      dsimp only
      split
      · exact .pass _ .done ht rfl rfl rfl nofun
      · rename_i s₁ hfinish
        obtain ⟨l, l', o, hl, happ, hstore, hthreads⟩ := finishAppend_some hfinish
        obtain ⟨t', hstore', hthreads', hquiet, hlock⟩ := s₁.afterAppend_moves i c r.offset
        refine .appended _ t' c.p l l' r o ht rfl hl happ (hstore'.trans hstore) ?_ hquiet fun p hp => hlock.symm.trans hp
        rw [hthreads', hthreads]
    | checkpoint p q now r => exact beginAppend_moved rfl rfl ht rfl (fun _ => rfl) (fun _ => rfl) rfl fun _ hp => hp
    | persist p q r =>
      dsimp only
      cases hfinish : s.finishAppend q r with
      | none => exact .pass _ (.fanOut p) ht rfl rfl rfl fun _ hp => .inl hp
      | some s₁ =>
        obtain ⟨l, l', o, hl, happ, hstore, hthreads⟩ := finishAppend_some hfinish
        exact .appended _ (.fanOut p) q l l' r o ht rfl hl happ hstore (congrArg (set · i _) hthreads) rfl fun _ hp => hp
    | fanOut p => exact .pass _ .done ht rfl rfl rfl nofun
    | offsets q now todo =>
      cases todo with
      | nil => exact .pass _ .done ht rfl rfl rfl nofun
      | cons r todo => exact beginAppend_moved rfl rfl ht rfl (fun _ => rfl) (fun _ => rfl) rfl nofun
    | commit q now r todo =>
      dsimp only
      split
      · exact .pass _ .done ht rfl rfl rfl nofun
      · rename_i s₁ hfinish
        obtain ⟨l, l', o, hl, happ, hstore, hthreads⟩ := finishAppend_some hfinish
        exact .appended _ (.offsets q now todo) q l l' r o ht rfl hl happ hstore (congrArg (set · i _) hthreads) rfl nofun
    | done => exact .idle rfl rfl

theorem pending_of_reads (h : t.reads = some q) : t.pending = none := by
  cases t with
  | locked c => rfl
  | checkpoint p q now r => rfl
  | offsets q now todo => rfl
  | _ => cases h

structure Inv (s : State) : Prop where
  logs : ∀ p l, s.broker.store.logs p = some l → ∃ rs, Logged l rs
  disk : ∀ p, s.broker.store.logs p = none → s.broker.store.disk p = []
  locks : ∀ (i j : Nat) (t u : Thread) (p : PartitionRef), s.threads[i]? = some t → s.threads[j]? = some u →
    t.lock = some p → u.lock = some p → i = j
  pending : ∀ t ∈ s.threads, ∀ q r, t.pending = some (q, r) → ∃ l, s.broker.store.logs q = some l ∧ r.offset = l.highWater
  single : ∀ (i j : Nat) (t u : Thread) (q : PartitionRef) (r r' : Record), s.threads[i]? = some t → s.threads[j]? = some u →
    t.pending = some (q, r) → u.pending = some (q, r') → i = j

/-- Where an append starts while another one on the partition is under way, both hold the partition's lock. -/
def Alone (s : State) : Action → Prop
  | .run i => ∀ t q, s.threads[i]? = some t → t.reads = some q → ∀ u ∈ s.threads, ∀ r, u.pending = some (q, r) →
      t.lock = some q ∧ u.lock = some q
  | _ => True

instance (s : State) : (a : Action) → Decidable (Alone s a)
  | .run i => decidable_of_iff (∀ t ∈ s.threads[i]?, ∀ q ∈ t.reads, ∀ u ∈ s.threads, ∀ x ∈ u.pending, x.1 = q →
      t.lock = some q ∧ u.lock = some q) (by
    constructor
    · intro h t q ht hq u hu r hr
      exact h t ht q hq u hu (q, r) hr rfl
    · rintro h t ht q hq u hu ⟨q', r⟩ hr rfl
      exact h t q' ht hq u hu r hr)
  | .publish _ | .commit .. | .deleteGroup .. => isTrue trivial

theorem Inv.spawn (h : Inv s) (hlock : t.lock = none) (hquiet : t.pending = none) :
    Inv { s with threads := s.threads ++ [t] } := by
  refine ⟨h.logs, h.disk, ?_, ?_, ?_⟩
  · intro i j x y p hx hy hxp hyp
    rcases of_getElem?_concat hx with hx' | ⟨-, rfl⟩
    · rcases of_getElem?_concat hy with hy' | ⟨-, rfl⟩
      · exact h.locks i j x y p hx' hy' hxp hyp
      · rw [hlock] at hyp
        cases hyp
    · rw [hlock] at hxp
      cases hxp
  · intro x hx q r hpending
    rcases mem_append.mp hx with hx | hx
    · exact h.pending x hx q r hpending
    · rw [mem_singleton.mp hx, hquiet] at hpending
      cases hpending
  · intro i j x y q r r' hx hy hxq hyq
    rcases of_getElem?_concat hx with hx' | ⟨-, rfl⟩
    · rcases of_getElem?_concat hy with hy' | ⟨-, rfl⟩
      · exact h.single i j x y q r r' hx' hy' hxq hyq
      · rw [hquiet] at hyq
        cases hyq
    · rw [hquiet] at hxq
      cases hxq

section
variable {s s' : State} {i : Nat} {t t' : Thread}

theorem Inv.locks_set (h : Inv s) (ht : s.threads[i]? = some t)
    (hlock : ∀ p, t'.lock = some p → t.lock = some p ∨ ∀ u ∈ s.threads, u.lock ≠ some p) (j k : Nat) (x y : Thread)
      (p : PartitionRef)
    (hx : (s.threads.set i t')[j]? = some x) (hy : (s.threads.set i t')[k]? = some y) (hxp : x.lock = some p)
    (hyp : y.lock = some p) : j = k := by
  -- a holder other than the one that moved
  have hother : ∀ m z, t'.lock = some p → s.threads[m]? = some z → z.lock = some p → m = i := by
    intro m z hp hz hzp
    rcases hlock p hp with hold | hfree
    · exact h.locks m i z t p hz ht hzp hold
    · exact absurd hzp (hfree z (mem_of_getElem? hz))
  rcases of_getElem?_set hx with ⟨rfl, rfl⟩ | ⟨-, hx'⟩
  · rcases of_getElem?_set hy with ⟨rfl, rfl⟩ | ⟨-, hy'⟩
    · rfl
    · exact (hother k y hxp hy' hyp).symm
  · rcases of_getElem?_set hy with ⟨rfl, rfl⟩ | ⟨-, hy'⟩
    · exact hother j x hyp hx' hxp
    · exact h.locks j k x y p hx' hy' hxp hyp

/-- A goroutine that is not in an append does not disturb those that are. -/
theorem Inv.single_quiet (h : Inv s) (hquiet : t'.pending = none) (j k : Nat) (x y : Thread) (q : PartitionRef) (r r' : Record)
    (hx : (s.threads.set i t')[j]? = some x) (hy : (s.threads.set i t')[k]? = some y) (hxq : x.pending = some (q, r))
    (hyq : y.pending = some (q, r')) : j = k := by
  rcases of_getElem?_set hx with ⟨-, rfl⟩ | ⟨-, hx'⟩
  · rw [hquiet] at hxq
    cases hxq
  · rcases of_getElem?_set hy with ⟨-, rfl⟩ | ⟨-, hy'⟩
    · rw [hquiet] at hyq
      cases hyq
    · exact h.single j k x y q r r' hx' hy' hxq hyq

section
variable (h : Inv s) (ht : s.threads[i]? = some t)
include h ht

theorem Inv.pass (hstore : s'.broker.store = s.broker.store)
    (hthreads : s'.threads = s.threads.set i t') (hquiet : t'.pending = none)
    (hlock : ∀ p, t'.lock = some p → t.lock = some p ∨ ∀ u ∈ s.threads, u.lock ≠ some p) : Inv s' := by
  refine ⟨hstore ▸ h.logs, hstore ▸ h.disk, hthreads ▸ h.locks_set ht hlock, ?_, hthreads ▸ h.single_quiet hquiet⟩
  rw [hstore, hthreads]
  intro x hx q r hpending
  rcases mem_or_eq_of_mem_set hx with hx | rfl
  · exact h.pending x hx q r hpending
  · rw [hquiet] at hpending
    cases hpending

theorem Inv.opened (hfree : ∀ u ∈ s.threads, ∀ r, u.pending ≠ some (q, r))
    (hopen : s.broker.store.openLog q = (.ok l, s'.broker.store)) (hthreads : s'.threads = s.threads.set i t')
    (hpending : t'.pending = some (q, r)) (hoff : r.offset = l.highWater) (hlock : t'.lock = t.lock) : Inv s' := by
  obtain ⟨hlogs, hdisk, hl⟩ := openLog_ok hopen
  have hlogged : ∃ rs, Logged l rs := by
    rcases hl with hl | ⟨hnone, hfresh⟩
    · exact h.logs q l hl
    · rw [h.disk q hnone] at hfresh
      obtain ⟨l₀, hopen₀, hlogged₀⟩ := logged_empty s.broker.store.segmentSize
      cases hfresh.symm.trans hopen₀
      exact ⟨[], hlogged₀⟩
  refine ⟨?_, ?_, hthreads ▸ h.locks_set ht fun p hp => .inl (hlock ▸ hp), ?_, ?_⟩
  · intro p l' hl'
    rw [hlogs] at hl'
    by_cases hp : p = q
    · rw [hp, update_self] at hl'
      cases hl'
      exact hlogged
    · rw [update_of_ne hp] at hl'
      exact h.logs p l' hl'
  · intro p hp
    rw [hlogs] at hp
    rw [hdisk]
    by_cases hpq : p = q
    · rw [hpq, update_self] at hp
      cases hp
    · rw [update_of_ne hpq] at hp
      exact h.disk p hp
  · rw [hthreads, hlogs]
    intro x hx q' r' hx'
    rcases mem_or_eq_of_mem_set hx with hmem | rfl
    · obtain ⟨l', hl', hoff'⟩ := h.pending x hmem q' r' hx'
      have hne : q' ≠ q := fun hq => hfree x hmem r' (hq ▸ hx')
      exact ⟨l', (update_of_ne hne ..).trans hl', hoff'⟩
    · cases hpending.symm.trans hx'
      exact ⟨l, update_self .., hoff⟩
  · rw [hthreads]
    intro j k x y q' r₁ r₂ hx hy hxq hyq
    rcases of_getElem?_set hx with ⟨rfl, rfl⟩ | ⟨-, hx'⟩
    · rcases of_getElem?_set hy with ⟨rfl, rfl⟩ | ⟨-, hy'⟩
      · rfl
      · cases hpending.symm.trans hxq
        exact absurd hyq (hfree y (mem_of_getElem? hy') r₂)
    · rcases of_getElem?_set hy with ⟨rfl, rfl⟩ | ⟨-, hy'⟩
      · cases hpending.symm.trans hyq
        exact absurd hxq (hfree x (mem_of_getElem? hx') r₁)
      · exact h.single j k x y q' r₁ r₂ hx' hy' hxq hyq

theorem Inv.appended (hpending : t.pending = some (q, r)) {l' : PartitionLog}
    {o : Int} (hl : s.broker.store.logs q = some l) (happ : l.append r = .ok (o, l'))
    (hstore : s'.broker.store = s.broker.store.setLog q l') (hthreads : s'.threads = s.threads.set i t')
      (hquiet : t'.pending = none)
    (hlock : ∀ p, t'.lock = some p → t.lock = some p) : Inv s' := by
  obtain ⟨l₀, hl₀, hoff⟩ := h.pending t (mem_of_getElem? ht) q r hpending
  cases hl.symm.trans hl₀
  obtain ⟨rs, hlogged⟩ := h.logs q l hl
  obtain ⟨l₁, happ₁, hlogged'⟩ := hlogged.append hoff
  cases happ.symm.trans happ₁
  have hlogs : s'.broker.store.logs = update s.broker.store.logs q (some l') := congrArg FileStore.logs hstore
  have hdisk : s'.broker.store.disk = s.broker.store.disk := by rw [hstore]; rfl
  refine ⟨?_, ?_, hthreads ▸ h.locks_set ht fun p hp => .inl (hlock p hp), ?_, hthreads ▸ h.single_quiet hquiet⟩
  · intro p x hx
    rw [hlogs] at hx
    by_cases hp : p = q
    · rw [hp, update_self] at hx
      cases hx
      exact ⟨_, hlogged'⟩
    · rw [update_of_ne hp] at hx
      exact h.logs p x hx
  · intro p hp
    rw [hlogs] at hp
    rw [hdisk]
    by_cases hpq : p = q
    · rw [hpq, update_self] at hp
      cases hp
    · rw [update_of_ne hpq] at hp
      exact h.disk p hp
  · rw [hlogs, hthreads]
    intro x hx q' r' hx'
    obtain ⟨j, hj⟩ := mem_iff_getElem?.mp hx
    rcases of_getElem?_set hj with ⟨-, rfl⟩ | ⟨hji, hj'⟩
    · rw [hquiet] at hx'
      cases hx'
    · obtain ⟨l₂, hl₂, hoff'⟩ := h.pending x (mem_of_getElem? hj') q' r' hx'
      have hne : q' ≠ q := fun hq => hji (h.single j i x t q r' r hj' ht (hq ▸ hx') hpending)
      exact ⟨l₂, (update_of_ne hne ..).trans hl₂, hoff'⟩

end

end

theorem Inv.step (h : Inv s) {a : Action} (halone : Alone s a) : Inv (s.step a) := by
  cases a with
  | publish c | commit now key offset | deleteGroup now keys => exact h.spawn rfl rfl
  | run i =>
    change Inv (s.run i)
    cases s.run_moved i with
    | idle hstore hthreads =>
      refine ⟨hstore ▸ h.logs, hstore ▸ h.disk, hthreads ▸ h.locks, ?_, hthreads ▸ h.single⟩
      rw [hstore, hthreads]
      exact h.pending
    | pass t t' ht hstore hthreads hquiet hlock => exact h.pass ht hstore hthreads hquiet hlock
    | opened t t' q l r ht hreads hopen hthreads hpending hoff hlock =>
      refine h.opened ht (fun u hu r' hu' => ?_) hopen hthreads hpending hoff hlock
      -- both would hold the lock, but the reader is in no append yet
      obtain ⟨htq, huq⟩ := halone t q ht hreads u hu r' hu'
      obtain ⟨j, hj⟩ := mem_iff_getElem?.mp hu
      cases h.locks i j t u q ht hj htq huq
      cases ht.symm.trans hj
      rw [pending_of_reads hreads] at hu'
      cases hu'
    | appended t t' q l l' r o ht hpending hl happ hstore hthreads hquiet hlock =>
      exact h.appended ht hpending hl happ hstore hthreads hquiet hlock

/-- Every log is whole frames, numbered from 0. -/
def Dense (s : State) : Prop := ∀ p l, s.broker.store.logs p = some l → ∃ rs, logBytes l = frames rs ∧ Numbered rs

theorem inv_start {b : Broker FileStore} {segmentSize : Int} (fresh : b.store = .new segmentSize fun _ => [])
    (offsetsTopic : Bytes) : Inv (.start b offsetsTopic) := by
  have hstore : (State.start b offsetsTopic).broker.store = .new segmentSize fun _ => [] := fresh
  refine ⟨?_, ?_, ?_, ?_, ?_⟩
  · intro p l hl
    rw [hstore] at hl
    cases hl
  · rw [hstore]
    exact fun _ _ => rfl
  · intro i j t u p ht
    cases ht
  · intro t ht
    cases ht
  · intro i j t u q r r' ht
    cases ht

/-- In every run in which appends without the lock stay alone, the offsets of every partition stay dense. -/
theorem offsets_dense {b : Broker FileStore} {segmentSize : Int} (fresh : b.store = .new segmentSize fun _ => [])
    (offsetsTopic : Bytes) (run : List Action) (alone : Along State.step (.start b offsetsTopic) run Alone) :
    Dense (run.foldl State.step (.start b offsetsTopic)) := by
  have hinv := alone.invariant (fun _ s => Inv s) (fun _ s a h halone => h.step halone) (inv_start fresh offsetsTopic)
  intro p l hl
  obtain ⟨rs, hlogged⟩ := hinv.logs p l hl
  exact ⟨rs, hlogged.bytes, hlogged.numbered⟩

def checkpointing : Broker FileStore := ⟨.new 0 fun _ => [], ⟨[⟨utf8 "t", 1, 0, 0⟩], none⟩, 0, utf8 "d", fun _ => .empty⟩

def idempotent : Record :=
  ⟨0, 0, none, some [1], [⟨headerProducerID, some [112]⟩, ⟨headerProducerSeq, some (bigEndian 8 3)⟩]⟩

def disk : Broker FileStore := ⟨.new 0 fun _ => [], ⟨[⟨utf8 "t", 1, 0, 0⟩], none⟩, 0, [], fun _ => .empty⟩

/-- A Publish that writes a checkpoint, a Commit and another Publish of the partition, all under way at once. -/
def overlapping : List Action :=
  [.publish ⟨⟨.background, 5, none⟩, ⟨utf8 "t", 0⟩, idempotent⟩, .commit 6 (utf8 "a") 1,
    .publish ⟨⟨.background, 7, none⟩, ⟨utf8 "t", 0⟩, ⟨0, 0, none, some [2], []⟩⟩,
    .run 0, .run 2, .run 1, .run 0, .run 0, .run 1, .run 0, .run 2, .run 0, .run 0, .run 2, .run 2, .run 2, .run 2, .run 1]

theorem offsets_dense_commit :
    Dense (overlapping.foldl State.step (.start checkpointing (utf8 "o"))) ∧
      ((overlapping.foldl State.step (.start checkpointing (utf8 "o"))).threads.all fun t => decide (t = .done)) = true :=
  ⟨offsets_dense (b := checkpointing) rfl (utf8 "o") overlapping (by decide +kernel), by decide +kernel⟩

/-- A record of a numbered log of less than 4 GiB fits its frame. -/
theorem fits_of_numbered (h : Numbered rs) (hlen : (frames rs).length < 2 ^ 32) : ∀ r ∈ rs, Fits r := by
  intro r hr
  obtain ⟨i, hi⟩ := mem_iff_getElem?.mp hr
  have hcount := length_le_frames rs
  have hindex := (List.getElem?_eq_some_iff.mp hi).1
  have hbody : (encodeRecord r).length ≤ (frames rs).length := (sublist_flatten_of_mem (mem_map_of_mem hr)).length_le
  rw [encodeRecord, length_append, length_append] at hbody
  refine ⟨?_, by omega⟩
  rw [h i r hi]
  constructor <;> omega

/-- Two commits read the high water of the offsets topic before either appends: both records get offset 0. -/
theorem commits_share_offset :
    ¬ Dense ([.commit 5 (utf8 "a") 1, .commit 5 (utf8 "b") 2, .run 0, .run 1, .run 0, .run 1].foldl State.step
      (.start disk (utf8 "o"))) := by
  intro h
  generalize hs : [Action.commit 5 (utf8 "a") 1, .commit 5 (utf8 "b") 2, .run 0, .run 1, .run 0, .run 1].foldl State.step
    (.start disk (utf8 "o")) = s at h
  have hbytes : (s.broker.store.logs ⟨utf8 "o", 0⟩).map logBytes =
      some (frames [stamp 5 0 (commitRecord (utf8 "a") 1), stamp 5 0 (commitRecord (utf8 "b") 2)]) := by
    rw [← hs]
    decide +kernel
  obtain ⟨l, hl, hbytes⟩ := Option.map_eq_some_iff.mp hbytes
  obtain ⟨rs, hrs, hnumbered⟩ := h _ l hl
  have hframes := hrs.symm.trans hbytes
  have hfits := fits_of_numbered hnumbered (by rw [hframes]; decide +kernel)
  have hfits' : ∀ r ∈ [stamp 5 0 (commitRecord (utf8 "a") 1), stamp 5 0 (commitRecord (utf8 "b") 2)], Fits r := by
    intro r hr
    rcases mem_pair.mp hr with rfl | rfl <;> exact ⟨by decide, by decide +kernel⟩
  have hoffsets := congrArg (map Record.offset) (Segment.frames_injective hfits hfits' hframes)
  obtain ⟨r, hr, hzero⟩ : ∃ r, rs[1]? = some r ∧ r.offset = 0 := by
    have hsecond := congrArg (·[1]?) hoffsets
    simpa [Record.norm, stamp] using hsecond
  have hone := hnumbered 1 r hr
  rw [hzero] at hone
  cases hone

end Holocron.Concurrent

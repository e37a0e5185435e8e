import Holocron.Streams.Table
import Holocron.Theorems.Streams.Changelog

/-! The invariant of a table: substores, and in changelog mode the changelog, have the value of every key that has no
    record left to apply. -/

namespace Holocron.Streams.KTable
open Lib Sdk Storage Log List Function

/-! ### Keys with nothing left to apply -/

variable {r x : Record} {q : Int32}

section
variable {link : Link} {rs : List Record} {entries entries' : Bytes → Option Bytes} {i j : Int}

def Done (j : Int) (rs : List Record) (k : Bytes) : Prop := ∀ r ∈ rs, j ≤ r.offset → Slice.bytes r.key ≠ k

def Upto (link : Link) (j : Int) (rs : List Record) (entries : Bytes → Option Bytes) : Prop :=
  ∀ k, k ≠ [] → Done j rs k → entries k = link.reads (lastValue k rs)

theorem Upto.mono (h : Upto link j rs entries) (hle : i ≤ j) : Upto link i rs entries :=
  fun k hk hdone => h k hk fun r hr hj => hdone r hr (Int.le_trans hle hj)

theorem Upto.concat (h : Upto link j rs entries) (hj : j ≤ x.offset) : Upto link j (rs ++ [x]) entries := by
  intro k hk hdone
  rw [lastValue_concat, if_neg (hdone x mem_concat_self hj)]
  exact h k hk fun r hr => hdone r (mem_append_left _ hr)

theorem lastValue_of_none {k : Bytes} (h : ∀ r ∈ rs, r.key.bytes ≠ k) : lastValue k rs = none := by
  have hnil : rs.filter (fun r => decide (Slice.bytes r.key = k)) = [] :=
    filter_eq_nil_iff.mpr fun r hr hkey => h r hr (of_decide_eq_true hkey)
  rw [lastValue, latest, hnil]
  rfl

theorem upto_empty (nonneg : ∀ r ∈ rs, 0 ≤ r.offset) : Upto link 0 rs fun _ => none := by
  intro k _ hdone
  rw [lastValue_of_none fun r hr => hdone r hr (nonneg r hr)]
  exact link.reads_none.symm

theorem lastValue_of_last (asc : rs.Pairwise fun a b => a.offset < b.offset) (hr : r ∈ rs)
    (hdone : Done (r.offset + 1) rs r.key.bytes) : lastValue r.key.bytes rs = r.value := by
  obtain ⟨before, later, rfl⟩ := append_of_mem hr
  have hlater : latest r.key.bytes later = none := by
    rw [latest, getLast?_eq_none_iff, filter_eq_nil_iff]
    intro x hx hkey
    have hoff := rel_of_pairwise_cons (pairwise_append.mp asc).2.1 hx
    exact hdone x (mem_append_right _ (mem_cons_of_mem _ hx)) hoff (of_decide_eq_true hkey)
  rw [append_cons, lastValue, latest_append, hlater, latest_concat, if_pos rfl]
  rfl

/-- What it takes to apply the next record. -/
theorem Upto.apply (h : Upto link j rs entries) (asc : rs.Pairwise fun a b => a.offset < b.offset)
    (alone : between j (r.offset + 1) rs = [r])
    (hentries : ∀ k, k ≠ [] → entries' k = if r.key.bytes = k then link.reads r.value else entries k) :
    Upto link (r.offset + 1) rs entries' := by
  intro k hk hdone
  rw [hentries k hk]
  by_cases hkey : r.key.bytes = k
  · subst hkey
    have hr : r ∈ rs := (mem_between.mp (alone ▸ mem_singleton_self r)).1
    rw [if_pos rfl, lastValue_of_last asc hr hdone]
  · rw [if_neg hkey]
    refine h k hk fun x hx hj => ?_
    rcases Int.lt_or_le x.offset (r.offset + 1) with hlt | hle
    · have hxr : x ∈ between j (r.offset + 1) rs := mem_between.mpr ⟨hx, hj, hlt⟩
      rw [alone, mem_singleton] at hxr
      rwa [hxr]
    · exact hdone x hx hle

end

/-! ### Records on their way -/

theorem deliver_sized (t : KTable) (h : Sized r) :
    ∃ x, t.deliver r = some x ∧ x.offset = r.offset ∧ x.key.bytes = r.key.bytes ∧ x.value = t.link.reads r.value := by
  obtain ⟨r', hcarry, hkey, hvalue, -⟩ := t.link.carry_sized h
  exact ⟨{ r' with offset := r.offset }, by rw [deliver, hcarry]; rfl, rfl, hkey, hvalue⟩

def ofPartition (p : Int32) (xs : List (Int32 × Record)) : List Record :=
  xs.filterMap fun x => if x.1 = p then some x.2 else none

theorem ofPartition_append (p : Int32) (xs ys : List (Int32 × Record)) :
    ofPartition p (xs ++ ys) = ofPartition p xs ++ ofPartition p ys :=
  filterMap_append

theorem ofPartition_cons_self (p : Int32) (r : Record) (xs : List (Int32 × Record)) :
    ofPartition p ((p, r) :: xs) = r :: ofPartition p xs := by
  rw [ofPartition, filterMap_cons, if_pos rfl]
  rfl

theorem ofPartition_cons_other {p : Int32} (h : q ≠ p) (r : Record) (xs : List (Int32 × Record)) :
    ofPartition p ((q, r) :: xs) = ofPartition p xs := by
  rw [ofPartition, filterMap_cons, if_neg h]
  rfl

namespace Run

def todo (run : Run) : List (Int32 × Record) :=
  match run.stage with
  | .applying todo => todo
  | _ => []

def due (run : Run) : Option (Int32 × Int) :=
  match run.stage with
  | .committing todo => todo.head?
  | _ => none

def pending (run : Run) (p : Int32) : List Record := ofPartition p (run.todo ++ run.queue)

def entries (run : Run) (p : Int32) : Bytes → Option Bytes := ((run.parts p).getD (.memory fun _ => none)).entries

structure Same (run run' : Run) : Prop where
  next : run'.next = run.next
  position : run'.position = run.position
  parts : run'.parts = run.parts
  records : run'.todo ++ run'.queue = run.todo ++ run.queue

theorem todo_commits (run : Run) (offsets : List (Int32 × Int)) : { run with stage := commits offsets }.todo = [] :=
  by cases offsets <;> rfl

variable {run : Run}

theorem poll_same (n : Nat) : run.Same (run.poll n) := by
  unfold poll
  split
  · rename_i x rest hstage htake
    refine ⟨rfl, rfl, rfl, ?_⟩
    rw [show run.todo = [] by rw [todo, hstage]]
    change x :: rest ++ _ = _
    rw [← htake, take_append_drop]
    rfl
  · exact ⟨rfl, rfl, rfl, rfl⟩

theorem pollFails_same : run.Same run.pollFails := by
  unfold pollFails
  split
  · rename_i hstage
    exact ⟨rfl, rfl, rfl, by rw [show run.todo = [] by rw [todo, hstage]]; rfl⟩
  · exact ⟨rfl, rfl, rfl, rfl⟩

theorem latestOffsets_same (order : List Int32) : run.Same (run.latestOffsets order) := by
  unfold latestOffsets
  split
  · rename_i hstage
    exact ⟨rfl, rfl, rfl, by rw [todo_commits, show run.todo = [] by rw [todo, hstage]]⟩
  · exact ⟨rfl, rfl, rfl, rfl⟩

theorem commit_same (committed : Int32 → Option Int) (result : Committed) : run.Same (run.commit committed result).1 := by
  unfold commit
  split
  · rename_i hstage
    have htodo : run.todo = [] := by rw [todo, hstage]
    cases result with
    | done => exact ⟨rfl, rfl, rfl, by rw [todo_commits, htodo]⟩
    | lost | failed => exact ⟨rfl, rfl, rfl, by rw [htodo]; rfl⟩
  · exact ⟨rfl, rfl, rfl, rfl⟩

end Run

/-! ### The invariant -/

def restored (link : Link) (cl : List Record) : Bytes → Option Bytes := fun k => link.reads (lastValue k cl)

def written (r : Record) : Record := ⟨0, 0, some (Slice.bytes r.key), r.value, []⟩

/-- A record with the value of a stored one keeps it when it is stored. -/
class Holding (σ : Type) [Store σ] [Served σ] where
  view_held {s : σ} {p : PartitionRef} {rs : List Record} {next : Int} {x r : Record} :
    Served.Rep s p rs next → x ∈ rs → r.value = x.value → (Served.view (σ := σ) r).value = x.value

instance : Holding MemoryStore where
  view_held _ _ h := h

instance : Holding FileStore where
  view_held {s p rs next x r} rep hx h := by
    obtain ⟨l, -, -, hl, -⟩ := FileStore.Opens.opened rep
    obtain ⟨cs, c, -, rfl⟩ := hl.chunks
    obtain ⟨y, -, rfl⟩ := mem_map.mp hx
    change Slice.norm r.value = _
    rw [h]
    exact Slice.norm_norm y.value

section
variable {σ : Type} [Store σ] [Served σ] {t : KTable} {s s' : State σ} {run run' : Run} {p : Int32}
    {rs cl : List Record} {next : Int} {now : Int64}

structure Running (t : KTable) (run : Run) (p : Int32) (rs : List Record) (next : Int) : Prop where
  ahead : run.position p ≤ run.next p
  within : run.next p ≤ next
  pending : run.pending p = (between (run.position p) (run.next p) rs).filterMap t.deliver
  upto : Upto t.link (run.position p) rs (run.entries p)

structure Backing (t : KTable) (s : State σ) (p : Int32) (rs cl : List Record) : Prop where
  sized : ∀ r ∈ cl, Sized r
  upto : Upto t.link (s.offset p) rs (restored t.link cl)
  opened : ∀ run, s.run = some run → s.offset p ≤ run.position p ∧
    ∃ c, run.parts p = some (.changelog c) ∧ c.pref = t.changelogRef p ∧ c.entries = restored t.link cl

structure Part (t : KTable) (s : State σ) (p : Int32) (rs : List Record) (next : Int) : Prop where
  rep : Served.Rep s.store (t.sourceRef p) rs next
  sized : ∀ r ∈ rs, Sized r
  committed : s.offset p ≤ next
  running : ∀ run, s.run = some run → Running t run p rs next
  backed : t.useChangelog = true → ∃ cl end_, Served.Rep s.store (t.changelogRef p) cl end_ ∧ Backing t s p rs cl

structure Inv (t : KTable) (s : State σ) : Prop where
  parts : ∀ p, t.Has p → ∃ rs next, Part t s p rs next
  pending : ∀ run, s.run = some run → ∀ x ∈ run.todo ++ run.queue, t.Has x.1
  outside : ∀ run, s.run = some run → ∀ p, ¬ t.Has p → run.parts p = none
  plain : t.useChangelog = false → ∀ run, s.run = some run → ∀ p c, run.parts p ≠ some (.changelog c)

/-- The changelog has a name of its own. -/
def Named (t : KTable) : Prop := t.useChangelog = true → t.storeName ≠ [] ∧ t.source ≠ t.storeName ++ utf8 "-changelog"

structure SameAt (run run' : Run) (p : Int32) : Prop where
  next : run'.next p = run.next p
  position : run'.position p = run.position p
  parts : run'.parts p = run.parts p
  pending : run'.pending p = run.pending p

theorem Run.Same.at (h : run.Same run') (p : Int32) : SameAt run run' p :=
  ⟨by rw [h.next], by rw [h.position], by rw [h.parts], by rw [Run.pending, Run.pending, h.records]⟩

/-- What does not touch a partition keeps what is known of it. -/
theorem Part.transfer (h : Part t s p rs next)
    (keeps : ∀ q rs next, q = t.sourceRef p ∨ t.useChangelog = true ∧ q = t.changelogRef p →
      Served.Rep s.store q rs next → Served.Rep s'.store q rs next)
    (offset : s'.offset p = s.offset p)
      (runs : ∀ run', s'.run = some run' → ∃ run, s.run = some run ∧ SameAt run run' p) : Part t s' p rs next := by
  refine ⟨keeps _ _ _ (.inl rfl) h.rep, h.sized, offset ▸ h.committed, fun run' hrun' => ?_, fun hcl => ?_⟩
  · obtain ⟨run, hrun, same⟩ := runs run' hrun'
    obtain ⟨ahead, within, pending, upto⟩ := h.running run hrun
    have hentries : run'.entries p = run.entries p := by rw [Run.entries, Run.entries, same.parts]
    refine ⟨?_, ?_, ?_, ?_⟩
    · rwa [same.position, same.next]
    · rwa [same.next]
    · rwa [same.pending, same.position, same.next]
    · rwa [same.position, hentries]
  · obtain ⟨cl, end_, hrep, backing⟩ := h.backed hcl
    refine ⟨cl, end_, keeps _ _ _ (.inr ⟨hcl, rfl⟩) hrep, backing.sized, offset ▸ backing.upto, fun run' hrun' => ?_⟩
    obtain ⟨run, hrun, same⟩ := runs run' hrun'
    rw [offset, same.position, same.parts]
    exact backing.opened run hrun

/-! ### What one step keeps -/

def Takes (link : Link) (s : σ) (now : Int64) (p : PartitionRef) (r : Record) : Prop :=
  Sized r ∧ ∀ r', link.carry r = some r' → Served.Fits s now p r'

/-- A topology with stores in memory starts when nothing is committed; one with changelog stores replays all of every
    partition, record by record as over the network: that `Subscribe` in process sends those behind a gap again is left
    out. -/
def Restores (t : KTable) (s : State σ) (feeds : Int32 → Feed) : Prop :=
  if t.useChangelog = true then
    ∀ p, t.Has p → ∃ batches cl, (∀ b ∈ batches, b ≠ []) ∧ feeds p = feedOf batches ∧
      contents s.store (t.changelogRef p) = .ok cl ∧ batches.flatten = cl.filterMap t.link.carry
  else ∀ p, t.Has p → s.committed p = none

/-- Starts restore what there was, Puts and Deletes reach the changelog, and no offset is committed beyond what the loop has
    applied. -/
def Sound (t : KTable) (s : State σ) : Action → Prop
  | .produce now p r => Takes t.link s.store now (t.sourceRef p) r
  | .start feeds => Restores t s feeds
  | .apply now reached => t.useChangelog = true → ∀ run ∈ s.run, ∀ x ∈ run.todo.head?, Slice.bytes x.2.key ≠ [] →
    reached = true ∧ Takes t.link s.store now (t.changelogRef x.1) (written x.2)
  | .commit _ => ∀ run ∈ s.run, ∀ x ∈ run.due, x.2 ≤ run.position x.1
  | _ => True

/-- Steps that move no record, and leave the broker as it is. -/
theorem Inv.of_same (h : Inv t s) {run' : Option Run} (runs : ∀ r', run' = some r' → ∃ run, s.run = some run ∧ run.Same r') :
    Inv t { s with run := run' } := by
  refine ⟨fun p hp => ?_, fun r' hr' => ?_, fun r' hr' => ?_, fun hplain r' hr' => ?_⟩
  · obtain ⟨rs, next, hpart⟩ := h.parts p hp
    refine ⟨rs, next, hpart.transfer (fun _ _ _ _ rep => rep) rfl fun r' hr' => ?_⟩
    obtain ⟨run, hrun, same⟩ := runs r' hr'
    exact ⟨run, hrun, same.at p⟩
  · obtain ⟨run, hrun, same⟩ := runs r' hr'
    rw [same.records]
    exact h.pending run hrun
  · obtain ⟨run, hrun, same⟩ := runs r' hr'
    rw [same.parts]
    exact h.outside run hrun
  · obtain ⟨run, hrun, same⟩ := runs r' hr'
    rw [same.parts]
    exact h.plain hplain run hrun

theorem Inv.map (h : Inv t s) {f : Run → Run} (same : ∀ run : Run, run.Same (f run)) : Inv t { s with run := s.run.map f } := by
  refine h.of_same fun r' hr' => ?_
  obtain ⟨run, hrun, rfl⟩ := Option.map_eq_some_iff.mp hr'
  exact ⟨run, hrun, same run⟩

theorem Inv.stop (h : Inv t s) : Inv t { s with run := s.run.bind Run.stop } := by
  refine h.of_same fun r' hr' => ?_
  obtain ⟨run, hrun, hstop⟩ := Option.bind_eq_some_iff.mp hr'
  refine ⟨run, hrun, ?_⟩
  unfold Run.stop at hstop
  split at hstop
  · cases hstop
  · cases hstop
  · cases hstop
    exact ⟨rfl, rfl, rfl, rfl⟩

theorem sourceRef_ne (h : q ≠ p) : t.sourceRef q ≠ t.sourceRef p := fun heq => h (PartitionRef.mk.inj heq).2

theorem changelogRef_ne (h : q ≠ p) : t.changelogRef q ≠ t.changelogRef p := fun heq => h (PartitionRef.mk.inj heq).2

theorem Named.apart (h : t.Named) (hcl : t.useChangelog = true) (p q : Int32) : t.sourceRef p ≠ t.changelogRef q :=
  fun heq => (h hcl).2 (PartitionRef.mk.inj heq).1

theorem Inv.produce (h : Inv t s) (named : t.Named) (hp : t.Has p)
    (takes : Takes t.link s.store now (t.sourceRef p) r) :
      Inv t { s with store := (t.link.publish s.store now (t.sourceRef p) r).2 } := by
  refine ⟨fun q hq => ?_, h.pending, h.outside, h.plain⟩
  obtain ⟨rs, next, hpart⟩ := h.parts q hq
  by_cases hqp : q = p
  · subst hqp
    obtain ⟨x, -, hrep, hoffset, -, hsized, -⟩ := Link.publish_rep hpart.rep takes.1 takes.2
    refine ⟨rs ++ [x], next + 1, hrep, fun a ha => ?_, Int.le_trans hpart.committed (Int.le_of_lt (Int.lt_succ next)),
      fun run hrun => ?_, fun hcl => ?_⟩
    · rcases mem_append.mp ha with ha | ha
      · exact hpart.sized a ha
      · rw [mem_singleton.mp ha]
        exact hsized
    · obtain ⟨ahead, within, pending, upto⟩ := hpart.running run hrun
      have hnext : run.next q ≤ x.offset := hoffset ▸ within
      refine ⟨ahead, Int.le_trans within (Int.le_of_lt (Int.lt_succ next)), ?_, upto.concat (Int.le_trans ahead hnext)⟩
      rw [between_concat_other rs fun _ => hnext]
      exact pending
    · obtain ⟨cl, end_, hclrep, backing⟩ := hpart.backed hcl
      refine ⟨cl, end_, Link.publish_other hclrep (named.apart hcl q q) now r, backing.sized, backing.upto.concat ?_,
        backing.opened⟩
      rw [hoffset]
      exact hpart.committed
  · refine ⟨rs, next, hpart.transfer (fun ref rs next href rep => ?_) rfl fun run hrun => ⟨run, hrun, rfl, rfl, rfl, rfl⟩⟩
    rcases href with rfl | ⟨hcl, rfl⟩
    · exact Link.publish_other rep (sourceRef_ne (Ne.symm hqp)) now r
    · exact Link.publish_other rep (named.apart hcl p q) now r

/-- Reading changes nothing for a reader. -/
theorem read_keeps {st : σ} {ref : PartitionRef} (rep : Served.Rep st ref rs next) (q : PartitionRef) (n m : Int) :
    Served.Rep (Store.read st .background q n m).2 ref rs next := by
  by_cases hq : q = ref
  · subst hq
    rcases Int.lt_or_le n 0 with hn | hn
    · obtain ⟨e, he⟩ := Served.read_negative st q hn m
      rw [he]
      exact rep
    · obtain ⟨st', hread, rep'⟩ := Served.read rep hn m
      rw [hread]
      exact rep'
  · exact Served.read_other rep hq .background n m

theorem Run.receive_spec (run : Run) {st : σ} (rep : Served.Rep st (t.sourceRef p) rs next) :
    (run.receive t st p).2 = (Store.read st .background (t.sourceRef p) (run.next p) 1).2 ∧
    ((run.receive t st p).1 = run ∨
      ∃ r x, run.next p ≤ r.offset ∧ r.offset < next ∧ between (run.next p) (r.offset + 1) rs = [r] ∧ t.deliver r = some x ∧
        (run.receive t st p).1 = { run with
          next := update run.next p (r.offset + 1)
          latest := update run.latest p (some r.offset)
          queue := run.queue ++ [(p, x)] }) := by
  unfold receive
  rcases Int.lt_or_le (run.next p) 0 with hn | hn
  · obtain ⟨e, he⟩ := Served.read_negative st (t.sourceRef p) hn 1
    rw [he]
    exact ⟨rfl, .inl rfl⟩
  · obtain ⟨st', hread, -⟩ := Served.read rep hn 1
    rw [hread]
    cases hsince : since (run.next p) rs with
    | nil => exact ⟨rfl, .inl rfl⟩
    | cons r rest =>
      have hbelow : ∀ a ∈ rs, a.offset < next := fun a ha => ((Served.within rep).2 a ha).2
      obtain ⟨hlow, hhigh, halone, -⟩ := between_cons (Served.ascending rep) ((between_eq_since hbelow).trans hsince)
      dsimp only [take_succ_cons, Int.toNat_one]
      cases hdeliver : t.deliver r with
      | none => exact ⟨rfl, .inl rfl⟩
      | some x => exact ⟨rfl, .inr ⟨r, x, hlow, hhigh, halone, hdeliver, rfl⟩⟩

/-- A step that concerns one partition only. -/
theorem Inv.of_part (h : Inv t s) (hrun : s.run = some run) (hrun' : s'.run = some run') (hp : t.Has p)
    (part : ∃ rs next, Part t s' p rs next)
    (keeps : ∀ q, q ≠ p → ∀ ref rs next, ref = t.sourceRef q ∨ t.useChangelog = true ∧ ref = t.changelogRef q →
      Served.Rep s.store ref rs next → Served.Rep s'.store ref rs next)
    (offset : ∀ q, q ≠ p → s'.offset q = s.offset q) (same : ∀ q, q ≠ p → SameAt run run' q)
    (pending : ∀ x ∈ run'.todo ++ run'.queue, t.Has x.1)
      (plain : t.useChangelog = false → ∀ c, run'.parts p ≠ some (.changelog c)) : Inv t s' := by
  have hrun'' : ∀ r', s'.run = some r' → r' = run' := fun r' hr' => Option.some.inj (hr'.symm.trans hrun')
  refine ⟨fun q hq => ?_, fun r' hr' => hrun'' r' hr' ▸ pending, fun r' hr' q hq => ?_, fun hplain r' hr' q c => ?_⟩
  · by_cases hqp : q = p
    · exact hqp ▸ part
    · obtain ⟨rs, next, hpart⟩ := h.parts q hq
      exact ⟨rs, next, hpart.transfer (keeps q hqp) (offset q hqp) fun r' hr' => ⟨run, hrun, hrun'' r' hr' ▸ same q hqp⟩⟩
  · have hqp : q ≠ p := fun heq => hq (heq ▸ hp)
    rw [hrun'' r' hr', (same q hqp).parts]
    exact h.outside run hrun q hq
  · rw [hrun'' r' hr']
    by_cases hqp : q = p
    · exact hqp ▸ plain hplain c
    · rw [(same q hqp).parts]
      exact h.plain hplain run hrun q c

theorem Inv.receive (h : Inv t s) (hrun : s.run = some run) (hp : t.Has p) :
    Inv t { s with store := (run.receive t s.store p).2, run := some (run.receive t s.store p).1 } := by
  obtain ⟨rs, next, hpart⟩ := h.parts p hp
  obtain ⟨hstore, hreceive⟩ := run.receive_spec hpart.rep
  have keeps : ∀ ref rs next, Served.Rep s.store ref rs next → Served.Rep (run.receive t s.store p).2 ref rs next := by
    intro ref rs next rep
    rw [hstore]
    exact read_keeps rep _ _ _
  rcases hreceive with hsame | ⟨r, x, hlow, hhigh, halone, hdeliver, hnew⟩
  · rw [hsame]
    refine h.of_part hrun rfl hp ⟨rs, next, hpart.transfer (fun ref rs next _ => keeps ref rs next) rfl fun r' hr' => ?_⟩
      (fun _ _ ref rs next _ => keeps ref rs next) (fun _ _ => rfl) (fun _ _ => ⟨rfl, rfl, rfl, rfl⟩)
        (h.pending run hrun) fun hplain => h.plain hplain run hrun p
    cases hr'
    exact ⟨run, hrun, rfl, rfl, rfl, rfl⟩
  · rw [hnew]
    obtain ⟨ahead, within, pending, upto⟩ := hpart.running run hrun
    have hnext : run.next p ≤ r.offset + 1 := Int.le_trans hlow (Int.le_of_lt (Int.lt_succ _))
    refine h.of_part hrun rfl hp ⟨rs, next, keeps _ _ _ hpart.rep, hpart.sized, hpart.committed, fun r' hr' => ?_,
      fun hcl => ?_⟩
      (fun _ _ ref rs next _ => keeps ref rs next) (fun _ _ => rfl) (fun q hq => ⟨update_of_ne hq _ _, rfl, rfl, ?_⟩)
        (fun y hy => ?_)
      fun hplain => h.plain hplain run hrun p
    · cases hr'
      refine ⟨?_, ?_, ?_, upto⟩
      · change _ ≤ update run.next p (r.offset + 1) p
        rw [update_self]
        exact Int.le_trans ahead hnext
      · change update run.next p (r.offset + 1) p ≤ _
        rw [update_self]
        exact hhigh
      · change ofPartition p (run.todo ++ (run.queue ++ [(p, x)])) =
          filterMap _ (between _ (update run.next p (r.offset + 1) p) rs)
        rw [update_self, between_append (Served.ascending hpart.rep) ahead hnext, halone, filterMap_append, ← pending,
          ← append_assoc, ofPartition_append, ofPartition_cons_self, filterMap_cons, hdeliver]
        rfl
    · obtain ⟨cl, end_, hclrep, backing⟩ := hpart.backed hcl
      refine ⟨cl, end_, keeps _ _ _ hclrep, backing.sized, backing.upto, fun r' hr' => ?_⟩
      cases hr'
      exact backing.opened run hrun
    · change ofPartition q (run.todo ++ (run.queue ++ [(p, x)])) = ofPartition q (run.todo ++ run.queue)
      rw [← append_assoc, ofPartition_append, ofPartition_cons_other (Ne.symm hq)]
      exact append_nil _
    · rw [← append_assoc] at hy
      rcases mem_append.mp hy with hy | hy
      · exact h.pending run hrun y hy
      · rw [mem_singleton.mp hy]
        exact hp

theorem Run.commit_stored (committed : Int32 → Option Int) (result : Committed) : (run.commit committed result).2 = committed ∨
    ∃ p offset, run.due = some (p, offset) ∧ (run.commit committed result).2 = update committed p (some offset) := by
  unfold commit
  split
  · rename_i p offset todo hstage
    have hdue : run.due = some (p, offset) := by rw [due, hstage]; rfl
    cases result with
    | done | lost => exact .inr ⟨p, offset, hdue, rfl⟩
    | failed => exact .inl rfl
  · exact .inl rfl

theorem Part.commit (h : Part t s p rs next) (hrun : s.run = some run) {offset : Int} (reached : offset ≤ run.position p) :
    Part t { s with committed := update s.committed p (some offset) } p rs next := by
  have hoffset : State.offset { s with committed := update s.committed p (some offset) } p = offset := by
    change (update s.committed p (some offset) p).getD 0 = offset
    rw [update_self, Option.getD_some]
  obtain ⟨ahead, within, pending, upto⟩ := h.running run hrun
  refine ⟨h.rep, h.sized, ?_, h.running, fun hcl => ?_⟩
  · rw [hoffset]
    exact Int.le_trans reached (Int.le_trans ahead within)
  · obtain ⟨cl, end_, hclrep, backing⟩ := h.backed hcl
    obtain ⟨-, c, hparts, hpref, hentries⟩ := backing.opened run hrun
    have hrestored : run.entries p = restored t.link cl := by
      rw [Run.entries, hparts]
      exact hentries
    refine ⟨cl, end_, hclrep, backing.sized, ?_, fun r' hr' => ?_⟩
    · rw [hoffset, ← hrestored]
      exact upto.mono reached
    · cases hrun.symm.trans hr'
      rw [hoffset]
      exact ⟨reached, c, hparts, hpref, hentries⟩

theorem Inv.commit (h : Inv t s) (hrun : s.run = some run) {result : Committed}
    (reached : ∀ x ∈ run.due, x.2 ≤ run.position x.1) :
    Inv t { s with committed := (run.commit s.committed result).2, run := some (run.commit s.committed result).1 } := by
  have hsame := run.commit_same s.committed result
  have hinv : Inv t { s with run := some (run.commit s.committed result).1 } := by
    refine h.of_same fun r' hr' => ?_
    cases hr'
    exact ⟨run, hrun, hsame⟩
  rcases run.commit_stored s.committed result with hstored | ⟨p, offset, hdue, hstored⟩
  · rw [hstored]
    exact hinv
  · rw [hstored]
    refine ⟨fun q hq => ?_, hinv.pending, hinv.outside, hinv.plain⟩
    obtain ⟨rs, next, hpart⟩ := hinv.parts q hq
    by_cases hqp : q = p
    · subst hqp
      exact ⟨rs, next, hpart.commit rfl (by rw [hsame.position]; exact reached (q, offset) hdue)⟩
    · refine ⟨rs, next, hpart.transfer (fun _ _ _ _ rep => rep) ?_ fun r' hr' => ⟨r', hr', rfl, rfl, rfl, rfl⟩⟩
      change (update s.committed p (some offset) q).getD 0 = (s.committed q).getD 0
      rw [update_of_ne hqp]

/-! ### Starting -/

theorem openSubstore_whole (hname : t.storeName ≠ []) (hp : t.Has p) {batches : List (List Record)}
    (nonempty : ∀ b ∈ batches, b ≠ []) (whole : batches.flatten = cl.filterMap t.link.carry) (sized : ∀ r ∈ cl, Sized r) :
    ∃ c, t.openSubstore (feedOf batches) p = .changelog c ∧ c.pref = t.changelogRef p ∧ c.entries = restored t.link cl := by
  refine ⟨_, by rw [openSubstore, open_batches nonempty hname (Int.not_lt.mpr hp.1)], ?_, funext fun k => ?_⟩
  · rw [Int32.ofInt_toInt]
    rfl
  · change after some k batches.flatten none = _
    rw [whole, after_filterMap_carry t.link k sized]
    rfl

theorem Inv.start (h : Inv t s) (named : t.Named) {feeds : Int32 → Feed} (restores : Restores t s feeds) :
    Inv t { s with run := some (s.start t feeds) } := by
  refine ⟨fun p hp => ?_, fun r' hr' => ?_, fun r' hr' p hp => ?_, fun hplain r' hr' p c => ?_⟩
  · obtain ⟨rs, next, hpart⟩ := h.parts p hp
    have hwithin := Served.within hpart.rep
    unfold Restores at restores
    cases hcl : t.useChangelog with
    | true =>
      rw [if_pos hcl] at restores
      obtain ⟨cl, end_, hclrep, backing⟩ := hpart.backed hcl
      obtain ⟨batches, cl', nonempty, hfeed, hcontents, whole⟩ := restores p hp
      rw [Served.contents_eq hclrep] at hcontents
      cases hcontents
      obtain ⟨c, hopen, hpref, hentries⟩ := openSubstore_whole (named hcl).1 hp nonempty whole backing.sized
      have hparts : t.openStore feeds p = some (.changelog c) := by rw [openStore, if_pos ⟨hcl, hp⟩, hfeed, hopen]
      have hrestored : (s.start t feeds).entries p = restored t.link cl := by
        rw [Run.entries, show (s.start t feeds).parts p = _ from hparts]
        exact hentries
      refine ⟨rs, next, hpart.rep, hpart.sized, hpart.committed, fun r' hr' => ?_,
        fun _ => ⟨cl, end_, hclrep, backing.sized, backing.upto, fun r' hr' => ?_⟩⟩
      · cases hr'
        refine ⟨Int.le_refl _, hpart.committed, ?_, ?_⟩
        · rw [show (s.start t feeds).next p = (s.start t feeds).position p from rfl, between_self]
          rfl
        · rw [hrestored]
          exact backing.upto
      · cases hr'
        exact ⟨Int.le_refl _, c, hparts, hpref, hentries⟩
    | false =>
      rw [if_neg (by rw [hcl]; exact Bool.false_ne_true)] at restores
      have hoffset : s.offset p = 0 := by rw [State.offset, restores p hp, Option.getD_none]
      have hparts : t.openStore feeds p = none := if_neg fun hon => Bool.false_ne_true (hcl.symm.trans hon.1)
      refine ⟨rs, next, hpart.rep, hpart.sized, hpart.committed, fun r' hr' => ?_,
        fun hon => absurd (hcl.symm.trans hon) Bool.false_ne_true⟩
      cases hr'
      refine ⟨Int.le_refl _, hpart.committed, ?_, ?_⟩
      · rw [show (s.start t feeds).next p = (s.start t feeds).position p from rfl, between_self]
        rfl
      · rw [show (s.start t feeds).position p = 0 from hoffset, Run.entries, show (s.start t feeds).parts p = _ from hparts]
        exact upto_empty fun r hr => (hwithin.2 r hr).1
  · cases hr'
    exact forall_mem_nil _
  · cases hr'
    exact if_neg fun hon => hp hon.2
  · cases hr'
    rw [show (s.start t feeds).parts p = none from if_neg fun hon => Bool.false_ne_true (hplain.symm.trans hon.1)]
    exact nofun

/-! ### Applying -/

section
omit [Served σ]
variable {parts : Int32 → Option Substore} {st : σ} {now : Int64} {reached : Bool} {r : Record}

theorem applyRecord_changelog (hkey : r.key.bytes ≠ []) {c : ChangelogStore} (hparts : parts p = some (.changelog c)) :
    t.applyRecord parts st now reached p r =
      (update parts p (some (.changelog { c with entries := update c.entries r.key.bytes r.value })),
        if reached then (t.link.publish st now c.pref (written r)).2 else st) := by
  unfold applyRecord written
  rw [if_neg hkey, hparts]
  cases r.value <;> rfl

theorem applyRecord_memory (t : KTable) (st : σ) (now : Int64) (reached : Bool) (hkey : r.key.bytes ≠ [])
    (hparts : ∀ c, parts p ≠ some (.changelog c)) :
    ∃ entries, ((parts p).getD (.memory fun _ => none)).entries = entries ∧ t.applyRecord parts st now reached p r =
      (update parts p (some (.memory (update entries r.key.bytes r.value))), st) := by
  obtain ⟨entries, hentries⟩ : ∃ entries, (parts p).getD (.memory fun _ => none) = .memory entries := by
    cases hp : parts p with
    | none => exact ⟨_, rfl⟩
    | some sub =>
      cases sub with
      | memory entries => exact ⟨entries, rfl⟩
      | changelog c => exact absurd hp (hparts c)
  refine ⟨entries, by rw [hentries]; rfl, ?_⟩
  unfold applyRecord
  rw [if_neg hkey, hentries]
  cases r.value <;> cases reached <;> rfl

end

/-- The loop is at the first record between it and its pump. -/
theorem Running.head (h : Running t run p rs next) (asc : rs.Pairwise fun a b => a.offset < b.offset)
    (sized : ∀ r ∈ rs, Sized r) {todo : List (Int32 × Record)} (hstage : run.stage = .applying ((p, x) :: todo)) :
    ∃ r ∈ rs, x.offset = r.offset ∧ x.key.bytes = r.key.bytes ∧ x.value = t.link.reads r.value ∧ run.position p ≤ r.offset ∧
      r.offset < run.next p ∧ between (run.position p) (r.offset + 1) rs = [r] ∧
      ofPartition p (todo ++ run.queue) = (between (r.offset + 1) (run.next p) rs).filterMap t.deliver := by
  have hpending := h.pending
  rw [Run.pending, Run.todo, hstage, cons_append, ofPartition_cons_self] at hpending
  cases hbetween : between (run.position p) (run.next p) rs with
  | nil =>
    rw [hbetween] at hpending
    cases hpending
  | cons r rest =>
    obtain ⟨hlow, hhigh, halone, hrest⟩ := between_cons asc hbetween
    have hr : r ∈ rs := (mem_between.mp (hbetween ▸ mem_cons_self)).1
    obtain ⟨y, hdeliver, hoffset, hkey, hvalue⟩ := t.deliver_sized (sized r hr)
    rw [hbetween, filterMap_cons, hdeliver] at hpending
    obtain ⟨rfl, htail⟩ := cons.inj hpending
    rw [hrest] at htail
    exact ⟨r, hr, hoffset, hkey, hvalue, hlow, hhigh, halone, htail⟩

structure Wrote (t : KTable) (s : State σ) (run : Run) (p : Int32) (x : Record) (parts : Int32 → Option Substore)
    (st : σ) : Prop where
  others : ∀ q, q ≠ p → parts q = run.parts q
  entries : ∀ k, k ≠ [] → ((parts p).getD (.memory fun _ => none)).entries k = if Slice.bytes x.key = k then x.value
    else run.entries p k
  keeps : ∀ ref rs next, (t.useChangelog = true → ref ≠ t.changelogRef p) → Served.Rep s.store ref rs next →
    Served.Rep st ref rs next
  plain : t.useChangelog = false → ∀ c, parts p ≠ some (.changelog c)
  backed : t.useChangelog = true → ∃ cl end_ c, Served.Rep st (t.changelogRef p) cl end_ ∧ (∀ r ∈ cl, Sized r) ∧
    parts p = some (.changelog c) ∧ c.pref = t.changelogRef p ∧ c.entries = restored t.link cl

theorem entries_update (entries : Bytes → Option Bytes) (key k : Bytes) (v : Option Bytes) :
    update entries key v k = if key = k then v else entries k := by
  by_cases hk : key = k
  · rw [if_pos hk, hk, update_self]
  · rw [if_neg hk, update_of_ne (Ne.symm hk)]

section
variable [Compactable σ] [Compacting σ] [Holding σ] {reached : Bool}

/-- A value that comes from the source stands in the changelog as it is. -/
theorem published_value (rep : Served.Rep s.store (t.sourceRef p) rs next) {y : Record} (hr : r ∈ rs)
    (hvalue : x.value = t.link.reads r.value) (hy : y.value = t.link.reads x.value) :
      (Served.view (σ := σ) y).value = x.value := by
  rw [hvalue, Link.reads_idem, ← hvalue] at hy
  cases hlink : t.link with
  | embedded =>
    have hsame : x.value = r.value := by rw [hvalue, hlink]; rfl
    rw [hsame] at hy ⊢
    exact Holding.view_held rep hr hy
  | network =>
    have hne : y.value ≠ some [] := by
      rw [hy, hvalue, hlink]
      rcases r.value with _ | _ | ⟨b, v⟩ <;> exact nofun
    rw [Compacting.view_value hne, hy]

theorem applyRecord_wrote (h : Inv t s) (hrun : s.run = some run) (hpart : Part t s p rs next)
    (hr : r ∈ rs) (hvalue : x.value = t.link.reads r.value)
    (sound : t.useChangelog = true → x.key.bytes ≠ [] → reached = true ∧ Takes t.link s.store now (t.changelogRef p)
      (written x)) :
    Wrote t s run p x (t.applyRecord run.parts s.store now reached p x).1
      (t.applyRecord run.parts s.store now reached p x).2 := by
  by_cases hkey : x.key.bytes = []
  · rw [applyRecord, if_pos hkey]
    refine ⟨fun _ _ => rfl, fun k hk => ?_, fun _ _ _ _ rep => rep, fun hplain => h.plain hplain run hrun p, fun hcl => ?_⟩
    · rw [if_neg fun heq => hk (heq.symm.trans hkey)]
      rfl
    · obtain ⟨cl, end_, hclrep, backing⟩ := hpart.backed hcl
      obtain ⟨-, c, hparts, hpref, hentries⟩ := backing.opened run hrun
      exact ⟨cl, end_, c, hclrep, backing.sized, hparts, hpref, hentries⟩
  cases hcl : t.useChangelog with
  | true =>
    obtain ⟨cl, end_, hclrep, backing⟩ := hpart.backed hcl
    obtain ⟨-, c, hparts, hpref, hentries⟩ := backing.opened run hrun
    obtain ⟨rfl, hsized, hfits⟩ := sound hcl hkey
    obtain ⟨y, z, hrep, -, hykey, hysized, hyvalue, hzvalue⟩ := Link.publish_rep hclrep hsized hfits
    have hwritten : y.value = x.value := hyvalue.trans (published_value hpart.rep hr hvalue hzvalue)
    have hreads : t.link.reads x.value = x.value := by rw [hvalue, Link.reads_idem]
    rw [applyRecord_changelog hkey hparts, hpref]
    dsimp only
    refine ⟨fun q hq => update_of_ne hq _ _, fun k _ => ?_, fun ref rs next href rep => ?_,
      fun hplain => absurd hplain (by rw [hcl]; exact nofun),
      fun _ => ⟨cl ++ [y], end_ + 1, _, hrep, fun a ha => ?_, update_self .., hpref, funext fun k => ?_⟩⟩
    · rw [update_self, Run.entries, hparts]
      exact entries_update ..
    · exact Link.publish_other rep (Ne.symm (href hcl)) now _
    · rcases mem_append.mp ha with ha | ha
      · exact backing.sized a ha
      · rw [mem_singleton.mp ha]
        exact hysized
    · rw [restored, lastValue_concat, hykey, hwritten]
      change update c.entries x.key.bytes x.value k = t.link.reads (if x.key.bytes = k then _ else _)
      rw [entries_update, hentries]
      split
      · exact hreads.symm
      · rfl
  | false =>
    obtain ⟨entries, hentries, happly⟩ := applyRecord_memory t s.store now reached hkey (h.plain hcl run hrun p)
    rw [happly]
    dsimp only
    refine ⟨fun q hq => update_of_ne hq _ _, fun k _ => ?_, fun _ _ _ _ rep => rep, fun _ c => ?_,
      fun hon => absurd hon (by rw [hcl]; exact nofun)⟩
    · rw [update_self, Run.entries, hentries]
      exact entries_update ..
    · rw [update_self]
      exact nofun

theorem Inv.apply (h : Inv t s) (named : t.Named) (hrun : s.run = some run)
    (sound : Sound t s (.apply now reached)) :
    Inv t { s with store := (run.apply t s.store now reached).2, run := some (run.apply t s.store now reached).1 } := by
  unfold Run.apply
  split
  · rename_i p x todo hstage
    have hp : t.Has p := h.pending run hrun (p, x) (by rw [Run.todo, hstage]; exact mem_cons_self)
    obtain ⟨rs, next, hpart⟩ := h.parts p hp
    have hasc := Served.ascending hpart.rep
    have hrunning := hpart.running run hrun
    obtain ⟨r, hr, hoffset, hkey, hvalue, hlow, hhigh, halone, htail⟩ := hrunning.head hasc hpart.sized hstage
    have hwrote := applyRecord_wrote h hrun hpart hr hvalue fun hcl hne => sound hcl run hrun (p, x)
      (by rw [Run.todo, hstage]; rfl) hne
    dsimp only
    generalize (t.applyRecord run.parts s.store now reached p x).1 = parts at hwrote ⊢
    have hupto : Upto t.link (r.offset + 1) rs ((parts p).getD (.memory fun _ => none)).entries :=
      hrunning.upto.apply hasc halone fun k hk => by rw [hwrote.entries k hk, hkey, hvalue]
    have hposition : update run.position p (x.offset + 1) p = r.offset + 1 := by rw [update_self, hoffset]
    refine h.of_part hrun rfl hp ⟨rs, next, hwrote.keeps _ _ _ (fun hcl => named.apart hcl p p) hpart.rep, hpart.sized,
        hpart.committed, fun r' hr' => ?_, fun hcl => ?_⟩ (fun q hq ref rs next href rep => ?_) (fun _ _ => rfl)
      (fun q hq => ⟨rfl, update_of_ne hq _ _, hwrote.others q hq, ?_⟩) (fun y hy => ?_) hwrote.plain
    · cases hr'
      refine ⟨?_, hrunning.within, ?_, ?_⟩
      · change update run.position p (x.offset + 1) p ≤ run.next p
        rw [hposition]
        exact hhigh
      · change ofPartition p (todo ++ run.queue) = filterMap _ (between (update run.position p (x.offset + 1) p)
          (run.next p) rs)
        rw [hposition]
        exact htail
      · change Upto t.link (update run.position p (x.offset + 1) p) rs _
        rw [hposition]
        exact hupto
    · obtain ⟨cl, end_, c, hclrep, hsized, hparts, hpref, hentries⟩ := hwrote.backed hcl
      obtain ⟨_, _, -, backing⟩ := hpart.backed hcl
      have hreached : s.offset p ≤ r.offset + 1 :=
        Int.le_trans (backing.opened run hrun).1 (Int.le_trans hlow (Int.le_of_lt (Int.lt_succ _)))
      refine ⟨cl, end_, hclrep, hsized, ?_, fun r' hr' => ?_⟩
      · rw [hparts] at hupto
        rw [← hentries]
        exact hupto.mono hreached
      · cases hr'
        refine ⟨?_, c, hparts, hpref, hentries⟩
        change _ ≤ update run.position p (x.offset + 1) p
        rw [hposition]
        exact hreached
    · rcases href with rfl | ⟨hcl, rfl⟩
      · exact hwrote.keeps _ _ _ (fun hcl => named.apart hcl q p) rep
      · exact hwrote.keeps _ _ _ (fun _ => changelogRef_ne hq) rep
    · rw [Run.pending, Run.pending, Run.todo, Run.todo, hstage]
      exact (ofPartition_cons_other (Ne.symm hq) x (todo ++ run.queue)).symm
    · refine h.pending run hrun y ?_
      rw [Run.todo, hstage]
      exact mem_cons_of_mem _ hy
  · rw [← hrun]
    exact h

end

end

end Holocron.Streams.KTable

import Holocron.Theorems.Streams.Topology

/-! Chains of operators that are functions: a pipeline composes them as long as no operator's results get ahead of the
    records it reads. -/

namespace Holocron.Streams
open Lib Sdk List

variable {σ : Type}

def pureOp (f : Record → List Record) : Operator σ := fun stores r _ => (some (f r), stores)

def compose (fs : List (Record → List Record)) (rs : List Record) : List Record := fs.foldl (fun rs f => rs.flatMap f) rs

/-- Before every record read, no more were written than read. -/
def Trailing (f : Record → List Record) (rs : List Record) : Prop := ∀ i < rs.length, ((rs.take i).flatMap f).length ≤ i

/-- Every function trails in what reaches it. -/
def Chained : List (Record → List Record) → List Record → Prop
  | [], _ => True
  | f :: fs, rs => Trailing f rs ∧ Chained fs (rs.flatMap f)

/-- What is emitted is the composition of the functions. -/
def Composes (cfg : Config) (fs : List (Record → List Record)) (sink : Bytes) (s : Shared σ) (x : PolledRecord) : Prop :=
  ((Task.pipeline (fs.map pureOp) sink).process cfg s x).1 = compose fs [x.record]

theorem runOp_pureOp (f : Record → List Record) (partition : Int32) (s : Shared σ) (r : Record) :
    runOp (pureOp f) partition s r = (f r, s) := rfl

theorem flatMapState_pureOp (f : Record → List Record) (partition : Int32) (rs : List Record) (s : Shared σ) :
    flatMapState (runOp (pureOp f) partition) rs s = (rs.flatMap f, s) := by
  induction rs with
  | nil => rfl
  | cons r rs ih => simp [flatMapState, runOp_pureOp, ih]

theorem flatOps_pureOp (fs : List (Record → List Record)) (partition : Int32) (rs : List Record) (s : Shared σ) :
    flatOps partition (fs.map pureOp) rs s = (compose fs rs, s) := by
  induction fs generalizing rs with
  | nil => rfl
  | cons f fs ih =>
    simp only [map_cons, flatOps, flatMapState_pureOp, ih]
    rfl

variable {f : Record → List Record} {out : Backed Record} {fs : List (Record → List Record)} {rs : List Record}
    {partition : Int32}

theorem trails_pureOp {ahead : Nat} (s : Shared σ)
    (h : ∀ i < rs.length, ((rs.take i).flatMap f).length ≤ ahead + i) : Trails (runOp (pureOp f) partition) ahead rs s := by
  induction rs generalizing ahead with
  | nil => trivial
  | cons x rest ih =>
    cases rest with
    | nil => trivial
    | cons y rest =>
      have hx : (f x).length ≤ ahead + 1 := by
        have := h 1 (by simp)
        simpa using this
      refine ⟨hx, ih fun i hi => ?_⟩
      have := h (i + 1) (Nat.succ_lt_succ hi)
      rw [take_succ_cons, flatMap_cons, length_append] at this
      simp only [runOp_pureOp]
      omega

theorem Trailing.rewrite (h : Trailing f out.toList) (hcap : out.len ≤ out.array.length) (spare : Spare Record)
    (partition : Int32) (s : Shared σ) :
    ((Lib.rewrite spare (runOp (pureOp f) partition) out s).1.toList,
      (Lib.rewrite spare (runOp (pureOp f) partition) out s).2) = (out.toList.flatMap f, s) ∧
      (Lib.rewrite spare (runOp (pureOp f) partition) out s).1.len ≤
        (Lib.rewrite spare (runOp (pureOp f) partition) out s).1.array.length := by
  have htrails : Trails (runOp (pureOp f) partition) 0 out.toList s := trails_pureOp s fun i hi => Nat.le_trans (h i hi)
    (Nat.le_add_left i 0)
  rw [← flatMapState_pureOp f partition]
  exact rewrite_trails spare htrails hcap

theorem Chained.trailed (h : Chained fs rs) (s : Shared σ) : Trailed partition (fs.map pureOp) rs s := by
  induction fs generalizing rs s with
  | nil => trivial
  | cons f fs ih =>
    refine ⟨trails_pureOp s fun i hi => Nat.le_trans (h.1 i hi) (Nat.le_add_left i 0), ?_⟩
    rw [flatMapState_pureOp]
    exact ih h.2 s

theorem Agrees.composes {cfg : Config} {sink : Bytes} {s : Shared σ} {x : PolledRecord} (hsink : sink ≠ [])
    (h : Agrees cfg x.partition.index (fs.map pureOp) (.ofOne x.record) (advanceWatermark s (cfg.extract x.record)).2) :
    Composes cfg fs sink s x := by
  unfold Agrees at h
  rw [flatOps_pureOp] at h
  unfold Composes Task.process
  dsimp only
  rw [if_neg hsink]
  exact (Prod.mk.inj h).1

theorem length_flatMap_le (h : ∀ r, (f r).length ≤ 1) (rs : List Record) : (rs.flatMap f).length ≤ rs.length := by
  induction rs with
  | nil => exact Nat.le_refl 0
  | cons r rs ih =>
    have := h r
    rw [flatMap_cons, length_append, length_cons]
    omega

/-- Only the functions marked fan out. -/
def Shaped (fans : List Bool) (fs : List (Record → List Record)) : Prop :=
  List.Forall₂ (fun fan f => fan = false → ∀ r, (f r).length ≤ 1) fans fs

theorem trailing_of_single (h : ∀ r, (f r).length ≤ 1) : Trailing f rs :=
  fun i _ => Nat.le_trans (length_flatMap_le h _) (length_take_le i rs)

theorem trailing_of_length_le (h : rs.length ≤ 1) : Trailing f rs := by
  intro i hi
  obtain rfl : i = 0 := by omega
  exact Nat.le_refl 0

/-- At most one operator fans out; if the slice has several records none does. -/
theorem Shaped.chained {fans : List Bool} (h : Shaped fans fs)
    (hfans : fans.count true = 0 ∨ fans.count true ≤ 1 ∧ rs.length ≤ 1) : Chained fs rs := by
  induction h generalizing rs with
  | nil => trivial
  | @cons fan f fans fs hf _ ih =>
    cases fan with
    | false =>
      exact ⟨trailing_of_single (hf rfl), ih (hfans.imp_right fun h => ⟨h.1, Nat.le_trans (length_flatMap_le (hf rfl) rs) h.2⟩)⟩
    | true =>
      simp only [count_cons_self] at hfans
      obtain ⟨hcount, hlen⟩ : fans.count true = 0 ∧ rs.length ≤ 1 := by omega
      exact ⟨trailing_of_length_le hlen, ih (.inl hcount)⟩

section
variable (a b : Record)

/-- The first operator that may fan out makes two records of the first one, the second doubles one of them and drops the
    other. -/
def clobberOp : Bool → Nat → Record → List Record
  | true, 0 => fun _ => [a, b]
  | true, 1 => fun r => if r = b then [] else [r, r]
  | _, _ => fun r => [r]

def clobber : List Bool → Nat → List (Record → List Record)
  | [], _ => []
  | fan :: fans, k => clobberOp a b fan k :: clobber fans (k + fan.toNat)

def clobbered : Nat → List Record
  | 0 => [a]
  | 1 => [a, b]
  | _ => [a, a, a, a]

def unclobbered : Nat → List Record
  | 0 => [a]
  | 1 => [a, b]
  | _ => [a, a]

end

variable {a b : Record}

theorem shaped_clobber (fans : List Bool) (k : Nat) : Shaped fans (clobber a b fans k) := by
  induction fans generalizing k with
  | nil => exact .nil
  | cons fan fans ih =>
    refine .cons (fun hfan r => ?_) (ih _)
    rw [hfan]
    exact Nat.le_refl 1

theorem count_cons_toNat (k : Nat) (fan : Bool) (fans : List Bool) :
    k + fan.toNat + fans.count true = k + (fan :: fans).count true := by
  cases fan with
  | false => simp
  | true =>
    simp only [Bool.toNat_true, count_cons_self]
    omega

theorem compose_clobber (hab : a ≠ b) (fans : List Bool) (k : Nat) :
    compose (clobber a b fans k) (unclobbered a b k) = unclobbered a b (k + fans.count true) := by
  induction fans generalizing k with
  | nil => rfl
  | cons fan fans ih =>
    have hop : (unclobbered a b k).flatMap (clobberOp a b fan k) = unclobbered a b (k + fan.toNat) := by
      match fan, k with
      | false, 0 | false, 1 | false, _ + 2 | true, 0 | true, _ + 2 => rfl
      | true, 1 => simp [unclobbered, clobberOp, hab]
    rw [clobber, compose, foldl_cons, hop, ← count_cons_toNat]
    exact ih _

section
variable (spare : Spare Record)
include spare

theorem rewriteLoop_clobber (hop : f a = [a, a]) (tail : List Record) (s : Shared σ) :
    rewriteLoop spare (runOp (pureOp f) partition) 2 0 (a :: b :: tail) (.shared 0) s =
      (((Dest.shared 2).append spare (a :: a :: tail) [a, a]).1,
        ((Dest.shared 2).append spare (a :: a :: tail) [a, a]).2, s) := by
  have hfits : 0 + [a, a].length ≤ (a :: b :: tail).length := by simp
  have happend : (Dest.shared 0).append spare (a :: b :: tail) [a, a] = (a :: a :: tail, .shared 2) := by
    rfl
  simp [rewriteLoop, runOp_pureOp, hop, happend]

/-- The second record is gone before the loop gets to it. -/
theorem rewrite_clobber (hab : a ≠ b) (hlist : out.toList = [a, b]) (hcap : out.len ≤ out.array.length)
    (partition : Int32) (s : Shared σ) :
    (rewrite spare (runOp (pureOp (clobberOp a b true 1)) partition) out s).1.toList = [a, a, a, a] ∧
      (rewrite spare (runOp (pureOp (clobberOp a b true 1)) partition) out s).1.len ≤
        (rewrite spare (runOp (pureOp (clobberOp a b true 1)) partition) out s).1.array.length := by
  have hlen : out.len = 2 := by
    rw [← Backed.length_toList hcap, hlist]
    rfl
  obtain ⟨array, len⟩ := out
  subst hlen
  obtain ⟨tail, rfl⟩ : ∃ tail, array = a :: b :: tail := by
    match array, hlist, hcap with
    | x :: y :: tail, hlist, _ =>
      cases hlist
      exact ⟨tail, rfl⟩
  have hop : clobberOp a b true 1 a = [a, a] := if_neg hab
  obtain ⟨hdest, hcap'⟩ := @Dest.append_shared Record (a :: a :: tail) 2 spare (Nat.le_add_left 2 _) [a, a]
  rw [rewrite_of_loop (rewriteLoop_clobber spare hop tail s)]
  exact ⟨hdest, hcap'⟩

theorem rewrite_clobbered (hab : a ≠ b) (fan : Bool) {k : Nat} (hlist : out.toList = clobbered a b k)
    (hcap : out.len ≤ out.array.length) (partition : Int32) (s : Shared σ) :
    (rewrite spare (runOp (pureOp (clobberOp a b fan k)) partition) out s).1.toList = clobbered a b (k + fan.toNat) ∧
      (rewrite spare (runOp (pureOp (clobberOp a b fan k)) partition) out s).1.len ≤
        (rewrite spare (runOp (pureOp (clobberOp a b fan k)) partition) out s).1.array.length := by
  by_cases hsecond : fan = true ∧ k = 1
  · obtain ⟨rfl, rfl⟩ := hsecond
    exact rewrite_clobber spare hab hlist hcap partition s
  · have htrailing : Trailing (clobberOp a b fan k) out.toList := by
      match fan, k with
      | true, 1 => exact absurd ⟨rfl, rfl⟩ hsecond
      | true, 0 =>
        rw [hlist]
        exact trailing_of_length_le (Nat.le_refl 1)
      | false, _ | true, _ + 2 =>
        refine trailing_of_single fun r => ?_
        exact Nat.le_refl 1
    obtain ⟨hrewrite, hcap'⟩ := htrailing.rewrite hcap spare partition s
    refine ⟨?_, hcap'⟩
    rw [(Prod.mk.inj hrewrite).1, hlist]
    match fan, k with
    | true, 1 => exact absurd ⟨rfl, rfl⟩ hsecond
    | true, 0 | false, 0 | false, 1 | false, _ + 2 | true, _ + 2 => rfl

end

theorem runOps_clobber (cfg : Config) (hab : a ≠ b) (fans : List Bool) {k : Nat} (hlist : out.toList = clobbered a b k)
    (hcap : out.len ≤ out.array.length) (partition : Int32) (s : Shared σ) :
    (runOps cfg partition ((clobber a b fans k).map pureOp) out s).1.toList = clobbered a b (k + fans.count true) := by
  induction fans generalizing k out s with
  | nil => exact hlist
  | cons fan fans ih =>
    obtain ⟨hlist', hcap'⟩ := rewrite_clobbered cfg.spare hab fan hlist hcap partition s
    have hne : (rewrite cfg.spare (runOp (pureOp (clobberOp a b fan k)) partition) out s).1.len ≠ 0 := by
      rw [← Backed.length_toList hcap', hlist']
      match k + fan.toNat with
      | 0 | 1 | _ + 2 => exact nofun
    rw [clobber, map_cons, runOps]
    dsimp only
    rw [if_neg hne, ← count_cons_toNat]
    exact ih hlist' hcap' _

/-- A pipeline composes its operators where their results trail; and of the operators that may make several records of
    one there can be one, whatever the others do. -/
theorem pipelines_compose (cfg : Config) {sink : Bytes} (hsink : sink ≠ []) (s : Shared σ) :
    (∀ (fs : List (Record → List Record)) (x : PolledRecord), Chained fs [x.record] → Composes cfg fs sink s x) ∧
      ∀ fans : List Bool, (∀ fs, Shaped fans fs → ∀ x : PolledRecord, Composes cfg fs sink s x) ↔ fans.count true ≤ 1 := by
  have hchained (fs : List (Record → List Record)) (x : PolledRecord) (h : Chained fs [x.record]) : Composes cfg fs sink s x :=
    Agrees.composes hsink ((Chained.trailed h _).agrees (Nat.le_refl 1))
  refine ⟨hchained, fun fans => ⟨fun hall => ?_, fun hfans fs hshaped x =>
    hchained fs x (hshaped.chained (.inr ⟨hfans, Nat.le_refl 1⟩))⟩⟩
  by_contra hfans
  obtain ⟨n, hn⟩ : ∃ n, 0 + fans.count true = n + 2 := ⟨fans.count true - 2, by omega⟩
  let a : Record := ⟨0, 0, none, none, []⟩
  let b : Record := ⟨1, 0, none, none, []⟩
  have hab : a ≠ b := by decide
  have hcomposes := hall (clobber a b fans 0) (shaped_clobber fans 0) ⟨a, ⟨[], 0⟩⟩
  have hcap : (Backed.ofOne a).len ≤ (Backed.ofOne a).array.length := Nat.le_refl 1
  have hstart : (Backed.ofOne a).toList = clobbered a b 0 := Backed.toList_ofOne a
  have hrun := runOps_clobber cfg hab fans hstart hcap 0 (advanceWatermark s (cfg.extract a)).2
  have hcompose := compose_clobber hab fans 0
  rw [hn] at hrun hcompose
  have : clobbered a b (n + 2) = unclobbered a b (n + 2) := by
    rw [← hrun, ← hcompose]
    unfold Composes Task.process at hcomposes
    dsimp only at hcomposes
    rwa [if_neg hsink] at hcomposes
  cases this

def fork (r : Record) : List Record :=
  [{ r with value := some (Slice.bytes r.value ++ [1]) }, { r with value := some (Slice.bytes r.value ++ [2]) }]

def blank : PolledRecord := ⟨⟨0, 0, none, none, []⟩, ⟨utf8 "t", 0⟩⟩

theorem pipelines_compose_fork : Composes Loop.plainConfig [fork] (utf8 "out")
    (⟨0, (), fun _ _ => none, .empty⟩ : Shared Unit) blank :=
  (pipelines_compose Loop.plainConfig (by decide) _).1 [fork] blank ⟨trailing_of_length_le (Nat.le_refl 1), trivial⟩

/-- With two such operators the second overwrites what it has not read: a record of the first is lost, another one taken
    twice. -/
theorem fork_twice_loses :
    (compose [fork, fork] [blank.record]).map Record.value = [some [1, 1], some [1, 2], some [2, 1], some [2, 2]] ∧
      ((Task.pipeline ([fork, fork].map pureOp) (utf8 "out")).process Loop.plainConfig
        (⟨0, (), fun _ _ => none, .empty⟩ : Shared Unit) blank).1.map
        Record.value = [some [1, 1], some [1, 2], some [1, 2, 1], some [1, 2, 2]] := by decide

end Holocron.Streams

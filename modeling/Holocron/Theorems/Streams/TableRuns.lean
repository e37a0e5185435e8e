import Holocron.Theorems.Streams.Table

/-! A table over all lives of its topology: commits past unapplied records and stores that start empty make it forget
    keys. -/

namespace Holocron.Streams.KTable
open Lib Sdk Storage List

section
variable {σ : Type} [Store σ] [Served σ] {t : KTable} {s : State σ}

/-- Nothing runs, nothing is committed, and the changelog is empty. -/
structure Fresh (t : KTable) (s : State σ) : Prop where
  stopped : s.run = none
  uncommitted : ∀ p, s.committed p = none
  source : ∀ p, t.Has p → ∃ rs next, Served.Rep s.store (t.sourceRef p) rs next ∧ ∀ r ∈ rs, Sized r
  changelog : t.useChangelog = true → ∀ p, t.Has p → ∃ next, Served.Rep s.store (t.changelogRef p) [] next

theorem Fresh.inv (h : Fresh t s) : Inv t s := by
  have hrun : ∀ run, s.run ≠ some run := fun run => by rw [h.stopped]; exact nofun
  have hoffset : ∀ p, s.offset p = 0 := fun p => by rw [State.offset, h.uncommitted, Option.getD_none]
  refine ⟨fun p hp => ?_, fun run hr => absurd hr (hrun run), fun run hr => absurd hr (hrun run),
    fun _ run hr => absurd hr (hrun run)⟩
  obtain ⟨rs, next, rep, sized⟩ := h.source p hp
  obtain ⟨hnext, hwithin⟩ := Served.within rep
  refine ⟨rs, next, rep, sized, by rw [hoffset]; exact hnext, fun run hr => absurd hr (hrun run), fun hcl => ?_⟩
  obtain ⟨end_, hclrep⟩ := h.changelog hcl p hp
  refine ⟨[], end_, hclrep, forall_mem_nil _, ?_, fun run hr => absurd hr (hrun run)⟩
  have hempty : restored t.link [] = fun _ => none := funext fun k => t.link.reads_none
  rw [hoffset, hempty]
  exact upto_empty fun r hr => (hwithin r hr).1

theorem Inv.step [Compactable σ] [Compacting σ] [Holding σ] (h : Inv t s) (named : t.Named) {a : Action}
    (sound : Sound t s a) : Inv t (t.step s a) := by
  cases a with
  | produce now p r =>
    unfold KTable.step
    dsimp only
    split
    · rename_i hp
      exact h.produce named hp sound
    · exact h
  | start feeds =>
    unfold KTable.step
    dsimp only
    split
    · exact h.start named sound
    · exact h
  | receive p =>
    unfold KTable.step
    dsimp only
    split
    · exact h
    · rename_i run hrun
      split
      · rename_i hp
        exact h.receive hrun hp
      · exact h
  | poll n => exact h.map fun run => run.poll_same n
  | pollFails => exact h.map fun run => run.pollFails_same
  | apply now reached =>
    unfold KTable.step
    dsimp only
    split
    · exact h
    · rename_i run hrun
      exact h.apply named hrun sound
  | latestOffsets order => exact h.map fun run => run.latestOffsets_same order
  | commit result =>
    unfold KTable.step
    dsimp only
    split
    · exact h
    · rename_i run hrun
      exact h.commit hrun (sound run hrun)
  | stop => exact h.stop

end

theorem findSome?_of_unique {α β : Type} {f : α → Option β} {a : α} {l : List α} (others : ∀ b, b ≠ a → f b = none)
    (found : (f a).isSome → a ∈ l) : l.findSome? f = f a := by
  induction l with
  | nil =>
    cases hfa : f a with
    | none => rfl
    | some v => exact absurd (found (by rw [hfa]; rfl)) not_mem_nil
  | cons b l ih =>
    rw [List.findSome?_cons]
    cases hfb : f b with
    | some v =>
      have hba : b = a := by
        by_contra hne
        rw [others b hne] at hfb
        cases hfb
      rw [← hba, hfb]
    | none =>
      refine ih fun hsome => ?_
      rcases mem_cons.mp (found hsome) with rfl | hmem
      · rw [hfb] at hsome
        cases hsome
      · exact hmem

variable {p : Int32}

section
variable {σ : Type} [Store σ] [Served σ] {t : KTable} {s : State σ} {run : Run}

/-- The answer of a table whose loop has applied all of the source. -/
theorem Inv.get (h : Inv t s) (hrun : s.run = some run) {content : Int32 → List Record}
    (hcontent : ∀ p, t.Has p → contents s.store (t.sourceRef p) = .ok (content p))
    (caught : ∀ p, t.Has p → ∀ r ∈ content p, r.offset < run.position p) {k : Bytes} (hk : k ≠ []) (hp : t.Has p) :
    run.entries p k = t.link.reads (lastValue k (content p)) := by
  obtain ⟨rs, next, hpart⟩ := h.parts p hp
  have hrs : rs = content p := Except.ok.inj ((Served.contents_eq hpart.rep).symm.trans (hcontent p hp))
  rw [← hrs]
  refine (hpart.running run hrun).upto k hk fun r hr hle => ?_
  rw [hrs] at hr
  exact absurd hle (Int.not_le.mpr (caught p hp r hr))

theorem Run.get_eq (run : Run) (order : List Int32) (key : Slice) (covers : ∀ p, (run.parts p).isSome → p ∈ order)
    (others : ∀ q, q ≠ p → run.entries q (Slice.bytes key) = none) : run.get order key = run.entries p (Slice.bytes key) := by
  have hbind : ∀ q, ((run.parts q).bind fun sub => sub.get key) = run.entries q (Slice.bytes key) := by
    intro q
    rw [Run.entries]
    cases run.parts q <;> rfl
  rw [← hbind p]
  refine findSome?_of_unique (fun q hq => (hbind q).trans (others q hq)) fun hsome => covers p ?_
  cases hparts : run.parts p with
  | none =>
    rw [hparts] at hsome
    cases hsome
  | some sub => rfl

end

def single (useChangelog : Bool) : KTable := ⟨utf8 "s", utf8 "n", 1, useChangelog, .embedded⟩

def untouched : State MemoryStore := ⟨.new, fun _ => none, none⟩

theorem single_has {useChangelog : Bool} (h : (single useChangelog).Has p) : p = 0 := by
  have hzero : p.toInt = 0 := Int.le_antisymm (Int.lt_add_one_iff.mp h.2) h.1
  rw [← Int32.ofInt_toInt p, hzero]
  rfl

theorem single_named (useChangelog : Bool) : (single useChangelog).Named := fun _ =>
  ⟨show utf8 "n" ≠ [] by decide +kernel, show utf8 "s" ≠ utf8 "n" ++ utf8 "-changelog" by decide +kernel⟩

theorem untouched_fresh (useChangelog : Bool) : Fresh (single useChangelog) untouched :=
  ⟨rfl, fun _ => rfl, fun _ _ => ⟨[], 0, ⟨rfl, nofun, rfl⟩, forall_mem_nil _⟩, fun _ _ _ => ⟨0, rfl, nofun, rfl⟩⟩

def first : Record := ⟨0, 1, some [97], some [1], []⟩

def second : Record := ⟨1, 1, some [98], some [2], []⟩

def logged : Record := ⟨0, 1, some [97], some [1], []⟩

def twoLives (received polled : Nat) (feeds : Int32 → Feed) : List Action :=
  [.produce 1 0 first, .produce 1 0 second, .start fun _ => feedOf []] ++ List.replicate received (.receive 0) ++
    [.poll polled] ++ List.replicate polled (.apply 1 true) ++ [.latestOffsets [0], .commit .done, .stop, .start feeds]

def answer (t : KTable) (as : List Action) (key : Slice) : Option (Int × Option Bytes) :=
  (as.foldl t.step untouched).run.map fun run => (run.position 0, run.get [0] key)

def resumed : List Action := twoLives 1 1 (fun _ => feedOf [[logged]]) ++ [.receive 0, .poll 1, .apply 1 true]

theorem restores_single {s : State MemoryStore} {batches : List (List Record)} (nonempty : ∀ b ∈ batches, b ≠ [])
    (hcontents : contents s.store ((single true).changelogRef 0) = .ok batches.flatten) :
      Restores (single true) s fun _ => feedOf batches := by
  intro p hp
  rw [single_has hp]
  exact ⟨batches, _, nonempty, rfl, hcontents, filterMap_some.symm⟩

theorem resumed_sound : Along (single true).step untouched resumed (Sound (single true)) := by
  have takes : ∀ (s : MemoryStore) p r, Sized r → Takes Link.embedded s 1 p r := fun _ _ _ h => ⟨h, fun _ _ _ _ _ => trivial⟩
  have applies : ∀ s, (∀ run ∈ s.run, ∀ x ∈ run.todo.head?, Sized (written x.2)) → Sound (single true) s (.apply 1 true) :=
    fun s h _ run hrun x hx _ => ⟨rfl, takes _ _ _ (h run hrun x hx)⟩
  refine .cons (takes _ _ _ (by decide +kernel))
    (.cons (takes _ _ _ (by decide +kernel)) (.cons ?_ (.cons trivial (.cons trivial (.cons ?_
    (.cons trivial (.cons ?_ (.cons trivial (.cons ?_ (.cons trivial (.cons trivial (.cons ?_ .nil))))))))))))
  · exact restores_single (forall_mem_nil _) (by decide +kernel)
  · exact applies _ (by decide +kernel)
  · change ∀ run ∈ _, _
    decide +kernel
  · exact restores_single (by decide) (by decide +kernel)
  · exact applies _ (by decide +kernel)

end Holocron.Streams.KTable

import Holocron.Groups.OffsetStores
import Holocron.Theorems.Groups.OffsetStore

/-! The stores of committed offsets answer as a map exactly if no name with a NUL is committed, and in JSON only valid
    UTF-8. -/

namespace Holocron.Groups
open Lib Log Storage Concurrent List

/-! ### The map -/

def Committed.empty : Committed := fun _ _ _ => none

namespace OffsetCall

def next (m : Committed) : OffsetCall → Committed
  | .commit group topic partition offset => m.commit group topic partition offset.toInt
  | .deleteGroup group => m.deleteGroup group
  | .lookup .. | .list _ => m

def Right (m : Committed) : OffsetCall → OffsetAnswer → Prop
  | .commit .., a | .deleteGroup _, a => a = .done
  | .lookup group topic partition, a => a = .offset ((m group topic partition).getD noOffset)
  | .list group, a => ∃ es, a = .entries es ∧ es.Nodup ∧ ∀ e, e ∈ es ↔ m group e.topic e.partition = some e.offset

def Named (names : Bytes → Bytes → Prop) : OffsetCall → Prop
  | .commit group topic _ _ => names group topic
  | .lookup .. | .list _ | .deleteGroup _ => True

end OffsetCall

def OffsetEvent.Named (names : Bytes → Bytes → Prop) : OffsetEvent → Prop
  | .call _ _ c => c.Named names
  | .reopen _ => True

def callSpec : Spec Committed (Walk × OffsetCall) OffsetAnswer := ⟨fun m c a => c.2.Right m a, fun m c => c.2.next m⟩

def eventSpec : Spec Committed OffsetEvent OffsetAnswer where
  right m
    | .call _ _ c, a => c.Right m a
    | .reopen _, a => a = .done
  next m
    | .call _ _ c => c.next m
    | .reopen _ => m

/-! ### Keys -/

/-- What `Sscanf` does: it reads a number that was printed, and of a key that has not three parts it fills in the group
    only, since `%s` ends at white space and a NUL has to follow. -/
structure Scan.Reads (scan : Scan) : Prop where
  number (p : Int32) : scan.number (decimal p.toInt) = p
  key (k : Bytes) : (scan.key k).2 = ([], 0)

variable {scan : Scan}

theorem splitKey_joinKey (hscan : scan.Reads) {g t : Bytes} (hg : NoNUL g) (ht : NoNUL t) (p : Int32) :
    splitKey scan (joinKey g t p) = (g, t, p) := by
  rw [splitKey, splitNUL_joinKey hg ht]
  exact congrArg (fun q => (g, t, q)) (hscan.number p)

theorem length_splitNUL_pos (s : Bytes) : 1 ≤ (splitNUL s).length := length_pos_iff.mpr (splitOn_ne_nil 0 s)

theorem length_splitNUL_append (s t : Bytes) : (splitNUL (s ++ 0 :: t)).length = (splitNUL s).length + (splitNUL t).length := by
  rw [splitNUL, splitOn_append_cons_self, length_append]
  rfl

theorem length_splitNUL_of_mem {s : Bytes} (h : ¬ NoNUL s) : 2 ≤ (splitNUL s).length := by
  obtain ⟨a, b, rfl⟩ := append_of_mem (not_not.mp h)
  have ha := length_splitNUL_pos a
  have hb := length_splitNUL_pos b
  rw [length_splitNUL_append]
  omega

/-- With a NUL in a name the key is none of three parts. -/
theorem splitKey_of_NUL (hscan : scan.Reads) {g t : Bytes} (h : ¬ (NoNUL g ∧ NoNUL t)) (p : Int32) :
    (splitKey scan (joinKey g t p)).2 = ([], 0) := by
  have hcount : (splitNUL (joinKey g t p)).length ≠ 3 := by
    have hg := length_splitNUL_pos g
    have ht := length_splitNUL_pos t
    have hd := length_splitNUL_pos (decimal p.toInt)
    rw [joinKey, length_splitNUL_append, length_splitNUL_append]
    rcases not_and_or.mp h with h | h
    · have := length_splitNUL_of_mem h
      omega
    · have := length_splitNUL_of_mem h
      omega
  unfold splitKey
  split
  · rename_i heq
    exact absurd (congrArg length heq) hcount
  · exact hscan.key _

/-! ### Entries -/

structure Entries.Maps (es : Entries) (m : Committed) : Prop extends es.Records m where
  nodup : (Assoc.keys es).Nodup

variable {k topic group : Bytes} {es es' : Entries}

namespace Entries.Maps

variable {es : Entries} {m : Committed} {scan : Scan}

theorem empty : Entries.Maps [] .empty := ⟨⟨fun _ _ _ => rfl, nofun⟩, nodup_nil⟩

section
variable (h : es.Maps m)
include h

theorem mem_iff {o : Int} : (k, o) ∈ es ↔ lookup k es = some o := (Assoc.get_eq_some_iff h.nodup).symm

theorem perm (hperm : es'.Perm es) : Entries.Maps es' m := by
  have hlookup (k : Bytes) : lookup k es' = lookup k es := Assoc.get_perm hperm h.nodup k
  refine ⟨⟨fun g t p => by rw [hlookup, h.lookup], fun k hk => h.named k (hlookup k ▸ hk)⟩, ?_⟩
  exact (hperm.map Prod.fst).nodup_iff.mpr h.nodup

theorem commit (hg : NoNUL group) (ht : NoNUL topic) (partition : Int32) (offset : Int) :
    Entries.Maps (es.set (joinKey group topic partition) offset) (m.commit group topic partition offset) :=
  ⟨h.toRecords.commit hg ht partition offset, Assoc.nodup_set h.nodup _ _⟩

theorem right_lookup (group topic : Bytes) (partition : Int32) :
    OffsetCall.Right m (.lookup group topic partition)
      (.offset ((lookup (joinKey group topic partition) es).getD noOffset)) := by
  rw [h.lookup]
  rfl

theorem key (hscan : scan.Reads) {o : Int} (hk : (k, o) ∈ es) :
    ∃ g t p, NoNUL g ∧ NoNUL t ∧ k = joinKey g t p ∧ splitKey scan k = (g, t, p) ∧ m g t p = some o := by
  have hlookup := h.mem_iff.mp hk
  obtain ⟨g, t, p, hg, ht, rfl⟩ := h.named k (by rw [hlookup]; rfl)
  exact ⟨g, t, p, hg, ht, rfl, splitKey_joinKey hscan hg ht p, (h.lookup g t p).symm.trans hlookup⟩

theorem noNUL {g t : Bytes} {p : Int32} (hm : (m g t p).isSome) : NoNUL g ∧ NoNUL t := by
  obtain ⟨g', t', p', hg, ht, heq⟩ := h.named (joinKey g t p) (by rwa [h.lookup])
  obtain ⟨rfl, rfl, -⟩ := (joinKey_inj hg ht).mp heq
  exact ⟨hg, ht⟩

theorem deleteGroupEntries (hscan : scan.Reads) (group : Bytes) :
    Entries.Maps (deleteGroupEntries scan es group) (m.deleteGroup group) := by
  have hlookup (k : Bytes) : List.lookup k (Groups.deleteGroupEntries scan es group) = if (splitKey scan k).1 ≠ group
      then List.lookup k es else none := by
    have hfilter := Assoc.get_filter es (fun k => decide ((splitKey scan k).1 ≠ group)) k
    simp only [decide_eq_true_eq] at hfilter
    exact hfilter
  refine ⟨⟨fun g t p => ?_, fun k hk => ?_⟩, h.nodup.sublist (filter_sublist.map _)⟩
  · rw [hlookup, h.lookup, Committed.deleteGroup]
    cases hm : m g t p with
    | none => rw [ite_self, ite_self]
    | some o =>
      obtain ⟨hg, ht⟩ := h.noNUL (g := g) (t := t) (p := p) (by rw [hm]; rfl)
      rw [splitKey_joinKey hscan hg ht]
      exact ite_not ..
  · rw [hlookup] at hk
    split at hk
    · exact h.named k hk
    · cases hk

theorem list (hscan : scan.Reads) (walk : Walk) (group : Bytes) :
    OffsetCall.Right m (.list group) (.entries (listEntries scan (walk.order es) group)) := by
  have h := h.perm (walk.perm es)
  generalize walk.order es = es at h
  -- The listing after the keys are split, where an entry determines what it was made of.
  have hlist : listEntries scan es group = (es.map fun e => (splitKey scan e.1, e.2)).filterMap
      fun x => if x.1.1 ≠ group then none else some ⟨x.1.2.1, x.1.2.2, x.2⟩ := by
    rw [filterMap_map]
    rfl
  refine ⟨_, rfl, ?_, fun e => ?_⟩
  · rw [hlist]
    refine Nodup.filterMap (fun x y e hx hy => ?_) (Nodup.map_on ?_ (Nodup.of_map _ h.nodup))
    · obtain ⟨⟨g, t, p⟩, o⟩ := x
      simp only [Option.mem_def, ite_not, Option.ite_none_right_eq_some, Option.some.injEq] at hx hy
      obtain ⟨rfl, rfl⟩ := hx
      obtain ⟨rfl, heq⟩ := hy
      cases heq
      rfl
    · rintro ⟨k, o⟩ hk ⟨k', o'⟩ hk' heq
      obtain ⟨g, t, p, -, -, rfl, hsplit, -⟩ := h.key hscan hk
      obtain ⟨g', t', p', -, -, rfl, hsplit', -⟩ := h.key hscan hk'
      simp only [hsplit, hsplit'] at heq
      obtain ⟨⟨rfl, rfl, rfl⟩, rfl⟩ := heq
      rfl
  · rw [listEntries, mem_filterMap]
    constructor
    · rintro ⟨⟨k, o⟩, hk, hsome⟩
      obtain ⟨g, t, p, -, -, -, hsplit, hm⟩ := h.key hscan hk
      simp only [hsplit] at hsome
      split at hsome
      · cases hsome
      · rename_i hg
        cases hsome
        exact not_not.mp hg ▸ hm
    · intro hm
      obtain ⟨hg, ht⟩ := h.noNUL (by rw [hm]; rfl)
      refine ⟨(joinKey group e.topic e.partition, e.offset), h.mem_iff.mpr (by rw [h.lookup, hm]), ?_⟩
      simp [splitKey_joinKey hscan hg ht]

end

end Entries.Maps

/-- The listing after one commit with a NUL in a name is not that of the map. -/
theorem listed_NUL_wrong (hscan : scan.Reads) {g t : Bytes} (h : ¬ (NoNUL g ∧ NoNUL t)) :
    ¬ OffsetCall.Right (Committed.empty.commit g t 1 0) (.list g) (.entries (listEntries scan [(joinKey g t 1, 0)] g)) := by
  rintro ⟨es, hes, -, hmem⟩
  cases hes
  have hin := (hmem ⟨t, 1, 0⟩).mpr (if_pos ⟨rfl, rfl, rfl⟩)
  obtain ⟨e, he, hsome⟩ := mem_filterMap.mp hin
  rw [mem_singleton.mp he] at hsome
  have hrest := splitKey_of_NUL hscan h 1
  split at hsome
  rename_i g' t' p' hsplit
  rw [hsplit] at hrest
  split at hsome
  · cases hsome
  · cases hsome
    cases hrest

/-! ### Memory -/

/-- The names hold no NUL. -/
def Plain (names : Bytes → Bytes → Prop) : Prop := ∀ g t, names g t → NoNUL g ∧ NoNUL t

theorem Plain.of_lists {names : Bytes → Bytes → Prop} (hscan : scan.Reads)
    (h : ∀ g t, names g t → OffsetCall.Right (Committed.empty.commit g t 1 0) (.list g)
      (.entries (listEntries scan [(joinKey g t 1, 0)] g))) :
    Plain names := by
  intro g t hnames
  by_contra hNUL
  exact listed_NUL_wrong hscan hNUL (h g t hnames)

namespace MemoryOffsetStore

/-- On these names, every run of calls is one of a map. -/
def Implements (scan : Scan) (names : Bytes → Bytes → Prop) : Prop :=
  ∀ cs : List (Walk × OffsetCall), (∀ c ∈ cs, c.2.Named names) → callSpec.Follows .empty (trace (step scan) ⟨[]⟩ cs)

variable {scan : Scan} {names : Bytes → Bytes → Prop}

theorem step_right (hscan : scan.Reads) (hplain : Plain names) (s : MemoryOffsetStore) (m : Committed)
    (c : Walk × OffsetCall) (h : s.entries.Maps m)
    (hc : c.2.Named names) : callSpec.right m c (step scan s c).1 ∧ (step scan s c).2.entries.Maps (callSpec.next m c) := by
  obtain ⟨walk, c⟩ := c
  cases c with
  | commit group topic partition offset =>
    obtain ⟨hg, ht⟩ := hplain group topic hc
    exact ⟨rfl, h.commit hg ht partition offset.toInt⟩
  | lookup group topic partition => exact ⟨h.right_lookup group topic partition, h⟩
  | list group => exact ⟨h.list hscan walk group, h⟩
  | deleteGroup group => exact ⟨rfl, h.deleteGroupEntries hscan group⟩

theorem implements_iff (hscan : scan.Reads) : Implements scan names ↔ Plain names := by
  constructor
  · intro h
    refine .of_lists hscan fun g t hnames => ?_
    have hfollows := h [(.listed, .commit g t 1 0), (.listed, .list g)] (by simp [OffsetCall.Named, hnames])
    exact hfollows.2.1
  · intro hplain cs hcs
    exact Spec.follows_trace (step_right hscan hplain) .empty (.of_mem hcs)

end MemoryOffsetStore

/-! ### A JSON file -/

namespace JSONOffsetStore

variable {δ : Type} {J : OffsetJson δ} {scan : Scan} {names : Bytes → Bytes → Prop} {s : JSONOffsetStore δ} {m : Committed}

/-- On these names, every run of calls and restarts is one of a map. -/
def Implements (J : OffsetJson δ) (scan : Scan) (names : Bytes → Bytes → Prop) : Prop :=
  ∀ es : List OffsetEvent, (∀ e ∈ es, e.Named names) → eventSpec.Follows .empty (trace (step J scan) ⟨[], ⟨none, none⟩⟩ es)

/-- The names are valid UTF-8. -/
def Valid (names : Bytes → Bytes → Prop) : Prop := ∀ g t, names g t → ValidUTF8 g ∧ ValidUTF8 t

/-- Memory and the file hold the map. -/
structure Keeps (J : OffsetJson δ) (scan : Scan) (s : JSONOffsetStore δ) (m : Committed) : Prop where
  maps : s.entries.Maps m
  valid : ∀ g t p, (m g t p).isSome → ValidUTF8 g ∧ ValidUTF8 t
  file : s.disk.file = none ∧ s.entries = [] ∨ ∃ es, es.Perm s.entries ∧
    s.disk.file = some (J.marshalIndent (snapshotLocked scan .listed es))

theorem foldl_snapshot (hscan : scan.Reads) (h : es.Maps m) (hvalid : ∀ g t p, (m g t p).isSome → ValidUTF8 g ∧ ValidUTF8 t) :
    ((snapshotLocked scan .listed es).map OffsetKey.valid).foldl (fun (m : Entries) k =>
      m.set (joinKey k.group k.topic k.partition) k.offset) [] = es.reverse := by
  have hset : ∀ m', ∀ e ∈ es,
      (fun (m : Entries) k => m.set (joinKey k.group k.topic k.partition) k.offset) m'
        (OffsetKey.valid ⟨(splitKey scan e.1).1, (splitKey scan e.1).2.1, (splitKey scan e.1).2.2, e.2⟩) = m'.set e.1 e.2 := by
    rintro m' ⟨k, o⟩ he
    obtain ⟨g, t, p, -, -, rfl, hsplit, hm⟩ := h.key hscan he
    obtain ⟨hg, ht⟩ := hvalid g t p (by rw [hm]; rfl)
    simp only [hsplit, OffsetKey.valid, toValidUTF8_eq_self_iff.mpr hg, toValidUTF8_eq_self_iff.mpr ht]
  have hfold := Assoc.foldl_set (m := []) h.nodup fun _ _ => not_mem_nil
  rw [append_nil] at hfold
  unfold snapshotLocked
  rw [map_map, foldl_map]
  exact (foldl_ext _ _ _ fun m' e he => hset m' e he).trans hfold

theorem keeps_update (s : JSONOffsetStore δ) (walk : Walk) {entries : Entries} {m' : Committed} (hmaps : entries.Maps m')
    (hvalid : ∀ g t p, (m' g t p).isSome → ValidUTF8 g ∧ ValidUTF8 t) :
    (s.update J scan walk entries).1 = .done ∧ (s.update J scan walk entries).2.Keeps J scan m' :=
  ⟨rfl, hmaps, hvalid, .inr ⟨walk.order entries, walk.perm entries, rfl⟩⟩

theorem load_snapshot (hscan : scan.Reads) (h : es.Maps m) (hvalid : ∀ g t p, (m g t p).isSome → ValidUTF8 g ∧ ValidUTF8 t)
    {f : OffsetFile δ} (hfile : f.file = some (J.marshalIndent (snapshotLocked scan .listed es))) :
      load J f = some es.reverse := by
  rw [load, hfile]
  dsimp only
  rw [J.unmarshal_marshal, Option.map_some, foldl_snapshot hscan h hvalid]

theorem Keeps.reopen (h : s.Keeps J scan m) (hscan : scan.Reads) :
    ∃ entries, load J s.disk = some entries ∧ Keeps J scan ⟨entries, s.disk⟩ m := by
  rcases h.file with ⟨hfile, hentries⟩ | ⟨es, hperm, hfile⟩
  · exact ⟨[], by rw [load, hfile], by rw [← hentries]; exact h.maps, h.valid, .inl ⟨hfile, rfl⟩⟩
  · have hreverse : es.reverse.Perm es := reverse_perm es
    exact ⟨es.reverse, load_snapshot hscan (h.maps.perm hperm) h.valid hfile, h.maps.perm (hreverse.trans hperm), h.valid,
      .inr ⟨es, hreverse.symm, hfile⟩⟩

theorem step_right (hscan : scan.Reads) (hplain : Plain names) (hvalid : Valid names) (s : JSONOffsetStore δ)
    (m : Committed) (e : OffsetEvent)
    (h : s.Keeps J scan m) (he : e.Named names) : eventSpec.right m e (step J scan s e).1 ∧
      (step J scan s e).2.Keeps J scan (eventSpec.next m e) := by
  cases e with
  | reopen fuel =>
    obtain ⟨entries, hload, hkeeps⟩ := h.reopen hscan
    rw [step, hload]
    exact ⟨rfl, hkeeps⟩
  | call walk now c =>
    cases c with
    | commit group topic partition offset =>
      obtain ⟨hg, ht⟩ := hplain group topic he
      refine keeps_update s walk (h.maps.commit hg ht partition offset.toInt) fun g t p hsome => ?_
      change (if g = group ∧ t = topic ∧ p = partition then some offset.toInt else m g t p).isSome at hsome
      split at hsome
      · rename_i heq
        rw [heq.1, heq.2.1]
        exact hvalid group topic he
      · exact h.valid g t p hsome
    | lookup group topic partition => exact ⟨h.maps.right_lookup group topic partition, h⟩
    | list group => exact ⟨h.maps.list hscan walk group, h⟩
    | deleteGroup group =>
      refine keeps_update s walk (h.maps.deleteGroupEntries hscan group) fun g t p hsome => ?_
      change (if g = group then none else m g t p).isSome at hsome
      split at hsome
      · cases hsome
      · exact h.valid g t p hsome

/-- A name that JSON changes is not found again. -/
theorem lookup_reopened_wrong (hscan : scan.Reads) {g t : Bytes} (hg : NoNUL g) (ht : NoNUL t)
    (h : ¬ (ValidUTF8 g ∧ ValidUTF8 t)) : ¬ eventSpec.Follows .empty (trace (step J scan) ⟨[], ⟨none, none⟩⟩
      [.call .listed 0 (.commit g t 0 0), .reopen 0, .call .listed 0 (.lookup g t 0)]) := by
  have hsplit := splitKey_joinKey hscan hg ht 0
  let disk : OffsetFile δ := ⟨none, some (J.marshalIndent (snapshotLocked scan .listed [(joinKey g t 0, 0)]))⟩
  let entries : Entries := [(joinKey (toValidUTF8 g) (toValidUTF8 t) 0, 0)]
  have hcommit : step J scan ⟨[], ⟨none, none⟩⟩ (.call .listed 0 (.commit g t 0 0)) =
    (.done, ⟨[(joinKey g t 0, 0)], disk⟩) := rfl
  have hload : load J disk = some entries := by
    simp only [load, disk, J.unmarshal_marshal, snapshotLocked, Walk.listed, id, map_cons, hsplit]
    rfl
  have hreopen : step J scan ⟨[(joinKey g t 0, 0)], disk⟩ (.reopen 0) = (.done, ⟨entries, disk⟩) := by
    rw [step, hload]
  have hne : joinKey g t 0 ≠ joinKey (toValidUTF8 g) (toValidUTF8 t) 0 := by
    intro heq
    obtain ⟨hg', ht', -⟩ := (joinKey_inj hg ht).mp heq.symm
    exact h ⟨toValidUTF8_eq_self_iff.mp hg', toValidUTF8_eq_self_iff.mp ht'⟩
  have hnone : List.lookup (joinKey g t 0) entries = none := by
    rw [lookup_cons, beq_eq_false_iff_ne.mpr hne]
    rfl
  have hsome : Committed.empty.commit g t 0 0 g t 0 = some 0 := if_pos ⟨rfl, rfl, rfl⟩
  simp only [trace, hcommit, hreopen]
  rintro ⟨-, -, hlookup, -⟩
  change OffsetAnswer.offset ((List.lookup (joinKey g t 0) entries).getD noOffset) =
    .offset ((Committed.empty.commit g t 0 0 g t 0).getD noOffset) at hlookup
  rw [hnone, hsome] at hlookup
  cases hlookup

theorem implements_iff (hscan : scan.Reads) : Implements J scan names ↔ Plain names ∧ Valid names := by
  constructor
  · intro h
    have hplain : Plain names := by
      refine .of_lists hscan fun g t hnames => ?_
      have hfollows := h [.call .listed 0 (.commit g t 1 0), .call .listed 0 (.list g)]
        (by simp [OffsetEvent.Named, OffsetCall.Named, hnames])
      exact hfollows.2.1
    refine ⟨hplain, fun g t hnames => ?_⟩
    by_contra hinvalid
    obtain ⟨hg, ht⟩ := hplain g t hnames
    exact lookup_reopened_wrong hscan hg ht hinvalid (h _ (by simp [OffsetEvent.Named, OffsetCall.Named, hnames]))
  · rintro ⟨hplain, hvalid⟩ es hes
    have start : Keeps J scan ⟨[], ⟨none, none⟩⟩ .empty := by
      refine ⟨.empty, fun _ _ _ h => ?_, .inl ⟨rfl, rfl⟩⟩
      cases h
    exact Spec.follows_trace (step_right hscan hplain hvalid) start (.of_mem hes)

end JSONOffsetStore

/-! ### A topic -/

theorem Entries.nodup_replay (h : (Assoc.keys es).Nodup) (rs : List Record) :
    (Assoc.keys (rs.foldl replayRecord es)).Nodup := by
  induction rs generalizing es with
  | nil => exact h
  | cons r rs ih =>
    refine ih ?_
    unfold replayRecord
    split
    · exact Assoc.nodup_delete h _
    · exact Assoc.nodup_set h _ _

theorem stamp_commitRecord_norm (hk : k ≠ []) (o : Int) (now : Int64) (n : Int) :
    (stamp now n (commitRecord k o)).norm = stamp now n (commitRecord k o) := by
  obtain ⟨b, k, rfl⟩ := exists_cons_of_ne_nil hk
  rfl

theorem stamp_tombstone_norm (hk : k ≠ []) (now : Int64) (n : Int) :
    (stamp now n (tombstone k)).norm = stamp now n (tombstone k) := by
  obtain ⟨b, k, rfl⟩ := exists_cons_of_ne_nil hk
  rfl

theorem signed_toInt (o : Int64) : Signed 8 o.toInt := by
  have hlow := o.le_toInt
  have hhigh := o.toInt_lt
  constructor <;> omega

namespace TopicOffsetStore

variable {σ : Type} [Store σ] [Contract σ]

/-- The topic replays to the entries. -/
def Shown (store : σ) (p : PartitionRef) (es : Entries) : Prop :=
  ∃ c, Contract.Rep store c ∧ Numbered (c p) ∧ ∀ k, List.lookup k ((c p).foldl Entries.replayRecord []) = List.lookup k es

variable {store : σ} {p : PartitionRef} {es : Entries} {now : Int64}

section
variable (h : Shown store p es)
include h

theorem Shown.append {r : Record} (hnorm : ∀ n, (stamp now n r).norm = stamp now n r) (fits : Fits store now p r)
    (hes' : ∀ k, List.lookup k es' = if k = r.key.bytes then r.value.map decodeOffsetValue else List.lookup k es) :
    ∃ n store', Store.append store .background now p r = (.ok n, store') ∧ Shown store' p es' := by
  obtain ⟨c, rep, numbered, hlookup⟩ := h
  obtain ⟨store', happend, rep'⟩ := Contract.append rep now (fits.room rep)
  rw [Contract.view_of_norm (hnorm _)] at rep'
  refine ⟨_, store', happend, _, rep', ?_, fun k => ?_⟩
  · rw [Contents.append_self]
    exact numbered.concat rfl
  · rw [Contents.append_self, foldl_concat, Entries.lookup_replayRecord, hlookup, hes']
    rfl

theorem Shown.commit (hk : k ≠ []) (o : Int64) (fits : Fits store now p (commitRecord k o.toInt)) :
    ∃ n store', Store.append store .background now p (commitRecord k o.toInt) = (.ok n, store') ∧
      Shown store' p (es.set k o.toInt) := by
  refine h.append (fun n => stamp_commitRecord_norm hk o.toInt now n) fits fun k' => ?_
  rw [Entries.lookup_set]
  change _ = if k' = k then some (decodeOffsetValue (encodeOffsetValue o.toInt)) else _
  rw [Entries.decodeOffsetValue_encode (signed_toInt o)]

theorem Shown.tombstone (hk : k ≠ []) (fits : Fits store now p (tombstone k)) :
    ∃ n store', Store.append store .background now p (tombstone k) = (.ok n, store') ∧ Shown store' p (es.delete k) :=
  h.append (fun n => stamp_tombstone_norm hk now n) fits fun k' => Entries.lookup_delete es k' k

end

def TombstonesRoom (p : PartitionRef) (now : Int64) : σ → List Bytes → Prop
  | _, [] => True
  | store, k :: rest => Fits store now p (Concurrent.tombstone k) ∧
      TombstonesRoom p now (Store.append store .background now p (Concurrent.tombstone k)).2 rest

theorem Shown.tombstones {keys : List Bytes} (h : Shown store p es) (hkeys : ∀ k ∈ keys, k ≠ [])
    (room : TombstonesRoom p now store keys) :
    ∃ store', appendTombstones p now store keys = (.ok (), store') ∧ Shown store' p (keys.foldl Entries.delete es) := by
  induction keys generalizing store es with
  | nil => exact ⟨store, rfl, h⟩
  | cons k keys ih =>
    obtain ⟨n, store', happend, hshown⟩ := h.tombstone (hkeys k mem_cons_self) room.1
    have hrest := room.2
    rw [happend] at hrest
    obtain ⟨store'', hall, hshown'⟩ := ih hshown (fun x hx => hkeys x (mem_cons_of_mem k hx)) hrest
    exact ⟨store'', by simp only [appendTombstones, happend, hall], hshown'⟩

structure Keeps (s : TopicOffsetStore × σ) (m : Committed) : Prop where
  maps : s.1.entries.Maps m
  shown : Shown s.2 s.1.pref s.1.entries

/-- An append has room, and a reopening more reads than there are records. -/
def Fit (scan : Scan) (s : TopicOffsetStore × σ) : OffsetEvent → Prop
  | .call _ now (.commit group topic partition offset) =>
    Fits s.2 now s.1.pref (commitRecord (joinKey group topic partition) offset.toInt)
  | .call walk now (.deleteGroup group) => TombstonesRoom s.1.pref now s.2 (s.1.walkedKeys scan walk group)
  | .call _ _ (.lookup ..) | .call _ _ (.list _) => True
  | .reopen fuel => ∀ rs, contents s.2 s.1.pref = .ok rs → rs.length < fuel

/-- On these names, every run of calls and restarts that finds room is one of a map. -/
def Implements (scan : Scan) (restart : σ → σ) (topic : Bytes) (store : σ) (names : Bytes → Bytes → Prop) : Prop :=
  ∀ es : List OffsetEvent, (∀ e ∈ es, e.Named names) → Along (fun s e => (step scan restart s e).2)
    (⟨topic, []⟩, store) es (Fit scan) → eventSpec.Follows .empty (trace (step scan restart) (⟨topic, []⟩, store) es)

variable {scan : Scan} {restart : σ → σ} {names : Bytes → Bytes → Prop} {s : TopicOffsetStore × σ} {m : Committed}

theorem walkedKeys_perm (o : TopicOffsetStore) (scan : Scan) (walk : Walk) (group : Bytes) :
    (o.walkedKeys scan walk group).Perm (o.keysOf (fun k => (scan.key k).1) group) :=
      ((walk.perm o.entries).map Prod.fst).filter _

theorem nodup_deleteAll (h : (Assoc.keys es).Nodup) (keys : List Bytes) :
    (Assoc.keys (keys.foldl Entries.delete es)).Nodup := by
  induction keys generalizing es with
  | nil => exact h
  | cons k keys ih => exact ih (Assoc.nodup_delete h k)

theorem Keeps.deleteGroup (h : Keeps s m) (walk : Walk) {now : Int64}
    (room : TombstonesRoom s.1.pref now s.2 (s.1.walkedKeys scan walk group)) :
    ∃ s', s.1.deleteGroup s.2 now (s.1.walkedKeys scan walk group) = (.ok (), s') ∧ Keeps s' (m.deleteGroup group) := by
  have hkeys : ∀ k ∈ s.1.walkedKeys scan walk group, k ≠ [] := by
    intro k hk
    have hmem := mem_of_mem_filter ((walkedKeys_perm s.1 scan walk group).mem_iff.mp hk)
    obtain ⟨g, t, p, -, -, rfl⟩ := h.maps.named k (Entries.mem_keys.mp hmem)
    exact joinKey_ne_nil g t p
  obtain ⟨store', hall, hshown⟩ := h.shown.tombstones hkeys room
  refine ⟨(⟨s.1.topic, _⟩, store'), by rw [TopicOffsetStore.deleteGroup, hall], ⟨?_, ?_⟩, hshown⟩
  · exact h.maps.toRecords.deleteGroup (walkedKeys_perm s.1 scan walk group)
  · exact nodup_deleteAll h.maps.nodup _

theorem Keeps.reopen [Replays σ] (h : Keeps s m)
    (hrestart : ∀ store c, Contract.Rep store c → Contract.Rep (restart store) c) {fuel : Nat}
    (hfuel : ∀ rs, contents s.2 s.1.pref = .ok rs → rs.length < fuel) :
    ∃ s', openStore s.1.topic fuel (restart s.2) = some (.ok s'.1, s'.2) ∧ Keeps s' m := by
  obtain ⟨c, rep, numbered, hlookup⟩ := h.shown
  have hlen := hfuel _ (Contract.contents_eq rep s.1.pref)
  obtain ⟨store', hreplay, rep'⟩ := Replays.replay Entries.replayRecord (hrestart _ _ rep) numbered hlen []
  refine ⟨(⟨s.1.topic, (c s.1.pref).foldl Entries.replayRecord []⟩, store'), ?_,
    ⟨⟨fun g t p => ?_, fun k hk => ?_⟩, ?_⟩, c, rep', numbered, fun _ => rfl⟩
  · change Option.map _ (replay Entries.replayRecord s.1.pref fuel 0 (restart s.2) []) = _
    rw [hreplay]
    rfl
  · rw [hlookup, h.maps.lookup]
  · rw [hlookup] at hk
    exact h.maps.named k hk
  · have hnil : (Assoc.keys ([] : Entries)).Nodup := nodup_nil
    exact Entries.nodup_replay hnil _

section
variable [Replays σ] (hscan : scan.Reads) (hrestart : ∀ store c, Contract.Rep store c → Contract.Rep (restart store) c)
include hscan hrestart

theorem step_right (hplain : Plain names)
    (s : TopicOffsetStore × σ) (m : Committed) (e : OffsetEvent) (h : Keeps s m) (he : e.Named names ∧ Fit scan s e) :
    eventSpec.right m e (step scan restart s e).1 ∧ Keeps (step scan restart s e).2 (eventSpec.next m e) := by
  cases e with
  | reopen fuel =>
    obtain ⟨s', hopen, hkeeps⟩ := h.reopen hrestart he.2
    rw [step, hopen]
    exact ⟨rfl, hkeeps⟩
  | call walk now c =>
    cases c with
    | commit group topic partition offset =>
      obtain ⟨hg, ht⟩ := hplain group topic he.1
      obtain ⟨n, store', happend, hshown⟩ := h.shown.commit (joinKey_ne_nil group topic partition) offset he.2
      rw [step, commit, happend]
      exact ⟨rfl, h.maps.commit hg ht partition offset.toInt, hshown⟩
    | lookup group topic partition => exact ⟨h.maps.right_lookup group topic partition, h⟩
    | list group => exact ⟨h.maps.list hscan walk group, h⟩
    | deleteGroup group =>
      obtain ⟨s', hdelete, hkeeps⟩ := h.deleteGroup walk he.2
      rw [step, hdelete]
      exact ⟨rfl, hkeeps⟩

theorem implements_iff
    {c : Contents} (rep : Contract.Rep store c) (hempty : c ⟨topic, 0⟩ = [])
    (hfits : ∀ g t, names g t → Fits store 0 ⟨topic, 0⟩ (commitRecord (joinKey g t 1) 0)) :
      Implements scan restart topic store names ↔ Plain names := by
  have start : Keeps (⟨topic, []⟩, store) .empty := by
    refine ⟨.empty, c, rep, ?_, fun k => ?_⟩
    · change Numbered (c ⟨topic, 0⟩)
      rw [hempty]
      exact nofun
    · change List.lookup k ((c ⟨topic, 0⟩).foldl _ _) = _
      rw [hempty]
      rfl
  constructor
  · intro h
    refine .of_lists hscan fun g t hnames => ?_
    obtain ⟨n, store', happend, -⟩ := start.shown.commit (joinKey_ne_nil g t 1) 0 (hfits g t hnames)
    have hcommit : step scan restart (⟨topic, []⟩, store) (.call .listed 0 (.commit g t 1 0)) =
        (.done, (⟨topic, [(joinKey g t 1, 0)]⟩, store')) := by
      rw [step, commit, happend]
      rfl
    have hfollows := h [.call .listed 0 (.commit g t 1 0), .call .listed 0 (.list g)]
      (by simp [OffsetEvent.Named, OffsetCall.Named, hnames]) (.cons (hfits g t hnames) (.cons trivial .nil))
    simp only [trace, hcommit] at hfollows
    exact hfollows.2.1
  · intro hplain es hes hfit
    exact Spec.follows_trace (step_right hscan hrestart hplain) start ((Along.of_mem hes).and hfit)

end

end TopicOffsetStore

/-! ### The three stores -/

/-- A store of committed offsets is a map of the triples exactly if no name with a NUL is committed, and in a JSON file
    no name that is not valid UTF-8. The topic is empty at the start, on a store that keeps what was appended and has
    room for each commit at the start. -/
theorem offset_stores_map_iff {scan : Scan} (hscan : scan.Reads) {δ : Type} (J : OffsetJson δ) {σ : Type} [Store σ]
    [Contract σ] [Replays σ]
    {restart : σ → σ} (hrestart : ∀ store c, Contract.Rep store c → Contract.Rep (restart store) c) {topic : Bytes}
      {store : σ} {c : Contents}
    (rep : Contract.Rep store c) (hempty : c ⟨topic, 0⟩ = []) {names : Bytes → Bytes → Prop}
    (hfits : ∀ g t, names g t → Fits store 0 ⟨topic, 0⟩ (commitRecord (joinKey g t 1) 0)) :
    (MemoryOffsetStore.Implements scan names ↔ Plain names) ∧
      (JSONOffsetStore.Implements J scan names ↔ Plain names ∧ JSONOffsetStore.Valid names) ∧
      (TopicOffsetStore.Implements scan restart topic store names ↔ Plain names) :=
  ⟨MemoryOffsetStore.implements_iff hscan, JSONOffsetStore.implements_iff hscan,
    TopicOffsetStore.implements_iff hscan hrestart rep hempty hfits⟩

def digitsValue (ds : Bytes) : Nat := Nat.ofDigits 10 (ds.reverse.map fun d => d.toNat - 48)

def readDecimal : Bytes → Int
  | 45 :: ds => -digitsValue ds
  | ds => digitsValue ds

theorem readDecimal_decimal (x : Int) : readDecimal (decimal x) = x := by
  obtain ⟨ds, hx, -, hds, hvalue⟩ := decimal_eq x
  change digitsValue ds = x.natAbs at hvalue
  rw [hx]
  split
  · change -digitsValue ds = x
    omega
  · have hread : readDecimal ds = digitsValue ds := by
      unfold readDecimal
      split
      · exact absurd (hds 45 mem_cons_self).1 (by decide)
      · rfl
    rw [nil_append]
    omega

def Scan.printed : Scan := ⟨fun k => (k, [], 0), fun b => Int32.ofInt (readDecimal b)⟩

theorem Scan.printed_reads : Scan.printed.Reads := by
  refine ⟨fun p => ?_, fun _ => rfl⟩
  change Int32.ofInt (readDecimal (decimal p.toInt)) = p
  rw [readDecimal_decimal, Int32.ofInt_toInt]

def OffsetJson.listed : OffsetJson (List OffsetKey) := ⟨List.map OffsetKey.valid, some, fun _ => rfl⟩

theorem offset_stores_map_iff_one : Scan.printed.Reads ∧
    MemoryOffsetStore.Implements .printed (fun g t => g = utf8 "g" ∧ t = utf8 "t") ∧
      JSONOffsetStore.Implements .listed .printed (fun g t => g = utf8 "g" ∧ t = utf8 "t") ∧
      TopicOffsetStore.Implements .printed id defaultOffsetsTopic MemoryStore.new (fun g t => g = utf8 "g" ∧ t = utf8 "t") := by
  have hplain : Plain fun g t => g = utf8 "g" ∧ t = utf8 "t" := by
    rintro g t ⟨rfl, rfl⟩
    decide
  have hvalid : JSONOffsetStore.Valid fun g t => g = utf8 "g" ∧ t = utf8 "t" := by
    rintro g t ⟨rfl, rfl⟩
    decide
  have rep : Contract.Rep MemoryStore.new fun _ => [] := fun _ => rfl
  obtain ⟨hmemory, hjson, htopic⟩ := offset_stores_map_iff Scan.printed_reads .listed (fun _ _ rep => rep) rep
    rfl fun _ _ _ _ _ _ => trivial
  exact ⟨Scan.printed_reads, hmemory.mpr hplain, hjson.mpr ⟨hplain, hvalid⟩, htopic.mpr hplain⟩

/-- What group a committed for topic b\0c is found for group a\0b and topic c. -/
theorem lookup_finds_other_group : ¬ callSpec.Follows .empty (trace (MemoryOffsetStore.step .printed) ⟨[]⟩
    [(.listed, .commit [97] [98, 0, 99] 0 5), (.listed, .lookup [97, 0, 98] [99] 0)]) := by
  rintro ⟨-, hlookup, -⟩
  have hright : OffsetAnswer.offset 5 = .offset (-1) := hlookup
  exact absurd hright (by decide)

end Holocron.Groups

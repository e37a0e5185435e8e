import Holocron.Groups.ConcurrentOffsets
import Holocron.Theorems.Groups.OffsetStores

/-! A store opened again has the entries of the live one if no call overtakes another between its two writes. -/

namespace Holocron.Groups
open Lib Log Storage Concurrent List

/-! ### A JSON file -/

variable {i : Nat} {c c' : Stage} {walk : Walk}

namespace JSONOffsetStore

namespace Stage

def number : Stage → Option Nat
  | .called _ => none
  | .snapped n _ | .written n | .returned n | .failed n => some n

def wrote : Stage → Option Nat
  | .called _ | .snapped _ _ => none
  | .written n | .returned n | .failed n => some n

/-- The call has succeeded. -/
def Returned : Stage → Prop
  | .returned _ => True
  | _ => False

end Stage

def Storable (group topic : Bytes) : Prop := (NoNUL group ∧ NoNUL topic) ∧ ValidUTF8 group ∧ ValidUTF8 topic

/-- Names are storable, and a call writes its copy before any call that took one later. -/
def InOrder {δ : Type} (s : State δ) : Action → Prop
  | .call (.commit group topic _ _) => Storable group topic
  | .call (.deleteGroup _) => True
  | .run _ i => ∀ n snapshot, s.calls[i]? = some (.snapped n snapshot) → ∀ (j : Nat) (c : Stage) (n' : Nat),
      s.calls[j]? = some c → c.wrote = some n' → n' < n

section

variable {δ : Type} (J : OffsetJson δ) (scan : Scan)

def Doc (entries : Entries) (d : δ) : Prop := ∃ es, es.Perm entries ∧ d = J.marshalIndent (snapshotLocked scan .listed es)

def Fresh (entries : Entries) (disk : OffsetFile δ) : Stage → Prop
  | .called _ | .failed _ => True
  | .snapped _ snapshot => Doc J scan entries (J.marshalIndent snapshot)
  | .written _ => ∃ d, Doc J scan entries d ∧ (disk.tmp = some d ∨ disk.tmp = none ∧ disk.file = some d)
  | .returned _ => ∃ d, Doc J scan entries d ∧ disk.tmp = none ∧ disk.file = some d

structure Ordered (s : State δ) : Prop where
  maps : ∃ m, s.entries.Maps m ∧ ∀ g t p, (m g t p).isSome → ValidUTF8 g ∧ ValidUTF8 t
  storable {i : Nat} {g t : Bytes} {p : Int32} {o : Int64} : s.calls[i]? = some (.called (.commit g t p o)) → Storable g t
  bound {i : Nat} {c : Stage} {n : Nat} : s.calls[i]? = some c → c.number = some n → n < s.updates
  start : s.updates = 0 → s.disk.file = none ∧ s.entries = [] ∨ ∃ d, Doc J scan s.entries d ∧ s.disk.file = some d
  last : 0 < s.updates → ∃ (i : Nat) (c : Stage), s.calls[i]? = some c ∧ c.number = some (s.updates - 1) ∧
    Fresh J scan s.entries s.disk c

end

variable {δ : Type} {J : OffsetJson δ} {scan : Scan} {s : State δ}

theorem Ordered.apply (hscan : scan.Reads) (h : Ordered J scan s) {u : OffsetUpdate} (hi : s.calls[i]? = some (.called u)) :
    ∃ m, (apply scan s.entries u).Maps m ∧ ∀ g t p, (m g t p).isSome → ValidUTF8 g ∧ ValidUTF8 t := by
  obtain ⟨m, hmaps, hvalid⟩ := h.maps
  cases u with
  | commit group topic partition offset =>
    obtain ⟨⟨hg, ht⟩, hnames⟩ := h.storable hi
    refine ⟨_, hmaps.commit hg ht partition offset.toInt, fun g t p hsome => ?_⟩
    unfold Committed.commit at hsome
    split at hsome
    · rename_i heq
      rw [heq.1, heq.2.1]
      exact hnames
    · exact hvalid g t p hsome
  | deleteGroup group =>
    refine ⟨_, hmaps.deleteGroupEntries hscan group, fun g t p hsome => ?_⟩
    unfold Committed.deleteGroup at hsome
    split at hsome
    · cases hsome
    · exact hvalid g t p hsome

section
variable {entries : Entries} {disk disk' : OffsetFile δ} (h : Fresh J scan entries disk c)
include h

theorem Fresh.of_not_wrote (hc : c.wrote = none) :
    Fresh J scan entries disk' c := by
  cases c with
  | called u => trivial
  | snapped n snapshot => exact h
  | written n => cases hc
  | returned n => cases hc
  | failed n => cases hc

/-- A rename moves the entries to the file, or finds that they are there. -/
theorem Fresh.rename
    (hrename : disk.rename = some disk') :
    Fresh J scan entries disk' c := by
  obtain ⟨x, htmp, rfl⟩ := Option.map_eq_some_iff.mp hrename
  cases c with
  | called u => trivial
  | snapped n snapshot => exact h
  | written n =>
    obtain ⟨d, hd, hdisk⟩ := h
    rcases hdisk with hdisk | ⟨hnone, -⟩
    · cases htmp.symm.trans hdisk
      exact ⟨x, hd, .inr ⟨rfl, rfl⟩⟩
    · cases htmp.symm.trans hnone
  | returned n =>
    obtain ⟨d, -, hnone, -⟩ := h
    cases htmp.symm.trans hnone
  | failed n => trivial

end

/-- One call moves on under the same map: the others stay, and the last call under the lock still has the entries. -/
theorem Ordered.move (h : Ordered J scan s) {disk : OffsetFile δ} (hi : s.calls[i]? = some c)
    (hnumber : c'.number = c.number) (hsome : c.number ≠ none)
      (hself : Fresh J scan s.entries s.disk c → Fresh J scan s.entries disk c')
    (hothers : ∀ (j : Nat) x, s.calls[j]? = some x → x.number = some (s.updates - 1) → Fresh J scan s.entries s.disk x →
      Fresh J scan s.entries disk x) :
    Ordered J scan { s with disk := disk, calls := s.calls.set i c' } := by
  have hlt : i < s.calls.length := (List.getElem?_eq_some_iff.mp hi).1
  obtain ⟨n, hn⟩ := Option.ne_none_iff_exists'.mp hsome
  have hpos : 0 < s.updates := Nat.zero_lt_of_lt (h.bound hi hn)
  refine ⟨h.maps, fun hj => ?_, fun hj hnum => ?_, fun hzero => absurd hzero (Nat.ne_of_gt hpos), fun _ => ?_⟩
  · rcases of_getElem?_set hj with ⟨-, rfl⟩ | ⟨-, hj⟩
    · rw [hn] at hnumber
      cases hnumber
    · exact h.storable hj
  · rcases of_getElem?_set hj with ⟨-, rfl⟩ | ⟨-, hj⟩
    · exact h.bound hi (hnumber ▸ hnum)
    · exact h.bound hj hnum
  · obtain ⟨j, x, hj, hlast, hfresh⟩ := h.last hpos
    by_cases hij : j = i
    · subst hij
      cases hi.symm.trans hj
      exact ⟨j, c', List.getElem?_set_self hlt, hnumber.trans hlast, hself hfresh⟩
    · exact ⟨j, x, by rw [List.getElem?_set_ne (Ne.symm hij)]; exact hj, hlast, hothers j x hj hlast hfresh⟩

theorem Ordered.advance (hscan : scan.Reads) (h : Ordered J scan s) (hi : s.calls[i]? = some c)
    (order : InOrder s (.run walk i)) : Ordered J scan (s.advance J scan walk i c) := by
  have hlt : i < s.calls.length := (List.getElem?_eq_some_iff.mp hi).1
  cases c with
  | called u =>
    refine ⟨h.apply hscan hi, fun hj => ?_, fun hj hnum => ?_, nofun, fun _ => ⟨i, _, List.getElem?_set_self hlt, rfl, ?_⟩⟩
    · rcases of_getElem?_set hj with ⟨-, heq⟩ | ⟨-, hj⟩
      · cases heq
      · exact h.storable hj
    · rcases of_getElem?_set hj with ⟨-, rfl⟩ | ⟨-, hj⟩
      · cases hnum
        exact Nat.lt_succ_self _
      · exact Nat.lt_succ_of_lt (h.bound hj hnum)
    · exact ⟨walk.order _, walk.perm _, rfl⟩
  | snapped n snapshot =>
    refine h.move hi rfl nofun (fun hfresh => ⟨_, hfresh, .inl rfl⟩) fun j x hj hlast hfresh => hfresh.of_not_wrote ?_
    -- Had the last call written, this one would come too late.
    by_contra hwrote
    obtain ⟨n', hn'⟩ := Option.ne_none_iff_exists'.mp hwrote
    have hlate := order n snapshot hi j x n' hj hn'
    have hsame : n' = s.updates - 1 := by
      cases x with
      | called u => cases hn'
      | snapped k snap => cases hn'
      | written k | returned k | failed k => exact Option.some.inj (hn'.symm.trans hlast)
    have hbound := h.bound hi rfl
    omega
  | written n =>
    rw [State.advance]
    cases hrename : s.disk.rename with
    | none => exact h.move hi rfl nofun (fun _ => trivial) fun _ _ _ _ hfresh => hfresh
    | some disk =>
      refine h.move hi rfl nofun (fun hfresh => ?_) fun _ _ _ _ hfresh => hfresh.rename hrename
      obtain ⟨d, hd, hdisk⟩ := hfresh
      obtain ⟨x, htmp, rfl⟩ := Option.map_eq_some_iff.mp hrename
      rcases hdisk with hdisk | ⟨hnone, -⟩
      · cases htmp.symm.trans hdisk
        exact ⟨_, hd, rfl, rfl⟩
      · cases htmp.symm.trans hnone
  | returned n => exact h
  | failed n => exact h

theorem Ordered.step (hscan : scan.Reads) (h : Ordered J scan s) (a : Action) (order : InOrder s a) :
    Ordered J scan (s.step J scan a) := by
  cases a with
  | call u =>
    refine ⟨h.maps, fun hj => ?_, fun hj hnum => ?_, h.start, fun hpos => ?_⟩
    · rcases of_getElem?_concat hj with hj | ⟨-, heq⟩
      · exact h.storable hj
      · cases heq
        exact order
    · rcases of_getElem?_concat hj with hj | ⟨-, rfl⟩
      · exact h.bound hj hnum
      · cases hnum
    · obtain ⟨i, c, hi, hlast, hfresh⟩ := h.last hpos
      have hlt : i < s.calls.length := (List.getElem?_eq_some_iff.mp hi).1
      exact ⟨i, c, (List.getElem?_append_left hlt).trans hi, hlast, hfresh⟩
  | run walk i =>
    rw [State.step]
    cases hi : s.calls[i]? with
    | none => exact h
    | some c => exact h.advance hscan hi order

/-- The file loads to what is live. -/
def State.Durable (J : OffsetJson δ) (s : State δ) : Prop := ∃ es, load J s.disk = some es ∧ ∀ k,
    List.lookup k es = List.lookup k s.entries

theorem Ordered.durable (hscan : scan.Reads) (h : Ordered J scan s) (hall : ∀ c ∈ s.calls, c.Returned) : s.Durable J := by
  obtain ⟨m, hmaps, hvalid⟩ := h.maps
  have hdoc : s.disk.file = none ∧ s.entries = [] ∨ ∃ d, Doc J scan s.entries d ∧ s.disk.file = some d := by
    rcases Nat.eq_zero_or_pos s.updates with hzero | hpos
    · exact h.start hzero
    · obtain ⟨i, c, hi, -, hfresh⟩ := h.last hpos
      have hreturned := hall c (mem_of_getElem? hi)
      cases c with
      | returned n =>
        obtain ⟨d, hd, -, hfile⟩ := hfresh
        exact .inr ⟨d, hd, hfile⟩
      | called u | snapped n snapshot | written n | failed n => exact hreturned.elim
  rcases hdoc with ⟨hfile, hentries⟩ | ⟨d, ⟨es, hperm, rfl⟩, hfile⟩
  · exact ⟨[], by rw [load, hfile], fun k => by rw [hentries]⟩
  · refine ⟨es.reverse, load_snapshot hscan (hmaps.perm hperm) hvalid hfile, fun k => ?_⟩
    exact Assoc.get_perm ((reverse_perm es).trans hperm) hmaps.nodup k

theorem Keeps.ordered {m : Committed} (h : Keeps J scan ⟨s.entries, s.disk⟩ m) (hcalls : s.calls = [])
    (hzero : s.updates = 0) : Ordered J scan s := by
  have hnone {i : Nat} {c : Stage} (hi : s.calls[i]? = some c) : False := by
    rw [hcalls] at hi
    cases hi
  refine ⟨⟨m, h.maps, h.valid⟩, fun hi => (hnone hi).elim, fun hi => (hnone hi).elim, fun _ => ?_,
    fun hpos => absurd hzero (Nat.ne_of_gt hpos)⟩
  rcases h.file with hfile | ⟨es, hperm, hfile⟩
  · exact .inl hfile
  · exact .inr ⟨_, ⟨es, hperm, rfl⟩, hfile⟩

end JSONOffsetStore

/-! ### Rows of a topic -/

namespace TopicOffsetStore

def rowOf (r : Record) : Row := (Slice.bytes r.key, r.value.map decodeOffsetValue)

theorem replayRecord_eq (es : Entries) (r : Record) : es.replayRecord r = applyRow es (rowOf r) := by
  unfold Entries.replayRecord rowOf
  cases r.value <;> rfl

theorem foldl_replayRecord (rs : List Record) (es : Entries) :
    rs.foldl Entries.replayRecord es = (rs.map rowOf).foldl applyRow es := by
  rw [foldl_map]
  exact foldl_ext _ _ _ fun es r _ => replayRecord_eq es r

theorem lookup_applyRow (es : Entries) (r : Row) (k : Bytes) : List.lookup k (applyRow es r) = if k = r.1 then r.2
    else List.lookup k es := by
  unfold applyRow
  cases h : r.2 with
  | none => exact Entries.lookup_delete es k r.1
  | some o => exact Entries.lookup_set es k r.1 o

theorem lookup_applyRows_other {rows : List Row} {k : Bytes} (h : ∀ r ∈ rows, r.1 ≠ k) (es : Entries) :
    List.lookup k (rows.foldl applyRow es) = List.lookup k es := by
  induction rows generalizing es with
  | nil => rfl
  | cons r rows ih =>
    rw [foldl_cons, ih fun x hx => h x (mem_cons_of_mem r hx), lookup_applyRow, if_neg (Ne.symm (h r mem_cons_self))]

variable {r : Row}

theorem lookup_applyRows_last {before after : List Row} (h : ∀ x ∈ after, x.1 ≠ r.1) (es : Entries) :
    List.lookup r.1 ((before ++ r :: after).foldl applyRow es) = r.2 := by
  rw [foldl_append, foldl_cons, lookup_applyRows_other h, lookup_applyRow, if_pos rfl]

structure Row.Sound (r : Row) : Prop where
  key : r.1 ≠ []
  offset : ∀ o, r.2 = some o → Signed 8 o

theorem Row.Sound.norm (h : r.Sound) (now : Int64) (n : Int) :
    (stamp now n (rowRecord r)).norm = stamp now n (rowRecord r) := by
  unfold rowRecord
  split
  · exact stamp_tombstone_norm h.key now n
  · exact stamp_commitRecord_norm h.key _ now n

theorem Row.Sound.rowOf (h : r.Sound) (now : Int64) (n : Int) : rowOf (stamp now n (rowRecord r)) = r := by
  obtain ⟨k, v⟩ := r
  cases v with
  | none => rfl
  | some o =>
    change (k, some (decodeOffsetValue (encodeOffsetValue o))) = _
    rw [Entries.decodeOffsetValue_encode (h.offset o rfl)]

/-! ### Calls on a topic -/

namespace Stage

def done : Stage → List (Row × Int)
  | .deleting _ => []
  | .appending done _ | .returned done | .failed done => done

def todo : Stage → List Row
  | .appending _ todo => todo
  | _ => []

/-- The call has succeeded. -/
def Returned : Stage → Prop
  | .returned _ => True
  | _ => False

end Stage

variable {σ : Type} [Store σ] [Contract σ] {s : State σ}

def Applied (s : State σ) (r : Row) (n : Int) : Prop := ∃ (i : Nat) (done : List (Row × Int)),
    s.calls[i]? = some (.returned done) ∧ (r, n) ∈ done

/-- The record that is appended finds room. -/
def HasRoom (s : State σ) : Action → Prop
  | .call _ => True
  | .run _ now i => ∀ done r todo, s.calls[i]? = some (.appending done (r :: todo)) → Fits s.store now s.pref (rowRecord r)

/-- Rows are taken into the map after those of the same key that were appended before them. -/
def InOrder (s : State σ) : Action → Prop
  | .call _ => True
  | .run _ _ i => ∀ done, s.calls[i]? = some (.appending done []) → ∀ x ∈ done, ∀ r n, Applied s r n → r.1 = x.1.1 → n < x.2

structure Ordered (start rows : List Row) (s : State σ) : Prop where
  rep : ∃ c, Contract.Rep s.store c ∧ Numbered (c s.pref) ∧ (c s.pref).map rowOf = start ++ rows
  named : ∀ k, (List.lookup k s.entries).isSome → k ≠ []
  sound {i : Nat} {c : Stage} : s.calls[i]? = some c → (∀ r ∈ c.todo, r.Sound) ∧ ∀ x ∈ c.done, x.1.1 ≠ []
  placed {i : Nat} {c : Stage} : s.calls[i]? = some c → ∀ x ∈ c.done, ∃ j : Nat, x.2 = start.length + j ∧ rows[j]? = some x.1
  covered {j : Nat} {r : Row} : rows[j]? = some r → ∃ (i : Nat) (c : Stage), s.calls[i]? = some c ∧
    (r, (start.length + j : Int)) ∈ c.done
  ascending {i : Nat} {c : Stage} : s.calls[i]? = some c → c.done.Pairwise fun x y => x.2 < y.2
  settled : ∀ k, (∀ r n, Applied s r n → r.1 ≠ k) ∧ List.lookup k s.entries = List.lookup k (start.foldl applyRow []) ∨
    ∃ r n, Applied s r n ∧ r.1 = k ∧ List.lookup k s.entries = r.2 ∧ ∀ r' n', Applied s r' n' → r'.1 = k → n' ≤ n

namespace Ordered

variable {start rows : List Row} {s : State σ} {scan : Scan} {store : σ}

omit [Store σ] [Contract σ] in
theorem applied_set (hi : s.calls[i]? = some c) (hc : ∀ done, c ≠ .returned done)
    (hc' : ∀ done, c' ≠ .returned done) (r : Row) (n : Int) :
    Applied { s with store := store, calls := s.calls.set i c' } r n ↔ Applied s r n := by
  constructor
  · rintro ⟨j, done, hj, hmem⟩
    rcases of_getElem?_set hj with ⟨-, heq⟩ | ⟨-, hj⟩
    · exact absurd heq.symm (hc' done)
    · exact ⟨j, done, hj, hmem⟩
  · rintro ⟨j, done, hj, hmem⟩
    refine ⟨j, done, ?_, hmem⟩
    by_cases hij : i = j
    · subst hij
      exact absurd (Option.some.inj (hi.symm.trans hj)) (hc done)
    · exact (getElem?_set_ne hij).trans hj

/-- What the calls have appended, after one of them has got a new stage that keeps what it had appended. -/
theorem covered_set (h : Ordered start rows s) (hi : s.calls[i]? = some c) (hdone : ∀ x ∈ c.done, x ∈ c'.done) {j : Nat}
    (hj : rows[j]? = some r) : ∃ (k : Nat) (x : Stage), (s.calls.set i c')[k]? = some x ∧
      (r, (start.length + j : Int)) ∈ x.done := by
  have hlt : i < s.calls.length := (List.getElem?_eq_some_iff.mp hi).1
  obtain ⟨k, x, hk, hmem⟩ := h.covered hj
  by_cases hik : i = k
  · subst hik
    cases hi.symm.trans hk
    exact ⟨i, c', List.getElem?_set_self hlt, hdone _ hmem⟩
  · exact ⟨k, x, (List.getElem?_set_ne hik).trans hk, hmem⟩

theorem found (h : Ordered start rows s) {group : Bytes} (hi : s.calls[i]? = some (.deleting group)) {keys : List Bytes}
    (hkeys : ∀ k ∈ keys, k ≠ []) :
      Ordered start rows { s with calls := s.calls.set i (.appending [] (keys.map fun k => (k, none))) } := by
  refine ⟨h.rep, h.named, fun hj => ?_, fun hj => ?_, fun hj => h.covered_set hi (fun _ hx => by cases hx) hj, fun hj => ?_, ?_⟩
  · rcases of_getElem?_set hj with ⟨-, rfl⟩ | ⟨-, hj⟩
    · refine ⟨fun r hr => ?_, nofun⟩
      obtain ⟨k, hk, rfl⟩ := mem_map.mp hr
      exact ⟨hkeys k hk, nofun⟩
    · exact h.sound hj
  · rcases of_getElem?_set hj with ⟨-, rfl⟩ | ⟨-, hj⟩
    · exact nofun
    · exact h.placed hj
  · rcases of_getElem?_set hj with ⟨-, rfl⟩ | ⟨-, hj⟩
    · exact Pairwise.nil
    · exact h.ascending hj
  · have happlied (r : Row) (n : Int) :
      Applied { s with calls := s.calls.set i (.appending [] (keys.map fun k => (k, none))) } r n ↔ Applied s r n :=
      applied_set hi (fun _ h => by cases h) (fun _ h => by cases h) r n
    simp only [happlied]
    exact h.settled

variable {done : List (Row × Int)}

theorem appended (h : Ordered start rows s) {todo : List Row} (hi : s.calls[i]? = some (.appending done (r :: todo)))
    (rep : ∃ c, Contract.Rep store c ∧ Numbered (c s.pref) ∧ (c s.pref).map rowOf = start ++ (rows ++ [r])) :
    Ordered start (rows ++ [r])
      { s with store := store, calls :=
        s.calls.set i (.appending (done ++ [(r, (start.length + rows.length : Int))]) todo) } := by
  have hlt : i < s.calls.length := (List.getElem?_eq_some_iff.mp hi).1
  have hold {x : Row × Int} : (∃ j : Nat, x.2 = start.length + j ∧ rows[j]? = some x.1) → ∃ j :
      Nat, x.2 = start.length + j ∧ (rows ++ [r])[j]? = some x.1 := by
    rintro ⟨j, hx, hj⟩
    exact ⟨j, hx, (List.getElem?_append_left (List.getElem?_eq_some_iff.mp hj).1).trans hj⟩
  obtain ⟨hsound, hnamed⟩ := h.sound hi
  refine ⟨rep, h.named, fun hj => ?_, fun hj => ?_, fun hj => ?_, fun hj => ?_, ?_⟩
  · rcases of_getElem?_set hj with ⟨-, rfl⟩ | ⟨-, hj⟩
    · refine ⟨fun x hx => hsound x (mem_cons_of_mem r hx), fun x hx => ?_⟩
      rcases mem_append.mp hx with hx | hx
      · exact hnamed x hx
      · rw [mem_singleton.mp hx]
        exact (hsound r mem_cons_self).key
    · exact h.sound hj
  · rcases of_getElem?_set hj with ⟨-, rfl⟩ | ⟨-, hj⟩
    · intro x hx
      rcases mem_append.mp hx with hx | hx
      · exact hold (h.placed hi x hx)
      · rw [mem_singleton.mp hx]
        exact ⟨rows.length, rfl, List.getElem?_concat_length⟩
    · exact fun x hx => hold (h.placed hj x hx)
  · rcases of_getElem?_concat hj with hj | ⟨rfl, rfl⟩
    · exact h.covered_set hi (fun _ hx => mem_append_left _ hx) hj
    · exact ⟨i, _, List.getElem?_set_self hlt, mem_append_right _ (mem_singleton.mpr rfl)⟩
  · rcases of_getElem?_set hj with ⟨-, rfl⟩ | ⟨-, hj⟩
    · refine pairwise_append.mpr ⟨h.ascending hi, pairwise_singleton _ _, fun x hx y hy => ?_⟩
      obtain ⟨j, hxj, hrow⟩ := h.placed hi x hx
      have hj := (List.getElem?_eq_some_iff.mp hrow).1
      rw [mem_singleton.mp hy]
      omega
    · exact h.ascending hj
  · have happlied (x : Row) (n : Int) : Applied { s with
        store := store, calls := s.calls.set i (.appending (done ++ [(r, (start.length + rows.length : Int))]) todo) } x
          n ↔ Applied s x n :=
      applied_set hi (fun _ h => by cases h) (fun _ h => by cases h) x n
    simp only [happlied]
    exact h.settled

omit [Store σ] [Contract σ] in
theorem applied_returned {entries : Entries} (hi : s.calls[i]? = some (.appending done [])) (r : Row) (n : Int) :
    Applied { s with entries := entries, calls := s.calls.set i (.returned done) } r n ↔ Applied s r n ∨ (r, n) ∈ done := by
  have hlt : i < s.calls.length := (List.getElem?_eq_some_iff.mp hi).1
  constructor
  · rintro ⟨j, done', hj, hmem⟩
    rcases of_getElem?_set hj with ⟨-, heq⟩ | ⟨-, hj⟩
    · cases heq
      exact .inr hmem
    · exact .inl ⟨j, done', hj, hmem⟩
  · rintro (⟨j, done', hj, hmem⟩ | hmem)
    · refine ⟨j, done', ?_, hmem⟩
      by_cases hij : i = j
      · subst hij
        cases hi.symm.trans hj
      · exact (List.getElem?_set_ne hij).trans hj
    · exact ⟨i, done, List.getElem?_set_self hlt, hmem⟩

section
variable (h : Ordered start rows s) (hi : s.calls[i]? = some (.appending done []))
    (order : ∀ x ∈ done, ∀ r n, Applied s r n → r.1 = x.1.1 → n < x.2)
include h hi order

theorem settled_returned (k : Bytes) :
    (∀ r n, Applied s r n ∨ (r, n) ∈ done → r.1 ≠ k) ∧
        List.lookup k ((done.map Prod.fst).foldl applyRow s.entries) = List.lookup k (start.foldl applyRow []) ∨
      ∃ r n, (Applied s r n ∨ (r, n) ∈ done) ∧ r.1 = k ∧ List.lookup k ((done.map Prod.fst).foldl applyRow s.entries) = r.2 ∧
        ∀ r' n', Applied s r' n' ∨ (r', n') ∈ done → r'.1 = k → n' ≤ n := by
  by_cases hk : ∃ x ∈ done, x.1.1 = k
  · -- The last row of the key among those of the call.
    obtain ⟨before, x, after, rfl, rfl, hafter⟩ := exists_last hk
    have hlookup : List.lookup x.1.1 (((before ++ x :: after).map Prod.fst).foldl applyRow s.entries) = x.1.2 := by
      rw [map_append]
      refine lookup_applyRows_last (fun r hr => ?_) s.entries
      obtain ⟨y, hy, rfl⟩ := mem_map.mp hr
      exact hafter y hy
    have hmem : x ∈ before ++ x :: after := mem_append_right _ mem_cons_self
    refine .inr ⟨x.1, x.2, .inr hmem, rfl, hlookup, fun r n happlied hr => ?_⟩
    rcases happlied with happlied | hdone
    · exact Int.le_of_lt (order x hmem r n happlied hr)
    · rcases mem_append.mp hdone with hbefore | hrest
      · have hasc := (pairwise_append.mp (h.ascending hi)).2.2 (r, n) hbefore x mem_cons_self
        exact Int.le_of_lt hasc
      · rcases mem_cons.mp hrest with rfl | hrest
        · exact Int.le_refl _
        · exact absurd hr (hafter (r, n) hrest)
  · have hother : ∀ r ∈ done.map Prod.fst, r.1 ≠ k := by
      intro r hr heq
      obtain ⟨x, hx, rfl⟩ := mem_map.mp hr
      exact hk ⟨x, hx, heq⟩
    have hsame (r : Row) (n : Int) (hr : r.1 = k) : Applied s r n ∨ (r, n) ∈ done ↔ Applied s r n :=
      or_iff_left fun hmem => hk ⟨(r, n), hmem, hr⟩
    rw [lookup_applyRows_other hother]
    rcases h.settled k with ⟨hnone, hlookup⟩ | ⟨r, n, happlied, hr, hlookup, hmax⟩
    · exact .inl ⟨fun r n happlied hr => hnone r n ((hsame r n hr).mp happlied) hr, hlookup⟩
    · exact .inr ⟨r, n, .inl happlied, hr, hlookup, fun r' n' happlied hr' => hmax r' n' ((hsame r' n' hr').mp happlied) hr'⟩

theorem returned :
    Ordered start rows { s with entries := (done.map Prod.fst).foldl applyRow s.entries, calls := s.calls.set i (.returned done) } := by
  have hplaced := h.placed hi
  have hascending := h.ascending hi
  refine ⟨h.rep, fun k hk => ?_, fun hj => ?_, fun hj => ?_, fun hj => ?_, fun hj => ?_, fun k => ?_⟩
  · by_cases hkey : ∃ x ∈ done, x.1.1 = k
    · obtain ⟨x, hx, rfl⟩ := hkey
      exact (h.sound hi).2 x hx
    · refine h.named k ?_
      rwa [lookup_applyRows_other fun r hr heq => ?_] at hk
      obtain ⟨x, hx, rfl⟩ := mem_map.mp hr
      exact hkey ⟨x, hx, heq⟩
  · rcases of_getElem?_set hj with ⟨-, rfl⟩ | ⟨-, hj⟩
    · exact ⟨nofun, (h.sound hi).2⟩
    · exact h.sound hj
  · rcases of_getElem?_set hj with ⟨-, rfl⟩ | ⟨-, hj⟩
    · exact hplaced
    · exact h.placed hj
  · have hkept : ∀ x ∈ (Stage.appending done []).done, x ∈ (Stage.returned done).done := fun _ hx => hx
    exact h.covered_set hi hkept hj
  · rcases of_getElem?_set hj with ⟨-, rfl⟩ | ⟨-, hj⟩
    · exact hascending
    · exact h.ascending hj
  · simp only [applied_returned hi]
    exact h.settled_returned hi order k

end

section
variable (h : Ordered start rows s)
include h

theorem called (hsound : ∀ r ∈ c.todo, r.Sound) (hdone : c.done = []) (hc : ∀ done, c ≠ .returned done) :
    Ordered start rows { s with calls := s.calls ++ [c] } := by
  have happlied (r : Row) (n : Int) : Applied { s with calls := s.calls ++ [c] } r n ↔ Applied s r n := by
    constructor
    · rintro ⟨j, done, hj, hmem⟩
      rcases of_getElem?_concat hj with hj | ⟨-, heq⟩
      · exact ⟨j, done, hj, hmem⟩
      · exact absurd heq.symm (hc done)
    · rintro ⟨j, done, hj, hmem⟩
      exact ⟨j, done, (List.getElem?_append_left (List.getElem?_eq_some_iff.mp hj).1).trans hj, hmem⟩
  refine ⟨h.rep, h.named, fun hj => ?_, fun hj => ?_, fun hj => ?_, fun hj => ?_, ?_⟩
  · rcases of_getElem?_concat hj with hj | ⟨-, rfl⟩
    · exact h.sound hj
    · exact ⟨hsound, by rw [hdone]; exact nofun⟩
  · rcases of_getElem?_concat hj with hj | ⟨-, rfl⟩
    · exact h.placed hj
    · rw [hdone]
      exact nofun
  · obtain ⟨i, x, hi, hmem⟩ := h.covered hj
    exact ⟨i, x, (List.getElem?_append_left (List.getElem?_eq_some_iff.mp hi).1).trans hi, hmem⟩
  · rcases of_getElem?_concat hj with hj | ⟨-, rfl⟩
    · exact h.ascending hj
    · rw [hdone]
      exact .nil
  · simp only [happlied]
    exact h.settled

theorem advance {now : Int64} (hi : s.calls[i]? = some c) (room : HasRoom s (.run walk now i))
    (order : InOrder s (.run walk now i)) : ∃ rows, Ordered start rows (s.advance scan walk now i c) := by
  cases c with
  | deleting group =>
    refine ⟨rows, h.found hi fun k hk => h.named k ?_⟩
    have hmem := mem_of_mem_filter ((walkedKeys_perm ⟨s.topic, s.entries⟩ scan walk group).mem_iff.mp hk)
    exact Entries.mem_keys.mp hmem
  | appending done todo =>
    cases todo with
    | nil => exact ⟨rows, h.returned hi (order done hi)⟩
    | cons r todo =>
      obtain ⟨c, rep, numbered, hrows⟩ := h.rep
      have hsound := (h.sound hi).1 r mem_cons_self
      obtain ⟨store, happend, rep'⟩ := Contract.append rep now ((room done r todo hi).room rep)
      rw [Contract.view_of_norm (hsound.norm now _)] at rep'
      have hlen : (c s.pref).length = start.length + rows.length := by
        have := congrArg length hrows
        rw [length_map, length_append] at this
        omega
      refine ⟨rows ++ [r], ?_⟩
      rw [State.advance, happend]
      rw [hlen]
      refine h.appended hi ⟨_, rep', ?_, ?_⟩
      · rw [Contents.append_self]
        exact numbered.concat rfl
      · rw [Contents.append_self, map_append, hrows, map_singleton, hsound.rowOf, append_assoc]
  | returned done | failed done => exact ⟨rows, h⟩

theorem step (a : Action) (room : HasRoom s a) (order : InOrder s a) : ∃ rows, Ordered start rows (s.step scan a) := by
  cases a with
  | call u =>
    cases u with
    | commit group topic partition offset =>
      refine ⟨rows, h.called (fun r hr => ?_) rfl nofun⟩
      rw [mem_singleton.mp hr]
      refine ⟨joinKey_ne_nil group topic partition, fun o ho => ?_⟩
      cases ho
      exact signed_toInt offset
    | deleteGroup group => exact ⟨rows, h.called nofun rfl nofun⟩
  | run walk now i =>
    rw [State.step]
    cases hi : s.calls[i]? with
    | none => exact ⟨rows, h⟩
    | some c => exact h.advance hi room order

theorem lookup_replay (hall : ∀ c ∈ s.calls, c.Returned) (k : Bytes) :
    List.lookup k ((start ++ rows).foldl applyRow []) = List.lookup k s.entries := by
  have happlied {j : Nat} {r : Row} (hj : rows[j]? = some r) : Applied s r (start.length + j) := by
    obtain ⟨i, c, hi, hmem⟩ := h.covered hj
    have hreturned := hall c (mem_of_getElem? hi)
    cases c with
    | returned done => exact ⟨i, done, hi, hmem⟩
    | deleting group | appending done todo | failed done => exact hreturned.elim
  rcases h.settled k with ⟨hnone, hlookup⟩ | ⟨r, n, ⟨i, done, hi, hmem⟩, rfl, hlookup, hmax⟩
  · rw [hlookup, foldl_append]
    refine lookup_applyRows_other (fun r hr => ?_) _
    obtain ⟨j, hj⟩ := mem_iff_getElem?.mp hr
    exact hnone r _ (happlied hj)
  · obtain ⟨j, hn, hj⟩ := h.placed hi (r, n) hmem
    have hsplit : start ++ rows = (start ++ rows.take j) ++ r :: rows.drop (j + 1) := by
      obtain ⟨hlt, hget⟩ := List.getElem?_eq_some_iff.mp hj
      have hcons : r :: rows.drop (j + 1) = rows.drop j := by
        rw [drop_eq_getElem_cons hlt, hget]
      rw [append_assoc, hcons, take_append_drop]
    rw [hlookup, hsplit]
    refine lookup_applyRows_last (fun x hx heq => ?_) _
    obtain ⟨d, hd⟩ := mem_iff_getElem?.mp hx
    rw [List.getElem?_drop] at hd
    have hle := hmax x _ (happlied hd) heq
    omega

end

end Ordered

/-- After a restart, the topic replays to what is live. -/
def State.Durable (restart : σ → σ) (s : State σ) : Prop :=
  ∀ fuel, (∀ rs, contents s.store s.pref = .ok rs → rs.length < fuel) →
    ∃ o store, openStore s.topic fuel (restart s.store) = some (.ok o, store) ∧ ∀ k,
      List.lookup k o.entries = List.lookup k s.entries

theorem Ordered.durable [Replays σ] {start rows : List Row} {restart : σ → σ} (h : Ordered start rows s)
    (hrestart : ∀ store c, Contract.Rep store c → Contract.Rep (restart store) c) (hall : ∀ c ∈ s.calls, c.Returned) :
      s.Durable restart := by
  intro fuel hfuel
  obtain ⟨c, rep, numbered, hrows⟩ := h.rep
  have hlen := hfuel _ (Contract.contents_eq rep _)
  obtain ⟨store, hreplay, -⟩ := Replays.replay Entries.replayRecord (hrestart _ _ rep) numbered hlen []
  refine ⟨⟨s.topic, (c s.pref).foldl Entries.replayRecord []⟩, store, ?_, fun k => ?_⟩
  · change Option.map _ (replay Entries.replayRecord s.pref fuel 0 (restart s.store) []) = _
    rw [hreplay]
    rfl
  · rw [← h.lookup_replay hall k, ← hrows, ← foldl_replayRecord]

theorem Shown.ordered (h : Shown s.store s.pref s.entries) (hcalls : s.calls = [])
    (hnamed : ∀ k, (List.lookup k s.entries).isSome → k ≠ []) : ∃ start, Ordered start [] s := by
  obtain ⟨c, rep, numbered, hlookup⟩ := h
  have hnone {i : Nat} {x : Stage} (hi : s.calls[i]? = some x) : False := by
    rw [hcalls] at hi
    cases hi
  refine ⟨(c s.pref).map rowOf, ⟨c, rep, numbered, (append_nil _).symm⟩, hnamed, fun hi => (hnone hi).elim,
    fun hi => (hnone hi).elim, nofun,
    fun hi => (hnone hi).elim, fun k => .inl ⟨fun _ _ ⟨_, _, hi, _⟩ => (hnone hi).elim, ?_⟩⟩
  rw [← hlookup, foldl_replayRecord]

end TopicOffsetStore

/-! ### The stores -/

/-- Where the copies are written in the order in which they were taken, and rows taken into the map in the order in
    which they were appended, the store that is opened after all calls have returned has the entries of the live one. -/
theorem durable_offsets_eq_live {scan : Scan} (hscan : scan.Reads) {δ : Type} (J : OffsetJson δ) {σ : Type} [Store σ]
    [Contract σ] [Replays σ]
    {restart : σ → σ} (hrestart : ∀ store c, Contract.Rep store c → Contract.Rep (restart store) c) :
    (∀ (s : JSONOffsetStore.State δ) (m : Committed), s.calls = [] → s.updates = 0 →
      JSONOffsetStore.Keeps J scan ⟨s.entries, s.disk⟩ m →
      ∀ as, Along (JSONOffsetStore.State.step J scan) s as JSONOffsetStore.InOrder →
        (∀ c ∈ (as.foldl (JSONOffsetStore.State.step J scan) s).calls, c.Returned) →
          (as.foldl (JSONOffsetStore.State.step J scan) s).Durable J) ∧
    (∀ s : TopicOffsetStore.State σ, s.calls = [] → TopicOffsetStore.Shown s.store s.pref s.entries →
      (∀ k, (List.lookup k s.entries).isSome → k ≠ []) →
      ∀ as, Along (TopicOffsetStore.State.step scan) s as (fun s a => TopicOffsetStore.HasRoom s a ∧
        TopicOffsetStore.InOrder s a) →
        (∀ c ∈ (as.foldl (TopicOffsetStore.State.step scan) s).calls, c.Returned) →
          (as.foldl (TopicOffsetStore.State.step scan) s).Durable restart) := by
  refine ⟨fun s m hcalls hzero hkeeps as hrun hall => ?_, fun s hcalls hshown hnamed as hrun hall => ?_⟩
  · have h := Along.invariant (fun _ s => JSONOffsetStore.Ordered J scan s) (fun _ _ a h order => h.step hscan a order)
      (hkeeps.ordered hcalls hzero) hrun
    exact h.durable hscan hall
  · obtain ⟨rows, hstart⟩ := hshown.ordered hcalls hnamed
    obtain ⟨_, h⟩ := Along.invariant (fun _ s => ∃ more, TopicOffsetStore.Ordered rows more s)
      (fun _ _ a ⟨_, h⟩ cond => h.step a cond.1 cond.2) ⟨[], hstart⟩ hrun
    exact h.durable hrestart hall

instance {δ : Type} (s : JSONOffsetStore.State δ) : (a : JSONOffsetStore.Action) → Decidable (JSONOffsetStore.InOrder s a)
  | .call (.commit group topic _ _) => inferInstanceAs (Decidable ((_ ∧ _) ∧ _ ∧ _))
  | .call (.deleteGroup _) => .isTrue trivial
  | .run _ i => decidable_of_iff
      (∀ c ∈ s.calls[i]?, c.wrote = none → ∀ n ∈ c.number, ∀ c' ∈ s.calls, ∀ n' ∈ c'.wrote, n' < n) <| by
    refine ⟨fun h n _ hi j c n' hj => h _ hi rfl n rfl c (mem_of_getElem? hj) n', fun h c hi hnone n hn c' hc' n' hn' => ?_⟩
    obtain ⟨j, hj⟩ := mem_iff_getElem?.mp hc'
    cases c with
    | called u => cases hn
    | snapped m snapshot =>
      cases hn
      exact h n snapshot hi j c' n' hj hn'
    | _ => cases hnone

def TopicOffsetStore.Stage.ready : TopicOffsetStore.Stage → Option (List (TopicOffsetStore.Row × Int))
  | .appending done [] => some done
  | _ => none

def TopicOffsetStore.Stage.applied : TopicOffsetStore.Stage → List (TopicOffsetStore.Row × Int)
  | .returned done => done
  | _ => []

instance {σ : Type} (s : TopicOffsetStore.State σ) : (a : TopicOffsetStore.Action) → Decidable (TopicOffsetStore.InOrder s a)
  | .call _ => .isTrue trivial
  | .run _ _ i => decidable_of_iff
      (∀ c ∈ s.calls[i]?, ∀ done ∈ c.ready, ∀ x ∈ done, ∀ c' ∈ s.calls, ∀ y ∈ c'.applied, y.1.1 = x.1.1 → y.2 < x.2) <| by
    constructor
    · rintro h done hi x hx r n ⟨j, d, hj, hd⟩
      exact h _ hi done rfl x hx _ (mem_of_getElem? hj) (r, n) hd
    · intro h c hi done hdone x hx c' hc' y hy
      obtain ⟨j, hj⟩ := mem_iff_getElem?.mp hc'
      rcases c with _ | ⟨done', _ | _⟩ | _ | _ <;> cases hdone
      rcases c' with _ | _ | d | _
      case returned => exact h done hi x hx y.1 y.2 ⟨j, d, hj, hy⟩
      all_goals cases hy

/-- Two overlapping commits of one key. -/
theorem durable_offsets_eq_live_two :
    let first : OffsetUpdate := .commit (utf8 "g") (utf8 "t") 0 1
    let second : OffsetUpdate := .commit (utf8 "g") (utf8 "t") 0 2
    ([.call first, .call second, .run .listed 0, .run .listed 1, .run .listed 0, .run .listed 0, .run .listed 1,
        .run .listed 1].foldl
        (JSONOffsetStore.State.step .listed .printed) ⟨[], ⟨none, none⟩, 0, []⟩).Durable OffsetJson.listed ∧
      ([.call first, .call second, .run .listed 0 0, .run .listed 0 1, .run .listed 0 0, .run .listed 0 1].foldl
        (TopicOffsetStore.State.step .printed) ⟨defaultOffsetsTopic, [], MemoryStore.new, []⟩).Durable id := by
  have hrestart : ∀ (store : MemoryStore) c, Contract.Rep store c → Contract.Rep (id store) c := fun _ _ rep => rep
  obtain ⟨hjson, htopic⟩ := durable_offsets_eq_live Scan.printed_reads .listed hrestart
  have hkeeps : JSONOffsetStore.Keeps .listed .printed ⟨[], ⟨none, none⟩⟩ .empty := by
    refine ⟨.empty, fun _ _ _ h => ?_, .inl ⟨rfl, rfl⟩⟩
    cases h
  have hshown : TopicOffsetStore.Shown MemoryStore.new ⟨defaultOffsetsTopic, 0⟩ [] :=
    ⟨fun _ => [], fun _ => rfl, nofun, fun _ => rfl⟩
  have hroom : ∀ (s : TopicOffsetStore.State MemoryStore) a, TopicOffsetStore.HasRoom s a := by
    intro s a
    cases a with
    | call u => trivial
    | run walk now i => exact fun _ _ _ _ _ _ _ => trivial
  refine ⟨hjson _ _ rfl rfl hkeeps _ (by decide +kernel) ?_,
    htopic _ rfl hshown (fun k hk => by cases hk) _ (.and (fun _ _ _ _ => hroom _ _) (by decide +kernel)) ?_⟩
  all_goals exact forall_mem_cons.mpr ⟨trivial, forall_mem_singleton.mpr trivial⟩

def JSONOffsetStore.overtaken : JSONOffsetStore.State (List OffsetKey) :=
  [.call (.commit (utf8 "a") (utf8 "t") 0 1), .call (.commit (utf8 "b") (utf8 "t") 0 2), .run .listed 0, .run .listed 1,
    .run .listed 1, .run .listed 1,
    .run .listed 0, .run .listed 0].foldl (JSONOffsetStore.State.step .listed .printed) ⟨[], ⟨none, none⟩, 0, []⟩

def TopicOffsetStore.overtaken : TopicOffsetStore.State MemoryStore :=
  [.call (.commit (utf8 "a") (utf8 "t") 0 1), .call (.commit (utf8 "a") (utf8 "t") 0 2), .run .listed 0 0,
    .run .listed 0 1, .run .listed 0 1,
    .run .listed 0 0].foldl (TopicOffsetStore.State.step .printed) ⟨defaultOffsetsTopic, [], MemoryStore.new, []⟩

/-- All calls return, and a store opened again has not the entries of the live one. -/
theorem overtaken_not_durable :
    ((∀ c ∈ JSONOffsetStore.overtaken.calls, c.Returned) ∧ ¬ JSONOffsetStore.overtaken.Durable .listed) ∧
      (∀ c ∈ TopicOffsetStore.overtaken.calls, c.Returned) ∧ ¬ TopicOffsetStore.overtaken.Durable id := by
  have hreturned : JSONOffsetStore.overtaken.calls = [.returned 0, .returned 1] := rfl
  have hrows : TopicOffsetStore.overtaken.calls =
      [.returned [((joinKey (utf8 "a") (utf8 "t") 0, some 1), 0)],
        .returned [((joinKey (utf8 "a") (utf8 "t") 0, some 2), 1)]] := rfl
  refine ⟨⟨?_, ?_⟩, ?_, ?_⟩
  · rw [hreturned]
    simp [JSONOffsetStore.Stage.Returned]
  · rintro ⟨es, hload, hlookup⟩
    have hfile : (JSONOffsetStore.load .listed JSONOffsetStore.overtaken.disk).map
      (lookup (joinKey (utf8 "b") (utf8 "t") 0)) = some none := by decide
    have hlive : lookup (joinKey (utf8 "b") (utf8 "t") 0) JSONOffsetStore.overtaken.entries = some 2 := by decide
    rw [hload, Option.map_some, hlookup, hlive] at hfile
    cases hfile
  · rw [hrows]
    simp [TopicOffsetStore.Stage.Returned]
  · intro h
    obtain ⟨o, store, hopen, hlookup⟩ := h 3 fun rs hrs => by
      cases hrs
      decide
    have hfile : (TopicOffsetStore.openStore defaultOffsetsTopic 3 TopicOffsetStore.overtaken.store).map
        (fun r => r.1.map fun o => lookup (joinKey (utf8 "a") (utf8 "t") 0) o.entries) = some (.ok (some 2)) :=
          by decide +kernel
    have hlive : lookup (joinKey (utf8 "a") (utf8 "t") 0) TopicOffsetStore.overtaken.entries = some 1 := by decide
    have hopen : TopicOffsetStore.openStore defaultOffsetsTopic 3 TopicOffsetStore.overtaken.store =
      some (.ok o, store) := hopen
    rw [hopen] at hfile
    change some (Except.ok (lookup (joinKey (utf8 "a") (utf8 "t") 0) o.entries)) = _ at hfile
    rw [hlookup] at hfile
    cases hfile

end Holocron.Groups

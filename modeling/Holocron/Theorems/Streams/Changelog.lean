import Holocron.Streams.Changelog
import Holocron.Theorems.Log.CompactExact
import Holocron.Theorems.Proto.Wire
import Holocron.Theorems.Sdk.Drain
import Holocron.Theorems.Storage.Gaps

/-! A changelog store opened again has every value that was put, but for empty ones. -/

namespace Holocron.Streams
open Lib Sdk Storage List

def Link.reads : Link → Slice → Slice
  | .embedded, v => v
  | .network, v => Slice.norm v

/-- The length of the record fits 32 bits. -/
def Sized (r : Record) : Prop := (Wire.encodeRecord r).length < 2 ^ 32

instance (r : Record) : Decidable (Sized r) := inferInstanceAs (Decidable (_ < _))

theorem length_encodeRecord (r : Record) : (Wire.encodeRecord r).length =
    28 + r.key.bytes.length + r.value.bytes.length + (r.headers.map fun h => 8 + h.key.length + h.value.bytes.length).sum := by
  have hheaders : (r.headers.flatMap Wire.encodeHeader).length =
      (r.headers.map fun h => 8 + h.key.length + h.value.bytes.length).sum := by
    rw [length_flatMap]
    refine congrArg sum (map_congr_left fun h _ => ?_)
    simp only [Wire.encodeHeader, Wire.encodeBytes, Wire.encodeString, length_append, length_bigEndian]
    omega
  simp only [Wire.encodeRecord, Wire.encodeBytes, Wire.encodeString, Wire.encodeOffset, Wire.encodeInt64, length_append,
    length_bigEndian]
  omega

theorem sized_norm (r : Record) : Sized r.norm ↔ Sized r := by
  have hheader : (fun h => 8 + h.key.length + h.value.bytes.length) ∘ Header.norm =
      fun h => 8 + h.key.length + h.value.bytes.length := by
    funext h
    simp [Header.norm]
  unfold Sized
  rw [length_encodeRecord, length_encodeRecord]
  simp [Record.norm, Slice.bytes_norm, hheader]

theorem sized_stamp (now : Int64) (n : Int) (r : Record) : Sized (stamp now n r) ↔ Sized r := by
  unfold Sized
  rw [length_encodeRecord, length_encodeRecord]
  rfl

variable {r : Record}

theorem Link.carry_sized (link : Link) (h : Sized r) :
    ∃ r', link.carry r = some r' ∧ r'.key.bytes = r.key.bytes ∧ r'.value = link.reads r.value ∧ Sized r' := by
  cases link with
  | embedded => exact ⟨r, rfl, rfl, rfl, h⟩
  | network =>
    have hdecode := Wire.decodeRecord_append (r := r) (t := []) (by rwa [append_nil])
    rw [append_nil] at hdecode
    refine ⟨_, by rw [carry, hdecode], Slice.bytes_norm _, rfl, ?_⟩
    unfold Sized
    rw [length_encodeRecord]
    have hnorm := (sized_norm r).mpr h
    unfold Sized at hnorm
    rwa [length_encodeRecord] at hnorm

def lastValue (k : Bytes) (rs : List Record) : Slice := (latest k rs).bind Record.value

theorem lastValue_concat (k : Bytes) (rs : List Record) (r : Record) : lastValue k (rs ++ [r]) = if r.key.bytes = k
    then r.value else lastValue k rs := by
  unfold lastValue
  rw [latest_concat]
  split <;> rfl

theorem Link.reads_none (link : Link) : link.reads none = none := by cases link <;> rfl

variable {rs : List Record} {batches : List (List Record)} {now : Int64} {k : Bytes}

theorem latest_filterMap_carry (link : Link) (k : Bytes) (sized : ∀ r ∈ rs, Sized r) :
    latest k (rs.filterMap link.carry) = (latest k rs).bind link.carry := by
  induction rs using reverseRecOn with
  | nil => rfl
  | append_singleton rs r ih =>
    obtain ⟨r', hcarry, hkey, -⟩ := link.carry_sized (sized r mem_concat_self)
    rw [filterMap_append, filterMap_cons, hcarry, filterMap_nil, latest_concat, latest_concat, hkey,
      ih fun x hx => sized x (mem_append_left _ hx)]
    split
    · exact hcarry.symm
    · rfl

theorem after_filterMap_carry (link : Link) (k : Bytes) (sized : ∀ r ∈ rs, Sized r) :
    after some k (rs.filterMap link.carry) none = link.reads (lastValue k rs) := by
  unfold lastValue
  cases hlatest : latest k rs with
  | none =>
    rw [after_of_none (by rw [latest_filterMap_carry link k sized, hlatest]; rfl)]
    exact link.reads_none.symm
  | some r =>
    obtain ⟨r', hcarry, -, hvalue, -⟩ := link.carry_sized (sized r (mem_of_latest hlatest).1)
    rw [after_of_latest (r := r') (by rw [latest_filterMap_carry link k sized, hlatest]; exact hcarry),
      Option.bind_some, ← hvalue]
    unfold setting
    cases r'.value <;> rfl

theorem lastValue_eq_fold (hk : k ≠ []) (rs : List Record) : lastValue k rs = Log.fold rs k := by
  induction rs using reverseRecOn with
  | nil => rfl
  | append_singleton rs r ih =>
    rw [lastValue_concat, Log.fold_concat, ih]
    by_cases hkey : r.key.bytes = k
    · rw [if_pos hkey, if_pos (Log.keying_key.mpr ⟨hkey, hk⟩)]
    · rw [if_neg hkey, if_neg fun h => hkey (Log.keying_key.mp h).1]

section
variable {older active : List Record}

theorem lastValue_compacted (asc : older.Pairwise fun a b => a.offset < b.offset) (hk : k ≠ []) :
    lastValue k (Log.liveRecords older ++ active) = lastValue k (older ++ active) := by
  rw [lastValue_eq_fold hk, lastValue_eq_fold hk, Log.fold_eq_live, Log.fold_eq_live]
  exact congrArg (·.bind Record.value)
    (Keying.live_append_of_retained (K := Log.keying) asc (asc.filter _) (fun r => Log.mem_liveRecords asc) active)

/-- It drops the records without a key. -/
theorem lastValue_compacted_keyless (asc : older.Pairwise fun a b => a.offset < b.offset) :
    lastValue [] (Log.liveRecords older ++ active) = lastValue [] (older ++ active) ∨ lastValue []
      (Log.liveRecords older ++ active) = none := by
  have hnone : latest [] (Log.liveRecords older) = none := by
    rw [latest, getLast?_eq_none_iff, filter_eq_nil_iff]
    intro r hr hkey
    obtain ⟨k, hlive⟩ := (Log.mem_liveRecords asc).mp hr
    obtain ⟨-, hkey', hne, -⟩ := Log.live_key hlive
    exact hne (hkey'.symm.trans (of_decide_eq_true hkey))
  unfold lastValue
  rw [latest_append, latest_append, hnone]
  cases latest [] active with
  | none => exact .inr rfl
  | some r => exact .inl rfl

end

class Compacting (σ : Type) [Store σ] [Served σ] [Compactable σ] where
  Merges : σ → PartitionRef → Prop
  view_value {r : Record} : r.value ≠ some [] → (Served.view (σ := σ) r).value = r.value
  compacted {s : σ} {p : PartitionRef} {rs : List Record} {next : Int} : Served.Rep s p rs next → Merges s p →
    ∃ older active, rs = older ++ active ∧ Served.Rep (Compactable.compact s p) p (Log.liveRecords older ++ active) next

instance : Compacting MemoryStore where
  Merges _ _ := True
  view_value _ := rfl
  compacted {_ _ rs _} rep _ := ⟨[], rs, rfl, rep⟩

theorem norm_value {v : Slice} (h : v ≠ some []) : v.norm = v := by
  rcases v with _ | _ | ⟨b, v⟩
  · rfl
  · exact absurd rfl h
  · rfl

open Log FileStore in
instance : Compacting FileStore where
  Merges s p := ∀ l, s.logs p = some l → ∀ cs c, l.Holds cs c → PartitionLog.Mergeable cs
  view_value h := norm_value h
  compacted {s p rs next} rep merges := by
    change s.Opens p (Offers rs next) at rep
    cases hlog : s.logs p with
    | none =>
      have hsame : Compactable.compact s p = s := by
        change FileStore.compact s [p] = s
        rw [FileStore.compact, FileStore.forEach, hlog]
        rfl
      refine ⟨[], rs, rfl, ?_⟩
      rw [hsame]
      exact rep
    | some l =>
      unfold Opens at rep
      rw [hlog] at rep
      obtain ⟨cs, c, hholds, rfl⟩ := rep.chunks
      have hnonneg : ∀ r ∈ records cs, 0 ≤ r.offset := by
        intro r hr
        exact rep.nonneg.2 r.norm (mem_map_of_mem (by rw [records_append]; exact mem_append_left _ hr))
      obtain ⟨steps, l', cs', hcompact, hcompacts, -⟩ := hholds.compact_spec hnonneg (merges l hlog cs c hholds)
      have hstore : Compactable.compact s p = s.setLog p l' := by
        change FileStore.compact s [p] = _
        rw [FileStore.compact, FileStore.forEach, hlog]
        dsimp only
        rw [hcompact]
        rfl
      refine ⟨sealedRecords cs, sealedRecords [c], by rw [← sealedRecords_append]; rfl, ?_⟩
      rw [hstore]
      refine Opens.of_self rfl ⟨⟨cs', c, hcompacts.holds, ?_⟩, ?_, rep.nonneg.1, fun r hr => ?_⟩
      · rw [records_append, map_append, hcompacts.records, PartitionLog.live_normal]
        rfl
      · rw [PartitionLog.highWater, hcompacts.active]
        exact rep.highWater
      · rcases mem_append.mp hr with hr | hr
        · refine rep.nonneg.2 r ?_
          rw [records_append, map_append]
          exact mem_append_left _ (mem_of_mem_filter hr)
        · refine rep.nonneg.2 r ?_
          rw [records_append, map_append]
          exact mem_append_right _ hr

section
variable {σ : Type} [Store σ] [Served σ] {link : Link} {s : σ} {p : PartitionRef} {rs : List Record} {next : Int}

theorem Link.publish_rep (rep : Served.Rep s p rs next) (sized : Sized r)
    (fits : ∀ r', link.carry r = some r' → Served.Fits s now p r') :
    ∃ x y, Served.Rep (link.publish s now p r).2 p (rs ++ [x]) (next + 1) ∧ x.offset = next ∧ x.key.bytes = r.key.bytes ∧
      Sized x ∧ x.value = (Served.view (σ := σ) y).value ∧ y.value = link.reads r.value := by
  obtain ⟨r', hcarry, hkey, hreads, hsized⟩ := link.carry_sized sized
  obtain ⟨s', happend, hrep⟩ := Served.append rep now (Served.Fits.room (fits r' hcarry) rep)
  generalize hx : Served.view (σ := σ) (stamp now next r') = x at hrep
  have hnorm : x.norm = (stamp now next r').norm := by
    rw [← hx]
    exact Served.norm_view _
  refine ⟨x, stamp now next r', ?_, ?_, ?_, ?_, by rw [hx], hreads⟩
  · rw [publish, hcarry]
    dsimp only
    rw [happend]
    exact hrep
  · rw [← Record.norm_offset, hnorm]
    rfl
  · rw [← Slice.bytes_norm, ← Record.norm_key, hnorm, Record.norm_key, Slice.bytes_norm]
    exact hkey
  · rw [← sized_norm, hnorm, sized_norm, sized_stamp]
    exact hsized

theorem Link.publish_other {q : PartitionRef} (rep : Served.Rep s p rs next) (hq : q ≠ p) (now : Int64) (r : Record) :
    Served.Rep (link.publish s now q r).2 p rs next := by
  unfold publish
  cases link.carry r with
  | none => exact rep
  | some r' =>
    have hother := Served.append_other rep hq .background now r'
    dsimp only
    split <;> (rename_i heq; rw [heq] at hother; exact hother)

end

theorem Link.reads_idem (link : Link) (v : Slice) : link.reads (link.reads v) = link.reads v := by
  cases link with
  | embedded => rfl
  | network => exact Slice.norm_norm v

section
variable {σ : Type} [Store σ] [Served σ] [Compactable σ] [Compacting σ] {link : Link} {l : Live σ} {next : Int}

def Lands (link : Link) (l : Live σ) (now : Int64) (r : Record) : Prop :=
  Sized r ∧ ∀ r', link.carry r = some r' → Served.Fits l.store now l.changelog.pref r'

/-- No empty value is put, and a compaction meets no entry of the empty key. -/
def Recoverable (link : Link) (l : Live σ) : ChangelogOp → Prop
  | .put now key value => Slice.bytes value ≠ [] ∧ Lands link l now (putRecord key value)
  | .delete now key => Lands link l now (deleteRecord key)
  | .compact => Compacting.Merges l.store l.changelog.pref ∧ l.changelog.get none = none

structure Mirrored (link : Link) (l : Live σ) (rs : List Record) (next : Int) : Prop where
  rep : Served.Rep l.store l.changelog.pref rs next
  sized : ∀ r ∈ rs, Sized r
  entries : ∀ k, l.changelog.entries k = link.reads (lastValue k rs)

/-- An entry that is set and whose record is published comes back. -/
theorem Mirrored.set (h : Mirrored link l rs next) (lands : Lands link l now r)
    (hvalue : r.value ≠ some []) :
    ∃ rs next, Mirrored link ⟨{ l.changelog with entries := Function.update l.changelog.entries r.key.bytes r.value },
      (link.publish l.store now l.changelog.pref r).2⟩ rs next := by
  obtain ⟨x, y, hrep, -, hkey, hsized, hx, hy⟩ := Link.publish_rep h.rep lands.1 lands.2
  have hsame : link.reads r.value = r.value := by
    cases link with
    | embedded => rfl
    | network => exact norm_value hvalue
  rw [hsame] at hy
  have hxvalue : x.value = r.value := by rw [hx, Compacting.view_value (by rwa [hy]), hy]
  refine ⟨rs ++ [x], next + 1, hrep, fun a ha => ?_, fun k => ?_⟩
  · rcases mem_append.mp ha with ha | ha
    · exact h.sized a ha
    · rw [mem_singleton.mp ha]
      exact hsized
  · rw [lastValue_concat, hkey, hxvalue]
    by_cases hk : k = r.key.bytes
    · rw [hk, if_pos rfl, hsame]
      exact Function.update_self ..
    · rw [if_neg (Ne.symm hk), ← h.entries k]
      exact Function.update_of_ne hk ..

theorem Mirrored.step (h : Mirrored link l rs next) {op : ChangelogOp} (recoverable : Recoverable link l op) :
    ∃ rs next, Mirrored link (l.step link op) rs next := by
  cases op with
  | put now key value => exact h.set recoverable.2 fun hv => recoverable.1 (Option.some.inj hv)
  | delete now key => exact h.set recoverable nofun
  | compact =>
    obtain ⟨merges, hempty⟩ := recoverable
    have hasc := Served.ascending h.rep
    obtain ⟨older, active, rfl, hrep⟩ := Compacting.compacted h.rep merges
    have holder := (pairwise_append.mp hasc).1
    refine ⟨Log.liveRecords older ++ active, next, hrep, fun r hr => h.sized r ?_, fun k => ?_⟩
    · rcases mem_append.mp hr with hr | hr
      · exact mem_append_left _ (mem_of_mem_filter hr)
      · exact mem_append_right _ hr
    · by_cases hk : k = []
      · subst hk
        have hnone : l.changelog.entries [] = none := hempty
        rcases lastValue_compacted_keyless holder with hsame | hgone
        · rw [hsame]
          exact h.entries []
        · rw [hgone, link.reads_none]
          exact hnone
      · rw [lastValue_compacted holder hk]
        exact h.entries k

omit [Served σ] [Compacting σ] in
theorem pref_step (op : ChangelogOp) : (l.step link op).changelog.pref = l.changelog.pref := by cases op <;> rfl

end

def feedOf (batches : List (List Record)) : Feed := ⟨true, batches.map .ok ++ [.error .deadlineExceeded]⟩

theorem setting_some_isSome (r : Record) : (setting some r).isSome := by
  unfold setting
  cases r.value <;> rfl

theorem drain_batches (nonempty : ∀ b ∈ batches, b ≠ []) (before : Bytes → Option Bytes) :
    drain some (batches.map .ok ++ [.error .deadlineExceeded]) before =
      some (.ok fun k => after some k batches.flatten (before k)) := by
  induction batches generalizing before with
  | nil => rfl
  | cons b batches ih =>
    obtain ⟨hb, hrest⟩ := forall_mem_cons.mp nonempty
    have hrun : runAll (replayRecord some) before b = .ok fun k => after some k b (before k) :=
      runAll_replayRecord.mpr ⟨fun r _ => setting_some_isSome r, fun _ => rfl⟩
    rw [map_cons, cons_append, drain, if_neg hb, hrun]
    dsimp only
    rw [ih hrest]
    simp [after_append]

theorem open_batches (nonempty : ∀ b ∈ batches, b ≠ []) {name : Bytes} {partition : Int} (hname : name ≠ [])
    (hpartition : ¬ partition < 0) : openChangelogStorePartition (some (feedOf batches)) name partition =
      some (.ok ⟨name ++ utf8 "-changelog", Int32.ofInt partition, fun k => after some k batches.flatten none⟩) := by
  have hreplay : replay some (feedOf batches) = some (.ok fun k => after some k batches.flatten none) :=
    drain_batches nonempty _
  unfold openChangelogStorePartition
  dsimp only
  rw [if_neg hname, if_neg hpartition, hreplay]

section
variable {σ : Type} [Store σ] [Served σ] [Compactable σ] [Compacting σ] {l : Live σ}

end

def fresh {σ : Type} (s : σ) : Live σ := ⟨⟨utf8 "n" ++ utf8 "-changelog", 0, fun _ => none⟩, s⟩

def putAndDelete : List ChangelogOp :=
  [.put 1 (some [97]) (some [1]), .put 1 (some [98]) (some [2]), .delete 1 (some [97]), .compact]

def lands (l : Live FileStore) (r : Record) : Bool :=
  decide (Sized r) && (Link.network.carry r).all fun r' => (l.store.openLog l.changelog.pref).1.toOption.all fun p =>
    decide (p.Small (.append (stamp 1 p.highWater r')) ∧ p.active.logFile.Tailed)

theorem lands_network {l : Live FileStore} (h : lands l r = true) : Lands .network l 1 r := by
  obtain ⟨hsized, hfits⟩ := Bool.and_eq_true_iff.mp h
  refine ⟨of_decide_eq_true hsized, fun r' hcarry hw s' hhw p hopen => ?_⟩
  simp only [hcarry, hopen, Except.toOption, Option.all_some, decide_eq_true_eq] at hfits
  cases hlog : l.store.openLog l.changelog.pref with
  | mk res s₁ =>
    rw [hlog] at hopen
    obtain rfl : res = .ok p := hopen
    simp only [Store.highWater, FileStore.highWater, guarded, Ctx.background, hlog, Prod.mk.injEq, Except.ok.injEq] at hhw
    rw [← hhw.1]
    exact hfits

theorem merges_of_stream {s : FileStore} {p : PartitionRef} (rs : List Record)
    (hstream : (s.logs p).map (fun l => (Log.streamSealedRecords l.sealed).toOption.map Prod.fst) = some (some rs))
    (hbytes : (Log.frames (Log.liveRecords rs)).length < 2 ^ 32)
    (hspan : ∀ a ∈ Log.liveRecords rs, ∀ b ∈ Log.liveRecords rs, b.offset - a.offset < 2 ^ 32) : Compacting.Merges s p := by
  intro l hl cs c hholds
  obtain ⟨ss', hrun, -⟩ := Log.streamSealedRecords_spec hholds.sealed
  simp only [hl, hrun, Option.map_some, Except.toOption, Option.some.injEq] at hstream
  rw [Log.PartitionLog.Mergeable, hstream]
  exact ⟨hbytes, hspan⟩

def sealedThree : List Record :=
  [⟨0, 1, some [97], some [1], []⟩, ⟨1, 1, some [98], some [2], []⟩, ⟨2, 1, some [97], none, []⟩]

def segmented : Live FileStore := fresh (.new 1 fun _ => [])

/-- What a store that is opened after the operations has for a key, next to what the live store has. -/
def reopenedGet (s : FileStore) (ops : List ChangelogOp) (key : Slice) : Option Bytes × Option (Option Bytes) :=
  let l := ops.foldl (Live.step .embedded) (fresh s)
  (l.changelog.get key, do
    let rs ← (contents l.store l.changelog.pref).toOption
    let res ← openChangelogStorePartition (some (feedOf [rs])) (utf8 "n") 0
    let c ← res.toOption
    return c.get key)

end Holocron.Streams

import Holocron.Theorems.Log.CompactExact

/-! Sweeping a log whose records are read as a map: the map stays if no segment that retention drops holds a live record. -/

namespace Holocron.Log
open Lib List

/-- The last record of the segment is older than the cutoff. -/
def Chunk.Expired (cutoff : Int64) (x : Chunk) : Prop := ∃ r, x.records.getLast? = some r ∧ r.timestamp < cutoff

/-- In every segment that is reached over expired ones only there is a record, and where the last one is older than the
    cutoff, all are. -/
def NewestLast (cutoff : Int64) (cs : List Chunk) : Prop :=
  ∀ gone x kept, cs = gone ++ x :: kept → (∀ y ∈ gone, y.Expired cutoff) →
    ∃ last, x.records.getLast? = some last ∧ (last.timestamp < cutoff → ∀ r ∈ x.records, r.timestamp < cutoff)

def Chunk.Needed (cs : List Chunk) (x : Chunk) : Prop := ∃ r ∈ x.records, keying.Retained (sealedRecords cs) r.norm

/-- No sealed segment that holds a live record has expired. -/
def SparedByTime (cutoff : Int64) (cs : List Chunk) (c : Chunk) : Prop := ∀ x ∈ cs, x.Needed (cs ++ [c]) → ¬ x.Expired cutoff

/-- From every sealed segment that holds a live record on, the log is within the limit. -/
def SparedBySize (maxBytes : Int) (cs : List Chunk) (c : Chunk) : Prop :=
  ∀ gone x kept, cs = gone ++ x :: kept → x.Needed (cs ++ [c]) → ((frames (records (x :: kept ++ [c]))).length : Int) ≤ maxBytes

theorem fold_of_live {rs rs' : List Record} (h : ∀ k, keying.live k rs' = keying.live k rs) : fold rs' = fold rs := by
  funext k
  rw [fold_eq_live, fold_eq_live, h]

variable {maxBytes : Int} {cutoff : Int64} {x : Chunk}

section
variable {gone kept : List Chunk} {c : Chunk}

theorem live_of_dropped (h : ∀ x ∈ gone, ¬ x.Needed (gone ++ kept ++ [c])) (k : Bytes) :
    keying.live k (sealedRecords (kept ++ [c])) = keying.live k (sealedRecords (gone ++ kept ++ [c])) := by
  rw [append_assoc, sealedRecords_append gone]
  refine (Keying.live_of_suffix (fun a ha hretained => ?_) k).symm
  obtain ⟨x, hx, r, hr, rfl⟩ := mem_sealedRecords.mp ha
  refine h x hx ⟨r, hr, ?_⟩
  rwa [append_assoc, sealedRecords_append gone]

theorem Chunk.Needed.of_dropped (h : ∀ x ∈ gone, ¬ x.Needed (gone ++ kept ++ [c])) (hx : x.Needed (kept ++ [c])) :
    x.Needed (gone ++ kept ++ [c]) := by
  obtain ⟨r, hr, k, hk⟩ := hx
  exact ⟨r, hr, k, (live_of_dropped h k) ▸ hk⟩

theorem SparedByTime.suffix (h : SparedByTime cutoff (gone ++ kept) c)
    (unneeded : ∀ x ∈ gone, ¬ x.Needed (gone ++ kept ++ [c])) : SparedByTime cutoff kept c :=
  fun x hx hneeded => h x (mem_append_right gone hx) (hneeded.of_dropped unneeded)

theorem SparedBySize.suffix (h : SparedBySize maxBytes (gone ++ kept) c)
    (unneeded : ∀ x ∈ gone, ¬ x.Needed (gone ++ kept ++ [c])) : SparedBySize maxBytes kept c := by
  intro before x after hsplit hneeded
  exact h (gone ++ before) x after (by rw [hsplit, append_assoc]) (hneeded.of_dropped unneeded)

end

/-- The records live in a suffix are those live in the whole that lie in it. -/
theorem liveRecords_suffix {gone kept : List Record} (asc : keying.Ascending (gone ++ kept)) :
    liveRecords kept <:+ liveRecords (gone ++ kept) := by
  refine ⟨gone.filter ((gone ++ kept).foldl Latest.note []).keeps, ?_⟩
  rw [liveRecords, liveRecords, filter_append]
  refine congrArg _ (filter_congr fun r hr => Bool.eq_iff_iff.mpr ?_)
  rw [(tracks_foldl kept).keeps (pairwise_append.mp asc).2.1 hr,
    (tracks_foldl (gone ++ kept)).keeps asc (mem_append_right _ hr)]
  exact (Keying.retained_suffix asc hr).symm

theorem PartitionLog.Mergeable.suffix {gone kept : List Chunk} (h : Mergeable (gone ++ kept))
    (asc : keying.Ascending (sealedRecords (gone ++ kept))) : Mergeable kept := by
  obtain ⟨hbytes, hspan⟩ := h
  rw [sealedRecords_append] at hbytes hspan asc
  have hsuffix := liveRecords_suffix asc
  refine ⟨?_, fun a ha b hb => hspan a (hsuffix.subset ha) b (hsuffix.subset hb)⟩
  exact Nat.lt_of_le_of_lt (hsuffix.sublist.flatMap encodeRecord).length_le hbytes

namespace PartitionLog

variable {p : PartitionLog} {cs : List Chunk} {c : Chunk} {ss : List Segment}

theorem newest_record {s : Segment} (h : s.Represents x) :
    ((((since (s.highWater - 1) x.records).map Record.norm).take 1).head?) = x.records.getLast?.map Record.norm := by
  have asc := h.holds.stored.ascending
  rw [h.highWater]
  obtain ⟨base, rs⟩ := x
  rcases eq_nil_or_concat rs with rfl | ⟨init, r, rfl⟩
  · rfl
  · rw [concat_eq_append] at asc ⊢
    have hlow : since r.offset init = [] := since_eq_nil fun y hy => (pairwise_append.mp asc).2.2 y hy r (mem_singleton_self r)
    have hlast : since r.offset [r] = [r] := since_eq_self fun y hy => by rw [mem_singleton.mp hy]
    rw [Chunk.next, endOffset_concat, Int.add_sub_cancel, since_append, hlow, hlast, getLast?_concat]
    rfl

theorem timeLoop_spec (cutoff : Int64) (rep : Forall₂ Segment.Represents ss cs)
    (readOnly : ∀ s ∈ ss, s.logBuf = none) :
    ∃ left gone kept, timeLoop cutoff ss = (gone.length, none, left) ∧ cs = gone ++ kept ∧
      Forall₂ Segment.Represents left kept ∧
      (∀ s ∈ left, s.logBuf = none) ∧ (∀ x ∈ gone, x.Expired cutoff) ∧ ∀ x ∈ kept.head?, ¬ x.Expired cutoff := by
  induction rep with
  | nil => exact ⟨[], [], [], rfl, rfl, Forall₂.nil, readOnly, forall_mem_nil _, nofun⟩
  | @cons s x ss cs hs rep ih =>
    obtain ⟨s', hread, hholds, hkept⟩ := hs.holds.readFrom (s.highWater - 1) 1
    have hnewest := newest_record hs
    obtain ⟨left, gone, kept, hloop, hsplit, hleft, hro, hexpired, hstays⟩ := ih fun t ht => readOnly t (mem_cons_of_mem s ht)
    -- where the loop stops, the segment it has read stays with those after it
    have hstop : Forall₂ Segment.Represents (s' :: ss) (x :: cs) ∧ ∀ t ∈ s' :: ss, t.logBuf = none := by
      refine ⟨Forall₂.cons (hs.kept hkept hholds) rep, fun t ht => ?_⟩
      rcases mem_cons.mp ht with rfl | ht
      · have hnone := hkept.active
        rw [readOnly s mem_cons_self] at hnone
        exact Option.isNone_iff_eq_none.mp (Option.isSome_eq_false_iff.mp hnone)
      · exact readOnly t (mem_cons_of_mem s ht)
    simp only [timeLoop, hread, Int.toNat_one, hnewest]
    cases hlast : x.records.getLast? with
    | none =>
      refine ⟨_, [], x :: cs, rfl, rfl, hstop.1, hstop.2, forall_mem_nil _, ?_⟩
      rintro y ⟨⟩ ⟨r, hr, -⟩
      cases hlast.symm.trans hr
    | some r =>
      simp only [Option.map_some]
      by_cases hyoung : cutoff ≤ r.norm.timestamp
      · rw [if_pos hyoung]
        refine ⟨_, [], x :: cs, rfl, rfl, hstop.1, hstop.2, forall_mem_nil _, ?_⟩
        rintro y ⟨⟩ ⟨r', hr', hold⟩
        cases hlast.symm.trans hr'
        exact Int64.not_lt.mpr hyoung hold
      · rw [if_neg hyoung, hloop]
        refine ⟨_, x :: gone, kept, rfl, by rw [hsplit]; rfl, hleft, hro, fun y hy => ?_, hstays⟩
        rcases mem_cons.mp hy with rfl | hy
        · exact ⟨r, hlast, Int64.not_le.mp hyoung⟩
        · exact hexpired y hy

theorem Holds.of_suffix {gone kept : List Chunk} (h : p.Holds (gone ++ kept) c) {left : List Segment}
    (rep : Forall₂ Segment.Represents left kept) (readOnly : ∀ s ∈ left, s.logBuf = none) :
    PartitionLog.Holds { p with sealed := left } kept c := by
  have hlayout := h.layout
  rw [append_assoc] at hlayout
  exact ⟨⟨rep, h.active, readOnly, h.writable⟩, (Layout.append_iff.mp hlayout).2.1⟩

theorem Holds.enforceTimeRetention (h : p.Holds cs c) (spared : SparedByTime cutoff cs c) :
    ∃ deleted p' gone kept, p.enforceTimeRetention cutoff = ((deleted, none), p') ∧ cs = gone ++ kept ∧ p'.Holds kept c ∧
      p'.active = p.active ∧ ∀ x ∈ gone, ¬ x.Needed (cs ++ [c]) := by
  obtain ⟨left, gone, kept, hloop, rfl, hleft, hro, hexpired, -⟩ := timeLoop_spec cutoff h.sealed h.readOnly
  refine ⟨gone.length, { p with sealed := left }, gone, kept, by rw [enforceTimeRetention, hloop], rfl,
    h.of_suffix hleft hro, rfl, fun x hx hneeded => spared x (mem_append_left kept hx) hneeded (hexpired x hx)⟩

/-- Time retention drops old records only, from the oldest segment on, leaves the rest as it is, and stops at the active
    segment or at one with a record that is not old. -/
def DropsOldOnly (p : PartitionLog) (cs : List Chunk) (c : Chunk) (cutoff : Int64) : Prop :=
  ∃ gone kept p', p.enforceTimeRetention cutoff = ((gone.length, none), p') ∧ cs = gone ++ kept ∧ p'.Holds kept c ∧
    p'.active = p.active ∧ p'.highWater = p.highWater ∧ (∀ r ∈ records gone, r.timestamp < cutoff) ∧
    ∀ x ∈ kept.head?, ∃ r ∈ x.records, cutoff ≤ r.timestamp

theorem newestLast_of_drops {gone kept : List Chunk} (stays : ∀ x ∈ kept.head?, ¬ x.Expired cutoff)
    (expired : ∀ x ∈ gone, x.Expired cutoff) (old : ∀ r ∈ records gone, r.timestamp < cutoff)
    (young : ∀ x ∈ kept.head?, ∃ r ∈ x.records, cutoff ≤ r.timestamp) : NewestLast cutoff (gone ++ kept) := by
  intro before x after hsplit hbefore
  -- the segment at which the loop stops
  have hstop : ∀ {rest}, kept = x :: rest →
      ∃ last, x.records.getLast? = some last ∧ (last.timestamp < cutoff → ∀ r ∈ x.records, r.timestamp < cutoff) := by
    rintro rest rfl
    obtain ⟨r, hr, -⟩ := young x rfl
    obtain ⟨last, hlast⟩ := Option.isSome_iff_exists.mp (getLast?_isSome.mpr (ne_nil_of_mem hr))
    exact ⟨last, hlast, fun hold => absurd ⟨last, hlast, hold⟩ (stays x rfl)⟩
  rcases append_eq_append_iff.mp hsplit with ⟨more, rfl, hkept⟩ | ⟨more, rfl, hafter⟩
  · cases more with
    | nil => exact hstop hkept
    | cons y more =>
      rw [cons_append] at hkept
      exact absurd (hbefore y (by simp)) (stays y (by rw [hkept]; rfl))
  · cases more with
    | nil => exact hstop hafter.symm
    | cons y more =>
      obtain ⟨rfl, -⟩ := cons.inj hafter
      obtain ⟨last, hlast, -⟩ := expired x (by simp)
      exact ⟨last, hlast, fun _ r hr => old r (mem_records.mpr ⟨x, by simp, hr⟩)⟩

/-- Exactly where the last record of a segment that it comes to tells the age of all. -/
theorem time_retention_safe (h : p.Holds cs c) (cutoff : Int64) : p.DropsOldOnly cs c cutoff ↔ NewestLast cutoff cs := by
  obtain ⟨left, gone, kept, hloop, rfl, hleft, hro, hexpired, hstays⟩ := timeLoop_spec cutoff h.sealed h.readOnly
  have hrun : p.enforceTimeRetention cutoff = ((gone.length, none), { p with sealed := left }) :=
    by rw [enforceTimeRetention, hloop]
  constructor
  · rintro ⟨gone', kept', p', hrun', hsplit, -, -, -, hold, hyoung⟩
    have hlength : gone.length = gone'.length := by
      rw [hrun] at hrun'
      exact congrArg (fun x => x.1.1) hrun'
    obtain ⟨rfl, rfl⟩ := append_inj hsplit hlength
    exact newestLast_of_drops hstays hexpired hold hyoung
  · intro newest
    refine ⟨gone, kept, _, hrun, rfl, h.of_suffix hleft hro, rfl, rfl, ?_, ?_⟩
    · intro r hr
      obtain ⟨x, hx, hrx⟩ := mem_records.mp hr
      obtain ⟨before, after, rfl⟩ := append_of_mem hx
      obtain ⟨last, hlast, hall⟩ := newest before x (after ++ kept) (by simp) fun y hy => hexpired y (mem_append_left _ hy)
      obtain ⟨last', hlast', hold⟩ := hexpired x hx
      cases hlast.symm.trans hlast'
      exact hall hold r hrx
    · intro x hx
      obtain ⟨rest, rfl⟩ : ∃ rest, kept = x :: rest := by
        cases kept with
        | nil => cases hx
        | cons y rest =>
          cases hx
          exact ⟨rest, rfl⟩
      obtain ⟨last, hlast, -⟩ := newest gone x rest rfl hexpired
      exact ⟨last, mem_of_getLast? hlast, Int64.not_lt.mp fun hold => hstays x hx ⟨last, hlast, hold⟩⟩

def timed (offset : Int) (timestamp : Int64) : Record := ⟨offset, timestamp, none, some [1], []⟩

/-- The first segment is dropped; the second stays for its last record, though that is not its newest. -/
theorem time_retention_safe_pair : ∃ p : PartitionLog,
    p.Holds [⟨0, [timed 0 10, timed 1 20]⟩, ⟨2, [timed 2 30, timed 3 25]⟩] ⟨4, []⟩ ∧ (p.enforceTimeRetention 22).1 = (1, none) ∧
      p.DropsOldOnly [⟨0, [timed 0 10, timed 1 20]⟩, ⟨2, [timed 2 30, timed 3 25]⟩] ⟨4, []⟩ 22 := by
  have hfirst : Stored 0 [timed 0 10, timed 1 20] := by
    have hone := (Stored.nil 0).concat (r := timed 0 10) (Int.le_refl 0) (show Signed 8 0 by decide)
      (show 0 - 0 < 2 ^ 32 by decide) (by decide +kernel)
    exact hone.concat (Int.le_refl 1) (show Signed 8 1 by decide) (show 1 - 0 < 2 ^ 32 by decide) (by decide +kernel)
  have hsecond : Stored 2 [timed 2 30, timed 3 25] := by
    have hone := (Stored.nil 2).concat (r := timed 2 30) (Int.le_refl 2) (show Signed 8 2 by decide)
      (show 2 - 2 < 2 ^ 32 by decide) (by decide +kernel)
    exact hone.concat (Int.le_refl 3) (show Signed 8 3 by decide) (show 3 - 2 < 2 ^ 32 by decide) (by decide +kernel)
  obtain ⟨p₁, h₁, ht₁⟩ := exists_sealed hfirst
  obtain ⟨p, h, -⟩ := h₁.seal_pair ht₁ hsecond
  have hnewest : NewestLast 22 [⟨0, [timed 0 10, timed 1 20]⟩, ⟨2, [timed 2 30, timed 3 25]⟩] := by
    intro gone x kept hsplit hgone
    rcases gone with _ | ⟨y, _ | ⟨z, gone⟩⟩
    · cases hsplit
      exact ⟨timed 1 20, rfl, fun _ => by decide⟩
    · cases hsplit
      exact ⟨timed 3 25, rfl, fun hold => absurd hold (by decide)⟩
    · cases gone <;> cases hsplit
  refine ⟨p, h, ?_, (time_retention_safe h 22).mpr hnewest⟩
  obtain ⟨gone, kept, p', hrun, hsplit, -, -, -, hold, hyoung⟩ := (time_retention_safe h 22).mpr hnewest
  rcases gone with _ | ⟨y, _ | ⟨z, gone⟩⟩
  · obtain rfl : kept = _ := hsplit.symm
    obtain ⟨r, hr, hyoung⟩ := hyoung _ rfl
    rcases mem_pair.mp hr with rfl | rfl <;> exact absurd hyoung (by decide)
  · rw [hrun]
    rfl
  · obtain ⟨-, hrest⟩ := cons.inj hsplit
    obtain ⟨rfl, -⟩ := cons.inj hrest
    exact absurd (hold (timed 2 30) (by simp [records])) (by decide)

/-- A record stamped 10 goes with the later one stamped 1, though the cutoff is 5. -/
theorem time_retention_drops_young :
    (do let p ← runAll step (← openPartition [] 60) [.append ⟨0, 10, none, some [1], []⟩, .append ⟨0, 1, none, some [2], []⟩]
        Except.ok ((p.read 0 2).1, (p.enforceTimeRetention 5).1, ((p.enforceTimeRetention 5).2.read 0 2).1)) =
      .ok (.ok [⟨0, 10, none, some [1], []⟩, ⟨1, 1, none, some [2], []⟩], (1, none), .ok []) := by
  decide +kernel

theorem size_sum (rep : Forall₂ Segment.Represents ss cs) :
    (ss.map Segment.size).sum = (frames (records cs)).length := by
  induction rep with
  | nil => rfl
  | @cons s x ss cs hs rep ih => rw [map_cons, sum_cons, ih, hs.holds.size, records_cons, frames_append, length_append]

theorem Holds.drop (h : p.Holds cs c) (d : Nat) : PartitionLog.Holds { p with sealed := p.sealed.drop d } (cs.drop d) c := by
  have hsealed := forall₂_drop d h.sealed
  rw [← take_append_drop d cs] at h
  exact h.of_suffix hsealed fun s hs => h.readOnly s (mem_of_mem_drop hs)

theorem Holds.enforceSizeRetention (h : p.Holds cs c) (spared : SparedBySize maxBytes cs c) :
    ∃ gone kept, cs = gone ++ kept ∧ (p.enforceSizeRetention maxBytes).2.Holds kept c ∧
      (p.enforceSizeRetention maxBytes).2.active = p.active ∧ ∀ x ∈ gone, ¬ x.Needed (cs ++ [c]) := by
  obtain ⟨d, hd, hrun, -, hover⟩ := enforceSizeRetention_eq p maxBytes
  rw [hrun]
  refine ⟨cs.take d, cs.drop d, (take_append_drop d cs).symm, h.drop d, rfl, fun x hx hneeded => ?_⟩
  obtain ⟨a, b, hsplit⟩ := append_of_mem hx
  have hcs : cs = a ++ x :: (b ++ cs.drop d) := by rw [← cons_append, ← append_assoc, ← hsplit, take_append_drop]
  have hlt : a.length < d := by
    have := congrArg length hsplit
    simp only [length_take, length_append, length_cons] at this
    omega
  have hsize : ((p.sealed.drop a.length ++ [p.active]).map Segment.size).sum = _ := size_sum (h.drop a.length).segments
  have hwithin := spared a x _ hcs hneeded
  have hdrop : cs.drop a.length = x :: (b ++ cs.drop d) := by
    conv_lhs => rw [hcs]
    exact drop_left' rfl
  have hmore := hover a.length hlt
  rw [hdrop] at hsize
  omega

/-- Size retention deletes the fewest oldest segments that bring the log within the limit, or all but the active one;
    the other records are read as before. -/
theorem size_retention_minimal (p : PartitionLog) {maxBytes : Int} (positive : 0 < maxBytes) :
    ∃ d ≤ p.sealed.length, p.enforceSizeRetention maxBytes = (d, { p with sealed := p.sealed.drop d }) ∧
      (d < p.sealed.length → (((p.sealed.drop d ++ [p.active]).map Segment.size).sum : Int) ≤ maxBytes) ∧
      (∀ e < d, maxBytes < ((p.sealed.drop e ++ [p.active]).map Segment.size).sum) ∧
      (p.enforceSizeRetention maxBytes).2.highWater = p.highWater ∧
      ∀ cs c, p.Holds cs c → (∀ e, ((p.sealed.drop e ++ [p.active]).map Segment.size).sum =
        (frames (records (cs.drop e ++ [c]))).length) ∧
        ∀ n m, 0 < m → ((p.enforceSizeRetention maxBytes).2.read n m).1 =
          .ok (((since n (records (cs.drop d ++ [c]))).map Record.norm).take m.toNat) := by
  obtain ⟨d, hd, hrun, hwithin, hover⟩ := enforceSizeRetention_eq p maxBytes
  rw [hrun]
  refine ⟨d, hd, rfl, hwithin positive, hover, rfl, fun cs c h => ⟨fun e => size_sum (h.drop e).segments, fun n m hm => ?_⟩⟩
  obtain ⟨p', hread, -⟩ := (h.drop d).read hm
  rw [hread]

theorem size_retention_minimal_pair : ∃ p :
    PartitionLog, p.Holds [⟨0, [keyed [1] [1], { keyed [1] [2] with offset := 1 }]⟩] ⟨2, []⟩ ∧
    ∃ d ≤ p.sealed.length, (p.enforceSizeRetention 1).1 = d ∧ ∀ e < d,
      1 < (((p.sealed.drop e ++ [p.active]).map Segment.size).sum : Int) := by
  obtain ⟨p, h, -⟩ := exists_sealed (stored_pair [1] [1] [1] [2] (by decide +kernel))
  obtain ⟨d, hd, hrun, -, hover, -⟩ := size_retention_minimal p Int.one_pos
  exact ⟨p, h, d, hd, by rw [hrun], hover⟩

def OfMap (φ : List Record → Prop) : Prop := ∀ {rs rs' : List Record}, (∀ r ∈ rs', r ∈ rs) → fold rs' = fold rs → φ rs → φ rs'

structure ShowsAs (p : PartitionLog) (φ : List Record → Prop) (cs : List Chunk) (c : Chunk) : Prop where
  holds : p.Holds cs c
  tailed : p.active.logFile.Tailed
  nonneg : ∀ r ∈ records (cs ++ [c]), 0 ≤ r.offset
  highWater : 0 ≤ p.highWater
  shown : φ (sealedRecords (cs ++ [c]))

def Shows (φ : List Record → Prop) (p : PartitionLog) : Prop := ∃ cs c, p.ShowsAs φ cs c

structure Swept (p : PartitionLog) (cs : List Chunk) (c : Chunk) (p' : PartitionLog) (cs' : List Chunk) : Prop where
  holds : p'.Holds cs' c
  active : p'.active = p.active
  sublist : ∀ r ∈ sealedRecords (cs' ++ [c]), r ∈ sealedRecords (cs ++ [c])
  fold : Log.fold (sealedRecords (cs' ++ [c])) = Log.fold (sealedRecords (cs ++ [c]))

variable {φ : List Record → Prop} {p' : PartitionLog} {cs' : List Chunk}

theorem ShowsAs.swept (h : p.ShowsAs φ cs c) (ofMap : OfMap φ) (swept : p.Swept cs c p' cs') :
    p'.ShowsAs φ cs' c := by
  refine ⟨swept.holds, by rw [swept.active]; exact h.tailed, fun r hr => ?_, ?_, ofMap swept.sublist swept.fold h.shown⟩
  · obtain ⟨a, ha, heq⟩ := mem_map.mp (swept.sublist r.norm (mem_map_of_mem hr))
    have hnonneg := h.nonneg a ha
    rwa [← Record.norm_offset, heq] at hnonneg
  · rw [PartitionLog.highWater, swept.active]
    exact h.highWater

theorem swept_of_dropped {gone kept : List Chunk} (holds : p'.Holds kept c) (active : p'.active = p.active)
    (unneeded : ∀ x ∈ gone, ¬ x.Needed (gone ++ kept ++ [c])) : p.Swept (gone ++ kept) c p' kept := by
  refine ⟨holds, active, fun r hr => ?_, fold_of_live (live_of_dropped unneeded)⟩
  rw [append_assoc, sealedRecords_append gone]
  exact mem_append_right _ hr

theorem Compacts.swept (h : p.Compacts cs c p' cs') (asc : (sealedRecords cs).Pairwise fun a b => a.offset < b.offset) :
    p.Swept cs c p' cs' := by
  have hafter : sealedRecords cs' = liveRecords (sealedRecords cs) := by rw [sealedRecords, h.records, live_normal]
  refine ⟨h.holds, h.active, fun r hr => ?_, fold_of_live fun k => ?_⟩
  · rw [sealedRecords_append, hafter] at hr
    rw [sealedRecords_append]
    exact (mem_append.mp hr).elim (fun hr => mem_append_left _ (mem_of_mem_filter hr)) (mem_append_right _)
  · rw [sealedRecords_append, sealedRecords_append, hafter]
    exact Keying.live_append_of_retained (K := keying) asc (asc.filter _) (fun r => mem_liveRecords asc) _

theorem Shows.append {ψ : List Record → Prop} (h : p.Shows φ) {r : Record} (hoff : r.offset = p.highWater)
    (small : p.Small (.append r))
    (step : ∀ rs, φ rs → ψ (rs ++ [r.norm])) : ∃ p', p.append r = .ok (p.highWater, p') ∧ p'.Shows ψ := by
  obtain ⟨cs, c, hs⟩ := h
  obtain ⟨hbytes, hspan, hint⟩ := small
  rw [← hoff] at hbytes
  have hsigned : Signed 8 r.offset := by
    have := hs.highWater
    simp only [Signed]
    omega
  obtain ⟨p', cs', c', happ, hholds', htailed, hnext, hrecords⟩ :=
    hs.holds.append hs.tailed (hs.holds.stored_append hoff hsigned (hs.holds.active.base ▸ hspan) hbytes)
  refine ⟨p', by rw [happ, hoff], cs', c', hholds', htailed, fun x hx => ?_, ?_, ?_⟩
  · rw [hrecords] at hx
    rcases mem_append.mp hx with hx | hx
    · exact hs.nonneg x hx
    · rw [mem_singleton.mp hx, hoff]
      exact hs.highWater
  · rw [hholds'.highWater, hnext, hoff]
    exact Int.le_add_one hs.highWater
  · rw [sealedRecords, hrecords, map_append]
    exact step _ hs.shown

theorem Shows.reopen (h : p.Shows φ) (maxBytes : Int) : ∃ p', openPartition p.close maxBytes = .ok p' ∧ p'.Shows φ := by
  obtain ⟨cs, c, hs⟩ := h
  obtain ⟨p', hopen, hholds', htailed, -⟩ := hs.holds.reopen maxBytes
  refine ⟨p', hopen, cs, c, hholds', htailed, hs.nonneg, ?_, hs.shown⟩
  rw [hholds'.highWater, ← hs.holds.highWater]
  exact hs.highWater

theorem shows_empty (empty : φ []) (maxBytes : Int) : ∃ p, openPartition [] maxBytes = .ok p ∧ p.Shows φ := by
  obtain ⟨p, hopen, hholds, hactive⟩ := openPartition_empty maxBytes
  refine ⟨p, hopen, [], ⟨0, []⟩, hholds, ?_, forall_mem_nil _, ?_, empty⟩
  · rw [hactive]
    exact .inl rfl
  · rw [hholds.highWater]
    exact Int.le_refl 0

end PartitionLog
end Holocron.Log

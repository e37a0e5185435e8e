import Mathlib.Data.List.Forall2
import Holocron.Log.Partition
import Holocron.Theorems.Log.Segment

/-! A partition log that stores a list of chunks, one for each segment (`PartitionLog.Holds`); a read runs over them as
    over one list. -/

namespace Holocron.Log
open Lib List

structure Chunk where
  base : Int
  records : List Record
  deriving DecidableEq, Repr

def records (cs : List Chunk) : List Record := cs.flatMap Chunk.records

def Chunk.next (c : Chunk) : Int := endOffset c.base c.records

structure Chain (cs : List Chunk) : Prop where
  sound : ∀ c ∈ cs, Sound c.base c.records
  chained : cs.Pairwise fun c d => c.base < d.base ∧ c.next ≤ d.base

structure Layout (cs : List Chunk) : Prop where
  stored : ∀ c ∈ cs, Stored c.base c.records
  chained : cs.Pairwise fun c d => c.base < d.base ∧ c.next ≤ d.base

@[simp] theorem records_nil : records [] = [] := rfl
@[simp] theorem records_cons (c : Chunk) (cs : List Chunk) : records (c :: cs) = c.records ++ records cs := rfl
@[simp] theorem records_append (a b : List Chunk) : records (a ++ b) = records a ++ records b := flatMap_append

variable {cs : List Chunk} {c d : Chunk} {p : PartitionLog} {r : Record}

theorem mem_records : r ∈ records cs ↔ ∃ c ∈ cs, r ∈ c.records := mem_flatMap

theorem Chain.tail (h : Chain (c :: cs)) : Chain cs :=
  ⟨fun d hd => h.sound d (mem_cons_of_mem c hd), h.chained.of_cons⟩

theorem Chain.sublist {ds : List Chunk} (h : Chain cs) (hsub : ds.Sublist cs) : Chain ds :=
  ⟨fun d hd => h.sound d (hsub.subset hd), h.chained.sublist hsub⟩

theorem Chain.bases (h : Chain cs) : (cs.map Chunk.base).Pairwise (· < ·) :=
  pairwise_map.mpr (h.chained.imp And.left)

theorem Chain.next_le (h : Chain (c :: cs)) : ∀ r ∈ records cs, c.next ≤ r.offset := by
  intro r hr
  obtain ⟨d, hd, hr⟩ := mem_records.mp hr
  have hbase := (h.sound d (mem_cons_of_mem c hd)).base_le r hr
  have hnext := (rel_of_pairwise_cons h.chained hd).2
  omega

theorem Chain.lt_next (h : Chain cs) (hc : c ∈ cs) : ∀ r ∈ c.records, r.offset < c.next :=
  lt_endOffset c.base (h.sound c hc).ascending

theorem Chain.ascending (h : Chain cs) : (records cs).Pairwise fun a b => a.offset < b.offset := by
  induction cs with
  | nil => exact Pairwise.nil
  | cons c cs ih =>
    refine pairwise_append.mpr ⟨(h.sound c (by simp)).ascending, ih h.tail, fun a ha b hb => ?_⟩
    exact Int.lt_of_lt_of_le (h.lt_next (by simp) a ha) (h.next_le b hb)

theorem Chain.replace_last (h : Chain (cs ++ [c])) (hbase : d.base = c.base) (sound : Sound d.base d.records) :
    Chain (cs ++ [d]) := by
  obtain ⟨hcs, -, hlast⟩ := pairwise_append.mp h.chained
  refine ⟨fun x hx => ?_, pairwise_append.mpr ⟨hcs, pairwise_singleton _ _, fun x hx y hy => ?_⟩⟩
  · rcases mem_append.mp hx with hx | hx
    · exact h.sound x (mem_append_left _ hx)
    · rwa [mem_singleton.mp hx]
  · rw [mem_singleton.mp hy, hbase]
    exact hlast x hx c (mem_singleton_self c)

theorem Layout.chain (h : Layout cs) : Chain cs := ⟨fun c hc => (h.stored c hc).sound, h.chained⟩

theorem Layout.tail (h : Layout (c :: cs)) : Layout cs :=
  ⟨fun d hd => h.stored d (mem_cons_of_mem c hd), h.chained.of_cons⟩

theorem Layout.append_iff {a b : List Chunk} :
    Layout (a ++ b) ↔ Layout a ∧ Layout b ∧ ∀ c ∈ a, ∀ d ∈ b, c.base < d.base ∧ c.next ≤ d.base := by
  constructor
  · intro h
    obtain ⟨ha, hb, hab⟩ := pairwise_append.mp h.chained
    exact ⟨⟨fun c hc => h.stored c (mem_append_left b hc), ha⟩,
      ⟨fun c hc => h.stored c (mem_append_right a hc), hb⟩, hab⟩
  · rintro ⟨ha, hb, hab⟩
    refine ⟨fun c hc => ?_, pairwise_append.mpr ⟨ha.chained, hb.chained, hab⟩⟩
    rcases mem_append.mp hc with hc | hc
    · exact ha.stored c hc
    · exact hb.stored c hc

theorem Layout.bases (h : Layout cs) : (cs.map Chunk.base).Pairwise (· < ·) := h.chain.bases

theorem Layout.next_le (h : Layout (c :: cs)) : ∀ r ∈ records cs, c.next ≤ r.offset := h.chain.next_le

theorem Layout.lt_next (h : Layout cs) (hc : c ∈ cs) : ∀ r ∈ c.records, r.offset < c.next :=
  h.chain.lt_next hc

theorem Layout.ascending (h : Layout cs) : (records cs).Pairwise fun a b => a.offset < b.offset := h.chain.ascending

theorem Layout.next_le_last (h : Layout (cs ++ [c])) (hd : d ∈ cs ++ [c]) : d.next ≤ c.next := by
  rcases mem_append.mp hd with hd | hd
  · obtain ⟨-, hlast, hbefore⟩ := append_iff.mp h
    exact Int.le_trans (hbefore d hd c mem_cons_self).2 (hlast.stored c mem_cons_self).base_le_end
  · rw [mem_singleton.mp hd]

structure Segment.Represents (s : Segment) (c : Chunk) : Prop where
  base : s.baseOffset = c.base
  holds : s.Holds c.records
  canonical : s.compacting = false

theorem Segment.Represents.highWater {s : Segment} (h : s.Represents c) : s.highWater = c.next := by
  rw [h.holds.highWater, h.base]
  rfl

theorem Segment.Represents.kept {s s' : Segment} {rs : List Record} (h : s.Represents c) (hk : Segment.Kept s s')
    (hh : s'.Holds rs) : s'.Represents ⟨c.base, rs⟩ :=
  ⟨hk.baseOffset.trans h.base, hh, hk.compacting.trans h.canonical⟩

structure PartitionLog.Covers (p : PartitionLog) (cs : List Chunk) (c : Chunk) : Prop where
  sealed : List.Forall₂ Segment.Represents p.sealed cs
  active : p.active.Represents c
  readOnly : ∀ s ∈ p.sealed, s.logBuf = none
  writable : p.active.logBuf.isSome = true

/-- The segments hold the chunks, one after the other in the offsets. -/
structure PartitionLog.Holds (p : PartitionLog) (cs : List Chunk) (c : Chunk) : Prop extends PartitionLog.Covers p cs c where
  layout : Layout (cs ++ [c])

section
variable {α β : Type} {R : α → β → Prop} {l : List α}

theorem forall₂_concat_right {a : List β} {x : β}
    (h : Forall₂ R l (a ++ [x])) : ∃ l' y, l = l' ++ [y] ∧ Forall₂ R l' a ∧ R y x := by
  have hdrop := forall₂_drop_append l a [x] h
  obtain ⟨y, l', hxy, hnil, hl⟩ := forall₂_cons_right_iff.mp hdrop
  rw [forall₂_nil_right_iff.mp hnil] at hl
  exact ⟨l.take a.length, y, by rw [← hl, take_append_drop], forall₂_take_append l a [x] h, hxy⟩

theorem exists_of_forall₂_right {l' : List β} (h : Forall₂ R l l')
    {y : β} (hy : y ∈ l') : ∃ x ∈ l, R x y := by
  induction h with
  | nil => cases hy
  | @cons a b l l' hab _ ih =>
    rcases mem_cons.mp hy with rfl | hy
    · exact ⟨a, mem_cons_self, hab⟩
    · obtain ⟨x, hx, hxy⟩ := ih hy
      exact ⟨x, mem_cons_of_mem a hx, hxy⟩

theorem exists_of_forall₂_left {l' : List β} (h : Forall₂ R l l')
    {x : α} (hx : x ∈ l) : ∃ y ∈ l', R x y := exists_of_forall₂_right h.flip hx

end

/-- A pairwise relation may use that its left side is a member. -/
theorem forall₂_of_mem {α β : Type} {R S : α → β → Prop} {l : List α} {l' : List β} (h : Forall₂ R l l')
    (himp : ∀ x y, x ∈ l → R x y → S x y) : Forall₂ S l l' := by
  induction h with
  | nil => exact Forall₂.nil
  | @cons a b l l' hab _ ih =>
    exact Forall₂.cons (himp a b mem_cons_self hab) (ih fun x y hx => himp x y (mem_cons_of_mem a hx))

theorem PartitionLog.Covers.segments (h : p.Covers cs c) : Forall₂ Segment.Represents p.segments (cs ++ [c]) :=
  rel_append h.sealed (Forall₂.cons h.active Forall₂.nil)

theorem PartitionLog.Covers.highWater (h : p.Covers cs c) : p.highWater = c.next := h.active.highWater

namespace PartitionLog

variable {ss : List Segment}

theorem Covers.setSegments (h : p.Covers cs c) (rep : Forall₂ Segment.Represents ss (cs ++ [c]))
    (kept : Forall₂ Segment.Kept p.segments ss) :
    (p.setSegments ss).Covers cs c ∧ Segment.Kept p.active (p.setSegments ss).active := by
  obtain ⟨sealed, active, rfl, hsealed, hactive⟩ := forall₂_concat_right rep
  obtain ⟨sealed₀, active₀, heq, hkept, hkeptActive⟩ := forall₂_concat_right kept
  obtain ⟨rfl, hactive₀⟩ := append_inj' heq rfl
  obtain rfl : p.active = active₀ := head_eq_of_cons_eq hactive₀
  simp only [setSegments, dropLast_concat, getLast?_append]
  refine ⟨⟨hsealed, hactive, ?_, hkeptActive.active.trans h.writable⟩, hkeptActive⟩
  intro s hs
  obtain ⟨s₀, hs₀, hk⟩ := exists_of_forall₂_right hkept hs
  have := hk.active
  rw [h.readOnly s₀ hs₀] at this
  exact Option.isNone_iff_eq_none.mp (Option.isSome_eq_false_iff.mp this)

theorem next_of_returned (layout : Layout (c :: cs)) (n : Int) (max : Nat) :
    since (((((since n c.records).map Record.norm).take max).getLast?.map fun r => r.offset + 1).getD n) (records cs) =
      since n (records cs) := by
  cases hlast : (((since n c.records).map Record.norm).take max).getLast? with
  | none => rfl
  | some x =>
    obtain ⟨r, hr, rfl⟩ := mem_map.mp (mem_of_mem_take (mem_of_getLast? hlast))
    obtain ⟨hmem, hn⟩ := mem_since.mp hr
    have hlt := layout.lt_next mem_cons_self r hmem
    have hle := layout.next_le
    simp only [Option.map_some, Option.getD_some, Record.norm_offset]
    rw [since_eq_self fun x hx => by have := hle x hx; omega, since_eq_self fun x hx => by have := hle x hx; omega]

/-- Reading on through segments is reading their records as one list. -/
theorem readLoop_layout (layout : Layout cs) (rep : Forall₂ Segment.Represents ss cs) (n : Int) (max : Nat) :
    ∃ ss', readLoop ss n max = (.ok (((since n (records cs)).map Record.norm).take max), ss') ∧
      Forall₂ Segment.Represents ss' cs ∧ Forall₂ Segment.Kept ss ss' := by
  induction rep generalizing n max with
  | nil => exact ⟨[], by simp [readLoop], Forall₂.nil, Forall₂.nil⟩
  | @cons s c ss cs hs rep ih =>
    rw [readLoop]
    split
    · rename_i hzero
      exact ⟨s :: ss, by simp [hzero], Forall₂.cons hs rep, forall₂_same.mpr fun t _ => Segment.Kept.refl t⟩
    obtain ⟨s', hread, hholds, hkept⟩ := hs.holds.readFrom n max
    have hnext := next_of_returned layout n max
    simp only [hread, Int.toNat_natCast]
    obtain ⟨ss', hloop, hrep, hall⟩ := ih layout.tail _ _
    rw [hloop, hnext]
    refine ⟨s' :: ss', ?_, Forall₂.cons (hs.kept hkept hholds) hrep, Forall₂.cons hkept hall⟩
    -- A full batch leaves no room, a short one is all the segment had.
    have hroom : max - (((since n c.records).map Record.norm).take max).length =
        max - ((since n c.records).map Record.norm).length := by
      rw [length_take]
      omega
    rw [hroom, records_cons, since_append, map_append, take_append]
    rfl

theorem bases_eq (rep : Forall₂ Segment.Represents ss cs) : ss.map Segment.baseOffset = cs.map Chunk.base := by
  induction rep with
  | nil => rfl
  | cons h _ ih => rw [map_cons, map_cons, ih, h.base]

/-- A read starts at the last segment whose base is not above its offset, or at the first. -/
theorem firstSegment_bounds (ascending : (cs.map Chunk.base).Pairwise (· < ·))
    (bases : p.segments.map Segment.baseOffset = cs.map Chunk.base) (n : Int) :
    (∀ (_ : 0 < p.firstSegment n), ∃ c, cs[p.firstSegment n]? = some c ∧ c.base ≤ n) ∧
      ∀ j c, p.firstSegment n < j → cs[j]? = some c → n < c.base := by
  have hlen : p.segments.length = cs.length := by simpa using congrArg length bases
  have htest : ∀ i : Nat, ((p.segments[i]?).any fun s => decide (n < s.baseOffset)) =
      (cs[i]?).any fun c => decide (n < c.base) := by
    intro i
    have := congrArg (fun l => (l[i]?).any fun b => decide (n < b)) bases
    simpa [Option.any_map] using this
  have mono : Threshold p.segments.length fun i => (p.segments[i]?).any fun s => decide (n < s.baseOffset) := by
    intro i j hij hj hi
    rw [hlen] at hj
    simp only [htest, List.getElem?_eq_getElem hj, List.getElem?_eq_getElem (Nat.lt_of_le_of_lt hij hj), Option.any_some,
      decide_eq_true_eq] at hi ⊢
    rcases Nat.eq_or_lt_of_le hij with rfl | hlt
    · exact hi
    · have := pairwise_iff_getElem.mp (pairwise_map.mp ascending) i j (Nat.lt_of_le_of_lt hij hj) hj hlt
      exact Int.lt_trans hi this
  obtain ⟨hle, hbelow, habove⟩ := search_spec mono
  constructor
  · intro hpos
    have hlt : p.firstSegment n < cs.length := by
      unfold firstSegment at hpos ⊢
      omega
    have hbase := hbelow (p.firstSegment n) (by unfold firstSegment at hpos ⊢; omega)
    simp only [htest, List.getElem?_eq_getElem hlt, Option.any_some, decide_eq_false_iff_not, Int.not_lt] at hbase
    exact ⟨cs[p.firstSegment n], List.getElem?_eq_getElem hlt, hbase⟩
  · intro j c hj hc
    obtain ⟨hjlt, -⟩ := List.getElem?_eq_some_iff.mp hc
    have htrue := habove j (by unfold firstSegment at hj; omega) (by rw [hlen]; exact hjlt)
    simpa only [htest, hc, Option.any_some, decide_eq_true_eq] using htrue

theorem since_records_drop (layout : Layout cs) {i : Nat} (hc : cs[i]? = some c) {n : Int} (hn : c.base ≤ n) :
    since n (records (cs.drop i)) = since n (records cs) := by
  obtain ⟨hlt, rfl⟩ := List.getElem?_eq_some_iff.mp hc
  have hsplit := take_append_drop i cs
  have hskipped : since n (records (cs.take i)) = [] := by
    refine since_eq_nil fun r hr => ?_
    obtain ⟨d, hd, hr⟩ := mem_records.mp hr
    have hnext : d.next ≤ cs[i].base := by
      have hchain := layout.chained
      rw [← hsplit] at hchain
      refine ((pairwise_append.mp hchain).2.2 d hd _ ?_).2
      rw [drop_eq_getElem_cons hlt]
      exact mem_cons_self
    have := layout.lt_next (mem_of_mem_take hd) r hr
    omega
  calc since n (records (cs.drop i))
      = since n (records (cs.take i)) ++ since n (records (cs.drop i)) := by rw [hskipped, nil_append]
    _ = since n (records cs) := by rw [← since_append, ← records_append, hsplit]

/-- The segments a read skips end at or below the offset it starts from. -/
theorem firstSegment_spec (layout : Layout cs) (rep : Forall₂ Segment.Represents p.segments cs) (n : Int) :
    since n (records (cs.drop (p.firstSegment n))) = since n (records cs) := by
  rcases Nat.eq_zero_or_pos (p.firstSegment n) with hzero | hpos
  · rw [hzero, drop_zero]
  · obtain ⟨c, hc, hbase⟩ := (firstSegment_bounds layout.bases (bases_eq rep) n).1 hpos
    exact since_records_drop layout hc hbase

theorem Covers.read (h : p.Covers cs c) {n m : Int} (hm : 0 < m) {out : List Record} {ss' : List Segment}
    (hloop : readLoop (p.segments.drop (p.firstSegment n)) n m.toNat = (.ok out, ss'))
    (hrep : List.Forall₂ Segment.Represents ss' ((cs ++ [c]).drop (p.firstSegment n)))
    (hkept : List.Forall₂ Segment.Kept (p.segments.drop (p.firstSegment n)) ss') :
    ∃ p', p.read n m = (.ok out, p') ∧ p'.Covers cs c ∧ p'.maxBytes = p.maxBytes ∧ Segment.Kept p.active p'.active := by
  have htake := List.forall₂_take (p.firstSegment n) h.segments
  have hsegs : List.Forall₂ Segment.Represents (p.segments.take (p.firstSegment n) ++ ss') (cs ++ [c]) := by
    rw [← take_append_drop (p.firstSegment n) (cs ++ [c])]
    exact rel_append htake hrep
  have hkeep : List.Forall₂ Segment.Kept p.segments (p.segments.take (p.firstSegment n) ++ ss') := by
    nth_rewrite 1 [← take_append_drop (p.firstSegment n) p.segments]
    exact rel_append (List.forall₂_same.mpr fun s _ => Segment.Kept.refl s) hkept
  obtain ⟨hcovers, hactive⟩ := h.setSegments hsegs hkeep
  refine ⟨_, ?_, hcovers, rfl, hactive⟩
  rw [PartitionLog.read, if_neg (Int.not_le.mpr hm)]
  simp only [hloop]

theorem sizeLoop_eq (maxBytes active : Int) (ss : List Segment) :
    ∃ d ≤ ss.length, sizeLoop maxBytes ((ss.map Segment.size).sum + active) ss = (d, ss.drop d) ∧
      (d < ss.length → ((ss.drop d).map Segment.size).sum + active ≤ maxBytes) ∧
      ∀ e < d, maxBytes < ((ss.drop e).map Segment.size).sum + active := by
  induction ss with
  | nil => exact ⟨0, Nat.le_refl 0, rfl, nofun, nofun⟩
  | cons s ss ih =>
    rw [sizeLoop]
    split
    · rename_i hover
      obtain ⟨d, hd, hloop, hwithin, hless⟩ := ih
      have hrest : ((s :: ss).map Segment.size).sum + active - s.size = (ss.map Segment.size).sum + active := by
        simp only [map_cons, sum_cons]
        omega
      rw [hrest, hloop]
      refine ⟨d + 1, Nat.succ_le_succ hd, rfl, fun h => hwithin (Nat.lt_of_succ_lt_succ h), fun e he => ?_⟩
      cases e with
      | zero => exact hover
      | succ e => exact hless e (Nat.lt_of_succ_lt_succ he)
    · exact ⟨0, Nat.zero_le _, rfl, fun _ => Int.not_lt.mp ‹_›, nofun⟩

theorem enforceSizeRetention_eq (p : PartitionLog) (maxBytes : Int) :
    ∃ d ≤ p.sealed.length, p.enforceSizeRetention maxBytes = (d, { p with sealed := p.sealed.drop d }) ∧
      (0 < maxBytes → d < p.sealed.length → ((p.sealed.drop d ++ [p.active]).map Segment.size).sum ≤ maxBytes) ∧
      ∀ e < d, maxBytes < ((p.sealed.drop e ++ [p.active]).map Segment.size).sum := by
  have hsum (ss : List Segment) :
    (((ss ++ [p.active]).map Segment.size).sum : Int) = (ss.map Segment.size).sum + p.active.size := by simp
  simp only [enforceSizeRetention, segments, hsum]
  split
  · exact ⟨0, Nat.zero_le _, rfl, fun h => absurd h (Int.not_lt.mpr ‹_›), nofun⟩
  · obtain ⟨d, hd, hloop, hwithin, hless⟩ := sizeLoop_eq maxBytes p.active.size p.sealed
    exact ⟨d, hd, by rw [hloop], fun _ => hwithin, hless⟩

theorem Holds.read (h : p.Holds cs c) {n m : Int} (hm : 0 < m) :
    ∃ p', p.read n m = (.ok (((since n (records (cs ++ [c]))).map Record.norm).take m.toNat), p') ∧ p'.Holds cs c ∧
      p'.maxBytes = p.maxBytes ∧ Segment.Kept p.active p'.active := by
  have hlayout := h.layout
  rw [← take_append_drop (p.firstSegment n) (cs ++ [c])] at hlayout
  obtain ⟨ss', hloop, hrep, hkept⟩ := readLoop_layout (Layout.append_iff.mp hlayout).2.1
    (forall₂_drop (p.firstSegment n) h.segments) n m.toNat
  rw [firstSegment_spec h.layout h.segments] at hloop
  obtain ⟨p', hread, hcovers, hmax⟩ := h.toCovers.read hm hloop hrep hkept
  exact ⟨p', hread, ⟨hcovers, h.layout⟩, hmax⟩

/-- A read panics where it wants too many records of a segment that has some. -/
theorem readLoopPanics_layout (layout : Layout cs) (rep : Forall₂ Segment.Represents ss cs) (n : Int) (max : Nat) :
    readLoopPanics ss n max = true ↔ maxSlice < max ∧ ∃ c ∈ cs, n < c.next := by
  induction rep generalizing n max with
  | nil => simp [readLoopPanics]
  | @cons s c ss cs hs rep ih =>
    rw [readLoopPanics]
    split
    · rename_i hzero
      simp [hzero]
    rw [hs.highWater]
    by_cases hmany : maxSlice < max
    · by_cases hn : n < c.next
      · rw [if_pos ⟨hn, hmany⟩]
        exact iff_of_true rfl ⟨hmany, c, mem_cons_self, hn⟩
      · -- the segment has nothing from there on, and the loop goes on as it was
        have hnone : since n c.records = [] :=
          since_eq_nil fun r hr => Int.lt_of_lt_of_le (layout.lt_next mem_cons_self r hr) (Int.not_lt.mp hn)
        obtain ⟨s', hread, -, -⟩ := hs.holds.readFrom n max
        rw [hnone, map_nil, take_nil] at hread
        rw [if_neg fun h => hn h.1, hread]
        refine (ih layout.tail n max).trans (and_congr_right fun _ => ?_)
        constructor
        · rintro ⟨d, hd, hlt⟩
          exact ⟨d, mem_cons_of_mem c hd, hlt⟩
        · rintro ⟨d, hd, hlt⟩
          rcases mem_cons.mp hd with rfl | hd
          · exact absurd hlt hn
          · exact ⟨d, hd, hlt⟩
    · obtain ⟨s', hread, -, -⟩ := hs.holds.readFrom n max
      rw [if_neg fun h => hmany h.2, hread]
      refine (ih layout.tail _ _).trans (iff_of_false (fun h => ?_) fun h => hmany h.1)
      exact hmany (Nat.lt_of_lt_of_le h.1 (Nat.sub_le _ _))

theorem firstSegment_lt (p : PartitionLog) (n : Int) : p.firstSegment n < p.segments.length := by
  have hlen : 0 < p.segments.length := by simp [segments]
  have hle := search_le p.segments.length fun i => (p.segments[i]?).any fun s => decide (n < s.baseOffset)
  unfold firstSegment
  omega

theorem Holds.readPanics (h : p.Holds cs c) (n m : Int) : p.readPanics n m = true ↔ maxSlice < m ∧ n < p.highWater := by
  rw [PartitionLog.readPanics]
  split
  · rename_i hm
    exact iff_of_false Bool.false_ne_true fun hmany => absurd (Int.lt_of_lt_of_le hmany.1 hm)
      (Int.not_lt.mpr (Int.natCast_nonneg _))
  rename_i hm
  have hlayout := h.layout
  rw [← take_append_drop (p.firstSegment n) (cs ++ [c])] at hlayout
  rw [readLoopPanics_layout (Layout.append_iff.mp hlayout).2.1 (List.forall₂_drop (p.firstSegment n) h.segments)]
  refine and_congr ?_ ⟨?_, fun hn => ⟨c, ?_, h.highWater ▸ hn⟩⟩
  · rw [← Int.ofNat_lt, Int.toNat_of_nonneg (Int.le_of_lt (Int.not_le.mp hm))]
  · rintro ⟨d, hd, hlt⟩
    rw [h.highWater]
    exact Int.lt_of_lt_of_le hlt (h.layout.next_le_last (mem_of_mem_drop hd))
  · have hlt := p.firstSegment_lt n
    rw [h.segments.length_eq, length_append] at hlt
    rw [drop_append_of_le_length (Nat.le_of_lt_succ hlt)]
    exact mem_append_right _ (mem_singleton_self c)

theorem Holds.stored_append (h : p.Holds cs c) (hoff : r.offset = p.highWater) (hsigned : Signed 8 r.offset)
    (hspan : p.highWater - c.base < 2 ^ 32) (hbytes : p.active.size + (encodeRecord r).length < 2 ^ 32) :
      Stored c.base (c.records ++ [r]) := by
  refine (h.layout.stored c (by simp)).concat ?_ hsigned (hoff ▸ hspan) ?_
  · rw [hoff, h.highWater]
    exact Int.le_refl _
  · rw [h.active.holds.size] at hbytes
    simpa only [frames_append, frames_cons, frames_nil, append_nil, length_append] using hbytes

theorem Layout.replace_last (h : Layout (cs ++ [c])) (hbase : d.base = c.base) (stored : Stored d.base d.records) :
    Layout (cs ++ [d]) := by
  obtain ⟨hcs, -, hlast⟩ := Layout.append_iff.mp h
  refine Layout.append_iff.mpr ⟨hcs, ⟨?_, pairwise_singleton _ _⟩, ?_⟩
  · intro x hx
    rwa [mem_singleton.mp hx]
  · intro x hx y hy
    rw [mem_singleton.mp hy, hbase]
    exact hlast x hx c (mem_singleton_self c)

theorem chained_roll (h : (cs ++ [c]).Pairwise fun c d => c.base < d.base ∧ c.next ≤ d.base) (hlt : c.base < c.next) :
    (cs ++ [c] ++ [(⟨c.next, []⟩ : Chunk)]).Pairwise fun c d => c.base < d.base ∧ c.next ≤ d.base := by
  refine pairwise_append.mpr ⟨h, pairwise_singleton _ _, fun x hx y hy => ?_⟩
  rw [mem_singleton.mp hy]
  rcases mem_append.mp hx with hx | hx
  · obtain ⟨h₁, h₂⟩ := (pairwise_append.mp h).2.2 x hx c (mem_singleton_self c)
    exact ⟨Int.lt_trans h₁ hlt, Int.le_trans h₂ (Int.le_of_lt hlt)⟩
  · rw [mem_singleton.mp hx]
    exact ⟨hlt, Int.le_refl _⟩

/-- Sealing the active chunk of a non-empty log and starting the next one at its end. -/
theorem Layout.roll (h : Layout (cs ++ [c])) (hne : c.records ≠ []) : Layout (cs ++ [c] ++ [⟨c.next, []⟩]) := by
  have hbase : c.base < c.next := by
    obtain ⟨r, hr⟩ := exists_mem_of_ne_nil _ hne
    have hlow := (h.stored c (by simp)).base_le r hr
    have hhigh := h.lt_next (show c ∈ cs ++ [c] by simp) r hr
    omega
  refine ⟨fun x hx => ?_, chained_roll h.chained hbase⟩
  rcases mem_append.mp hx with hx | hx
  · exact h.stored x hx
  · rw [mem_singleton.mp hx]
    exact Stored.nil _

theorem Holds.rollLocked (h : p.Holds cs c) (hne : c.records ≠ []) : p.rollLocked.Holds (cs ++ [c]) ⟨c.next, []⟩ := by
  obtain ⟨hseal, -⟩ := h.active.holds.sealSegment
  refine ⟨⟨?_, ?_, ?_, rfl⟩, Layout.roll h.layout hne⟩
  · have hkept := Segment.flushIfActive_kept p.active
    exact rel_append h.sealed (Forall₂.cons ⟨hkept.baseOffset.trans h.active.base, hseal,
      hkept.compacting.trans h.active.canonical⟩ Forall₂.nil)
  · refine ⟨h.active.highWater, ?_, rfl⟩
    exact Segment.createSegmentWithSuffix_holds _ _ _
  · intro s hs
    rcases mem_append.mp hs with hs | hs
    · exact h.readOnly s hs
    · rw [mem_singleton.mp hs]
      rfl

section
variable {r : Record} (h : p.Holds cs c) (ht : p.active.logFile.Tailed) (stored : Stored c.base (c.records ++ [r]))
include h ht stored

theorem Holds.append_active :
    ∃ p' : PartitionLog, p.append r = .ok (r.offset, if p'.active.shouldRoll then p'.rollLocked else p') ∧
      p'.Holds cs ⟨c.base, c.records ++ [r]⟩ ∧ p'.active.logFile.Tailed ∧ Segment.Kept p.active p'.active := by
  obtain ⟨active, happ, hholds, htailed, hkept⟩ := h.active.holds.append h.writable ht (by rwa [h.active.base])
  refine ⟨{ p with active := active }, ?_, ⟨⟨h.sealed, h.active.kept hkept hholds, h.readOnly,
    hkept.active.trans h.writable⟩, Layout.replace_last h.layout rfl stored⟩, htailed, hkept⟩
  simp only [append, happ, bind, Except.bind]

theorem Holds.append :
    ∃ p' cs' c', p.append r = .ok (r.offset, p') ∧ p'.Holds cs' c' ∧ p'.active.logFile.Tailed ∧ c'.next = r.offset + 1 ∧
      records (cs' ++ [c']) = records (cs ++ [c]) ++ [r] := by
  obtain ⟨p', happ, hholds, htailed, -⟩ := h.append_active ht stored
  by_cases hroll : p'.active.shouldRoll
  · rw [if_pos hroll] at happ
    exact ⟨_, _, _, happ, hholds.rollLocked (by simp), Or.inl rfl, by simp [Chunk.next], by simp⟩
  · rw [if_neg hroll] at happ
    exact ⟨_, _, _, happ, hholds, htailed, by simp [Chunk.next], by simp⟩

end

theorem Holds.sync (h : p.Holds cs c) : p.sync.Holds cs c := by
  have hkept := Segment.flushIfActive_kept p.active
  exact ⟨⟨h.sealed, h.active.kept hkept h.active.holds.flush.1, h.readOnly, hkept.active.trans h.writable⟩, h.layout⟩

theorem Holds.snapshot (h : p.Holds cs c) : p.snapshot.2.Holds cs c := by
  have hkept := Segment.snapshotSync_kept p.active
  refine ⟨⟨?_, h.active.kept hkept h.active.holds.snapshotSync, ?_, hkept.active.trans h.writable⟩, h.layout⟩
  · refine forall₂_map_left_iff.mpr (h.sealed.imp fun s d hs => ?_)
    exact hs.kept (Segment.snapshotSync_kept s) hs.holds.snapshotSync
  · intro s hs
    obtain ⟨s₀, hs₀, rfl⟩ := mem_map.mp hs
    have := (Segment.snapshotSync_kept s₀).active
    rw [h.readOnly s₀ hs₀] at this
    exact Option.isNone_iff_eq_none.mp (Option.isSome_eq_false_iff.mp this)

end PartitionLog
end Holocron.Log

import Holocron.Theorems.Log.CompactSafe
import Holocron.Theorems.Storage.Contract

/-! What a store is to a reader of one partition, whose offsets may have gaps. Both implementations serve such readers. -/

namespace Holocron.Storage
open Lib Log List Function

variable {rs : List Record} {r : Record} {p : PartitionRef} {next n : Int}

theorem length_le_span (asc : rs.Pairwise fun a b => a.offset < b.offset) {lo hi : Int} (hle : lo ≤ hi)
    (within : ∀ r ∈ rs, lo ≤ r.offset ∧ r.offset < hi) : rs.length ≤ hi - lo := by
  induction rs generalizing lo with
  | nil => simpa using hle
  | cons r rs ih =>
    obtain ⟨hlo, hhi⟩ := within r mem_cons_self
    have hrest : ∀ x ∈ rs, r.offset + 1 ≤ x.offset ∧ x.offset < hi := fun x hx =>
      ⟨rel_of_pairwise_cons asc hx, (within x (mem_cons_of_mem r hx)).2⟩
    have := ih asc.of_cons (show r.offset + 1 ≤ hi by omega) hrest
    rw [length_cons]
    omega

/-- No offset from `n` on is missing. -/
def Dense (n next : Int) (rs : List Record) : Prop := ((since n rs).length : Int) = next - n

instance (n next : Int) (rs : List Record) : Decidable (Dense n next rs) := inferInstanceAs (Decidable (_ = _))

section
variable {rs : List Record} {n next : Int}

/-- In a dense log the next records are those at the next offsets, and what follows is dense. -/
theorem Dense.take (h : Dense n next rs) (asc : rs.Pairwise fun a b => a.offset < b.offset)
    (below : ∀ r ∈ rs, r.offset < next) {k : Nat}
    (hk : n + k ≤ next) : (since n rs).take k = between n (n + k) rs ∧ Dense (n + k) next rs := by
  have hsplit := since_split asc (show n ≤ n + k by omega)
  have hlow : (between n (n + k) rs).length ≤ n + k - n :=
    length_le_span (asc.filter _) (by omega) fun r hr => (mem_between.mp hr).2
  have hhigh : (since (n + k) rs).length ≤ next - (n + k) :=
    length_le_span (asc.filter _) hk fun r hr => ⟨(mem_since.mp hr).2, below r (mem_since.mp hr).1⟩
  have hlen := congrArg length hsplit
  rw [length_append] at hlen
  unfold Dense at h ⊢
  constructor
  · rw [hsplit, take_left' (by omega)]
  · omega

theorem Dense.concat (h : Dense n next rs) (hn : n ≤ next) (hoff : r.offset = next) : Dense n (next + 1) (rs ++ [r]) := by
  have hsince : since n [r] = [r] := since_eq_self fun x hx => by
    rw [mem_singleton.mp hx, hoff]
    exact hn
  unfold Dense at h ⊢
  rw [since_append, hsince, length_append, length_singleton]
  omega

end

theorem between_self (n : Int) (rs : List Record) : between n n rs = [] := between_eq_nil fun _ _ h => h

theorem since_map_norm (n : Int) (rs : List Record) : (since n rs).map Record.norm = since n (rs.map Record.norm) :=
  since_norm n rs

theorem ascending_norm (asc : rs.Pairwise fun a b => a.offset < b.offset) :
    (rs.map Record.norm).Pairwise fun a b => a.offset < b.offset := pairwise_map.mpr asc

theorem mem_norm {P : Int → Prop} (h : ∀ r ∈ rs, P r.offset) : ∀ r ∈ rs.map Record.norm, P r.offset := by
  intro r hr
  obtain ⟨x, hx, rfl⟩ := mem_map.mp hr
  exact h x hx

theorem Dense.norm (h : Dense n next rs) : Dense n next (rs.map Record.norm) := by
  rw [Dense, ← since_map_norm, length_map]
  exact h

theorem between_concat_other {x : Int} (rs : List Record) (h : n ≤ r.offset → x ≤ r.offset) :
    between n x (rs ++ [r]) = between n x rs := by
  have hnone : between n x [r] = [] := between_eq_nil fun a ha => by
    rw [mem_singleton.mp ha]
    exact h
  rw [between, filter_append]
  exact (congrArg (between n x rs ++ ·) hnone).trans (append_nil _)

/-- The stretch that ends with the last record. -/
theorem between_concat_last (below : ∀ a ∈ rs, a.offset < r.offset) (hn : n ≤ r.offset) :
    between n (r.offset + 1) (rs ++ [r]) = between n r.offset rs ++ [r] := by
  have hinit : between n (r.offset + 1) rs = between n r.offset rs := by
    rw [between_eq_since below, between_eq_since fun a ha => Int.lt_add_one_of_le (Int.le_of_lt (below a ha))]
  have hlast : between n (r.offset + 1) [r] = [r] := filter_eq_self.mpr fun a ha => by
    rw [mem_singleton.mp ha]
    simp only [hn, decide_true, Bool.true_and, decide_eq_true_eq]
    exact Int.lt_succ r.offset
  rw [between, filter_append]
  exact congrArg₂ (· ++ ·) hinit hlast

theorem between_cons (asc : rs.Pairwise fun a b => a.offset < b.offset) {x : Int} {rest : List Record}
    (h : between n x rs = r :: rest) :
    n ≤ r.offset ∧ r.offset < x ∧ between n (r.offset + 1) rs = [r] ∧ rest = between (r.offset + 1) x rs := by
  have hascending : (r :: rest).Pairwise fun a b => a.offset < b.offset := h ▸ asc.filter _
  obtain ⟨hmem, hn, hx⟩ := mem_between.mp (h ▸ mem_cons_self)
  have hsplit := between_append asc (show n ≤ r.offset + 1 by omega) (show r.offset + 1 ≤ x by omega)
  have hone : between n (r.offset + 1) rs = [r] := by
    refine ascending_ext (asc.filter _) (pairwise_singleton _ r) fun a => ⟨fun ha => ?_, fun ha => ?_⟩
    · have hlow := (mem_between.mp ha).2.2
      have ha' : a ∈ r :: rest := by rw [← h, hsplit]; exact mem_append_left _ ha
      rcases mem_cons.mp ha' with rfl | ha'
      · exact mem_singleton_self a
      · have := rel_of_pairwise_cons hascending ha'
        omega
    · rw [mem_singleton.mp ha]
      exact mem_between.mpr ⟨hmem, hn, Int.lt_add_one_of_le (Int.le_refl _)⟩
  rw [hone, h] at hsplit
  exact ⟨hn, hx, hone, (cons.inj hsplit).2⟩

theorem ctx_cases (ctx : Ctx) : ctx = .background ∨ ∃ e, ctx = ⟨some e⟩ := by
  obtain ⟨err⟩ := ctx
  cases err with
  | none => exact .inl rfl
  | some e => exact .inr ⟨e, rfl⟩

/-- How a store serves the readers of a partition: `Rep s p rs next` says that it holds these records and gives the
    next one this offset. `view` is how the store gives back a record. -/
class Served (σ : Type) [Store σ] where
  Rep : σ → PartitionRef → List Record → Int → Prop
  Room : σ → PartitionRef → Record → Prop
  view : Record → Record
  norm_view (r : Record) : (view r).norm = r.norm
  ascending {s : σ} {p : PartitionRef} {rs : List Record} {next : Int} :
    Rep s p rs next → rs.Pairwise fun a b => a.offset < b.offset
  within {s : σ} {p : PartitionRef} {rs : List Record} {next : Int} :
    Rep s p rs next → 0 ≤ next ∧ ∀ r ∈ rs, 0 ≤ r.offset ∧ r.offset < next
  append {s : σ} {p : PartitionRef} {rs : List Record} {next : Int} (rep : Rep s p rs next) {r : Record} (now : Int64)
    (room : Room s p (stamp now next r)) :
    ∃ s', Store.append s .background now p r = (.ok next, s') ∧ Rep s' p (rs ++ [view (stamp now next r)]) (next + 1)
  highWater {s : σ} {p : PartitionRef} {rs : List Record} {next : Int} (rep : Rep s p rs next) :
    ∃ s', Store.highWater s .background p = (.ok next, s') ∧ Rep s' p rs next
  read {s : σ} {p : PartitionRef} {rs : List Record} {next : Int} (rep : Rep s p rs next) {n : Int} (hn : 0 ≤ n) (m : Int) :
    ∃ s', Store.read s .background p n m = (.ok ((since n rs).take m.toNat), s') ∧ Rep s' p rs next
  read_negative (s : σ) (p : PartitionRef) {n : Int} (hn : n < 0) (m : Int) :
    ∃ e, Store.read s .background p n m = (.error e, s)
  append_done (s : σ) (e : CtxError) (now : Int64) (p : PartitionRef) (r : Record) :
    Store.append s ⟨some e⟩ now p r = (.error (.ctx e), s)
  highWater_done (s : σ) (e : CtxError) (p : PartitionRef) : Store.highWater s ⟨some e⟩ p = (.error (.ctx e), s)
  read_done (s : σ) (e : CtxError) (p : PartitionRef) (n m : Int) : Store.read s ⟨some e⟩ p n m = (.error (.ctx e), s)
  append_other {s : σ} {p q : PartitionRef} {rs : List Record} {next : Int} (rep : Rep s p rs next) (hq : q ≠ p)
    (ctx : Ctx) (now : Int64) (r : Record) : Rep (Store.append s ctx now q r).2 p rs next
  highWater_other {s : σ} {p q : PartitionRef} {rs : List Record} {next : Int} (rep : Rep s p rs next) (hq : q ≠ p)
    (ctx : Ctx) : Rep (Store.highWater s ctx q).2 p rs next
  read_other {s : σ} {p q : PartitionRef} {rs : List Record} {next : Int} (rep : Rep s p rs next) (hq : q ≠ p)
    (ctx : Ctx) (n m : Int) : Rep (Store.read s ctx q n m).2 p rs next

namespace Served

variable {σ : Type} [Store σ] [Served σ] {s : σ}

def Fits (s : σ) (now : Int64) (p : PartitionRef) (r : Record) : Prop :=
  ∀ hw s', Store.highWater s .background p = (.ok hw, s') → Room s p (stamp now hw r)

theorem Fits.room {now : Int64} (h : Fits s now p r)
    (rep : Rep s p rs next) : Room s p (stamp now next r) := by
  obtain ⟨s', hhw, -⟩ := highWater rep
  exact h _ _ hhw

theorem contents_eq (rep : Rep s p rs next) : contents s p = .ok rs := by
  obtain ⟨s', hhw, rep'⟩ := highWater rep
  obtain ⟨s'', hread, -⟩ := read rep' (Int.le_refl 0) next
  obtain ⟨hnext, hwithin⟩ := within rep
  have hlen := length_le_span (ascending rep) hnext hwithin
  simp only [contents, hhw, hread]
  rw [since_eq_self fun r hr => (hwithin r hr).1, take_of_length_le (by omega)]

theorem rep_unique {rs' : List Record} {next' : Int} (h : Rep s p rs next) (h' : Rep s p rs' next') :
    rs = rs' ∧ next = next' := by
  obtain ⟨_, hhw, -⟩ := highWater h
  obtain ⟨_, hhw', -⟩ := highWater h'
  rw [hhw] at hhw'
  exact ⟨Except.ok.inj ((contents_eq h).symm.trans (contents_eq h')), Except.ok.inj (congrArg Prod.fst hhw')⟩

end Served

theorem MemoryStore.read_snd (s : MemoryStore) (ctx : Ctx) (p : PartitionRef) (n m : Int) : (s.read ctx p n m).2 = s := by
  unfold read guarded
  cases ctx.err with
  | some e => rfl
  | none =>
    dsimp only
    split
    · rfl
    · split <;> rfl

instance : Served MemoryStore where
  Rep s p rs next := s.get p = rs ∧ Numbered rs ∧ next = rs.length
  Room _ _ _ := True
  view r := r
  norm_view := Contract.norm_view (σ := MemoryStore)
  ascending rep := rep.2.1.ascending
  within {s p rs next} rep := by
    refine ⟨by rw [rep.2.2]; omega, fun r hr => ?_⟩
    obtain ⟨i, hi⟩ := mem_iff_getElem?.mp hr
    have hlt := (List.getElem?_eq_some_iff.mp hi).1
    rw [rep.2.1 i r hi, rep.2.2]
    omega
  append {s p rs next} rep {r} now _ := by
    obtain ⟨hget, hnumbered, rfl⟩ := rep
    refine ⟨_, by rw [← hget]; rfl, ?_, hnumbered.concat rfl, by simp⟩
    have hget' : (s.partitions p).getD [] = rs := hget
    simp only [MemoryStore.get, update_self, Option.getD_some, hget']
  highWater {s p rs next} rep := ⟨s, by rw [rep.2.2, ← rep.1]; rfl, rep⟩
  read {s p rs next} rep {n} hn m := by
    refine ⟨s, ?_, rep⟩
    simp only [Store.read, MemoryStore.read, guarded, Ctx.background, if_neg (Int.not_lt.mpr hn), rep.1,
      rep.2.1.since_eq_drop hn]
    split
    · rw [Int.toNat_of_nonpos ‹_›, take_zero]
    · rfl
  read_negative s p n hn m := ⟨_, by simp only [Store.read, MemoryStore.read, guarded, Ctx.background, if_pos hn]; rfl⟩
  append_done := Contract.append_done (σ := MemoryStore)
  highWater_done _ _ _ := rfl
  read_done _ _ _ _ _ := rfl
  append_other {s p q rs next} rep hq ctx now r := by
    refine ⟨?_, rep.2⟩
    simp only [Store.append, MemoryStore.append, guarded]
    cases ctx.err with
    | some e => exact rep.1
    | none =>
      simp only [MemoryStore.get, update_of_ne (Ne.symm hq)]
      exact rep.1
  highWater_other {s p q rs next} rep hq ctx := by
    simp only [Store.highWater, MemoryStore.highWater, guarded]
    cases ctx.err <;> exact rep
  read_other {s p q rs next} rep hq ctx n m := by
    rw [show Store.read s ctx q n m = MemoryStore.read s ctx q n m from rfl, MemoryStore.read_snd]
    exact rep

namespace FileStore

structure Offers (rs : List Record) (next : Int) (l : PartitionLog) : Prop where
  chunks : ∃ cs c, l.Holds cs c ∧ (records (cs ++ [c])).map Record.norm = rs
  highWater : l.highWater = next
  nonneg : 0 ≤ next ∧ ∀ r ∈ rs, 0 ≤ r.offset

variable {rs : List Record} {next : Int} {l : PartitionLog}

section
variable (h : Offers rs next l)
include h

theorem Offers.ascending : rs.Pairwise fun a b => a.offset < b.offset := by
  obtain ⟨cs, c, hholds, rfl⟩ := h.chunks
  exact pairwise_map.mpr (hholds.layout.ascending.imp fun h => h)

theorem Offers.below : ∀ r ∈ rs, r.offset < next := by
  obtain ⟨cs, c, hholds, rfl⟩ := h.chunks
  intro r hr
  obtain ⟨x, hx, rfl⟩ := mem_map.mp hr
  obtain ⟨d, hd, hxd⟩ := mem_records.mp hx
  rw [← h.highWater, hholds.highWater]
  exact Int.lt_of_lt_of_le (hholds.layout.lt_next hd x hxd) (hholds.layout.next_le_last hd)

theorem Offers.read (n m : Int) :
    ∃ l', l.read n m = (.ok ((since n rs).take m.toNat), l') ∧ Offers rs next l' := by
  obtain ⟨cs, c, hholds, hrs⟩ := h.chunks
  by_cases hm : 0 < m
  · obtain ⟨l', hread, hholds', -⟩ := hholds.read (n := n) hm
    refine ⟨l', ?_, ⟨cs, c, hholds', hrs⟩, ?_, h.nonneg⟩
    · rw [hread, since_norm, hrs]
      rfl
    · rw [hholds'.highWater, ← hholds.highWater, h.highWater]
  · exact ⟨l, by rw [PartitionLog.read, if_pos (Int.not_lt.mp hm), Int.toNat_of_nonpos (Int.not_lt.mp hm), take_zero], h⟩

theorem Offers.append (hoff : r.offset = next) (small : l.Small (.append r))
    (tailed : l.active.logFile.Tailed) : ∃ l', l.append r = .ok (next, l') ∧ Offers (rs ++ [r.norm]) (next + 1) l' := by
  obtain ⟨cs, c, hholds, hrs⟩ := h.chunks
  obtain ⟨hbytes, hspan, hint⟩ := small
  obtain ⟨hnext, hnonneg⟩ := h.nonneg
  rw [show { r with offset := l.highWater } = r by rw [h.highWater, ← hoff]] at hbytes
  have hstored : Stored c.base (c.records ++ [r]) := by
    refine hholds.stored_append (hoff.trans h.highWater.symm) ?_ (hholds.active.base ▸ hspan) hbytes
    rw [h.highWater] at hint
    simp only [Signed]
    omega
  obtain ⟨l', cs', c', happ, hholds', -, hnext', hrs'⟩ := hholds.append tailed hstored
  rw [hoff] at happ hnext'
  refine ⟨l', happ, ⟨cs', c', hholds', by rw [hrs', map_append, hrs, map_singleton]⟩, hholds'.highWater.trans hnext',
    by omega, fun x hx => ?_⟩
  rcases mem_append.mp hx with hx | hx
  · exact hnonneg x hx
  · rw [mem_singleton.mp hx, Record.norm_offset, hoff]
    exact hnext

end

theorem Opens.other {s s' : FileStore} {q : PartitionRef} {P : PartitionLog → Prop} (h : s.Opens p P) (hq : q ≠ p)
    (logs : ∀ x, x ≠ q → s'.logs x = s.logs x) (disk : s'.disk = s.disk) : s'.Opens p P := by
  unfold Opens at h ⊢
  rw [logs p (Ne.symm hq), disk]
  exact h

theorem openLog_other (s : FileStore) (q : PartitionRef) :
    (∀ x, x ≠ q → (s.openLog q).2.logs x = s.logs x) ∧ (s.openLog q).2.disk = s.disk := by
  unfold openLog
  split
  · exact ⟨fun _ _ => rfl, rfl⟩
  · split
    · exact ⟨fun _ _ => rfl, rfl⟩
    · exact ⟨fun x hx => update_of_ne hx .., rfl⟩

theorem setLog_other (s : FileStore) (q : PartitionRef) (l : PartitionLog) :
    (∀ x, x ≠ q → (s.setLog q l).logs x = s.logs x) ∧ (s.setLog q l).disk = s.disk :=
  ⟨fun _ hx => update_of_ne hx .., rfl⟩

section
variable {s : FileStore} {p q : PartitionRef} {P : PartitionLog → Prop}

section
variable (h : s.Opens p P) (hq : q ≠ p)
include h hq

theorem Opens.openLog_other : (s.openLog q).2.Opens p P :=
  h.other hq (FileStore.openLog_other s q).1 (FileStore.openLog_other s q).2

theorem Opens.setLog_other (l : PartitionLog) : (s.setLog q l).Opens p P :=
  h.other hq (FileStore.setLog_other s q l).1 (FileStore.setLog_other s q l).2

theorem Opens.append_other (ctx : Ctx) (now : Int64) (r : Record) : (s.append ctx now q r).2.Opens p P := by
  have hopened := h.openLog_other hq
  simp only [append, guarded]
  cases ctx.err with
  | some e => exact h
  | none =>
    dsimp only
    split
    · rename_i heq
      rw [heq] at hopened
      exact hopened
    · rename_i heq
      rw [heq] at hopened
      split
      · exact hopened
      · exact hopened.setLog_other hq _

theorem Opens.highWater_other (ctx : Ctx) : (s.highWater ctx q).2.Opens p P := by
  have hopened := h.openLog_other hq
  simp only [highWater, guarded]
  cases ctx.err with
  | some e => exact h
  | none =>
    dsimp only
    split <;> (rename_i heq; rw [heq] at hopened; exact hopened)

theorem Opens.read_other (ctx : Ctx) (n m : Int) : (s.read ctx q n m).2.Opens p P := by
  have hopened := h.openLog_other hq
  simp only [read, guarded]
  cases ctx.err with
  | some e => exact h
  | none =>
    dsimp only
    split
    · exact h
    split
    · rename_i heq
      rw [heq] at hopened
      exact hopened
    · rename_i heq
      rw [heq] at hopened
      split <;> exact hopened.setLog_other hq _

end

end

end FileStore

open FileStore in
instance : Served FileStore where
  Rep s p rs next := s.Opens p (Offers rs next)
  Room s p r := ∀ l, (s.openLog p).1 = .ok l → l.Small (.append r) ∧ l.active.logFile.Tailed
  view := Record.norm
  norm_view := Contract.norm_view (σ := FileStore)
  ascending rep := by
    obtain ⟨l, -, -, hl, -⟩ := rep.opened
    exact hl.ascending
  within rep := by
    obtain ⟨l, -, -, hl, -⟩ := rep.opened
    exact ⟨hl.nonneg.1, fun r hr => ⟨hl.nonneg.2 r hr, hl.below r hr⟩⟩
  append {s p rs next} rep {r} now room := by
    obtain ⟨l, s', hopen, hl, hlogs, hdisk⟩ := rep.opened
    obtain ⟨small, tailed⟩ := room l (by rw [hopen])
    obtain ⟨l', happ, hl'⟩ := hl.append (r := stamp now next r) rfl small tailed
    refine ⟨s'.setLog p l', ?_, Opens.of_self rfl hl'⟩
    simp only [Store.append, FileStore.append, guarded, Ctx.background, hopen, hl.highWater, happ]
  highWater {s p rs next} rep := by
    obtain ⟨l, s', hopen, hl, hlogs, -⟩ := rep.opened
    refine ⟨s', ?_, Opens.of_self hlogs hl⟩
    simp only [Store.highWater, FileStore.highWater, guarded, Ctx.background, hopen, hl.highWater]
  read {s p rs next} rep {n} hn m := by
    obtain ⟨l, s', hopen, hl, hlogs, -⟩ := rep.opened
    obtain ⟨l', hread, hl'⟩ := hl.read n m
    refine ⟨s'.setLog p l', ?_, Opens.of_self rfl hl'⟩
    simp only [Store.read, FileStore.read, guarded, Ctx.background, if_neg (Int.not_lt.mpr hn), hopen, hread]
  read_negative s p n hn m := ⟨_, by simp only [Store.read, FileStore.read, guarded, Ctx.background, if_pos hn]; rfl⟩
  append_done := Contract.append_done (σ := FileStore)
  highWater_done _ _ _ := rfl
  read_done _ _ _ _ _ := rfl
  append_other rep hq ctx now r := rep.append_other hq ctx now r
  highWater_other rep hq ctx := rep.highWater_other hq ctx
  read_other rep hq ctx n m := rep.read_other hq ctx n m

end Holocron.Storage

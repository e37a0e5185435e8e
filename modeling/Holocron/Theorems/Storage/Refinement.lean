import Holocron.Theorems.Storage.Contract

/-! The file store refines the memory store, but for the slice a read makes. -/

namespace Holocron.Storage
open Lib Log List Function

structure Opened (l : PartitionLog) (rs : List Record) : Prop where
  chunks : ∃ cs c, l.Holds cs c ∧ records (cs ++ [c]) = rs ∧ c.next - c.base ≤ c.records.length
  highWater : l.highWater = rs.length
  appending : l.active.logFile.appending = true
  numbered : Numbered rs

theorem opened_empty (maxBytes : Int) : ∃ l, PartitionLog.openPartition [] maxBytes = .ok l ∧ Opened l [] := by
  obtain ⟨l, hopen, hholds, hactive⟩ := PartitionLog.openPartition_empty maxBytes
  refine ⟨l, hopen, ⟨[], ⟨0, []⟩, hholds, rfl, Int.le_refl 0⟩, hholds.highWater, by rw [hactive]; rfl, ?_⟩
  intro i r hr
  cases hr

variable {l : PartitionLog} {rs : List Record} {p : PartitionRef} {n : Int} {r : Record} {c : Int64 × StoreCall}
    {σ : Type} {f : FileStore}

section
variable (h : Opened l rs)
include h

/-- Offsets in the active segment are no more than its bytes, so only the bytes count. -/
theorem Opened.append (hoff : r.offset = rs.length)
    (hbytes : l.active.size + (encodeRecord r).length < 2 ^ 32) (hcount : rs.length < 2 ^ 63) :
    ∃ l', l.append r = .ok (rs.length, l') ∧ Opened l' (rs ++ [r]) := by
  obtain ⟨cs, c, hholds, hrs, hspan⟩ := h.chunks
  have hhw := h.highWater
  have hnext := hholds.highWater
  have hsize := hholds.active.holds.size
  have hframes := length_le_frames c.records
  have stored : Stored c.base (c.records ++ [r]) := by
    refine hholds.stored_append (hoff.trans hhw.symm) ?_ ?_ hbytes
    · simp only [Signed]
      omega
    · omega
  obtain ⟨l', happ, hholds', -, hkept⟩ := hholds.append_active (.inl h.appending) stored
  have hrs' : records (cs ++ [⟨c.base, c.records ++ [r]⟩]) = rs ++ [r] := by
    rw [← hrs]
    simp
  have hspan' : Chunk.next ⟨c.base, c.records ++ [r]⟩ - c.base ≤ (c.records ++ [r]).length := by
    have hend : Chunk.next ⟨c.base, c.records ++ [r]⟩ = r.offset + 1 := endOffset_concat c.base c.records r
    rw [length_append, length_singleton]
    omega
  rw [hoff] at happ
  refine ⟨_, happ, ?_⟩
  by_cases hroll : l'.active.shouldRoll
  · rw [if_pos hroll]
    refine ⟨⟨_, _, hholds'.rollLocked (by simp), ?_, ?_⟩, ?_, rfl, h.numbered.concat hoff⟩
    · rw [← hrs']
      simp
    · simp [Chunk.next]
    · have hlast : l'.highWater = r.offset + 1 := hholds'.highWater.trans (endOffset_concat c.base c.records r)
      have hnew : l'.rollLocked.highWater = l'.highWater := rfl
      rw [hnew, hlast, hoff, length_append]
      rfl
  · rw [if_neg hroll]
    refine ⟨⟨_, _, hholds', hrs', hspan'⟩, ?_, hkept.appending.trans h.appending, h.numbered.concat hoff⟩
    rw [hholds'.highWater, length_append]
    exact (endOffset_concat c.base c.records r).trans (congrArg (· + 1) hoff)

theorem Opened.read (hn : 0 ≤ n) (m : Int) :
    ∃ l', l.read n m = (.ok (((rs.drop n.toNat).take m.toNat).map Record.norm), l') ∧ Opened l' rs := by
  by_cases hm : 0 < m
  · obtain ⟨cs, c, hholds, hrs, hspan⟩ := h.chunks
    obtain ⟨l', hread, hholds', -, hkept⟩ := hholds.read (n := n) hm
    refine ⟨l', ?_, ⟨cs, c, hholds', hrs, hspan⟩, ?_, hkept.appending.trans h.appending, h.numbered⟩
    · rw [hread, hrs, h.numbered.since_eq_drop hn, map_take]
    · rw [hholds'.highWater, ← hholds.highWater, h.highWater]
  · refine ⟨l, ?_, h⟩
    rw [PartitionLog.read, if_pos (Int.not_lt.mp hm), Int.toNat_of_nonpos (Int.not_lt.mp hm), take_zero, map_nil]

theorem Opened.readPanics (n m : Int) : l.readPanics n m = true ↔ maxSlice < m ∧ n < rs.length := by
  obtain ⟨cs, c, hholds, -, -⟩ := h.chunks
  rw [hholds.readPanics n m, h.highWater]

theorem Opened.sync : Opened l.sync rs := by
  obtain ⟨cs, c, hholds, hrs, hspan⟩ := h.chunks
  refine ⟨⟨cs, c, hholds.sync, hrs, hspan⟩, ?_, (Segment.flushIfActive_kept l.active).appending.trans h.appending, h.numbered⟩
  rw [hholds.sync.highWater, ← hholds.highWater, h.highWater]

end

def FileStore.Mirrors (f : FileStore) (p : PartitionRef) (rs : List Record) : Prop :=
  match f.logs p with
  | some l => Opened l rs
  | none => f.disk p = [] ∧ rs = []

structure Agree (f : FileStore) (s : MemoryStore) : Prop where
  mirrors : ∀ p, f.Mirrors p (s.get p)
  bounded : ∀ p, (s.get p).length ≤ maxSlice

theorem agree_new (segmentSize : Int) : Agree (.new segmentSize fun _ => []) .new :=
  ⟨fun _ => ⟨rfl, rfl⟩, fun _ => Nat.zero_le _⟩

namespace FileStore

theorem Mirrors.openLog (h : f.Mirrors p rs) :
    ∃ l f', f.openLog p = (.ok l, f') ∧ Opened l rs ∧ f'.logs = Function.update f.logs p (some l) ∧ f'.disk = f.disk := by
  unfold Mirrors at h
  cases hl : f.logs p with
  | some l =>
    rw [hl] at h
    exact ⟨l, f, by simp only [FileStore.openLog, hl], h, by rw [← hl, update_eq_self], rfl⟩
  | none =>
    rw [hl] at h
    obtain ⟨hdisk, rfl⟩ := h
    obtain ⟨l, hopen, hopened⟩ := opened_empty f.segmentSize
    exact ⟨l, f.setLog p l, by simp only [FileStore.openLog, hl, hdisk, hopen], hopened, rfl, rfl⟩

end FileStore

section
variable {f : FileStore} {s : MemoryStore}

theorem Agree.set (h : Agree f s) {f' : FileStore} {s' : MemoryStore}
    (logs : f'.logs = update f.logs p (some l)) (disk : f'.disk = f.disk) (others : ∀ q, q ≠ p → s'.get q = s.get q)
    (opened : Opened l (s'.get p)) (bounded : (s'.get p).length ≤ maxSlice) : Agree f' s' := by
  constructor
  · intro q
    by_cases hq : q = p
    · subst hq
      simp only [FileStore.Mirrors, logs, update_self]
      exact opened
    · have hq' := h.mirrors q
      rw [← others q hq] at hq'
      simpa only [FileStore.Mirrors, logs, disk, update_of_ne hq] using hq'
  · intro q
    by_cases hq : q = p
    · exact hq ▸ bounded
    · exact others q hq ▸ h.bounded q

/-- An append keeps its segment below 2^32 bytes, and its partition within what one slice can hold. -/
def FileStore.Within (f : FileStore) (now : Int64) : StoreCall → Prop
  | .append ctx p r => ctx.err = none → ∀ l, (f.openLog p).1 = .ok l →
      l.active.size + (encodeRecord (stamp now l.highWater r)).length < 2 ^ 32 ∧ l.highWater < maxSlice
  | _ => True

theorem MemoryStore.get_append (s : MemoryStore) (now : Int64) (p q : PartitionRef) (r : Record) :
    MemoryStore.get (s.append .background now p r).2 q =
      if q = p then s.get p ++ [stamp now (s.get p).length r] else s.get q := by
  simp only [append, guarded, Ctx.background, get, update_apply]
  split <;> rfl

section
variable (h : Agree f s)
include h

theorem Agree.append (hts : r.timestamp ≠ 0) (now now' : Int64)
    (within : f.Within now (.append .background p r)) :
    (f.append .background now p r).1 = (s.append .background now' p r).1 ∧
      Agree (f.append .background now p r).2 (s.append .background now' p r).2 := by
  obtain ⟨l, f₁, hopen, hopened, hlogs, hdisk⟩ := (h.mirrors p).openLog
  obtain ⟨hbytes, hcount⟩ := within rfl l (by rw [hopen])
  rw [hopened.highWater] at hbytes hcount
  have hcount' : (s.get p).length < maxSlice := Int.ofNat_lt.mp hcount
  obtain ⟨l', happ, hopened'⟩ := hopened.append (r := stamp now (s.get p).length r) rfl hbytes
    (Nat.lt_trans hcount' (by decide))
  have hfile : f.append .background now p r = (.ok (s.get p).length, f₁.setLog p l') := by
    simp only [FileStore.append, guarded, Ctx.background, hopen, hopened.highWater, happ]
  rw [hfile]
  refine ⟨rfl, h.set (p := p) (l := l') ?_ ?_ (fun q hq => ?_) ?_ ?_⟩
  · simp only [FileStore.setLog, hlogs, update_idem]
  · exact hdisk
  · rw [s.get_append, if_neg hq]
  · rw [s.get_append, if_pos rfl, stamp_of_timestamp hts now' now]
    exact hopened'
  · rw [s.get_append, if_pos rfl, length_append]
    exact hcount'

theorem Agree.highWater (p : PartitionRef) :
    (f.highWater .background p).1 = (s.highWater .background p).1 ∧ Agree (f.highWater .background p).2 s := by
  obtain ⟨l, f₁, hopen, hopened, hlogs, hdisk⟩ := (h.mirrors p).openLog
  have hfile : f.highWater .background p = (.ok (s.get p).length, f₁) := by
    simp only [FileStore.highWater, guarded, Ctx.background, hopen, hopened.highWater]
  rw [hfile]
  exact ⟨rfl, h.set hlogs hdisk (fun _ _ => rfl) hopened (h.bounded p)⟩

theorem Agree.sync (p : PartitionRef) :
    (f.sync .background p).1 = (s.sync .background p).1 ∧ Agree (f.sync .background p).2 s := by
  have hp := h.mirrors p
  simp only [FileStore.sync, guarded]
  cases hl : f.logs p with
  | none => exact ⟨rfl, h⟩
  | some l =>
    simp only [FileStore.Mirrors, hl] at hp
    exact ⟨rfl, h.set rfl rfl (fun _ _ => rfl) hp.sync (h.bounded p)⟩

theorem Agree.deleteTopic (topic : Bytes) :
    Agree (f.deleteTopic .background topic).2 (s.deleteTopic .background topic).2 := by
  have hget : ∀ p, MemoryStore.get (s.deleteTopic .background topic).2 p = if p.topic = topic then [] else s.get p := by
    intro p
    simp only [MemoryStore.deleteTopic, guarded, Ctx.background, MemoryStore.get]
    split <;> rfl
  constructor
  · intro p
    rw [hget]
    have hp := h.mirrors p
    simp only [FileStore.Mirrors, FileStore.deleteTopic, guarded, Ctx.background] at hp ⊢
    by_cases htopic : p.topic = topic
    · simp only [htopic, ↓reduceIte]
      exact ⟨trivial, trivial⟩
    · simp only [htopic]
      exact hp
  · intro p
    rw [hget]
    split
    · exact Nat.zero_le _
    · exact h.bounded p

end

theorem int64_of_lt (h0 : 0 ≤ n) (h : n < 2 ^ 63) : int64 n = n := by
  rw [int64, Int.bmod_eq_of_le] <;> omega

theorem int64_of_le (h : 2 ^ 63 ≤ n) (h' : n < 2 ^ 64) : int64 n < 0 := by
  rw [int64, Int.bmod_def]
  split <;> omega

/-- A read of the memory store panics where the end it computes overflows. -/
theorem MemoryStore.readPanics_iff (s : MemoryStore) (bounded : (s.get p).length ≤ maxSlice) {m : Int}
    (hn : 0 ≤ n) (hm : m < 2 ^ 63) :
    s.readPanics .background p n m = true ↔ 0 < m ∧ n < (s.get p).length ∧ 2 ^ 63 ≤ n + m := by
  have hslice : maxSlice < 2 ^ 62 := by decide
  rw [readPanics]
  split
  · rename_i h
    refine iff_of_false Bool.false_ne_true fun h' => ?_
    rcases h with h | h | h | h
    · cases h
    · omega
    · omega
    · omega
  · rename_i h
    simp only [not_or, Int.not_le] at h
    obtain ⟨-, -, hpos, hlt⟩ := h
    rw [decide_eq_true_iff]
    by_cases hover : 2 ^ 63 ≤ n + m
    · have hneg := int64_of_le hover (by omega)
      exact iff_of_true (.inr (.inr (by omega))) ⟨hpos, hlt, hover⟩
    · rw [int64_of_lt (n := n + m) (by omega) (by omega), int64_of_lt (by omega) (by omega)]
      exact iff_of_false (by omega) (by omega)

theorem MemoryStore.read_of_nonneg (s : MemoryStore) (p : PartitionRef) (hn : 0 ≤ n) (m : Int) :
    s.read .background p n m = (.ok (((s.get p).drop n.toNat).take m.toNat), s) := by
  simp only [read, guarded, Ctx.background, if_neg (Int.not_lt.mpr hn)]
  split
  · rename_i hm
    rw [Int.toNat_of_nonpos hm, take_zero]
  · rfl

theorem Agree.read (h : Agree f s) (p : PartitionRef) (hn : 0 ≤ n) (m : Int) :
    (f.read .background p n m).1 = .ok ((((s.get p).drop n.toNat).take m.toNat).map Record.norm) ∧
      Agree (f.read .background p n m).2 s ∧ (f.readPanics .background p n m = true ↔ maxSlice < m ∧ n < (s.get p).length) := by
  obtain ⟨l, f₁, hopen, hopened, hlogs, hdisk⟩ := (h.mirrors p).openLog
  obtain ⟨l', hread, hopened'⟩ := hopened.read hn m
  have hfile : f.read .background p n m = (.ok ((((s.get p).drop n.toNat).take m.toNat).map Record.norm), f₁.setLog p l') := by
    simp only [FileStore.read, guarded, Ctx.background, if_neg (Int.not_lt.mpr hn), hopen, hread]
  rw [hfile]
  refine ⟨rfl, h.set (p := p) (l := l') ?_ hdisk (fun _ _ => rfl) hopened' (h.bounded p), ?_⟩
  · simp [FileStore.setLog, hlogs]
  · rw [FileStore.readPanics, if_neg (by simp [Ctx.background, hn]), hopen]
    exact hopened.readPanics n m

def Answer.norm : Answer → Answer
  | .records res => .records (res.map (List.map Record.norm))
  | a => a

theorem Answer.norm_eq_panicked {a : Answer} : a.norm = .panicked ↔ a = .panicked := by
  cases a <;> simp [norm]

/-- A read of records that are there asks for no more than one slice can hold, or for so many that the end
    overflows in the memory store too. -/
def FileStore.Allocates (f : FileStore) : StoreCall → Prop
  | .read ctx p n m => ctx.err = none → 0 ≤ n.toInt → ∀ hw, (f.highWater .background p).1 = .ok hw → n.toInt < hw →
      m.toInt ≤ maxSlice ∨ 2 ^ 63 ≤ n.toInt + m.toInt
  | _ => True

theorem records_norm (rs : List Record) : (rs.map Record.norm).map Record.norm = rs.map Record.norm := by
  rw [map_map]
  exact map_congr_left fun r _ => r.norm_norm

theorem Agree.call_read (h : Agree f s) (now now' : Int64) (ctx : Ctx) (p : PartitionRef) (n m : Int64) :
    ((Store.call f now (.read ctx p n m)).1.norm = (Store.call s now' (.read ctx p n m)).1.norm ↔
      f.Allocates (.read ctx p n m)) ∧
      Agree (Store.call f now (.read ctx p n m)).2 (Store.call s now' (.read ctx p n m)).2 := by
  obtain ⟨err⟩ := ctx
  simp only [Store.call, Store.readPanics, Store.read]
  cases err with
  | some e =>
    refine ⟨iff_of_true rfl ?_, h⟩
    exact fun hctx => nomatch hctx
  | none =>
    by_cases hneg : n.toInt < 0
    · simp only [FileStore.readPanics, MemoryStore.readPanics, hneg, FileStore.read,
        MemoryStore.read]
      exact ⟨iff_of_true rfl fun _ hn => absurd hneg (Int.not_lt.mpr hn), h⟩
    · have hn := Int.not_lt.mp hneg
      have hm : m.toInt < 2 ^ 63 := m.toInt_lt
      obtain ⟨hread, hagree, hfile⟩ := h.read p hn m.toInt
      have hmemory := s.readPanics_iff (h.bounded p) hn hm
      have hmem : s.read ⟨none⟩ p n.toInt m.toInt = _ := s.read_of_nonneg p hn m.toInt
      have hslice : maxSlice < 2 ^ 62 := by decide
      have hlen : ((s.get p).length : Int) ≤ maxSlice := Int.ofNat_le.mpr (h.bounded p)
      have hhw : (f.highWater .background p).1 = .ok (s.get p).length := (h.highWater p).1
      have hallocates : f.Allocates (.read ⟨none⟩ p n m) ↔
          (n.toInt < (s.get p).length → m.toInt ≤ maxSlice ∨ 2 ^ 63 ≤ n.toInt + m.toInt) := by
        refine ⟨fun ha => ha rfl hn _ hhw, fun ha _ _ hw heq hlt => ha ?_⟩
        cases hhw.symm.trans heq
        exact hlt
      rw [hallocates]
      change s.readPanics ⟨none⟩ p n.toInt m.toInt = true ↔ _ at hmemory
      by_cases hpanic : f.readPanics ⟨none⟩ p n.toInt m.toInt = true
      · obtain ⟨hmany, hlt⟩ := hfile.mp hpanic
        rw [if_pos hpanic]
        by_cases hover : 2 ^ 63 ≤ n.toInt + m.toInt
        · rw [if_pos (hmemory.mpr ⟨by omega, hlt, hover⟩)]
          exact ⟨iff_of_true rfl fun _ => .inr hover, h⟩
        · rw [if_neg fun h' => hover (hmemory.mp h').2.2]
          refine ⟨iff_of_false (fun heq => ?_) fun ha => ?_, ?_⟩
          · cases heq
          · rcases ha hlt with hle | hle
            · omega
            · exact hover hle
          · rw [hmem]
            exact h
      · have hfew : n.toInt < (s.get p).length → m.toInt ≤ maxSlice := fun hlt =>
          Int.not_lt.mp fun hmany => hpanic (hfile.mpr ⟨hmany, hlt⟩)
        rw [if_neg hpanic, if_neg fun h' => ?_]
        · refine ⟨iff_of_true ?_ fun hlt => .inl (hfew hlt), ?_⟩
          · rw [hmem]
            refine congrArg Answer.records ((congrArg (Except.map (map Record.norm)) hread).trans ?_)
            exact congrArg Except.ok (records_norm _)
          · rw [hmem]
            exact hagree
        · obtain ⟨-, hlt, hover⟩ := hmemory.mp h'
          omega

theorem Agree.call (h : Agree f s) (now now' : Int64) {c : StoreCall}
    (hts : ∀ ctx p r, c = .append ctx p r → r.timestamp ≠ 0) (within : f.Within now c) :
    ((Store.call f now c).1.norm = (Store.call s now' c).1.norm ↔ f.Allocates c) ∧
      Agree (Store.call f now c).2 (Store.call s now' c).2 := by
  cases c with
  | append ctx p r =>
    rcases ctx with ⟨_ | e⟩
    · obtain ⟨heq, hagree⟩ := h.append (hts _ p r rfl) now now' within
      exact ⟨iff_of_true (congrArg (fun res => Answer.norm (.offset res)) heq) trivial, hagree⟩
    · exact ⟨iff_of_true rfl trivial, h⟩
  | read ctx p n m => exact h.call_read now now' ctx p n m
  | highWater ctx p =>
    rcases ctx with ⟨_ | e⟩
    · obtain ⟨heq, hagree⟩ := h.highWater p
      exact ⟨iff_of_true (congrArg (fun res => Answer.norm (.offset res)) heq) trivial, hagree⟩
    · exact ⟨iff_of_true rfl trivial, h⟩
  | sync ctx p =>
    rcases ctx with ⟨_ | e⟩
    · obtain ⟨heq, hagree⟩ := h.sync p
      exact ⟨iff_of_true (congrArg (fun res => Answer.norm (.done res)) heq) trivial, hagree⟩
    · exact ⟨iff_of_true rfl trivial, h⟩
  | deleteTopic ctx topic =>
    rcases ctx with ⟨_ | e⟩
    · exact ⟨iff_of_true rfl trivial, h.deleteTopic topic⟩
    · exact ⟨iff_of_true rfl trivial, h⟩

end

structure Timed where
  fileNow : Int64
  memoryNow : Int64
  call : StoreCall

def Timed.file (t : Timed) : Int64 × StoreCall := (t.fileNow, t.call)

def Timed.memory (t : Timed) : Int64 × StoreCall := (t.memoryNow, t.call)

/-- The condition holds at the store that the calls have reached. -/
def FileStore.Reached (cond : FileStore → Int64 → StoreCall → Prop) (f : Option FileStore) (c : Int64 × StoreCall) : Prop :=
  ∀ f', f = some f' → cond f' c.1 c.2

theorem reached_none {cond : FileStore → Int64 → StoreCall → Prop} (cs : List (Int64 × StoreCall)) :
    Along Store.next none cs (FileStore.Reached cond) := by
  have hnone : ∀ done : List (Int64 × StoreCall), done.foldl Store.next (none : Option FileStore) = none := by
    intro done
    induction done with
    | nil => rfl
    | cons _ _ ih => exact ih
  intro done c rest _ f' hf'
  rw [hnone done] at hf'
  cases hf'

theorem answers_none [Store σ] (cs : List (Int64 × StoreCall)) : Store.answers (none : Option σ) cs = [] := by
  cases cs <;> rfl

theorem next_of_panicked [Store σ] {s : σ} (h : (Store.call s c.1 c.2).1 = .panicked) :
    Store.next (some s) c = none := by
  have hcall : Store.call s c.1 c.2 = (.panicked, (Store.call s c.1 c.2).2) := Prod.ext h rfl
  rw [Store.next, Option.bind_some, hcall]

theorem next_of_ne [Store σ] {s : σ} (h : (Store.call s c.1 c.2).1 ≠ .panicked) :
    Store.next (some s) c = some (Store.call s c.1 c.2).2 := by
  rw [Store.next, Option.bind_some]
  generalize Store.call s c.1 c.2 = x at h
  obtain ⟨a, s'⟩ := x
  cases a with
  | panicked => exact absurd rfl h
  | _ => rfl

/-- The stores give the same answers to a sequence of calls exactly if every read it gets to can make its slice,
    or neither store can. -/
theorem answers_agree_iff {s : MemoryStore} (h : Agree f s) (calls : List Timed)
    (hts : ∀ t ∈ calls, ∀ ctx p r, t.call = .append ctx p r → r.timestamp ≠ 0)
    (within : Along Store.next (some f) (calls.map Timed.file) (FileStore.Reached FileStore.Within)) :
    (Store.answers (some f) (calls.map Timed.file)).map Answer.norm =
      (Store.answers (some s) (calls.map Timed.memory)).map Answer.norm ↔
      Along Store.next (some f) (calls.map Timed.file) (FileStore.Reached fun f _ c => f.Allocates c) := by
  induction calls generalizing f s with
  | nil => exact iff_of_true rfl .nil
  | cons t calls ih =>
    obtain ⟨hsame, hagree⟩ := h.call t.fileNow t.memoryNow (hts t mem_cons_self) (within [] _ _ rfl f rfl)
    have hhead : FileStore.Reached (fun f _ c => f.Allocates c) (some f) t.file ↔ f.Allocates t.call := by
      refine ⟨fun hr => hr f rfl, fun ha f' hf' => ?_⟩
      cases hf'
      exact ha
    rw [map_cons, map_cons, Along.cons_iff, Store.answers, Store.answers, map_cons, map_cons, cons.injEq,
      hhead]
    refine (and_congr_left' hsame).trans (and_congr_right fun ha => ?_)
    have heq := hsame.mpr ha
    by_cases hpanic : (Store.call f t.fileNow t.call).1 = .panicked
    · -- both stores panic, and nothing follows
      have hpanic' : (Store.call s t.memoryNow t.call).1 = .panicked := by
        rw [← Answer.norm_eq_panicked, ← heq, hpanic]
        rfl
      rw [next_of_panicked (c := t.file) hpanic, next_of_panicked (c := t.memory) hpanic', answers_none, answers_none]
      exact iff_of_true rfl (reached_none _)
    · have hpanic' : (Store.call s t.memoryNow t.call).1 ≠ .panicked := by
        intro h'
        rw [h'] at heq
        exact hpanic (Answer.norm_eq_panicked.mp heq)
      have hnext := next_of_ne (c := t.file) hpanic
      rw [hnext, next_of_ne (c := t.memory) hpanic']
      exact ih hagree (fun t' ht' => hts t' (mem_cons_of_mem t ht')) (hnext ▸ within.tail)

/-- The same for a file store that starts on an empty directory. -/
theorem fileStore_refines_memoryStore (segmentSize : Int) (calls : List Timed)
    (timestamps : ∀ t ∈ calls, ∀ ctx p r, t.call = .append ctx p r → r.timestamp ≠ 0)
    (within : Along Store.next (some (FileStore.new segmentSize fun _ => [])) (calls.map Timed.file)
      (FileStore.Reached FileStore.Within)) :
    (Store.answers (some (FileStore.new segmentSize fun _ => [])) (calls.map Timed.file)).map Answer.norm =
        (Store.answers (some MemoryStore.new) (calls.map Timed.memory)).map Answer.norm ↔
      Along Store.next (some (FileStore.new segmentSize fun _ => [])) (calls.map Timed.file)
        (FileStore.Reached fun f _ c => f.Allocates c) :=
  answers_agree_iff (agree_new segmentSize) calls timestamps within

def appendAndRead (max : Int64) : List Timed :=
  [⟨7, 8, .append .background ⟨utf8 "t", 0⟩ ⟨0, 5, none, some [1], []⟩⟩, ⟨7, 8, .read .background ⟨utf8 "t", 0⟩ 0 max⟩]

theorem fileStore_refines_memoryStore_ten :
    (Store.answers (some (FileStore.new 1024 fun _ => [])) ((appendAndRead 10).map Timed.file)).map Answer.norm =
      (Store.answers (some MemoryStore.new) ((appendAndRead 10).map Timed.memory)).map Answer.norm := by
  refine (fileStore_refines_memoryStore 1024 (appendAndRead 10) ?_ ?_).mpr ?_
  · intro t ht ctx p r hcall
    rcases mem_cons.mp ht with rfl | ht
    · cases hcall
      decide
    · cases mem_singleton.mp ht
      cases hcall
  · refine .cons ?_ (.cons ?_ .nil)
    · intro f' hf' _ l hl
      cases hf'
      cases hl
      decide +kernel
    · exact fun f' _ => trivial
  · refine .cons (fun f' _ => trivial) (.cons ?_ .nil)
    exact fun f' _ _ _ hw _ _ => .inl (by decide)

/-- The file store makes a slice for all that is asked, more than there can be. -/
theorem fileStore_read_panics :
    Store.answers (some (FileStore.new 1024 fun _ => [])) ((appendAndRead 9223372036854775807).map Timed.file) =
        [.offset (.ok 0), .panicked] ∧
      Store.answers (some MemoryStore.new) ((appendAndRead 9223372036854775807).map Timed.memory) =
        [.offset (.ok 0), .records (.ok [⟨0, 5, none, some [1], []⟩])] := by
  constructor <;> decide +kernel

end Holocron.Storage

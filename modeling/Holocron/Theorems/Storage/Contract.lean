import Holocron.Storage.Store
import Holocron.Theorems.Log.Run

/-! A store keeps a list of records for every partition (`Contents`), the one on disk as long as its segments stay
    within 32 bits. -/

namespace Holocron.Storage
open Lib Log List Function

abbrev Contents := PartitionRef → List Record

variable {p q : PartitionRef} {m : Contents} {r : Record} {σ : Type}

theorem stamp_of_timestamp (h : r.timestamp ≠ 0) (now now' : Int64) (offset : Int) :
    stamp now offset r = stamp now' offset r := by
  rw [stamp, stamp, if_neg h, if_neg h]

namespace Contents

def append (m : Contents) (p : PartitionRef) (r : Record) : Contents := Function.update m p (m p ++ [r])

def deleteTopic (m : Contents) (topic : Bytes) : Contents := fun p => if p.topic = topic then [] else m p

@[simp] theorem append_self (m : Contents) (p : PartitionRef) (r : Record) : m.append p r p = m p ++ [r] := update_self ..

theorem append_of_ne (m : Contents) (h : q ≠ p) (r : Record) : m.append p r q = m q := update_of_ne h ..

end Contents

/-- The contract of `Store`: what its operations do to the lists of records, where an append fits. `view` is
    how the store gives back a record, and `reopen` closes it and opens it again. -/
class Contract (σ : Type) [Store σ] where
  Rep : σ → Contents → Prop
  Room : σ → PartitionRef → Record → Prop
  view : Record → Record
  reopen : σ → σ
  norm_view (r : Record) : (view r).norm = r.norm
  view_of_norm {r : Record} : r.norm = r → view r = r
  append {s : σ} {m : Contents} (rep : Rep s m) {p : PartitionRef} {r : Record} (now : Int64)
    (room : Room s p (stamp now (m p).length r)) :
    ∃ s', Store.append s .background now p r = (.ok ((m p).length : Int), s') ∧
      Rep s' (m.append p (view (stamp now (m p).length r)))
  append_done (s : σ) (e : CtxError) (now : Int64) (p : PartitionRef) (r : Record) :
    Store.append s ⟨some e⟩ now p r = (.error (.ctx e), s)
  highWater {s : σ} {m : Contents} (rep : Rep s m) (p : PartitionRef) :
    ∃ s', Store.highWater s .background p = (.ok ((m p).length : Int), s') ∧ Rep s' m
  read {s : σ} {m : Contents} (rep : Rep s m) (p : PartitionRef) :
    ∃ s', Store.read s .background p 0 (m p).length = (.ok (m p), s')
  sync {s : σ} {m : Contents} (rep : Rep s m) (ctx : Ctx) (p : PartitionRef) : Rep (Store.sync s ctx p).2 m
  deleteTopic {s : σ} {m : Contents} (rep : Rep s m) (topic : Bytes) :
    ∃ s', Store.deleteTopic s .background topic = (.ok (), s') ∧ Rep s' (m.deleteTopic topic)
  reopened {s : σ} {m : Contents} : Rep s m → Rep (reopen s) m

/-- There is room for the record at the high water. -/
def Fits {σ : Type} [Store σ] [Contract σ] (s : σ) (now : Int64) (p : PartitionRef) (r : Record) : Prop :=
  ∀ hw s', Store.highWater s .background p = (.ok hw, s') → Contract.Room s p (stamp now hw r)

theorem Fits.room [Store σ] [Contract σ] {s : σ} {now : Int64} (h : Fits s now p r)
    (rep : Contract.Rep s m) : Contract.Room s p (stamp now (m p).length r) := by
  obtain ⟨s', hhw, -⟩ := Contract.highWater rep p
  exact h _ _ hhw

def contents {σ : Type} [Store σ] (s : σ) (p : PartitionRef) : Except StoreError (List Record) :=
  match Store.highWater s .background p with
  | (.error e, _) => .error e
  | (.ok hw, s') => (Store.read s' .background p 0 hw).1

theorem Contract.contents_eq [Store σ] [Contract σ] {s : σ} (rep : Contract.Rep s m) (p : PartitionRef) :
    contents s p = .ok (m p) := by
  obtain ⟨s', hhw, rep'⟩ := highWater rep p
  obtain ⟨s'', hread⟩ := read rep' p
  simp only [contents, hhw, hread]

instance : Contract MemoryStore where
  Rep s m := ∀ p, s.get p = m p
  Room _ _ _ := True
  view r := r
  reopen s := s
  norm_view _ := rfl
  view_of_norm _ := rfl
  append {s m} rep {p r} now _ := by
    refine ⟨_, by rw [← rep p]; rfl, fun q => ?_⟩
    by_cases hq : q = p
    · subst hq
      simp only [MemoryStore.get, Contents.append, update_self, Option.getD_some]
      have := rep q
      simp only [MemoryStore.get] at this
      rw [this]
    · simp only [MemoryStore.get, Contents.append, update_of_ne hq]
      exact rep q
  append_done _ _ _ _ _ := rfl
  highWater {s m} rep p := ⟨s, by rw [← rep p]; rfl, rep⟩
  read {s m} rep p := by
    refine ⟨s, ?_⟩
    rw [← rep p]
    simp only [Store.read, MemoryStore.read, guarded, Ctx.background]
    rcases Nat.eq_zero_or_pos (s.get p).length with hzero | hpos
    · simp [length_eq_zero_iff.mp hzero]
    · rw [if_neg (by decide), if_neg (by omega)]
      simp
  sync {s m} rep ctx p := by
    simp only [Store.sync, MemoryStore.sync, guarded]
    cases ctx.err <;> exact rep
  deleteTopic {s m} rep topic := by
    refine ⟨_, rfl, fun p => ?_⟩
    simp only [MemoryStore.get, Contents.deleteTopic]
    by_cases hp : p.topic = topic
    · rw [if_pos hp, if_pos hp]
      rfl
    · rw [if_neg hp, if_neg hp]
      exact rep p
  reopened rep := rep

namespace FileStore

structure Ready (l : PartitionLog) (rs : List Record) : Prop where
  stores : l.Stores rs
  tailed : l.active.logFile.Tailed
  numbered : Numbered rs

def Opens (s : FileStore) (p : PartitionRef) (P : PartitionLog → Prop) : Prop :=
  match s.logs p with
  | some l => P l
  | none => ∀ maxBytes, ∃ l, PartitionLog.openPartition (s.disk p) maxBytes = .ok l ∧ P l

variable {P : PartitionLog → Prop} {s : FileStore}

theorem Opens.opened (h : s.Opens p P) :
    ∃ l s', s.openLog p = (.ok l, s') ∧ P l ∧ s'.logs = update s.logs p (some l) ∧ s'.disk = s.disk := by
  unfold Opens at h
  cases hl : s.logs p with
  | some l =>
    rw [hl] at h
    exact ⟨l, s, by simp only [openLog, hl], h, by rw [← hl, update_eq_self], rfl⟩
  | none =>
    rw [hl] at h
    obtain ⟨l, hopen, hl'⟩ := h s.segmentSize
    exact ⟨l, s.setLog p l, by simp only [openLog, hl, hopen], hl', rfl, rfl⟩

variable {l : PartitionLog} {rs : List Record} {s' : FileStore} {logs : PartitionRef → Option PartitionLog}

theorem Opens.of_update
    (logs : s'.logs = update s.logs p (some l)) (disk : s'.disk = s.disk) (hq : q ≠ p) (h : s.Opens q P) : s'.Opens q P := by
  simp only [Opens, logs, disk, update_of_ne hq]
  exact h

theorem Opens.of_self
    (hlogs : s'.logs = update logs p (some l)) (h : P l) : s'.Opens p P := by
  simp only [Opens, hlogs, update_self]
  exact h

def Keeps (s : FileStore) (p : PartitionRef) (rs : List Record) : Prop :=
  match s.logs p with
  | some l => Ready l rs
  | none => ∀ maxBytes, ∃ l, PartitionLog.openPartition (s.disk p) maxBytes = .ok l ∧ Ready l rs

theorem Keeps.opened (h : s.Keeps p rs) :
    ∃ l s', s.openLog p = (.ok l, s') ∧ Ready l rs ∧ s'.logs = update s.logs p (some l) ∧ s'.disk = s.disk :=
  Opens.opened (P := (Ready · rs)) h

theorem Keeps.of_update (logs : s'.logs = update s.logs p (some l))
    (disk : s'.disk = s.disk) (hq : q ≠ p) (h : s.Keeps q rs) : s'.Keeps q rs :=
  Opens.of_update (P := (Ready · rs)) logs disk hq h

theorem Keeps.of_self (hlogs : s'.logs = update logs p (some l))
    (h : Ready l rs) : s'.Keeps p rs :=
  Opens.of_self (P := (Ready · rs)) hlogs h

theorem ready_empty (maxBytes : Int) : ∃ l, PartitionLog.openPartition [] maxBytes = .ok l ∧ Ready l [] := by
  obtain ⟨l, hopen, hholds, hactive⟩ := PartitionLog.openPartition_empty maxBytes
  refine ⟨l, hopen, ⟨⟨[], ⟨0, []⟩, hholds, rfl⟩, hholds.highWater⟩, ?_, fun i r hr => by simp at hr⟩
  rw [hactive]
  exact Or.inl rfl

section
variable (h : Ready l rs)
include h

theorem Ready.reopen (maxBytes : Int) : ∃ l', PartitionLog.openPartition l.close maxBytes = .ok l' ∧ Ready l' rs := by
  obtain ⟨cs, c, hholds, hrs⟩ := h.stores.chunks
  obtain ⟨l', hopen, hholds', htailed, -⟩ := hholds.reopen maxBytes
  refine ⟨l', hopen, ⟨⟨cs, c, hholds', hrs⟩, ?_⟩, htailed, h.numbered⟩
  rw [hholds'.highWater, ← hholds.highWater, h.stores.highWater]

theorem Ready.read : ∃ l', l.read 0 rs.length = (.ok (rs.map Record.norm), l') := by
  obtain ⟨cs, c, hholds, hrs⟩ := h.stores.chunks
  rcases Nat.eq_zero_or_pos rs.length with hzero | hpos
  · exact ⟨l, by simp [PartitionLog.read, length_eq_zero_iff.mp hzero]⟩
  · obtain ⟨l', hread, -, -⟩ := hholds.read (n := 0) (m := rs.length) (by omega)
    refine ⟨l', ?_⟩
    rw [hread, hrs, since_eq_self h.numbered.nonneg, Int.toNat_natCast, ← map_take, take_length]

theorem Ready.sync : Ready l.sync rs := by
  obtain ⟨cs, c, hholds, -⟩ := h.stores.chunks
  exact ⟨h.stores.keep fun _ _ hp => hp.sync, hholds.active.holds.flush.2.2.2 h.tailed, h.numbered⟩

theorem Ready.append (hoff : r.offset = rs.length) (small : l.Small (.append r)) :
    ∃ l', l.append r = .ok (rs.length, l') ∧ Ready l' (rs ++ [r]) := by
  obtain ⟨l', happ, hstores, htailed⟩ := h.stores.append_record small h.tailed
  rw [← hoff] at happ hstores
  exact ⟨l', by rw [← hoff]; exact happ, hstores, htailed, h.numbered.concat hoff⟩

end

end FileStore

instance : Contract FileStore where
  Rep s m := ∀ p, ∃ rs, s.Keeps p rs ∧ rs.map Record.norm = m p
  Room s p r := ∀ l, (s.openLog p).1 = .ok l → l.Small (.append r)
  view := Record.norm
  reopen s := FileStore.new s.segmentSize s.close
  norm_view r := r.norm_norm
  view_of_norm h := h
  append {s m} rep {p r} now room := by
    obtain ⟨rs, hkeeps, hrs⟩ := rep p
    have hlen : (m p).length = rs.length := by rw [← hrs, length_map]
    obtain ⟨l, s₁, hopen, hready, hlogs, hdisk⟩ := hkeeps.opened
    rw [hlen] at room ⊢
    obtain ⟨l', happ, hready'⟩ := hready.append (r := stamp now rs.length r) rfl (room l (by rw [hopen]))
    refine ⟨s₁.setLog p l', ?_, fun q => ?_⟩
    · simp only [Store.append, FileStore.append, guarded, Ctx.background, hopen, hready.stores.highWater, happ]
    · by_cases hq : q = p
      · subst hq
        refine ⟨_, FileStore.Keeps.of_self rfl hready', ?_⟩
        simp only [Contents.append, update_self, map_append, hrs, map_singleton]
      · obtain ⟨qs, hq₁, hq₂⟩ := rep q
        refine ⟨qs, FileStore.Keeps.of_update rfl rfl hq (FileStore.Keeps.of_update hlogs hdisk hq hq₁), ?_⟩
        simp only [Contents.append, update_of_ne hq, hq₂]
  append_done _ _ _ _ _ := rfl
  highWater {s m} rep p := by
    obtain ⟨rs, hkeeps, hrs⟩ := rep p
    obtain ⟨l, s₁, hopen, hready, hlogs, hdisk⟩ := hkeeps.opened
    refine ⟨s₁, ?_, fun q => ?_⟩
    · rw [← hrs, length_map]
      simp only [Store.highWater, FileStore.highWater, guarded, Ctx.background, hopen, hready.stores.highWater]
    · by_cases hq : q = p
      · subst hq
        exact ⟨rs, FileStore.Keeps.of_self hlogs hready, hrs⟩
      · obtain ⟨qs, hq₁, hq₂⟩ := rep q
        exact ⟨qs, FileStore.Keeps.of_update hlogs hdisk hq hq₁, hq₂⟩
  read {s m} rep p := by
    obtain ⟨rs, hkeeps, hrs⟩ := rep p
    obtain ⟨l, s₁, hopen, hready, -, -⟩ := hkeeps.opened
    obtain ⟨l', hread⟩ := hready.read
    refine ⟨s₁.setLog p l', ?_⟩
    rw [← hrs, length_map]
    simp [Store.read, FileStore.read, guarded, Ctx.background, hopen, hread, ↓reduceIte]
  sync {s m} rep ctx p := by
    simp only [Store.sync, FileStore.sync, guarded]
    cases ctx.err with
    | some e => exact rep
    | none =>
      cases hl : s.logs p with
      | none => exact rep
      | some l =>
        intro q
        obtain ⟨rs, hkeeps, hrs⟩ := rep q
        refine ⟨rs, ?_, hrs⟩
        by_cases hq : q = p
        · subst hq
          simp only [FileStore.Keeps, hl] at hkeeps
          exact FileStore.Keeps.of_self rfl hkeeps.sync
        · exact FileStore.Keeps.of_update rfl rfl hq hkeeps
  deleteTopic {s m} rep topic := by
    refine ⟨_, rfl, fun p => ?_⟩
    by_cases hp : p.topic = topic
    · refine ⟨[], ?_, by simp [Contents.deleteTopic, hp]⟩
      simp only [FileStore.Keeps, hp, ↓reduceIte]
      exact FileStore.ready_empty
    · obtain ⟨rs, hkeeps, hrs⟩ := rep p
      refine ⟨rs, ?_, by simp [Contents.deleteTopic, hp, hrs]⟩
      simp only [FileStore.Keeps, hp, ↓reduceIte]
      exact hkeeps
  reopened {s m} rep p := by
    obtain ⟨rs, hkeeps, hrs⟩ := rep p
    refine ⟨rs, ?_, hrs⟩
    unfold FileStore.Keeps at hkeeps
    simp only [FileStore.Keeps, FileStore.new, FileStore.close]
    cases hl : s.logs p with
    | some l =>
      rw [hl] at hkeeps
      exact hkeeps.reopen
    | none =>
      rw [hl] at hkeeps
      exact hkeeps

end Holocron.Storage

import Holocron.Cluster.Sync
import Holocron.Theorems.Storage.Gaps

/-! What a sync without error has copied: it is faithful just when the peer has no gap and the stream lasts to the target. -/

namespace Holocron.Cluster
open Lib Log Storage List

variable {ε : Type}

def recordAt (o : Int) (rs : List Record) : Option Record := rs.find? fun r => decide (r.offset = o)

theorem recordAt_cons_self (a : Record) (rs : List Record) : recordAt a.offset (a :: rs) = some a :=
  find?_cons_of_pos (by simp)

theorem recordAt_cons_of_ne {a : Record} {o : Int} (h : a.offset ≠ o) (rs : List Record) :
    recordAt o (a :: rs) = recordAt o rs :=
  find?_cons_of_neg (by simpa using h)

variable {rs : List Record} {i : Nat}

theorem recordAt_of_mem (asc : rs.Pairwise fun a b => a.offset < b.offset) {x : Record} (hx : x ∈ rs) :
    recordAt x.offset rs = some x := by
  induction rs with
  | nil => cases hx
  | cons a rs ih =>
    rcases mem_cons.mp hx with rfl | hx
    · exact recordAt_cons_self x rs
    · have hlt : a.offset < x.offset := rel_of_pairwise_cons asc hx
      rw [recordAt_cons_of_ne (Int.ne_of_lt hlt)]
      exact ih asc.of_cons hx

theorem recordAt_append_of_lt {o : Int} (below : ∀ r ∈ rs, r.offset < o) (rest : List Record) :
    recordAt o (rs ++ rest) = recordAt o rest := by
  have hnone : rs.find? (fun r => decide (r.offset = o)) = none :=
    find?_eq_none.mpr fun r hr => by simpa using Int.ne_of_lt (below r hr)
  rw [recordAt, find?_append, hnone]
  rfl

theorem getElem?_of_taken (asc : rs.Pairwise fun a b => a.offset < b.offset) {n : Int}
    (above : ∀ r ∈ rs, n ≤ r.offset) {k : Nat} (taken : ∀ o, n ≤ o → o < n + k → ∃ r ∈ rs, r.offset = o) (hi : i < k) :
    ∃ x, rs[i]? = some x ∧ x.offset = n + i := by
  induction rs generalizing n k i with
  | nil =>
    obtain ⟨r, hr, -⟩ := taken n (Int.le_refl n) (by omega)
    cases hr
  | cons a rs ih =>
    have hafter : ∀ r ∈ rs, a.offset < r.offset := fun r hr => rel_of_pairwise_cons asc hr
    have ha : a.offset = n := by
      obtain ⟨r, hr, hoff⟩ := taken n (Int.le_refl n) (by omega)
      rcases mem_cons.mp hr with rfl | hr
      · exact hoff
      · have := hafter r hr
        have := above a mem_cons_self
        omega
    cases i with
    | zero => exact ⟨a, rfl, by rw [ha]; simp⟩
    | succ i =>
      have htaken : ∀ o, n + 1 ≤ o → o < n + 1 + (k - 1 : Nat) → ∃ r ∈ rs, r.offset = o := by
        intro o hlo hhi
        obtain ⟨r, hr, hoff⟩ := taken o (by omega) (by omega)
        rcases mem_cons.mp hr with rfl | hr
        · omega
        · exact ⟨r, hr, hoff⟩
      obtain ⟨x, hx, hoff⟩ := ih asc.of_cons (fun r hr => ha ▸ hafter r hr) htaken (show i < k - 1 by omega)
      exact ⟨x, hx, by rw [hoff]; push_cast; omega⟩

def arrivals : List (SyncEvent ε) → List (Record × Int64)
  | .record r now _ _ :: rest => (r, now) :: arrivals rest
  | .noError :: rest => arrivals rest
  | _ => []

def renumbered (view : Record → Record) (n : Int) : List (Record × Int64) → List Record
  | [] => []
  | (r, now) :: rest => view (stamp now n r) :: renumbered view (n + 1) rest

section
variable {σ : Type} [Store σ] [Served σ] {target h : Int} {p : PartitionRef} {later held : List Record}

theorem view_offset (r : Record) : (Served.view σ r).offset = r.offset := by
  rw [← Record.norm_offset, Served.norm_view, Record.norm_offset]

theorem recordAt_renumbered (xs : List (Record × Int64)) (n : Int) (i : Nat) :
    recordAt (n + i) (renumbered (Served.view σ) n xs) = xs[i]?.map fun x => Served.view σ (stamp x.2 (n + i) x.1) := by
  induction xs generalizing n i with
  | nil => rfl
  | cons x xs ih =>
    cases i with
    | zero =>
      rw [Int.natCast_zero, Int.add_zero]
      have hoff : (Served.view σ (stamp x.2 n x.1)).offset = n := view_offset _
      have := recordAt_cons_self (Served.view σ (stamp x.2 n x.1)) (renumbered (Served.view σ) (n + 1) xs)
      rwa [hoff] at this
    | succ i =>
      have hne : (Served.view σ (stamp x.2 n x.1)).offset ≠ n + (i + 1) := by
        rw [view_offset]
        show n ≠ n + (i + 1)
        omega
      have hnext : n + (i + 1 : Nat) = n + 1 + i := by omega
      have := ih (n + 1) i
      rw [← hnext] at this
      exact (recordAt_cons_of_ne hne _).trans this

/-- Every record that is copied finds room. -/
def Fitting (s : σ) (p : PartitionRef) : List (SyncEvent ε) → Prop
  | .record r now ctx ctx' :: rest =>
    Served.Fits s now p r ∧ Fitting (Store.highWater (Store.append s ctx now p r).2 ctx' p).2 p rest
  | .noError :: rest => Fitting s p rest
  | _ => True

/-- A loop that ends without an error has appended the records up to the target, or all there were. -/
theorem syncLoop_nil {s s' : σ} {next : Int} (rep : Served.Rep s p rs next) (behind : next < target)
    {events : List (SyncEvent ε)} (fits : Fitting s p events) {appended n : Nat}
    (h : syncLoop s p target appended events = (some (n, none), s')) :
    Served.Rep s' p (rs ++ renumbered (Served.view σ) next ((arrivals events).take (target - next).toNat))
      (next + ((arrivals events).take (target - next).toNat).length) := by
  induction events generalizing s rs next appended with
  | nil => cases h
  | cons e events ih =>
    cases e with
    | closed =>
      cases h
      simpa [arrivals, renumbered] using rep
    | error e => cases h
    | noError => exact ih rep behind fits h
    | done e => cases h
    | record r now ctx ctx' =>
      obtain ⟨hfits, hrest⟩ := fits
      rw [syncLoop] at h
      rcases ctx_cases ctx with rfl | ⟨e, rfl⟩
      · obtain ⟨s₁, happend, rep₁⟩ := Served.append rep now (hfits.room rep)
        rw [happend] at h hrest
        rcases ctx_cases ctx' with rfl | ⟨e, rfl⟩
        · obtain ⟨s₂, hhw, rep₂⟩ := Served.highWater rep₁
          rw [hhw] at hrest
          simp only [hhw] at h
          split at h
          · cases h
            have hone : (target - next).toNat = 1 := by omega
            rw [hone]
            exact rep₂
          · have hmore : (target - next).toNat = (target - (next + 1)).toNat + 1 := by omega
            have := ih rep₂ (by omega) hrest h
            rw [hmore]
            simpa [arrivals, renumbered, Int.add_assoc, Int.add_comm] using this
        · simp only [Served.highWater_done] at h
          cases h
      · rw [Served.append_done] at h
        cases h

/-- The peer's log: what it holds when its high water is asked, and what it gets afterwards. -/
structure PeerLog (rs later : List Record) (target : Int) : Prop where
  ascending : (rs ++ later).Pairwise fun a b => a.offset < b.offset
  below : ∀ r ∈ rs, r.offset < target
  above : ∀ r ∈ later, target ≤ r.offset

/-- The stream of a subscription from an offset brings the records from there on in order, each once, until it ends. -/
def Follows (log : List Record) (fromOffset : Int) (events : List (SyncEvent ε)) : Prop :=
  (arrivals events).map (fun x => x.1.norm) <+: (since fromOffset log).map Record.norm

def SyncPeer.events (peer : SyncPeer ε) (fromOffset : Int) : List (SyncEvent ε) :=
  match peer.subscribe fromOffset with
  | .ok events => events
  | .error _ => []

/-- The store holds what the peer held between two offsets, and ends where the peer ended. -/
def Copied (s : σ) (p : PartitionRef) (h target : Int) (rs : List Record) : Prop :=
  (Store.highWater s .background p).1 = .ok target ∧ ∃ copy, contents s p = .ok copy ∧
    ∀ o, h ≤ o → o < target → (recordAt o copy).map Record.norm = (recordAt o rs).map Record.norm

/-- The peer has a record at every offset that is to be copied. -/
def Gapless (h target : Int) (rs : List Record) : Prop := ∀ o, h ≤ o → o < target → (recordAt o rs).isSome

/-- The record comes with a timestamp, or the clock gives it none. -/
def Timed (x : Record × Int64) : Prop := x.1.timestamp ≠ 0 ∨ x.2 = 0

instance (x : Record × Int64) : Decidable (Timed x) := inferInstanceAs (Decidable (_ ∨ _))

theorem PeerLog.nth (log : PeerLog rs later target) (gapless : Gapless h target rs)
    (hi : h + i < target) : ∃ x, (since h (rs ++ later))[i]? = some x ∧ x.offset = h + i ∧ recordAt (h + i) rs = some x := by
  have htaken : ∀ o, h ≤ o → o < h + (target - h).toNat → ∃ r ∈ since h (rs ++ later), r.offset = o := by
    intro o hlo hhi
    obtain ⟨r, hr⟩ := Option.isSome_iff_exists.mp (gapless o hlo (by omega))
    have hoff : r.offset = o := by simpa using find?_some hr
    exact ⟨r, mem_since.mpr ⟨mem_append_left _ (mem_of_find?_eq_some hr), hoff ▸ hlo⟩, hoff⟩
  obtain ⟨x, hx, hoff⟩ := getElem?_of_taken (log.ascending.filter _)
    (fun r hr => (mem_since.mp hr).2) htaken (show i < (target - h).toNat by omega)
  have hmem : x ∈ rs := by
    rcases mem_append.mp (mem_since.mp (mem_of_getElem? hx)).1 with hmem | hmem
    · exact hmem
    · have := log.above x hmem
      omega
  exact ⟨x, hx, hoff, hoff ▸ recordAt_of_mem (pairwise_append.mp log.ascending).1 hmem⟩

theorem Follows.nth {events : List (SyncEvent ε)} (follows : Follows (rs ++ later) h events)
    (log : PeerLog rs later target) (gapless : Gapless h target rs) {x : Record × Int64} (hx : (arrivals events)[i]? = some x)
    (hi : h + i < target) : x.1.offset = h + i ∧ (recordAt (h + i) rs).map Record.norm = some x.1.norm := by
  obtain ⟨y, hy, hoff, hat⟩ := log.nth gapless hi
  have hsame : some x.1.norm = some y.norm := by
    have hleft : ((arrivals events).map fun x => x.1.norm)[i]? = some x.1.norm := by rw [List.getElem?_map, hx]; rfl
    have hright : ((since h (rs ++ later)).map Record.norm)[i]? = some y.norm := by rw [List.getElem?_map, hy]; rfl
    obtain ⟨rest, hrest⟩ := follows
    rw [← hrest, List.getElem?_append_left (List.getElem?_eq_some_iff.mp hleft).1, hleft] at hright
    exact hright
  rw [hat, hsame]
  exact ⟨(congrArg Record.offset (Option.some.inj hsame)).trans hoff, rfl⟩

/-- Stamping a record with the offset it has changes nothing just when it keeps its timestamp. -/
theorem stamp_norm_iff {r : Record} {now : Int64} : (stamp now r.offset r).norm = r.norm ↔ Timed (r, now) := by
  constructor
  · intro h
    have hts : (if r.timestamp = 0 then now else r.timestamp) = r.timestamp := congrArg Record.timestamp h
    by_cases hzero : r.timestamp = 0
    · rw [hzero] at hts
      exact .inr hts
    · exact .inl hzero
  · rintro (hts | hts)
    · simp only [stamp, if_neg hts]
    · by_cases hzero : r.timestamp = 0
      · simp only [stamp, show now = 0 from hts, hzero, if_true]
        rw [← hzero]
      · simp only [stamp, if_neg hzero]

theorem sync_nil {ctx : Ctx} {peer : SyncPeer ε} {s s' : σ}
    (rep : Served.Rep s p held h) (highWater : peer.highWater = .ok target) (behind : h ≤ target)
    (fits : Fitting (Store.highWater s ctx p).2 p (peer.events h)) {n : Nat}
    (returned : syncPartitionFromPeer ctx peer s p = (some (n, none), s')) :
    Served.Rep s' p (held ++ renumbered (Served.view σ) h ((arrivals (peer.events h)).take (target - h).toNat))
      (h + ((arrivals (peer.events h)).take (target - h).toNat).length) := by
  unfold syncPartitionFromPeer at returned
  rw [highWater] at returned
  rcases ctx_cases ctx with rfl | ⟨e, rfl⟩
  · obtain ⟨s₁, hhw, rep₁⟩ := Served.highWater rep
    rw [hhw] at fits
    simp only [hhw] at returned
    split at returned
    · cases returned
      have hzero : (target - h).toNat = 0 := by omega
      rw [hzero]
      simpa [renumbered] using rep₁
    · rename_i hreached
      unfold SyncPeer.events at fits ⊢
      cases hsub : peer.subscribe h with
      | error e =>
        rw [hsub] at returned
        cases returned
      | ok events =>
        rw [hsub] at returned fits
        exact syncLoop_nil rep₁ (Int.not_le.mp hreached) fits returned
  · simp only [Served.highWater_done] at returned
    cases returned

/-- Records at the next offsets are a copy just when they reach the target and each is the peer's record there. -/
theorem copied_iff {s : σ} {taken : List (Record × Int64)}
    (below : ∀ r ∈ held, r.offset < h) (rep : Served.Rep s p (held ++ renumbered (Served.view σ) h taken) (h + taken.length)) :
    Copied s p h target rs ↔ h + taken.length = target ∧
      ∀ (i : Nat) x, taken[i]? = some x → (recordAt (h + i) rs).map Record.norm = some (stamp x.2 (h + i) x.1).norm := by
  obtain ⟨s', hhw, -⟩ := Served.highWater rep
  have hat : ∀ (i : Nat) x, taken[i]? = some x →
      (recordAt (h + i) (held ++ renumbered (Served.view σ) h taken)).map Record.norm = some (stamp x.2 (h + i) x.1).norm := by
    intro i x hx
    rw [recordAt_append_of_lt fun r hr => Int.lt_of_lt_of_le (below r hr) (by omega), recordAt_renumbered, hx]
    exact congrArg some (Served.norm_view _)
  unfold Copied
  rw [hhw, Served.contents_eq rep]
  constructor
  · rintro ⟨hreach, copy, hcopy, hsame⟩
    cases hcopy
    have hreach : h + taken.length = target := Except.ok.inj hreach
    refine ⟨hreach, fun i x hx => ?_⟩
    have hi := (List.getElem?_eq_some_iff.mp hx).1
    rw [← hsame (h + i) (by omega) (by omega), hat i x hx]
  · rintro ⟨hreach, hpeer⟩
    refine ⟨congrArg Except.ok hreach, _, rfl, fun o hlo hhi => ?_⟩
    obtain ⟨i, rfl⟩ : ∃ i : Nat, o = h + i := ⟨(o - h).toNat, by omega⟩
    obtain ⟨x, hx⟩ : ∃ x, taken[i]? = some x := ⟨_, List.getElem?_eq_getElem (by omega)⟩
    rw [hat i x hx, hpeer i x hx]

/-- A sync that reports no error has copied the peer's partition just when the peer has no gap, the stream does not end
    before the target, and no record comes without a timestamp. -/
theorem sync_copies_iff {ctx : Ctx} {peer : SyncPeer ε} {s s' : σ} {p : PartitionRef} {held rs later : List Record}
    {h target : Int}
    (rep : Served.Rep s p held h) (highWater : peer.highWater = .ok target) (log : PeerLog rs later target)
      (behind : h ≤ target)
    (follows : Follows (rs ++ later) h (peer.events h)) (fits : Fitting (Store.highWater s ctx p).2 p (peer.events h)) {n : Nat}
    (returned : syncPartitionFromPeer ctx peer s p = (some (n, none), s')) :
    Copied s' p h target rs ↔
      Gapless h target rs ∧ target - h ≤ (arrivals (peer.events h)).length ∧
        ∀ x ∈ (arrivals (peer.events h)).take (target - h).toNat, Timed x := by
  rw [copied_iff (fun r hr => ((Served.within rep).2 r hr).2) (sync_nil rep highWater behind fits returned)]
  have hindex : ∀ {i : Nat} {x}, ((arrivals (peer.events h)).take (target - h).toNat)[i]? = some x →
      (arrivals (peer.events h))[i]? = some x ∧ h + i < target := by
    intro i x hx
    have hi := (List.getElem?_eq_some_iff.mp hx).1
    rw [length_take] at hi
    refine ⟨?_, by omega⟩
    rwa [List.getElem?_take_of_lt (by omega)] at hx
  constructor
  · rintro ⟨hreach, hpeer⟩
    rw [length_take] at hreach
    have hlong : target - h ≤ (arrivals (peer.events h)).length := by omega
    have hgapless : Gapless h target rs := by
      intro o hlo hhi
      obtain ⟨i, rfl⟩ : ∃ i : Nat, o = h + i := ⟨(o - h).toNat, by omega⟩
      obtain ⟨x, hx⟩ : ∃ x, ((arrivals (peer.events h)).take (target - h).toNat)[i]? = some x :=
        ⟨_, List.getElem?_eq_getElem (by rw [length_take]; omega)⟩
      have hsome := hpeer i x hx
      exact Option.isSome_map.symm.trans (by rw [hsome]; rfl)
    refine ⟨hgapless, hlong, fun x hx => ?_⟩
    obtain ⟨i, hi⟩ := List.getElem?_of_mem hx
    obtain ⟨harr, hlt⟩ := hindex hi
    obtain ⟨hoff, hrecord⟩ := follows.nth log hgapless harr hlt
    have hsame := (hpeer i x hi).symm.trans hrecord
    rw [← hoff] at hsame
    exact stamp_norm_iff.mp (Option.some.inj hsame)
  · rintro ⟨hgapless, hlong, htimed⟩
    refine ⟨by rw [length_take]; omega, fun i x hx => ?_⟩
    obtain ⟨harr, hlt⟩ := hindex hx
    obtain ⟨hoff, hrecord⟩ := follows.nth log hgapless harr hlt
    rw [hrecord, ← hoff, stamp_norm_iff.mpr (htimed x (mem_of_getElem? hx))]

end

def partition : PartitionRef := ⟨[116], 0⟩

def sample (o : Int) : Record := ⟨o, 1, none, some [7], []⟩

def brings (o : Int) : SyncEvent Unit := .record (sample o) 5 .background .background

def peerOf (target : Int) (events : List (SyncEvent Unit)) : SyncPeer Unit := ⟨fun _ => .ok events, .ok target⟩

def holding : MemoryStore := ⟨Function.update (fun _ => none) partition (some [sample 0, sample 1])⟩

/-- The peer has deleted its first record, and one more arrives after the target. -/
theorem sync_copies_iff_tail :
    Copied (syncPartitionFromPeer .background (peerOf 4 [brings 2, brings 3, brings 4]) holding partition).2 partition 2 4
      [sample 1, sample 2, sample 3] := by
  have hrep : Served.Rep holding partition [sample 0, sample 1] 2 := by
    refine ⟨rfl, fun i r hr => ?_, rfl⟩
    rcases i with _ | _ | i <;> cases hr <;> rfl
  have hlog : PeerLog [sample 1, sample 2, sample 3] [sample 4] 4 := ⟨by decide, by decide, by decide⟩
  have hfollows : Follows ([sample 1, sample 2, sample 3] ++ [sample 4]) 2
    ((peerOf 4 [brings 2, brings 3, brings 4]).events 2) :=
    prefix_refl _
  have hfits : Fitting (Store.highWater holding .background partition).2 partition
    ((peerOf 4 [brings 2, brings 3, brings 4]).events 2) :=
    ⟨fun _ _ _ => trivial, fun _ _ _ => trivial, fun _ _ _ => trivial, trivial⟩
  have hreturned : (syncPartitionFromPeer .background (peerOf 4 [brings 2, brings 3, brings 4]) holding partition).1 =
      some (2, none) := by
    decide
  refine (sync_copies_iff hrep rfl hlog (by decide) hfollows hfits (Prod.ext hreturned rfl)).mpr ⟨?_, by decide, by decide⟩
  intro o hlo hhi
  obtain rfl | rfl : o = 2 ∨ o = 3 := by omega
  · rfl
  · rfl

/-- A stream that closes at once is no error, and nothing is copied; and the record that the peer has at offset 2 is
    copied to offset 1, where the peer has none. -/
theorem sync_miscopies :
    (syncPartitionFromPeer .background (peerOf 1 [.closed]) MemoryStore.new partition).1 = some (0, none) ∧
    ¬ Copied (syncPartitionFromPeer .background (peerOf 1 [.closed]) MemoryStore.new partition).2 partition 0 1 [sample 0] ∧
    (syncPartitionFromPeer .background (peerOf 3 [brings 0, brings 2, brings 3]) MemoryStore.new partition).1 = some (3, none) ∧
    ¬ Copied (syncPartitionFromPeer .background (peerOf 3 [brings 0, brings 2, brings 3]) MemoryStore.new partition).2
      partition 0 3 [sample 0, sample 2] := by
  refine ⟨by decide, fun h => ?_, by decide, fun h => ?_⟩
  · exact absurd h.1 (by decide)
  · obtain ⟨-, copy, hcopy, hsame⟩ := h
    have hat := hsame 1 (by decide) (by decide)
    cases hcopy
    exact absurd hat (by decide)

end Holocron.Cluster

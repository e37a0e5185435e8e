import Holocron.Broker.Subscribe
import Holocron.Theorems.Registry.Immutable

/-! The schemas topic after a compaction. Replay counts records up to the high water, so it ends only if compaction
    dropped none. -/

namespace Holocron.Schemas
open Lib Log List

namespace Service

variable {J : Json}

section
variable {target seen : Int} {s s' : Service} {batches : List (List Record)}

theorem replayBounded_exact (nonempty : ∀ b ∈ batches, b ≠ [])
    (hlen : seen + batches.flatten.length = target) (replayed : s.replay J batches.flatten = .ok s') :
    replayBounded J target seen s batches = some (.ok s') := by
  induction batches generalizing seen s with
  | nil =>
    cases replayed
    have hseen : ¬ seen < target := by
      rw [flatten_nil, length_nil] at hlen
      omega
    rw [replayBounded, if_neg hseen]
  | cons b rest ih =>
    have hb := length_pos_iff.mpr (nonempty b mem_cons_self)
    rw [flatten_cons, length_append] at hlen
    have hseen : seen < target := by omega
    rw [flatten_cons, replay, runAll_append, ← replay] at replayed
    rw [replayBounded, if_pos hseen]
    cases hfirst : s.replay J b with
    | error e =>
      rw [hfirst] at replayed
      cases replayed
    | ok s₁ =>
      rw [hfirst] at replayed
      exact ih (fun x hx => nonempty x (mem_cons_of_mem _ hx)) (by omega) replayed

theorem le_of_replayBounded
    (h : replayBounded J target seen s batches = some (.ok s')) : target ≤ seen + batches.flatten.length := by
  induction batches generalizing seen s with
  | nil =>
    rw [replayBounded] at h
    split at h
    · cases h
    · omega
  | cons b rest ih =>
    rw [replayBounded] at h
    rw [flatten_cons, length_append]
    split at h
    · split at h
      · cases h
      · have := ih h
        omega
    · omega

end

end Service

/-- The transports that report HighWater. -/
inductive Transport where
  | network
  | inproc

/-- What reaches a consumer that subscribes at the start. Over the network it asks for what follows the last record it
    has; in process it gets what the catch-up of its subscription sends, which repeats records behind a gap. -/
def Transport.delivers (t : Transport) (p : PartitionLog) : Except LogError (List Record) :=
  match t with
  | .network => p.readToEnd 256 0
  | .inproc => .ok (Subscribe.catchUpSends p.highWater p.highWater.toNat p 0)

/-- Compaction succeeds, and a Service started afterwards replays to the same tables, however its polls cut the records. -/
def Transparent (J : Json) (t : Transport) (p : PartitionLog) (s : Service) : Prop :=
  ∃ steps p' rs, p.compact = .ok (steps, p') ∧ t.delivers p' = .ok rs ∧
    ∀ batches : List (List Record), batches.flatten = rs → (∀ b ∈ batches, b ≠ []) →
      ∃ s', Service.replayBounded J p'.highWater 0 .new batches = some (.ok s') ∧
        s'.byID = s.byID ∧ s'.bySubject = s.bySubject ∧ s'.compats = s.compats

/-- No two records are of one subject, and none is a tombstone or without a subject. -/
structure OnePerSubject (rs : List Record) : Prop where
  keyed : ∀ r ∈ rs, Slice.bytes r.key ≠ [] ∧ Slice.bytes r.value ≠ []
  distinct : rs.Pairwise fun a b => Slice.bytes a.key ≠ Slice.bytes b.key

theorem value_ne_none_iff (r : Record) : r.norm.value ≠ none ↔ r.value.bytes ≠ [] := by
  rcases hr : r.value with _ | _ | ⟨b, bs⟩ <;> simp [hr, Slice.norm, Slice.bytes]

/-- Compaction keeps every record of such a range, and of no other. -/
theorem liveRecords_eq_self_iff {rs : List Record} (asc : rs.Pairwise fun a b => a.offset < b.offset) :
    liveRecords (rs.map Record.norm) = rs.map Record.norm ↔ OnePerSubject rs := by
  have hasc := norm_ascending asc
  have hiff : liveRecords (rs.map Record.norm) = rs.map Record.norm ↔ ∀ r ∈ rs.map Record.norm,
      Survives (rs.map Record.norm) r := by
    constructor
    · intro heq r hr
      rw [← heq] at hr
      exact (retained_iff_survives hasc).mp ((mem_liveRecords hasc).mp hr)
    · intro h
      refine filter_eq_self.mpr fun r hr => ?_
      exact ((tracks_foldl _).keeps hasc hr).mpr ((retained_iff_survives hasc).mpr (h r hr))
  rw [hiff]
  constructor
  · intro h
    refine ⟨fun r hr => ?_, ?_⟩
    · have hs := h r.norm (mem_map_of_mem hr)
      have hkey := hs.keyed
      rw [Record.norm, Slice.bytes_norm] at hkey
      exact ⟨hkey, (value_ne_none_iff r).mp hs.valued⟩
    · refine asc.imp_of_mem fun {a b} ha hb hlt hkey => ?_
      have hs := h a.norm (mem_map_of_mem ha)
      have hle : b.offset ≤ a.offset := hs.last b.norm (mem_map_of_mem hb) (by
        simp only [Record.norm, Slice.bytes_norm]
        exact hkey.symm)
      omega
  · rintro h r hr
    obtain ⟨a, ha, rfl⟩ := mem_map.mp hr
    refine ⟨hr, ?_, (value_ne_none_iff a).mpr (h.keyed a ha).2, fun x hx hkey => ?_⟩
    · rw [Record.norm, Slice.bytes_norm]
      exact (h.keyed a ha).1
    · obtain ⟨b, hb, rfl⟩ := mem_map.mp hx
      simp only [Record.norm, Slice.bytes_norm] at hkey
      have hnodup : (rs.map fun r => r.key.bytes).Nodup := pairwise_map.mpr h.distinct
      rw [inj_on_of_nodup_map hnodup hb ha hkey]

theorem since_of_uncompacted {rs : List Record} (h : Uncompacted rs) (k : Nat) : since k rs = rs.drop k := by
  conv_lhs => rw [← take_append_drop k rs]
  rw [since_append, since_eq_nil fun r hr => ?_, since_eq_self fun r hr => ?_, nil_append]
  · obtain ⟨i, hi⟩ := getElem?_of_mem hr
    rw [getElem?_drop] at hi
    rw [h _ r hi]
    omega
  · obtain ⟨i, hi, rfl⟩ := mem_iff_getElem.mp hr
    rw [length_take] at hi
    rw [getElem_take, h i _ (getElem?_eq_getElem (by omega))]
    omega

/-- Without a gap the catch-up sends every record once. -/
theorem catchUpSends_uncompacted {cs : List Chunk} {c : Chunk} (h : Uncompacted (records (cs ++ [c]))) (n k : Nat)
    {p : PartitionLog} (holds : p.Holds cs c) (bound : (records (cs ++ [c])).length ≤ k + n) :
    Subscribe.catchUpSends (records (cs ++ [c])).length n p k = ((records (cs ++ [c])).drop k).map Record.norm := by
  induction n generalizing k p with
  | zero =>
    rw [drop_eq_nil_of_le (by omega)]
    rfl
  | succ n ih =>
    rw [Subscribe.catchUpSends]
    split
    · rename_i hlt
      obtain ⟨p', hread, holds', -⟩ := holds.read (n := (k : Int)) (m := Subscribe.catchUpBatchSize) (by decide)
      rw [since_of_uncompacted h] at hread
      generalize hbatch : (((records (cs ++ [c])).drop k).map Record.norm).take _ = batch at hread
      have hprefix : batch <+: ((records (cs ++ [c])).drop k).map Record.norm := hbatch ▸ take_prefix _ _
      cases batch with
      | nil =>
        have hnil := congrArg length hbatch
        simp only [length_take, length_map, length_drop, length_nil, Subscribe.catchUpBatchSize] at hnil
        omega
      | cons r rs =>
        rw [hread]
        have hrest := ih (k + (rs.length + 1)) holds' (by omega)
        push_cast at hrest
        dsimp only
        rw [hrest, ← drop_drop, map_drop]
        exact prefix_iff_eq_append.mp hprefix
    · rename_i hge
      rw [drop_eq_nil_of_le (by omega)]
      rfl

/-- Replay after a compaction ends over the network, with the same tables, exactly if compaction had nothing to drop; in
    process it also does then. -/
theorem compaction_transparent_iff (J : Json) {p : PartitionLog} {cs : List Chunk} {c : Chunk} (h : p.Holds cs c)
    (mergeable : PartitionLog.Mergeable cs)
    (uncompacted : Uncompacted (records (cs ++ [c]))) (hhigh : p.highWater = (records (cs ++ [c])).length) {s : Service}
    (started : Service.new.replay J ((records (cs ++ [c])).map Record.norm) = .ok s) :
    (Transparent J .network p s ↔ OnePerSubject (records cs)) ∧ (OnePerSubject (records cs) → Transparent J .inproc p s) := by
  have hoffset : ∀ r ∈ records (cs ++ [c]), 0 ≤ r.offset := by
    intro r hr
    obtain ⟨i, hi⟩ := getElem?_of_mem hr
    rw [uncompacted i r hi]
    exact Int.natCast_nonneg i
  have hsplit : records (cs ++ [c]) = records cs ++ c.records := by simp
  have hnonneg : ∀ r ∈ records cs, 0 ≤ r.offset := fun r hr => hoffset r (by rw [hsplit]; exact mem_append_left _ hr)
  have hasc : (records cs).Pairwise fun a b => a.offset < b.offset := (pairwise_append.mp (hsplit ▸ h.layout.ascending)).1
  obtain ⟨steps, p', cs', hcompact, hcompacts, -⟩ := h.compact_spec hnonneg mergeable
  have hhigh' : p'.highWater = (records (cs ++ [c])).length := by
    rw [PartitionLog.highWater, hcompacts.active]
    exact hhigh
  -- what a reader gets after the compaction
  have hread : p'.readToEnd 256 0 = .ok (liveRecords ((records cs).map Record.norm) ++ c.records.map Record.norm) := by
    have hsplit' : records (cs' ++ [c]) = liveRecords (sealedRecords cs) ++ c.records := by
      rw [← hcompacts.records]
      simp
    rw [hcompacts.holds.readToEnd (by decide), since_eq_self, hsplit', map_append, PartitionLog.live_normal]
    · rfl
    · intro r hr
      rw [hsplit'] at hr
      rcases mem_append.mp hr with hr | hr
      · obtain ⟨a, ha, rfl⟩ := mem_map.mp (mem_of_mem_filter hr)
        exact hnonneg a ha
      · exact hoffset r (by rw [hsplit]; exact mem_append_right _ hr)
  -- what is delivered replays to the tables if it is all there was
  have hall : ∀ {t : Transport}, t.delivers p' = .ok ((records (cs ++ [c])).map Record.norm) → Transparent J t p s := by
    refine fun hdelivers => ⟨steps, p', _, hcompact, hdelivers, fun batches hflatten hne => ⟨s, ?_, rfl, rfl, rfl⟩⟩
    refine Service.replayBounded_exact hne ?_ ?_
    · rw [hflatten, length_map, hhigh', Int.zero_add]
    · rw [hflatten]
      exact started
  rw [← liveRecords_eq_self_iff hasc]
  refine ⟨⟨?_, fun hkept => ?_⟩, fun hkept => ?_⟩
  · rintro ⟨steps', q, rs, hq, hrs, hreplay⟩
    rw [hcompact] at hq
    cases hq
    rw [Transport.delivers, hread] at hrs
    cases hrs
    have hone : ∀ l : List Record, (l.map fun r => [r]).flatten = l := fun l => flatMap_singleton' l
    obtain ⟨s', hbounded, -⟩ := hreplay _ (hone _) fun b hb => by
      obtain ⟨r, -, rfl⟩ := mem_map.mp hb
      exact cons_ne_nil _ _
    have hle := Service.le_of_replayBounded hbounded
    rw [hhigh', hsplit, hone, length_append, length_append, length_map] at hle
    -- as many live records as records
    have hsub : (liveRecords ((records cs).map Record.norm)).Sublist ((records cs).map Record.norm) := filter_sublist
    refine hsub.eq_of_length_le ?_
    rw [length_map]
    omega
  · refine hall ?_
    rw [Transport.delivers, hread, hkept, hsplit, map_append]
  · have hrecords : records (cs' ++ [c]) = (records cs).map Record.norm ++ c.records := by
      rw [records_append, hcompacts.records, sealedRecords, hkept]
      simp
    have hnorm : (records (cs' ++ [c])).map Record.norm = (records (cs ++ [c])).map Record.norm := by
      rw [hrecords, hsplit, map_append, map_append, map_map]
      exact congrArg (· ++ _) (map_congr_left fun r _ => r.norm_norm)
    have hsame : Uncompacted (records (cs' ++ [c])) := by
      intro i r hr
      have hi := congrArg (·[i]?) hnorm
      simp only [getElem?_map, hr, Option.map_some] at hi
      obtain ⟨a, ha, hra⟩ := Option.map_eq_some_iff.mp hi.symm
      rw [← Record.norm_offset r, ← hra, Record.norm_offset, uncompacted i a ha]
    have hlength : (records (cs' ++ [c])).length = (records (cs ++ [c])).length := by
      rw [← length_map (f := Record.norm), hnorm, length_map]
    have hsends := catchUpSends_uncompacted hsame (records (cs' ++ [c])).length 0 hcompacts.holds (Nat.le_add_left _ _)
    refine hall ?_
    rw [Transport.delivers, hhigh', Int.toNat_natCast, ← hlength]
    rw [show ((0 : Nat) : Int) = 0 from rfl] at hsends
    rw [hsends, drop_zero, hnorm]

def registrations (other : Bytes) : List Record :=
  [{ registration .plain [115] [97] 1 with timestamp := 1 },
    { registration .plain other [98] 1 with offset := 1, timestamp := 1 }]

theorem stored_registrations : Stored 0 (registrations [116]) :=
  PartitionLog.stored_pair [115] [123, 97] [116] [123, 98] (by decide +kernel)

theorem compaction_transparent_two : ∃ p s, PartitionLog.Holds p [⟨0, registrations [116]⟩] ⟨2, []⟩ ∧
    Transparent .plain .network p s ∧ Transparent .plain .inproc p s := by
  obtain ⟨p, h, -⟩ := PartitionLog.exists_sealed stored_registrations
  have started : ∃ s, Service.new.replay .plain ((records ([⟨0, registrations [116]⟩] ++ [⟨2, []⟩])).map Record.norm) =
    .ok s := ⟨_, rfl⟩
  obtain ⟨s, started⟩ := started
  have hone : OnePerSubject (records [⟨0, registrations [116]⟩]) := ⟨by decide, by decide⟩
  have hmergeable : PartitionLog.Mergeable [⟨0, registrations [116]⟩] := by
    unfold PartitionLog.Mergeable
    decide +kernel
  have huncompacted : Uncompacted (records ([⟨0, registrations [116]⟩] ++ [⟨2, []⟩])) := by
    intro i r hr
    rcases i with _ | _ | i
    · cases hr
      rfl
    · cases hr
      rfl
    · cases hr
  obtain ⟨hnetwork, hinproc⟩ := compaction_transparent_iff .plain h hmergeable huncompacted h.highWater started
  exact ⟨p, s, h, hnetwork.mpr hone, hinproc hone⟩

/-- With one subject compaction drops the first version, and replay waits for a second record. -/
theorem compaction_starves_replay :
    (do let p ← PartitionLog.appended (registrations [115])
        let (_, p') ← p.compact
        let rs ← p'.readToEnd 256 0
        Except.ok (p'.highWater, rs.length, (Service.replayBounded .plain p'.highWater 0 .new [rs]).isNone)) =
          Except.ok (2, 1, true) := by
  decide +kernel

/-- A subject registered and deleted again, and another one. -/
def deletedFirst : List Record :=
  [registration .plain [115] [97] 1, ⟨0, 0, some [115], none, []⟩, registration .plain [116] [98] 1]

-- In process the converse fails: compaction drops two records, the catch-up sends the third one three times.
example :
    (do let p ← PartitionLog.appended deletedFirst
        let (_, p') ← p.compact
        let rs ← Transport.inproc.delivers p'
        let replayed := (Service.replayBounded .plain p'.highWater 0 .new [rs]).bind Except.toOption
        Except.ok (rs.map Record.offset, replayed.map fun s => (s.listSubjects, s.versions [116]))) =
      Except.ok ([2, 2, 2], some ([[116]], [⟨2, [116], 1, [98]⟩])) := by
  decide +kernel

end Holocron.Schemas

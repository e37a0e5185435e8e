import Mathlib.Data.List.Dedup
import Holocron.Lib.Words
import Holocron.Streams.Builder
import Holocron.Theorems.Groups.OffsetStore

/-! The loops of a topology read under different groups exactly if the joined names differ when cut at their dashes. -/

namespace Holocron.Streams.Builder
open Lib Groups List

def pipeNames : Nat → List Registration → List (List Bytes)
  | _, [] => []
  | n, .streamTo source topic :: rs => [source, topic] :: pipeNames n rs
  | n, .forEach source :: rs => [source, utf8 "foreach", decimal (n + 1 : Nat)] :: pipeNames (n + 1) rs
  | n, _ :: rs => pipeNames n rs

def joinNames : Registration → List (List Bytes)
  | .join kind left right topic => [[kind.word, left, right, topic, left], [kind.word, left, right, topic, right]]
  | _ => []

def tableNames : Registration → Option (List Bytes)
  | .table source storeName => some [utf8 "ktable", source, storeName]
  | _ => none

def names (maxTasks : Int) (rs : List Registration) : List (List Bytes) :=
  (if 0 < maxTasks then pipeNames 0 rs else []) ++ rs.flatMap joinNames ++ (rs.filterMap tableNames).dedup

def named (ns : List Bytes) : Bytes := utf8 "holocron-streams-" ++ [45].intercalate ns

theorem named_eq_iff {a b : List Bytes} (ha : a ≠ []) (hb : b ≠ []) : named a = named b ↔ words 45 a = words 45 b :=
  append_right_inj _ |>.trans (intercalate_eq_iff ha hb)

theorem utf8_dash : utf8 "-" = [45] := by decide +kernel
theorem utf8_foreach : utf8 "-foreach-" = 45 :: (utf8 "foreach" ++ [45]) := by decide +kernel
theorem utf8_ktable : utf8 "holocron-streams-ktable-" = utf8 "holocron-streams-" ++ (utf8 "ktable" ++ [45]) := by decide +kernel

theorem named_pair (a b : Bytes) : named [a, b] = utf8 "holocron-streams-" ++ a ++ utf8 "-" ++ b := by
  simp [named, utf8_dash]

theorem named_foreach (source seq : Bytes) : named [source, utf8 "foreach", seq] = utf8 "holocron-streams-" ++ source ++
    utf8 "-foreach-" ++ seq := by
  simp [named, utf8_foreach]

theorem named_side (kind left right topic side : Bytes) : named [kind, left, right, topic, side] =
    utf8 "holocron-streams-" ++ kind ++ utf8 "-" ++ left ++ utf8 "-" ++ right ++ utf8 "-" ++ topic ++ utf8 "-" ++ side := by
  simp [named, utf8_dash]

theorem named_ktable (source store : Bytes) :
    named [utf8 "ktable", source, store] = utf8 "holocron-streams-ktable-" ++ source ++ utf8 "-" ++ store := by
  simp [named, utf8_dash, utf8_ktable]

section
variable (t : Topology) (rs : List Registration)

theorem table_eq_or (source storeName : Bytes) : t.table source storeName = t ∨
    ∃ kt, t.table source storeName = { t with tables := t.tables ++ [kt] } := by
  unfold Topology.table
  split
  · exact .inl rfl
  · exact .inr ⟨_, rfl⟩

theorem maxTasks_foldl : (rs.foldl Topology.register t).maxTasks = t.maxTasks := by
  induction rs generalizing t with
  | nil => rfl
  | cons r rs ih =>
    refine (ih _).trans ?_
    cases r with
    | table source storeName => rcases table_eq_or t source storeName with h | ⟨kt, h⟩ <;> rw [Topology.register, h]
    | streamTo | forEach | join => rfl

theorem pipes_foldl : (rs.foldl Topology.register t).pipes.map Pipeline.group = t.pipes.map Pipeline.group ++
    (pipeNames t.foreachSeq rs).map named := by
  induction rs generalizing t with
  | nil => simp [pipeNames]
  | cons r rs ih =>
    refine (ih _).trans ?_
    cases r with
    | streamTo source topic => simp [Topology.register, Topology.streamTo, pipeNames, named_pair]
    | forEach source => simp [Topology.register, Topology.forEach, pipeNames, named_foreach]
    | join kind left right topic => rfl
    | table source storeName => rcases table_eq_or t source storeName with h | ⟨kt, h⟩ <;> rw [Topology.register, h] <;> rfl

theorem joins_foldl : ((rs.foldl Topology.register t).joins.flatMap JoinPipeline.sides).map ConsumerLoop.group =
    (t.joins.flatMap JoinPipeline.sides).map ConsumerLoop.group ++ (rs.flatMap joinNames).map named := by
  induction rs generalizing t with
  | nil => simp
  | cons r rs ih =>
    refine (ih _).trans ?_
    cases r with
    | join kind left right topic => simp [Topology.register, Topology.joinTo, JoinPipeline.sides, joinNames, named_side]
    | table source storeName => rcases table_eq_or t source storeName with h | ⟨kt, h⟩ <;> rw [Topology.register, h] <;> rfl
    | streamTo | forEach => rfl

def KTable.names (kt : KTable) : List Bytes := [utf8 "ktable", kt.source, kt.store]

theorem tables_register (r : Registration) :
    (t.register r).tables.map KTable.names = t.tables.map KTable.names ∧
      (∀ ns, tableNames r = some ns → ns ∈ t.tables.map KTable.names) ∨
      ∃ ns, tableNames r = some ns ∧ ns ∉ t.tables.map KTable.names ∧ (t.register r).tables.map KTable.names =
        t.tables.map KTable.names ++ [ns] := by
  cases r with
  | table source storeName =>
    have hiff : (∃ kt ∈ t.tables, kt.source = source ∧ kt.store = storeName) ↔
        [utf8 "ktable", source, storeName] ∈ t.tables.map KTable.names := by
      simp [KTable.names]
    unfold Topology.register Topology.table
    dsimp only
    split
    · rename_i h
      refine .inl ⟨rfl, fun ns hns => ?_⟩
      rw [← Option.some.inj hns]
      exact hiff.mp h
    · rename_i h
      exact .inr ⟨_, rfl, mt hiff.mpr h, map_append⟩
  | streamTo | forEach | join => exact .inl ⟨rfl, nofun⟩

end

section
variable (maxTasks : Int) (rs : List Registration)

theorem build_concat (r : Registration) : build maxTasks (rs ++ [r]) = (build maxTasks rs).register r := foldl_concat ..

theorem tables_nodup : ((build maxTasks rs).tables.map KTable.names).Nodup := by
  induction rs using reverseRecOn with
  | nil => exact .nil
  | append_singleton rs r ih =>
    rw [build_concat]
    rcases tables_register (build maxTasks rs) r with ⟨hsame, -⟩ | ⟨ns, -, hnew, hadd⟩
    · rw [hsame]
      exact ih
    · rw [hadd]
      exact nodup_append.mpr ⟨ih, nodup_singleton _, fun x hx y hy => by rw [mem_singleton.mp hy]; exact fun h => hnew (h ▸ hx)⟩

theorem mem_tables (ns : List Bytes) : ns ∈ (build maxTasks rs).tables.map KTable.names ↔ ns ∈ rs.filterMap tableNames := by
  induction rs using reverseRecOn with
  | nil => exact Iff.rfl
  | append_singleton rs r ih =>
    rw [build_concat, filterMap_append, mem_append, ← ih]
    rcases tables_register (build maxTasks rs) r with ⟨hsame, hhas⟩ | ⟨x, hx, -, hadd⟩
    · rw [hsame]
      refine ⟨.inl, fun h => h.elim id fun h => ?_⟩
      obtain ⟨r', hr', hns⟩ := mem_filterMap.mp h
      rw [mem_singleton.mp hr'] at hns
      exact hhas ns hns
    · rw [hadd, mem_append, filterMap_cons, hx]
      rfl

theorem table_groups : ∀ kt ∈ (build maxTasks rs).tables, kt.group = named kt.names := by
  induction rs using reverseRecOn with
  | nil => exact forall_mem_nil _
  | append_singleton rs r ih =>
    rw [build_concat]
    cases r with
    | table source storeName =>
      unfold Topology.register Topology.table
      dsimp only
      split
      · exact ih
      · intro kt hkt
        rcases mem_append.mp hkt with hkt | hkt
        · exact ih kt hkt
        · rw [mem_singleton.mp hkt]
          exact (named_ktable source storeName).symm
    | streamTo | forEach | join => exact ih

/-- The groups of the loops, up to their order. -/
theorem groups_perm : ((build maxTasks rs).loops.map ConsumerLoop.group).Perm ((names maxTasks rs).map named) := by
  have hpipes : (build maxTasks rs).pipes.map Pipeline.group = (pipeNames 0 rs).map named := pipes_foldl (.new maxTasks) rs
  have hjoins : ((build maxTasks rs).joins.flatMap JoinPipeline.sides).map ConsumerLoop.group =
    (rs.flatMap joinNames).map named :=
    joins_foldl (.new maxTasks) rs
  have htables : (build maxTasks rs).tables.map KTable.group = ((build maxTasks rs).tables.map KTable.names).map named := by
    rw [map_map]
    exact map_congr_left (table_groups maxTasks rs)
  have hperm : ((build maxTasks rs).tables.map KTable.names).Perm (rs.filterMap tableNames).dedup :=
    (perm_ext_iff_of_nodup (tables_nodup maxTasks rs) (nodup_dedup _)).mpr fun ns =>
      (mem_tables maxTasks rs ns).trans mem_dedup.symm
  unfold Topology.loops names
  rw [show (build maxTasks rs).maxTasks = maxTasks from maxTasks_foldl (.new maxTasks) rs, map_append,
    map_append, map_append, map_append, hjoins]
  refine Perm.append (Perm.append (.of_eq ?_) (.refl _)) ?_
  · split
    · rw [← hpipes, map_map]
      rfl
    · rfl
  · rw [map_map]
    change ((build maxTasks rs).tables.map KTable.group).Perm _
    rw [htables]
    exact hperm.map named

variable {rs} {ns : List Bytes}

theorem ne_nil_of_mem_pipeNames {n : Nat} (h : ns ∈ pipeNames n rs) : ns ≠ [] := by
  induction rs generalizing n with
  | nil => cases h
  | cons r rs ih =>
    cases r with
    | streamTo | forEach =>
      rcases mem_cons.mp h with rfl | h
      · exact cons_ne_nil _ _
      · exact ih h
    | join | table => exact ih h

variable {maxTasks} in
theorem ne_nil_of_mem_names (h : ns ∈ names maxTasks rs) : ns ≠ [] := by
  rcases mem_append.mp h with h | h
  · rcases mem_append.mp h with h | h
    · split at h
      · exact ne_nil_of_mem_pipeNames h
      · cases h
    · obtain ⟨r, -, hr⟩ := mem_flatMap.mp h
      cases r with
      | join => rcases mem_pair.mp hr with rfl | rfl <;> exact cons_ne_nil _ _
      | streamTo | forEach | table => cases hr
  · obtain ⟨r, -, hr⟩ := mem_filterMap.mp (mem_dedup.mp h)
    cases r with
    | table => exact Option.some.inj hr ▸ cons_ne_nil _ _
    | streamTo | forEach | join => cases hr

variable (rs)

theorem nodup_groups_iff : ((build maxTasks rs).loops.map ConsumerLoop.group).Nodup ↔
    (names maxTasks rs).Pairwise fun a b => words 45 a ≠ words 45 b := by
  rw [(groups_perm maxTasks rs).nodup_iff]
  unfold Nodup
  rw [pairwise_map]
  constructor <;> intro h <;> refine h.imp_of_mem fun ha hb hab => ?_
  · exact mt (named_eq_iff (ne_nil_of_mem_names ha) (ne_nil_of_mem_names hb)).mpr hab
  · exact mt (named_eq_iff (ne_nil_of_mem_names ha) (ne_nil_of_mem_names hb)).mp hab

/-- Any two loops of a topology read under different groups exactly if the names of any two differ, word by word. -/
theorem groups_distinct_iff : ((build maxTasks rs).loops.Pairwise fun a b => a.group ≠ b.group) ↔
    (names maxTasks rs).Pairwise fun a b => words 45 a ≠ words 45 b := by
  rw [← nodup_groups_iff, Nodup, pairwise_map]

end

def branches : List Registration :=
  [.streamTo [111] [97], .streamTo [111] [98], .forEach [111], .join .inner [97] [98] [99], .table [97] [115]]

example : (build 1 branches).loops.Pairwise fun a b => a.group ≠ b.group := by decide +kernel

/-- Two pipelines from one topic to another, a join of a topic with itself, and pipelines whose topics join to the same name
    share a group. -/
theorem groups_shared :
    ¬ (build 1 [.streamTo [111] [97], .streamTo [111] [97]]).loops.Pairwise (fun a b => a.group ≠ b.group) ∧
      ¬ (build 1 [.join .inner [111] [111] [97]]).loops.Pairwise (fun a b => a.group ≠ b.group) ∧
      ¬ (build 1 [.streamTo [111, 45, 97] [98], .streamTo [111] [97, 45, 98]]).loops.Pairwise (fun a b => a.group ≠ b.group) ∧
      ¬ (build 1 [.streamTo [111] (utf8 "foreach-1"), .forEach [111]]).loops.Pairwise (fun a b => a.group ≠ b.group) := by
  decide +kernel

end Holocron.Streams.Builder

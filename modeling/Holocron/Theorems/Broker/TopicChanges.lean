import Holocron.Broker.Topics

/-! Topic changes that fail: the registry changes its map before it saves it, and takes nothing back. -/

namespace Holocron
open Lib Storage Topic List Function

inductive Change where
  | create (spec : Spec)
  | updateConfig (name : Bytes) (retentionMs segmentBytes : Int64)
  | delete (name : Bytes)
  deriving DecidableEq

/-- What a call does to the topics by name, whether or not they can be saved then. A call that is refused does
    nothing. -/
def Change.apply (topics : Bytes → Option TopicConfig) : Change → Bytes → Option TopicConfig
  | .create spec =>
    if nameRe spec.name = true ∧ 0 < spec.partitionCount ∧ topics spec.name = none then
      update topics spec.name (some ⟨spec.name, spec.partitionCount, spec.retentionMs, spec.segmentBytes⟩)
    else topics
  | .updateConfig name retentionMs segmentBytes =>
    update topics name ((topics name).map fun cfg =>
      { cfg with
        retentionMs := if 0 < retentionMs then retentionMs else cfg.retentionMs
        segmentBytes := if 0 < segmentBytes then segmentBytes else cfg.segmentBytes })
  | .delete name => update topics name none

namespace Change

theorem apply_updateConfig_zero (topics : Bytes → Option TopicConfig) (name : Bytes) :
    apply topics (.updateConfig name 0 0) = topics := by
  simp [apply]

theorem apply_create_delete {topics : Bytes → Option TopicConfig} (spec : Spec) (h : topics spec.name = none) :
    [.create spec, .delete spec.name].foldl apply topics = topics := by
  simp only [foldl_cons, foldl_nil, apply]
  split
  · rw [update_idem, ← h, update_eq_self]
  · rw [← h, update_eq_self]

end Change

namespace Topic.Registry

def change (r : Registry) : Change → Except TopicError Unit × Registry
  | .create spec => r.create spec
  | .updateConfig name retentionMs segmentBytes => r.updateConfig name retentionMs segmentBytes
  | .delete name => r.delete name

def Distinct (topics : List TopicConfig) : Prop := (topics.map (·.name)).Nodup

variable {topics : List TopicConfig}

theorem Distinct.put (h : Distinct topics) (cfg : TopicConfig) : Distinct (put topics cfg) := by
  rw [Distinct, Registry.put, map_append, map_singleton, ← concat_eq_append, nodup_concat]
  exact ⟨by simp, h.sublist (filter_sublist.map _)⟩

theorem Distinct.foldl_put (topics : List TopicConfig) : Distinct (topics.foldl Registry.put []) :=
  foldlRecOn topics _ nodup_nil fun _ h cfg _ => h.put cfg

/-- What is loaded from a file of distinct names is what was saved. -/
theorem hydrate_topics (h : Distinct topics) : (new.hydrate topics).topics = topics := by
  change topics.foldl put [] = topics
  induction topics using reverseRecOn with
  | nil => rfl
  | append_singleton topics cfg ih =>
    rw [Distinct, map_append, map_singleton, ← concat_eq_append, nodup_concat] at h
    rw [foldl_append, ih h.2, foldl_cons, foldl_nil, put, filter_eq_self.mpr fun c hc => ?_]
    exact decide_eq_true fun heq => h.1 (heq ▸ mem_map_of_mem hc)

theorem find_filter (topics : List TopicConfig) (persist : Option (List TopicConfig → Option TopicError))
    (name other : Bytes) :
    find ⟨topics.filter fun cfg => decide (cfg.name ≠ name), persist⟩ other =
      if other = name then none else find ⟨topics, persist⟩ other := by
  unfold find
  rw [find?_filter]
  split
  · rename_i h
    refine find?_eq_none.mpr fun cfg _ hcfg => ?_
    simp only [decide_eq_true_eq] at hcfg
    exact hcfg.1 (hcfg.2.trans h)
  · rename_i h
    congr 1
    funext cfg
    by_cases hcfg : cfg.name = other
    · simp [hcfg, h]
    · simp [hcfg]

theorem find_put (topics : List TopicConfig) (persist : Option (List TopicConfig → Option TopicError))
    (cfg : TopicConfig) (other : Bytes) :
    find ⟨put topics cfg, persist⟩ other = if other = cfg.name then some cfg else find ⟨topics, persist⟩ other := by
  have hfilter := find_filter topics persist cfg.name other
  unfold find put at *
  rw [find?_append, hfilter]
  by_cases hother : other = cfg.name
  · simp [hother]
  · have hne : cfg.name ≠ other := fun h => hother h.symm
    simp [hother, hne]

theorem name_of_find {r : Registry} {name : Bytes} {cfg : TopicConfig} (h : r.find name = some cfg) : cfg.name = name := by
  simpa using find?_some h

/-- A call is refused, or it changes the map and saves it. -/
theorem change_cases (r : Registry) (c : Change) : (∃ e, r.change c = (.error e, r) ∧ c.apply r.find = r.find) ∨
    ∃ topics, r.change c = (persisted { r with topics := topics }, { r with topics := topics }) ∧
      (Distinct r.topics → Distinct topics) ∧ find { r with topics := topics } = c.apply r.find := by
  cases c <;> simp only [change, Change.apply]
  case create spec =>
    unfold create
    by_cases hname : nameRe spec.name = false
    · exact .inl ⟨_, if_pos hname, if_neg (by simp [hname])⟩
    rw [if_neg hname]
    by_cases hcount : spec.partitionCount ≤ 0
    · exact .inl ⟨_, if_pos hcount, if_neg fun h => absurd h.2.1 (Int32.not_lt.mpr hcount)⟩
    rw [if_neg hcount]
    cases hfind : r.find spec.name with
    | some cfg => exact .inl ⟨_, rfl, if_neg (by simp)⟩
    | none =>
      refine .inr ⟨_, rfl, fun h => h.put _, ?_⟩
      rw [if_pos ⟨by simpa using hname, Int32.not_le.mp hcount, rfl⟩]
      funext other
      rw [find_put, update_apply]
  case updateConfig name retentionMs segmentBytes =>
    unfold updateConfig
    cases hfind : r.find name with
    | none => exact .inl ⟨_, rfl, by rw [Option.map_none, ← hfind, update_eq_self]⟩
    | some cfg =>
      refine .inr ⟨_, rfl, fun h => h.put _, ?_⟩
      funext other
      rw [find_put, update_apply, Option.map_some]
      obtain rfl := name_of_find hfind
      split_ifs <;> rfl
  case delete name =>
    unfold delete
    cases hfind : r.find name with
    | none => exact .inl ⟨_, rfl, by rw [← hfind, update_eq_self]⟩
    | some cfg =>
      refine .inr ⟨_, rfl, fun h => h.sublist (filter_sublist.map _), ?_⟩
      funext other
      rw [find_filter, update_apply]

end Topic.Registry

namespace Broker
variable {σ : Type} [Store σ]

def change (b : Broker σ) : Change → Except BrokerError Unit × Broker σ
  | .create spec => b.createTopic spec
  | .updateConfig name retentionMs segmentBytes => b.updateTopicConfig name retentionMs segmentBytes
  | .delete name => b.deleteTopic name

theorem change_registry (b : Broker σ) (c : Change) : (b.change c).2.registry = (b.registry.change c).2 := by
  cases c <;> simp only [change, Registry.change, createTopic, updateTopicConfig, deleteTopic] <;> repeat (split <;> simp_all)

/-- A standalone broker whose persist function saves the topics file. -/
structure Saved (σ : Type) where
  broker : Broker σ
  file : List TopicConfig

namespace Saved

def restart (b : Broker σ) (file : List TopicConfig) : Saved σ := ⟨{ b with registry := Registry.new.hydrate file }, file⟩

/-- The broker at a call during which saving gives this outcome. -/
def during (s : Saved σ) (outcome : Option TopicError) : Broker σ :=
  { s.broker with registry := { s.broker.registry with persist := some fun _ => outcome } }

/-- The registry accepts the change and saves it. -/
def saves (s : Saved σ) (c : Change × Option TopicError) : Bool := ((s.during c.2).registry.change c.1).1.isOk

def step (s : Saved σ) (c : Change × Option TopicError) : Saved σ :=
  ⟨((s.during c.2).change c.1).2, if s.saves c then ((s.during c.2).registry.change c.1).2.topics else s.file⟩

def topics (s : Saved σ) : Bytes → Option TopicConfig := s.broker.registry.find

/-- The topics that a restart loads. -/
def loaded (s : Saved σ) : Bytes → Option TopicConfig := (Registry.new.hydrate s.file).find

/-- The calls since the last one that was saved. -/
def unsaved (s : Saved σ) (pending : List Change) : List (Change × Option TopicError) → List Change
  | [] => pending
  | c :: calls => unsaved (s.step c) (if s.saves c then [] else pending ++ [c.1]) calls

/-- What the file lacks are the calls since the last one that was saved. -/
structure Trails (s : Saved σ) (pending : List Change) : Prop where
  distinct : Registry.Distinct s.broker.registry.topics
  topics : s.topics = pending.foldl Change.apply s.loaded

theorem topics_step (s : Saved σ) (c : Change × Option TopicError) : (s.step c).topics = c.1.apply s.topics := by
  simp only [topics, step, change_registry]
  rcases Registry.change_cases (s.during c.2).registry c.1 with ⟨e, he, hsame⟩ | ⟨topics, htopics, -, happly⟩
  · rw [he]
    exact hsame.symm
  · rw [htopics]
    exact happly

theorem Trails.step {s : Saved σ} {pending : List Change} (h : s.Trails pending) (c : Change × Option TopicError) :
    (s.step c).Trails (if s.saves c then [] else pending ++ [c.1]) := by
  have hdistinct : Registry.Distinct (s.step c).broker.registry.topics := by
    simp only [Saved.step, change_registry]
    rcases Registry.change_cases (s.during c.2).registry c.1 with ⟨e, he, -⟩ | ⟨topics, htopics, hdistinct, -⟩
    · rw [he]
      exact h.distinct
    · rw [htopics]
      exact hdistinct h.distinct
  refine ⟨hdistinct, ?_⟩
  by_cases hsaves : s.saves c
  · have hfile : (s.step c).file = (s.step c).broker.registry.topics := by
      simp only [Saved.step, hsaves, ↓reduceIte, change_registry]
    rw [if_pos hsaves, foldl_nil, loaded, hfile]
    exact congrArg (fun topics => Registry.find ⟨topics, none⟩) (Registry.hydrate_topics hdistinct).symm
  · have hloaded : (s.step c).loaded = s.loaded := by simp [loaded, Saved.step, hsaves, ↓reduceIte]
    rw [if_neg hsaves, foldl_append, hloaded, ← h.topics, topics_step]
    rfl

theorem trails_run {s : Saved σ} {pending : List Change} (h : s.Trails pending) (calls : List (Change × Option TopicError)) :
    (calls.foldl step s).Trails (s.unsaved pending calls) := by
  induction calls generalizing s pending with
  | nil => exact h
  | cons c calls ih => exact ih (h.step c)

/-- A call that is saved and fails is a deletion whose records stay in the store. -/
theorem changes_of_saves {s : Saved σ} {c : Change × Option TopicError} (saves : s.saves c = true) {e : BrokerError}
    (h : ((s.during c.2).change c.1).1 = .error e) : c.1.apply s.topics ≠ s.topics := by
  obtain ⟨c, outcome⟩ := c
  simp only [Saved.saves] at saves
  cases c with
  | create spec =>
    simp only [change, createTopic, Registry.change] at h saves
    split at h <;> simp_all [Except.isOk, Except.toBool]
  | updateConfig name retentionMs segmentBytes =>
    simp only [change, updateTopicConfig, Registry.change] at h saves
    split at h <;> simp_all [Except.isOk, Except.toBool]
  | delete name =>
    have hfind : s.topics name ≠ none := fun hnone => by
      have hnone : (s.during outcome).registry.find name = none := hnone
      simp [Registry.change, Registry.delete, hnone, Except.isOk, Except.toBool] at saves
    intro hsame
    exact hfind (by rw [← hsame]; simp [Change.apply])

/-- A call that fails leaves no trace just when it asks for no change of the topics, and the calls since the last one
    that was saved have changed nothing all together. -/
theorem failed_change_traceless (b : Broker σ) (file : List TopicConfig) (calls : List (Change × Option TopicError))
    (c : Change × Option TopicError) :
    let s := calls.foldl step (restart b file)
    ((∃ e, ((s.during c.2).registry.change c.1).1 = .error e) ∨ ∃ e, ((s.during c.2).change c.1).1 = .error e) →
      ((s.step c).topics = s.topics ∧ s.topics = (s.step c).loaded ↔
        c.1.apply s.topics = s.topics ∧
          ((restart b file).unsaved [] calls).foldl Change.apply s.loaded = s.loaded) := by
  intro s failed
  have htrails : s.Trails ((restart b file).unsaved [] calls) :=
    trails_run ⟨Registry.Distinct.foldl_put file, rfl⟩ calls
  rw [topics_step, ← htrails.topics]
  refine and_congr_right fun hsame => ?_
  have hsaves : s.saves c = false := by
    rcases failed with ⟨e, he⟩ | ⟨e, he⟩
    · rw [saves, he]
      rfl
    · exact Bool.eq_false_iff.mpr fun hsaves => changes_of_saves hsaves he hsame
  have hloaded : (s.step c).loaded = s.loaded := by
    simp [loaded, step, hsaves, ↓reduceIte]
  rw [hloaded]

def noTopics : Saved MemoryStore := restart ⟨.new, .new, 0, [], fun _ => .empty⟩ []

def orders : Change := .create ⟨utf8 "orders", 1, 0, 0⟩

/-- The topic is saved. Another one is not, and neither is its deletion. -/
def createdAndUndone : List (Change × Option TopicError) :=
  [(orders, none), (.create ⟨utf8 "audit", 3, 0, 0⟩, some .persist), (.delete (utf8 "audit"), some .persist)]

/-- After that an update that changes nothing cannot be saved either, and memory and file still agree. -/
theorem failed_change_traceless_update :
    let s := createdAndUndone.foldl step noTopics
    let update : Change × Option TopicError := (.updateConfig (utf8 "orders") 0 0, some .persist)
    ((s.during (some .persist)).change update.1).1 = .error (.topic .persist) ∧
      (s.step update).topics = s.topics ∧ s.topics = (s.step update).loaded := by
  intro s update
  have herror : ((s.during (some .persist)).change update.1).1 = .error (.topic .persist) := by decide +kernel
  have hunsaved : noTopics.unsaved [] createdAndUndone =
      [.create ⟨utf8 "audit", 3, 0, 0⟩, .delete (utf8 "audit")] := by decide +kernel
  have haudit : s.loaded (utf8 "audit") = none := by decide +kernel
  refine ⟨herror, (failed_change_traceless noTopics.broker [] createdAndUndone update (.inr ⟨_, herror⟩)).mpr ⟨?_, ?_⟩⟩
  · exact Change.apply_updateConfig_zero _ _
  · rw [show (restart noTopics.broker []).unsaved [] createdAndUndone = _ from hunsaved]
    exact Change.apply_create_delete _ haudit

/-- A topic that could not be saved is registered until the restart. -/
theorem unsaved_topic_stays : ((noTopics.during (some .persist)).change orders).1 = .error (.topic .persist) ∧
    (noTopics.step (orders, some .persist)).broker.registry.topics = [⟨utf8 "orders", 1, 0, 0⟩] ∧
      noTopics.broker.registry.topics = [] ∧
      (Registry.new.hydrate (noTopics.step (orders, some .persist)).file).topics = [] := by
  decide +kernel

end Saved
end Broker
end Holocron

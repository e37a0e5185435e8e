import Mathlib.Data.List.Chain
import Holocron.Registry.Instances
import Holocron.Theorems.Registry.Immutable

/-! An ID is the offset of a registration of the same subject and text, as far as JSON keeps the text. -/

namespace Holocron.Schemas.Instances
open Lib Groups List

variable {J : Json} {topic : List Record} {c : Call} {r : Record}

def Registered (J : Json) (topic : List Record) (subject text : Bytes) (id : Int) : Prop :=
  ∃ (n : Nat) (r : Record), id = n ∧ topic[n]? = some r ∧ decode J r = .ok (.register subject (toValidUTF8 text) n)

theorem Registered.append {subject text : Bytes} {id : Int} (h : Registered J topic subject text id) (r : List Record) :
    Registered J (topic ++ r) subject text id := by
  obtain ⟨n, r', hid, hr', hdecode⟩ := h
  exact ⟨n, r', hid, List.getElem?_append_left (List.getElem?_eq_some_iff.mp hr').1 ▸ hr', hdecode⟩

theorem Registered.of_take {k : Nat} {subject text : Bytes} {id : Int} (h : Registered J (topic.take k) subject text id) :
    Registered J topic subject text id := by
  have h := h.append (topic.drop k)
  rwa [take_append_drop] at h

theorem registered_append (topic : List Record) (subject text : Bytes) (version : Int) :
    Registered J (Schemas.append topic (registration J subject text version)) subject text topic.length :=
  ⟨topic.length, _, rfl, getElem?_concat_length, (Writes.register subject text version).decode _⟩

theorem Registered.unique {q q' t t' : Bytes} {id : Int} (h : Registered J topic q t id) (h' : Registered J topic q' t' id) :
    q = q' ∧ toValidUTF8 t = toValidUTF8 t' := by
  obtain ⟨n, r, hid, hr, hdecode⟩ := h
  obtain ⟨n', r', hid', hr', hdecode'⟩ := h'
  obtain rfl : n = n' := by omega
  obtain rfl : r = r' := Option.some.inj (hr.symm.trans hr')
  rw [hdecode] at hdecode'
  injection hdecode' with hchange
  injection hchange with hq ht
  exact ⟨hq, ht⟩

def Entry (J : Json) (r : Record) (n : Nat) : Prop :=
  (∃ q t, decode J r = .ok (.register q (toValidUTF8 t) n)) ∨ ∃ q mode, decode J r = .ok (.config q mode)

def Undeleted (J : Json) (topic : List Record) : Prop := ∀ (n : Nat) (r : Record), topic[n]? = some r → Entry J r n

theorem Undeleted.append (h : Undeleted J topic) {change : Int → Change} (writes : Writes J r change)
    (entry : ∀ n : Nat, (∃ q t, change n = .register q (toValidUTF8 t) n) ∨ ∃ q mode, change n = .config q mode) :
    Undeleted J (Schemas.append topic r) := by
  intro n r' hr'
  rcases of_getElem?_concat hr' with hr' | ⟨rfl, rfl⟩
  · exact h n r' hr'
  · have hdecode := writes.decode topic.length
    rcases entry topic.length with ⟨q, t, hchange⟩ | ⟨q, mode, hchange⟩
    · exact .inl ⟨q, t, hchange ▸ hdecode⟩
    · exact .inr ⟨q, mode, hchange ▸ hdecode⟩

theorem Undeleted.take (h : Undeleted J topic) (k : Nat) : Undeleted J (topic.take k) := by
  intro n r hr
  rw [getElem?_take] at hr
  split at hr
  · exact h n r hr
  · cases hr

structure Rebuilt (J : Json) (topic : List Record) (t : Service) : Prop where
  resolves {n : Nat} {r : Record} {q text : Bytes} : topic[n]? = some r → decode J r = .ok (.register q text n) →
    ∃ sc, t.byID n = some sc ∧ sc.subject = q ∧ sc.schema = text
  numbered (q : Bytes) : (t.versions q).map Schema.version = (List.range (t.versions q).length).map fun i : Nat => (i : Int) + 1
  distinct (q : Bytes) : (t.versions q).IsChain fun a b => a.schema ≠ b.schema
  own {q : Bytes} {x : Schema} : x ∈ t.versions q → x.subject = q
  registered {q : Bytes} {x : Schema} : x ∈ t.versions q → Registered J topic q x.schema x.id

namespace Rebuilt

variable {topic : List Record} {t : Service}

theorem nil : Rebuilt J [] Service.new :=
  ⟨nofun, fun _ => rfl, fun _ => .nil, fun h => absurd h not_mem_nil, fun h => absurd h not_mem_nil⟩

theorem config (h : Rebuilt J topic t) {q : Bytes} {mode : Compatibility} (hr : decode J r = .ok (.config q mode)) :
    Rebuilt J (topic ++ [r]) (t.applyConfigLocked q mode) where
  resolves {n r' q' text} hr' hdecode := by
    rw [Service.byID_applyConfigLocked]
    rcases of_getElem?_concat hr' with hr' | ⟨-, rfl⟩
    · exact h.resolves hr' hdecode
    · rw [hr] at hdecode
      cases hdecode
  numbered q' := by
    rw [Service.versions_applyConfigLocked]
    exact h.numbered q'
  distinct q' := by
    rw [Service.versions_applyConfigLocked]
    exact h.distinct q'
  own {q' x} hx := by
    rw [Service.versions_applyConfigLocked] at hx
    exact h.own hx
  registered {q' x} hx := by
    rw [Service.versions_applyConfigLocked] at hx
    exact (h.registered hx).append [r]

theorem resolves_bind (h : Rebuilt J topic t) {q text : Bytes} (hr : decode J r = .ok (.register q text topic.length))
    {sc : Schema}
    (subject : sc.subject = q) (schema : sc.schema = text) {n : Nat} {r' : Record} {q' text' : Bytes}
      (hr' : (topic ++ [r])[n]? = some r')
    (hdecode : decode J r' = .ok (.register q' text' n)) :
    ∃ x, Function.update t.byID topic.length (some sc) n = some x ∧ x.subject = q' ∧ x.schema = text' := by
  rcases of_getElem?_concat hr' with hr' | ⟨rfl, rfl⟩
  · have hlt := (List.getElem?_eq_some_iff.mp hr').1
    rw [Function.update_of_ne (by omega)]
    exact h.resolves hr' hdecode
  · rw [hr] at hdecode
    injection hdecode with hchange
    injection hchange with hq htext
    exact ⟨sc, Function.update_self .., subject.trans hq, schema.trans htext⟩

section
variable (h : Rebuilt J topic t) {r : Record} {q text : Bytes}
    (hr : decode J r = .ok (.register q (toValidUTF8 text) topic.length))
include h hr

theorem addVersion
    (new : ∀ latest ∈ (t.versions q).getLast?, latest.schema ≠ toValidUTF8 text) :
    Rebuilt J (topic ++ [r]) (t.addVersion q (toValidUTF8 text) topic.length) where
  resolves hr' hdecode := by
    rw [Service.byID_addVersion]
    exact h.resolves_bind hr rfl rfl hr' hdecode
  numbered q' := by
    rw [Service.versions_addVersion]
    split
    · rw [map_append, h.numbered q, length_append, length_singleton, range_succ, map_append]
      rfl
    · exact h.numbered q'
  distinct q' := by
    rw [Service.versions_addVersion]
    split
    · refine (h.distinct q).append (.singleton _) fun x hx y hy => ?_
      cases hy
      exact new x hx
    · exact h.distinct q'
  own {q' x} hx := by
    rw [Service.versions_addVersion] at hx
    split at hx
    · rename_i hq
      rcases mem_append.mp hx with hx | hx
      · exact (h.own hx).trans hq.symm
      · rw [mem_singleton.mp hx, hq]
    · exact h.own hx
  registered {q' x} hx := by
    rw [Service.versions_addVersion] at hx
    split at hx
    · rename_i hq
      rcases mem_append.mp hx with hx | hx
      · exact hq ▸ (h.registered hx).append [r]
      · rw [mem_singleton.mp hx, hq]
        refine ⟨topic.length, r, rfl, getElem?_concat_length, ?_⟩
        rw [toValidUTF8_idem]
        exact hr
    · exact (h.registered hx).append [r]

theorem register :
    Rebuilt J (topic ++ [r]) (t.applyRegistration q (toValidUTF8 text) topic.length) := by
  unfold Service.applyRegistration
  split
  · rename_i latest hlast
    split
    · rename_i hsame
      -- the latest version gets one more ID
      refine ⟨fun hr' hdecode => ?_, fun q' => ?_, fun q' => ?_, fun {q' x} hx => ?_, fun {q' x} hx => ?_⟩
      · rw [Service.noteID_byID]
        exact h.resolves_bind hr (h.own (mem_of_getLast? hlast)) hsame hr' hdecode
      · rw [Service.noteID_versions]
        exact h.numbered q'
      · rw [Service.noteID_versions]
        exact h.distinct q'
      · rw [Service.noteID_versions] at hx
        exact h.own hx
      · rw [Service.noteID_versions] at hx
        exact (h.registered hx).append [r]
    · rename_i hne
      refine h.addVersion hr fun x hx => ?_
      rw [hlast] at hx
      cases hx
      exact hne
  · rename_i hlast
    refine h.addVersion hr fun x hx => ?_
    rw [hlast] at hx
    cases hx

end

end Rebuilt

theorem rebuilt (undeleted : Undeleted J topic) : ∃ t, Service.new.replay J topic = .ok t ∧ Rebuilt J topic t := by
  induction topic using reverseRecOn with
  | nil => exact ⟨_, rfl, .nil⟩
  | append_singleton topic r ih =>
    have hprefix : Undeleted J topic := by
      have h := undeleted.take topic.length
      rwa [take_left] at h
    obtain ⟨t, ht, h⟩ := ih hprefix
    have hreplay : ∀ change, decode J r = .ok change → Service.new.replay J (topic ++ [r]) = .ok (t.replayed change) := by
      intro change hchange
      rw [Service.replay] at ht
      rw [Service.replay, runAll_concat, ht]
      change t.applyRecord J r = _
      rw [Service.applyRecord_eq, hchange]
      rfl
    rcases undeleted topic.length r getElem?_concat_length with ⟨q, text, hr⟩ | ⟨q, mode, hr⟩
    · exact ⟨_, hreplay _ hr, h.register hr⟩
    · exact ⟨_, hreplay _ hr, h.config hr⟩

def Stage.id : Stage → Option Int
  | .produced _ id => some id
  | .done answer => answer
  | _ => none

structure Backed (J : Json) (s : State) : Prop where
  undeleted : Undeleted J s.topic
  listed {service : Service} {q : Bytes} {x : Schema} : service ∈ s.services → x ∈ service.versions q →
    Registered J s.topic q x.schema x.id
  called {c : Call} {id : Int} : c ∈ s.calls → c.stage.id = some id → Registered J s.topic c.subject c.text id

namespace Backed

variable {s : State}

theorem new : Backed J State.new :=
  ⟨nofun, fun h => absurd h not_mem_nil, fun h => absurd h not_mem_nil⟩

section
variable (h : Backed J s) {service : Service} {i : Nat}
include h

theorem setStage {stage : Stage} (got : ∀ id, stage.id = some id → Registered J s.topic c.subject c.text id) :
    Backed J (s.setStage i c stage) where
  undeleted := h.undeleted
  listed := h.listed
  called {d id} hd hid := by
    rcases mem_or_eq_of_mem_set hd with hd | rfl
    · exact h.called hd hid
    · exact got id hid

theorem append (undeleted : Undeleted J (Schemas.append s.topic r)) :
    Backed J { s with topic := Schemas.append s.topic r } where
  undeleted := undeleted
  listed hservice hx := (h.listed hservice hx).append _
  called hc hid := (h.called hc hid).append _

theorem setService
    (listed : ∀ q, ∀ x ∈ service.versions q, Registered J s.topic q x.schema x.id) :
      Backed J { s with services := s.services.set i service } where
  undeleted := h.undeleted
  listed {service' q x} hservice hx := by
    rcases mem_or_eq_of_mem_set hservice with hservice | rfl
    · exact h.listed hservice hx
    · exact listed q x hx
  called := h.called

theorem start (n : Nat) : Backed J (s.start J n) := by
  obtain ⟨t, ht, rebuilt⟩ := rebuilt (h.undeleted.take n)
  unfold State.start
  rw [ht]
  refine ⟨h.undeleted, fun {service q x} hservice hx => ?_, h.called⟩
  rcases mem_append.mp hservice with hservice | hservice
  · exact h.listed hservice hx
  · rw [mem_singleton.mp hservice] at hx
    exact (rebuilt.registered hx).of_take

theorem read (mem : service ∈ s.services) : Backed J (s.read i c service) := by
  unfold State.read
  dsimp only
  split
  · rename_i latest hlast
    split
    · rename_i hsame
      refine h.setStage fun id hid => ?_
      cases hid
      exact hsame ▸ h.listed mem (mem_of_getLast? hlast)
    · exact h.setStage nofun
  · exact h.setStage nofun

theorem written (c : Call) (version : Int) :
    Backed J { s with topic := Schemas.append s.topic (registration J c.subject c.text version) } :=
  h.append (h.undeleted.append (.register c.subject c.text version) fun _ => .inl ⟨_, _, rfl⟩)

theorem produce {version : Int} {sent : Sent} : Backed J (s.produce J i c version sent) := by
  have hwritten := h.written c version
  match sent with
  | .ok =>
    refine hwritten.setStage fun id hid => ?_
    cases hid
    exact registered_append ..
  | .failed true => exact hwritten.setStage nofun
  | .failed false => exact h.setStage nofun

theorem applies (mem : service ∈ s.services) {id : Int} (version : Int)
    (registered : Registered J s.topic c.subject c.text id) :
    Backed J (State.setStage { s with services := s.services.set c.service (service.applyLocked ⟨id, c.subject, version,
      c.text⟩) } i c (.done (some id))) := by
  refine (h.setService fun q x hx => ?_).setStage fun id' hid' => ?_
  · rw [Service.applyLocked, Service.noteID_versions, Service.versions_set] at hx
    split at hx
    · rename_i hq
      rcases mem_appendByVersion hx with rfl | hx
      · exact hq ▸ registered
      · exact hq ▸ h.listed mem hx
    · exact h.listed mem hx
  · cases hid'
    exact registered

theorem run (i : Nat) (sent : Sent) : Backed J (s.run J i sent) := by
  unfold State.run
  cases hcall : s.calls[i]? with
  | none => exact h
  | some c =>
    dsimp only
    cases hservice : s.services[c.service]? with
    | none => exact h
    | some service =>
      have mem := mem_of_getElem? hservice
      unfold State.advance
      cases hstage : c.stage with
      | start => exact h.read mem
      | numbered n =>
        dsimp only
        split <;> exact h.setStage nofun
      | checked n => exact h.produce
      | produced n id => exact h.applies mem n (h.called (mem_of_getElem? hcall) (congrArg Stage.id hstage))
      | done answer => exact h

theorem setCompatibility (i : Nat) (q : Bytes) (mode : Compatibility) (sent : Sent) :
    Backed J (s.setCompatibility J i q mode sent) := by
  unfold State.setCompatibility
  cases hservice : s.services[i]? with
  | none => exact h
  | some service =>
    have mem := mem_of_getElem? hservice
    have hsame : Backed J { s with services := s.services.set i service } := h.setService fun _ _ hx => h.listed mem hx
    have hset : Backed J { s with services := s.services.set i (service.applyConfigLocked q mode) } := by
      refine h.setService fun _ _ hx => ?_
      rw [Service.versions_applyConfigLocked] at hx
      exact h.listed mem hx
    have hundeleted : (∀ text, mode ≠ .other text) → Undeleted J (Schemas.append s.topic (configRecord J q mode)) :=
      fun known => h.undeleted.append (.config q known) fun _ => .inr ⟨_, _, rfl⟩
    cases mode with
    | other text => exact hsame
    | none | backward | forward | full =>
      match sent with
      | .ok => exact hset.append (hundeleted nofun)
      | .failed true => exact hsame.append (hundeleted nofun)
      | .failed false => exact hsame

theorem step (a : Action) : Backed J (s.step J a) := by
  cases a with
  | start n => exact h.start n
  | register i subject text =>
    refine ⟨h.undeleted, h.listed, fun {c id} hc hid => ?_⟩
    rcases mem_append.mp hc with hc | hc
    · exact h.called hc hid
    · rw [mem_singleton.mp hc] at hid
      cases hid
  | setCompatibility i subject mode sent => exact h.setCompatibility i subject mode sent
  | run i sent => exact h.run i sent

end

end Backed

theorem backed (J : Json) (actions : List Action) : Backed J (actions.foldl (State.step J) .new) := by
  induction actions using reverseRecOn with
  | nil => exact .new
  | append_singleton actions a ih =>
    rw [foldl_append]
    exact ih.step a

/-- An ID that was answered stands for what was registered and nothing else; versions count up from 1. -/
structure Stable (s : State) (t : Service) : Prop where
  resolves {c : Call} {id : Int} : c ∈ s.calls → c.stage = .done (some id) → ∃ sc, t.getByID id = .ok sc ∧
    sc.subject = c.subject ∧ sc.schema = c.text
  injective {c d : Call} {id : Int} : c ∈ s.calls → d ∈ s.calls → c.stage = .done (some id) → d.stage = .done (some id) →
    c.subject = d.subject ∧ c.text = d.text
  numbered (q : Bytes) : (t.versions q).map Schema.version = (List.range (t.versions q).length).map fun i : Nat => (i : Int) + 1
  distinct (q : Bytes) : (t.versions q).IsChain fun a b => a.schema ≠ b.schema

theorem Backed.resolves {s : State} (h : Backed J s) {t : Service} (rebuilt : Rebuilt J s.topic t) {id : Int} (hc : c ∈ s.calls)
    (hdone : c.stage = .done (some id)) : ∃ sc, t.getByID id = .ok sc ∧ sc.subject = c.subject ∧
      sc.schema = toValidUTF8 c.text := by
  obtain ⟨n, r, rfl, hr, hdecode⟩ := h.called hc (congrArg Stage.id hdone)
  obtain ⟨sc, hsc, hsubject, hschema⟩ := rebuilt.resolves hr hdecode
  refine ⟨sc, ?_, hsubject, hschema⟩
  unfold Service.getByID
  rw [hsc]

/-- IDs are stable across instances exactly if the texts that were registered are valid UTF-8. -/
theorem ids_stable_iff (J : Json) (actions : List Action) :
    ∃ t, Service.new.replay J (actions.foldl (State.step J) .new).topic = .ok t ∧
      (Stable (actions.foldl (State.step J) .new) t ↔
        ∀ c ∈ (actions.foldl (State.step J) .new).calls, ∀ id, c.stage = .done (some id) → ValidUTF8 c.text) := by
  have h := backed J actions
  obtain ⟨t, ht, rebuilt⟩ := rebuilt h.undeleted
  refine ⟨t, ht, fun stable c hc id hdone => ?_,
    fun valid => ⟨fun {c id} hc hdone => ?_, fun {c d id} hc hd hcid hdid => ?_, rebuilt.numbered, rebuilt.distinct⟩⟩
  · obtain ⟨sc, hsc, -, hschema⟩ := h.resolves rebuilt hc hdone
    obtain ⟨sc', hsc', -, hschema'⟩ := stable.resolves hc hdone
    obtain rfl : sc = sc' := Except.ok.inj (hsc.symm.trans hsc')
    exact toValidUTF8_eq_self_iff.mp (hschema.symm.trans hschema')
  · obtain ⟨sc, hsc, hsubject, hschema⟩ := h.resolves rebuilt hc hdone
    exact ⟨sc, hsc, hsubject, hschema.trans (toValidUTF8_eq_self_iff.mpr (valid c hc id hdone))⟩
  · obtain ⟨hsubject, htext⟩ := (h.called hc (congrArg Stage.id hcid)).unique (h.called hd (congrArg Stage.id hdid))
    rw [toValidUTF8_eq_self_iff.mpr (valid c hc id hcid), toValidUTF8_eq_self_iff.mpr (valid d hd id hdid)] at htext
    exact ⟨hsubject, htext⟩

def garbled : List Action :=
  [.start 0, .register 0 [115] [255], .run 0 .ok, .run 0 .ok, .run 0 .ok, .run 0 .ok, .start 1,
    .register 1 [115] replacementChar, .run 1 .ok]

/-- Both calls have the ID 0, and it stands for the second text. -/
theorem garbled_shares_id : ((garbled.foldl (State.step .plain) .new).calls.map fun c => (c.text, c.stage)) =
      [([255], .done (some 0)), (replacementChar, .done (some 0))] ∧
    ((Service.new.replay .plain (garbled.foldl (State.step .plain) .new).topic).toOption.bind fun t =>
      (t.getByID 0).toOption.map Schema.schema) = some replacementChar := by
  decide +kernel

end Holocron.Schemas.Instances

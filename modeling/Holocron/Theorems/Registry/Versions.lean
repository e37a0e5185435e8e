import Holocron.Theorems.Registry.Restart

/-! The versions of a subject: the two indexes agree as long as no registration meets a gap and no deletion a version
    with several IDs. -/

namespace Holocron.Schemas
open Lib Groups List Function

namespace Service

variable (s : Service)

@[simp] theorem noteID_byID (id : Int) : (s.noteID id).byID = s.byID := by
  unfold noteID
  split <;> rfl

@[simp] theorem noteID_versions (id : Int) (subject : Bytes) : (s.noteID id).versions subject = s.versions subject := by
  unfold noteID
  split <;> rfl

theorem versions_set (subject q : Bytes) (vs : List Schema) (m : Int → Option Schema) :
    versions { s with byID := m, bySubject := s.bySubject.set subject vs } q = if q = subject then vs else s.versions q := by
  unfold versions
  rw [Assoc.get_set]
  split <;> rfl

theorem versions_delete (subject q : Bytes) (m : Int → Option Schema) :
    versions { s with byID := m, bySubject := s.bySubject.delete subject } q = if q = subject then [] else s.versions q := by
  unfold versions
  rw [Assoc.get_delete]
  split <;> rfl

theorem versions_applied_register (subject text q : Bytes) (id : Int) : (s.applied (.register subject text id)).versions q =
    if q = subject then appendByVersion (s.versions subject) ⟨id, subject, (s.versions subject).length + 1, text⟩
      else s.versions q := by
  rw [applied, applyLocked, noteID_versions, versions_set]

theorem versions_addVersion (subject text q : Bytes) (id : Int) : (s.addVersion subject text id).versions q =
    if q = subject then s.versions subject ++ [⟨id, subject, (s.versions subject).length + 1, text⟩] else s.versions q := by
  rw [addVersion, noteID_versions, versions_set]

theorem versions_applyTombstoneLocked (subject q : Bytes) : (s.applyTombstoneLocked subject).versions q = if q = subject
    then [] else s.versions q :=
  s.versions_delete subject q _

theorem versions_applyDeleteVersionLocked (subject q : Bytes) (version : Int) :
    (s.applyDeleteVersionLocked subject version).versions q =
    if q = subject then (s.versions subject).eraseP (fun sc => decide (sc.version = version)) else s.versions q := by
  unfold applyDeleteVersionLocked
  split
  · rename_i hfind
    split
    · rename_i hq
      rw [hq, eraseP_of_forall_not]
      exact fun x hx => find?_eq_none.mp hfind x hx
    · rfl
  · dsimp only
    split
    · rename_i hnil
      rw [versions_delete, hnil]
    · rw [versions_set]

@[simp] theorem versions_applyConfigLocked (subject q : Bytes) (mode : Compatibility) :
    (s.applyConfigLocked subject mode).versions q = s.versions q := by
  unfold applyConfigLocked
  split <;> rfl

@[simp] theorem byID_applyConfigLocked (subject : Bytes) (mode : Compatibility) :
    (s.applyConfigLocked subject mode).byID = s.byID := by
  unfold applyConfigLocked
  split <;> rfl

theorem foldl_forget (scs : List Schema) (m : Int → Option Schema) (id : Int) :
    scs.foldl (fun m (sc : Schema) => update m sc.id none) m id = if ∃ sc ∈ scs, sc.id = id then none else m id := by
  induction scs generalizing m with
  | nil => simp
  | cons sc scs ih =>
    rw [foldl_cons, ih]
    by_cases hid : sc.id = id
    · subst hid
      rw [update_self, ite_self, if_pos ⟨sc, mem_cons_self, rfl⟩]
    · rw [update_of_ne (fun h => hid h.symm)]
      simp [hid]

theorem byID_applyTombstoneLocked (subject : Bytes) (id : Int) :
    (s.applyTombstoneLocked subject).byID id = if ∃ sc ∈ s.versions subject, sc.id = id then none else s.byID id :=
      foldl_forget _ _ _

theorem byID_applyDeleteVersionLocked (subject : Bytes) (version id : Int) :
    (s.applyDeleteVersionLocked subject version).byID id = s.byID id ∨
      (s.applyDeleteVersionLocked subject version).byID id = none ∧ ∃ sc ∈ s.versions subject, sc.version = version ∧
        sc.id = id := by
  unfold applyDeleteVersionLocked
  split
  · exact .inl rfl
  · rename_i sc hfind
    have hversion : sc.version = version := by simpa using find?_some hfind
    by_cases hid : id = sc.id
    · refine .inr ⟨?_, sc, mem_of_find?_eq_some hfind, hversion, hid.symm⟩
      rw [hid]
      exact update_self ..
    · exact .inl (update_of_ne hid ..)

theorem byID_addVersion (subject text : Bytes) (id : Int) :
    (s.addVersion subject text id).byID = update s.byID id (some ⟨id, subject, (s.versions subject).length + 1, text⟩) := by
  rw [addVersion, noteID_byID]

/-- What an ID resolves to is among the versions of its subject, and these ascend. -/
structure Consistent : Prop where
  bound {id : Int} {sc : Schema} : s.byID id = some sc →
    ∃ x ∈ s.versions sc.subject, x.subject = sc.subject ∧ x.version = sc.version ∧ x.schema = sc.schema
  increasing (subject : Bytes) : (s.versions subject).Pairwise fun a b => a.version < b.version
  own {subject : Bytes} : ∀ x ∈ s.versions subject, x.subject = subject

/-- A registration meets a subject without gaps; a deletion meets no ID but those that the versions are listed with. -/
def Safe : Change → Prop
  | .register subject _ _ => s.Gapless subject
  | .deleteSubject subject => ∀ id sc, s.byID id = some sc → sc.subject = subject → ∃ x ∈ s.versions subject, x.id = id
  | .deleteVersion subject version =>
    ∀ id sc, s.byID id = some sc → sc.subject = subject → sc.version = version → ∃ x ∈ s.versions subject,
      x.version = version ∧ x.id = id
  | .config _ _ => True

variable {s}

theorem consistent_new : new.Consistent := ⟨nofun, fun _ => .nil, fun _ h => absurd h not_mem_nil⟩

variable {subject : Bytes}

section
variable (h : s.Consistent) {c : Change}
include h

theorem Consistent.addVersion (gapless : s.Gapless subject) (text : Bytes) (id : Int) :
    (s.addVersion subject text id).Consistent := by
  have hmem : ∀ q, ∀ x ∈ s.versions q, x ∈ (s.addVersion subject text id).versions q := by
    intro q x hx
    rw [versions_addVersion]
    split
    · rename_i hq
      exact mem_append_left _ (hq ▸ hx)
    · exact hx
  refine ⟨fun {id'} {sc} hsc => ?_, fun q => ?_, fun {q} x hx => ?_⟩
  · rw [byID_addVersion] at hsc
    by_cases hid : id' = id
    · rw [hid, update_self] at hsc
      cases hsc
      refine ⟨⟨id, subject, _, text⟩, ?_, rfl, rfl, rfl⟩
      rw [versions_addVersion, if_pos rfl]
      exact mem_append_right _ mem_cons_self
    · rw [update_of_ne hid] at hsc
      obtain ⟨x, hx, heq⟩ := h.bound hsc
      exact ⟨x, hmem _ x hx, heq⟩
  · rw [versions_addVersion]
    split
    · refine pairwise_append.mpr ⟨h.increasing subject, pairwise_singleton _ _, fun a ha b hb => ?_⟩
      rw [mem_singleton.mp hb]
      exact Int.lt_add_one_of_le (gapless a ha)
    · exact h.increasing q
  · rw [versions_addVersion] at hx
    split at hx
    · rename_i hq
      rcases mem_append.mp hx with hx | hx
      · exact (h.own x hx).trans hq.symm
      · rw [mem_singleton.mp hx, hq]
    · exact h.own x hx

theorem Consistent.applyRegistration (gapless : s.Gapless subject) (text : Bytes) (id : Int) :
    (s.applyRegistration subject text id).Consistent := by
  unfold Service.applyRegistration
  split
  · rename_i latest hlast
    split
    · -- one more ID for the latest version
      have hlatest := mem_of_getLast? hlast
      refine ⟨fun {id'} {sc} hsc => ?_, fun q => ?_, fun {q} x hx => ?_⟩
      · rw [noteID_byID] at hsc
        rw [noteID_versions]
        dsimp only at hsc
        by_cases hid : id' = id
        · rw [hid, update_self] at hsc
          cases hsc
          have hown := h.own latest hlatest
          exact ⟨latest, hown.symm ▸ hlatest, rfl, rfl, rfl⟩
        · rw [update_of_ne hid] at hsc
          exact h.bound hsc
      · rw [noteID_versions]
        exact h.increasing q
      · rw [noteID_versions] at hx
        exact h.own x hx
    · exact h.addVersion gapless text id
  · exact h.addVersion gapless text id

theorem Consistent.applyTombstoneLocked (safe : s.Safe (.deleteSubject subject)) :
    (s.applyTombstoneLocked subject).Consistent := by
  refine ⟨fun {id} {sc} hsc => ?_, fun q => ?_, fun {q} x hx => ?_⟩
  · rw [byID_applyTombstoneLocked] at hsc
    split at hsc
    · cases hsc
    · rename_i hlisted
      have hne : sc.subject ≠ subject := fun heq => hlisted (safe id sc hsc heq)
      rw [versions_applyTombstoneLocked, if_neg hne]
      exact h.bound hsc
  · rw [versions_applyTombstoneLocked]
    split
    · exact .nil
    · exact h.increasing q
  · rw [versions_applyTombstoneLocked] at hx
    split at hx
    · cases hx
    · exact h.own x hx

theorem Consistent.eq_of_version {x y : Schema} (hx : x ∈ s.versions subject) (hy : y ∈ s.versions subject)
    (heq : x.version = y.version) : x = y := by
  have hnodup : ((s.versions subject).map Schema.version).Nodup :=
    pairwise_map.mpr ((h.increasing subject).imp fun hlt => Int.ne_of_lt hlt)
  exact inj_on_of_nodup_map hnodup hx hy heq

theorem Consistent.forgets {y : Schema} (hy : y ∈ s.versions subject) :
    (s.applyDeleteVersionLocked subject y.version).byID y.id = none := by
  unfold applyDeleteVersionLocked
  split
  · rename_i hfind
    exact absurd rfl (of_decide_eq_false (Bool.not_eq_true _ ▸ find?_eq_none.mp hfind y hy))
  · rename_i sc hfind
    have hversion : sc.version = y.version := by simpa using find?_some hfind
    rw [h.eq_of_version (mem_of_find?_eq_some hfind) hy hversion]
    exact update_self ..

theorem Consistent.applyDeleteVersionLocked {version : Int} (safe : s.Safe (.deleteVersion subject version)) :
    (s.applyDeleteVersionLocked subject version).Consistent := by
  refine ⟨fun {id} {sc} hsc => ?_, fun q => ?_, fun {q} x hx => ?_⟩
  · have hold : s.byID id = some sc := by
      rcases s.byID_applyDeleteVersionLocked subject version id with heq | ⟨hnone, -⟩
      · rwa [heq] at hsc
      · rw [hnone] at hsc
        cases hsc
    obtain ⟨x, hx, heq⟩ := h.bound hold
    refine ⟨x, ?_, heq⟩
    rw [versions_applyDeleteVersionLocked]
    split
    · rename_i hq
      rw [hq] at hx
      refine (mem_eraseP_of_neg fun hversion => ?_).mpr hx
      -- the ID of a deleted version is the one it is listed with, and that is forgotten
      have hdeleted : sc.version = version := heq.2.1.symm.trans (of_decide_eq_true hversion)
      obtain ⟨y, hy, hyversion, hyid⟩ := safe id sc hold hq hdeleted
      rw [← hyid, ← hyversion, h.forgets hy] at hsc
      cases hsc
    · exact hx
  · rw [versions_applyDeleteVersionLocked]
    split
    · exact (h.increasing subject).sublist (eraseP_sublist)
    · exact h.increasing q
  · rw [versions_applyDeleteVersionLocked] at hx
    split at hx
    · rename_i hq
      exact (h.own x (mem_of_mem_eraseP hx)).trans hq.symm
    · exact h.own x hx

theorem Consistent.applyConfigLocked (subject : Bytes) (mode : Compatibility) :
    (s.applyConfigLocked subject mode).Consistent := by
  refine ⟨fun {id} {sc} hsc => ?_, fun q => ?_, fun {q} x hx => ?_⟩
  · rw [byID_applyConfigLocked] at hsc
    rw [versions_applyConfigLocked]
    exact h.bound hsc
  · rw [versions_applyConfigLocked]
    exact h.increasing q
  · rw [versions_applyConfigLocked] at hx
    exact h.own x hx

theorem Consistent.replayed (safe : s.Safe c) : (s.replayed c).Consistent := by
  cases c with
  | register subject text id => exact h.applyRegistration safe text id
  | deleteSubject subject => exact h.applyTombstoneLocked safe
  | deleteVersion subject version => exact h.applyDeleteVersionLocked safe
  | config subject mode => exact h.applyConfigLocked subject mode

theorem Consistent.applied (safe : s.Safe c) : (s.applied c).Consistent := by
  cases c with
  | register subject text id =>
    rw [Gapless.applied safe]
    exact h.addVersion safe text id
  | deleteSubject | deleteVersion | config => exact h.replayed safe

end

end Service

namespace World

/-- A registration is for a subject without gaps, and a deletion is safe. -/
def SafeOp (w : World) (op : Op × Sent) : Prop :=
  match op.1 with
  | .register subject _ => w.service.Gapless subject
  | .deleteSubject subject => w.service.Safe (.deleteSubject subject)
  | .deleteVersion subject version => w.service.Safe (.deleteVersion subject version)
  | .deleteByID id => ∀ sc, w.service.byID id = some sc → w.service.Safe (.deleteVersion sc.subject sc.version)
  | .setCompatibility _ _ => True

variable {J : Json} {w : World} {op : Op × Sent}

theorem SafeOp.safe (h : w.SafeOp op) {change : Int → Change} (asks : Asks J w op.1 change) (id : Int) :
    w.service.Safe (change id) := by
  obtain ⟨op, sent⟩ := op
  cases asks with
  | register => exact h
  | deleteSubject => exact h
  | deleteVersion => exact h
  | deleteByID bound => exact h _ bound
  | config => trivial

theorem consistent_step (h : w.service.Consistent) (safe : w.SafeOp op) : (w.step J op).service.Consistent := by
  rcases step_cases J w op with hsame | ⟨change, asks, -, ⟨hservice, -⟩ | ⟨hservice, -⟩⟩
  · rwa [hsame]
  · rwa [hservice]
  · rw [hservice]
    exact h.applied (safe.safe asks _)

theorem consistent_replay (J : Json) {topic : List Record} {s s' : Service} (h : s.Consistent)
    (replayed : s.replay J topic = .ok s')
    (safe : Allowed (Service.applyRecord J) (fun s r => ∀ c, decode J r = .ok c → s.Safe c) s topic) : s'.Consistent := by
  induction topic generalizing s with
  | nil =>
    cases replayed
    exact h
  | cons r topic ih =>
    obtain ⟨hr, hrest⟩ := safe
    rw [Service.replay, runAll] at replayed
    cases hstep : s.applyRecord J r with
    | error e =>
      rw [hstep] at replayed
      cases replayed
    | ok s₁ =>
      rw [hstep] at replayed
      refine ih ?_ replayed (hrest s₁ hstep)
      rw [Service.applyRecord_eq] at hstep
      cases hdecode : decode J r with
      | error e =>
        rw [hdecode] at hstep
        cases hstep
      | ok c =>
        rw [hdecode] at hstep
        cases hstep
        exact h.replayed (hr c hdecode)

/-- The indexes agree in every state that replay and operations lead to. -/
theorem indexes_consistent (J : Json) {topic : List Record} {s : Service} (started : Service.new.replay J topic = .ok s)
    (replaySafe : Allowed (Service.applyRecord J) (fun s r => ∀ c, decode J r = .ok c → s.Safe c) Service.new topic)
      (ops : List (Op × Sent))
    (safe : Along (step J) ⟨s, topic⟩ ops SafeOp) : (ops.foldl (step J) ⟨s, topic⟩).service.Consistent :=
  safe.invariant (fun _ w => w.service.Consistent) (fun _ _ _ h hop => consistent_step h hop)
    (consistent_replay J Service.consistent_new started replaySafe)

def registerAndDelete : List (Op × Sent) :=
  [(.register [115] [97], .ok), (.register [116] [97], .ok), (.register [115] [98], .ok), (.deleteVersion [115] 1, .ok)]

/-- Of two versions one stays, and the other subject does. -/
theorem indexes_consistent_deleted : (registerAndDelete.foldl (step .plain) ⟨.new, []⟩).service.Consistent ∧
    (registerAndDelete.foldl (step .plain) ⟨.new, []⟩).service.byID 2 = some ⟨2, [115], 2, [98]⟩ := by
  have started : Service.new.replay .plain [] = .ok .new := rfl
  have hbyID : ((registerAndDelete.take 3).foldl (step .plain) ⟨.new, []⟩).service.byID =
      update (update (update (fun _ => none) 0 (some ⟨0, [115], 1, [97]⟩)) 1 (some ⟨1, [116], 1, [97]⟩)) 2
        (some ⟨2, [115], 2, [98]⟩) := rfl
  refine ⟨indexes_consistent .plain started trivial registerAndDelete
    (.cons nofun (.cons nofun (.cons ?_ (.cons ?_ .nil)))), rfl⟩
  · show Service.Gapless ((registerAndDelete.take 2).foldl (step .plain) ⟨.new, []⟩).service [115]
    decide +kernel
  · intro id sc hsc hsubject hversion
    replace hsc := (congrFun hbyID id).symm.trans hsc
    rw [update_apply, update_apply, update_apply] at hsc
    split at hsc
    · cases hsc
      cases hversion
    split at hsc
    · cases hsc
      cases hsubject
    split at hsc
    · rename_i hid
      exact ⟨⟨0, [115], 1, [97]⟩, by decide +kernel, rfl, hid.symm⟩
    · cases hsc

def registeredTwice : List Record :=
  (step .plain ⟨.new, (step .plain ⟨.new, []⟩ (.register [115] [97], .ok)).topic⟩ (.register [115] [97], .ok)).topic

/-- A third one replays both, which binds two IDs to version 1. Once that is deleted, one of them still leads to it. -/
theorem deleted_version_keeps_id :
    (Service.new.replay .plain registeredTwice).map (fun s =>
      let w := step .plain ⟨s, registeredTwice⟩ (.deleteVersion [115] 1, .ok)
      (w.service.getByID 1, w.service.listVersions [115])) =
        .ok (.ok ⟨0, [115], 1, [97]⟩, .error (.subjectNotFound [115])) := by
  decide +kernel

end World
end Holocron.Schemas

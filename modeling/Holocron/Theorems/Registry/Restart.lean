import Holocron.Theorems.Registry.Service

/-! Replay rebuilds the tables of a Service whose registrations all meet a subject without gaps, and texts that JSON
    keeps. -/

namespace Holocron.Schemas
open Lib Groups

namespace Service

/-- No version number of the subject is above the count of its versions. -/
def Gapless (s : Service) (subject : Bytes) : Prop := ∀ sc ∈ s.versions subject, sc.version ≤ (s.versions subject).length

instance (s : Service) (subject : Bytes) : Decidable (s.Gapless subject) := inferInstanceAs (Decidable (∀ _ ∈ _, _))

end Service

theorem appendByVersion_of_lt {vs : List Schema} {sc : Schema} (h : ∀ v ∈ vs, v.version < sc.version) :
    appendByVersion vs sc = vs ++ [sc] := by
  induction vs with
  | nil => rfl
  | cons v vs ih =>
    have hv := h v List.mem_cons_self
    rw [appendByVersion, if_neg (by omega), if_neg (by omega), ih fun x hx => h x (List.mem_cons_of_mem _ hx)]
    rfl

namespace Service

theorem Gapless.applied {s : Service} {subject : Bytes} (h : s.Gapless subject) (text : Bytes) (id : Int) :
    s.applied (.register subject text id) = s.addVersion subject text id := by
  have happend : appendByVersion (s.versions subject) ⟨id, subject, (s.versions subject).length + 1, text⟩ =
      s.versions subject ++ [⟨id, subject, (s.versions subject).length + 1, text⟩] :=
    appendByVersion_of_lt fun v hv => Int.lt_add_one_of_le (h v hv)
  simp only [Service.applied, applyLocked, addVersion, happend]

theorem applyRegistration_new {s : Service} {subject text : Bytes}
    (new : ∀ latest ∈ (s.versions subject).getLast?, latest.schema ≠ text) (id : Int) :
    s.applyRegistration subject text id = s.addVersion subject text id := by
  unfold applyRegistration
  split
  · rename_i latest hlast
    rw [if_neg (new latest hlast)]
  · rfl

/-- Every query is answered alike. -/
structure SameAnswers (s s' : Service) : Prop where
  getByID (id : Int) : s.getByID id = s'.getByID id
  getVersion (subject : Bytes) (version : Int) : s.getVersion subject version = s'.getVersion subject version
  getLatest (subject : Bytes) : s.getLatest subject = s'.getLatest subject
  listSubjects : s.listSubjects = s'.listSubjects
  listVersions (subject : Bytes) : s.listVersions subject = s'.listVersions subject
  getCompatibility (subject : Bytes) : s.getCompatibility subject = s'.getCompatibility subject

theorem SameAnswers.refl (s : Service) : s.SameAnswers s :=
  ⟨fun _ => rfl, fun _ _ => rfl, fun _ => rfl, rfl, fun _ => rfl, fun _ => rfl⟩

end Service

namespace World

/-- A registration is of valid text, for a subject without gaps. -/
def Regular (w : World) (op : Op × Sent) : Prop :=
  match op.1 with
  | .register subject text => w.service.Gapless subject ∧ ValidUTF8 text
  | _ => True

instance (w : World) (op : Op × Sent) : Decidable (w.Regular op) := by
  unfold Regular
  split <;> infer_instance

variable {J : Json} {w : World}

section
variable {op : Op} {sent : Sent} {change : Int → Change} (asks : Asks J w op change) (regular : w.Regular (op, sent))
include asks regular

/-- The record of a regular operation asks for the change that the operation makes. -/
theorem Asks.decode (k offset : Int) :
    decode J { w.recordOf J (change k) with offset := offset } = .ok (change offset) := by
  cases asks with
  | @register subject text =>
    have hvalid : toValidUTF8 text = text := toValidUTF8_eq_self_iff.mpr regular.2
    have hdecode := (Writes.register (J := J) subject text ((w.service.versions subject).length + 1)).decode offset
    rw [hvalid] at hdecode
    exact hdecode
  | deleteSubject => exact (Writes.deleteSubject _).decode offset
  | deleteVersion | deleteByID => exact (Writes.deleteVersion _ _).decode offset
  | config known => exact (Writes.config _ known).decode offset

/-- The change is the same replayed. -/
theorem Asks.applied_eq (id : Int) :
    w.service.applied (change id) = w.service.replayed (change id) := by
  cases asks with
  | @register subject text new =>
    rw [regular.1.applied]
    exact (Service.applyRegistration_new new id).symm
  | deleteSubject | deleteVersion | deleteByID | config => rfl

end

def Replayed (J : Json) (w : World) : Prop := Service.new.replay J w.topic = .ok w.service

theorem Replayed.step (h : w.Replayed J) {op : Op × Sent} (sent : op.2 = .ok) (regular : w.Regular op) :
    (w.step J op).Replayed J := by
  rcases step_cases J w op with hsame | ⟨change, asks, htopic, ⟨-, hnot⟩ | ⟨hservice, -⟩⟩
  · rwa [hsame]
  · exact absurd sent hnot
  · unfold Replayed
    rw [htopic, hservice, append, Service.replay, runAll_concat]
    rw [Replayed, Service.replay] at h
    rw [h]
    refine (Service.applyRecord_eq J w.service _).trans ?_
    rw [asks.decode regular]
    exact congrArg Except.ok (asks.applied_eq regular _).symm

/-- A Service that replays the topic answers as the one that wrote it. -/
theorem restart_same_answers (J : Json) {topic : List Record} {s : Service} (started : Service.new.replay J topic = .ok s)
    (ops : List (Op × Sent)) (noErrors : ∀ op ∈ ops, op.2 = .ok) (regular : Along (step J) ⟨s, topic⟩ ops Regular) :
    ∃ s', Service.new.replay J (ops.foldl (step J) ⟨s, topic⟩).topic = .ok s' ∧
      s'.SameAnswers (ops.foldl (step J) ⟨s, topic⟩).service := by
  have hboth : Along (step J) ⟨s, topic⟩ ops fun w op => w.Regular op ∧ op.2 = .ok :=
    regular.and fun done op rest hops => noErrors op (by rw [hops]; simp)
  have hreplayed : (ops.foldl (step J) ⟨s, topic⟩).Replayed J :=
    hboth.invariant (fun _ w => w.Replayed J) (fun _ w op h hop => h.step hop.2 hop.1) started
  exact ⟨_, hreplayed, .refl _⟩

def secondAgain : List (Op × Sent) :=
  [(.register [115] [97], .ok), (.register [115] [98], .ok), (.deleteVersion [115] 2, .ok), (.register [115] [99], .ok)]

theorem restart_same_answers_second :
    ∃ s', Service.new.replay .plain (secondAgain.foldl (step .plain) ⟨.new, []⟩).topic = .ok s' ∧
    s'.SameAnswers (secondAgain.foldl (step .plain) ⟨.new, []⟩).service := by
  refine restart_same_answers .plain rfl secondAgain (by decide) ?_
  exact .cons (by decide) (.cons (by decide) (.cons (by decide) (.cons (by decide) .nil)))

def registerAfterGap : List (Op × Sent) :=
  [(.register [115] [97], .ok), (.register [115] [98], .ok), (.register [115] [99], .ok), (.deleteVersion [115] 2, .ok),
    (.register [115] [100], .ok)]

/-- The live Service overwrites version 3; a new one has two versions of that number. -/
theorem restart_after_gap_differs :
    (registerAfterGap.foldl (step .plain) ⟨.new, []⟩).service.listVersions [115] = .ok [1, 3] ∧
      (Service.new.replay .plain (registerAfterGap.foldl (step .plain) ⟨.new, []⟩).topic).map
        (fun s => s.listVersions [115]) = .ok (.ok [1, 3, 3]) := by
  decide +kernel

end World
end Holocron.Schemas

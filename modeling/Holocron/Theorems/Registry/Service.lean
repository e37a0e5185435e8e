import Holocron.Registry.Service
import Holocron.Theorems.Groups.OffsetStore

/-! What an operation of the registry writes, and what replay makes of it: one of four changes of the tables. -/

namespace Holocron.Schemas
open Lib Groups List

theorem foldl_digits (ds : Bytes) :
    ds.foldl (fun n d => n * 10 + (d.toNat - 48)) 0 = Nat.ofDigits 10 (ds.reverse.map fun b => b.toNat - 48) := by
  induction ds using reverseRecOn with
  | nil => rfl
  | append_singleton ds d ih =>
    rw [foldl_append, foldl_cons, ih, reverse_append, reverse_singleton, singleton_append,
      map_cons]
    exact (Nat.add_comm _ _).trans (congrArg _ (Nat.mul_comm _ _))

theorem atoi_decimal (x : Int) : atoi (decimal x) = some x := by
  obtain ⟨ds, heq, hne, hds, hvalue⟩ := decimal_eq x
  have hdigits : atoi.digits ds = some x.natAbs := by
    have hrange : ∀ d ∈ ds, 48 ≤ d ∧ d ≤ 57 := fun d hd =>
      ⟨UInt8.le_iff_toNat_le.mpr (hds d hd).1, UInt8.le_iff_toNat_le.mpr (hds d hd).2⟩
    rw [atoi.digits, if_pos ⟨hne, hrange⟩, foldl_digits, hvalue]
  rw [heq]
  by_cases hx : x < 0
  · rw [if_pos hx, singleton_append, atoi, hdigits]
    have habs : -x.natAbs = x := by omega
    exact congrArg some habs
  · rw [if_neg hx, nil_append]
    have habs : x.natAbs = x := by omega
    obtain ⟨d, rest, rfl⟩ := exists_cons_of_ne_nil hne
    have hd := (hds d mem_cons_self).1
    unfold atoi
    split
    iterate 2
      · rename_i hcons
        obtain ⟨rfl, -⟩ := cons.inj hcons
        exact absurd hd (by decide)
    · rw [hdigits]
      exact congrArg some habs

inductive Change where
  | register (subject text : Bytes) (id : Int)
  | deleteSubject (subject : Bytes)
  | deleteVersion (subject : Bytes) (version : Int)
  | config (subject : Bytes) (mode : Compatibility)

def decode (J : Json) (r : Record) : Except RegistryError Change :=
  match headerValue r.headers headerRegistryOp with
  | some op =>
    if op = registryOpDeleteVersion then
      match headerInt r.headers headerRegistryVersion with
      | none => .error .missingVersionHeader
      | some v => .ok (.deleteVersion (Slice.bytes r.key) v)
    else if op = registryOpConfig then
      match J.unmarshalConfig (Slice.bytes r.value) with
      | none => .error .configDecode
      | some mode => .ok (.config (Slice.bytes r.key) mode)
    else plain
  | none => plain
where
  plain : Except RegistryError Change :=
    if Slice.bytes r.value = [] then .ok (.deleteSubject (Slice.bytes r.key))
    else
      match J.unmarshalSchema (Slice.bytes r.value) with
      | none => .error .replayDecode
      | some text => .ok (.register (Slice.bytes r.key) text r.offset)

namespace Service

def replayed (s : Service) : Change → Service
  | .register subject text id => s.applyRegistration subject text id
  | .deleteSubject subject => s.applyTombstoneLocked subject
  | .deleteVersion subject version => s.applyDeleteVersionLocked subject version
  | .config subject mode => s.applyConfigLocked subject mode

def applied (s : Service) : Change → Service
  | .register subject text id => s.applyLocked ⟨id, subject, (s.versions subject).length + 1, text⟩
  | c => s.replayed c

theorem applyRecord_eq (J : Json) (s : Service) (r : Record) : s.applyRecord J r = (decode J r).map s.replayed := by
  have hplain : s.applyPlain J r = (decode.plain J r).map s.replayed := by
    unfold applyPlain decode.plain
    by_cases hvalue : r.value.bytes = []
    · rw [if_pos hvalue, if_pos hvalue]
      rfl
    · rw [if_neg hvalue, if_neg hvalue]
      cases J.unmarshalSchema r.value.bytes <;> rfl
  unfold applyRecord decode
  cases headerValue r.headers headerRegistryOp with
  | none => exact hplain
  | some op =>
    dsimp only
    by_cases hdelete : op = registryOpDeleteVersion
    · rw [if_pos hdelete, if_pos hdelete]
      cases headerInt r.headers headerRegistryVersion <;> rfl
    rw [if_neg hdelete, if_neg hdelete]
    by_cases hconfig : op = registryOpConfig
    · rw [if_pos hconfig, if_pos hconfig]
      cases J.unmarshalConfig r.value.bytes <;> rfl
    rw [if_neg hconfig, if_neg hconfig]
    exact hplain

end Service

inductive Writes (J : Json) : Record → (Int → Change) → Prop where
  | register (subject text : Bytes) (version : Int) :
      Writes J (registration J subject text version) fun id => .register subject (toValidUTF8 text) id
  | deleteSubject (subject : Bytes) : Writes J (subjectTombstone subject) fun _ => .deleteSubject subject
  | deleteVersion (subject : Bytes) (version : Int) :
      Writes J (deleteVersionRecord subject version) fun _ => .deleteVersion subject version
  | config (subject : Bytes) {mode : Compatibility} (known : ∀ text, mode ≠ .other text) :
      Writes J (configRecord J subject mode) fun _ => .config subject mode

theorem Writes.decode {J : Json} {r : Record} {change : Int → Change} (h : Writes J r change) (offset : Int) :
    decode J { r with offset := offset } = .ok (change offset) := by
  cases h with
  | register subject text version =>
    simp only [Schemas.decode, registration, headerValue, List.find?_nil, Option.map_none, decode.plain, Slice.bytes,
      Option.getD_some, if_neg (J.schema_ne_nil _), J.unmarshal_schema]
  | deleteSubject subject => rfl
  | deleteVersion subject version =>
    have hop : headerValue (deleteVersionRecord subject version).headers headerRegistryOp = some registryOpDeleteVersion := by
      simp [headerValue, deleteVersionRecord, Slice.bytes]
    have hne : headerRegistryOp ≠ headerRegistryVersion := by decide +kernel
    have hversion : headerInt (deleteVersionRecord subject version).headers headerRegistryVersion = some version := by
      simp [headerInt, headerValue, deleteVersionRecord, Slice.bytes, hne, atoi_decimal]
    simp only [Schemas.decode, hop, hversion, if_true]
    rfl
  | config subject known =>
    rename_i mode
    have hop : headerValue (configRecord J subject mode).headers headerRegistryOp = some registryOpConfig := by
      simp [headerValue, configRecord, Slice.bytes]
    have hne : registryOpConfig ≠ registryOpDeleteVersion := by decide +kernel
    simp only [Schemas.decode, hop, if_neg hne, if_true]
    simp [configRecord, Slice.bytes, J.unmarshal_config known]

def Json.plain : Json where
  marshalSchema sc := 123 :: toValidUTF8 sc.schema
  unmarshalSchema b := some b.tail
  marshalConfig
    | .none => [0]
    | .backward => [1]
    | .forward => [2]
    | .full => [3]
    | .other mode => 4 :: mode
  unmarshalConfig
    | [0] => some .none
    | [1] => some .backward
    | [2] => some .forward
    | [3] => some .full
    | _ => none
  decode text := JsonValue.parse (toValidUTF8 text)
  schema_ne_nil _ := cons_ne_nil _ _
  unmarshal_schema _ := rfl
  unmarshal_config {mode} known := by
    cases mode with
    | other text => exact absurd rfl (known text)
    | none | backward | forward | full => rfl
  decode_valid text := by rw [toValidUTF8_idem]

namespace World

inductive Asks (J : Json) (w : World) : Op → (Int → Change) → Prop where
  | register {subject text : Bytes} (new : ∀ latest ∈ (w.service.versions subject).getLast?, latest.schema ≠ text)
      (allowed : w.service.enforce J subject text = .ok ()) :
        Asks J w (.register subject text) fun id => .register subject text id
  | deleteSubject {subject : Bytes} (found : (w.service.bySubject.get subject).isSome) :
      Asks J w (.deleteSubject subject) fun _ => .deleteSubject subject
  | deleteVersion {subject : Bytes} {version : Int} (found : ∃ sc ∈ w.service.versions subject, sc.version = version) :
      Asks J w (.deleteVersion subject version) fun _ => .deleteVersion subject version
  | deleteByID {id : Int} {sc : Schema} (bound : w.service.byID id = some sc)
      (found : ∃ x ∈ w.service.versions sc.subject, x.version = sc.version) :
      Asks J w (.deleteByID id) fun _ => .deleteVersion sc.subject sc.version
  | config {subject : Bytes} {mode : Compatibility} (known : ∀ text, mode ≠ .other text) :
      Asks J w (.setCompatibility subject mode) fun _ => .config subject mode

def recordOf (J : Json) (w : World) : Change → Record
  | .register subject text _ => registration J subject text ((w.service.versions subject).length + 1)
  | .deleteSubject subject => subjectTombstone subject
  | .deleteVersion subject version => deleteVersionRecord subject version
  | .config subject mode => configRecord J subject mode

theorem register_cases (J : Json) (w : World) (subject text : Bytes) (sent : Sent) :
    (w.register J subject text sent).2 = w ∨
      Asks J w (.register subject text) (fun id => .register subject text id) ∧
        w.register J subject text sent =
          w.produce (registration J subject text ((w.service.versions subject).length + 1)) sent fun id =>
            w.service.applied (.register subject text id) := by
  have hnext : ∀ new : ∀ latest ∈ (w.service.versions subject).getLast?, latest.schema ≠ text,
      (w.registerNext J subject text sent).2 = w ∨
        Asks J w (.register subject text) (fun id => .register subject text id) ∧
          w.registerNext J subject text sent =
            w.produce (registration J subject text ((w.service.versions subject).length + 1)) sent fun id =>
              w.service.applied (.register subject text id) := by
    intro new
    unfold registerNext
    cases hallowed : w.service.enforce J subject text with
    | error e => exact .inl rfl
    | ok u => exact .inr ⟨.register new hallowed, rfl⟩
  unfold register
  cases hlast : (w.service.versions subject).getLast? with
  | none =>
    rw [hlast] at hnext
    exact hnext nofun
  | some latest =>
    dsimp only
    rw [hlast] at hnext
    split
    · exact .inl rfl
    · rename_i hne
      exact hnext fun x hx => Option.some.inj hx ▸ hne

theorem deleteVersion_cases (w : World) (subject : Bytes) (version : Int) (sent : Sent) :
    (w.deleteVersion subject version sent).2 = w ∨
      (∃ sc ∈ w.service.versions subject, sc.version = version) ∧
        w.deleteVersion subject version sent =
          w.produce (deleteVersionRecord subject version) sent fun _ => w.service.applied (.deleteVersion subject version) := by
  unfold deleteVersion
  cases hget : w.service.bySubject.get subject with
  | none => exact .inl rfl
  | some versions =>
    dsimp only
    split
    · rename_i hany
      obtain ⟨sc, hsc, hversion⟩ := any_eq_true.mp hany
      refine .inr ⟨⟨sc, ?_, of_decide_eq_true hversion⟩, rfl⟩
      rw [Service.versions, hget]
      exact hsc
    · exact .inl rfl

/-- An operation changes nothing, or it writes the record of a change and then applies it. -/
theorem call_cases (J : Json) (w : World) (op : Op) (sent : Sent) :
    (w.call J (op, sent)).2 = w ∨
      ∃ change, Asks J w op change ∧ w.call J (op, sent) =
        w.produce (w.recordOf J (change w.topic.length)) sent fun id => w.service.applied (change id) := by
  cases op with
  | register subject text => exact (register_cases J w subject text sent).imp_right fun ⟨asks, h⟩ => ⟨_, asks, h⟩
  | deleteSubject subject =>
    unfold call deleteSubject
    dsimp only
    cases hget : w.service.bySubject.get subject with
    | none => exact .inl rfl
    | some versions => exact .inr ⟨_, .deleteSubject (by rw [hget]; rfl), rfl⟩
  | deleteVersion subject version =>
    exact (deleteVersion_cases w subject version sent).imp_right fun ⟨found, h⟩ => ⟨_, .deleteVersion found, h⟩
  | deleteByID id =>
    unfold call deleteByID
    dsimp only
    cases hbound : w.service.byID id with
    | none => exact .inl rfl
    | some sc => exact (deleteVersion_cases w sc.subject sc.version sent).imp_right fun ⟨found, h⟩ =>
      ⟨_, .deleteByID hbound found, h⟩
  | setCompatibility subject mode =>
    cases mode with
    | other text => exact .inl rfl
    | none | backward | forward | full => exact .inr ⟨_, .config nofun, rfl⟩

theorem step_cases (J : Json) (w : World) (op : Op × Sent) :
    w.step J op = w ∨
      ∃ change, Asks J w op.1 change ∧ (w.step J op).topic = append w.topic (w.recordOf J (change w.topic.length)) ∧
        ((w.step J op).service = w.service ∧ op.2 ≠ .ok ∨
          (w.step J op).service = w.service.applied (change w.topic.length) ∧ op.2 = .ok) := by
  obtain ⟨op, sent⟩ := op
  unfold step
  rcases call_cases J w op sent with h | ⟨change, asks, h⟩
  · exact .inl h
  · rw [h]
    match sent with
    | .ok => exact .inr ⟨change, asks, rfl, .inr ⟨rfl, rfl⟩⟩
    | .failed true => exact .inr ⟨change, asks, rfl, .inl ⟨rfl, nofun⟩⟩
    | .failed false => exact .inl rfl

end World
end Holocron.Schemas

import Holocron.Server.Handlers
import Holocron.Theorems.Broker.Batch
import Holocron.Theorems.Log.Read
import Holocron.Theorems.Proto.Response
import Holocron.Theorems.Storage.Gaps
import Holocron.Theorems.Storage.Refinement

/-! Which fetch answers a client can read: records are in normal form, so what is left is the size. -/

namespace Holocron.Server
open Lib Storage Wire List

class Decoded (σ : Type) [Store σ] where
  Normal : σ → Prop
  append {s : σ} (h : Normal s) (ctx : Ctx) (now : Int64) (p : PartitionRef) {r : Record} (hr : r.norm = r) :
    Normal (Store.append s ctx now p r).2
  read {s : σ} (h : Normal s) (ctx : Ctx) (p : PartitionRef) (n m : Int) : Normal (Store.read s ctx p n m).2
  records {s : σ} (h : Normal s) {ctx : Ctx} {p : PartitionRef} {n m : Int} {rs : List Record}
    (hread : (Store.read s ctx p n m).1 = .ok rs) : ∀ r ∈ rs, r.norm = r

theorem norm_of_fields {r r' : Record} (h : r.norm = r) (hkey : r'.key = r.key) (hvalue : r'.value = r.value)
    (hheaders : r'.headers = r.headers) : r'.norm = r' := by
  have hk : r.key.norm = r.key := congrArg Record.key h
  have hv : r.value.norm = r.value := congrArg Record.value h
  have hh : r.headers.map Header.norm = r.headers := congrArg Record.headers h
  unfold Record.norm
  rw [hkey, hvalue, hheaders, hk, hv, hh, ← hkey, ← hvalue, ← hheaders]

instance : Decoded MemoryStore where
  Normal s := ∀ p, ∀ r ∈ s.get p, r.norm = r
  append {s} h ctx now p r hr := by
    rcases ctx_cases ctx with rfl | ⟨e, rfl⟩
    · intro q x hx
      have hget := MemoryStore.get_append s now p q r
      replace hx : x ∈ ((s.append .background now p r).2.get q) := hx
      rw [hget] at hx
      split at hx
      · rcases mem_append.mp hx with hx | hx
        · exact h p x hx
        · rw [mem_singleton.mp hx]
          exact norm_of_fields hr rfl rfl rfl
      · exact h q x hx
    · exact h
  read {s} h ctx p n m := by
    rw [show (Store.read s ctx p n m).2 = s from MemoryStore.read_snd s ctx p n m]
    exact h
  records {s} h {ctx p n m rs} hread := by
    rcases ctx_cases ctx with rfl | ⟨e, rfl⟩
    · simp only [Store.read, MemoryStore.read, guarded, Ctx.background] at hread
      split at hread
      · cases hread
      split at hread
      · cases hread
        exact forall_mem_nil _
      · cases hread
        exact fun r hr => h p r (mem_of_mem_drop (mem_of_mem_take hr))
    · cases hread

instance : Decoded FileStore where
  Normal _ := True
  append _ _ _ _ _ _ := trivial
  read _ _ _ _ _ := trivial
  records {s} _ {ctx p n m rs} hread := by
    rcases ctx_cases ctx with rfl | ⟨e, rfl⟩
    · simp only [Store.read, FileStore.read, guarded, Ctx.background] at hread
      split at hread
      · cases hread
      split at hread
      · cases hread
      split at hread
      · cases hread
      · next hlog =>
        cases hread
        exact Log.PartitionLog.read_norm hlog
    · cases hread

section

variable {σ : Type} [Store σ] [Decoded σ]

theorem withTimestamp_norm {r : Record} (h : r.norm = r) (now : Int64) :
    (Broker.withTimestamp now r).norm = Broker.withTimestamp now r := by
  unfold Broker.withTimestamp
  split
  · exact norm_of_fields h rfl rfl rfl
  · exact h

theorem dedupRecord_norm (id : Bytes) (p : PartitionRef) (cp : ProducerCheckpoint) :
    (dedupRecord id p cp).norm = dedupRecord id p cp := by
  have hnonempty : ∀ b, b ≠ [] → Slice.norm (some b) = some b := by
    intro b hb
    cases b with
    | nil => exact absurd rfl hb
    | cons x xs => rfl
  have hkey : encodeDedupKey id p ≠ [] := by simp [encodeDedupKey, bigEndian]
  have hvalue : encodeDedupValue cp ≠ [] := by simp [encodeDedupValue, bigEndian]
  simp [Record.norm, dedupRecord, hnonempty _ hkey, hnonempty _ hvalue]

variable {b : Broker σ}

theorem publish_normal (h : Decoded.Normal b.store) (c : Broker.Call) (hr : c.record.norm = c.record) :
    Decoded.Normal (b.call c).2.store := by
  obtain ⟨hstore, -⟩ := Broker.evictFor_same b (producerIdempKey c.record) c.now c.p
  unfold Broker.call Broker.publish
  split
  · exact h
  simp only
  split
  · rwa [hstore]
  · have happend : Decoded.Normal (Store.append (b.evictFor (producerIdempKey c.record) c.now c.p).store c.ctx c.now c.p
        (Broker.withTimestamp c.now c.record)).2 := by
      rw [hstore]
      exact Decoded.append h _ _ _ (withTimestamp_norm hr c.now)
    split
    · next heq =>
      rw [heq] at happend
      exact happend
    · next heq =>
      rw [heq] at happend
      unfold Broker.remember
      split
      · exact happend
      · simp only
        split
        · unfold Broker.persistDedupCheckpoint
          split
          · exact happend
          · exact Decoded.append happend _ _ _ (dedupRecord_norm ..)
        · exact happend

section
variable (h : Decoded.Normal b.store) {calls : List Broker.Call} (hr : ∀ c ∈ calls, c.record.norm = c.record)
include h hr

theorem publishAll_normal :
    Decoded.Normal (b.publishAll calls).2.store := by
  induction calls generalizing b with
  | nil => exact h
  | cons c rest ih =>
    have hcall := publish_normal h c (hr c mem_cons_self)
    rw [Broker.publishAll]
    split
    · next heq =>
      rw [heq] at hcall
      exact hcall
    · next heq =>
      rw [heq] at hcall
      exact ih hcall fun c' hc' => hr c' (mem_cons_of_mem c hc')

theorem publishBatch_normal :
    Decoded.Normal (b.publishBatch calls).2.store := by
  cases calls with
  | nil => exact h
  | cons c rest =>
    have hcall := publish_normal h c (hr c mem_cons_self)
    rw [Broker.publishBatch]
    split
    · next heq =>
      rw [heq] at hcall
      exact hcall
    · next heq =>
      rw [heq] at hcall
      have hrest := publishAll_normal hcall fun c' hc' => hr c' (mem_cons_of_mem c hc')
      split <;> rename_i heq <;> rw [heq] at hrest <;> exact hrest

end

inductive Request where
  | produce (c : Conn) (now : Int64) (body : Bytes)
  | produceBatch (c : Conn) (clock : Nat → Int64) (body : Bytes)
  | read (p : PartitionRef) (fromOffset maxRecords : Int)

omit [Decoded σ] in
def serve (lz : Lz4) (b : Broker σ) : Request → Broker σ
  | .produce c now body => (handleProduce c now b body).2
  | .produceBatch c clock body => (handleProduceBatch lz c clock b body).2
  | .read p n m => (b.read .background p n m).2

section
variable (h : Decoded.Normal b.store)
include h

theorem handleProduce_normal (c : Conn) (now : Int64) (body : Bytes) :
    Decoded.Normal (handleProduce c now b body).2.store := by
  unfold handleProduce
  split
  · exact h
  · next req t hdec =>
    split
    · exact h
    split
    · exact h
    · have hcall := publish_normal h ⟨⟨.background, now, none⟩, ⟨req.topic, req.partition⟩, req.record⟩
        (decodeProduceRequest_norm hdec)
      simp only [Broker.call] at hcall
      split <;> rename_i heq <;> rw [heq] at hcall <;> exact hcall

theorem handleProduceBatch_normal (lz : Lz4) (c : Conn) (clock : Nat → Int64) (body : Bytes) :
    Decoded.Normal (handleProduceBatch lz c clock b body).2.store := by
  unfold handleProduceBatch
  split
  · exact h
  · next req t hdec =>
    split
    · exact h
    split
    · exact h
    split
    · exact h
    · have hcalls : Decoded.Normal (b.publishBatch (batchCalls clock req)).2.store :=
        publishBatch_normal h (fun call hcall => by
        obtain ⟨i, hi, rfl⟩ := mem_mapIdx.mp hcall
        exact decodeProduceBatchRequest_norm hdec _ (getElem_mem hi))
      split <;> rename_i heq <;> rw [heq] at hcalls <;> exact hcalls

theorem read_normal (ctx : Ctx) (p : PartitionRef) (n m : Int) :
    Decoded.Normal (b.read ctx p n m).2.store := by
  have hread := Decoded.read h ctx p n m
  unfold Broker.read
  split
  · exact h
  · split <;> rename_i heq <;> rw [heq] at hread <;> exact hread

theorem serve_normal (lz : Lz4) (a : Request) : Decoded.Normal (serve lz b a).store := by
  cases a with
  | produce c now body => exact handleProduce_normal h c now body
  | produceBatch c clock body => exact handleProduceBatch_normal h lz c clock body
  | read p n m => exact read_normal h .background p n m

theorem read_records {ctx : Ctx} {p : PartitionRef} {n m : Int} {rs : List Record}
    (hread : (b.read ctx p n m).1 = .ok rs) : ∀ r ∈ rs, r.norm = r := by
  unfold Broker.read at hread
  split at hread
  · cases hread
  · split at hread
    · cases hread
    · next heq =>
      cases hread
      exact Decoded.records h (congrArg Prod.fst heq)

end

omit [Decoded σ] in
/-- An answer is what one of the polls read. -/
theorem pollLoop_read {c : Conn} {req : FetchRequest} {polls : List (Poll σ)} {resp : FetchResponse}
    (h : pollLoop c req polls = some (.ok resp)) :
    ∃ poll ∈ polls, (poll.broker.read .background ⟨req.topic, req.partition⟩ req.fromOffset.toInt (maxRecs req)).1 =
      .ok resp.records ∧ resp.codec = fetchCodec req resp.records := by
  induction polls with
  | nil => cases h
  | cons poll polls ih =>
    unfold pollLoop at h
    split at h
    · cases h
    · next records hread =>
      split at h
      · split at h
        · cases h
        · cases h
          exact ⟨poll, mem_cons_self, hread, rfl⟩
      · obtain ⟨poll', hmem, hpoll⟩ := ih h
        exact ⟨poll', mem_cons_of_mem poll hmem, hpoll⟩

/-- A fetch answers with records it read, and the client gets exactly these out of the answer if and only if
    the answer fits a frame. Offsets are `int64` in the source. -/
theorem fetch_readable_iff {lz : Lz4} (faithful : lz.Faithful) {b : Broker σ} (normal : Decoded.Normal b.store)
    {polls : List (Poll σ)} (reached : ∀ poll ∈ polls, ∃ requests : List Request, poll.broker = requests.foldl (serve lz) b)
    {c : Conn} {body : Bytes} {resp : FetchResponse} (answered : handleFetch c body polls = some (.ok resp))
    (offsets : ∀ r ∈ resp.records, Signed 8 r.offset) (rest : Bytes) :
    (∃ req t, decodeFetchRequest body = .ok (req, t) ∧ resp.codec = fetchCodec req resp.records ∧ ∃ poll ∈ polls,
      (poll.broker.read .background ⟨req.topic, req.partition⟩ req.fromOffset.toInt (maxRecs req)).1 = .ok resp.records) ∧
    (resp.Readable lz rest ↔ resp.InFrame lz) := by
  unfold handleFetch at answered
  split at answered
  · cases answered
  · next req t hdec =>
    split at answered
    · cases answered
    · obtain ⟨poll, hmem, hread, hcodec⟩ := pollLoop_read answered
      obtain ⟨requests, hrequests⟩ := reached poll hmem
      have hnormal : Decoded.Normal poll.broker.store := by
        rw [hrequests]
        exact foldlRecOn requests (serve lz) (motive := fun b => Decoded.Normal b.store) normal
          fun b hb a _ => serve_normal hb lz a
      have plain : ∀ r ∈ resp.records, Plain r := fun r hr => ⟨read_records hnormal hread r hr, offsets r hr⟩
      exact ⟨⟨req, t, hdec, hcodec, poll, hmem, hread⟩, fun h => h.inFrame faithful, fun h => h.readable faithful plain rest⟩

end

def anyone : Conn := ⟨fun _ _ => true, none, none⟩

def incompressible : Lz4 := ⟨fun _ => none, fun _ _ => none⟩

theorem incompressible_faithful : incompressible.Faithful := ⟨fun h => (by cases h), fun h => (by cases h)⟩

def oneTopic : Broker MemoryStore := ⟨.new, ⟨[⟨utf8 "t", 1, 0, 0⟩], none⟩, 0, [], fun _ => .empty⟩

def fetchFirst : Bytes :=
  encodeString (utf8 "t") ++ encodeInt32 0 ++ encodeInt64 0 ++ encodeInt32 1 ++ encodeInt32 0 ++ [codecNone]

def produceValue (v : Bytes) : Bytes := ProduceRequest.encode ⟨utf8 "t", 0, ⟨0, 5, none, some v, []⟩⟩

theorem fetch_readable_iff_hello :
    ((⟨[⟨0, 5, none, some [104, 105], []⟩], codecNone⟩ : FetchResponse).Readable incompressible []) ∧
      (⟨[⟨0, 5, none, some [104, 105], []⟩], codecNone⟩ : FetchResponse).InFrame incompressible := by
  have hframe : (⟨[⟨0, 5, none, some [104, 105], []⟩], codecNone⟩ : FetchResponse).InFrame incompressible := by
    show 3 + payloadSize _ ≤ maxFrameBytes
    decide
  have hnormal : Decoded.Normal oneTopic.store := fun p r hr => by cases hr
  have hreached : ∀ poll ∈ ([⟨serve incompressible oneTopic (.produce anyone 7 (produceValue [104, 105])), false⟩] :
      List (Poll MemoryStore)),
      ∃ requests : List Request, poll.broker = requests.foldl (serve incompressible) oneTopic := by
    intro poll hpoll
    cases mem_singleton.mp hpoll
    exact ⟨[.produce anyone 7 (produceValue [104, 105])], rfl⟩
  have hanswered : handleFetch anyone fetchFirst
      [⟨serve incompressible oneTopic (.produce anyone 7 (produceValue [104, 105])), false⟩] =
      some (.ok ⟨[⟨0, 5, none, some [104, 105], []⟩], codecNone⟩) := by decide +kernel
  exact ⟨(fetch_readable_iff incompressible_faithful hnormal hreached hanswered (by decide) []).2.mpr hframe, hframe⟩

/-- A value of 2^26 - 40 bytes is accepted in a produce request and makes an answer three bytes too long. -/
theorem fetch_unreadable : ∃ v : Bytes,
    readFrame (writeFrame opProduce (produceValue v)) = .ok ((opProduce, produceValue v), []) ∧
    handleFetch anyone fetchFirst [⟨serve incompressible oneTopic (.produce anyone 7 (produceValue v)), false⟩] =
      some (.ok ⟨[⟨0, 5, none, some v, []⟩], codecNone⟩) ∧
    readResponse opFetch (writeResponse opFetch statusOK
      (FetchResponse.encode incompressible ⟨[⟨0, 5, none, some v, []⟩], codecNone⟩)) = .error (.tooLarge (2 ^ 26 + 3)) := by
  obtain ⟨v, hv⟩ : ∃ v : Bytes, v.length = 2 ^ 26 - 40 := ⟨replicate _ 0, length_replicate⟩
  have hplain : Plain ⟨0, 5, none, some v, []⟩ := by
    refine ⟨?_, show Signed 8 0 by decide⟩
    cases v with
    | nil => cases hv
    | cons x xs => rfl
  have hlen : (produceValue v).length = 37 + v.length := by
    simp only [produceValue, ProduceRequest.encode, encodeRecord, encodeBytes, length_append, length_encodeString,
      length_encodeInt32,
      length_encodeOffset, length_encodeInt64, length_bigEndian, flatMap_nil, length_nil, Slice.bytes, Option.getD]
    show 4 + 1 + 4 + _ = _
    omega
  have hdec : decodeProduceRequest (produceValue v) = .ok (⟨utf8 "t", 0, ⟨0, 5, none, some v, []⟩⟩, []) :=
    decodeProduceRequest_encode hplain (by rw [← produceValue, hlen]; omega)
  have hserve : serve incompressible oneTopic (.produce anyone 7 (produceValue v)) =
      { oneTopic with store := ⟨Function.update (fun _ => none) ⟨utf8 "t", 0⟩ (some [⟨0, 5, none, some v, []⟩])⟩ } := by
    simp only [serve, handleProduce, hdec]
    rfl
  refine ⟨v, ?_, ?_, ?_⟩
  · have hread := @readFrame_write opProduce (produceValue v) (by rw [hlen, maxFrameBytes]; omega) []
    rwa [append_nil] at hread
  · have hfetch : decodeFetchRequest fetchFirst = .ok (⟨utf8 "t", 0, 0, 1, 0, codecNone⟩, []) := by decide +kernel
    rw [hserve]
    simp only [handleFetch, hfetch, anyone, Bool.not_true, Bool.false_eq_true, ↓reduceIte, pollLoop]
    rfl
  · have henc : (FetchResponse.encode incompressible ⟨[⟨0, 5, none, some v, []⟩], codecNone⟩).length = 41 + v.length := by
      show (codecNone :: fetchPayload [⟨0, 5, none, some v, []⟩]).length = _
      rw [length_cons, length_payload]
      show 4 + (36 + 0 + v.length + 0 + 0) + 1 = _
      omega
    have hframe := @readFrame_tooLarge opFetch (statusOK :: FetchResponse.encode incompressible
      ⟨[⟨0, 5, none, some v, []⟩], codecNone⟩) (by rw [length_cons, henc, maxFrameBytes]; omega)
      (by rw [length_cons, henc]; omega) []
    rw [append_nil, length_cons, henc, hv, show 1 + (41 + (2 ^ 26 - 40) + 1) = 2 ^ 26 + 3 by decide] at hframe
    simp only [readResponse, writeResponse, hframe]

end Holocron.Server

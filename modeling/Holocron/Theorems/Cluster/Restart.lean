import Holocron.Theorems.Cluster.Agreement

/-! Raft delivers every command since the last snapshot again: an append is made twice unless its topic is deleted in
    between. -/

namespace Holocron.Cluster
open Lib Storage List Function

def change (m : Contents) : Int64 × Command → Contents
  | (now, .append c) => m.append ⟨c.topic, c.partition⟩ (stamp now (m ⟨c.topic, c.partition⟩).length c.record.norm)
  | (_, .deleteTopic c) => m.deleteTopic c.name
  | _ => m

def changes (m : Contents) (ys : List (Int64 × Command)) : Contents := ys.foldl change m

theorem changes_append (m : Contents) (xs ys : List (Int64 × Command)) : changes m (xs ++ ys) = changes (changes m xs) ys :=
  foldl_append

def appended (p : PartitionRef) : Nat → List (Int64 × Command) → List Record
  | _, [] => []
  | n, (now, .append c) :: ys =>
    if (⟨c.topic, c.partition⟩ : PartitionRef) = p then stamp now n c.record.norm :: appended p (n + 1) ys else appended p n ys
  | n, _ :: ys => appended p n ys

def Deletes (topic : Bytes) (c : Command) : Prop := c = .deleteTopic ⟨topic⟩

variable {p : PartitionRef} {ys zs : List (Int64 × Command)} {c : AppendCommand} {l : List Command} {now : Int64}

theorem changes_of_no_delete (h : ∀ y ∈ ys, ¬ Deletes p.topic y.2) (m : Contents) :
    changes m ys p = m p ++ appended p (m p).length ys := by
  induction ys generalizing m with
  | nil => simp [changes, appended]
  | cons y ys ih =>
    obtain ⟨now, c⟩ := y
    have hrest := ih (fun y hy => h y (mem_cons_of_mem _ hy)) (change m (now, c))
    have hstep : changes m ((now, c) :: ys) p = changes (change m (now, c)) ys p := rfl
    rw [hstep, hrest]
    cases c with
    | append c =>
      by_cases hp : ⟨c.topic, c.partition⟩ = p
      · subst hp
        simp [change, appended]
      · simp only [change, Contents.append, appended, if_neg hp, update_of_ne (Ne.symm hp)]
    | deleteTopic c =>
      have hne : p.topic ≠ c.name := fun heq => h _ mem_cons_self (by rw [Deletes, heq])
      simp only [change, Contents.deleteTopic, appended, if_neg hne]
    | createTopic c => rfl
    | updateTopicConfig c => rfl

/-- The last deletion makes what was there before irrelevant. -/
theorem changes_of_delete (m : Contents) (xs : List (Int64 × Command)) (now : Int64) (h : ∀ y ∈ ys, ¬ Deletes p.topic y.2) :
    changes m (xs ++ (now, .deleteTopic ⟨p.topic⟩) :: ys) p = appended p 0 ys := by
  rw [changes_append]
  have hstep : changes (changes m xs) ((now, .deleteTopic ⟨p.topic⟩) :: ys) p =
      changes ((changes m xs).deleteTopic p.topic) ys p := rfl
  rw [hstep, changes_of_no_delete h]
  simp [Contents.deleteTopic]

theorem appended_clock (same : ys.map Prod.snd = zs.map Prod.snd)
    (stamped : ∀ c, .append c ∈ ys.map Prod.snd → ⟨c.topic, c.partition⟩ = p → c.record.timestamp ≠ 0)
    (n : Nat) : appended p n ys = appended p n zs := by
  induction ys generalizing zs n with
  | nil => rw [map_eq_nil_iff.mp same.symm]
  | cons y ys ih =>
    obtain ⟨z, zs, rfl⟩ := exists_cons_of_ne_nil (l := zs) (by rintro rfl; cases same)
    obtain ⟨hyz, hrest⟩ := cons.inj same
    have hstamped : ∀ c, .append c ∈ ys.map Prod.snd → ⟨c.topic, c.partition⟩ = p →
        c.record.timestamp ≠ 0 := fun c hc => stamped c (mem_cons_of_mem _ hc)
    obtain ⟨now, c⟩ := y
    obtain ⟨now', c'⟩ := z
    obtain rfl : c = c' := hyz
    cases c with
    | append c =>
      by_cases hp : ⟨c.topic, c.partition⟩ = p
      · have hts : c.record.norm.timestamp ≠ 0 := stamped c mem_cons_self hp
        simp only [appended, stamp_of_timestamp hts now now', ih hrest hstamped]
      · simp only [appended, if_neg hp, ih hrest hstamped]
    | deleteTopic c | createTopic c | updateTopicConfig c => exact ih hrest hstamped n

/-- Without a timestamp they add different records at different times. -/
theorem stamped_of_appended {n : Nat}
    (same : appended p n (l.map fun c => (1, c)) = appended p n (l.map fun c => (2, c))) (hc : .append c ∈ l)
    (hp : ⟨c.topic, c.partition⟩ = p) : c.record.timestamp ≠ 0 := by
  induction l generalizing n with
  | nil => cases hc
  | cons x l ih =>
    cases x with
    | append d =>
      by_cases hd : ⟨d.topic, d.partition⟩ = p
      · simp only [map_cons, appended, if_pos hd] at same
        obtain ⟨hfirst, hrest⟩ := cons.inj same
        rcases mem_cons.mp hc with heq | hc
        · cases heq
          intro hzero
          have := congrArg Record.timestamp hfirst
          simp only [stamp, Record.norm_timestamp, hzero] at this
          exact absurd this (by decide)
        · exact ih hrest hc
      · simp only [map_cons, appended, if_neg hd] at same
        rcases mem_cons.mp hc with heq | hc
        · cases heq
          exact absurd hp hd
        · exact ih same hc
    | deleteTopic d | createTopic d | updateTopicConfig d => exact ih same ((mem_cons.mp hc).resolve_left (by simp))

/-- Every topic appended to is also deleted, and what is appended after its last deletion carries a
    timestamp. -/
def Replayable (l : List Command) : Prop :=
  ∀ a (c : AppendCommand) b, l = a ++ .append c :: b →
    (∃ x ∈ l, Deletes c.topic x) ∧ ((∀ x ∈ b, ¬ Deletes c.topic x) → c.record.timestamp ≠ 0)

theorem appended_ne_nil (hc : .append c ∈ zs.map Prod.snd) (hp : ⟨c.topic, c.partition⟩ = p)
    (n : Nat) : appended p n zs ≠ [] := by
  induction zs generalizing n with
  | nil => cases hc
  | cons z zs ih =>
    obtain ⟨now, x⟩ := z
    cases x with
    | append d =>
      by_cases hd : ⟨d.topic, d.partition⟩ = p
      · simp [appended, hd]
      · rcases mem_cons.mp hc with heq | hc
        · cases heq
          exact absurd hp hd
        · simp only [appended, if_neg hd]
          exact ih hc n
    | deleteTopic d | createTopic d | updateTopicConfig d => exact ih ((mem_cons.mp hc).resolve_left (by simp)) n

theorem appended_eq_nil (h : ∀ c, .append c ∈ zs.map Prod.snd → ⟨c.topic, c.partition⟩ ≠ p) (n : Nat) :
    appended p n zs = [] := by
  induction zs generalizing n with
  | nil => rfl
  | cons z zs ih =>
    obtain ⟨now, x⟩ := z
    have hrest := ih fun c hc => h c (mem_cons_of_mem _ hc)
    cases x with
    | append d => simp only [appended, if_neg (h d mem_cons_self), hrest]
    | deleteTopic d | createTopic d | updateTopicConfig d => exact hrest n

/-- Of commands with a deletion in them only those after the last one count. -/
theorem changes_split {x y : List Command} (hy : ∀ c ∈ y, ¬ Deletes p.topic c) (m : Contents)
    (hzs : zs.map Prod.snd = x ++ .deleteTopic ⟨p.topic⟩ :: y) :
    ∃ ws, ws.map Prod.snd = y ∧ changes m zs p = appended p 0 ws := by
  obtain ⟨us, vs, rfl, -, hvs⟩ := map_eq_append_iff.mp hzs
  obtain ⟨v, ws, rfl, hv, hws⟩ := map_eq_cons_iff.mp hvs
  obtain ⟨now, d⟩ := v
  obtain rfl : d = .deleteTopic ⟨p.topic⟩ := hv
  refine ⟨ws, hws, changes_of_delete m us now fun w hw => ?_⟩
  exact hy w.2 (hws ▸ mem_map_of_mem hw)

theorem deletes_split {topic : Bytes} (h : ∃ x ∈ l, Deletes topic x) :
    ∃ x y, l = x ++ .deleteTopic ⟨topic⟩ :: y ∧ ∀ c ∈ y, ¬ Deletes topic c := by
  obtain ⟨x, d, y, rfl, rfl, hy⟩ := exists_last h
  exact ⟨x, y, rfl, hy⟩

/-- Delivering the last part of the commands a second time changes nothing, at any times, exactly if it
    is replayable. -/
theorem redelivery_iff (m : Contents) (before l : List Command) :
    (∀ ys zs, ys.map Prod.snd = before ++ l → zs.map Prod.snd = l →
      changes m (ys ++ zs) = changes m ys) ↔ Replayable l := by
  constructor
  · intro hsame a c b hl
    let p : PartitionRef := ⟨c.topic, c.partition⟩
    have hmem : .append c ∈ l := by simp [hl]
    -- Times one at first and two the second time.
    have h := congrFun (hsame ((before ++ l).map fun c => (1, c)) (l.map fun c => (2, c)) (by simp [map_map])
      (by simp [map_map])) p
    have hdel : ∃ x ∈ l, Deletes c.topic x := by
      by_contra hnone
      have hno : ∀ z ∈ l.map (fun c => ((2 : Int64), c)), ¬ Deletes p.topic z.2 := by
        intro z hz hd
        obtain ⟨x, hx, rfl⟩ := mem_map.mp hz
        exact hnone ⟨x, hx, hd⟩
      rw [changes_append, changes_of_no_delete hno] at h
      have hin : .append c ∈ (l.map fun c => ((2 : Int64), c)).map Prod.snd := by
        simpa [map_map] using hmem
      exact appended_ne_nil (p := p) hin rfl _ (append_right_eq_self.mp h)
    refine ⟨hdel, fun hb => ?_⟩
    have hdela : ∃ x ∈ a, Deletes c.topic x := by
      obtain ⟨x, hx, hd⟩ := hdel
      rw [hl] at hx
      rcases mem_append.mp hx with hx | hx
      · exact ⟨x, hx, hd⟩
      · rcases mem_cons.mp hx with rfl | hx
        · cases hd
        · exact absurd hd (hb x hx)
    obtain ⟨x, y, rfl, hy⟩ := deletes_split hdela
    have hyb : ∀ d ∈ y ++ .append c :: b, ¬ Deletes c.topic d := by
      intro d hd
      rcases mem_append.mp hd with hd | hd
      · exact hy d hd
      · rcases mem_cons.mp hd with rfl | hd
        · intro h
          cases h
        · exact hb d hd
    have hlast : ∀ t n u,
        changes n ((u ++ x ++ .deleteTopic ⟨c.topic⟩ :: (y ++ .append c :: b)).map fun c => (t, c)) p =
          appended p 0 ((y ++ .append c :: b).map fun c => (t, c)) := by
      intro t n u
      rw [map_append]
      refine changes_of_delete (p := p) _ _ _ fun z hz => ?_
      obtain ⟨d, hd, rfl⟩ := mem_map.mp hz
      exact hyb d hd
    have hsplit : l = [] ++ x ++ .deleteTopic ⟨c.topic⟩ :: (y ++ .append c :: b) := by rw [hl]; simp
    rw [changes_append, hsplit, hlast, nil_append, ← append_assoc, hlast] at h
    exact stamped_of_appended h.symm (by simp) rfl
  · intro hreplay ys zs hys hzs
    funext p
    by_cases hdel : ∃ x ∈ l, Deletes p.topic x
    · obtain ⟨x, y, rfl, hy⟩ := deletes_split hdel
      rw [← append_assoc] at hys
      obtain ⟨ws, hws, hfirst⟩ := changes_split hy m hys
      obtain ⟨vs, hvs, hsecond⟩ := changes_split hy (changes m ys) hzs
      rw [changes_append, hfirst, hsecond]
      refine appended_clock (hvs.trans hws.symm) (fun c hc hp => ?_) 0
      rw [hvs] at hc
      obtain ⟨a, b, hab⟩ := append_of_mem hc
      refine (hreplay (x ++ .deleteTopic ⟨p.topic⟩ :: a) c b (by rw [hab]; simp)).2 fun d hd => ?_
      rw [← hp] at hy
      exact hy d (by rw [hab]; simp [hd])
    · have hno : ∀ z ∈ zs, ¬ Deletes p.topic z.2 := fun z hz hd => hdel ⟨z.2, hzs ▸ mem_map_of_mem hz, hd⟩
      rw [changes_append, changes_of_no_delete hno, appended_eq_nil, append_nil]
      intro c hc hp
      rw [hzs] at hc
      obtain ⟨a, b, hab⟩ := append_of_mem hc
      rw [← hp] at hdel
      exact hdel (hreplay a c b hab).1

theorem stamp_norm {offset : Int} {r : Record} (h : r.norm = r) : (stamp now offset r).norm = stamp now offset r := by
  have hfields := Record.mk.inj h
  simp only [stamp, Record.norm, Record.mk.injEq, true_and]
  exact hfields.2.2

inductive Event where
  | apply (now : Int64) (entry : Bytes)
  | restart (snapshot : Option (List TopicConfig))
  deriving DecidableEq, Repr

def deliver (ys : List (Int64 × Command)) : List Event := ys.map fun y => .apply y.1 y.2.encode

namespace Fsm

variable {σ : Type} [Store σ] [Contract σ] {m : Contents} {f : Fsm σ}

def event (f : Fsm σ) : Event → Fsm σ
  | .apply now entry => (f.apply now entry).2
  | .restart snapshot => Fsm.restore { f with store := Contract.reopen f.store } snapshot

def events (f : Fsm σ) (es : List Event) : Fsm σ := es.foldl event f

/-- The store has room for a record that is applied. -/
def HasRoom (f : Fsm σ) : Event → Prop
  | .apply now entry => ∀ c, decode entry = .ok (.append c) →
      ∀ hw s', Store.highWater f.store .background ⟨c.topic, c.partition⟩ = (.ok hw, s') →
        Contract.Room f.store ⟨c.topic, c.partition⟩ (stamp now hw c.record)
  | .restart _ => True

/-- The topic whose records a command touches has a directory of its own. The name pattern lets `.` and `..` pass,
    and a deletion in a cluster is not checked against it: removing such a directory takes other topics with it. -/
def Apart : Command → Prop
  | .append c => FileStore.Plain c.topic
  | .deleteTopic c => FileStore.Plain c.name
  | _ => True

/-- The commands a broker submits, small enough for the length fields of their encoding. -/
def Sent (c : Command) : Prop := Submitted c ∧ Apart c ∧ c.encode.length < 2 ^ 32

omit [Store σ] [Contract σ] in
theorem changes_of_apart (hp : ¬ FileStore.Plain p.topic) (m : Contents) (h : ∀ y ∈ ys, Apart y.2) : changes m ys p = m p := by
  have hdelete : ∀ y ∈ ys, ¬ Deletes p.topic y.2 := by
    intro y hy hdel
    have := h y hy
    rw [show y.2 = .deleteTopic ⟨p.topic⟩ from hdel] at this
    exact hp this
  rw [changes_of_no_delete hdelete, appended_eq_nil, append_nil]
  rintro c hc rfl
  obtain ⟨y, hy, hyc⟩ := mem_map.mp hc
  have := h y hy
  rw [hyc] at this
  exact hp this

omit [Store σ] [Contract σ] in
theorem applyCreateTopic_store (f : Fsm σ) (cmd : CreateTopicCommand) : (f.applyCreateTopic cmd).2.store = f.store := by
  unfold applyCreateTopic
  split
  · rfl
  · split <;> rfl

omit [Store σ] [Contract σ] in
theorem applyUpdateTopicConfig_store (f : Fsm σ) (cmd : UpdateTopicConfigCommand) :
    (f.applyUpdateTopicConfig cmd).2.store = f.store := by
  unfold applyUpdateTopicConfig
  split <;> rfl

theorem apply_rep (rep : Contract.Rep f.store m) {c : Command} (sent : Sent c)
    (room : f.HasRoom (.apply now c.encode)) : Contract.Rep (f.event (.apply now c.encode)).store (change m (now, c)) := by
  obtain ⟨submitted, -, hlen⟩ := sent
  have hdecode : decode c.encode = .ok c.norm := by
    refine decode_encode hlen fun a ha => ?_
    subst ha
    cases submitted
    exact (by decide : Signed 8 offsetUnstamped)
  cases submitted with
  | publish p r valid =>
    let r' : Record := { r.norm with offset := Wire.offsetOf (Wire.encodeOffset r.offset) }
    have hnorm : r'.norm = r' := by simp [r', Record.norm, Header.norm_norm]
    have hcommand : (publishCommand p r).norm = .append ⟨p.topic, p.index, offsetUnstamped, r'⟩ := rfl
    rw [hcommand] at hdecode
    obtain ⟨s₁, hhw, -⟩ := Contract.highWater rep p
    obtain ⟨s', happ, hrep⟩ := Contract.append rep (p := p) (r := r') now (room _ hdecode _ _ hhw)
    rw [Contract.view_of_norm (stamp_norm hnorm)] at hrep
    have hevent : f.event (.apply now (publishCommand p r).encode) = { f with store := s' } := by
      simp only [event, apply, hdecode, applyAppend, alreadyHeld, ↓reduceIte]
      rw [happ]
    rw [hevent]
    exact hrep
  | create spec =>
    have hevent : (f.event (.apply now (createTopicCommand spec).encode)).store = f.store := by
      simp only [event, apply, hdecode]
      exact applyCreateTopic_store f _
    rw [hevent]
    exact rep
  | delete name =>
    obtain ⟨s', hdel, hrep⟩ := Contract.deleteTopic rep name
    have hevent : (f.event (.apply now (deleteTopicCommand name).encode)).store = s' := by
      simp only [event, apply, hdecode]
      simp only [deleteTopicCommand, Command.norm, applyDeleteTopic, hdel]
    rw [hevent]
    exact hrep
  | update name x y =>
    have hevent : (f.event (.apply now (updateTopicConfigCommand name x y).encode)).store = f.store := by
      simp only [event, apply, hdecode]
      exact applyUpdateTopicConfig_store f _
    rw [hevent]
    exact rep

theorem events_rep (rep : Contract.Rep f.store m) (sent : ∀ y ∈ ys, Sent y.2)
    (room : Allowed (fun f e => (.ok (f.event e) : Except Unit (Fsm σ))) HasRoom f (deliver ys)) :
    Contract.Rep (f.events (deliver ys)).store (changes m ys) := by
  induction ys generalizing f m with
  | nil => exact rep
  | cons y ys ih =>
    have hrep := apply_rep rep (sent y mem_cons_self) room.1
    exact ih hrep (fun x hx => sent x (mem_cons_of_mem y hx)) (room.2 _ rfl)

theorem events_append (f : Fsm σ) (as bs : List Event) : f.events (as ++ bs) = (f.events as).events bs := foldl_append

/-- A node that restarts after `cmds`, with `cmds.drop s` delivered again, holds the records of one that did
    not restart, whatever the clocks, exactly if the redelivered commands are replayable; for topics with a
    directory of their own. -/
theorem restart_iff {f : Fsm σ} {m : Contents} (rep : Contract.Rep f.store m) (cmds : List Command)
    (sent : ∀ c ∈ cmds, Sent c) (s : Nat) (snapshot : Option (List TopicConfig))
    (room : ∀ ys zs : List (Int64 × Command), ys.map Prod.snd = cmds → zs.map Prod.snd = cmds.drop s →
      Allowed (fun f e => (.ok (f.event e) : Except Unit (Fsm σ))) HasRoom f (deliver ys ++ .restart snapshot :: deliver zs)) :
    (∀ ys zs : List (Int64 × Command), ys.map Prod.snd = cmds → zs.map Prod.snd = cmds.drop s →
      ∀ p, FileStore.Plain p.topic →
        contents (f.events (deliver ys ++ .restart snapshot :: deliver zs)).store p =
          contents (f.events (deliver ys)).store p) ↔ Replayable (cmds.drop s) := by
  have hsent : ∀ {l} {ys : List (Int64 × Command)}, (∀ c ∈ l, c ∈ cmds) → ys.map Prod.snd = l →
      ∀ y ∈ ys, Sent y.2 := fun hl hys y hy => sent _ (hl _ (hys ▸ mem_map_of_mem hy))
  -- Both runs end with stores that represent what the commands make of the contents.
  have hboth : ∀ ys zs, ys.map Prod.snd = cmds → zs.map Prod.snd = cmds.drop s →
      Contract.Rep (f.events (deliver ys)).store (changes m ys) ∧
        Contract.Rep (f.events (deliver ys ++ .restart snapshot :: deliver zs)).store (changes m (ys ++ zs)) := by
    intro ys zs hys hzs
    have hallowed := room ys zs hys hzs
    have hfirst := events_rep rep (hsent (fun _ h => h) hys) hallowed.of_append
    have hrest := hallowed.of_append_right (runAll_total event f (deliver ys))
    have hopened : Contract.Rep ((f.events (deliver ys)).event (.restart snapshot)).store (changes m ys) := by
      cases snapshot <;> exact Contract.reopened hfirst
    refine ⟨hfirst, ?_⟩
    rw [events_append, changes_append]
    exact events_rep hopened (hsent (fun _ h => mem_of_mem_drop h) hzs) (hrest.2 _ rfl)
  rw [← redelivery_iff m (cmds.take s) (cmds.drop s), take_append_drop]
  constructor
  · intro hsame ys zs hys hzs
    obtain ⟨hone, htwo⟩ := hboth ys zs hys hzs
    funext p
    by_cases hp : FileStore.Plain p.topic
    · have := hsame ys zs hys hzs p hp
      rw [Contract.contents_eq hone, Contract.contents_eq htwo] at this
      exact Except.ok.inj this
    · have hfirst : ∀ y ∈ ys, Apart y.2 := fun y hy => (hsent (fun _ h => h) hys y hy).2.1
      have hagain : ∀ z ∈ zs, Apart z.2 := fun z hz => (hsent (fun _ h => mem_of_mem_drop h) hzs z hz).2.1
      rw [changes_of_apart hp m hfirst, changes_append, changes_of_apart hp _ hagain, changes_of_apart hp m hfirst]
  · intro hsame ys zs hys hzs p _
    obtain ⟨hone, htwo⟩ := hboth ys zs hys hzs
    rw [Contract.contents_eq hone, Contract.contents_eq htwo, hsame ys zs hys hzs]

def recreated : List Command := createAndPublish 5 ++ deleteTopicCommand [116] :: createAndPublish 5

theorem recreated_replayable : Replayable recreated := by
  intro a c b hl
  have hmem : .append c ∈ recreated := by simp [hl]
  have hc : c = ⟨[116], 0, offsetUnstamped, ⟨0, 5, none, some [7], []⟩⟩ := by
    simpa [recreated, createAndPublish, createTopicCommand, publishCommand, deleteTopicCommand] using hmem
  subst hc
  exact ⟨⟨deleteTopicCommand [116], by decide, rfl⟩, fun _ => by decide⟩

/-- A topic deleted and created again between two records, all of it delivered twice. -/
theorem restart_iff_deleted :
    Replayable recreated ∧ ∀ ys zs : List (Int64 × Command), ys.map Prod.snd = recreated →
      zs.map Prod.snd = recreated.drop 0 → ∀ p, FileStore.Plain p.topic →
        contents (fresh.events (deliver ys ++ .restart none :: deliver zs)).store p =
          contents (fresh.events (deliver ys)).store p := by
  have hplain : FileStore.Plain [116] := by decide
  have hsent : ∀ c ∈ createAndPublish 5, Sent c := by
    intro c hc
    rcases mem_pair.mp hc with rfl | rfl
    · exact ⟨.create _, trivial, by decide⟩
    · exact ⟨.publish _ _ (by decide), hplain, by decide⟩
  refine ⟨recreated_replayable, (restart_iff (m := fun _ => []) (fun p => rfl) recreated ?_ 0 none ?_).mpr recreated_replayable⟩
  · intro c hc
    rcases mem_append.mp hc with hc | hc
    · exact hsent c hc
    · rcases mem_cons.mp hc with rfl | hc
      · exact ⟨.delete _, hplain, by decide⟩
      · exact hsent c hc
  · intro ys zs _ _
    refine Allowed.of_forall (fun f e => ?_) _ _
    cases e with
    | apply now entry => exact fun _ _ _ _ _ => trivial
    | restart snapshot => trivial

def freshDisk : Fsm FileStore := ⟨FileStore.new 0 fun _ => [], Topic.Registry.new⟩

/-- The record published before the restart is there twice after it. -/
theorem restart_duplicates :
    contents (freshDisk.events (deliver ([10, 11].zip (createAndPublish 5)))).store ⟨[116], 0⟩ =
        .ok [⟨0, 5, none, some [7], []⟩] ∧
      contents (freshDisk.events (deliver ([10, 11].zip (createAndPublish 5)) ++
        .restart none :: deliver ([20, 21].zip (createAndPublish 5)))).store ⟨[116], 0⟩ =
        .ok [⟨0, 5, none, some [7], []⟩, ⟨1, 5, none, some [7], []⟩] := by
  decide +kernel

end Fsm
end Holocron.Cluster

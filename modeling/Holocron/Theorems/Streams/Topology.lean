import Holocron.Streams.Topology
import Holocron.Theorems.Sdk.Run

/-! What the loops of a topology commit: past all that their consumer has received, which is right as long as nothing
    below waits. -/

namespace Holocron.Streams
open Lib Sdk List

variable {σ : Type} {o : Operator σ}

def flatOps (partition : Int32) : List (Operator σ) → List Record → Shared σ → List Record × Shared σ
  | [], rs, s => (rs, s)
  | o :: ops, rs, s =>
    let (rs, s) := flatMapState (runOp o partition) rs s
    flatOps partition ops rs s

def Task.outputs (cfg : Config) (task : Task σ) (s : Shared σ) (x : PolledRecord) : List Record :=
  match task with
  | .pipeline ops sink =>
    if sink = [] then [] else (flatOps x.partition.index ops [x.record] (advanceWatermark s (cfg.extract x.record)).2).1
  | .table => []
  | .joinSide j isLeft =>
    let (watermark, s) := advanceWatermark s (cfg.extract x.record)
    (j.onRecord s.join isLeft x.record (cfg.extract x.record) watermark).1

def Single (o : Operator σ) : Prop := ∀ s r p, ((o s r p).1.getD []).length ≤ 1

theorem Single.runOp (h : Single o) (partition : Int32) (s : Shared σ) (r : Record) :
    (Streams.runOp o partition s r).1.length ≤ 1 := h s.stores r partition

def OneFan (ops : List (Operator σ)) : Prop := ∃ before rest, ops = before ++ rest ∧ (∀ o ∈ before, Single o) ∧
    ∀ o ∈ rest.tail, Single o

theorem flatOps_nil (partition : Int32) (ops : List (Operator σ)) (s : Shared σ) : flatOps partition ops [] s = ([], s) := by
  induction ops with
  | nil => rfl
  | cons o ops ih => exact ih

def Agrees (cfg : Config) (partition : Int32) (ops : List (Operator σ)) (out : Backed Record) (s : Shared σ) : Prop :=
  ((runOps cfg partition ops out s).1.toList, (runOps cfg partition ops out s).2) = flatOps partition ops out.toList s

section
variable {cfg : Config} {partition : Int32} {ops : List (Operator σ)} {out : Backed Record} {s : Shared σ}

theorem Agrees.cons
    (head : ((rewrite cfg.spare (runOp o partition) out s).1.toList, (rewrite cfg.spare (runOp o partition) out s).2) =
      flatMapState (runOp o partition) out.toList s)
    (tail : Agrees cfg partition ops (rewrite cfg.spare (runOp o partition) out s).1
      (rewrite cfg.spare (runOp o partition) out s).2) :
    Agrees cfg partition (o :: ops) out s := by
  unfold Agrees at tail ⊢
  obtain ⟨hlist, hstate⟩ := Prod.mk.inj head
  simp only [runOps, flatOps]
  by_cases hempty : (rewrite cfg.spare (runOp o partition) out s).1.len = 0
  · have hnil : (rewrite cfg.spare (runOp o partition) out s).1.toList = [] := by rw [Backed.toList, hempty, take_zero]
    rw [if_pos hempty, ← hlist, ← hstate, hnil, flatOps_nil]
  · rw [if_neg hempty, tail, hlist, hstate]

/-- Every operator trails in what the ones before it let through. -/
def Trailed (partition : Int32) : List (Operator σ) → List Record → Shared σ → Prop
  | [], _, _ => True
  | o :: ops, rs, s =>
    Trails (runOp o partition) 0 rs s ∧
      Trailed partition ops (flatMapState (runOp o partition) rs s).1 (flatMapState (runOp o partition) rs s).2

theorem Trailed.agrees (h : Trailed partition ops out.toList s)
    (hcap : out.len ≤ out.array.length) : Agrees cfg partition ops out s := by
  induction ops generalizing out s with
  | nil => rfl
  | cons o ops ih =>
    obtain ⟨hlist, hcap'⟩ := rewrite_trails cfg.spare h.1 hcap
    refine .cons hlist (ih ?_ hcap')
    rw [(Prod.mk.inj hlist).1, (Prod.mk.inj hlist).2]
    exact h.2

theorem runOps_single (single : ∀ o ∈ ops, Single o)
    (s : Shared σ) (hcap : out.len ≤ out.array.length) : Agrees cfg partition ops out s := by
  induction ops generalizing out s with
  | nil => rfl
  | cons o ops ih =>
    obtain ⟨hhead, hcap', -⟩ := @rewrite_single _ _ _ out cfg.spare
      (fun s r => (single o mem_cons_self).runOp partition s r) s hcap
    exact .cons hhead (ih (fun o ho => single o (mem_cons_of_mem _ ho)) _ hcap')

theorem runOps_oneFan (fan : OneFan ops) (s : Shared σ)
    (hlen : out.len ≤ 1) (hcap : out.len ≤ out.array.length) : Agrees cfg partition ops out s := by
  obtain ⟨before, rest, rfl, hbefore, hrest⟩ := fan
  induction before generalizing out s with
  | nil =>
    -- from the one operator on, whose slice has one record at most
    cases rest with
    | nil => rfl
    | cons o rest =>
      obtain ⟨hhead, hcap'⟩ := @rewrite_one _ _ (runOp o partition) out cfg.spare s hlen hcap
      exact .cons hhead (runOps_single hrest _ hcap')
  | cons o before ih =>
    obtain ⟨hhead, hcap', hlen'⟩ :=
      @rewrite_single _ _ _ out cfg.spare (fun s r => (hbefore o mem_cons_self).runOp partition s r) s hcap
    exact .cons hhead (ih _ (Nat.le_trans hlen' hlen) hcap' fun o ho => hbefore o (mem_cons_of_mem _ ho))

end

/-- At most one operator of a pipeline fans out. -/
def Task.Plain : Task σ → Prop
  | .pipeline ops _ => OneFan ops
  | _ => True

theorem Task.Plain.process {task : Task σ} (plain : task.Plain) (cfg : Config) (s : Shared σ) (x : PolledRecord) :
    (task.process cfg s x).1 = task.outputs cfg s x := by
  cases task with
  | pipeline ops sink =>
    have hagrees : Agrees cfg x.partition.index ops (.ofOne x.record) (advanceWatermark s (cfg.extract x.record)).2 :=
      runOps_oneFan plain _ (Nat.le_refl 1) (Nat.le_refl 1)
    simp only [Task.process, Task.outputs, (Prod.mk.inj hagrees).1, Backed.toList_ofOne]
  | table => rfl
  | joinSide j isLeft => rfl

def Work.left : Work σ → List PolledRecord
  | .idle => []
  | .records todo => todo
  | .sending x _ _ _ todo => x :: todo

namespace Loop

def Done (l : Loop σ) (x : PolledRecord) : Prop := ∃ e ∈ l.finished, e.polled = x

structure Inv (cfg : Config) (task : Task σ) (l : Loop σ) : Prop where
  runner : l.runner.Inv
  sent : ∀ e ∈ l.finished, e.sent = (task.process cfg e.before e.polled).1
  handled : ∀ x ∈ l.runner.handled, l.Done x
  batch : ∀ batch, l.runner.phase = .handling batch → ∀ x ∈ batch, l.Done x ∨ x ∈ l.work.left
  sending : ∀ x before sent outs todo, l.work = .sending x before sent outs todo → sent ++ outs = (task.process cfg before x).1

variable {cfg : Config} {task : Task σ} {l : Loop σ} {batch : List PolledRecord}

theorem inv_start (cfg : Config) (task : Task σ) (shared : Shared σ) : Inv cfg task (start shared) :=
  ⟨Runner.inv_start, forall_mem_nil _, forall_mem_nil _, nofun, nofun⟩

/-- What a step of the consumer's run other than its handler leaves: what was handled, and a batch at hand. -/
theorem step_handled (r : Runner) {a : RunAction} (ha : ∀ ok, a ≠ .handle ok) :
    (r.step batchSize a).handled = r.handled ∧
      ∀ batch, (r.step batchSize a).phase = .handling batch → r.phase = .handling batch ∨ ∃ out, r.phase = .polling out := by
  have hsame : ∀ r' : Runner, r'.handled = r.handled → r'.phase = r.phase →
      r'.handled = r.handled ∧ ∀ batch, r'.phase = .handling batch → r.phase = .handling batch ∨ ∃ out,
        r.phase = .polling out :=
    fun r' hhandled hphase => ⟨hhandled, fun batch hbatch => .inl (hphase ▸ hbatch)⟩
  cases a with
  | join fromOffset assignments | pump k step => exact hsame _ rfl rfl
  | handle ok => exact absurd rfl (ha ok)
  | take =>
    simp only [Runner.step]
    split
    · rename_i out hphase
      split
      · exact hsame _ rfl rfl
      · split <;> exact ⟨rfl, fun _ _ => .inr ⟨out, hphase⟩⟩
    · exact hsame _ rfl rfl
  | polled =>
    simp only [Runner.step]
    split
    · rename_i out hphase
      split
      · exact ⟨rfl, fun _ _ => .inr ⟨out, hphase⟩⟩
      · exact hsame _ rfl rfl
    · exact hsame _ rfl rfl
  | commit k ok =>
    simp only [Runner.step]
    split
    · exact ⟨rfl, nofun⟩
    · split
      · refine ⟨rfl, fun batch hbatch => ?_⟩
        cases ok <;> cases hbatch
      · exact hsame _ rfl rfl
    · exact hsame _ rfl rfl
  | stop =>
    simp only [Runner.step]
    split
    · exact ⟨rfl, nofun⟩
    · exact hsame _ rfl rfl

theorem workOf_polled {r r' : Runner} {out : List PolledRecord} (h : r.phase = .polling out)
    (h' : r'.phase = .handling batch) (work : Work σ) : workOf r r' work = .records batch := by
  rw [workOf, h, h']

theorem workOf_cases (r r' : Runner) (work : Work σ) :
    workOf r r' work = work ∨ ∃ batch, workOf r r' work = .records batch := by
  unfold workOf
  split
  · exact .inr ⟨_, rfl⟩
  · exact .inl rfl

theorem workOf_handling {r r' : Runner} (h : r.phase = .handling batch) (work : Work σ) :
    workOf r r' work = work := by
  rw [workOf, h]

section
variable (h : l.Inv cfg task)
include h

theorem Inv.consumer (a : RunAction) : (l.step cfg task (.consumer a)).Inv cfg task := by
  by_cases ha : ∃ ok, a = .handle ok
  · obtain ⟨ok, rfl⟩ := ha
    exact h
  have hstep : l.step cfg task (.consumer a) =
      { l with runner := l.runner.step batchSize a, work := workOf l.runner (l.runner.step batchSize a) l.work } := by
    cases a with
    | handle ok => exact absurd ⟨ok, rfl⟩ ha
    | _ => rfl
  obtain ⟨hhandled, hphase⟩ := step_handled l.runner fun ok hok => ha ⟨ok, hok⟩
  rw [hstep]
  refine ⟨h.runner.step batchSize a, h.sent, by rw [hhandled]; exact h.handled, fun batch hbatch x hx => ?_,
    fun x before sent outs todo hwork => ?_⟩
  · rcases hphase batch hbatch with hsame | ⟨out, hout⟩
    · rw [workOf_handling hsame]
      exact h.batch batch hsame x hx
    · rw [workOf_polled hout hbatch]
      exact .inr hx
  · rcases workOf_cases l.runner (l.runner.step batchSize a) l.work with hsame | ⟨_, hrecords⟩
    · exact h.sending x before sent outs todo (hsame.symm.trans hwork)
    · cases hrecords.symm.trans hwork

/-- A batch that is finished was handled; a loop that failed stops. -/
theorem Inv.handle {ok : Bool} (hwork : ok = true → l.work.left = []) :
    Inv cfg task { l with runner := l.runner.step batchSize (.handle ok), work := .idle } := by
  refine ⟨h.runner.step batchSize (.handle ok), h.sent, fun x hx => ?_, fun batch hbatch => ?_, nofun⟩
  · simp only [Runner.step] at hx
    split at hx
    · rename_i batch hphase
      split at hx
      · rename_i hok
        rcases mem_append.mp hx with hx | hx
        · exact h.handled x hx
        · refine (h.batch batch hphase x hx).resolve_right ?_
          rw [hwork hok]
          exact not_mem_nil
      · exact h.handled x hx
    · exact h.handled x hx
  · -- no batch is at hand after it
    simp only [Runner.step] at hbatch
    split at hbatch
    · split at hbatch <;> cases hbatch
    · rename_i hno
      exact absurd hbatch (hno batch)

theorem Inv.process : (l.step cfg task .process).Inv cfg task := by
  simp only [step]
  split
  · rename_i x todo hwork
    refine ⟨h.runner, h.sent, h.handled, fun batch hbatch y hy => ?_, fun x' before sent outs todo' heq => ?_⟩
    · have hleft := h.batch batch hbatch y hy
      rwa [hwork] at hleft
    · cases heq
      rfl
  · rename_i hwork
    exact h.handle fun _ => by rw [hwork]; rfl
  · exact h

theorem Inv.send (ok : Bool) : (l.step cfg task (.send ok)).Inv cfg task := by
  simp only [step]
  split
  · rename_i x before sent o outs todo hwork
    split
    · refine ⟨h.runner, h.sent, h.handled, fun batch hbatch y hy => ?_, fun x' before' sent' outs' todo' heq => ?_⟩
      · have hleft := h.batch batch hbatch y hy
        rwa [hwork] at hleft
      · cases heq
        have hsplit := h.sending x before sent (o :: outs) todo hwork
        rwa [← singleton_append, ← append_assoc] at hsplit
    · exact h.handle nofun
  · rename_i x before sent todo hwork
    -- the record is finished with all of its outputs
    refine ⟨h.runner, fun e he => ?_, fun y hy => ?_, fun batch hbatch y hy => ?_, nofun⟩
    · rcases mem_append.mp he with he | he
      · exact h.sent e he
      · cases mem_singleton.mp he
        have hall := h.sending x before sent [] todo hwork
        rwa [append_nil] at hall
    · obtain ⟨e, he, heq⟩ := h.handled y hy
      exact ⟨e, mem_append_left _ he, heq⟩
    · rcases h.batch batch hbatch y hy with ⟨e, he, heq⟩ | hleft
      · exact .inl ⟨e, mem_append_left _ he, heq⟩
      · rw [hwork] at hleft
        rcases mem_cons.mp hleft with rfl | hleft
        · exact .inl ⟨_, mem_append_right _ (mem_singleton_self _), rfl⟩
        · exact .inr hleft
  · exact h

theorem Inv.step (a : Action σ) : (l.step cfg task a).Inv cfg task := by
  cases a with
  | consumer a => exact h.consumer a
  | other s => exact ⟨h.runner, h.sent, h.handled, h.batch, h.sending⟩
  | process => exact h.process
  | send ok => exact h.send ok

end

def Commits (l : Loop σ) (a : Action σ) (p : PartitionRef) (o : Int) : Prop := ∃ ra, a = .consumer ra ∧ l.runner.Commits ra p o

/-- A commit is issued for a partition whose pump runs, with nothing of it below the commit in the pump's hand or the
    channel. -/
def Drained (l : Loop σ) (a : Action σ) : Prop := ∀ ra, a = .consumer ra → l.runner.Drained ra

/-- All that the partition's pump has received below a commit went through the operators, the table or the join, and all of
    its outputs were sent. -/
def CommitsProcessed (cfg : Config) (task : Task σ) (l : Loop σ) (a : Action σ) : Prop :=
  ∀ p o, l.Commits a p o → ∀ pump, l.runner.consumer.lastPump p = some pump → ∀ r ∈ pump.history, r.offset < o →
    ∃ e ∈ l.finished, e.polled = ⟨r, p⟩ ∧ e.sent = task.outputs cfg e.before e.polled

/-- In a plain task, as long as commits are issued only when nothing below them waits, no commit is past a record that is
    not processed. -/
theorem loop_commits_processed (cfg : Config) {task : Task σ} (plain : task.Plain) (shared : Shared σ) {run : List (Action σ)}
    (drained : Along (step cfg task) (start shared) run Drained) :
      Along (step cfg task) (start shared) run (CommitsProcessed cfg task) := by
  intro done a rest hrun p o hcommits pump hpump r hr hlt
  have hall : Along (step cfg task) (start shared) done fun _ _ => True := fun _ _ _ _ => trivial
  have hinv := hall.invariant (fun _ l => Inv cfg task l) (fun _ l a h _ => h.step a) (inv_start cfg task shared)
  obtain ⟨ra, rfl, hcommit⟩ := hcommits
  have hhandled := hinv.runner.commitsHandled (drained done _ rest hrun ra rfl) p o hcommit pump hpump r hr hlt
  obtain ⟨e, he, heq⟩ := hinv.handled _ hhandled
  exact ⟨e, he, heq, (hinv.sent e he).trans (plain.process cfg e.before e.polled)⟩

def plainConfig : Config := ⟨Record.timestamp, fun _ _ => []⟩

def copy : Task Unit := .pipeline [] (utf8 "copy")

def fresh : Loop Unit := start ⟨0, (), fun _ _ => none, .empty⟩

def pollBatch : List (Action Unit) := [.consumer .take, .consumer .polled]

def copyOne : List (Action Unit) := [.process, .send true, .send true, .process]

instance (l : Loop σ) : (a : Action σ) → Decidable (l.Drained a)
  | .consumer ra => decidable_of_iff (l.runner.Drained ra) ⟨fun h _ heq => Action.consumer.inj heq ▸ h, fun h => h ra rfl⟩
  | .other _ | .process | .send _ => .isTrue nofun

/-- The log has no record 1; record 2 is polled after the first commit. -/
def twoRounds : List (Action Unit) :=
  (.consumer Runner.subscribe :: (Runner.passOn (Runner.recordAt 0)).map .consumer) ++ pollBatch ++ copyOne ++
    .consumer (.commit 0 true) :: .consumer (.commit 0 true) :: (Runner.passOn (Runner.recordAt 2)).map .consumer ++
      pollBatch ++ copyOne ++
    [.consumer (.commit 0 true)]

theorem loop_commits_processed_gap : Along (step plainConfig copy) fresh twoRounds (CommitsProcessed plainConfig copy) :=
  @loop_commits_processed Unit plainConfig copy ⟨[], [], rfl, forall_mem_nil _, forall_mem_nil _⟩ _ _ (by decide +kernel)

/-- The pump receives the second record while the first is copied; the commit is past both. -/
theorem loop_commits_unprocessed :
    ¬ Along (step plainConfig copy) fresh
      ((.consumer Runner.subscribe :: (Runner.passOn (Runner.recordAt 0)).map .consumer) ++ pollBatch ++
      [.consumer (.pump 0 (.receive (Runner.recordAt 1))), .consumer (.pump 0 .note)] ++ copyOne ++
        [.consumer (.commit 0 true)])
      (CommitsProcessed plainConfig copy) := by
  intro h
  obtain ⟨e, he, hpolled, -⟩ := h.last ⟨utf8 "t", 0⟩ 2 ⟨_, rfl, [(⟨utf8 "t", 0⟩, 2)], 0, true, rfl, rfl,
    rfl⟩ _ rfl (Runner.recordAt 1) (mem_cons_of_mem _ mem_cons_self) (by decide)
  cases mem_singleton.mp he
  cases hpolled

end Loop

end Holocron.Streams

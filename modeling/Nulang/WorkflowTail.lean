import Nulang.ReplayIds

/-!
# The tail of a workflow's transitions

A native workflow turn admits its command and closes its step by transitions, and a transition must
extend the one before it. Signals, timers, internal turns and checkpoints are written the older way:
they take the next sequence number and leave the tail of the transitions where it is. One such write
after a transition therefore locks the workflow out of its own history: every later command is
refused. A workflow is never locked out exactly in the histories where those writes all come first
(`command_admitted_iff`).
-/

set_option autoImplicit false

namespace Nulang.Persist

open DurableTransition Runtime List Option Handler

/-- What happens to a native workflow. A turn is a command, the handler, the closing of the step and
the end of the turn. -/
inductive TailOp where
  | command (behaviorId : Nat) (payload : List Value)
  | handle (handler : Fields → Fields)
  | stepCompleted (activation : Option ActivationId) (stepName : String)
  | finish
  | signal (name : String) (payload : Option String)
  | timerSet (name : String) (durationMs : Nat)
  | timerFired (name : String)
  | timerTurn
  | checkpoint

namespace TailOp

def routine (prog : Program) : TailOp → Routine Unit
  | .command behaviorId payload => do
    let _ ← commitWorkflowCommand behaviorId payload
    pure ()
  | .handle handler =>
    Handler.remember (modifyActor fun a => { a with stateData := handler a.stateData })
  | .stepCompleted activation stepName => commitStepCompleted prog activation stepName
  | .finish => finishTurn
  | .signal name payload => signalWorkflow prog name payload
  | .timerSet name durationMs => scheduleWorkflowTimer prog name durationMs
  | .timerFired name => appendTimerFired prog name
  | .timerTurn => timerFiredTurn prog ⟨prog.steps.length, []⟩
  | .checkpoint => tryCheckpointActor prog

/-- It commits a transition. -/
def isCommit : TailOp → Bool
  | .command .. => true
  | .stepCompleted .. => true
  | _ => false

/-- It writes outside of the transitions. -/
def isLegacy : TailOp → Bool
  | .signal .. => true
  | .timerSet .. => true
  | .timerFired .. => true
  | .timerTurn => true
  | .checkpoint => true
  | _ => false

end TailOp

/-- A new workflow after a history; an operation that is refused changes nothing and is passed
over. -/
def tailRun (prog : Program) (f : Fields) (ops : List TailOp) : Runtime :=
  ops.foldl (fun rt op => rt.after (op.routine prog) none) (spawnWorkflow prog f)

/-- No transition yet, the transitions at the end of the history, or left behind. -/
inductive Phase where
  | fresh
  | tailed
  | locked
deriving DecidableEq

namespace Phase

def step (φ : Phase) (op : TailOp) : Phase :=
  if op.isCommit then
    match φ with
    | .locked => .locked
    | _ => .tailed
  else if op.isLegacy then
    match φ with
    | .fresh => .fresh
    | _ => .locked
  else φ

/-- The phase of a store. -/
inductive Of (s : MemoryStore) : Phase → Prop where
  | fresh (h : s.durableTail = none) : Of s .fresh
  | tailed {tail : DurableTail} (h : s.durableTail = some tail)
      (hq : tail.sequence = s.latestSequence) :
    Of s .tailed
  | locked {tail : DurableTail} (h : s.durableTail = some tail)
      (hq : tail.sequence < s.latestSequence) :
    Of s .locked

end Phase

variable (ops : List TailOp)

theorem foldl_locked : ops.foldl Phase.step .locked = .locked := by
  induction ops with
  | nil => rfl
  | cons op ops ih =>
    rw [foldl_cons]
    have hstep : Phase.step .locked op = .locked := by
      unfold Phase.step
      split_ifs with hc hl
      · rfl
      · rfl
      · rfl
    rw [hstep, ih]

/-- Once there is a transition, the next write outside of the transitions locks. -/
theorem foldl_tailed : ops.foldl Phase.step .tailed = .locked ↔ ∃ op ∈ ops, op.isLegacy = true := by
  induction ops with
  | nil => simp
  | cons op ops ih =>
    rw [foldl_cons]
    cases hl : op.isLegacy with
    | true =>
      have hc : op.isCommit = false := by
        cases op
        all_goals first
          | rfl
          | cases hl
      simp [Phase.step, hc, hl, foldl_locked]
    | false =>
      have hstep : Phase.step .tailed op = .tailed := by
        unfold Phase.step
        simp [hl]
      rw [hstep, ih]
      simp [hl]

/-- A history locks exactly if something is written outside of the transitions after one of them. -/
theorem foldl_fresh : ops.foldl Phase.step .fresh = .locked ↔
      ¬ ops.Pairwise fun x y => x.isCommit = true → y.isLegacy = false := by
  induction ops with
  | nil => simp
  | cons op ops ih =>
    rw [foldl_cons, pairwise_cons]
    cases hc : op.isCommit with
    | true =>
      have hstep : Phase.step .fresh op = .tailed := by simp [Phase.step, hc]
      rw [hstep, foldl_tailed]
      constructor
      · rintro ⟨y, hy, hl⟩ ⟨hall, _⟩
        rw [hall y hy rfl] at hl
        cases hl
      · intro hnot
        by_contra hnone
        have hquiet : ∀ y ∈ ops, y.isLegacy = false := fun y hy => by
          rw [← Bool.not_eq_true]
          exact fun hl => hnone ⟨y, hy, hl⟩
        exact hnot ⟨fun y hy _ => hquiet y hy, pairwise_of_forall_mem_list fun x _ y hy _ =>
          hquiet y hy⟩
    | false =>
      have hstep : Phase.step .fresh op = .fresh := by
        unfold Phase.step
        simp [hc]
      rw [hstep, ih]
      simp

/-- Written outside of the transitions. -/
structure Legacy (s t : MemoryStore) : Prop where
  tail : t.durableTail = s.durableTail
  latest : s.latestSequence < t.latestSequence

variable {s : MemoryStore} {op : TailOp} {φ : Phase} {rt rt' : Runtime} {t : DurableTransition}

theorem Legacy.trans {t u : MemoryStore} (h : Legacy s t) (g : Legacy t u) : Legacy s u :=
  ⟨g.tail.trans h.tail, Nat.lt_trans h.latest g.latest⟩

theorem TailOp.isCommit_of_isLegacy (h : op.isLegacy = true) : op.isCommit = false := by
  cases op
  all_goals first
    | rfl
    | cases h

theorem Phase.Of.legacy {t : MemoryStore} (h : Phase.Of s φ) (hl : Legacy s t)
    (hop : op.isLegacy = true) : Phase.Of t (φ.step op) := by
  unfold Phase.step
  rw [TailOp.isCommit_of_isLegacy hop, hop]
  cases h with
  | fresh h => exact .fresh (hl.tail.trans h)
  | tailed h hq => exact .locked (hl.tail.trans h) (hq ▸ hl.latest)
  | locked h hq => exact .locked (hl.tail.trans h) (Nat.lt_trans hq hl.latest)

/-! ## Operations outside of the transitions -/

/-- A runtime whose history is in order. -/
def Runtime.Orderly (rt : Runtime) : Prop := ∃ a, rt.actor = some a ∧ Persist.Orderly rt.store a

theorem Runtime.Orderly.isSome (h : rt.Orderly) : rt.actor.isSome := by
  obtain ⟨a, ha, _⟩ := h
  rw [ha]
  rfl

theorem Runtime.Orderly.modify {a : Actor} (ha : rt.actor = some a) {f : Actor → Actor}
    (h : Persist.Orderly rt.store (f a)) : (rt.modifyActor f).Orderly :=
  ⟨f a, by simp only [modifyActor, ha, map_some], h⟩

/-- After an operation outside of the transitions: still in order, and only written to the older
way. -/
def Aside (rt rt' : Runtime) : Prop := rt'.Orderly ∧ Legacy rt.store rt'.store

theorem Aside.trans {rt'' : Runtime} (h : Aside rt rt') (g : Aside rt' rt'') : Aside rt rt'' :=
  ⟨g.1, h.2.trans g.2⟩

theorem Aside.modifyActor (h : Aside rt rt') {f : Actor → Actor}
    (hf : ∀ a, Persist.Orderly rt'.store a → Persist.Orderly rt'.store (f a)) :
    Aside rt (rt'.modifyActor f) := by
  obtain ⟨⟨a, ha, ho⟩, hl⟩ := h
  exact ⟨.modify ha (hf a ho), hl⟩

variable (prog : Program)

theorem aside_checkpointed (h : rt.Orderly) : Aside rt (rt.checkpointed prog) := by
  obtain ⟨a, ha, ho⟩ := h
  have hlt : rt.store.latestSequence <
      (rt.store.saveSnapshot (a.snapshotAt prog rt.nextSequence)).latestSequence :=
    Nat.lt_of_lt_of_eq (Nat.lt_succ_self _) (MemoryStore.latestSequence_saveSnapshot rfl).symm
  have hsaved : Persist.Orderly (rt.store.saveSnapshot (a.snapshotAt prog rt.nextSequence)) a :=
    ho.store rfl rfl (Nat.le_of_lt hlt)
  unfold Aside Runtime.Orderly Runtime.checkpointed
  simp only [ha]
  exact ⟨⟨_, rfl, hsaved.memory rfl rfl rfl rfl rfl⟩, ⟨rfl, hlt⟩⟩

theorem legacy_appended (rt : Runtime) (event : Nat → WorkflowEvent)
    (hq : ∀ n, (event n).sequence = n) :
    Legacy rt.store (rt.appended event).store := by
  have hlatest : (rt.appended event).store.latestSequence = rt.store.latestSequence + 1 :=
    MemoryStore.latestSequence_appendWorkflowEvent (hq _)
  exact ⟨rfl, Nat.lt_of_lt_of_eq (Nat.lt_succ_self _) hlatest.symm⟩

theorem aside_appended (h : rt.Orderly) {event : Nat → WorkflowEvent}
    (hq : ∀ n, (event n).sequence = n) (hid : ∀ n, (event n).replayId = none) :
    Aside rt (rt.appended event) := by
  obtain ⟨a, ha, ho⟩ := h
  exact ⟨⟨a, ha, ho.append (hq _) (hid _)⟩, legacy_appended rt event hq⟩

section Operations

variable (prog : Program) {p : Process Runtime Effect} {K : Process Runtime Effect → Prop}
  {E : IoError → Process Runtime Effect → Prop}

theorem ends_aside {Q : Unit → Process Runtime Effect → Prop} (hw : p.writes = none)
    (h : p.state.Orderly) (event : Nat → WorkflowEvent) (hq : ∀ n, (event n).sequence = n)
    (hid : ∀ n, (event n).replayId = none) (hQ : ∀ q, Aside p.state q.state → Q () q) :
    (appendCheckpointed prog event).Ends p K E Q := by
  rw [ends_appendCheckpointed event h.isSome]
  simp only [hw, reduceCtorEq, if_false]
  exact hQ _ ((aside_appended h hq hid).trans (aside_checkpointed prog (aside_appended h hq hid).1))

theorem signal_aside (hw : p.writes = none) (h : p.state.Orderly) (name : String)
    (payload : Option String) :
    (signalWorkflow prog name payload).Ends p K E fun _ q => Aside p.state q.state := by
  unfold signalWorkflow
  rw [ends_bind]
  refine ends_aside prog hw h _ (fun _ => rfl) (fun _ => rfl) fun q hs => ?_
  have hs' :=
    hs.modifyActor
      (f := fun a => { a with receivedSignals := a.receivedSignals ++ [(name, payload)] })
      fun a ho => ho.memory rfl rfl rfl rfl rfl
  simp only [deliverSignal, ends_bind, ends_remember, ends_read, ends_when]
  split_ifs with hwait
  · -- the actor is not suspended, so there is nothing to resume
    obtain ⟨a, ha, ho⟩ := hs'.1
    simp only [resumeSuspendedWorkflowStep, ends_bind, ends_read, Process.state_changed, ha,
      bind_some, ho.awake, ends_pure]
    exact hs'
  · exact hs'

theorem timerSet_aside (hw : p.writes = none) (h : p.state.Orderly) (name : String)
    (durationMs : Nat) :
    (appendTimerSet prog name durationMs).Ends p K E fun _ q => Aside p.state q.state := by
  obtain ⟨a, ha, ho⟩ := id h
  cases hc : a.currentWorkflowActivation with
  | none =>
    have hends := ends_aside (K := K) (E := E) (Q := fun _ q => Aside p.state q.state) prog hw h
      (fun n => .timerSet n none name durationMs) (fun _ => rfl) (fun _ => rfl) fun q hs => hs
    unfold appendCheckpointed at hends
    simp only [ends_bind, ends_read] at hends
    unfold appendTimerSet currentWorkflowReplayId
    simp only [ends_bind, ends_read, ha, hc, ends_pure]
    exact hends
  | some activation =>
    rw [ends_appendTimerSet ha ho.toUnreplayed hc, if_neg (by simp [hw])]
    refine ⟨⟨_, ?_, Orderly.identified ha ho hc (fun _ _ => rfl) fun _ _ => rfl⟩, ?_⟩
    · simp only [Process.state_wrote, identified, ha]
    · have hlegacy := legacy_appended p.state (fun n => .timerSet n
        (some (a.nextReplayId activation)) name durationMs) fun _ => rfl
      simp only [Process.state_wrote, identified, ha]
      exact hlegacy

theorem schedule_aside (hw : p.writes = none) (h : p.state.Orderly) (name : String)
    (durationMs : Nat) :
    (scheduleWorkflowTimer prog name durationMs).Ends p K E fun _ q => Aside p.state q.state := by
  unfold scheduleWorkflowTimer
  rw [ends_bind]
  refine ends_mono (timerSet_aside (K := K) (E := E) prog hw h name durationMs) (fun q hq => hq)
    (fun e q hq => hq) fun arm q hq => ?_
  rw [ends_when]
  split_ifs with harm
  · exact hq
  · exact hq

theorem timerTurn_aside (hw : p.writes = none) (h : p.state.Orderly) (msg : Message) :
    (timerFiredTurn prog msg).Ends p K E fun _ q => Aside p.state q.state := by
  obtain ⟨a, ha, ho⟩ := id h
  have hlatest :
      (p.state.store.appendJournal
        ⟨p.state.nextSequence, msg.behaviorId, msg.payload⟩).latestSequence
      = p.state.store.latestSequence + 1 := MemoryStore.latestSequence_appendJournal rfl
  have hlegacy : Legacy p.state.store
      (p.state.store.appendJournal ⟨p.state.nextSequence, msg.behaviorId, msg.payload⟩) :=
    ⟨rfl, Nat.lt_of_lt_of_eq (Nat.lt_succ_self _) hlatest.symm⟩
  -- after the journal entry, whether or not it opened an activation
  have hrest (q : Process Runtime Effect) (hq : q.writes = none) (hs : Aside p.state q.state) :
      (tryCheckpointActor prog >>= fun _ => finishTurn).Ends q K E fun _ r =>
        Aside p.state r.state := by
    rw [ends_bind, ends_checkpoint prog hs.1.isSome, if_neg (by simp [hq])]
    exact (hs.trans (aside_checkpointed prog hs.1)).modifyActor fun _ hb => hb.finished
  unfold timerFiredTurn admitCommand
  simp only [ends_bind, ends_read]
  rw [ends_write_of_none hw]
  split_ifs with hwf
  · simp only [ends_bind, ends_remember, ends_pure]
    rw [← ends_bind]
    have hopen :
        Persist.Orderly
        (p.state.store.appendJournal ⟨p.state.nextSequence, msg.behaviorId, msg.payload⟩)
        { a with currentWorkflowActivation := some ⟨p.state.nextSequence⟩ } :=
          ho.activated rfl ho.tailEpoch hlatest
    refine hrest _ (by simp [hw]) ⟨⟨_, ?_, hopen.advance⟩, hlegacy⟩
    simp only [Process.state_changed, Process.state_wrote, modifyActor, modifyStore, ha, map_some]
  · simp only [ends_pure, ends_remember]
    rw [← ends_bind]
    have hjournaled : Persist.Orderly
        (p.state.store.appendJournal ⟨p.state.nextSequence, msg.behaviorId, msg.payload⟩) a :=
      ho.store rfl rfl (Nat.le_of_lt hlegacy.latest)
    refine hrest _ (by simp [hw]) ⟨⟨_, ?_, hjournaled.advance⟩, hlegacy⟩
    simp only [Process.state_changed, Process.state_wrote, modifyActor, modifyStore, ha, map_some]

end Operations

/-! ### Transitions -/

/-- A transition that follows the latest sequence number is accepted unless the tail is left
behind. -/
theorem commitTransition_of_phase (h : Phase.Of s φ) (hv : t.validateStructure = .ok ())
    (hn : Numbered s t) (hp : t.expectedPreviousSequence = s.latestSequence)
    (hepoch : ∀ tail ∈ s.durableTail, tail.activationEpoch = t.activationEpoch) :
    if φ = .locked then ∃ e, s.commitTransition t = .error e
      else s.commitTransition t = .ok (s.install t) := by
  have hseq := hn.transition
  unfold MemoryStore.commitTransition
  rw [hv]
  simp only [bind, Except.bind]
  cases h with
  | fresh h =>
    have hlegacy : s.latestSequence = s.legacyTail := by
      unfold MemoryStore.latestSequence
      simp [h]
    simp [h, hp, hlegacy, pure, Except.pure]
  | tailed h hq =>
    have hte := hepoch _ h
    simp [h, hp, hte, hseq, hq, pure, Except.pure]
  | @locked tail h hq =>
    have hte := hepoch _ h
    have hne : ¬ (s.latestSequence + 1 = tail.sequence) := fun he => by omega
    have hne' : ¬ (s.latestSequence = tail.sequence) := fun he => by omega
    simp [h, hp, hte, hseq, hne, hne', throw, throwThe, MonadExceptOf.throw]

theorem Orderly.install {a : Actor} (h : Orderly s a) (hn : Numbered s t)
    (ht : t.activationEpoch = a.activationEpoch) (he : ∀ e ∈ t.workflowEvents, e.replayId = none) :
    Orderly (s.install t) a where
  epoch := h.epoch
  tailEpoch tail hm := by
    cases hm
    exact ht
  awake := h.awake
  current id hid := by
    rw [latestSequence_install hn]
    exact Nat.le_succ_of_le (h.current id hid)
  admitted e hm id hid := by
    rw [latestSequence_install hn]
    rcases mem_append.mp hm with hm | hm
    · exact Nat.le_succ_of_le (h.admitted e hm id hid)
    · rw [he e hm] at hid
      cases hid
  unreplayed e hm id hid := by
    rcases mem_append.mp hm with hm | hm
    · exact h.unreplayed e hm id hid
    · rw [he e hm] at hid
      cases hid

theorem Phase.Of.install (hn : Numbered s t) : Phase.Of (s.install t) .tailed :=
  .tailed rfl (hn.transition.trans (latestSequence_install hn).symm)

/-- How an operation goes on from a phase: in order, and in the phase that follows. -/
def Follows (φ : Phase) (op : TailOp) (rt : Runtime) : Prop :=
  rt.Orderly ∧ Phase.Of rt.store (φ.step op)

section Commits

variable {p : Process Runtime Effect} {K : Process Runtime Effect → Prop}

theorem ends_commit {a : Actor} (hw : p.writes = none) (ho : Persist.Orderly p.state.store a)
    (h : Phase.Of p.state.store φ) {t : DurableTransition} (hv : t.validateStructure = .ok ())
    (hn : Numbered p.state.store t) (hp : t.expectedPreviousSequence = p.state.store.latestSequence)
    (ht : t.activationEpoch = a.activationEpoch) {E : IoError → Process Runtime Effect → Prop}
    {Q : Unit → Process Runtime Effect → Prop} (hE : φ = .locked → ∀ e, E e p)
    (hQ : φ ≠ .locked → Q () (p.wrote fun rt => { rt with store := p.state.store.install t })) :
    (commitTransition t).Ends p K E Q := by
  have hcommit := commitTransition_of_phase h hv hn hp fun tail hm =>
    (ho.tailEpoch tail hm).trans ht.symm
  unfold commitTransition
  rw [ends_bind, ends_read]
  split_ifs at hcommit with hφ
  · obtain ⟨e, he⟩ := hcommit
    rw [he]
    exact hE hφ e
  · rw [hcommit]
    dsimp only
    rw [ends_write_of_none hw]
    exact hQ hφ

theorem step_locked_of_isCommit (hop : op.isCommit = true) : Phase.step .locked op = .locked := by
  simp [Phase.step, hop]

theorem step_of_isCommit (hop : op.isCommit = true) (hφ : φ ≠ .locked) : φ.step op = .tailed := by
  cases φ with
  | fresh | tailed => simp [Phase.step, hop]
  | locked => exact absurd rfl hφ

/-- A transition that is refused changes nothing. -/
theorem follows_locked {rt : Runtime} (h : rt.Orderly) (hφ : Phase.Of rt.store φ)
    (hlocked : φ = .locked) (hop : op.isCommit = true) : Follows φ op rt := by
  subst hlocked
  refine ⟨h, ?_⟩
  rw [step_locked_of_isCommit hop]
  exact hφ

/-- The command of a turn is admitted unless the history is locked, and then opens its
activation. -/
theorem ends_command (hw : p.writes = none) (h : p.state.Orderly) (hφ : Phase.Of p.state.store φ)
    (behaviorId : Nat) (payload : List Value) : (commitWorkflowCommand behaviorId payload).Ends p K
      (fun _ q => φ = .locked ∧ Follows φ (.command behaviorId payload) q.state)
      fun _ q => φ ≠ .locked ∧ Follows φ (.command behaviorId payload) q.state := by
  obtain ⟨a, ha, ho⟩ := id h
  unfold commitWorkflowCommand
  rw [ends_bind, ends_read, ha, ends_bind, ends_expect_some, ends_bind]
  refine ends_commit hw ho hφ ?_ (numbered_command _ a behaviorId payload) rfl rfl ?_ ?_
  · simp [validateStructure, validateParts, validateEvents,
      commandTransition, ho.epoch, nextSequence, pure, Except.pure, bind, Except.bind]
  · intro hlocked e
    exact ⟨hlocked, follows_locked h hφ hlocked rfl⟩
  · intro hopen
    have hn := numbered_command p.state a behaviorId payload
    simp only [Follows, ends_bind, ends_remember, ends_pure, Process.state_changed]
    refine ⟨hopen, Runtime.Orderly.modify (a := a) ?_ ?_, ?_⟩
    · exact ha
    · have hactivated :
          Persist.Orderly (p.state.store.install (commandTransition p.state a behaviorId payload))
          { a with currentWorkflowActivation := some ⟨p.state.nextSequence⟩ } := by
        refine ho.activated (append_nil _) (fun tail hm => ?_) (latestSequence_install hn)
        cases hm
        rfl
      exact hactivated.memory rfl rfl rfl rfl rfl
    · rw [step_of_isCommit rfl hopen]
      exact .install hn

/-- The step of a turn is closed unless the history is locked. -/
theorem ends_step (prog : Program) (hw : p.writes = none) (h : p.state.Orderly)
    (hφ : Phase.Of p.state.store φ) (activation : Option ActivationId) (stepName : String) :
    (commitStepCompleted prog activation stepName).Ends p K
      (fun _ q => Follows φ (.stepCompleted activation stepName) q.state)
      fun _ q => Follows φ (.stepCompleted activation stepName) q.state := by
  obtain ⟨a, ha, ho⟩ := id h
  unfold commitStepCompleted
  rw [ends_bind, ends_read, ha, ends_bind, ends_expect_some, ends_bind]
  have hn := numbered_step prog p.state a activation stepName
  refine ends_commit hw ho hφ ?_ hn rfl rfl ?_ ?_
  · simp [validateStructure, validateParts, validateEvents,
      stepTransition, Actor.snapshotAt, WorkflowEvent.sequence, ho.epoch, nextSequence, pure,
      Except.pure,
      bind, Except.bind]
  · intro hlocked e
    exact follows_locked h hφ hlocked rfl
  · intro hopen
    simp only [Follows, ends_remember, Process.state_changed]
    refine ⟨Runtime.Orderly.modify (a := a) ?_ ?_, ?_⟩
    · exact ha
    · have hsaved :
          Persist.Orderly
          (p.state.store.install (stepTransition prog p.state a activation stepName)) a := by
        refine ho.install hn rfl fun e he => ?_
        rw [mem_singleton.mp he]
        rfl
      exact hsaved.memory rfl rfl rfl rfl rfl
    · rw [step_of_isCommit rfl hopen]
      exact .install hn

end Commits

theorem Aside.follows (h : Aside rt rt') (hφ : Phase.Of rt.store φ) (hop : op.isLegacy = true) :
    Follows φ op rt' :=
  ⟨h.1, hφ.legacy h.2 hop⟩

/-- What one operation does to the phase. -/
theorem follows_after (h : rt.Orderly) (hφ : Phase.Of rt.store φ) (op : TailOp) :
    Follows φ op (rt.after (op.routine prog) none) := by
  suffices hends : (op.routine prog).Ends ⟨rt, [], none⟩ (fun q => Follows φ op q.state)
      (fun _ q => Follows φ op q.state) (fun _ q => Follows φ op q.state) from ends_all.mp hends
  have hlegacy {x : Routine Unit} (hop : op.isLegacy = true)
      (hx : x.Ends ⟨rt, [], none⟩ (fun q => Follows φ op q.state) (fun _ q => Follows φ op q.state)
        fun _ q => Aside rt q.state) :
      x.Ends ⟨rt, [], none⟩ (fun q => Follows φ op q.state) (fun _ q => Follows φ op q.state)
        fun _ q => Follows φ op q.state :=
    ends_imp hx fun _ _ hq => hq.follows hφ hop
  cases op with
  | command behaviorId payload =>
    show (commitWorkflowCommand behaviorId payload >>= fun _ => pure ()).Ends _ _ _ _
    rw [ends_bind]
    exact ends_mono (ends_command (p := ⟨rt, [], none⟩) rfl h hφ behaviorId payload)
      (fun _ hq => hq)
      (fun _ _ hq => hq.2) fun _ _ hq => hq.2
  | handle handler =>
    obtain ⟨a, ha, ho⟩ := h
    exact ⟨.modify ha (ho.memory rfl rfl rfl rfl rfl), hφ⟩
  | stepCompleted activation stepName => exact ends_step prog rfl h hφ activation stepName
  | finish =>
    obtain ⟨a, ha, ho⟩ := h
    exact ⟨.modify ha ho.finished, hφ⟩
  | signal name payload => exact hlegacy rfl (signal_aside prog rfl h name payload)
  | timerSet name durationMs => exact hlegacy rfl (schedule_aside prog rfl h name durationMs)
  | timerFired name =>
    refine hlegacy rfl ?_
    exact ends_aside prog rfl h (fun seq => .timerFired seq name) (fun _ => rfl) (fun _ => rfl)
      fun _ hq => hq
  | timerTurn => exact hlegacy rfl (timerTurn_aside prog rfl h _)
  | checkpoint =>
    refine hlegacy rfl ?_
    show (tryCheckpointActor prog).Ends _ _ _ _
    rw [ends_checkpoint prog h.isSome, if_neg (by simp)]
    exact aside_checkpointed prog h

theorem orderly_spawnWorkflow (f : Fields) : (spawnWorkflow prog f).Orderly := by
  refine ⟨_, rfl, ⟨⟨rfl, fun id hm => ?_, fun e he id hid => ?_, fun e he id hid => ?_⟩,
    Nat.one_ne_zero, fun tail hm => ?_⟩⟩
  · cases hm
  · rw [mem_singleton.mp he] at hid
    cases hid
  · rw [mem_singleton.mp he] at hid
    cases hid
  · cases hm

theorem tailRun_phase (f : Fields) (ops : List TailOp) :
    (tailRun prog f ops).Orderly ∧
    Phase.Of (tailRun prog f ops).store (ops.foldl Phase.step .fresh) := by
  suffices h : ∀ (rt : Runtime) φ, rt.Orderly → Phase.Of rt.store φ →
      (ops.foldl (fun rt op => rt.after (op.routine prog) none) rt).Orderly ∧
        Phase.Of (ops.foldl (fun rt op => rt.after (op.routine prog) none) rt).store
        (ops.foldl Phase.step φ) from
    h _ .fresh (orderly_spawnWorkflow prog f) (.fresh rfl)
  induction ops with
  | nil => exact fun rt φ h hφ => ⟨h, hφ⟩
  | cons op ops ih =>
    intro rt φ h hφ
    obtain ⟨h', hφ'⟩ := follows_after prog h hφ op
    exact ih _ _ h' hφ'

/-- The next command of a workflow is admitted exactly if nothing was written outside of the
transitions after one of them. -/
theorem command_admitted_iff (prog : Program) (f : Fields) (ops : List TailOp) (behaviorId : Nat)
    (payload : List Value) :
    (∃ id, ((commitWorkflowCommand behaviorId payload).exec
      ⟨tailRun prog f ops, [], none⟩).1 = .ok id) ↔
      ops.Pairwise fun x y => x.isCommit = true → y.isLegacy = false := by
  obtain ⟨h, hφ⟩ := tailRun_phase prog f ops
  have hends := ends_command (K := fun _ => False) (p := ⟨tailRun prog f ops, [], none⟩) rfl h hφ
    behaviorId payload
  have hlocked := foldl_fresh ops
  unfold Handler.Ends at hends
  revert hends
  rcases (commitWorkflowCommand behaviorId payload).exec ⟨tailRun prog f ops, [], none⟩ with
    ⟨(_ | e) | id, q⟩
  · exact False.elim
  · rintro ⟨hl, _⟩
    simp [hlocked.mp hl]
  · rintro ⟨hn, _⟩
    have hp : ops.Pairwise fun x y => x.isCommit = true → y.isLegacy = false := by
      by_contra hnot
      exact hn (hlocked.mpr hnot)
    simp [hp]

/-- One finished turn, one signal, and the workflow accepts no command any more. -/
theorem signal_locks_out :
    ¬ ∃ id, ((commitWorkflowCommand 0 []).exec ⟨tailRun idleWorkflow Fields.empty
      [.command 0 [], .stepCompleted (some ⟨3⟩) "step", .finish, .signal "go" none],
      [], none⟩).1 = .ok id := by
  rintro ⟨id, hid⟩
  cases hid

end Nulang.Persist

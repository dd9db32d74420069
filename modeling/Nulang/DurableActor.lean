import Mathlib.Algebra.Group.Nat.Defs
import Nulang.Lib.Handler
import Nulang.Persistence

/-!
# Durable actors at run time

The functions of `runtime/workflow_impl.rs` and of `runtime/mod.rs` that run a persistent actor,
write to its store and rebuild it from there: checkpoints, events, timers, signals, saga
compensation, the turn of `step_actor` and `recover_actor`. They are handlers: each write to the
store is a place where the process can be killed, and what is kept in memory is then gone.

The code of a behaviour is a `Body`: what it does next, given the fields it has read. Message
passing between actors is left out; a message for this actor comes from outside.
-/

set_option autoImplicit false

namespace Nulang.Persist

open WorkflowEvent Handler

/-- Compiled code, as far as it touches the durable state of its actor. -/
inductive Body where
  | finish
  | fail (error : String)
  | observe (k : Fields → Body)
  | assign (field : String) (value : Value) (k : Body)
  | emit (event : String) (args : List Value) (k : Body)
  | timer (name : String) (durationMs : Nat) (k : Body)
  | wait (signal : String) (k : Body)

namespace Body

def andThen : Body → Body → Body
  | .finish, next => next
  | .fail e, _ => .fail e
  | .observe k, next => .observe fun f => (k f).andThen next
  | .assign x v k, next => .assign x v (k.andThen next)
  | .emit e args k, next => .emit e args (k.andThen next)
  | .timer n d k, next => .timer n d (k.andThen next)
  | .wait s k, next => .wait s (k.andThen next)

end Body

/-- A branch of a `parallel` block. Its compensation is in that of the step. -/
structure Branch where
  name : String
  body : Body

/-- The branches run one after the other, each if the progress counter has not passed it, and each
records its end; then the counter is reset. -/
def parallelBody (name : String) : Nat → List Branch → Body
  | _, [] => .assign "parallel_progress" (.int 0) .finish
  | i, b :: bs => .observe fun f =>
      if (f.int? "parallel_progress").any fun n => n.slt (BitVec.ofNat 48 (i + 1)) then
        b.body.andThen <| .emit "ParallelBranchCompleted" [.string name, .string b.name] <|
          parallelBody name (i + 1) bs
      else parallelBody name (i + 1) bs

/-- What runs when a message arrives: compiled code, or a handler registered by the host. -/
inductive Code where
  | sequential (body : List Value → Body)
  | parallel (branches : List Branch)
  | native (handler : List Value → Fields → Fields)

structure Step where
  name : String
  code : Code
  compensate : Option Body

/-- What the compiler and the host have registered for an actor. -/
structure Program where
  isWorkflow : Bool
  models : List (String × StateModel)
  models_nodup : (models.map Prod.fst).Nodup
  defaults : List (String × Value)
  steps : List Step

namespace Program

def persisted (prog : Program) (f : Fields) : List (String × Value) :=
  prog.models.filterMap fun m => if m.2 = .durable then (f m.1).map (m.1, ·) else none

def eventSourced (prog : Program) : List String :=
  prog.models.filterMap fun m => if m.2 = .eventSourced then some m.1 else none

/-- `step_name_for`. -/
def stepNameFor (prog : Program) (idx : Nat) : String :=
  match prog.steps[idx]? with
  | some step => step.name
  | none => if idx = prog.steps.length then "__timer_fired" else s!"step_{idx}"

end Program

/-- The workflow with no fields and no steps of its own. -/
def idleWorkflow : Program := ⟨true, [], List.nodup_nil, [], []⟩

structure Message where
  behaviorId : Nat
  payload : List Value
deriving DecidableEq

/-- A step that is waiting: what is left of it, and whose step it is. -/
structure SuspendedExecution where
  rest : Body
  behaviorIdx : Nat
  activation : Option ActivationId
  stepName : String

structure Actor where
  stateData : Fields
  activationEpoch : Nat
  sequence : Nat
  waitingSignal : Option String
  suspendedExecution : Option SuspendedExecution
  receivedSignals : List (String × Option String)
  compensatedSteps : List String
  currentWorkflowActivation : Option ActivationId
  workflowReplayActivation : Option ActivationId
  workflowReplayEventOrdinal : Nat
  mailbox : List Message

namespace Actor

def setField (a : Actor) (name : String) (v : Value) : Actor :=
  { a with stateData := a.stateData.set name v }

/-- Add one to `step_index`. -/
def advance (a : Actor) : Actor := { a with stateData := a.stateData.bump "step_index" }

/-- `build_actor_snapshot_at_sequence`. -/
def snapshotAt (a : Actor) (prog : Program) (sequence : Nat) : ActorSnapshot :=
  ⟨sequence, a.activationEpoch, prog.persisted a.stateData, a.waitingSignal⟩

/-- The replay identities of an activation start at its first event. -/
def alignReplay (a : Actor) (activation : ActivationId) : Actor :=
  if a.workflowReplayActivation = some activation then a
  else { a with workflowReplayActivation := some activation, workflowReplayEventOrdinal := 0 }

/-- `advance_workflow_replay_id`. -/
def advanceReplay (a : Actor) (committed : ReplayEventId) : Actor :=
  if a.workflowReplayActivation = some committed.activation ∧ a.workflowReplayEventOrdinal
    = committed.ordinal then
    { a with workflowReplayEventOrdinal := a.workflowReplayEventOrdinal + 1 }
  else a

/-- `wait_signal`. -/
def signalReady (a : Actor) (name : String) : Bool := a.receivedSignals.any fun s => s.1 = name

/-- `apply_workflow_event`. -/
def applyWorkflowEvent (a : Actor) : WorkflowEvent → Actor
  | .workflowStarted _ =>
    if (a.stateData "step_index").isSome then a.setField "step_index" (.int 0) else a
  | .stepCompleted _ _ _ => a.advance.setField "parallel_progress" (.int 0)
  | .sagaCompensated _ stepName =>
    if stepName ∈ a.compensatedSteps then a
    else { a with compensatedSteps := a.compensatedSteps ++ [stepName] }
  | .signalReceived _ name payload =>
    { a with receivedSignals := a.receivedSignals ++ [(name, payload)] }
  | .parallelBranchCompleted _ _ _ =>
    a.setField "parallel_progress" (.int ((a.stateData.int? "parallel_progress").getD 0 + 1))
  | .timerSet .. | .timerFired .. | .stepFailed .. | .custom .. => a

/-- An event is replayed and its sequence number taken over. -/
def replay (a : Actor) (event : WorkflowEvent) : Actor :=
  { a.applyWorkflowEvent event with sequence := event.sequence }

end Actor

/-! ## The runtime of one actor -/

structure Timer where
  name : String
  durationMs : Nat
deriving DecidableEq

/-- The store, the actor while it lives, and the timers armed for it. -/
structure Runtime where
  store : MemoryStore
  actor : Option Actor
  timers : List Timer

/-- What the outside sees: the compensation of a step being run, when so many steps had been
recorded as compensated. -/
inductive Effect where
  | compensate (behaviorIdx : Nat) (recorded : List String)
deriving DecidableEq

abbrev Routine (α : Type) : Type := Handler IoError Runtime Effect α

namespace Runtime

def nextSequence (rt : Runtime) : Nat := rt.store.latestSequence + 1

def modifyActor (f : Actor → Actor) (rt : Runtime) : Runtime := { rt with actor := rt.actor.map f }

def modifyStore (f : MemoryStore → MemoryStore) (rt : Runtime) : Runtime :=
  { rt with store := f rt.store }

def fields (rt : Runtime) : Fields := (rt.actor.map Actor.stateData).getD Fields.empty

def signalReady (rt : Runtime) (name : String) : Bool := rt.actor.any fun a => a.signalReady name

/-- `step_index`, read as a `usize`. -/
def stepIndex (rt : Runtime) : Nat :=
  ((rt.fields.int? "step_index").getD 0 |>.signExtend 64).toNat

end Runtime

def saveCheckpoint (snapshot : ActorSnapshot) : Routine Unit := do
  write (Runtime.modifyStore (·.saveSnapshot snapshot))
  remember (Runtime.modifyActor fun a => { a with sequence := snapshot.sequence })

/-- `try_checkpoint_actor`. -/
def tryCheckpointActor (prog : Program) : Routine Unit := do
  let rt ← read
  match rt.actor with
  | none => pure ()
  | some a => saveCheckpoint (a.snapshotAt prog rt.nextSequence)

/-- Only the marker of a suspension is saved, over the last snapshot. -/
def persistSuspensionMarker : Routine Unit := do
  let rt ← read
  match rt.actor, rt.store.snapshot with
  | some a, some snapshot =>
    when (snapshot.waitingSignal ≠ a.waitingSignal) <|
      write (Runtime.modifyStore
      (·.saveSnapshot { snapshot with waitingSignal := a.waitingSignal }))
  | _, _ => pure ()

/-- The store after a transition, or the reason it was refused. -/
def commitTransition (t : DurableTransition) : Routine Unit := do
  let rt ← read
  match rt.store.commitTransition t with
  | .error e => fail e
  | .ok store => write fun rt => { rt with store := store }

/-- The transition that admits a command. -/
def commandTransition (rt : Runtime) (a : Actor) (behaviorId : Nat) (payload : List Value) :
    DurableTransition where
  version := durableTransitionVersion
  activationEpoch := a.activationEpoch
  sequence := rt.nextSequence
  expectedPreviousSequence := rt.store.latestSequence
  command := some ⟨rt.nextSequence, behaviorId, payload⟩
  snapshot := none
  workflowEvents := []
  domainEvents := []
  durableEffects := []

/-- `commit_workflow_command`. -/
def commitWorkflowCommand (behaviorId : Nat) (payload : List Value) : Routine ActivationId := do
  let rt ← read
  let a ← expect rt.actor ⟨.notFound, "workflow command admission requires a live persistent actor"⟩
  commitTransition (commandTransition rt a behaviorId payload)
  remember (Runtime.modifyActor fun a =>
    { a with sequence := rt.nextSequence, currentWorkflowActivation := some ⟨rt.nextSequence⟩ })
  pure ⟨rt.nextSequence⟩

/-- The transition that closes a step: the state it left and its terminal event. -/
def stepTransition (prog : Program) (rt : Runtime) (a : Actor) (activation : Option ActivationId)
    (stepName : String) : DurableTransition where
  version := durableTransitionVersion
  activationEpoch := a.activationEpoch
  sequence := rt.nextSequence
  expectedPreviousSequence := rt.store.latestSequence
  command := none
  snapshot := some (a.snapshotAt prog rt.nextSequence)
  workflowEvents := [.stepCompleted rt.nextSequence activation stepName]
  domainEvents := []
  durableEffects := []

/-- `commit_step_completed`. -/
def commitStepCompleted (prog : Program) (activation : Option ActivationId) (stepName : String) :
    Routine Unit := do
  let rt ← read
  let a ← expect rt.actor
      ⟨.notFound, "workflow terminal transition requires a live persistent actor"⟩
  commitTransition (stepTransition prog rt a activation stepName)
  remember (Runtime.modifyActor fun a => { a with sequence := rt.nextSequence })

inductive ReplayDisposition where
  | append
  | consume
  | conflict
deriving DecidableEq

/-- `committed_replay_event`: the event recorded under a replay identity, if there are not two. -/
def committedReplayEvent (s : MemoryStore) (id : ReplayEventId) :
    Except Unit (Option WorkflowEvent) :=
  match s.workflowEvents.filter fun e => e.replayId = some id with
  | [] => .ok none
  | [e] => .ok (some e)
  | _ => .error ()

def customEventReplayDisposition (s : MemoryStore) (id : ReplayEventId) (event : String)
    (payload : List Value) : ReplayDisposition :=
  match committedReplayEvent s id with
  | .ok none => .append
  | .ok (some (.custom _ _ name args)) =>
    if name = event ∧ args = payload then .consume else .conflict
  | _ => .conflict

def timerSetReplayDisposition (s : MemoryStore) (id : ReplayEventId) (name : String)
    (durationMs : Nat) : ReplayDisposition :=
  match committedReplayEvent s id with
  | .ok none => .append
  | .ok (some (.timerSet _ _ name' durationMs')) =>
    if name' = name ∧ durationMs' = durationMs then .consume else .conflict
  | _ => .conflict

/-- `current_workflow_replay_id`. -/
def currentWorkflowReplayId : Routine (Option ReplayEventId) := do
  let rt ← read
  match rt.actor with
  | none => pure none
  | some a =>
    match a.currentWorkflowActivation with
    | none => pure none
    | some activation => do
      remember (Runtime.modifyActor fun a => a.alignReplay activation)
      pure (some ⟨activation, (a.alignReplay activation).workflowReplayEventOrdinal⟩)

def advanceWorkflowReplayId (committed : ReplayEventId) : Routine Unit :=
  remember (Runtime.modifyActor fun a => a.advanceReplay committed)

def appendWorkflowEvent (event : WorkflowEvent) : Routine Unit :=
  write (Runtime.modifyStore (·.appendWorkflowEvent event))

/-- One record for each event-sourced field, with its value after the event. -/
def appendEvents (sequence : Nat) (event : String) (args : List Value) : List String → Routine Unit
  | [] => pure ()
  | name :: names => do
    let rt ← read
    write (Runtime.modifyStore (·.appendEvent
      ⟨sequence, name, event, args, (rt.fields name).getD .nil⟩))
    appendEvents sequence event args names

/-- What `emit_event` does for an actor that is not a workflow. -/
def emitDomainEvent (prog : Program) (sequence : Nat) (event : String) (args : List Value) :
    Routine Unit :=
  when (prog.eventSourced ≠ []) do
    appendEvents sequence event args prog.eventSourced
    remember (Runtime.modifyActor fun a => { a with sequence := sequence })

/-- The text of an argument that is a string constant, and the empty text for any other. -/
def resolveStringConstant : Option Value → String
  | some (.string s) => s
  | _ => ""

/-- The end of a branch is recorded, counted, and checkpointed. -/
def emitBranchCompleted (prog : Program) (sequence : Nat) (args : List Value) : Routine Unit := do
  appendWorkflowEvent (.parallelBranchCompleted sequence (resolveStringConstant args[0]?)
    (resolveStringConstant args[1]?))
  remember (Runtime.modifyActor fun a =>
    a.setField "parallel_progress" (.int ((a.stateData.int? "parallel_progress").getD 0 + 1)))
  tryCheckpointActor prog

/-- A custom event under its replay identity: appended the first time, passed over when it is
replayed. -/
def emitIdentified (sequence : Nat) (event : String) (args : List Value) (id : ReplayEventId) :
    Routine Unit := do
  let rt ← read
  match customEventReplayDisposition rt.store id event args with
  | .consume => advanceWorkflowReplayId id
  | .conflict => pure ()
  | .append => do
    appendWorkflowEvent (.custom sequence (some id) event args)
    advanceWorkflowReplayId id

def emitCustom (prog : Program) (sequence : Nat) (event : String) (args : List Value) :
    Routine Unit := do
  let id ← currentWorkflowReplayId
  match id with
  | some id => emitIdentified sequence event args id
  | none => do
    appendWorkflowEvent (.custom sequence none event args)
    tryCheckpointActor prog

/-- `emit_event`. -/
def emitEvent (prog : Program) (event : String) (args : List Value) : Routine Unit := do
  let rt ← read
  remember (Runtime.modifyActor fun a =>
  { a with stateData := prog.eventSourced.foldl Fields.bump a.stateData })
  if prog.isWorkflow then
    if event = "ParallelBranchCompleted" ∧ args.length = 2 then
      emitBranchCompleted prog rt.nextSequence args
    else emitCustom prog rt.nextSequence event args
  else emitDomainEvent prog rt.nextSequence event args

/-! ## Timers and signals -/

/-- `append_timer_set` inside an activation: whether the timer is new. -/
def appendTimerSetIdentified (name : String) (durationMs : Nat) (id : ReplayEventId) :
    Routine Bool := do
  let rt ← read
  match timerSetReplayDisposition rt.store id name durationMs with
  | .consume => do
    advanceWorkflowReplayId id
    pure false
  | .conflict => fail ⟨.invalidData,
      "workflow timer replay identity conflicts with committed event: " ++
        s!"activation {id.activation.commandSequence} ordinal {id.ordinal}"⟩
  | .append => do
    appendWorkflowEvent (.timerSet rt.nextSequence (some id) name durationMs)
    advanceWorkflowReplayId id
    pure true

/-- `append_timer_set`. -/
def appendTimerSet (prog : Program) (name : String) (durationMs : Nat) : Routine Bool := do
  let id ← currentWorkflowReplayId
  match id with
  | some id => appendTimerSetIdentified name durationMs id
  | none => do
    let rt ← read
    appendWorkflowEvent (.timerSet rt.nextSequence none name durationMs)
    tryCheckpointActor prog
    pure true

def rearmTimer (name : String) (durationMs : Nat) : Routine Unit :=
  remember fun rt => { rt with timers := rt.timers ++ [⟨name, durationMs⟩] }

/-- `schedule_workflow_timer`. -/
def scheduleWorkflowTimer (prog : Program) (name : String) (durationMs : Nat) : Routine Unit := do
  let arm ← appendTimerSet prog name durationMs
  when (arm = true) (rearmTimer name durationMs)

/-- An event of the given kind at the next sequence number, then a checkpoint. -/
def appendCheckpointed (prog : Program) (event : Nat → WorkflowEvent) : Routine Unit := do
  let rt ← read
  appendWorkflowEvent (event rt.nextSequence)
  tryCheckpointActor prog

def appendTimerFired (prog : Program) (name : String) : Routine Unit :=
  appendCheckpointed prog fun sequence => .timerFired sequence name

def appendSignalReceived (prog : Program) (name : String) (payload : Option String) :
    Routine Unit :=
  appendCheckpointed prog fun sequence => .signalReceived sequence name payload

def appendSagaCompensated (prog : Program) (stepName : String) : Routine Unit :=
  appendCheckpointed prog fun sequence => .sagaCompensated sequence stepName

inductive Outcome where
  | completed
  | suspended (signal : String) (rest : Body)
  | failed (error : String)

/-- Run code until it ends or has to wait for a signal; the wait is executed again when it is
resumed. -/
def Body.run (prog : Program) : Body → Routine Outcome
  | .finish => pure .completed
  | .fail e => pure (.failed e)
  | .observe k => do
    let rt ← read
    (k rt.fields).run prog
  | .assign x v k => do
    remember (Runtime.modifyActor fun a => a.setField x v)
    k.run prog
  | .emit event args k => do
    emitEvent prog event args
    k.run prog
  | .timer name durationMs k => do
    let scheduled ← attempt (scheduleWorkflowTimer prog name durationMs)
    if scheduled then k.run prog else pure (.failed "Timer")
  | .wait signal k => do
    let rt ← read
    if rt.signalReady signal then k.run prog else pure (.suspended signal (.wait signal k))

/-- `run_bytecode_at_offset` keeps what is left of a suspended run in the actor. -/
def suspend (behaviorIdx : Nat) (stepName signal : String) (rest : Body) : Routine Unit :=
  remember (Runtime.modifyActor fun a =>
    { a with
      waitingSignal := some signal
      suspendedExecution := some ⟨rest, behaviorIdx, a.currentWorkflowActivation, stepName⟩ })

def WorkflowEvent.compensated? : WorkflowEvent → Option String
  | .sagaCompensated _ stepName => some stepName
  | _ => none

/-- The steps recorded as compensated. -/
def MemoryStore.compensated (s : MemoryStore) : List String :=
  s.workflowEvents.filterMap compensated?

/-- Whether a compensation succeeded; one that suspends counts as failed. -/
def finishCompensation : Outcome → Routine Bool
  | .completed => pure true
  | .suspended signal rest => do
    suspend 0 "" signal rest
    pure false
  | .failed _ => pure false

/-- Run the compensation of a step; whether it succeeded. A step without one succeeds. -/
def runCompensation (prog : Program) (idx : Nat) : Routine Bool :=
  match prog.steps[idx]?.bind Step.compensate with
  | none => pure true
  | some body => do
    let rt ← read
    send [.compensate idx rt.store.compensated]
    let outcome ← body.run prog
    finishCompensation outcome

def recordCompensated (prog : Program) (stepName : String) : Routine Unit := do
  appendSagaCompensated prog stepName
  remember (Runtime.modifyActor fun a =>
    if stepName ∈ a.compensatedSteps then a
    else { a with compensatedSteps := a.compensatedSteps ++ [stepName] })

def compensateStep (prog : Program) (idx : Nat) : Routine Unit := do
  let rt ← read
  when (rt.actor.any fun a => prog.stepNameFor idx ∉ a.compensatedSteps) do
    let succeeded ← runCompensation prog idx
    when (succeeded = true) (recordCompensated prog (prog.stepNameFor idx))

def compensateSteps (prog : Program) : List Nat → Routine Unit
  | [] => pure ()
  | idx :: rest => do
    compensateStep prog idx
    compensateSteps prog rest

/-- `run_saga_compensation`: the completed steps, last first. -/
def runSagaCompensation (prog : Program) : Routine Unit := do
  let rt ← read
  compensateSteps prog (List.range rt.stepIndex).reverse

/-- The terminal event of a step that was run without a transition, and the checkpoint after it. -/
def recordStepCompleted (prog : Program) (activation : Option ActivationId) (stepName : String) :
    Routine Unit :=
  appendCheckpointed prog fun sequence => .stepCompleted sequence activation stepName

/-- The end of a step that suspended: resume it under its activation. -/
def resumeSuspended (prog : Program) (s : SuspendedExecution) : Routine Unit := do
  remember (Runtime.modifyActor fun a =>
    let a := { a with suspendedExecution := none, currentWorkflowActivation := s.activation }
    (s.activation.map a.alignReplay).getD a)
  let outcome ← s.rest.run prog
  remember (Runtime.modifyActor fun a => { a with waitingSignal := none })
  match outcome with
  | .completed => when (prog.isWorkflow = true) do
      remember (Runtime.modifyActor Actor.advance)
      recordStepCompleted prog s.activation s.stepName
  | .suspended signal rest =>
    remember (Runtime.modifyActor fun a =>
      { a with waitingSignal := some signal, suspendedExecution := some { s with rest := rest } })
  | .failed _ => when (prog.isWorkflow = true) (runSagaCompensation prog)

/-- `resume_suspended_workflow_step`. -/
def resumeSuspendedWorkflowStep (prog : Program) : Routine Unit := do
  let rt ← read
  match rt.actor.bind Actor.suspendedExecution with
  | none => pure ()
  | some s => resumeSuspended prog s

/-- A recorded signal reaches the actor, and resumes it if it waits for that signal. -/
def deliverSignal (prog : Program) (name : String) (payload : Option String) : Routine Unit := do
  remember (Runtime.modifyActor fun a =>
  { a with receivedSignals := a.receivedSignals ++ [(name, payload)] })
  let rt ← read
  when (rt.actor.any fun a => a.waitingSignal = some name) (resumeSuspendedWorkflowStep prog)

/-- `signal_workflow`. -/
def signalWorkflow (prog : Program) (name : String) (payload : Option String) : Routine Unit := do
  appendSignalReceived prog name payload
  deliverSignal prog name payload

/-- The command of a turn is journaled, and names the activation of a workflow. -/
def admitCommand (prog : Program) (msg : Message) : Routine (Option ActivationId) := do
  let rt ← read
  write (Runtime.modifyStore (·.appendJournal ⟨rt.nextSequence, msg.behaviorId, msg.payload⟩))
  if prog.isWorkflow then do
    remember (Runtime.modifyActor fun a =>
      { a with currentWorkflowActivation := some ⟨rt.nextSequence⟩ })
    pure (some ⟨rt.nextSequence⟩)
  else pure none

/-- A step that failed is checkpointed, recorded, and the steps before it are compensated. -/
def failTurn (prog : Program) (activation : Option ActivationId) (stepName error : String) :
    Routine Unit := do
  tryCheckpointActor prog
  when (prog.isWorkflow = true) do
    let rt ← read
    appendWorkflowEvent (.stepFailed rt.nextSequence activation stepName error)
    runSagaCompensation prog

/-- A turn of compiled code, after its command was admitted. -/
def finishCompiled (prog : Program) (idx : Nat) (isParallel : Bool)
    (activation : Option ActivationId) :
    Outcome → Routine Unit
  | .completed => do
    tryCheckpointActor prog
    when (prog.isWorkflow = true) do
      when (isParallel = true) (remember (Runtime.modifyActor Actor.advance))
      recordStepCompleted prog activation (prog.stepNameFor idx)
  | .suspended signal rest => do
    suspend idx (prog.stepNameFor idx) signal rest
    persistSuspensionMarker
  | .failed e => failTurn prog activation (prog.stepNameFor idx) e

/-- A turn that came to its end leaves no activation open. -/
def finishTurn : Routine Unit :=
  remember (Runtime.modifyActor fun a => { a with currentWorkflowActivation := none })

def compiledTurn (prog : Program) (msg : Message) (isParallel : Bool) (body : Body) :
    Routine Unit := do
  let activation ← admitCommand prog msg
  let outcome ← body.run prog
  finishCompiled prog msg.behaviorId isParallel activation outcome
  finishTurn

/-- The handler of `__timer_fired`: it is journaled and checkpointed, and is not a step. -/
def timerFiredTurn (prog : Program) (msg : Message) : Routine Unit := do
  let _ ← admitCommand prog msg
  remember (Runtime.modifyActor Actor.advance)
  tryCheckpointActor prog
  finishTurn

/-- A native turn of an actor that is not a workflow. -/
def nativeTurn (prog : Program) (msg : Message) (handler : List Value → Fields → Fields) :
    Routine Unit := do
  let _ ← admitCommand prog msg
  remember (Runtime.modifyActor fun a => { a with stateData := handler msg.payload a.stateData })
  tryCheckpointActor prog
  finishTurn

/-! ## Recovery -/

/-- What the tail of the transitions says about a workflow that is being recovered. -/
inductive TailReading where
  | refused
  | settled
  | pending (activation : ActivationId) (entry : JournalEntry)

/-- A command that was admitted and neither finished nor followed by anything that is not its
own. -/
def readPending (s : MemoryStore) (tail : DurableTail) (entry : JournalEntry) : TailReading :=
  let activation : ActivationId := ⟨entry.sequence⟩
  if s.workflowEvents.any fun e => e.activationId = some activation then .refused
  else if s.workflowEvents.any fun e =>
      tail.sequence < e.sequence && (e.replayId.map ReplayEventId.activation ≠ some activation)
        then .refused
  else if s.events.any fun e => tail.sequence < e.sequence then .refused
  else .pending activation entry

def readTail (s : MemoryStore) (snapshot : ActorSnapshot) : TailReading :=
  match s.durableTail with
  | none => .settled
  | some tail =>
    if tail.sequence ≤ snapshot.sequence then .settled
    else if tail.activationEpoch ≠ snapshot.activationEpoch then .refused
    else if s.journal.any fun e => tail.sequence < e.sequence then .refused
    else
      match s.journal.filter fun e =>
        snapshot.sequence < e.sequence && e.sequence ≤ tail.sequence with
      | [entry] => readPending s tail entry
      | _ => .refused

/-- The fields of an actor that has just been rebuilt: the snapshot, then the recorded values of the
event-sourced fields, then the declared values of what is still missing. -/
def restoreFields (prog : Program) (snapshot : ActorSnapshot) (events : List EventEntry) : Fields :=
  let saved := snapshot.state.foldl (fun f s => f.set s.1 s.2) Fields.empty
  let sourced := events.foldl (fun f e => f.set e.fieldName e.value) saved
  prog.defaults.foldl (fun f d => if (f d.1).isSome then f else f.set d.1 d.2) sourced

/-- The actor before anything is replayed. -/
def restoreActor (prog : Program) (snapshot : ActorSnapshot) (events : List EventEntry) :
    Actor where
  stateData := restoreFields prog snapshot events
  activationEpoch := snapshot.activationEpoch
  sequence := snapshot.sequence
  waitingSignal := snapshot.waitingSignal
  suspendedExecution := none
  receivedSignals := []
  compensatedSteps := []
  currentWorkflowActivation := none
  workflowReplayActivation := none
  workflowReplayEventOrdinal := 0
  mailbox := []

/-- The unfinished command goes back into the mailbox, under its own activation. -/
def Actor.reopen (a : Actor) : TailReading → Option Actor
  | .refused => none
  | .settled => some a
  | .pending activation entry => some
    { a with
      currentWorkflowActivation := some activation
      sequence := entry.sequence
      mailbox := [⟨entry.behaviorId, entry.payload⟩] }

def WorkflowEvent.setTimer? : WorkflowEvent → Option Timer
  | .timerSet _ _ name durationMs => some ⟨name, durationMs⟩
  | _ => none

def WorkflowEvent.firedTimer? : WorkflowEvent → Option String
  | .timerFired _ name => some name
  | _ => none

/-- A timer is armed again if no timer of its name has fired. -/
def rearmedTimers (s : MemoryStore) : List Timer :=
  let fired := s.readTimerEvents.filterMap firedTimer?
  (s.readTimerEvents.filterMap setTimer?).filter fun t => t.name ∉ fired

def Actor.redrive (prog : Program) (a : Actor) : Actor :=
  let step := ((a.stateData.int? "step_index").getD 0).toNat % 2 ^ 16
  if a.waitingSignal.isSome ∧ step < prog.steps.length then
    { a with mailbox := a.mailbox ++ [⟨step, []⟩] }
  else a

/-- `recover_actor` for a workflow. -/
def recoverWorkflow (prog : Program) (rt : Runtime) : Option Runtime :=
  match rt.store.snapshot with
  | none => none
  | some snapshot =>
    if snapshot.activationEpoch = 0 then none
    else
      match (restoreActor prog snapshot rt.store.events).reopen (readTail rt.store snapshot) with
      | none => none
      | some a =>
        let tail := rt.store.workflowEvents.filter fun e => snapshot.sequence < e.sequence
        let replayed := tail.foldl Actor.replay a
        some { rt with
          actor := some (replayed.redrive prog)
          timers := rt.timers ++ rearmedTimers rt.store }

/-- The command of a native turn is a transition of its own, unless it is the one recovery put
back. -/
def admitOrResume (msg : Message) : Routine ActivationId := do
  let rt ← read
  match rt.actor.bind fun a => a.currentWorkflowActivation.filter fun id =>
    id.commandSequence = a.sequence with
  | some id => pure id
  | none => commitWorkflowCommand msg.behaviorId msg.payload

/-- The two transitions of a native turn of a workflow; whether the terminal one was committed. -/
def nativeTransitions (prog : Program) (msg : Message) (handler : List Value → Fields → Fields) :
    Routine Bool := do
  let activation ← admitOrResume msg
  remember (Runtime.modifyActor fun a => { a with stateData := handler msg.payload a.stateData })
  attempt (commitStepCompleted prog (some activation) (prog.stepNameFor msg.behaviorId))

/-- A native turn of a workflow. When the terminal transition is refused, the actor is thrown away
and rebuilt from the store. -/
def nativeWorkflowTurn (prog : Program) (msg : Message) (handler : List Value → Fields → Fields) :
    Routine Unit := do
  let committed ← nativeTransitions prog msg handler
  if committed then finishTurn
  else remember fun rt =>
    (recoverWorkflow prog { rt with actor := none }).getD { rt with actor := none }

/-- The turn of the behaviour a message names; a message without one is dropped. -/
def dispatch (prog : Program) (msg : Message) : Routine Unit :=
  match prog.steps[msg.behaviorId]? with
  | none =>
    if prog.isWorkflow ∧ msg.behaviorId = prog.steps.length then timerFiredTurn prog msg
    else finishTurn
  | some step =>
    match step.code with
    | .sequential body => compiledTurn prog msg false (body msg.payload)
    | .parallel branches => compiledTurn prog msg true (parallelBody step.name 0 branches)
    | .native handler =>
      if prog.isWorkflow then nativeWorkflowTurn prog msg handler else nativeTurn prog msg handler

def Actor.receive (a : Actor) : Option Message :=
  match a.suspendedExecution with
  | some _ => none
  | none => a.mailbox.head?

/-- `step_actor`. A command that is refused leaves the turn at once. -/
def stepActor (prog : Program) : Routine Unit := do
  let rt ← read
  match rt.actor.bind Actor.receive with
  | none => pure ()
  | some msg => do
    remember (Runtime.modifyActor fun a => { a with mailbox := a.mailbox.tail })
    dispatch prog msg

def freshActor (f : Fields) : Actor where
  stateData := f
  activationEpoch := 1
  sequence := 0
  waitingSignal := none
  suspendedExecution := none
  receivedSignals := []
  compensatedSteps := []
  currentWorkflowActivation := none
  workflowReplayActivation := none
  workflowReplayEventOrdinal := 0
  mailbox := []

/-- What can happen to a workflow from outside. -/
inductive Op where
  | send (msg : Message)
  | turn
  | signal (name : String) (payload : Option String)
  | checkpoint
  | setTimer (name : String) (durationMs : Nat)
  | fireTimer (i : Nat)

def deliver (msg : Message) : Routine Unit :=
  remember (Runtime.modifyActor fun a => { a with mailbox := a.mailbox ++ [msg] })

/-- `tick_timers`, for one timer that is due. -/
def tickTimer (prog : Program) (i : Nat) : Routine Unit := do
  let rt ← read
  match rt.timers[i]? with
  | none => pure ()
  | some t => do
    remember fun rt => { rt with timers := rt.timers.eraseIdx i }
    appendTimerFired prog t.name
    deliver ⟨prog.steps.length, []⟩

def Op.routine (prog : Program) : Op → Routine Unit
  | .send msg => deliver msg
  | .turn => stepActor prog
  | .signal name payload => signalWorkflow prog name payload
  | .checkpoint => tryCheckpointActor prog
  | .setTimer name durationMs => scheduleWorkflowTimer prog name durationMs
  | .fireTimer i => tickTimer prog i

namespace Runtime

/-- Only the store survives a crash. -/
def crash (rt : Runtime) : Runtime := { store := rt.store, actor := none, timers := [] }

/-- The runtime a routine leaves, when the process makes so many writes before it is killed. -/
def after (rt : Runtime) (x : Routine Unit) (writes : Option Nat) : Runtime :=
  (x.exec ⟨rt, [], writes⟩).2.state

end Runtime

/-- A new workflow: its first event and its first checkpoint. -/
def spawnWorkflow (prog : Program) (f : Fields) : Runtime :=
  Runtime.after ⟨.empty, some (freshActor f), []⟩ (appendCheckpointed prog .workflowStarted) none

/-- The fields an actor is spawned with: the declared values, and then those of the spawn. -/
def Program.initial (prog : Program) (init : List (String × Value)) : Fields :=
  (prog.defaults ++ init).foldl (fun f d => f.set d.1 d.2) Fields.empty

/-- The runtimes of a workflow, over every run with any crashes, each followed by a recovery. -/
inductive Reachable (prog : Program) : Runtime → Prop where
  | spawn (init : List (String × Value)) : Reachable prog (spawnWorkflow prog (prog.initial init))
  | perform {rt : Runtime} (h : Reachable prog rt) (op : Op) :
      Reachable prog (rt.after (op.routine prog) none)
  | recover {rt rt' : Runtime} (h : Reachable prog rt) (op : Op) (k : Nat)
      (hr : recoverWorkflow prog (rt.after (op.routine prog) (some k)).crash = some rt') :
      Reachable prog rt'

end Nulang.Persist

import Mathlib.Logic.Relation
import Nulang.DurableActor

/-!
# What the routines of a workflow do

Every routine of a workflow changes its runtime in a few ways. Compiled code changes the fields,
arms timers, appends events and takes checkpoints (`Work`); the turns around it journal a command
and open its activation, suspend and resume, and for native steps commit transitions (`Micro`). Each
routine is a chain of such steps, wherever the process is killed (`steps_turn`, `steps_op`), so a
property of runtimes or of stores that every step keeps is kept by every routine (`Admits.along`).

A step says what may change, not when. Which writes a routine makes, and in which order, is the
matter of `WorkflowTurn` and `WorkflowTail`; an invariant needs only the constructors of `Work` and
`Micro`, and not the code of the routines.
-/

set_option autoImplicit false

namespace Nulang.Persist

open Relation Fields Actor MemoryStore Runtime List Option Handler

/-! ## Steps -/

variable {rt : Runtime} {t : DurableTransition}

theorem after_of_ends {x : Routine Unit} {P : Runtime → Prop}
    (h : x.Ends ⟨rt, [], none⟩ (fun _ => False) (fun _ _ => False) fun _ q => P q.state) :
    P (rt.after x none) := by
  have hall : x.Ends ⟨rt, [], none⟩ (fun q => P q.state) (fun _ q => P q.state) fun _ q =>
    P q.state :=
    ends_mono h (fun _ hq => hq.elim) (fun _ _ hq => hq.elim) fun _ _ hq => hq
  exact ends_all.mp hall

/-- The records of a transition are all at the sequence number that comes next. -/
structure Numbered (s : MemoryStore) (t : DurableTransition) : Prop where
  transition : t.sequence = s.latestSequence + 1
  command : ∀ c ∈ t.command, c.sequence = s.latestSequence + 1
  snapshot : ∀ c ∈ t.snapshot, c.sequence = s.latestSequence + 1
  event : ∀ e ∈ t.workflowEvents, e.sequence = s.latestSequence + 1
  domain : t.domainEvents = []

theorem numbered_command (rt : Runtime) (a : Actor) (behaviorId : Nat) (payload : List Value) :
    Numbered rt.store (commandTransition rt a behaviorId payload) where
  transition := rfl
  command c hc := by
    cases hc
    rfl
  snapshot c hc := by cases hc
  event e he := by cases he
  domain := rfl

theorem numbered_step (prog : Program) (rt : Runtime) (a : Actor) (activation : Option ActivationId)
    (stepName : String) :
    Numbered rt.store (stepTransition prog rt a activation stepName) where
  transition := rfl
  command c hc := by cases hc
  snapshot c hc := by
    cases hc
    rfl
  event e he := by
    rw [mem_singleton.mp he]
    rfl
  domain := rfl

/-- Only compiled code runs. -/
def Program.Compiled (prog : Program) : Prop :=
  ∀ step ∈ prog.steps, ∀ handler, step.code ≠ .native handler

/-- The actor keeps its epoch, its activation, what it has suspended, and a value in every field
that has one. -/
structure Tame (a b : Actor) : Prop where
  epoch : b.activationEpoch = a.activationEpoch
  activation : b.currentWorkflowActivation = a.currentWorkflowActivation
  suspended : b.suspendedExecution = a.suspendedExecution
  fields : ∀ name, (a.stateData name).isSome → (b.stateData name).isSome

/-- What compiled code does. An event with a replay identity belongs to the activation that is
open. -/
inductive Work (prog : Program) (allowed : WorkflowEvent → Prop) (rt : Runtime) :
    Runtime → Prop where
  | memory {f : Actor → Actor} (hf : ∀ a, Tame a (f a)) : Work prog allowed rt (rt.modifyActor f)
  | timers (ts : List Timer) : Work prog allowed rt { rt with timers := ts }
  | snapshot {a : Actor} (ha : rt.actor = some a) :
    Work prog allowed rt (rt.modifyStore (·.saveSnapshot (a.snapshotAt prog rt.nextSequence)))
  | event {e : WorkflowEvent} (hq : e.sequence = rt.nextSequence) (he : allowed e)
      (hid : ∀ id ∈ e.replayId, ∃ a, rt.actor = some a ∧
        a.currentWorkflowActivation = some id.activation) :
    Work prog allowed rt (rt.modifyStore (·.appendWorkflowEvent e))

/-- What a workflow does. Native steps alone commit transitions and rebuild the actor. -/
inductive Micro (prog : Program) (allowed : WorkflowEvent → Prop) (rt : Runtime) :
    Runtime → Prop where
  | work {rt' : Runtime} (h : Work prog allowed rt rt') : Micro prog allowed rt rt'
  | marker {snapshot : ActorSnapshot} (hs : rt.store.snapshot = some snapshot)
      (signal : Option String) :
    Micro prog allowed rt
      (rt.modifyStore (·.saveSnapshot { snapshot with waitingSignal := signal }))
  | journal (idx : Nat) (payload : List Value) :
    Micro prog allowed rt (rt.modifyStore (·.appendJournal ⟨rt.nextSequence, idx, payload⟩))
  | activate {n : Nat} (hn : n ≤ rt.store.latestSequence) :
    Micro prog allowed rt (rt.modifyActor fun a => { a with currentWorkflowActivation := some ⟨n⟩ })
  | release :
      Micro prog allowed rt (rt.modifyActor fun a => { a with currentWorkflowActivation := none })
  | suspend {s : SuspendedExecution} (hs : ∀ a, rt.actor = some a →
      s.activation = a.currentWorkflowActivation)
      (signal : String) :
    Micro prog allowed rt
      (rt.modifyActor fun a =>
        { a with waitingSignal := some signal, suspendedExecution := some s })
  | resume {a : Actor} {s : SuspendedExecution} (ha : rt.actor = some a)
      (hs : a.suspendedExecution = some s) :
    Micro prog allowed rt
      (rt.modifyActor fun a =>
        { a with suspendedExecution := none, currentWorkflowActivation := s.activation })
  | handle (hn : ¬ prog.Compiled) (f : Fields → Fields) :
    Micro prog allowed rt (rt.modifyActor fun a => { a with stateData := f a.stateData })
  | commit (hn : ¬ prog.Compiled) {t : DurableTransition} (ht : Numbered rt.store t)
      (he : ∀ e ∈ t.workflowEvents, allowed e) (hid : ∀ e ∈ t.workflowEvents, e.replayId = none) :
    Micro prog allowed rt { rt with store := rt.store.install t }
  | drop (hn : ¬ prog.Compiled) : Micro prog allowed rt { rt with actor := none }
  | rebuild (hn : ¬ prog.Compiled) {rt' : Runtime}
      (hr : recoverWorkflow prog { rt with actor := none } = some rt') :
    Micro prog allowed rt rt'

/-- A number of steps of compiled code. -/
def Works (prog : Program) (allowed : WorkflowEvent → Prop) (p q : Process Runtime Effect) : Prop :=
  ReflTransGen (Work prog allowed) p.state q.state

/-- A number of steps of a workflow. -/
def Steps (prog : Program) (allowed : WorkflowEvent → Prop) (p q : Process Runtime Effect) : Prop :=
  ReflTransGen (Micro prog allowed) p.state q.state

instance (prog : Program) (allowed : WorkflowEvent → Prop) : Std.Refl (Works prog allowed) :=
  ⟨fun _ => ReflTransGen.refl⟩

instance (prog : Program) (allowed : WorkflowEvent → Prop) :
    IsTrans (Process Runtime Effect) (Works prog allowed) :=
  ⟨fun _ _ _ h g => ReflTransGen.trans h g⟩

instance (prog : Program) (allowed : WorkflowEvent → Prop) : Std.Refl (Steps prog allowed) :=
  ⟨fun _ => ReflTransGen.refl⟩

instance (prog : Program) (allowed : WorkflowEvent → Prop) :
    IsTrans (Process Runtime Effect) (Steps prog allowed) :=
  ⟨fun _ _ _ h g => ReflTransGen.trans h g⟩

variable {prog : Program} {allowed : WorkflowEvent → Prop}

theorem Works.steps {p q : Process Runtime Effect} (h : Works prog allowed p q) :
    Steps prog allowed p q :=
  ReflTransGen.mono (fun _ _ h => Micro.work h) _ _ h

theorem Runtime.modifyActor_modifyActor (f g : Actor → Actor) :
    (rt.modifyActor f).modifyActor g = rt.modifyActor fun a => g (f a) := by
  simp only [modifyActor, Option.map_map]
  rfl

variable (p : Process Runtime Effect)

theorem Works.refl : Works prog allowed p p := ReflTransGen.refl

theorem Steps.refl : Steps prog allowed p p := ReflTransGen.refl

theorem Tame.of_fields {a b : Actor}
    (h : (b.activationEpoch, b.currentWorkflowActivation, b.suspendedExecution, b.stateData) =
      (a.activationEpoch, a.currentWorkflowActivation, a.suspendedExecution, a.stateData)) :
    Tame a b := by
  obtain ⟨hepoch, hact, hsus, hf⟩ : _ ∧ _ ∧ _ ∧ _ := by simpa only [Prod.mk.injEq] using h
  exact ⟨hepoch, hact, hsus, fun _ h => hf ▸ h⟩

theorem Tame.trans {a b c : Actor} (h : Tame a b) (g : Tame b c) : Tame a c :=
  ⟨g.epoch.trans h.epoch, g.activation.trans h.activation, g.suspended.trans h.suspended,
    fun name hs => g.fields name (h.fields name hs)⟩

namespace Runtime

def appended (event : Nat → WorkflowEvent) (rt : Runtime) : Runtime :=
  rt.modifyStore (·.appendWorkflowEvent (event rt.nextSequence))

def checkpointed (prog : Program) (rt : Runtime) : Runtime :=
  match rt.actor with
  | none => rt
  | some a =>
    { rt with
      store := rt.store.saveSnapshot (a.snapshotAt prog rt.nextSequence)
      actor := some { a with sequence := rt.nextSequence } }

variable (event : Nat → WorkflowEvent)

@[simp] theorem actor_appended : (rt.appended event).actor = rt.actor := rfl

@[simp] theorem store_appended :
    (rt.appended event).store = rt.store.appendWorkflowEvent (event rt.nextSequence) := rfl

end Runtime

section Executing

variable {p : Process Runtime Effect} {K : Process Runtime Effect → Prop}
  {E : IoError → Process Runtime Effect → Prop} {Q : Unit → Process Runtime Effect → Prop}

theorem ends_checkpoint (prog : Program) (ha : p.state.actor.isSome) :
    (tryCheckpointActor prog).Ends p K E Q ↔
      if p.writes = some 0 then K p else Q () (p.wrote (checkpointed prog)) := by
  obtain ⟨a, ha⟩ := isSome_iff_exists.mp ha
  unfold tryCheckpointActor
  simp only [ends_bind, ends_read, ha, saveCheckpoint, ends_write, ends_remember]
  have hq :
      (p.wrote (modifyStore (·.saveSnapshot (a.snapshotAt prog p.state.nextSequence)))).changed
      (modifyActor fun b => { b with sequence := p.state.nextSequence })
        = p.wrote (checkpointed prog) := by
    simp only [Process.wrote, Process.changed, checkpointed, modifyStore, modifyActor, ha, map_some]
  rw [← hq]
  exact Iff.rfl

theorem ends_appendCheckpointed (event : Nat → WorkflowEvent) (ha : p.state.actor.isSome) :
    (appendCheckpointed prog event).Ends p K E Q ↔ if p.writes = some 0 then K p
      else if p.writes = some 1 then K (p.wrote (appended event))
      else Q () ((p.wrote (appended event)).wrote (checkpointed prog)) := by
  unfold appendCheckpointed appendWorkflowEvent
  simp only [ends_bind, ends_read, ends_write]
  by_cases h0 : p.writes = some 0
  · rw [if_pos h0, if_pos h0]
  · have hq : p.wrote (modifyStore (·.appendWorkflowEvent (event p.state.nextSequence)))
        = p.wrote (appended event) := rfl
    have hlive : (p.wrote (appended event)).state.actor.isSome := ha
    rw [hq, ends_checkpoint prog hlive]
    simp only [Process.wrote_stopped p _ h0]

end Executing

namespace MemoryStore

variable {s : MemoryStore}

theorem latestSequence_appendJournal {e : JournalEntry} (h : e.sequence = s.latestSequence + 1) :
    (s.appendJournal e).latestSequence = s.latestSequence + 1 := by
  simp only [latestSequence, legacyTail, appendJournal, snapshotSequence, getLast?_concat, map_some,
    getD_some, h]
  omega

theorem latestSequence_appendWorkflowEvent {e : WorkflowEvent}
    (h : e.sequence = s.latestSequence + 1) :
    (s.appendWorkflowEvent e).latestSequence = s.latestSequence + 1 := by
  simp only [latestSequence, legacyTail, appendWorkflowEvent, snapshotSequence, getLast?_concat,
    map_some, getD_some, h]
  omega

variable {snapshot : ActorSnapshot}

theorem latestSequence_saveSnapshot (h : snapshot.sequence = s.latestSequence + 1) :
    (s.saveSnapshot snapshot).latestSequence = s.latestSequence + 1 := by
  simp only [latestSequence, legacyTail, saveSnapshot, snapshotSequence, map_some, getD_some, h]
  omega

theorem latestSequence_marker (signal : Option String) (h : s.snapshot = some snapshot) :
    (s.saveSnapshot { snapshot with waitingSignal := signal }).latestSequence =
    s.latestSequence := by
  simp only [latestSequence, legacyTail, saveSnapshot, snapshotSequence, map_some, getD_some, h]

theorem snapshotSequence_le (s : MemoryStore) : s.snapshotSequence ≤ s.latestSequence := by
  unfold latestSequence legacyTail
  omega

end MemoryStore

theorem latestSequence_install {s : MemoryStore} (h : Numbered s t) :
    (s.install t).latestSequence = s.latestSequence + 1 := by
  have hparts : s.legacyTail ≤ s.latestSequence := by
    unfold latestSequence
    omega
  unfold legacyTail at hparts
  have hsnapshot : (s.install t).snapshotSequence ≤ s.latestSequence + 1 := by
    unfold snapshotSequence install
    cases ht : t.snapshot with
    | none => exact Nat.le_succ_of_le (snapshotSequence_le s)
    | some c => exact Nat.le_of_eq (h.snapshot c ht)
  have hjournal : ((s.install t).journal.getLast?.map JournalEntry.sequence).getD 0 ≤
      s.latestSequence + 1 := by
    unfold install
    cases ht : t.command with
    | none =>
      simp only [toList_none, append_nil]
      omega
    | some c =>
      simp only [toList_some, getLast?_concat, map_some, getD_some]
      exact Nat.le_of_eq (h.command c ht)
  have hevents : ((s.install t).workflowEvents.getLast?.map WorkflowEvent.sequence).getD 0 ≤
      s.latestSequence + 1 := by
    unfold install
    rcases eq_nil_or_concat t.workflowEvents with ht | ⟨l, e, ht⟩
    · simp only [ht, append_nil]
      omega
    · have he : e ∈ t.workflowEvents := by simp [ht]
      simp only [ht, concat_eq_append, ← append_assoc, getLast?_concat, map_some, getD_some]
      exact Nat.le_of_eq (h.event e he)
  have hdomain : ((s.install t).events.getLast?.map EventEntry.sequence).getD 0 ≤
      s.latestSequence + 1 := by
    simp only [install, h.domain, append_nil]
    omega
  have htail : ((s.install t).durableTail.map DurableTail.sequence).getD 0 = s.latestSequence + 1 :=
    h.transition
  unfold latestSequence legacyTail at hsnapshot hjournal hevents hdomain htail ⊢
  omega

/-! ## Compiled code -/

theorem Fields.isSome_set (f : Fields) (x : String) (v : Value) (name : String)
    (h : (f name).isSome) :
    (f.set x v name).isSome := by
  by_cases hn : name = x
  · rw [hn, set_same]
    rfl
  · rwa [set_of_ne f v hn]

theorem Fields.isSome_bump (f : Fields) (x : String) (name : String) (h : (f name).isSome) :
    (f.bump x name).isSome := by
  unfold bump
  cases f.int? x with
  | none => exact h
  | some n => exact isSome_set f x _ name h

variable (a : Actor)

theorem tame_setField (x : String) (v : Value) : Tame a (a.setField x v) :=
  ⟨rfl, rfl, rfl, fun name h => isSome_set a.stateData x v name h⟩

theorem tame_advance : Tame a a.advance :=
  ⟨rfl, rfl, rfl, fun name h => isSome_bump a.stateData _ name h⟩

theorem tame_alignReplay (activation : ActivationId) : Tame a (a.alignReplay activation) := by
  unfold alignReplay
  split_ifs with h
  · exact Tame.of_fields rfl
  · exact Tame.of_fields rfl

theorem tame_advanceReplay (id : ReplayEventId) : Tame a (a.advanceReplay id) := by
  unfold advanceReplay
  split_ifs with h
  · exact Tame.of_fields rfl
  · exact Tame.of_fields rfl

theorem tame_bumpAll (names : List String) :
    Tame a { a with stateData := names.foldl bump a.stateData } := by
  refine ⟨rfl, rfl, rfl, fun name h => ?_⟩
  exact foldlRecOn (motive := fun f : Fields => (f name).isSome) names _ h fun f h x _ =>
    isSome_bump f x name h

/-- The events compiled code appends. -/
def WorkflowEvent.isIntermediate : WorkflowEvent → Prop
  | .custom .. => True
  | .timerSet .. => True
  | .parallelBranchCompleted .. => True
  | _ => False

section Works

theorem works_memory {f : Actor → Actor} (hf : ∀ a, Tame a (f a)) :
    (Handler.remember (modifyActor f) : Routine Unit).Always (Works prog allowed) :=
  Always.remember fun _ => .single (.memory hf)

theorem works_checkpoint : (tryCheckpointActor prog).Always (Works prog allowed) := by
  refine Always.read fun p => ?_
  cases ha : p.state.actor with
  | none => exact Works.refl p
  | some a =>
    simp only [saveCheckpoint, ends_bind, ends_write]
    split_ifs with hw
    · exact Works.refl p
    · refine Always.after (P := Works prog allowed) (.single (.snapshot ha))
        (works_memory (fun _ => ?_) _)
      exact Tame.of_fields rfl

variable {e : WorkflowEvent} {args : List Value} {event : String}

theorem works_append (he : allowed e) (p : Process Runtime Effect)
    (hq : e.sequence = p.state.nextSequence)
    (hid : ∀ id ∈ e.replayId, ∃ a, p.state.actor = some a ∧
      a.currentWorkflowActivation = some id.activation) :
    (appendWorkflowEvent e).Ends p (Works prog allowed p) (fun _ => Works prog allowed p)
      (fun _ => Works prog allowed p) := by
  unfold appendWorkflowEvent
  rw [ends_write]
  split_ifs with hw
  · exact Works.refl p
  · exact .single (.event hq he hid)

theorem works_append_bind {α : Type} (he : allowed e) (p : Process Runtime Effect)
    (hq : e.sequence = p.state.nextSequence)
    (hid : ∀ id ∈ e.replayId, ∃ a, p.state.actor = some a ∧
      a.currentWorkflowActivation = some id.activation)
    {x : Unit → Routine α} (hx : ∀ u, (x u).Always (Works prog allowed)) :
    (appendWorkflowEvent e >>= x).Ends p (Works prog allowed p) (fun _ => Works prog allowed p)
      (fun _ => Works prog allowed p) := by
  rw [ends_bind]
  exact ends_imp (works_append he p hq hid) fun u q hp =>
    Always.after hp (hx u q)

theorem works_appendCheckpointed {event : Nat → WorkflowEvent} (he : ∀ q, allowed (event q))
    (hq : ∀ q, (event q).sequence = q) (hid : ∀ q, (event q).replayId = none) :
    (appendCheckpointed prog event).Always (Works prog allowed) :=
  Always.read fun p => works_append_bind (he _) p (hq _) (fun id h => by simp [hid] at h) fun _ =>
    works_checkpoint

/-- The replay identity that comes next is of the activation that is open. -/
theorem ends_replayId {p : Process Runtime Effect} {K : Process Runtime Effect → Prop}
    {E : IoError → Process Runtime Effect → Prop}
    {Q : Option ReplayEventId → Process Runtime Effect → Prop}
    (h : ∀ id q, Works prog allowed p q → q.state.store = p.state.store →
      (∀ i ∈ id, ∃ a, q.state.actor = some a ∧
        a.currentWorkflowActivation = some i.activation) → Q id q) :
    currentWorkflowReplayId.Ends p K E Q := by
  unfold currentWorkflowReplayId
  rw [ends_bind, ends_read]
  cases ha : p.state.actor with
  | none => exact h none p (Works.refl p) rfl fun i hi => by cases hi
  | some a =>
    dsimp only
    cases hc : a.currentWorkflowActivation with
    | none => exact h none p (Works.refl p) rfl fun i hi => by cases hi
    | some activation =>
      refine h _ _ (.single (.memory fun a => tame_alignReplay a activation)) rfl fun i hi => ?_
      cases hi
      refine ⟨a.alignReplay activation, ?_, (tame_alignReplay a activation).activation.trans hc⟩
      show p.state.actor.map _ = _
      rw [ha]
      rfl

theorem works_advanceReplayId (id : ReplayEventId) :
    (advanceWorkflowReplayId id).Always (Works prog allowed) :=
  works_memory fun a => tame_advanceReplay a id

theorem works_emitIdentified {id : ReplayEventId}
    (he : ∀ q, allowed (.custom q (some id) event args)) (p : Process Runtime Effect)
    (hid : ∃ a, p.state.actor = some a ∧ a.currentWorkflowActivation = some id.activation) :
    (emitIdentified p.state.nextSequence event args id).Ends p (Works prog allowed p)
    (fun _ => Works prog allowed p)
      (fun _ => Works prog allowed p) := by
  unfold emitIdentified
  rw [ends_bind, ends_read]
  cases customEventReplayDisposition p.state.store id event args with
  | consume => exact works_advanceReplayId id p
  | conflict => exact Works.refl p
  | append =>
    refine works_append_bind (he _) p rfl (fun i hi => ?_) fun _ => works_advanceReplayId id
    cases hi
    exact hid

theorem works_emitCustom (he : ∀ q id, allowed (.custom q id event args))
    (p : Process Runtime Effect) :
    (emitCustom prog p.state.nextSequence event args).Ends p (Works prog allowed p)
    (fun _ => Works prog allowed p)
      (fun _ => Works prog allowed p) := by
  unfold emitCustom
  rw [ends_bind]
  refine ends_replayId fun id q hw hq hid => Always.after hw ?_
  have hn : p.state.nextSequence = q.state.nextSequence := by
    unfold nextSequence
    rw [hq]
  rw [hn]
  cases id with
  | some id => exact works_emitIdentified (fun q => he q _) q (hid id rfl)
  | none => exact works_append_bind (he _ _) q rfl (fun i hi => by cases hi) fun _ =>
    works_checkpoint

theorem works_emitEvent (hw : prog.isWorkflow = true)
    (he : ∀ e : WorkflowEvent, e.isIntermediate → allowed e) :
    (emitEvent prog event args).Always (Works prog allowed) := by
  refine Always.read fun p => ?_
  rw [ends_bind, ends_remember, if_pos hw]
  refine Always.after (P := Works prog allowed)
    (.single (.memory fun a => tame_bumpAll a prog.eventSourced)) ?_
  have hn (f : Actor → Actor) :
      p.state.nextSequence = (p.changed (modifyActor f)).state.nextSequence := rfl
  split_ifs with hb
  · refine works_append_bind (he (.parallelBranchCompleted _ _ _) trivial) _ rfl
      (fun i hi => by cases hi) fun _ => ?_
    exact (works_memory fun a => tame_setField a _ _).bind fun _ => works_checkpoint
  · exact works_emitCustom (fun q id => he _ trivial) _

theorem works_appendTimerSet (name : String) (durationMs : Nat)
    (he : ∀ q id, allowed (.timerSet q id name durationMs)) :
    (appendTimerSet prog name durationMs).Always (Works prog allowed) := by
  intro p
  unfold appendTimerSet
  rw [ends_bind]
  refine ends_replayId fun id q hw hq hid => Always.after hw ?_
  cases id with
  | some id =>
    unfold appendTimerSetIdentified
    rw [ends_bind, ends_read]
    have hadvance (b : Bool) :
        (advanceWorkflowReplayId id >>= fun _ => pure b).Always (Works prog allowed) :=
      (works_advanceReplayId id).bind fun _ => Always.pure b
    cases timerSetReplayDisposition q.state.store id name durationMs with
    | consume => exact hadvance false q
    | conflict => exact Works.refl q
    | append =>
      refine works_append_bind (he _ _) q rfl (fun i hi => ?_) fun _ => hadvance true
      cases hi
      exact hid id rfl
  | none =>
    exact works_append_bind (he _ _) q rfl (fun i hi => by cases hi) fun _ =>
      works_checkpoint.bind fun _ => Always.pure true

theorem works_scheduleTimer (name : String) (durationMs : Nat)
    (he : ∀ q id, allowed (.timerSet q id name durationMs)) :
    (scheduleWorkflowTimer prog name durationMs).Always (Works prog allowed) :=
  (works_appendTimerSet name durationMs he).bind fun _ => Always.when fun _ =>
    Always.remember fun _ => .single (.timers _)

/-- Compiled code does what compiled code does. -/
theorem works_body (hw : prog.isWorkflow = true)
    (he : ∀ e : WorkflowEvent, e.isIntermediate → allowed e) (b : Body) :
    (b.run prog).Always (Works prog allowed) := by
  induction b with
  | finish | fail => exact Always.pure _
  | observe k ih => exact Always.read fun p => ih _ p
  | assign x v k ih => exact (works_memory fun a => tame_setField a x v).bind fun _ => ih
  | emit event args k ih => exact (works_emitEvent hw he).bind fun _ => ih
  | timer name durationMs k ih =>
    refine (works_scheduleTimer name durationMs fun q id => he _ trivial).attempt.bind fun b => ?_
    cases b with
    | true => exact ih
    | false => exact Always.pure _
  | wait signal k ih =>
    refine Always.read fun p => ?_
    split_ifs with hr
    · exact ih p
    · exact Works.refl p

theorem Works.activation {p q : Process Runtime Effect} (h : Works prog allowed p q) :
    q.state.actor.map currentWorkflowActivation = p.state.actor.map currentWorkflowActivation := by
  have hstep {rt rt' : Runtime} (h : Work prog allowed rt rt') :
      rt'.actor.map currentWorkflowActivation = rt.actor.map currentWorkflowActivation := by
    cases h with
    | memory hf =>
      show (rt.actor.map _).map _ = _
      rw [Option.map_map]
      congr 1
      funext a
      exact (hf a).activation
    | timers | snapshot | event => rfl
  have hchain : ReflTransGen (Work prog allowed) p.state q.state := h
  generalize q.state = rt at hchain ⊢
  induction hchain with
  | refl => rfl
  | tail _ h ih => exact (hstep h).trans ih

end Works

/-! ## Compensation and turns -/

section Steps

theorem steps_of {α : Type} {x : Routine α} (h : x.Always (Works prog allowed)) :
    x.Always (Steps prog allowed) :=
  h.mono fun _ _ => Works.steps

theorem steps_finishTurn : finishTurn.Always (Steps prog allowed) :=
  Always.remember fun _ => .single .release

theorem steps_suspensionMarker : persistSuspensionMarker.Always (Steps prog allowed) := by
  refine Always.read fun p => ?_
  cases ha : p.state.actor with
  | none => exact Steps.refl p
  | some a =>
    cases hs : p.state.store.snapshot with
    | none => exact Steps.refl p
    | some snapshot =>
      simp only [ends_when, ends_write]
      split_ifs with hm hw
      · exact Steps.refl p
      · exact .single (.marker hs _)
      · exact Steps.refl p

theorem steps_suspend (idx : Nat) (stepName signal : String) (rest : Body) :
    (suspend idx stepName signal rest).Always (Steps prog allowed) := by
  refine Always.remember fun p => ?_
  cases ha : p.state.actor with
  | none =>
    have hq : (p.changed (modifyActor fun a =>
        { a with
          waitingSignal := some signal
          suspendedExecution :=
            some ⟨rest, idx, a.currentWorkflowActivation, stepName⟩ })).state = p.state := by
      simp only [Process.state_changed, modifyActor, ha, map_none]
      rw [← ha]
    show ReflTransGen _ p.state _
    rw [hq]
  | some a =>
    have hstep : Micro prog allowed p.state _ := Micro.suspend
      (s := ⟨rest, idx, a.currentWorkflowActivation, stepName⟩)
      (fun b hb => by rw [some.inj (ha.symm.trans hb)]) signal
    simp only [modifyActor, ha, map_some] at hstep
    show ReflTransGen _ p.state _
    simp only [Process.state_changed, modifyActor, ha, map_some]
    exact .single hstep

theorem steps_compensation (hw : prog.isWorkflow = true)
    (he : ∀ e : WorkflowEvent, e.isIntermediate → allowed e) (idx : Nat) :
    (runCompensation prog idx).Always (Steps prog allowed) := by
  unfold runCompensation
  cases prog.steps[idx]?.bind Step.compensate with
  | none => exact Always.pure _
  | some b =>
    refine Always.read fun p => ?_
    have hrun : (b.run prog >>= finishCompensation).Always (Steps prog allowed) := by
      refine (steps_of (works_body hw he b)).bind fun outcome => ?_
      cases outcome with
      | completed | failed => exact Always.pure _
      | suspended signal rest => exact (steps_suspend 0 "" signal rest).bind fun _ => Always.pure _
    exact hrun { p with sent := _ }

theorem steps_saga (hw : prog.isWorkflow = true)
    (he : ∀ e : WorkflowEvent, e.isIntermediate → allowed e)
    (hc : ∀ q stepName, allowed (.sagaCompensated q stepName)) :
    (runSagaCompensation prog).Always (Steps prog allowed) := by
  have hmark (stepName : String) (a : Actor) : Tame a (if stepName ∈ a.compensatedSteps then a
      else { a with compensatedSteps := a.compensatedSteps ++ [stepName] }) := by
    split_ifs with h
    · exact Tame.of_fields rfl
    · exact Tame.of_fields rfl
  have hstep (idx : Nat) : (compensateStep prog idx).Always (Steps prog allowed) := by
    refine Always.read fun p => ?_
    refine Always.when (fun _ => (steps_compensation hw he idx).bind fun succeeded => ?_) p
    refine Always.when fun _ => ?_
    exact (steps_of (works_appendCheckpointed (fun q => hc q _) (fun _ => rfl) fun _ =>
      rfl)).bind fun _ =>
      steps_of (works_memory (hmark _))
  have hsteps (l : List Nat) : (compensateSteps prog l).Always (Steps prog allowed) := by
    induction l with
    | nil => exact Always.pure _
    | cons idx l ih => exact (hstep idx).bind fun _ => ih
  exact Always.read fun p => hsteps _ p

/-- All events but signals are admitted. -/
def TurnEvents (allowed : WorkflowEvent → Prop) : Prop :=
  ∀ e : WorkflowEvent, (∀ q name payload, e ≠ .signalReceived q name payload) → allowed e

theorem TurnEvents.intermediate (he : TurnEvents allowed) (e : WorkflowEvent)
    (hi : e.isIntermediate) : allowed e := by
  refine he e fun q name payload hs => ?_
  rw [hs] at hi
  exact hi

theorem steps_recordStepCompleted (he : TurnEvents allowed) (activation : Option ActivationId)
    (stepName : String) :
    (recordStepCompleted prog activation stepName).Always (Steps prog allowed) :=
  steps_of (works_appendCheckpointed (fun _ => he _ fun _ _ _ hne => by cases hne) (fun _ => rfl)
    fun _ => rfl)

variable {p : Process Runtime Effect} {s : SuspendedExecution}

/-- A step that is resumed and suspends again is of the same activation. -/
theorem steps_resuspend {signal : String} {rest : Body}
    (hs : p.state.actor.map currentWorkflowActivation = p.state.actor.map fun _ => s.activation) :
    (Handler.remember (modifyActor fun a => { a with
        waitingSignal := some signal
        suspendedExecution := some { s with rest := rest } }) :
      Routine Unit).Ends p (Steps prog allowed p) (fun _ => Steps prog allowed p)
        (fun _ => Steps prog allowed p) := by
  refine .single (.suspend (fun a ha => ?_) signal)
  rw [ha] at hs
  exact (some.inj hs).symm

/-- What `resume_suspended_workflow_step` restores. -/
theorem steps_restored {a : Actor} (ha : p.state.actor = some a)
    (hs : a.suspendedExecution = some s) :
    Steps prog allowed p (p.changed (modifyActor fun a =>
      let a := { a with suspendedExecution := none, currentWorkflowActivation := s.activation }
      (s.activation.map a.alignReplay).getD a)) := by
  have halign (b : Actor) : Tame b ((s.activation.map b.alignReplay).getD b) := by
    cases s.activation with
    | none => exact Tame.of_fields rfl
    | some activation => exact tame_alignReplay b activation
  have hsteps : ReflTransGen (Micro prog allowed) p.state
      ((p.state.modifyActor fun a => { a with
          suspendedExecution := none
          currentWorkflowActivation := s.activation }).modifyActor
        fun b => (s.activation.map b.alignReplay).getD b) :=
    .tail (.single (.resume ha hs)) (.work (.memory halign))
  rw [modifyActor_modifyActor] at hsteps
  exact hsteps

theorem steps_resume (hw : prog.isWorkflow = true) (he : TurnEvents allowed) :
    (resumeSuspendedWorkflowStep prog).Always (Steps prog allowed) := by
  refine Always.read fun p => ?_
  cases hs : p.state.actor.bind suspendedExecution with
  | none => exact Steps.refl p
  | some s =>
    obtain ⟨a, ha, hsus⟩ := bind_eq_some_iff.mp hs
    unfold resumeSuspended
    rw [ends_bind, ends_remember]
    refine Always.after (steps_restored ha hsus) ?_
    have hact (a : Actor) :
        let a := { a with suspendedExecution := none, currentWorkflowActivation := s.activation }
        ((s.activation.map a.alignReplay).getD a).currentWorkflowActivation = s.activation := by
      cases s.activation with
      | none => rfl
      | some activation => exact (tame_alignReplay _ activation).activation
    generalize hp : p.changed _ = p'
    have hopen : p'.state.actor.map currentWorkflowActivation = some s.activation := by
      rw [← hp]
      simp only [Process.state_changed, modifyActor, ha, map_some, hact]
    rw [ends_bind]
    have hrest : (s.rest.run prog).Always (Works prog allowed) :=
      works_body hw he.intermediate s.rest
    refine ends_mono (hrest p') (fun q hq => hq.steps) (fun _ q hq => hq.steps)
      fun outcome q hq => ?_
    rw [ends_bind, ends_remember]
    have hwaiting :
        Works prog allowed p' (q.changed (modifyActor fun a => { a with waitingSignal := none })) :=
      IsTrans.trans p' q _ hq (.single (.memory fun _ => Tame.of_fields rfl))
    refine Always.after hwaiting.steps ?_
    cases outcome with
    | completed =>
      refine Always.when (fun _ => ?_) _
      exact (steps_of (works_memory tame_advance)).bind fun _ => steps_recordStepCompleted he _ _
    | suspended signal rest =>
      refine steps_resuspend ?_
      have hcur := hwaiting.activation.trans hopen
      obtain ⟨b, hb, hbs⟩ := map_eq_some_iff.mp hcur
      rw [hb, map_some, map_some, hbs]
    | failed e =>
      refine Always.when (fun _ => ?_) _
      exact steps_saga hw he.intermediate fun q name => he _ fun _ _ _ hne => by cases hne

/-- What `signal_workflow` does once the signal is recorded and checkpointed. -/
theorem steps_deliverSignal (hw : prog.isWorkflow = true) (he : TurnEvents allowed) (name : String)
    (payload : Option String) : (deliverSignal prog name payload).Always (Steps prog allowed) := by
  refine Always.bind (steps_of (works_memory fun _ => ?_)) fun _ => Always.read fun p => ?_
  · exact Tame.of_fields rfl
  · exact Always.when (fun _ => steps_resume hw he) p

theorem steps_signal (hw : prog.isWorkflow = true) (he : TurnEvents allowed)
    (hs : ∀ q name payload, allowed (.signalReceived q name payload)) (name : String)
    (payload : Option String) :
    (signalWorkflow prog name payload).Always (Steps prog allowed) :=
  (steps_of (works_appendCheckpointed (fun q => hs q name payload) (fun _ => rfl) fun _ =>
    rfl)).bind fun _ =>
    steps_deliverSignal hw he name payload

variable (msg : Message)

/-- The journal entry of a command, then its activation. -/
theorem steps_admitCommand : (admitCommand prog msg).Always (Steps prog allowed) := by
  refine Always.read fun p => ?_
  rw [ends_bind, ends_write]
  split_ifs with hw hp
  · exact Steps.refl p
  · refine .tail (.single (.journal msg.behaviorId msg.payload)) (.activate ?_)
    exact Nat.le_of_eq (latestSequence_appendJournal rfl).symm
  · exact .single (.journal msg.behaviorId msg.payload)

theorem steps_compiled (hw : prog.isWorkflow = true) (he : TurnEvents allowed) (msg : Message)
    (isParallel : Bool) (b : Body) :
    (compiledTurn prog msg isParallel b).Always (Steps prog allowed) := by
  refine (steps_admitCommand msg).bind fun activation =>
    (steps_of (works_body hw he.intermediate b)).bind fun outcome => ?_
  refine Always.bind ?_ fun _ => steps_finishTurn
  cases outcome with
  | completed =>
    refine (steps_of works_checkpoint).bind fun _ => Always.when fun _ => ?_
    exact Always.bind (Always.when fun _ => steps_of (works_memory tame_advance)) fun _ =>
      steps_recordStepCompleted he _ _
  | suspended signal rest => exact (steps_suspend _ _ signal rest).bind fun _ =>
    steps_suspensionMarker
  | failed e =>
    refine (steps_of works_checkpoint).bind fun _ => Always.when fun _ => Always.read fun p => ?_
    rw [ends_bind]
    have hallowed :
        allowed (.stepFailed p.state.nextSequence activation (prog.stepNameFor msg.behaviorId) e) :=
      he _ fun _ _ _ hne => by cases hne
    have hfailed : (appendWorkflowEvent _).Ends p (Works prog allowed p) _ _ :=
      works_append hallowed p rfl fun i hi => by cases hi
    refine ends_mono hfailed (fun _ hq => hq.steps) (fun _ _ hq => hq.steps) fun _ q hq => ?_
    refine Always.after hq.steps ?_
    exact steps_saga hw he.intermediate (fun q name => he _ fun _ _ _ hne => by cases hne) q

theorem steps_timerFired : (timerFiredTurn prog msg).Always (Steps prog allowed) :=
  (steps_admitCommand msg).bind fun _ => (steps_of (works_memory tame_advance)).bind fun _ =>
    (steps_of works_checkpoint).bind fun _ => steps_finishTurn

/-- What a recovery has read, and what it makes of it. -/
theorem of_recoverWorkflow {rt' : Runtime} (h : recoverWorkflow prog rt = some rt') : ∃ snapshot a,
    rt.store.snapshot = some snapshot ∧
    (restoreActor prog snapshot rt.store.events).reopen (readTail rt.store snapshot) = some a ∧
    rt' = { rt with
      actor :=
        some (((rt.store.workflowEvents.filter fun e => snapshot.sequence < e.sequence).foldl replay
          a).redrive prog)
      timers := rt.timers ++ rearmedTimers rt.store } := by
  unfold recoverWorkflow at h
  split at h
  · cases h
  · next snapshot hs =>
    split_ifs at h with he
    split at h
    · cases h
    · next a ha =>
      cases h
      exact ⟨snapshot, a, hs, ha, rfl⟩

theorem store_recoverWorkflow {rt rt' : Runtime} (h : recoverWorkflow prog rt = some rt') :
    rt'.store = rt.store := by
  obtain ⟨_, _, -, -, rfl⟩ := of_recoverWorkflow h
  rfl

theorem steps_commitTransition (hn : ¬ prog.Compiled) {t : DurableTransition}
    (ht : Numbered p.state.store t) (he : ∀ e ∈ t.workflowEvents, allowed e)
    (hid : ∀ e ∈ t.workflowEvents, e.replayId = none) :
    (commitTransition t).Ends p (Steps prog allowed p) (fun _ => Steps prog allowed p) fun _ q =>
      Steps prog allowed p q ∧ q.state.store.latestSequence = p.state.nextSequence := by
  unfold commitTransition
  rw [ends_bind, ends_read]
  cases hc : p.state.store.commitTransition t with
  | error e => exact Steps.refl p
  | ok s =>
    rw [ends_write]
    split_ifs with hw
    · exact Steps.refl p
    · rw [(commitTransition_ok (Nat.lt_of_lt_of_eq (Nat.lt_succ_self _) ht.transition.symm) hc).1]
      exact ⟨.single (.commit hn ht he hid), latestSequence_install ht⟩

theorem steps_command (hn : ¬ prog.Compiled) (idx : Nat) (payload : List Value) :
    (commitWorkflowCommand idx payload).Always (Steps prog allowed) := by
  refine Always.read fun p => ?_
  rw [ends_bind]
  cases ha : p.state.actor with
  | none => exact Steps.refl p
  | some a =>
    rw [ends_expect_some, ends_bind]
    refine ends_imp (steps_commitTransition hn (numbered_command _ a idx payload)
      (fun e he => by cases he) fun e he => by cases he) ?_
    rintro _ q ⟨hq, hlatest⟩
    have hsteps : ReflTransGen (Micro prog allowed) q.state
        ((q.state.modifyActor fun a =>
          { a with currentWorkflowActivation := some ⟨p.state.nextSequence⟩ }).modifyActor
          fun a => { a with sequence := p.state.nextSequence }) :=
      .tail (.single (.activate (Nat.le_of_eq hlatest.symm)))
        (.work (.memory fun _ => Tame.of_fields rfl))
    rw [modifyActor_modifyActor] at hsteps
    exact IsTrans.trans p q _ hq hsteps

theorem steps_stepCompleted (hn : ¬ prog.Compiled) (he : TurnEvents allowed)
    (activation : Option ActivationId) (stepName : String) :
    (commitStepCompleted prog activation stepName).Always (Steps prog allowed) := by
  refine Always.read fun p => ?_
  rw [ends_bind]
  cases ha : p.state.actor with
  | none => exact Steps.refl p
  | some a =>
    rw [ends_expect_some, ends_bind]
    have hevents : ∀ e ∈ (stepTransition prog p.state a activation stepName).workflowEvents,
        allowed e := by
      intro e hm
      rw [mem_singleton.mp hm]
      exact he _ fun _ _ _ hne => by cases hne
    have hids : ∀ e ∈ (stepTransition prog p.state a activation stepName).workflowEvents,
        e.replayId = none := by
      intro e hm
      rw [mem_singleton.mp hm]
      rfl
    refine ends_imp
      (steps_commitTransition hn (numbered_step prog _ a activation stepName) hevents hids)
      ?_
    rintro _ q ⟨hq, _⟩
    exact IsTrans.trans p q _ hq (.single (.work (.memory fun _ => Tame.of_fields rfl)))

theorem steps_native (hn : ¬ prog.Compiled) (he : TurnEvents allowed) (msg : Message)
    (handler : List Value → Fields → Fields) :
    (nativeWorkflowTurn prog msg handler).Always (Steps prog allowed) := by
  have hadmit : (admitOrResume msg).Always (Steps prog allowed) := by
    refine Always.read fun p => ?_
    split
    · exact Steps.refl p
    · exact steps_command hn _ _ p
  have htransitions : (nativeTransitions prog msg handler).Always (Steps prog allowed) := by
    refine hadmit.bind fun activation => Always.bind (Always.remember fun _ => ?_) fun _ => ?_
    · exact .single (.handle hn (handler msg.payload))
    · exact (steps_stepCompleted hn he _ _).attempt
  refine htransitions.bind fun committed => ?_
  cases committed with
  | true => exact steps_finishTurn
  | false =>
    refine Always.remember fun p => ?_
    show ReflTransGen (Micro prog allowed) p.state
      ((recoverWorkflow prog { p.state with actor := none }).getD { p.state with actor := none })
    cases hr : recoverWorkflow prog { p.state with actor := none } with
    | none => exact .single (.drop hn)
    | some rt' => exact .single (.rebuild hn hr)

/-- A turn appends everything but signals. -/
theorem steps_turn (hw : prog.isWorkflow = true) (he : TurnEvents allowed) :
    (stepActor prog).Always (Steps prog allowed) := by
  have hdispatch (msg : Message) : (dispatch prog msg).Always (Steps prog allowed) := by
    unfold dispatch
    cases hs : prog.steps[msg.behaviorId]? with
    | none =>
      split_ifs with hi
      · exact steps_timerFired msg
      · exact steps_finishTurn
    | some step =>
      dsimp only
      cases hc : step.code with
      | sequential b => exact steps_compiled hw he msg false _
      | parallel branches => exact steps_compiled hw he msg true _
      | native handler =>
        dsimp only
        rw [if_pos hw]
        exact steps_native (fun hall => hall step (mem_of_getElem? hs) handler hc) he msg handler
  refine Always.read fun p => ?_
  cases p.state.actor.bind receive with
  | none => exact Steps.refl p
  | some msg =>
    refine Always.bind (steps_of (works_memory fun _ => ?_)) (fun _ => hdispatch msg) p
    exact Tame.of_fields rfl

theorem steps_deliver : (deliver msg).Always (Steps prog allowed) :=
  steps_of (works_memory fun _ => Tame.of_fields rfl)

theorem steps_op (hw : prog.isWorkflow = true) (he : TurnEvents allowed) (op : Op)
    (ho : ∀ name payload, op ≠ .signal name payload) :
    (op.routine prog).Always (Steps prog allowed) := by
  cases op with
  | send msg => exact steps_deliver msg
  | turn => exact steps_turn hw he
  | signal name payload => exact absurd rfl (ho name payload)
  | checkpoint => exact steps_of works_checkpoint
  | setTimer name durationMs =>
    exact steps_of (works_scheduleTimer name durationMs fun q id => he _ fun _ _ _ hne =>
      by cases hne)
  | fireTimer i =>
    refine Always.read fun p => ?_
    cases p.state.timers[i]? with
    | none => exact Steps.refl p
    | some t =>
      refine Always.bind (Always.remember fun _ => .single (.work (.timers _))) (fun _ => ?_) p
      refine (steps_of (works_appendCheckpointed (fun q => ?_) (fun _ => rfl) fun _ => rfl)).bind
        fun _ => steps_deliver _
      exact he _ fun _ _ _ hne => by cases hne

/-- Every operation is a chain of steps. -/
theorem steps_any (hw : prog.isWorkflow = true) (op : Op) :
    (op.routine prog).Always (Steps prog fun _ => True) := by
  cases op with
  | signal name payload =>
    exact steps_signal hw (fun _ _ => trivial) (fun _ _ _ => trivial) name payload
  | _ => exact steps_op hw (fun _ _ => trivial) _ fun _ _ hne => by cases hne

end Steps

/-- A relation between stores that admits the writes of a workflow, with these events. -/
structure Admits (S : MemoryStore → MemoryStore → Prop) (allowed : WorkflowEvent → Prop) :
    Prop where
  journal : ∀ (s : MemoryStore) (idx : Nat) (payload : List Value),
    S s (s.appendJournal ⟨s.latestSequence + 1, idx, payload⟩)
  snapshot :
    ∀ (s : MemoryStore) (snapshot : ActorSnapshot), snapshot.sequence = s.latestSequence + 1 →
    S s (s.saveSnapshot snapshot)
  marker : ∀ (s : MemoryStore) (snapshot : ActorSnapshot)
    (signal : Option String), s.snapshot = some snapshot →
    S s (s.saveSnapshot { snapshot with waitingSignal := signal })
  event : ∀ (s : MemoryStore) (e : WorkflowEvent), e.sequence = s.latestSequence + 1 → allowed e →
    S s (s.appendWorkflowEvent e)
  commit : ∀ (s : MemoryStore) (t : DurableTransition), Numbered s t →
    (∀ e ∈ t.workflowEvents, allowed e) →
    S s (s.install t)

namespace Admits

variable {S : MemoryStore → MemoryStore → Prop}

theorem micro [Std.Refl S] (h : Admits S allowed) {rt rt' : Runtime}
    (hm : Micro prog allowed rt rt') :
    S rt.store rt'.store := by
  cases hm with
  | work hw =>
    cases hw with
    | memory | timers => exact Std.Refl.refl _
    | snapshot ha => exact h.snapshot rt.store _ rfl
    | event hq he hid => exact h.event rt.store _ hq he
  | marker hs signal => exact h.marker rt.store _ signal hs
  | journal idx payload => exact h.journal rt.store idx payload
  | activate | release | suspend | resume | handle | drop => exact Std.Refl.refl _
  | commit hn ht he _ => exact h.commit rt.store _ ht he
  | rebuild hn hr =>
    rw [store_recoverWorkflow hr]
    exact Std.Refl.refl _

/-- The stores at the two ends of a chain of steps are in the relation. -/
theorem along [Std.Refl S] [IsTrans MemoryStore S] (h : Admits S allowed)
    {p q : Process Runtime Effect} (hs : Steps prog allowed p q) :
    S p.state.store q.state.store := by
  have hchain : ReflTransGen (Micro prog allowed) p.state q.state := hs
  generalize q.state = rt at hchain ⊢
  induction hchain with
  | refl => exact Std.Refl.refl _
  | tail _ hm ih => exact IsTrans.trans _ _ _ ih (h.micro hm)

end Admits

/-- No event is above the latest sequence number. -/
def MemoryStore.Bounded (s : MemoryStore) : Prop :=
  ∀ e ∈ s.workflowEvents, e.sequence ≤ s.latestSequence

def Grows (s t : MemoryStore) : Prop := s.Bounded → t.Bounded

instance : Std.Refl Grows := ⟨fun _ h => h⟩

instance : IsTrans MemoryStore Grows := ⟨fun _ _ _ h g b => g (h b)⟩

theorem grows_of {s t : MemoryStore} {n : Nat} (hn : t.latestSequence = s.latestSequence + n)
    (ht : ∀ e ∈ t.workflowEvents, e ∈ s.workflowEvents ∨ e.sequence = s.latestSequence + n) :
    Grows s t := by
  intro h e he
  rcases ht e he with hm | hq
  · rw [hn]
    exact Nat.le_trans (h e hm) (Nat.le_add_right _ _)
  · exact Nat.le_of_eq (hq.trans hn.symm)

theorem grows_admits : Admits Grows fun _ => True where
  journal s idx payload := grows_of (latestSequence_appendJournal rfl) fun e he => Or.inl he
  snapshot s snapshot h := grows_of (latestSequence_saveSnapshot h) fun e he => Or.inl he
  marker s snapshot signal h :=
  grows_of (n := 0) (latestSequence_marker signal h) fun e he => Or.inl he
  event s e h _ := by
    refine grows_of (latestSequence_appendWorkflowEvent h) fun e' he' => ?_
    rcases mem_append.mp he' with hm | hm
    · exact Or.inl hm
    · rw [mem_singleton.mp hm]
      exact Or.inr h
  commit s t ht _ := by
    refine grows_of (latestSequence_install ht) fun e he => ?_
    rcases mem_append.mp he with hm | hm
    · exact Or.inl hm
    · exact Or.inr (ht.event e hm)

/-- What replaying an event does to the fields. -/
def WorkflowEvent.onFields (f : Fields) : WorkflowEvent → Fields
  | .workflowStarted _ => if (f "step_index").isSome then f.set "step_index" (.int 0) else f
  | .stepCompleted _ _ _ => (f.bump "step_index").set "parallel_progress" (.int 0)
  | .parallelBranchCompleted _ _ _ =>
    f.set "parallel_progress" (.int ((f.int? "parallel_progress").getD 0 + 1))
  | _ => f

/-- The fields a store holds: its snapshot, and the events above it. -/
def MemoryStore.image (prog : Program) (s : MemoryStore) : Fields :=
  match s.snapshot with
  | none => Fields.empty
  | some snapshot =>
    (s.workflowEvents.filter fun e => snapshot.sequence < e.sequence).foldl WorkflowEvent.onFields
      (restoreFields prog snapshot s.events)

variable (events : List WorkflowEvent)

theorem stateData_replay (a : Actor) :
    (events.foldl replay a).stateData = events.foldl WorkflowEvent.onFields a.stateData := by
  induction events generalizing a with
  | nil => rfl
  | cons e events ih =>
    rw [foldl_cons, foldl_cons, ih]
    congr 1
    cases e with
    | workflowStarted | sagaCompensated =>
      simp only [replay, applyWorkflowEvent, WorkflowEvent.onFields]
      split_ifs with h
      · rfl
      · rfl
    | _ => rfl

/-- Replaying leaves the epoch of an actor, its activation and what it has suspended. -/
theorem tame_replay (a : Actor) : Tame a (events.foldl replay a) := by
  have hstep (a : Actor) (e : WorkflowEvent) : Tame a (a.replay e) := by
    cases e with
    | workflowStarted q =>
      simp only [replay, applyWorkflowEvent]
      split_ifs with h
      · exact ⟨rfl, rfl, rfl, (tame_setField a _ _).fields⟩
      · exact Tame.of_fields rfl
    | stepCompleted q activation stepName =>
      exact ⟨rfl, rfl, rfl, ((tame_advance a).trans (tame_setField a.advance _ _)).fields⟩
    | sagaCompensated q name =>
      simp only [replay, applyWorkflowEvent]
      split_ifs with h
      · exact Tame.of_fields rfl
      · exact Tame.of_fields rfl
    | parallelBranchCompleted q step branch => exact ⟨rfl, rfl, rfl, (tame_setField a _ _).fields⟩
    | _ => exact Tame.of_fields rfl
  induction events generalizing a with
  | nil => exact Tame.of_fields rfl
  | cons e events ih => exact (hstep a e).trans (ih _)

theorem tame_redrive (prog : Program) (a : Actor) : Tame a (a.redrive prog) := by
  unfold redrive
  dsimp only
  split_ifs with h
  · exact Tame.of_fields rfl
  · exact Tame.of_fields rfl

theorem stateData_redrive (a : Actor) : (a.redrive prog).stateData = a.stateData := by
  unfold redrive
  dsimp only
  split_ifs with h
  · rfl
  · rfl

/-- What recovery needs of a workflow whose commands are not transitions. -/
structure Recoverable (rt : Runtime) : Prop where
  tail : rt.store.durableTail = none
  snapshot : ∃ snapshot, rt.store.snapshot = some snapshot ∧ snapshot.activationEpoch ≠ 0
  epoch : ∀ a, rt.actor = some a → a.activationEpoch ≠ 0

theorem recoverWorkflow_of_recoverable (h : Recoverable rt) :
    ∃ a, recoverWorkflow prog rt.crash = some ⟨rt.store, some a, rearmedTimers rt.store⟩ ∧
      a.stateData = rt.store.image prog ∧
      ∃ snapshot, rt.store.snapshot = some snapshot ∧
        Tame (restoreActor prog snapshot rt.store.events) a := by
  obtain ⟨snapshot, hs, hepoch⟩ := h.snapshot
  unfold recoverWorkflow crash
  simp only [hs, hepoch, ↓reduceIte, readTail, h.tail, reopen]
  refine ⟨_, rfl, ?_, snapshot, rfl, ?_⟩
  · rw [stateData_redrive, stateData_replay]
    unfold image
    rw [hs]
    rfl
  · exact (tame_replay _ _).trans (tame_redrive prog _)

end Nulang.Persist

import Nulang.WorkflowTurn

/-!
# Steps that are run again

A step that crashed is run again after the recovery, and the events it has already recorded are
meant to be recognised by their replay identities. But each run of a step opens an activation of its
own: its command is journaled anew, whether it was sent again or put back by recovery. So no
recorded event is ever recognised, and a run that comes to its end records all its events
(`ends_script`, `driven_turn`, `driven_signal`). The events are there exactly once if and only if
the runs that crashed had recorded none of them (`recorded_once_iff`).
-/

set_option autoImplicit false

namespace Nulang.Persist

open Runtime List Handler

/-- A custom event or a timer, without its place in the log. -/
inductive Listed where
  | custom (event : String) (args : List Value)
  | timer (name : String) (durationMs : Nat)
deriving DecidableEq

def WorkflowEvent.listed? : WorkflowEvent → Option Listed
  | .custom _ _ event args => some (.custom event args)
  | .timerSet _ _ name durationMs => some (.timer name durationMs)
  | _ => none

/-- The custom events and timers a store has recorded. -/
def MemoryStore.listed (s : MemoryStore) : List Listed :=
  s.workflowEvents.filterMap WorkflowEvent.listed?

theorem listed_append (s : MemoryStore) (e : WorkflowEvent) :
    (s.appendWorkflowEvent e).listed = s.listed ++ e.listed?.toList := by
  unfold MemoryStore.listed MemoryStore.appendWorkflowEvent
  rw [filterMap_append, filterMap_cons, filterMap_nil]
  cases e.listed? with
  | none => rfl
  | some l => rfl

/-- The code emits these events on every run, whatever it reads, and may wait in between. -/
inductive Emits : Body → List Listed → Prop where
  | finish : Emits .finish []
  | observe {k : Fields → Body} {l : List Listed} (h : ∀ f, Emits (k f) l) : Emits (.observe k) l
  | assign {x : String} {v : Value} {k : Body} {l : List Listed} (h : Emits k l) :
      Emits (.assign x v k) l
  | emit {event : String} {args : List Value} {k : Body} {l : List Listed}
      (hb : ¬ (event = "ParallelBranchCompleted" ∧ args.length = 2)) (h : Emits k l) :
    Emits (.emit event args k) (.custom event args :: l)
  | timer {name : String} {durationMs : Nat} {k : Body} {l : List Listed} (h : Emits k l) :
    Emits (.timer name durationMs k) (.timer name durationMs :: l)
  | wait {signal : String} {k : Body} {l : List Listed} (h : Emits k l) : Emits (.wait signal k) l

/-- How far a run got, over what was recorded before it. -/
inductive Ran (base l : List Listed) (s : MemoryStore) : Outcome → Prop where
  | completed (h : s.listed = base ++ l) : Ran base l s .completed
  | suspended {signal : String} {rest : Body} (past : List Listed) {later : List Listed}
      (hl : l = past ++ later)
      (he : Emits rest later) (h : s.listed = base ++ past) : Ran base l s (.suspended signal rest)

theorem Ran.cons {base l : List Listed} {s : MemoryStore} {outcome : Outcome} {x : Listed}
    (h : Ran (base ++ [x]) l s outcome) : Ran base (x :: l) s outcome := by
  cases h with
  | completed h => exact .completed (by rw [h, append_assoc, singleton_append])
  | suspended past hl he h =>
    refine .suspended (x :: past) (by rw [hl, cons_append]) he ?_
    rw [h, append_assoc, singleton_append]

section Script

variable {prog : Program} {activation : ActivationId} {a : Actor} {p : Process Runtime Effect}

theorem listed_identified (h : Opened activation a p) {e : Nat → ReplayEventId → WorkflowEvent}
    {x : Listed} (hx : ∀ n id, (e n id).listed? = some x) :
    (p.wrote (identified activation e)).state.store.listed = p.state.store.listed ++ [x] := by
  simp only [Process.state_wrote, identified, h.actor]
  rw [listed_append, hx]
  rfl

/-- In an activation of its own, code records every event it emits. -/
theorem ends_script (hw : prog.isWorkflow = true) {b : Body} {l : List Listed} (hs : Emits b l)
    (h : Opened activation a p) (hn : p.writes = none) {base : List Listed}
    (hbase : p.state.store.listed = base) :
    (b.run prog).Ends p (fun _ => False) (fun _ _ => False) fun outcome q =>
      q.writes = none ∧ (∃ c, Opened activation c q) ∧ Ran base l q.state.store outcome := by
  -- On the script; `base` takes up what the steps before have recorded.
  induction hs generalizing a p base with
  | finish => exact ⟨hn, ⟨a, h⟩, .completed (by rw [hbase, append_nil])⟩
  | observe hk ih =>
    unfold Body.run
    rw [ends_bind, ends_read, h.fields]
    exact ih a.stateData h hn hbase
  | @assign x v k l hk ih =>
    unfold Body.run
    rw [ends_bind, ends_remember]
    exact ih (h.remember (f := fun a => a.setField x v) (tame_setField a x v) rfl rfl) hn hbase
  | @emit event args k l hb hk ih =>
    have hbumped :=
      h.remember
        (f := fun a => { a with stateData := prog.eventSourced.foldl Fields.bump a.stateData })
        (tame_bumpAll a prog.eventSourced) rfl rfl
    have hnext :=
      hbumped.identified (e := fun n id => .custom n (some id) event args) (fun _ _ => rfl)
        fun _ _ => rfl
    unfold Body.run emitEvent
    rw [ends_bind, ends_bind, ends_read, ends_bind, ends_remember, if_pos hw, if_neg hb]
    have hseq : p.state.nextSequence = (p.changed (Runtime.modifyActor fun a =>
      { a with
        stateData := prog.eventSourced.foldl Fields.bump a.stateData })).state.nextSequence := rfl
    -- The identity is unused, so the event is appended and not skipped.
    rw [hseq, ends_emitCustom hbumped.actor hbumped.unreplayed hbumped.current,
      if_neg (by simp [hn])]
    have hlisted := listed_identified hbumped (e := fun n id => .custom n (some id) event args)
      (x := .custom event args) fun _ _ => rfl
    refine ends_imp (ih hnext (by simp [hn]) (hlisted.trans (congrArg (· ++ [_]) hbase))) ?_
    rintro outcome q ⟨hq, hrun, hran⟩
    exact ⟨hq, hrun, hran.cons⟩
  | @timer name durationMs k l hk ih =>
    have hnext :=
      h.identified (e := fun n id => .timerSet n (some id) name durationMs) (fun _ _ => rfl)
        fun _ _ => rfl
    unfold Body.run scheduleWorkflowTimer
    rw [ends_bind, ends_attempt, ends_bind,
      ends_appendTimerSet h.actor h.unreplayed h.current, if_neg (by simp [hn]),
      ends_when, if_pos rfl]
    unfold rearmTimer
    rw [ends_remember, if_pos rfl]
    have hlisted := listed_identified h (e := fun n id => .timerSet n (some id) name durationMs)
      (x := .timer name durationMs) fun _ _ => rfl
    refine ends_imp (ih (hnext.armed name durationMs) (by simp [hn])
      (hlisted.trans (congrArg (· ++ [_]) hbase))) ?_
    rintro outcome q ⟨hq, hrun, hran⟩
    exact ⟨hq, hrun, hran.cons⟩
  | @wait signal k l hk ih =>
    unfold Body.run
    rw [ends_bind, ends_read]
    split_ifs with hready
    · exact ih h hn hbase
    · exact ⟨hn, ⟨a, h⟩, .suspended [] rfl (.wait hk) (by rw [hbase, append_nil])⟩

end Script

/-! ## A run of the step -/

/-- The actor when its execution goes on under an activation. -/
def Actor.underway (a : Actor) (activation : ActivationId) : Actor :=
  { a with suspendedExecution := none, currentWorkflowActivation := some activation }

/-- The step has come to its end and all its events are recorded, or it waits, and those up to there
are. -/
inductive Driven (activation : ActivationId) (base l : List Listed) (rt : Runtime) : Prop where
  | finished {a : Actor} (ha : rt.actor = some a) (hs : a.suspendedExecution = none)
      (h : rt.store.listed = base ++ l) : Driven activation base l rt
  | waiting {a : Actor} {s : SuspendedExecution} (past : List Listed) {later : List Listed}
      (ha : rt.actor = some a)
      (hs : a.suspendedExecution = some s) (hact : s.activation = some activation)
      (hl : l = past ++ later)
      (he : Emits s.rest later) (h : rt.store.listed = base ++ past)
      (hu : Unreplayed rt.store (a.underway activation)) : Driven activation base l rt

section Driven

variable {prog : Program} {activation : ActivationId} {a : Actor} {p : Process Runtime Effect}
  {K : Process Runtime Effect → Prop} {E : IoError → Process Runtime Effect → Prop}
  {base l : List Listed}

theorem listed_checkpointed (rt : Runtime) :
    (rt.checkpointed prog).store.listed = rt.store.listed := by
  unfold Runtime.checkpointed
  cases rt.actor with
  | none => rfl
  | some a => rfl

theorem listed_appended {e : Nat → WorkflowEvent} (he : ∀ n, (e n).listed? = none) (rt : Runtime) :
    (rt.appended e).store.listed = rt.store.listed := by
  rw [store_appended, listed_append, he]
  exact append_nil _

theorem ends_recordStepCompleted (h : Opened activation a p) (hn : p.writes = none)
    (hl : p.state.store.listed = base ++ l) (id : Option ActivationId) (stepName : String) :
    (recordStepCompleted prog id stepName).Ends p K E fun _ q => (∃ c, Opened activation c q) ∧
      q.state.store.listed = base ++ l := by
  have hrecorded :=
    h.appended (e := fun n => .stepCompleted n id stepName) (fun _ => rfl) fun _ => rfl
  have hlive : p.state.actor.isSome := by simp [h.actor]
  unfold recordStepCompleted
  rw [ends_appendCheckpointed _ hlive, if_neg (by simp [hn]), if_neg (by simp [hn])]
  refine ⟨⟨_, hrecorded.checkpointed prog⟩, ?_⟩
  rw [Process.state_wrote, listed_checkpointed, Process.state_wrote, listed_appended fun _ => rfl]
  exact hl

theorem ends_finishCompleted (hw : prog.isWorkflow = true) (h : Opened activation a p)
    (hn : p.writes = none) (hl : p.state.store.listed = base ++ l) (idx : Nat) (isParallel : Bool)
    (id : Option ActivationId) :
    (finishCompiled prog idx isParallel id .completed).Ends p K E fun _ q =>
      (∃ c, Opened activation c q) ∧ q.state.store.listed = base ++ l := by
  have hlive : p.state.actor.isSome := by simp [h.actor]
  have hsaved := h.checkpointed prog
  have hlisted : (p.wrote (Runtime.checkpointed prog)).state.store.listed = base ++ l := by
    rw [Process.state_wrote, listed_checkpointed]
    exact hl
  unfold finishCompiled
  rw [ends_bind, ends_checkpoint prog hlive, if_neg (by simp [hn]), ends_when, if_pos hw,
    ends_bind, ends_when]
  cases isParallel with
  | false => exact ends_recordStepCompleted hsaved (by simp [hn]) hlisted _ _
  | true =>
    rw [if_pos rfl, ends_remember]
    exact ends_recordStepCompleted (hsaved.remember (f := Actor.advance) (tame_advance _) rfl rfl)
      (by simp [hn])
      hlisted _ _

/-- The marker of a suspension is the only thing that changes. -/
theorem ends_suspensionMarker {Q : Unit → Process Runtime Effect → Prop} (hn : p.writes = none)
    (hQ : ∀ q : Process Runtime Effect, q.state.actor = p.state.actor →
      q.state.store.workflowEvents = p.state.store.workflowEvents →
        q.state.store.latestSequence = p.state.store.latestSequence → Q () q) :
    persistSuspensionMarker.Ends p K E Q := by
  unfold persistSuspensionMarker
  rw [ends_bind, ends_read]
  cases ha : p.state.actor with
  | none => exact hQ p rfl rfl rfl
  | some a =>
    cases hs : p.state.store.snapshot with
    | none => exact hQ p rfl rfl rfl
    | some snapshot =>
      dsimp only
      rw [ends_when]
      split_ifs with hm
      · rw [ends_write_of_none hn]
        exact hQ _ rfl rfl (MemoryStore.latestSequence_marker _ hs)
      · exact hQ p rfl rfl rfl

/-- A turn that is not killed leaves its step finished or waiting, with everything it has emitted
recorded under the activation of its command. -/
theorem driven_turn (hw : prog.isWorkflow = true) {rt : Runtime} (h : Traced rt)
    (ha : rt.actor = some a) {msg : Message} (hmsg : a.receive = some msg) {isParallel : Bool}
    {body : Body} (hcode : prog.codeFor msg = some (isParallel, body)) (hs : Emits body l) :
    Driven ⟨rt.nextSequence⟩ rt.store.listed l (rt.after (stepActor prog) none) := by
  refine after_of_ends ?_
  have hpopped : Traced (rt.modifyActor fun a => { a with mailbox := a.mailbox.tail }) :=
    h.tame fun _ => Tame.of_fields rfl
  have hactor : (rt.modifyActor fun a => { a with mailbox := a.mailbox.tail }).actor
      = some { a with mailbox := a.mailbox.tail } := by
    simp only [Runtime.modifyActor, ha, Option.map_some]
  unfold stepActor
  rw [ends_bind, ends_read, ha, Option.bind_some, hmsg]
  dsimp only
  rw [ends_bind, ends_remember, dispatch_of_codeFor hcode]
  unfold compiledTurn admitCommand
  rw [ends_bind, ends_bind, ends_read, ends_bind,
    ends_write_of_none rfl, if_pos hw, ends_bind, ends_remember, ends_pure,
    ends_bind]
  have hstate :
      (⟨(rt.modifyActor fun a => { a with mailbox := a.mailbox.tail }).admitted msg, [], none⟩ :
      Process Runtime Effect).state =
      (rt.modifyActor fun a => { a with mailbox := a.mailbox.tail }).admitted msg := rfl
  -- The command has been journaled, so the activation is one that no event in the store has.
  have hopened := opened_admitted hpopped hactor (a.awake_of_receive hmsg) hstate
  refine ends_imp (ends_script hw hs hopened rfl rfl) ?_
  rintro outcome q ⟨hq, ⟨c, hc⟩, hran⟩
  rw [ends_bind]
  cases hran with
  | completed hl =>
    refine ends_imp (ends_finishCompleted hw hc hq hl _ _ _) ?_
    rintro _ r ⟨⟨c', hc'⟩, hl'⟩
    refine .finished (a := { c' with currentWorkflowActivation := none }) ?_
      hc'.unreplayed.awake hl'
    show r.state.actor.map _ = _
    rw [hc'.actor]
    rfl
  -- The step waits: what it has emitted so far is recorded, and the rest is kept with its
  -- activation.
  | @suspended signal rest past later hl he hlisted =>
    unfold finishCompiled suspend
    rw [ends_bind, ends_remember]
    refine ends_suspensionMarker hq fun r hactor hevents hlatest => ?_
    have hr : r.state.actor = some { c with
        waitingSignal := some signal
        suspendedExecution :=
          some ⟨rest, msg.behaviorId, some ⟨rt.nextSequence⟩,
            prog.stepNameFor msg.behaviorId⟩ } := by
      rw [hactor]
      show q.state.actor.map _ = _
      rw [hc.actor, Option.map_some, hc.current]
      rfl
    have hunreplayed : Unreplayed r.state.store c :=
      hc.unreplayed.store hevents (Nat.le_of_eq hlatest.symm)
    refine .waiting (a := { c with
        waitingSignal := some signal
        suspendedExecution :=
          some ⟨rest, msg.behaviorId, some ⟨rt.nextSequence⟩, prog.stepNameFor msg.behaviorId⟩
        currentWorkflowActivation := none }) past ?_ rfl rfl hl he ?_ ?_
    · show r.state.actor.map _ = _
      rw [hr]
      rfl
    · show r.state.store.listed = _
      unfold MemoryStore.listed
      rw [hevents]
      exact hlisted
    · exact hunreplayed.memory hunreplayed.awake.symm hc.current.symm rfl rfl

/-- After a signal was recorded and has reached the actor. -/
def Runtime.signalled (prog : Program) (name : String) (payload : Option String) (rt : Runtime) :
    Runtime :=
  ((rt.appended fun n => .signalReceived n name payload).checkpointed prog).modifyActor fun a =>
    { a with receivedSignals := a.receivedSignals ++ [(name, payload)] }

theorem listed_signalled (rt : Runtime) (prog : Program) (name : String) (payload : Option String) :
    (rt.signalled prog name payload).store.listed = rt.store.listed :=
  (listed_checkpointed _).trans (listed_appended (fun _ => rfl) rt)

theorem actor_signalled {rt : Runtime} (ha : rt.actor = some a) (name : String)
    (payload : Option String) : (rt.signalled prog name payload).actor = some { a with
      sequence := (rt.appended fun n => .signalReceived n name payload).nextSequence
      receivedSignals := a.receivedSignals ++ [(name, payload)] } := by
  have hactor : (rt.appended fun n => .signalReceived n name payload).actor = some a := ha
  simp only [Runtime.signalled, Runtime.checkpointed, hactor, Runtime.modifyActor, Option.map_some]

theorem Driven.signalled {rt : Runtime} (h : Driven activation base l rt) (prog : Program)
    (name : String) (payload : Option String) :
    Driven activation base l (rt.signalled prog name payload) := by
  have hlisted := listed_signalled rt prog name payload
  cases h with
  | finished ha hs h => exact .finished (actor_signalled ha name payload) hs (hlisted.trans h)
  | @waiting a s past later ha hs hact hl he h hu =>
    refine .waiting past (actor_signalled ha name payload) hs hact hl he (hlisted.trans h) ?_
    have hactor : (rt.appended fun n => .signalReceived n name payload).actor = some a := ha
    have hstore : (rt.signalled prog name payload).store
        = (rt.appended fun n => .signalReceived n name payload).store.saveSnapshot
          (a.snapshotAt prog
            (rt.appended fun n => .signalReceived n name payload).nextSequence) := by
      simp only [Runtime.signalled, Runtime.checkpointed, hactor, Runtime.modifyActor]
    have happended := hu.append (e := .signalReceived rt.nextSequence name payload) rfl rfl
    have hsaved : Unreplayed (rt.signalled prog name payload).store (a.underway activation) := by
      rw [hstore]
      refine happended.store rfl ?_
      exact Nat.le_of_lt
        (Nat.lt_of_lt_of_eq (Nat.lt_succ_self _) (MemoryStore.latestSequence_saveSnapshot rfl).symm)
    exact hsaved.memory rfl rfl rfl rfl

/-- A waiting step is resumed under its activation. -/
theorem ends_resumeSuspended (hw : prog.isWorkflow = true) (hn : p.writes = none)
    (ha : p.state.actor = some a) {s : SuspendedExecution} (hact : s.activation = some activation)
    {past later : List Listed} (hl : l = past ++ later) (he : Emits s.rest later)
    (h : p.state.store.listed = base ++ past)
    (hu : Unreplayed p.state.store (a.underway activation)) :
    (resumeSuspended prog s).Ends p (fun _ => False) (fun _ _ => False) fun _ q =>
      Driven activation base l q.state := by
  have hresumed : Opened activation ((a.underway activation).alignReplay activation)
      (p.changed
        (Runtime.modifyActor fun b => (b.underway activation).alignReplay activation)) := by
    refine ⟨?_, hu.aligned rfl, (tame_alignReplay _ activation).activation⟩
    simp only [Process.state_changed, Runtime.modifyActor, ha, Option.map_some]
  unfold resumeSuspended
  rw [ends_bind, ends_remember, ends_bind, hact]
  refine ends_imp (ends_script hw he hresumed hn h) ?_
  rintro outcome q ⟨hq, ⟨c, hc⟩, hran⟩
  rw [ends_bind, ends_remember]
  have hcalm :=
    hc.remember (f := fun b => { b with waitingSignal := none }) (Tame.of_fields rfl) rfl rfl
  cases hran with
  | completed hlisted =>
    dsimp only
    -- What was recorded before the wait and what is recorded now make up the whole script.
    rw [ends_when, if_pos hw, ends_bind, ends_remember]
    have hadvanced := hcalm.remember (f := Actor.advance) (tame_advance _) rfl rfl
    have hall : q.state.store.listed = base ++ l := by
      rw [hl, ← append_assoc]
      exact hlisted
    refine ends_imp (ends_recordStepCompleted hadvanced hq hall _ _) ?_
    rintro _ r ⟨⟨c', hc'⟩, hl'⟩
    exact .finished hc'.actor hc'.unreplayed.awake hl'
  | @suspended signal rest before after hlater hrest hlisted =>
    dsimp only
    rw [ends_remember]
    refine .waiting (a := { c with
        waitingSignal := some signal
        suspendedExecution := some { s with rest := rest, activation := some activation } })
      (past ++ before) ?_ rfl rfl ?_ hrest ?_ ?_
    · show ((q.state.actor.map _).map _) = _
      rw [hc.actor]
      rfl
    · rw [hl, hlater, append_assoc]
    · rw [← append_assoc]
      exact hlisted
    · exact hc.unreplayed.memory hc.unreplayed.awake.symm hc.current.symm rfl rfl

/-- A signal that reaches a waiting step resumes it under its activation, and every other signal
leaves it. -/
theorem driven_signal (hw : prog.isWorkflow = true) {rt : Runtime} (h : Driven activation base l rt)
    (name : String) (payload : Option String) :
    Driven activation base l (rt.after (signalWorkflow prog name payload) none) := by
  refine after_of_ends ?_
  have hlive : rt.actor.isSome := by
    cases h with
    | finished ha => simp [ha]
    | waiting _ ha => simp [ha]
  unfold signalWorkflow appendSignalReceived deliverSignal
  rw [ends_bind, ends_appendCheckpointed _ hlive, if_neg (by simp), if_neg (by simp),
    ends_bind, ends_remember, ends_bind, ends_read, ends_when]
  have hstill := h.signalled prog name payload
  split_ifs with hwaits
  · unfold resumeSuspendedWorkflowStep
    rw [ends_bind, ends_read]
    cases id hstill with
    | finished ha hs _ =>
      have hnone := (congrArg (Option.bind · Actor.suspendedExecution) ha).trans hs
      simp only [Runtime.signalled] at hnone
      simp only [Process.state_changed, Process.state_wrote, hnone]
      exact hstill
    | waiting past ha hs hact hl he hlisted hu =>
      have hsome := (congrArg (Option.bind · Actor.suspendedExecution) ha).trans hs
      simp only [Runtime.signalled] at hsome
      simp only [Process.state_changed, Process.state_wrote, hsome]
      exact ends_resumeSuspended hw rfl ha hact hl he hlisted hu
  · exact hstill

end Driven

/-- The step is the next one to run, and its code emits the events. -/
def Drives (prog : Program) (l : List Listed) (rt : Runtime) : Prop :=
  ∃ a msg isParallel body, rt.actor = some a ∧ a.receive = some msg ∧
    prog.codeFor msg = some (isParallel, body) ∧ Emits body l

/-- A run of the step: its turn, and the signals that arrive after it. -/
def Runtime.drive (prog : Program) (rt : Runtime) (signals : List (String × Option String)) :
    Runtime :=
  signals.foldl (fun rt s => rt.after (signalWorkflow prog s.1 s.2) none)
    (rt.after (stepActor prog) none)

/-- A run of the step that is cut off, in its turn or in one of the signals. -/
inductive Broken (prog : Program) (rt : Runtime) : Runtime → Prop where
  | turn (k : Nat) : Broken prog rt (rt.after (stepActor prog) (some k))
  | signal (signals : List (String × Option String)) (name : String)
      (payload : Option String) (k : Nat) :
    Broken prog rt ((rt.drive prog signals).after (signalWorkflow prog name payload) (some k))

/-- Any number of runs of the step that crashed, each followed by a recovery; commands may be sent
again. -/
inductive Attempts (prog : Program) (l : List Listed) (rt₀ : Runtime) : Runtime → Prop where
  | start : Attempts prog l rt₀ rt₀
  | sent {rt : Runtime} (h : Attempts prog l rt₀ rt) (msg : Message) :
      Attempts prog l rt₀ (rt.after (deliver msg) none)
  | crashed {rt cut rt' : Runtime} (h : Attempts prog l rt₀ rt) (hd : Drives prog l rt)
      (hb : Broken prog rt cut)
      (hr : recoverWorkflow prog cut.crash = some rt') : Attempts prog l rt₀ rt'

section Attempts

variable {prog : Program} {l : List Listed} {rt₀ rt : Runtime}

theorem Traced.drive (hw : prog.isWorkflow = true) (h : Traced rt)
    (signals : List (String × Option String)) :
    Traced (rt.drive prog signals) := by
  exact foldlRecOn (motive := Traced) signals _ (h.after hw .turn none) fun _ h s _ =>
    h.after hw (.signal s.1 s.2) none

theorem Attempts.traced (hw : prog.isWorkflow = true) (h₀ : Traced rt₀)
    (h : Attempts prog l rt₀ rt) : Traced rt := by
  induction h with
  | start => exact h₀
  | sent _ msg ih => exact ih.after hw (.send msg) none
  | crashed _ _ hb hr ih =>
    cases hb with
    | turn k => exact (ih.after hw .turn (some k)).crash.recovered hr
    | signal signals name payload k =>
      exact ((ih.drive hw signals).after hw (.signal name payload) (some k)).crash.recovered hr

/-- The unbroken run stays under the activation of its turn. -/
theorem driven_drive (hw : prog.isWorkflow = true) (h : Traced rt) (hd : Drives prog l rt)
    (signals : List (String × Option String)) :
    Driven ⟨rt.nextSequence⟩ rt.store.listed l (rt.drive prog signals) := by
  obtain ⟨a, msg, isParallel, body, ha, hmsg, hcode, he⟩ := hd
  have hturn := driven_turn hw h ha hmsg hcode he
  unfold drive
  generalize rt.after (stepActor prog) none = rt' at hturn ⊢
  induction signals generalizing rt' with
  | nil => exact hturn
  | cons s signals ih => exact ih _ (driven_signal hw hturn s.1 s.2)

/-- When the step has come to its end, its events are recorded once and in order exactly if the runs
that crashed had recorded none of them. -/
theorem recorded_once_iff (hw : prog.isWorkflow = true) (h₀ : Reachable prog rt₀)
    (h : Attempts prog l rt₀ rt) (hd : Drives prog l rt) (signals : List (String × Option String))
    (hdone : (rt.drive prog signals).actor.bind Actor.suspendedExecution = none) :
    (rt.drive prog signals).store.listed = rt₀.store.listed ++ l ↔
    rt.store.listed = rt₀.store.listed := by
  have hrecorded : (rt.drive prog signals).store.listed = rt.store.listed ++ l := by
    cases driven_drive hw (h.traced hw (h₀.traced hw)) hd signals with
    | finished ha hs hl => exact hl
    | waiting past ha hs =>
      rw [ha, Option.bind_some, hs] at hdone
      cases hdone
  rw [hrecorded]
  exact append_left_inj l

end Attempts

/-- A workflow of one step, which reserves, waits for an approval and charges. -/
def chargeStep : Program where
  isWorkflow := true
  models := []
  models_nodup := by decide
  defaults := []
  steps := [⟨"charge", .sequential fun _ =>
    .emit "reserved" []
      (.wait "approved" (.timer "remind" 60 (.emit "charged" [.int 5] .finish))), none⟩]

def chargeEvents : List Listed :=
  [.custom "reserved" [], .timer "remind" 60, .custom "charged" [.int 5]]

def chargeSent : Runtime :=
  (spawnWorkflow chargeStep (chargeStep.initial [])).after (deliver ⟨0, []⟩) none

theorem emits_charge : Emits (.emit "reserved" [] (.wait "approved" (.timer "remind" 60
    (.emit "charged" [.int 5] .finish)))) chargeEvents :=
  .emit (by decide) (.wait (.timer (.emit (by decide) .finish)))

/-- The run crashes after the message has been journaled; no event is lost, and none is recorded
twice. -/
theorem recorded_once_crashed :
    ∃ rt cut, Broken chargeStep chargeSent cut ∧ cut.store ≠ chargeSent.store ∧
      recoverWorkflow chargeStep cut.crash = some rt ∧
      ((rt.after (deliver ⟨0, []⟩) none).drive chargeStep [("approved", none)]).store.listed =
        chargeSent.store.listed ++ chargeEvents := by
  have hdrives : Drives chargeStep chargeEvents chargeSent :=
    ⟨_, _, _, _, rfl, rfl, rfl, emits_charge⟩
  refine ⟨_, _, .turn 1, by decide +kernel, rfl, ?_⟩
  exact (recorded_once_iff rfl (.perform (.spawn []) (.send ⟨0, []⟩))
    (.sent (.crashed .start hdrives (.turn 1) rfl) ⟨0, []⟩)
    ⟨_, _, _, _, rfl, rfl, rfl, emits_charge⟩
    [("approved", none)] rfl).mpr rfl

/-- The run crashes after it has recorded its first event; the step is run again, and records it
again. -/
theorem reserved_twice :
    ∃ rt, Attempts chargeStep chargeEvents chargeSent rt ∧ Drives chargeStep chargeEvents rt ∧
      (rt.drive chargeStep [("approved", none)]).actor.bind Actor.suspendedExecution = none ∧
      (rt.drive chargeStep [("approved", none)]).store.listed = .custom "reserved"
      [] :: chargeEvents :=
  ⟨_, .sent (.crashed .start ⟨_, _, _, _, rfl, rfl, rfl, emits_charge⟩ (.turn 2) rfl) ⟨0, []⟩,
    ⟨_, _, _, _, rfl, rfl, rfl, emits_charge⟩, rfl, by decide +kernel⟩

end Nulang.Persist

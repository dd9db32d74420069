import Nulang.StoreSteps

/-!
# Timers across a recovery

A workflow records each timer it sets and each timer that fires, and recovery arms the timers again
from that log. A fire belongs to the oldest set of its name that has not fired yet, so the timers to
arm are those of `unfired`. Recovery goes by names alone: it arms every set of a name that has never
fired, and no set of a name that has. The two agree exactly on the logs in which a name that has
fired has nothing outstanding (`timers_survive_recovery`).
-/

set_option autoImplicit false

namespace Nulang.Persist

open List Handler

/-! ## The timers to arm -/

/-- A set timer waits at the end of the queue; a fire takes the oldest timer of its name. -/
def awaitFire (pending : List Timer) : WorkflowEvent → List Timer
  | .timerSet _ _ name durationMs => pending ++ [⟨name, durationMs⟩]
  | .timerFired _ name => pending.eraseP fun t => t.name = name
  | _ => pending

/-- The timers a log has set and not fired. -/
def unfired (log : List WorkflowEvent) : List Timer := log.foldl awaitFire []

/-- How many sets of a name are waiting, from how many were before an event. -/
def countWaiting (name : String) (n : Nat) : WorkflowEvent → Nat
  | .timerSet _ _ name' _ => if name' = name then n + 1 else n
  | .timerFired _ name' => if name' = name then n - 1 else n
  | _ => n

/-- How many sets of a name a log leaves waiting. -/
def outstanding (name : String) (log : List WorkflowEvent) : Nat := log.foldl (countWaiting name) 0

def firedNames (log : List WorkflowEvent) : List String := log.filterMap WorkflowEvent.firedTimer?

def setTimers (log : List WorkflowEvent) : List Timer := log.filterMap WorkflowEvent.setTimer?

theorem filter_eraseP {α : Type} {p q : α → Bool} (h : ∀ x, p x = true → q x = false) (l : List α) :
    (l.eraseP p).filter q = l.filter q := by
  induction l with
  | nil => rfl
  | cons x l ih =>
    cases hp : p x with
    | true => rw [eraseP_cons_of_pos hp, filter_cons_of_neg (by simp [h x hp])]
    | false =>
      rw [eraseP_cons_of_neg (by simp [hp]), filter_cons, filter_cons, ih]

theorem countP_eraseP_self {α : Type} (p : α → Bool) (l : List α) :
    (l.eraseP p).countP p = l.countP p - 1 := by
  induction l with
  | nil => rfl
  | cons x l ih =>
    cases hp : p x with
    | true => rw [eraseP_cons_of_pos hp, countP_cons_of_pos hp, Nat.add_sub_cancel]
    | false =>
      have hn : ¬ p x = true := by simp [hp]
      rw [eraseP_cons_of_neg hn, countP_cons_of_neg hn, countP_cons_of_neg hn, ih]

variable (name : String)

theorem countP_awaitFire (pending : List Timer) (e : WorkflowEvent) :
    (awaitFire pending e).countP (·.name = name) =
    countWaiting name (pending.countP (·.name = name)) e := by
  cases e with
  | timerSet q r name' d =>
    simp only [awaitFire, countWaiting, countP_append, countP_singleton, decide_eq_true_eq]
    split_ifs with h
    · rfl
    · rfl
  | timerFired q name' =>
    simp only [awaitFire, countWaiting]
    split_ifs with h
    · subst h
      exact countP_eraseP_self ..
    · rw [countP_eq_length_filter, countP_eq_length_filter, filter_eraseP]
      intro t ht
      simp only [decide_eq_true_eq] at ht
      simp [ht, h]
  | _ => rfl

variable (log : List WorkflowEvent)

theorem countP_foldl_awaitFire (pending : List Timer) :
    (log.foldl awaitFire pending).countP (·.name = name)
      = log.foldl (countWaiting name) (pending.countP (·.name = name)) := by
  induction log generalizing pending with
  | nil => rfl
  | cons e log ih => rw [foldl_cons, foldl_cons, ih, countP_awaitFire]

theorem outstanding_eq : outstanding name log = (unfired log).countP (·.name = name) :=
  (countP_foldl_awaitFire name log []).symm

/-- What is waiting under names that never fire is what was set under them. -/
theorem filter_foldl_awaitFire (q : Timer → Bool) (log : List WorkflowEvent) (pending : List Timer)
    (hq : ∀ t, t.name ∈ firedNames log → q t = false) :
    (log.foldl awaitFire pending).filter q = pending.filter q ++ (setTimers log).filter q := by
  induction log generalizing pending with
  | nil => exact (append_nil _).symm
  | cons e log ih =>
    have hlog : ∀ t : Timer, t.name ∈ firedNames log → q t = false := by
      intro t ht
      refine hq t ?_
      unfold firedNames at ht ⊢
      rw [filterMap_cons]
      split
      · exact ht
      · exact mem_cons_of_mem _ ht
    rw [foldl_cons, ih _ hlog]
    cases e with
    | timerSet q' r name d =>
      simp only [awaitFire, setTimers, filterMap_cons, WorkflowEvent.setTimer?, filter_append,
        append_assoc]
      rw [← filter_append, singleton_append]
    | timerFired q' name =>
      simp only [awaitFire, setTimers, filterMap_cons, WorkflowEvent.setTimer?]
      rw [filter_eraseP]
      intro t ht
      simp only [decide_eq_true_eq] at ht
      exact hq t (by simp [firedNames, WorkflowEvent.firedTimer?, ht])
    | _ => rfl

variable (s : MemoryStore)

theorem setTimers_readTimerEvents :
    s.readTimerEvents.filterMap WorkflowEvent.setTimer? = setTimers s.workflowEvents := by
  unfold MemoryStore.readTimerEvents setTimers
  rw [filterMap_filter]
  congr 1
  funext e
  cases e
  all_goals rfl

theorem firedNames_readTimerEvents :
    s.readTimerEvents.filterMap WorkflowEvent.firedTimer? = firedNames s.workflowEvents := by
  unfold MemoryStore.readTimerEvents firedNames
  rw [filterMap_filter]
  congr 1
  funext e
  cases e
  all_goals rfl

/-- Recovery arms the waiting timers whose names have never fired. -/
theorem rearmedTimers_eq :
    rearmedTimers s = (unfired s.workflowEvents).filter fun t =>
      t.name ∉ firedNames s.workflowEvents := by
  unfold rearmedTimers unfired
  rw [setTimers_readTimerEvents, firedNames_readTimerEvents, filter_foldl_awaitFire]
  · rfl
  · intro t ht
    simpa using ht

/-- Nothing is left out exactly if no name that has fired is waiting again. -/
theorem rearmedTimers_perm_iff : (rearmedTimers s).Perm (unfired s.workflowEvents) ↔
      ∀ name ∈ firedNames s.workflowEvents, outstanding name s.workflowEvents = 0 := by
  rw [rearmedTimers_eq]
  constructor
  · intro hperm name hname
    have hall := length_filter_eq_length_iff.mp hperm.length_eq
    rw [outstanding_eq, countP_eq_zero]
    intro t ht hn
    have hnot := hall t ht
    simp only [decide_eq_true_eq] at hn hnot
    exact hnot (hn ▸ hname)
  · intro h
    have hall : ∀ t ∈ unfired s.workflowEvents,
        decide (t.name ∉ firedNames s.workflowEvents) = true := by
      intro t ht
      rw [decide_eq_true_eq]
      intro hfired
      have hzero := h t.name hfired
      rw [outstanding_eq, countP_eq_zero] at hzero
      exact hzero t ht (by simp)
    rw [filter_eq_self.mpr hall]

/-! ## Logs -/

/-- What a log of timers is built by: sets and fires, inside and outside of activations. -/
inductive TimerOp where
  | activate (activation : Option ActivationId)
  | set (name : String) (durationMs : Nat)
  | fired (name : String)

def TimerOp.routine (prog : Program) : TimerOp → Routine Unit
  | .activate activation =>
    Handler.remember
      (Runtime.modifyActor fun a => { a with currentWorkflowActivation := activation })
  | .set name durationMs => do
    let _ ← appendTimerSet prog name durationMs
    pure ()
  | .fired name => appendTimerFired prog name

/-- A new workflow after any sets and fires. -/
def timerRun (prog : Program) (f : Fields) (ops : List TimerOp) : Runtime :=
  ops.foldl (fun rt op => rt.after (op.routine prog) none) (spawnWorkflow prog f)

variable (prog : Program)

theorem recoverable_checkpoint : (tryCheckpointActor prog).Always (Keeps Recoverable) := by
  refine Always.read fun p => ?_
  cases ha : p.state.actor with
  | none => exact fun h => h
  | some a =>
    simp only [saveCheckpoint, ends_bind, ends_write, ends_remember]
    split_ifs with hw
    · exact fun h => h
    · intro h
      refine ⟨h.tail, ⟨_, rfl, h.epoch a ha⟩, fun b hb => ?_⟩
      obtain ⟨c, hc, rfl⟩ := Option.map_eq_some_iff.mp hb
      exact h.epoch c hc

theorem Recoverable.modifyActor {rt : Runtime} (h : Recoverable rt) {f : Actor → Actor}
    (hf : ∀ a, (f a).activationEpoch = a.activationEpoch) : Recoverable (rt.modifyActor f) := by
  refine ⟨h.tail, h.snapshot, fun b hb => ?_⟩
  obtain ⟨a, ha, rfl⟩ := Option.map_eq_some_iff.mp hb
  rw [hf]
  exact h.epoch a ha

theorem recoverable_append (e : WorkflowEvent) :
    (appendWorkflowEvent e).Always (Keeps Recoverable) :=
  Always.write fun _ h => ⟨h.tail, h.snapshot, h.epoch⟩

theorem recoverable_appendCheckpointed (event : Nat → WorkflowEvent) :
    (appendCheckpointed prog event).Always (Keeps Recoverable) := by
  refine Always.read fun p => ?_
  exact ((recoverable_append _).bind fun _ => recoverable_checkpoint prog) p

theorem epoch_alignReplay (a : Actor) (activation : ActivationId) :
    (a.alignReplay activation).activationEpoch = a.activationEpoch := by
  unfold Actor.alignReplay
  split_ifs with h
  · rfl
  · rfl

theorem epoch_advanceReplay (a : Actor) (id : ReplayEventId) :
    (a.advanceReplay id).activationEpoch = a.activationEpoch := by
  unfold Actor.advanceReplay
  split_ifs with h
  · rfl
  · rfl

theorem recoverable_currentWorkflowReplayId :
    currentWorkflowReplayId.Always (Keeps Recoverable) := by
  refine Always.read fun p => ?_
  cases ha : p.state.actor with
  | none => exact fun h => h
  | some a =>
    dsimp only
    cases hc : a.currentWorkflowActivation with
    | none => exact fun h => h
    | some activation => exact fun h => h.modifyActor fun b => epoch_alignReplay b activation

theorem recoverable_advanceWorkflowReplayId (id : ReplayEventId) :
    (advanceWorkflowReplayId id).Always (Keeps Recoverable) :=
  Always.remember fun _ h => h.modifyActor fun a => epoch_advanceReplay a id

theorem recoverable_appendTimerSetIdentified (durationMs : Nat) (id : ReplayEventId) :
    (appendTimerSetIdentified name durationMs id).Always (Keeps Recoverable) := by
  refine Always.read fun p => ?_
  have hadvance (b : Bool) :
      (advanceWorkflowReplayId id >>= fun _ => pure b).Always (Keeps Recoverable) :=
    (recoverable_advanceWorkflowReplayId id).bind fun _ => Always.pure b
  cases timerSetReplayDisposition p.state.store id name durationMs with
  | consume => exact hadvance false p
  | conflict => exact fun h => h
  | append => exact ((recoverable_append _).bind fun _ => hadvance true) p

theorem recoverable_appendTimerSet (name : String) (durationMs : Nat) :
    (appendTimerSet prog name durationMs).Always (Keeps Recoverable) := by
  refine recoverable_currentWorkflowReplayId.bind fun id => ?_
  cases id with
  | some id => exact recoverable_appendTimerSetIdentified name durationMs id
  | none =>
    refine Always.read fun p => ?_
    exact ((recoverable_append _).bind fun _ =>
      (recoverable_checkpoint prog).bind fun _ => Always.pure true) p

theorem TimerOp.recoverable (op : TimerOp) : (op.routine prog).Always (Keeps Recoverable) := by
  cases op with
  | activate activation => exact Always.remember fun _ h => h.modifyActor fun _ => rfl
  | set name durationMs =>
    exact (recoverable_appendTimerSet prog name durationMs).bind fun _ => Always.pure ()
  | fired name =>
    exact recoverable_appendCheckpointed prog fun sequence => .timerFired sequence name

theorem recoverable_spawnWorkflow (f : Fields) : Recoverable (spawnWorkflow prog f) := by
  refine ⟨rfl, ⟨_, rfl, Nat.one_ne_zero⟩, fun a ha => ?_⟩
  cases ha
  exact Nat.one_ne_zero

theorem recoverable_timerRun (f : Fields) (ops : List TimerOp) :
    Recoverable (timerRun prog f ops) := by
  suffices h : ∀ rt, Recoverable rt →
      Recoverable (ops.foldl (fun rt op => rt.after (op.routine prog) none) rt) from
    h _ (recoverable_spawnWorkflow prog f)
  induction ops with
  | nil => exact fun rt h => h
  | cons op ops ih => exact fun rt h => ih _ ((op.recoverable prog).exec ⟨rt, [], none⟩ h)

/-- After a crash, the timers of a workflow are those that have not fired, exactly if no name that
has fired is waiting again. -/
theorem timers_survive_recovery (prog : Program) (f : Fields) (ops : List TimerOp) :
    ∃ rt, recoverWorkflow prog (timerRun prog f ops).crash = some rt ∧
      (rt.timers.Perm (unfired (timerRun prog f ops).store.workflowEvents) ↔
        ∀ name ∈ firedNames (timerRun prog f ops).store.workflowEvents,
          outstanding name (timerRun prog f ops).store.workflowEvents = 0) := by
  obtain ⟨a, ha, _⟩ := recoverWorkflow_of_recoverable (recoverable_timerRun prog f ops)
  exact ⟨_, ha, rearmedTimers_perm_iff _⟩

/-- A workflow that sets its timer in a loop: the second round is not armed again. -/
theorem second_round_lost :
    ∃ rt, recoverWorkflow idleWorkflow
        (timerRun idleWorkflow Fields.empty [.set "tick" 10, .fired "tick", .set "tick" 20]).crash =
        some rt ∧
      rt.timers = [] ∧
      unfired (timerRun idleWorkflow Fields.empty
        [.set "tick" 10, .fired "tick", .set "tick" 20]).store.workflowEvents = [⟨"tick", 20⟩] :=
  ⟨_, rfl, by decide, by decide⟩

end Nulang.Persist

import Mathlib.Tactic.Common

/-!
# The persistence store of one durable actor

`runtime/persistence.rs`: the records the runtime keeps of a durable actor and `MemoryStore`, with
the two ways of writing to it. The older way appends one record or replaces the snapshot, each at a
sequence number one above everything the store holds; the newer way commits a whole transition, and
is fenced by the tail of the transitions committed so far. The maps of the store are keyed by
actor; this is the part of one actor, the only one any function here reads or writes.

A transition also carries the records of durable effects. The store reads nothing of them but when
it is asked for one, so they are of any type `ε`; the workflow code commits none, and leaves the
type out.

Sequence numbers are natural numbers: a store would need `2 ^ 64` writes to see the difference, and
the coordinator of durable effects, which looks out for that, does so before it commits.
-/

set_option autoImplicit false

namespace Nulang.Persist

/-- A value as the store keeps it (`PersistedValue`). An integer is the 48-bit payload of a
NaN-boxed value, so that adding one wraps where `Value::int(n + 1)` does. -/
inductive Value where
  | int (n : BitVec 48)
  | bool (b : Bool)
  | string (s : String)
  | nil
  | unit
deriving DecidableEq

/-- How a state field is kept; a field with no model is local. -/
inductive StateModel where
  | localState
  | durable
  | eventSourced
deriving DecidableEq

abbrev Fields : Type := String → Option Value

namespace Fields

def empty : Fields := fun _ => none

def set (f : Fields) (name : String) (v : Value) : Fields := Function.update f name (some v)

/-- `get_state_field(name).and_then(as_int)`. -/
def int? (f : Fields) (name : String) : Option (BitVec 48) :=
  match f name with
  | some (.int n) => some n
  | _ => none

def bump (f : Fields) (name : String) : Fields :=
  match f.int? name with
  | some n => f.set name (.int (n + 1))
  | none => f

variable (f : Fields)

@[simp] theorem set_same (name : String) (v : Value) : f.set name v name = some v :=
  Function.update_self ..

theorem set_of_ne {name other : String} (v : Value) (h : other ≠ name) :
    f.set name v other = f other :=
  Function.update_of_ne h ..

theorem bump_of_ne {name other : String} (h : other ≠ name) : f.bump name other = f other := by
  unfold bump
  cases f.int? name with
  | some n => exact set_of_ne _ _ h
  | none => rfl

end Fields

/-! ## Records -/

structure JournalEntry where
  sequence : Nat
  behaviorId : Nat
  payload : List Value
deriving DecidableEq

/-- The value of an event-sourced field after an event. -/
structure EventEntry where
  sequence : Nat
  fieldName : String
  eventName : String
  args : List Value
  value : Value
deriving DecidableEq

/-- An accepted workflow command, by the sequence number of its journal entry. -/
structure ActivationId where
  commandSequence : Nat
deriving DecidableEq

/-- The place of an event among those of its activation. -/
structure ReplayEventId where
  activation : ActivationId
  ordinal : Nat
deriving DecidableEq

inductive WorkflowEvent where
  | workflowStarted (sequence : Nat)
  | stepCompleted (sequence : Nat) (activation : Option ActivationId) (stepName : String)
  | timerSet (sequence : Nat) (replayId : Option ReplayEventId) (name : String) (durationMs : Nat)
  | timerFired (sequence : Nat) (name : String)
  | signalReceived (sequence : Nat) (name : String) (payload : Option String)
  | sagaCompensated (sequence : Nat) (stepName : String)
  | parallelBranchCompleted (sequence : Nat) (parallelStepName branchName : String)
  | stepFailed (sequence : Nat) (activation : Option ActivationId) (stepName error : String)
  | custom (sequence : Nat) (replayId : Option ReplayEventId) (name : String) (args : List Value)
deriving DecidableEq

namespace WorkflowEvent

def sequence : WorkflowEvent → Nat
  | .workflowStarted q => q
  | .stepCompleted q _ _ => q
  | .timerSet q _ _ _ => q
  | .timerFired q _ => q
  | .signalReceived q _ _ => q
  | .sagaCompensated q _ => q
  | .parallelBranchCompleted q _ _ => q
  | .stepFailed q _ _ _ => q
  | .custom q _ _ _ => q

/-- The accepted command a terminal event closes. -/
def activationId : WorkflowEvent → Option ActivationId
  | .stepCompleted _ a _ => a
  | .stepFailed _ a _ _ => a
  | _ => none

/-- The replay identity of an intermediate event. -/
def replayId : WorkflowEvent → Option ReplayEventId
  | .timerSet _ r _ _ => r
  | .custom _ r _ _ => r
  | _ => none

/-- `TimerSet` and `TimerFired`. -/
def isTimer : WorkflowEvent → Bool
  | .timerSet .. => true
  | .timerFired .. => true
  | _ => false

end WorkflowEvent

/-- What a checkpoint saves of an actor. -/
structure ActorSnapshot where
  sequence : Nat
  activationEpoch : Nat
  state : List (String × Value)
  waitingSignal : Option String
deriving DecidableEq

def durableTransitionVersion : Nat := 1

/-- The records of one logical transition, committed together. -/
structure DurableTransition (ε : Type := Empty) where
  version : Nat
  activationEpoch : Nat
  sequence : Nat
  expectedPreviousSequence : Nat
  command : Option JournalEntry
  snapshot : Option ActorSnapshot
  workflowEvents : List WorkflowEvent
  domainEvents : List EventEntry
  durableEffects : List ε
deriving DecidableEq

/-- Where the committed transitions end; a transition stands for its digest. -/
structure DurableTail (ε : Type := Empty) where
  activationEpoch : Nat
  sequence : Nat
  digest : DurableTransition ε
deriving DecidableEq

inductive ErrorKind where
  | invalidInput
  | invalidData
  | alreadyExists
  | permissionDenied
  | notFound
deriving DecidableEq

structure IoError where
  kind : ErrorKind
  message : String
deriving DecidableEq

/-! ## The store -/

structure MemoryStore (ε : Type := Empty) where
  snapshot : Option ActorSnapshot
  journal : List JournalEntry
  workflowEvents : List WorkflowEvent
  events : List EventEntry
  durableTail : Option (DurableTail ε)
  committedTransitions : List (DurableTransition ε)
deriving DecidableEq

section

variable {ε : Type}

namespace MemoryStore

def empty : MemoryStore ε := ⟨none, [], [], [], none, []⟩

def saveSnapshot (s : MemoryStore ε) (snapshot : ActorSnapshot) : MemoryStore ε :=
  { s with snapshot := some snapshot }

def appendJournal (s : MemoryStore ε) (entry : JournalEntry) : MemoryStore ε :=
  { s with journal := s.journal ++ [entry] }

def appendWorkflowEvent (s : MemoryStore ε) (event : WorkflowEvent) : MemoryStore ε :=
  { s with workflowEvents := s.workflowEvents ++ [event] }

def appendEvent (s : MemoryStore ε) (entry : EventEntry) : MemoryStore ε :=
  { s with events := s.events ++ [entry] }

def snapshotSequence (s : MemoryStore ε) : Nat := (s.snapshot.map ActorSnapshot.sequence).getD 0

/-- The last sequence number of each of the records written one by one. -/
def legacyTail (s : MemoryStore ε) : Nat :=
  max (max (max s.snapshotSequence ((s.journal.getLast?.map JournalEntry.sequence).getD 0))
    ((s.workflowEvents.getLast?.map WorkflowEvent.sequence).getD 0))
    ((s.events.getLast?.map EventEntry.sequence).getD 0)

def latestSequence (s : MemoryStore ε) : Nat :=
  max s.legacyTail ((s.durableTail.map DurableTail.sequence).getD 0)

/-- `read_timer_events`. -/
def readTimerEvents (s : MemoryStore ε) : List WorkflowEvent :=
  s.workflowEvents.filter WorkflowEvent.isTimer

end MemoryStore

namespace DurableTransition

/-- What `validate_structure` says of the command and the snapshot of a transition. -/
def validateParts (t : DurableTransition ε) : Except IoError Unit := do
  if t.command.any fun c => c.sequence ≠ t.sequence then
    throw ⟨.invalidInput, "durable transition command sequence does not match transition sequence"⟩
  if t.snapshot.any fun s => s.sequence ≠ t.sequence then
    throw ⟨.invalidInput, "durable transition snapshot sequence does not match transition sequence"⟩
  if t.snapshot.any fun s => s.activationEpoch ≠ t.activationEpoch then
    throw ⟨.invalidInput,
      "durable transition snapshot activation epoch does not match transition epoch"⟩

/-- What `validate_structure` says of the events of a transition. -/
def validateEvents (t : DurableTransition ε) : Except IoError Unit := do
  if t.workflowEvents.any fun e => e.sequence ≠ t.sequence then
    throw ⟨.invalidInput,
      "durable transition workflow event sequence does not match transition sequence"⟩
  if t.command.any fun c => t.workflowEvents.any fun e =>
      e.activationId.any fun a => a.commandSequence ≠ c.sequence then
    throw ⟨.invalidInput,
      "durable transition workflow activation command sequence does not match accepted command"⟩
  if t.domainEvents.any fun e => e.sequence ≠ t.sequence then
    throw ⟨.invalidInput,
      "durable transition domain event sequence does not match transition sequence"⟩

def validateStructure (t : DurableTransition ε) : Except IoError Unit := do
  if t.version ≠ durableTransitionVersion then
    throw ⟨.invalidInput,
      s!"unsupported durable transition version {t.version}; expected {durableTransitionVersion}"⟩
  if t.activationEpoch = 0 then
    throw ⟨.invalidInput, "durable transition activation epoch must be non-zero"⟩
  if t.sequence = 0 then
    throw ⟨.invalidInput, "durable transition sequence must be non-zero"⟩
  if t.sequence ≠ t.expectedPreviousSequence + 1 then
    throw ⟨.invalidInput,
      s!"durable transition sequence {t.sequence} does not follow expected " ++
        s!"predecessor {t.expectedPreviousSequence}"⟩
  t.validateParts
  t.validateEvents

end DurableTransition

namespace MemoryStore

/-- The records of a transition, once it has been accepted. -/
def install (s : MemoryStore ε) (t : DurableTransition ε) : MemoryStore ε where
  snapshot := t.snapshot <|> s.snapshot
  journal := s.journal ++ t.command.toList
  workflowEvents := s.workflowEvents ++ t.workflowEvents
  events := s.events ++ t.domainEvents
  durableTail := some ⟨t.activationEpoch, t.sequence, t⟩
  committedTransitions := s.committedTransitions ++ [t]

/-- `commit_transition`: the first transition extends what was written before it, a later one the
transition before it, and a repeated one is confirmed without being written again. -/
def commitTransition [DecidableEq ε] (s : MemoryStore ε) (t : DurableTransition ε) :
    Except IoError (MemoryStore ε) := do
  t.validateStructure
  match s.durableTail with
  | some tail =>
    if t.activationEpoch = tail.activationEpoch ∧ t.sequence = tail.sequence then
      if t = tail.digest then
        pure s
      else
        throw ⟨.alreadyExists,
          "conflicting durable transition already committed at this epoch/sequence"⟩
    else if t.activationEpoch < tail.activationEpoch then
      throw ⟨.permissionDenied,
        s!"stale durable activation epoch {t.activationEpoch}; " ++
          s!"committed epoch is {tail.activationEpoch}"⟩
    else if t.expectedPreviousSequence ≠ tail.sequence then
      throw ⟨.invalidData,
        s!"durable transition predecessor {t.expectedPreviousSequence} does not match " ++
          s!"committed tail {tail.sequence}"⟩
    else
      pure (s.install t)
  | none =>
    if t.expectedPreviousSequence ≠ s.legacyTail then
      throw ⟨.invalidData,
        s!"first atomic durable transition predecessor {t.expectedPreviousSequence} " ++
          s!"does not match legacy tail {s.legacyTail}"⟩
    else
      pure (s.install t)

theorem tail_le {s : MemoryStore ε} {tail : DurableTail ε} (h : s.durableTail = some tail) :
    tail.sequence ≤ s.latestSequence := by
  unfold latestSequence
  rw [h]
  exact Nat.le_max_right _ _

/-- A transition at a new sequence number that is not refused is installed, and the tail is not of a
newer activation. -/
theorem commitTransition_ok [DecidableEq ε] {s s' : MemoryStore ε} {t : DurableTransition ε}
    (hnew : s.latestSequence < t.sequence) (h : s.commitTransition t = .ok s') :
    s' = s.install t ∧ ∀ tail ∈ s.durableTail, tail.activationEpoch ≤ t.activationEpoch := by
  unfold commitTransition at h
  cases hv : t.validateStructure with
  | error e =>
    rw [hv] at h
    cases h
  | ok u =>
    rw [hv] at h
    simp only [bind, Except.bind] at h
    cases htail : s.durableTail with
    | none =>
      rw [htail] at h
      split_ifs at h with h1
      cases h
      exact ⟨rfl, fun tail ht => by cases ht⟩
    | some tail =>
      -- the sequence number is new, so the transition is not confirmed instead of written
      have hne : t.sequence ≠ tail.sequence := by
        have hle := tail_le htail
        omega
      rw [htail] at h
      simp only [hne, and_false, if_false] at h
      split_ifs at h with hstale hprev
      cases h
      refine ⟨rfl, fun other hother => ?_⟩
      obtain rfl : tail = other := Option.some.inj hother
      exact Nat.le_of_not_lt hstale

end MemoryStore

end

end Nulang.Persist

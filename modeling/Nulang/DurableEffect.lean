import Mathlib.Logic.Relation
import Nulang.Lib.Result
import Nulang.Persistence

/-!
# Durable effects

The record of a call to something outside (`durable_effect.rs`), and the coordinator that writes
such records to the store of an actor (`durable_effect_runtime.rs`). Before a call is made a record
is prepared, and after it the record is completed with the result. Each of the two is one transition
of the store, which refuses the transitions of an activation older than the last one it has
accepted.

Several coordinators may work on one store. They differ in the epoch of their activation only, and
each of their calls runs to its end, so what they do together is a sequence of calls.
`outcomes_final` is about all of them, and `recorded_once` about what they leave in the store.

The store is the one of `Persistence`, with these records as the effects of its transitions. It may
hold records written otherwise when the first coordinator comes to it; a transition of a coordinator
adds no command, no snapshot and no events to them. The digest of a request is any function, and the
results that need it assume that no two requests have the same.
-/

set_option autoImplicit false

namespace Nulang.DurableEffect

open List
open Persist (ErrorKind IoError DurableTransition MemoryStore durableTransitionVersion)

abbrev Bytes : Type := List UInt8

/-- `DurableEffectId`, 32 bytes. -/
abbrev EffectId : Type := Bytes

/-! ## Records -/

inductive EffectBoundary where
  | runtimeOwned
  | backendOwned
  | external
deriving DecidableEq

inductive DeliverySemantics where
  | atLeastOnce
  | effectivelyOnceWithDeduplication
  | backendDefined
deriving DecidableEq

structure DurableEffectSpec where
  id : EffectId
  effectOperation : String
  boundary : EffectBoundary
  delivery : DeliverySemantics
deriving DecidableEq

/-- A record binds an effect to the digest of its request. -/
inductive DurableEffectRecord (δ : Type) where
  | prepared (spec : DurableEffectSpec) (requestDigest : δ)
  | completed (spec : DurableEffectSpec) (requestDigest : δ) (result : Bytes)
deriving DecidableEq

structure RequestMismatch (δ : Type) where
  expectedDigest : δ
  actualDigest : δ

inductive RecoveryAction where
  | replayRecordedResult (result : Bytes)
  | retryAtLeastOnce (operationId : EffectId)
  | retryWithDeduplication (operationId : EffectId)
  | delegateToBackend
deriving DecidableEq

/-- The recorded result, if there is one. -/
def RecoveryAction.recorded : RecoveryAction → Option Bytes
  | .replayRecordedResult result => some result
  | .retryAtLeastOnce _ => none
  | .retryWithDeduplication _ => none
  | .delegateToBackend => none

section Records

variable {δ : Type} [DecidableEq δ] (digest : Bytes → δ)

namespace DurableEffectRecord

def prepare (spec : DurableEffectSpec) (request : Bytes) : DurableEffectRecord δ :=
  .prepared spec (digest request)

def spec : DurableEffectRecord δ → DurableEffectSpec
  | .prepared spec _ => spec
  | .completed spec _ _ => spec

def requestDigest : DurableEffectRecord δ → δ
  | .prepared _ d => d
  | .completed _ d _ => d

def validateRequest (record : DurableEffectRecord δ) (request : Bytes) :
    Except (RequestMismatch δ) Unit :=
  if digest request = record.requestDigest then .ok ()
  else .error ⟨record.requestDigest, digest request⟩

def complete (record : DurableEffectRecord δ) (result : Bytes) : DurableEffectRecord δ :=
  match record with
  | .prepared spec d => .completed spec d result
  | .completed spec d result => .completed spec d result

def recoveryAction : DurableEffectRecord δ → RecoveryAction
  | .completed _ _ result => .replayRecordedResult result
  | .prepared spec _ =>
    match spec.delivery with
    | .backendDefined => .delegateToBackend
    | .atLeastOnce => .retryAtLeastOnce spec.id
    | .effectivelyOnceWithDeduplication => .retryWithDeduplication spec.id

end DurableEffectRecord

/-- `DurableEffectPersistenceRecord`. The coordinator writes no compensations. -/
inductive PersistenceRecord (δ : Type) where
  | effect (record : DurableEffectRecord δ)
  | compensation (originalEffectId : EffectId) (compensationOrdinal : Nat)
      (record : DurableEffectRecord δ)
deriving DecidableEq

/-- The record inside, `effect()`. -/
def PersistenceRecord.record : PersistenceRecord δ → DurableEffectRecord δ
  | .effect record => record
  | .compensation _ _ record => record

/-- The store of an actor whose transitions carry records of durable effects. -/
abbrev Store (δ : Type) : Type := MemoryStore (PersistenceRecord δ)

/-- `load_durable_effect`: the newest record of the effect. -/
def Store.loadDurableEffect (s : Store δ) (id : EffectId) : Option (DurableEffectRecord δ) :=
  ((s.committedTransitions.reverse.flatMap fun t => t.durableEffects.reverse).find? fun r =>
    r.record.spec.id = id).map PersistenceRecord.record

/-- No transition has been committed to the store yet. -/
structure Legacy (s : Store δ) : Prop where
  tail : s.durableTail = none
  transitions : s.committedTransitions = []

inductive DispatchDecision where
  | replayRecordedResult (result : Bytes)
  | dispatchAtLeastOnce (operationId : EffectId)
  | dispatchWithDeduplication (operationId : EffectId)
  | delegateToBackend (operationId : EffectId)
deriving DecidableEq

def DispatchDecision.dispatches : DispatchDecision → Bool
  | .replayRecordedResult _ => false
  | .dispatchAtLeastOnce _ => true
  | .dispatchWithDeduplication _ => true
  | .delegateToBackend _ => true

inductive RuntimeError (δ : Type) where
  | storage (e : IoError)
  | requestMismatch (e : RequestMismatch δ)
  | specMismatch (effectId : EffectId) (expected actual : DurableEffectSpec)
  | missingPreparedEffect (effectId : EffectId)

def decision (record : DurableEffectRecord δ) : DispatchDecision :=
  match record.recoveryAction with
  | .replayRecordedResult result => .replayRecordedResult result
  | .retryAtLeastOnce operationId => .dispatchAtLeastOnce operationId
  | .retryWithDeduplication operationId => .dispatchWithDeduplication operationId
  | .delegateToBackend => .delegateToBackend record.spec.id

namespace Coordinator

/-- `require_claimed_activation`. -/
def requireClaimedActivation (epoch : Nat) (s : Store δ) : Except (RuntimeError δ) Unit :=
  match s.durableTail with
  | none =>
    .error (.storage
      ⟨.invalidData, "prepared durable effect exists without a committed activation tail"⟩)
  | some tail =>
    if tail.activationEpoch ≠ epoch then
      .error (.storage ⟨.permissionDenied,
        s!"durable effect redispatch epoch {epoch} is not the committed owner " ++
          s!"epoch {tail.activationEpoch}"⟩)
    else .ok ()

def validateExisting (expected : DurableEffectSpec) (request : Bytes)
    (existing : DurableEffectRecord δ) :
    Except (RuntimeError δ) Unit :=
  if existing.spec ≠ expected then .error (.specMismatch expected.id expected existing.spec)
  else (existing.validateRequest digest request).mapError .requestMismatch

/-- The transition that writes one record, and nothing else. -/
def recordTransition (epoch sequence : Nat) (s : Store δ) (record : PersistenceRecord δ) :
    DurableTransition (PersistenceRecord δ) where
  version := durableTransitionVersion
  activationEpoch := epoch
  sequence := sequence
  expectedPreviousSequence := s.latestSequence
  command := none
  snapshot := none
  workflowEvents := []
  domainEvents := []
  durableEffects := [record]

def commitRecord (epoch : Nat) (record : PersistenceRecord δ) (s : Store δ) :
    Except (RuntimeError δ) (Store δ) :=
  match checkedSucc s.latestSequence with
  | none => .error (.storage ⟨.invalidData, "durable effect transition sequence overflow"⟩)
  | some sequence =>
    (s.commitTransition (recordTransition epoch sequence s record)).mapError .storage

/-- What `begin` decides when there is a record already. -/
def recovered (epoch : Nat) (spec : DurableEffectSpec) (request : Bytes)
    (existing : DurableEffectRecord δ) (s : Store δ) : Except (RuntimeError δ) DispatchDecision :=
  do
  validateExisting digest spec request existing
  if (decision existing).dispatches then requireClaimedActivation epoch s
  return decision existing

/-- `begin`, by a coordinator of this epoch. -/
def begin (epoch : Nat) (spec : DurableEffectSpec) (request : Bytes) (s : Store δ) :
    Except (RuntimeError δ) DispatchDecision × Store δ :=
  match s.loadDurableEffect spec.id with
  | some existing => (recovered digest epoch spec request existing s, s)
  | none =>
    match commitRecord epoch (.effect (.prepare digest spec request)) s with
    | .error e => (.error e, s)
    | .ok next => (.ok (decision (.prepare digest spec request)), next)

/-- The result a record has once it is completed. -/
def durableResult (record : DurableEffectRecord δ) (result : Bytes) : Bytes :=
  match record with
  | .prepared _ _ => result
  | .completed _ _ recorded => recorded

/-- `complete`, by a coordinator of this epoch. -/
def complete (epoch : Nat) (effectId : EffectId) (request result : Bytes) (s : Store δ) :
    Except (RuntimeError δ) Bytes × Store δ :=
  match s.loadDurableEffect effectId with
  | none => (.error (.missingPreparedEffect effectId), s)
  | some existing =>
    match existing.validateRequest digest request with
    | .error e => (.error (.requestMismatch e), s)
    | .ok _ =>
      match existing.recoveryAction.recorded with
      | some recorded => (.ok recorded, s)
      | none =>
        match commitRecord epoch (.effect (existing.complete result)) s with
        | .error e => (.error e, s)
        | .ok next => (.ok (durableResult existing result), next)

end Coordinator

inductive Call where
  | begin (spec : DurableEffectSpec) (request : Bytes)
  | complete (effectId : EffectId) (request result : Bytes)

def Call.after (epoch : Nat) (s : Store δ) : Call → Store δ
  | .begin spec request => (Coordinator.begin digest epoch spec request s).2
  | .complete effectId request result =>
    (Coordinator.complete digest epoch effectId request result s).2

/-- A store that calls of any coordinators lead to, from another one. -/
def Leads : Store δ → Store δ → Prop :=
  Relation.ReflTransGen fun s s' => ∃ (epoch : Nat) (call : Call), s' = call.after digest epoch s

/-! ## What a call does to the store -/

open Option Coordinator

variable {digest}

omit [DecidableEq δ] in
theorem recorded_prepared (spec : DurableEffectSpec) (d : δ) :
    (DurableEffectRecord.prepared spec d).recoveryAction.recorded = none := by
  obtain ⟨id, operation, boundary, delivery⟩ := spec
  cases delivery with
  | atLeastOnce => rfl
  | effectivelyOnceWithDeduplication => rfl
  | backendDefined => rfl

omit [DecidableEq δ] in
theorem load_install (s : Store δ) {t : DurableTransition (PersistenceRecord δ)}
    {record : DurableEffectRecord δ} (ht : t.durableEffects = [.effect record]) (id : EffectId) :
    Store.loadDurableEffect (s.install t) id =
      if record.spec.id = id then some record else s.loadDurableEffect id := by
  unfold Store.loadDurableEffect MemoryStore.install
  rw [reverse_append, reverse_singleton, singleton_append, flatMap_cons, ht,
    reverse_singleton, singleton_append, find?_cons]
  by_cases h : record.spec.id = id
  · simp [PersistenceRecord.record, h]
  · simp [PersistenceRecord.record, h]

variable {id : EffectId} {s s' : Store δ} {epoch : Nat} {result request : Bytes}

omit [DecidableEq δ] in
theorem mem_of_load {record : DurableEffectRecord δ} (h : s.loadDurableEffect id = some record) :
    record.spec.id = id ∧ ∃ t ∈ s.committedTransitions, ∃ r ∈ t.durableEffects,
      r.record = record := by
  obtain ⟨r, hfind, rfl⟩ := map_eq_some_iff.mp h
  have hid : r.record.spec.id = id := by simpa using find?_some hfind
  obtain ⟨t, ht, hr⟩ := mem_flatMap.mp (mem_of_find?_eq_some hfind)
  exact ⟨hid, t, mem_reverse.mp ht, r, mem_reverse.mp hr, rfl⟩

/-- The store after one more transition, of an activation that is not older than the last one. -/
structure Installed (epoch : Nat) (record : DurableEffectRecord δ) (s s' : Store δ) : Prop where
  transition : ∃ t, s' = s.install t ∧ t.durableEffects =
    [.effect record] ∧ t.activationEpoch = epoch
  fenced : ∀ tail ∈ s.durableTail, tail.activationEpoch ≤ epoch

theorem commitRecord_ok {record : DurableEffectRecord δ}
    (h : commitRecord epoch (.effect record) s = .ok s') : Installed epoch record s s' := by
  unfold commitRecord at h
  cases hn : checkedSucc s.latestSequence with
  | none => rw [hn] at h; cases h
  | some sequence =>
    obtain ⟨rfl, _⟩ := checkedSucc_eq hn
    rw [hn] at h
    cases hc :
      s.commitTransition (recordTransition epoch (s.latestSequence + 1) s (.effect record)) with
    | error e => simp only [hc] at h; cases h
    | ok next =>
      simp only [hc] at h
      cases h
      obtain ⟨rfl, hfenced⟩ := MemoryStore.commitTransition_ok (Nat.lt_succ_self _) hc
      exact ⟨⟨_, rfl, rfl, rfl⟩, hfenced⟩

/-- What a call of a coordinator can do: nothing, prepare an effect that has no record, or complete
one that is prepared. -/
inductive Change (epoch : Nat) (s s' : Store δ) : Prop where
  | same (h : s' = s)
  | prepares (spec : DurableEffectSpec) (d : δ) (hnone : s.loadDurableEffect spec.id = none)
      (hnext : Installed epoch (.prepared spec d) s s')
  | completes (spec : DurableEffectSpec) (d : δ) (result : Bytes)
      (hsome : s.loadDurableEffect spec.id = some (.prepared spec d))
      (hnext : Installed epoch (.completed spec d result) s s')

theorem begin_change (spec : DurableEffectSpec) :
    Change epoch s (begin digest epoch spec request s).2 := by
  unfold begin
  cases hl : s.loadDurableEffect spec.id with
  | some existing => exact .same rfl
  | none =>
    cases hc : commitRecord epoch (.effect (.prepare digest spec request)) s with
    | error e => exact .same rfl
    | ok next => exact .prepares spec (digest request) hl (commitRecord_ok hc)

theorem complete_change : Change epoch s (complete digest epoch id request result s).2 := by
  unfold complete
  cases hl : s.loadDurableEffect id with
  | none => exact .same rfl
  | some existing =>
    dsimp only
    cases hv : existing.validateRequest digest request with
    | error e => exact .same rfl
    | ok u =>
      cases existing with
      | completed spec d recorded => exact .same rfl
      | prepared spec d =>
        obtain ⟨rfl, _⟩ := mem_of_load hl
        rw [recorded_prepared]
        cases hc :
          commitRecord epoch
          (.effect ((DurableEffectRecord.prepared spec d).complete result)) s with
        | error e => exact .same rfl
        | ok next => exact .completes spec d result hl (commitRecord_ok hc)

theorem Call.change (epoch : Nat) (s : Store δ) (call : Call) :
    Change epoch s (call.after digest epoch s) := by
  cases call with
  | begin spec request => exact begin_change spec
  | complete id request result => exact complete_change

omit [DecidableEq δ] in
/-- A result is never replaced. -/
theorem Change.final (h : Change epoch s s') {spec : DurableEffectSpec} {d : δ}
    (hs : s.loadDurableEffect id = some (.completed spec d result)) :
    s'.loadDurableEffect id = some (.completed spec d result) := by
  cases h with
  | same h => rwa [h]
  | prepares other e hnone hnext =>
    obtain ⟨t, rfl, ht, _⟩ := hnext.transition
    have hne : other.id ≠ id := by
      rintro rfl
      rw [hnone] at hs
      cases hs
    rw [load_install s ht, DurableEffectRecord.spec, if_neg hne, hs]
  | completes other e r hsome hnext =>
    obtain ⟨t, rfl, ht, _⟩ := hnext.transition
    have hne : other.id ≠ id := by
      rintro rfl
      rw [hsome] at hs
      cases hs
    rw [load_install s ht, DurableEffectRecord.spec, if_neg hne, hs]

theorem Leads.final (h : Leads digest s s') {spec : DurableEffectSpec} {d : δ}
    (hs : s.loadDurableEffect id = some (.completed spec d result)) :
    s'.loadDurableEffect id = some (.completed spec d result) := by
  induction h with
  | refl => exact hs
  | tail _ hstep ih =>
    obtain ⟨epoch, call, rfl⟩ := hstep
    exact (call.change epoch _).final ih

/-- The tail has an epoch that no committed transition exceeds. -/
def Fenced (s : Store δ) : Prop :=
  ∀ t ∈ s.committedTransitions, ∃ tail, s.durableTail = some tail ∧
    t.activationEpoch ≤ tail.activationEpoch

omit [DecidableEq δ] in
theorem Legacy.fenced (h : Legacy s) : Fenced s := by
  intro t ht
  rw [h.transitions] at ht
  cases ht

omit [DecidableEq δ] in
theorem Installed.fence {record : DurableEffectRecord δ} (h : Installed epoch record s s')
    (hs : Fenced s) : Fenced s' := by
  obtain ⟨t, rfl, _, rfl⟩ := h.transition
  intro other hmem
  refine ⟨_, rfl, ?_⟩
  rcases mem_append.mp hmem with hmem | hmem
  · obtain ⟨tail, htail, hle⟩ := hs other hmem
    exact Nat.le_trans hle (h.fenced tail htail)
  · exact Nat.le_of_eq (by rw [mem_singleton.mp hmem])

omit [DecidableEq δ] in
theorem Change.fence (h : Change epoch s s') (hs : Fenced s) : Fenced s' := by
  cases h with
  | same h => rwa [h]
  | prepares _ _ _ hnext => exact hnext.fence hs
  | completes _ _ _ _ hnext => exact hnext.fence hs

theorem Leads.fence (h : Leads digest s s') (hs : Fenced s) : Fenced s' := by
  induction h with
  | refl => exact hs
  | tail _ hstep ih =>
    obtain ⟨epoch, call, rfl⟩ := hstep
    exact (call.change epoch _).fence ih

/-- A record, after the one it replaces. -/
def DurableEffectRecord.history : DurableEffectRecord δ → List (DurableEffectRecord δ)
  | .prepared spec d => [.prepared spec d]
  | .completed spec d result => [.prepared spec d, .completed spec d result]

/-- The records of an effect, the oldest first. -/
def Store.recordsOf (s : Store δ) (id : EffectId) : List (DurableEffectRecord δ) :=
  ((s.committedTransitions.flatMap (·.durableEffects)).map (·.record)).filter (·.spec.id = id)

def Recorded (s : Store δ) : Prop :=
  ∀ id, s.recordsOf id = (s.loadDurableEffect id).elim [] DurableEffectRecord.history

omit [DecidableEq δ] in
theorem Legacy.recorded (h : Legacy s) : Recorded s := by
  intro id
  simp [Store.recordsOf, Store.loadDurableEffect, h.transitions]

omit [DecidableEq δ] in
theorem Installed.recorded {record : DurableEffectRecord δ} (h : Installed epoch record s s')
    (hs : Recorded s) (hr : s.recordsOf record.spec.id ++ [record] = record.history) :
    Recorded s' := by
  obtain ⟨t, rfl, ht, _⟩ := h.transition
  intro id
  have hnext : Store.recordsOf (s.install t) id = s.recordsOf id ++
      [record].filter (·.spec.id = id) := by
    simp [Store.recordsOf, MemoryStore.install, ht, PersistenceRecord.record]
  rw [hnext, load_install s ht]
  split_ifs with hid
  · subst hid
    rw [elim_some, ← hr, filter_cons_of_pos (by simp), filter_nil]
  · rw [filter_cons_of_neg (by simpa using hid), filter_nil, append_nil, hs id]

omit [DecidableEq δ] in
theorem Change.recorded (h : Change epoch s s') (hs : Recorded s) : Recorded s' := by
  cases h with
  | same h => rwa [h]
  | prepares spec d hnone hnext =>
    exact hnext.recorded hs (by rw [hs, DurableEffectRecord.spec, hnone]; rfl)
  | completes spec d r hsome hnext =>
    exact hnext.recorded hs (by rw [hs, DurableEffectRecord.spec, hsome]; rfl)

/-- In every run, an effect is prepared at most once, and completed at most once and after that. -/
theorem recorded_once (hlegacy : Legacy s) (h : Leads digest s s') : Recorded s' := by
  induction h with
  | refl => exact hlegacy.recorded
  | tail _ hstep ih =>
    obtain ⟨epoch, call, rfl⟩ := hstep
    exact (call.change epoch _).recorded ih

/-! ## Decisions -/

theorem validateRequest_ok {record : DurableEffectRecord δ} :
    record.validateRequest digest request = .ok () ↔ digest request = record.requestDigest := by
  unfold DurableEffectRecord.validateRequest
  split_ifs with h
  · exact ⟨fun _ => h, fun _ => rfl⟩
  · exact ⟨(fun he => by cases he), fun he => absurd he h⟩

theorem validateExisting_ok {spec : DurableEffectSpec} {existing : DurableEffectRecord δ} :
    validateExisting digest spec request existing = .ok () ↔
      existing.spec = spec ∧ digest request = existing.requestDigest := by
  unfold validateExisting
  by_cases hspec : existing.spec = spec
  · rw [if_neg (not_not.mpr hspec), ← validateRequest_ok]
    cases existing.validateRequest digest request with
    | error e => simp [Except.mapError]
    | ok u => simp [Except.mapError, hspec]
  · simp [hspec]

/-- A record that is prepared lets only the owner of the tail go on. -/
theorem recovered_ok {spec : DurableEffectSpec} {existing : DurableEffectRecord δ}
    {d : DispatchDecision} (h : recovered digest epoch spec request existing s = .ok d) :
    existing.spec = spec ∧ digest request = existing.requestDigest ∧ d = decision existing ∧
      (d.dispatches = true → ∃ tail, s.durableTail = some tail ∧ tail.activationEpoch = epoch) := by
  unfold recovered at h
  cases hv : validateExisting digest spec request existing with
  | error e => rw [hv] at h; cases h
  | ok u =>
    obtain ⟨hspec, hdigest⟩ := validateExisting_ok.mp hv
    rw [hv] at h
    cases hd : (decision existing).dispatches with
    | false =>
      simp only [hd, Bool.false_eq_true, if_false] at h
      cases h
      refine ⟨hspec, hdigest, rfl, fun hdispatch => ?_⟩
      rw [hd] at hdispatch
      cases hdispatch
    | true =>
      simp only [hd, if_true] at h
      unfold requireClaimedActivation at h
      cases htail : s.durableTail with
      | none => rw [htail] at h; cases h
      | some tail =>
        rw [htail] at h
        dsimp only at h
        split_ifs at h with hepoch
        · cases h
        · cases h
          exact ⟨hspec, hdigest, rfl, fun _ => ⟨tail, rfl, not_not.mp hepoch⟩⟩

/-- How `begin` comes to a decision: from a record, or by preparing one. -/
theorem begin_ok {spec : DurableEffectSpec} {d : DispatchDecision}
    (h : begin digest epoch spec request s = (.ok d, s')) :
    (∃ existing, s.loadDurableEffect spec.id = some existing ∧ s' = s ∧ d = decision existing ∧
      existing.spec = spec ∧ digest request = existing.requestDigest ∧
      (d.dispatches = true → ∃ tail, s.durableTail = some tail ∧ tail.activationEpoch = epoch)) ∨
    Installed epoch (.prepare digest spec request) s s' := by
  unfold begin at h
  cases hl : s.loadDurableEffect spec.id with
  | some existing =>
    rw [hl] at h
    obtain ⟨hok, rfl⟩ := Prod.mk.inj h
    obtain ⟨hspec, hdigest, hd, hclaimed⟩ := recovered_ok hok
    exact .inl ⟨existing, rfl, rfl, hd, hspec, hdigest, hclaimed⟩
  | none =>
    rw [hl] at h
    cases hc : commitRecord epoch (.effect (.prepare digest spec request)) s with
    | error e => rw [hc] at h; cases h
    | ok next =>
      rw [hc] at h
      cases h
      exact .inr (commitRecord_ok hc)

/-- A completed record is replayed, by any coordinator. -/
theorem begin_completed {spec : DurableEffectSpec}
    (h : s.loadDurableEffect spec.id = some (.completed spec (digest request) result)) :
    (begin digest epoch spec request s).1 = .ok (.replayRecordedResult result) := by
  have hv :
      validateExisting digest spec request (.completed spec (digest request) result) = .ok () :=
    validateExisting_ok.mpr ⟨rfl, rfl⟩
  unfold begin
  rw [h]
  dsimp only
  unfold recovered
  rw [hv]
  rfl

theorem complete_completed {spec : DurableEffectSpec}
    (h : s.loadDurableEffect id = some (.completed spec (digest request) result))
    (other : Bytes) : (complete digest epoch id request other s).1 = .ok result := by
  have hv : (DurableEffectRecord.completed spec (digest request) result).validateRequest digest
      request = .ok () :=
    validateRequest_ok.mpr rfl
  unfold complete
  rw [h]
  dsimp only
  rw [hv]
  rfl

/-- A `complete` that returns leaves a completed record with what it returned. -/
theorem complete_ok {r : Bytes} (h : complete digest epoch id request result s = (.ok r, s')) :
    ∃ existing, s.loadDurableEffect id = some existing ∧ existing.spec.id = id ∧
      s'.loadDurableEffect id = some (.completed existing.spec (digest request) r) := by
  unfold complete at h
  cases hl : s.loadDurableEffect id with
  | none => rw [hl] at h; cases h
  | some existing =>
    obtain ⟨hid, _⟩ := mem_of_load hl
    refine ⟨existing, rfl, hid, ?_⟩
    rw [hl] at h
    dsimp only at h
    cases hv : existing.validateRequest digest request with
    | error e => rw [hv] at h; cases h
    | ok u =>
      have hdigest := validateRequest_ok.mp hv
      rw [hv] at h
      cases existing with
      -- Completing twice returns the recorded result, not the new one.
      | completed spec d recorded =>
        cases h
        rw [hdigest]
        exact hl
      | prepared spec d =>
        rw [recorded_prepared] at h
        cases hc : commitRecord epoch
            (.effect ((DurableEffectRecord.prepared spec d).complete result)) s with
        | error e => rw [hc] at h; cases h
        | ok next =>
          rw [hc] at h
          cases h
          obtain ⟨t, rfl, ht, _⟩ := (commitRecord_ok hc).transition
          rw [load_install s ht, hdigest]
          exact if_pos hid

/-- In every run of the coordinators of an actor, a result that has been returned is the result from
then on; an activation that a newer one has replaced is never let to dispatch; and before a dispatch
there is a prepared record of the effect, which no other request passes. -/
theorem outcomes_final {δ : Type} [DecidableEq δ] {digest : Bytes → δ}
    (hdigest : Function.Injective digest) {start s : Store δ} (hstart : Legacy start)
    (hs : Leads digest start s) :
    (∀ epoch id request result r s', Coordinator.complete digest epoch id request result s =
      (.ok r, s') →
      ∃ existing, s.loadDurableEffect id = some existing ∧
        ∀ later, Leads digest s' later → ∀ epoch',
        (Coordinator.begin digest epoch' existing.spec request later).1 =
        .ok (.replayRecordedResult r) ∧
        ∀ result', (Coordinator.complete digest epoch' id request result' later).1 = .ok r) ∧
    (∀ t ∈ s.committedTransitions, ∀ epoch < t.activationEpoch, ∀ spec request d s',
      Coordinator.begin digest epoch spec request s = (.ok d, s') → d.dispatches = false) ∧
    ∀ epoch spec request d s', Coordinator.begin digest epoch spec request s = (.ok d, s') →
      d.dispatches = true → ∃ t ∈ s'.committedTransitions, ∃ r ∈ t.durableEffects, ∃ bound,
        r.record = .prepared spec bound ∧ ∀ q, r.record.validateRequest digest q = .ok () ↔
          q = request := by
  -- A completed record is final; the tail of the store fences older epochs; a prepared record binds
  -- the digest.
  refine ⟨?_, ?_, ?_⟩
  · intro epoch id request result r s' h
    obtain ⟨existing, hload, rfl, hdone⟩ := complete_ok h
    refine ⟨existing, hload, fun later hlater epoch' => ?_⟩
    have hfinal := hlater.final hdone
    exact ⟨begin_completed hfinal, fun result' => complete_completed hfinal result'⟩
  · intro t ht epoch hlt spec request d s' h
    obtain ⟨tail, htail, hle⟩ := hs.fence hstart.fenced t ht
    rcases begin_ok h with ⟨existing, _, _, _, _, _, hclaimed⟩ | hinstalled
    · cases hd : d.dispatches with
      | false => rfl
      | true =>
        obtain ⟨tail', htail', rfl⟩ := hclaimed hd
        obtain rfl : tail = tail' := some.inj (htail.symm.trans htail')
        omega
    · have hfenced := hinstalled.fenced tail htail
      omega
  · intro epoch spec request d s' h hd
    have hbinds (r : PersistenceRecord δ) (hr : r.record = .prepared spec (digest request))
        (q : Bytes) :
        r.record.validateRequest digest q = .ok () ↔ q = request := by
      rw [validateRequest_ok, hr]
      exact hdigest.eq_iff
    rcases begin_ok h with ⟨existing, hload, rfl, rfl, hspec, hrequest, _⟩ | hinstalled
    · obtain ⟨_, t, ht, r, hr, hrecord⟩ := mem_of_load hload
      cases existing with
      | completed spec' d' result => cases hd
      | prepared spec' d' =>
        obtain rfl : spec' = spec := hspec
        obtain rfl : digest request = d' := hrequest
        exact ⟨t, ht, r, hr, _, hrecord, hbinds r hrecord⟩
    · obtain ⟨t, rfl, ht, _⟩ := hinstalled.transition
      refine ⟨t, mem_append_right _ (mem_singleton_self t),
        .effect (.prepare digest spec request), ?_, _, rfl,
        hbinds _ rfl⟩
      rw [ht]
      exact mem_singleton_self _

end Records

/-- What the calls make of a store, each with the epoch of its coordinator. -/
def Call.runs {δ : Type} [DecidableEq δ] (digest : Bytes → δ) (calls : List (Nat × Call))
    (s : Store δ) :
    Store δ :=
  calls.foldl (fun s call => call.2.after digest call.1 s) s

theorem Call.leads {δ : Type} [DecidableEq δ] {digest : Bytes → δ} (calls : List (Nat × Call))
    (s : Store δ) : Leads digest s (Call.runs digest calls s) := by
  induction calls generalizing s with
  | nil => exact .refl
  | cons call calls ih => exact .head ⟨call.1, call.2, rfl⟩ (ih _)

/-- An actor with a journal of the older kind. -/
def journaled : Store Bytes := { MemoryStore.empty with journal := [⟨4, 0, []⟩] }

theorem journaled_legacy : Legacy journaled := ⟨rfl, rfl⟩

/-- A payment, to be made once, and the receipt for it. -/
def chargeSpec : DurableEffectSpec :=
  ⟨[1], "Payments.charge", .external, .effectivelyOnceWithDeduplication⟩

def receiptSpec : DurableEffectSpec := ⟨[2], "Mail.send", .external, .atLeastOnce⟩

/-- One activation prepares the payment and is lost; the next one takes over with the receipt. -/
def takenOver : Store Bytes :=
  Call.runs id [(2, .begin chargeSpec [7]), (3, .begin receiptSpec [8])] journaled

/-- The payment is completed by the new activation. -/
def charged : Store Bytes :=
  Call.runs id [(2, .begin chargeSpec [7]), (3, .begin receiptSpec [8]),
    (3, .complete [1] [7] [9])] journaled

theorem recorded_charge : Recorded charged ∧
    charged.recordsOf [1] = [.prepared chargeSpec [7], .completed chargeSpec [7] [9]] ∧
    charged.recordsOf [2] = [.prepared receiptSpec [8]] :=
  ⟨recorded_once journaled_legacy (Call.leads _ _), by decide, by decide⟩

/-- The result of the payment is there to stay, and the lost activation does not dispatch again. -/
theorem charge_outcome :
    charged.committedTransitions.map DurableTransition.activationEpoch = [2, 3, 3] ∧
    (∀ later, Leads id charged later → ∀ epoch,
      (Coordinator.begin id epoch chargeSpec [7] later).1 = .ok (.replayRecordedResult [9])) ∧
    ∀ spec request d s', Coordinator.begin id 2 spec request charged = (.ok d, s') →
      d.dispatches = false := by
  have hepochs : charged.committedTransitions.map DurableTransition.activationEpoch =
      [2, 3, 3] := by
    decide
  have hcompletes : Coordinator.complete id 3 [1] [7] [9] takenOver = (.ok [9], charged) := by rfl
  have hprepared : takenOver.loadDurableEffect [1] = some (.prepared chargeSpec [7]) := by decide
  refine ⟨hepochs, fun later hlater epoch => ?_, ?_⟩
  · obtain ⟨existing, hload, hfinal⟩ := (outcomes_final Function.injective_id journaled_legacy
      (Call.leads [(2, .begin chargeSpec [7]), (3, .begin receiptSpec [8])] journaled)).1 3
      [1] [7] [9] [9]
        charged hcompletes
    obtain rfl : .prepared chargeSpec [7] = existing := Option.some.inj (hprepared.symm.trans hload)
    exact (hfinal later hlater epoch).1
  · have hthree : 3 ∈ charged.committedTransitions.map DurableTransition.activationEpoch := by
      rw [hepochs]
      decide
    obtain ⟨t, ht, hepoch⟩ := mem_map.mp hthree
    exact (outcomes_final Function.injective_id journaled_legacy (Call.leads _ _)).2.1 t ht 2
      (by rw [hepoch]; decide)

end Nulang.DurableEffect

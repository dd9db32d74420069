import Nulang.PersistentActor

/-!
# Supervised restarts

`runtime/supervisor.rs`: a supervisor replaces children that exit by new actors, under new
identities. A child that is persistent starts from the snapshot of its predecessor, which is moved
to the new identity; what the predecessor had journaled or recorded besides is deleted. Recovery
(`recoverActor`) would have used all of it. So a restart keeps the durable and event-sourced fields
exactly if the snapshot says it all (`restart_keeps_iff`).

A child is one slot of a `System`: its store, which outlives it, and the actor. Links between
children are left out, since an exit that follows from another one is handled before it, as an exit
of its own.
-/

set_option autoImplicit false

namespace Nulang.Persist

open List Option Function

inductive RestartStrategy where
  | oneForOne
  | oneForAll
  | restForOne
  | simpleOneForOne
deriving DecidableEq

inductive RestartPolicy where
  | permanent
  | temporary
  | transient
  | respawnOnNodeLoss
deriving DecidableEq

inductive ExitReason where
  | normal
  | kill
  | killed
  | shutdown (timeoutMs : Option Nat)
  | error (message : String)
  | noConnection
  | custom (reason : String)
deriving DecidableEq

/-- What a restart rebuilds the child from, captured when the child was put under supervision. -/
structure RestartTemplate where
  prog : Program
  stateData : Fields
  persistent : Bool

structure ChildSpec where
  id : String
  restartPolicy : RestartPolicy
  maxRestarts : Nat := 5
  restartWindowSecs : Nat := 60
  restart : Option RestartTemplate := none

def Runtime.vacant : Runtime := ⟨.empty, none, []⟩

/-- The actors by identity. Identities are given out in order. -/
structure System where
  slots : Nat → Runtime
  nextActorId : Nat
  fresh : ∀ id, nextActorId ≤ id → slots id = .vacant

namespace System

/-- The actor is gone; its store stays. -/
def reap (sys : System) (id : Nat) : System where
  slots := update sys.slots id { sys.slots id with actor := none }
  nextActorId := sys.nextActorId
  fresh := by
    intro other hother
    by_cases h : other = id
    · subst h
      rw [update_self, sys.fresh other hother]
      rfl
    · rw [update_of_ne h, sys.fresh other hother]

def start (sys : System) (actor : Actor) (store : MemoryStore) : System where
  slots := update sys.slots sys.nextActorId ⟨store, some actor, []⟩
  nextActorId := sys.nextActorId + 1
  fresh := by
    intro other hother
    rw [update_of_ne (Nat.ne_of_gt hother), sys.fresh other (Nat.le_of_succ_le hother)]

/-- `clear`. -/
def clear (sys : System) (id : Nat) : System where
  slots := update sys.slots id { sys.slots id with store := .empty }
  nextActorId := sys.nextActorId
  fresh := by
    intro other hother
    by_cases h : other = id
    · subst h
      rw [update_self, sys.fresh other hother]
      rfl
    · rw [update_of_ne h, sys.fresh other hother]

end System

namespace RestartTemplate

variable (t : RestartTemplate)

/-- The fields of the snapshot, and those of the template that are not in it. -/
def fields : Option ActorSnapshot → Fields
  | none => t.stateData
  | some snapshot => fun x =>
    if snapshot.state.any fun s => s.1 = x then
      snapshot.state.foldl (fun f s => f.set s.1 s.2) Fields.empty x
    else t.stateData x

def rebuild : Option ActorSnapshot → Actor
  | none => freshActor (t.fields none)
  | some snapshot =>
    { freshActor (t.fields (some snapshot)) with
      sequence := snapshot.sequence
      activationEpoch := snapshot.activationEpoch
      waitingSignal := snapshot.waitingSignal }

/-- The snapshot a restart starts from. -/
def startsFrom (s : MemoryStore) : Option ActorSnapshot := if t.persistent then s.snapshot else none

end RestartTemplate

/-- `rebuild_child`: the snapshot moves to the new actor, and the rest of the old store is
deleted. -/
def rebuildChild (t : RestartTemplate) (sys : System) (old : Nat) : System :=
  match t.startsFrom (sys.slots old).store with
  | none => sys.start (t.rebuild none) .empty
  | some snapshot =>
    (sys.start (t.rebuild (some snapshot)) (MemoryStore.empty.saveSnapshot snapshot)).clear old

/-! ## Supervisors -/

structure Supervisor where
  id : Nat
  strategy : RestartStrategy
  children : List (ChildSpec × Nat)
  restartHistory : List (String × Nat)
  template : Option Program

inductive SupervisorAction where
  | restarted (newId : Nat)
  | shutdown
  | ignore
  | escalate
deriving DecidableEq

def ofSecs (secs : Nat) : Nat := secs * 1000000000

def updateFirst (old new : Nat) : List (ChildSpec × Nat) → List (ChildSpec × Nat)
  | [] => []
  | c :: cs => if c.2 = old then (c.1, new) :: cs else c :: updateFirst old new cs

namespace Supervisor

variable (sup : Supervisor)

def findChildSpec (id : Nat) : Option ChildSpec :=
  (sup.children.find? fun c => c.2 = id).map Prod.fst

def updateChildId (old new : Nat) : Supervisor :=
  { sup with children := updateFirst old new sup.children }

def removeChild (id : Nat) : Supervisor :=
  { sup with children := sup.children.filter fun c => c.2 ≠ id }

/-- The restarts of a child that are still in its window. -/
def recentRestarts (spec : ChildSpec) (now : Nat) : Nat :=
  (sup.restartHistory.filter fun h => h.1 = spec.id ∧
    now - h.2 < ofSecs spec.restartWindowSecs).length

def recordRestart (spec : ChildSpec) (now : Nat) : Supervisor :=
  { sup with restartHistory := sup.restartHistory ++ [(spec.id, now)] }

def pruneRestartHistory (now : Nat) : Supervisor :=
  let window := ((sup.children.map fun c => c.1.restartWindowSecs).max?).getD 60
  { sup with restartHistory := sup.restartHistory.filter fun h => now - h.2 < ofSecs window }

end Supervisor

def RestartPolicy.allows (policy : RestartPolicy) (reason : ExitReason) : Bool :=
  match policy with
  | .permanent => true
  | .temporary => false
  | .transient => reason ≠ .normal
  | .respawnOnNodeLoss => true

def Supervisor.shouldRestart (sup : Supervisor) (id : Nat) (policy : RestartPolicy)
    (reason : ExitReason) (now : Nat) : Bool :=
  policy.allows reason &&
    match sup.findChildSpec id with
    | none => false
    | some spec => sup.recentRestarts spec now < spec.maxRestarts

/-- A child was rebuilt: what there was of it right before, and its successor right after. -/
structure Restart where
  template : RestartTemplate
  oldId : Nat
  newId : Nat
  before : Runtime
  after : Runtime

/-- A supervisor at work, with the restarts so far. -/
structure Handling where
  sup : Supervisor
  sys : System
  restarts : List Restart

namespace Handling

variable (h : Handling)

def reap (id : Nat) : Handling := { h with sys := h.sys.reap id }

def drop (id : Nat) : Handling := { h with sup := h.sup.removeChild id }

def prune (now : Nat) : Handling := { h with sup := h.sup.pruneRestartHistory now }

def install (spec : ChildSpec) (t : RestartTemplate) (old now : Nat) : Handling where
  sup := (h.sup.updateChildId old h.sys.nextActorId).recordRestart spec now
  sys := rebuildChild t h.sys old
  restarts := h.restarts ++ [{
    template := t
    oldId := old
    newId := h.sys.nextActorId
    before := h.sys.slots old
    after := (rebuildChild t h.sys old).slots h.sys.nextActorId }]

/-- The child is rebuilt, or dropped if nothing was captured to rebuild it from. -/
def rebuild (spec : ChildSpec) (old now : Nat) : Handling :=
  match spec.restart with
  | none => h.drop old
  | some t => h.install spec t old now

/-- A child of a group that is restarted. Its own limits decide, unless it is the one that
exited. -/
def replace (exited : Nat) (reason : ExitReason) (now : Nat) (spec : ChildSpec) (old : Nat) :
    Handling :=
  if old ≠ exited ∧ h.sup.shouldRestart old spec.restartPolicy reason now = false then
    (h.reap old).drop old
  else (h.reap old).rebuild spec old now

/-- The loop of `restart_all`, which looks a child up when it gets to it. -/
def replaceAll (exited : Nat) (reason : ExitReason) (now : Nat) : List Nat → Handling → Handling
  | [], h => h
  | old :: rest, h =>
    match h.sup.findChildSpec old with
    | none => replaceAll exited reason now rest h
    | some spec => replaceAll exited reason now rest (h.replace exited reason now spec old)

/-- The loop of `restart_from`. -/
def replaceFrom (exited : Nat) (reason : ExitReason) (now : Nat) :
    List (ChildSpec × Nat) → Handling → Handling
  | [], h => h
  | (spec, old) :: rest, h =>
    replaceFrom exited reason now rest (h.replace exited reason now spec old)

/-- A dynamic child is replaced by a new instance of the actor type. -/
def replaceDynamic (spec : ChildSpec) (prog : Program) (old now : Nat) : Handling :=
  { h with
    sup := (h.sup.updateChildId old h.sys.nextActorId).recordRestart spec now
    sys := (h.sys.reap old).start (freshActor (prog.initial [])) .empty }

end Handling

namespace Supervisor

variable (sup : Supervisor) (sys : System)

def restartChild (spec : ChildSpec) (id now : Nat) : SupervisorAction × Handling :=
  let h : Handling := ⟨sup, sys, []⟩
  if spec.maxRestarts ≤ sup.recentRestarts spec now then (.shutdown, h)
  else
    match spec.restart with
    | none => (.shutdown, (h.reap id).drop id)
    | some t => (.restarted sys.nextActorId, ((h.reap id).install spec t id now).prune now)

def restartAll (exited : Nat) (reason : ExitReason) (now : Nat) : Handling :=
  (Handling.replaceAll exited reason now (sup.children.map Prod.snd) ⟨sup, sys, []⟩).prune now

def restartFrom (id : Nat) (reason : ExitReason) (now : Nat) : Handling :=
  match sup.children.findIdx? fun c => c.2 = id with
  | none => ⟨sup, sys, []⟩
  | some idx =>
    (Handling.replaceFrom id reason now (sup.children.drop idx) ⟨sup, sys, []⟩).prune now

def restartDynamicChild (spec : ChildSpec) (id now : Nat) : SupervisorAction × Handling :=
  let h : Handling := ⟨sup, sys, []⟩
  if spec.maxRestarts ≤ sup.recentRestarts spec now then (.shutdown, h)
  else
    match sup.template with
    | none => (.shutdown, h.drop id)
    | some prog => (.restarted sys.nextActorId, (h.replaceDynamic spec prog id now).prune now)

/-- The child of this name after a group was restarted. -/
def actionFor (spec : ChildSpec) : SupervisorAction :=
  match sup.children.find? fun c => c.1.id = spec.id with
  | none => .escalate
  | some c => .restarted c.2

/-- A child that is not restarted. -/
def giveUp (spec : ChildSpec) (id : Nat) (reason : ExitReason) (now : Nat) :
    SupervisorAction × Handling :=
  let dropped : SupervisorAction × Handling := (.ignore, ⟨sup.removeChild id, sys.reap id, []⟩)
  if spec.restartPolicy = .temporary then dropped
  else if spec.restartPolicy = .transient ∧ reason = .normal then dropped
  else if spec.maxRestarts ≤ sup.recentRestarts spec now then (.shutdown, ⟨sup, sys, []⟩)
  else dropped

def applyStrategy (spec : ChildSpec) (id : Nat) (reason : ExitReason) (now : Nat) :
    SupervisorAction × Handling :=
  match sup.strategy with
  | .oneForOne => sup.restartChild sys spec id now
  | .oneForAll =>
    let h := sup.restartAll sys id reason now
    (h.sup.actionFor spec, h)
  | .restForOne =>
    let h := sup.restartFrom sys id reason now
    (h.sup.actionFor spec, h)
  | .simpleOneForOne => sup.restartDynamicChild sys spec id now

/-- `handle_exit`, at the time `now`. -/
def handleExit (id : Nat) (reason : ExitReason) (now : Nat) : SupervisorAction × Handling :=
  match sup.findChildSpec id with
  | none => (.ignore, ⟨sup, sys, []⟩)
  | some spec =>
    if sup.shouldRestart id spec.restartPolicy reason now then
      sup.applyStrategy sys spec id reason now
    else sup.giveUp sys spec id reason now

end Supervisor

/-- `recover_actor`. -/
def recoverActor (prog : Program) (rt : Runtime) : Option Runtime :=
  if prog.isWorkflow then recoverWorkflow prog rt else recoverPersistent prog rt

/-- Recovery does not refuse the snapshot. -/
def Program.Accepts (prog : Program) (s : MemoryStore) (snapshot : ActorSnapshot) : Prop :=
  snapshot.activationEpoch ≠ 0 ∧ (prog.isWorkflow = true → readTail s snapshot ≠ .refused)

/-- What the records after the snapshot make of the fields: the events of a workflow are applied,
the messages of another actor are run again. -/
def Program.replayed (prog : Program) (s : MemoryStore) (snapshot : ActorSnapshot) (f : Fields) :
    Fields :=
  if prog.isWorkflow then
    (s.workflowEvents.filter fun e => snapshot.sequence < e.sequence).foldl WorkflowEvent.onFields f
  else
    ((s.journal.filter fun e => snapshot.sequence < e.sequence).map
      JournalEntry.message).foldl prog.redo f

/-- A workflow that is not refused is rebuilt from the snapshot and the events after it. -/
theorem recoverWorkflow_iff {prog : Program} {rt : Runtime} {P : Fields → Prop} :
    (∃ rt', recoverWorkflow prog rt = some rt' ∧ P rt'.fields) ↔
      ∃ snapshot, rt.store.snapshot = some snapshot ∧ snapshot.activationEpoch ≠ 0 ∧
        readTail rt.store snapshot ≠ .refused ∧
        P ((rt.store.workflowEvents.filter fun e => snapshot.sequence < e.sequence).foldl
          WorkflowEvent.onFields
          (restoreFields prog snapshot rt.store.events)) := by
  unfold recoverWorkflow
  cases hs : rt.store.snapshot with
  | none => simp
  | some snapshot =>
    by_cases he : snapshot.activationEpoch = 0
    · simp [he]
    · have hfields (a : Actor) (ha : a.stateData = restoreFields prog snapshot rt.store.events)
          (timers : List Timer) :
          (Runtime.fields ⟨rt.store, some (((rt.store.workflowEvents.filter fun e =>
            snapshot.sequence < e.sequence).foldl Actor.replay a).redrive prog), timers⟩) =
          (rt.store.workflowEvents.filter fun e => snapshot.sequence < e.sequence).foldl
          WorkflowEvent.onFields
            (restoreFields prog snapshot rt.store.events) := by
        rw [← ha, ← stateData_replay, ← stateData_redrive]
        rfl
      simp only [he, if_false, ne_eq, not_false_eq_true, true_and, some.injEq, exists_eq_left']
      cases htail : readTail rt.store snapshot with
      | refused => simp [Actor.reopen]
      | settled | pending =>
        simp only [Actor.reopen, some.injEq, exists_eq_left']
        rw [hfields _ rfl]
        simp

theorem recoverPersistent_iff {prog : Program} (hw : prog.isWorkflow = false) {rt : Runtime}
    {P : Fields → Prop} :
    (∃ rt', recoverPersistent prog rt = some rt' ∧ P rt'.fields) ↔
      ∃ snapshot, rt.store.snapshot = some snapshot ∧ snapshot.activationEpoch ≠ 0 ∧
        P (((rt.store.journal.filter fun e => snapshot.sequence < e.sequence).map
          JournalEntry.message).foldl prog.redo (restoreFields prog snapshot rt.store.events)) := by
  cases hs : rt.store.snapshot with
  | none =>
    unfold recoverPersistent
    simp [hs]
  | some snapshot =>
    simp only [some.injEq, exists_eq_left']
    by_cases he : snapshot.activationEpoch = 0
    · unfold recoverPersistent
      simp [hs, he]
    · obtain ⟨rt', hr, hf⟩ := recoverPersistent_eq hw hs he
      rw [← hf]
      simp [hr, he]

theorem recoverActor_iff {prog : Program} (rt : Runtime) (P : Fields → Prop) :
    (∃ rt', recoverActor prog rt = some rt' ∧ P rt'.fields) ↔
      ∃ snapshot, rt.store.snapshot = some snapshot ∧ prog.Accepts rt.store snapshot ∧
        P (prog.replayed rt.store snapshot (restoreFields prog snapshot rt.store.events)) := by
  unfold recoverActor Program.Accepts Program.replayed
  by_cases hw : prog.isWorkflow = true
  · simp only [hw, if_true, recoverWorkflow_iff, true_implies, and_assoc]
  · have hw' : prog.isWorkflow = false := by simpa using hw
    simp only [hw', Bool.false_eq_true, if_false, recoverPersistent_iff hw',
      false_implies, and_true]

/-- The successor has the durable and event-sourced fields recovery would have given the old actor,
and gets them again if it crashes and is recovered. -/
def Restart.Keeps (r : Restart) : Prop :=
  (∃ old, recoverActor r.template.prog r.before.crash = some old ∧
    r.template.prog.Agree r.after.fields old.fields) ∧
    ∃ new, recoverActor r.template.prog r.after.crash = some new ∧
    r.template.prog.Agree new.fields r.after.fields

/-- The snapshot says it all: there is one and recovery accepts it, the template has the declared
value of every field that is not in it, and the records besides it change nothing. -/
def RestartTemplate.Suffices (t : RestartTemplate) (s : MemoryStore) : Prop :=
  ∃ snapshot, s.snapshot = some snapshot ∧ t.prog.Accepts s snapshot ∧
    (∀ m ∈ t.prog.models, m.2 ≠ .localState → (∀ v, (m.1, v) ∉ snapshot.state) →
      t.stateData m.1 = t.prog.defaults.lookup m.1) ∧
    t.prog.Agree (t.prog.replayed s snapshot (restoreFields t.prog snapshot s.events))
      (restoreFields t.prog snapshot [])

/-- The restart was made by `rebuild_child`. -/
structure Restart.Rebuilt (r : Restart) : Prop where
  actor : r.after.actor = some (r.template.rebuild (r.template.startsFrom r.before.store))
  store : r.after.store =
    { MemoryStore.empty with snapshot := r.template.startsFrom r.before.store }

section Keeps

variable {t : RestartTemplate} {snapshot : ActorSnapshot}

/-- The new actor has the fields of a recovery from the snapshot alone exactly if the template
fits. -/
theorem agree_fields_iff :
    t.prog.Agree (restoreFields t.prog snapshot []) (t.fields (some snapshot)) ↔
    ∀ m ∈ t.prog.models, m.2 ≠ .localState → (∀ v, (m.1, v) ∉ snapshot.state) →
      t.stateData m.1 = t.prog.defaults.lookup m.1 := by
  have hlookup (x : String) : restoreFields t.prog snapshot [] x =
      (snapshot.state.reverse.lookup x).or (t.prog.defaults.lookup x) := by
    unfold restoreFields
    rw [foldl_default_apply, foldl_nil, foldl_set_apply]
    simp [Fields.empty]
  have hkept (x : String) : t.fields (some snapshot) x = if snapshot.state.any fun s => s.1 = x then
      snapshot.state.reverse.lookup x else t.stateData x := by
    unfold RestartTemplate.fields
    dsimp only
    rw [foldl_set_apply]
    simp [Fields.empty]
  refine forall_congr' fun m => forall_congr' fun _ => forall_congr' fun _ => ?_
  rw [hlookup, hkept]
  split_ifs with hany
  · -- the field is in the snapshot
    obtain ⟨s, hs, hname⟩ := List.any_eq_true.mp hany
    have hmem : (m.1, s.2) ∈ snapshot.state := by
      rw [← of_decide_eq_true hname]
      exact hs
    have hsome : (snapshot.state.reverse.lookup m.1).isSome := by
      by_contra hnone
      rw [not_isSome_iff_eq_none, lookup_eq_none_iff] at hnone
      simpa using hnone _ (mem_reverse.mpr hmem)
    rw [or_of_isSome hsome]
    exact iff_of_true rfl fun h => absurd hmem (h s.2)
  · have habsent : ∀ v, (m.1, v) ∉ snapshot.state := by
      intro v hv
      exact hany (List.any_eq_true.mpr ⟨_, hv, by simp⟩)
    have hnone : snapshot.state.reverse.lookup m.1 = none := by
      rw [lookup_eq_none_iff]
      intro s hs
      have hne : m.1 ≠ s.1 := fun h => habsent s.2 (by rw [h]; exact mem_reverse.mp hs)
      simpa using hne
    rw [hnone, none_or]
    exact ⟨fun h _ => h.symm, fun h => (h habsent).symm⟩

/-- A store that holds a snapshot and nothing else is recovered from the snapshot. -/
theorem replayed_alone (prog : Program) {s : MemoryStore}
    (hs : s = { MemoryStore.empty with snapshot := some snapshot }) (f : Fields) :
    prog.replayed s snapshot f = f := by
  subst hs
  unfold Program.replayed MemoryStore.empty
  split_ifs with hw
  · rfl
  · rfl

/-- What a restart by `rebuild_child` keeps. -/
theorem Restart.Rebuilt.keeps_iff {r : Restart} (h : r.Rebuilt)
    (hp : r.template.persistent = true) :
    r.Keeps ↔ r.template.Suffices r.before.store := by
  unfold Restart.Keeps RestartTemplate.Suffices
  have hfields : r.after.fields = r.template.fields r.before.store.snapshot := by
    unfold Runtime.fields
    rw [h.actor]
    unfold RestartTemplate.startsFrom
    rw [if_pos hp]
    cases r.before.store.snapshot with
    | none | some => rfl
  -- The new actor starts from a store with the snapshot only: journal and events are not copied.
  have hstore :
      r.after.crash.store = { MemoryStore.empty with snapshot := r.before.store.snapshot } := by
    show r.after.store = _
    rw [h.store, RestartTemplate.startsFrom, if_pos hp]
  have hbefore : r.before.crash.store = r.before.store := rfl
  rw [recoverActor_iff r.before.crash fun f => r.template.prog.Agree r.after.fields f,
    recoverActor_iff r.after.crash fun f =>
      r.template.prog.Agree f r.after.fields, hbefore, hfields]
  cases hs : r.before.store.snapshot with
  | none => simp
  | some snapshot =>
    rw [hs] at hstore
    have hsnapshot : r.after.crash.store.snapshot = some snapshot := by rw [hstore]
    have hevents : r.after.crash.store.events = [] := by rw [hstore]; rfl
    have htail : readTail r.after.crash.store snapshot = .settled := by
      rw [hstore]
      rfl
    simp only [hsnapshot, hevents, some.injEq, exists_eq_left',
      replayed_alone r.template.prog hstore]
    rw [← agree_fields_iff]
    constructor
    · rintro ⟨⟨haccepts, hold⟩, _, hnew⟩
      exact ⟨haccepts, hnew, (hnew.trans hold).symm⟩
    · rintro ⟨haccepts, hnew, hrest⟩
      exact ⟨⟨haccepts, (hrest.trans hnew).symm⟩,
        ⟨haccepts.1, fun _ => by rw [htail]; exact fun h => by cases h⟩, hnew⟩

end Keeps

/-! ## Every restart is one of `rebuild_child` -/

/-- All restarts so far were made by `rebuild_child`. -/
def Handling.Sound (h : Handling) : Prop := ∀ r ∈ h.restarts, r.Rebuilt

section Sound

variable {h : Handling} {spec : ChildSpec} {old exited now : Nat} {reason : ExitReason}

theorem rebuilt_rebuildChild (t : RestartTemplate) (sys : System) :
    Restart.Rebuilt
      ⟨t, old, sys.nextActorId, sys.slots old, (rebuildChild t sys old).slots sys.nextActorId⟩ := by
  have hvacant : sys.slots sys.nextActorId = .vacant := sys.fresh _ (Nat.le_refl _)
  cases hs : t.startsFrom (sys.slots old).store with
  | none =>
    have hslot :
        (rebuildChild t sys old).slots sys.nextActorId = ⟨.empty, some (t.rebuild none), []⟩ := by
      unfold rebuildChild
      rw [hs]
      exact update_self ..
    exact ⟨by rw [hslot, hs], by rw [hslot, hs]; rfl⟩
  | some snapshot =>
    -- a vacant slot has no snapshot
    have hne : sys.nextActorId ≠ old := by
      intro heq
      rw [← heq, hvacant] at hs
      unfold RestartTemplate.startsFrom at hs
      split_ifs at hs with hp
      cases hs
    have hslot : (rebuildChild t sys old).slots sys.nextActorId =
        ⟨MemoryStore.empty.saveSnapshot snapshot, some (t.rebuild (some snapshot)), []⟩ := by
      unfold rebuildChild
      rw [hs]
      unfold System.clear System.start
      dsimp only
      rw [update_of_ne hne, update_self]
    exact ⟨by rw [hslot, hs], by rw [hslot, hs]; rfl⟩

theorem Handling.Sound.install (hs : h.Sound) (spec : ChildSpec) (t : RestartTemplate)
    (old now : Nat) :
    (h.install spec t old now).Sound := by
  intro r hr
  rcases mem_append.mp hr with hr | hr
  · exact hs r hr
  · rw [mem_singleton.mp hr]
    exact rebuilt_rebuildChild t h.sys

theorem Handling.Sound.rebuild (hs : h.Sound) : (h.rebuild spec old now).Sound := by
  unfold Handling.rebuild
  cases spec.restart with
  | none => exact hs
  | some t => exact hs.install spec t old now

theorem Handling.Sound.replace (hs : h.Sound) : (h.replace exited reason now spec old).Sound := by
  unfold Handling.replace
  have hreaped : (h.reap old).Sound := hs
  split_ifs with hkeep
  · exact hreaped
  · exact hreaped.rebuild

theorem Handling.Sound.replaceAll (hs : h.Sound) (ids : List Nat) :
    (Handling.replaceAll exited reason now ids h).Sound := by
  induction ids generalizing h with
  | nil => exact hs
  | cons old rest ih =>
    unfold Handling.replaceAll
    cases h.sup.findChildSpec old with
    | none => exact ih hs
    | some spec => exact ih hs.replace

theorem Handling.Sound.replaceFrom (hs : h.Sound) (children : List (ChildSpec × Nat)) :
    (Handling.replaceFrom exited reason now children h).Sound := by
  induction children generalizing h with
  | nil => exact hs
  | cons child rest ih => exact ih hs.replace

variable (sup : Supervisor) (sys : System)

theorem sound_start : Handling.Sound ⟨sup, sys, []⟩ := fun r hr => by cases hr

theorem sound_applyStrategy (spec : ChildSpec) (id : Nat) (reason : ExitReason)
    (now : Nat) : (sup.applyStrategy sys spec id reason now).2.Sound := by
  unfold Supervisor.applyStrategy
  cases sup.strategy with
  | oneForOne =>
    unfold Supervisor.restartChild
    split_ifs with hlimit
    · exact sound_start sup sys
    · cases spec.restart with
      | none => exact sound_start _ _
      | some t =>
        have hreaped : ((⟨sup, sys, []⟩ : Handling).reap id).Sound := sound_start _ _
        exact hreaped.install spec t id now
  | oneForAll => exact (sound_start sup sys).replaceAll _
  | restForOne =>
    unfold Supervisor.restartFrom
    cases sup.children.findIdx? fun c => c.2 = id with
    | none => exact sound_start sup sys
    | some idx => exact (sound_start sup sys).replaceFrom _
  | simpleOneForOne =>
    unfold Supervisor.restartDynamicChild
    split_ifs with hlimit
    · exact sound_start sup sys
    · cases sup.template with
      | none | some => exact sound_start _ _

theorem sound_handleExit (id : Nat) (reason : ExitReason) (now : Nat) :
    (sup.handleExit sys id reason now).2.Sound := by
  unfold Supervisor.handleExit
  cases sup.findChildSpec id with
  | none => exact sound_start sup sys
  | some spec =>
    dsimp only
    split_ifs with hrestart
    · exact sound_applyStrategy sup sys spec id reason now
    · unfold Supervisor.giveUp
      split_ifs with htemporary htransient hlimit
      · exact sound_start _ _
      · exact sound_start _ _
      · exact sound_start _ _
      · exact sound_start _ _

end Sound

/-- A restart keeps the durable and event-sourced fields exactly if the snapshot says it all. -/
theorem restart_keeps_iff (sup : Supervisor) (sys : System) (id : Nat) (reason : ExitReason)
    (now : Nat) {r : Restart} (hr : r ∈ (sup.handleExit sys id reason now).2.restarts)
    (hp : r.template.persistent = true) :
    r.Keeps ↔ r.template.Suffices r.before.store :=
  (sound_handleExit sup sys id reason now r hr).keeps_iff hp

/-- One actor of this program, spawned with the declared values, after a message. -/
def afterOne (prog : Program) : System where
  slots := update (fun _ => .vacant) 0 (uncrashed prog [] [⟨0, []⟩])
  nextActorId := 1
  fresh := by
    intro id hid
    rw [update_of_ne (Nat.ne_of_gt hid)]

/-- It is the only child of its supervisor, which has captured the declared values. -/
def guardian (prog : Program) : Supervisor where
  id := 7
  strategy := .oneForOne
  children := [({
    id := "worker"
    restartPolicy := .permanent
    restart := some ⟨prog, prog.initial [], true⟩ }, 0)]
  restartHistory := []
  template := none

def adder : Program where
  isWorkflow := false
  models := [("total", .durable)]
  models_nodup := by decide
  defaults := [("total", .int 0)]
  steps := [⟨"add", .sequential fun _ => .observe fun f =>
    .assign "total" (.int ((f.int? "total").getD 0 + 1)) .finish, none⟩]

/-- Such an actor is restarted with its total. -/
theorem adder_keeps_total :
    ∃ r ∈ ((guardian adder).handleExit (afterOne adder) 0 .kill 0).2.restarts,
      r.Keeps ∧ r.after.fields "total" = some (.int 1) := by
  refine ⟨_, mem_singleton.mpr rfl, ?_, by decide +kernel⟩
  refine (restart_keeps_iff (guardian adder) (afterOne adder) 0 .kill 0
    (mem_singleton.mpr rfl) rfl).mpr ?_
  refine ⟨_, rfl, ⟨Nat.one_ne_zero, fun hw => by cases hw⟩, fun m hm _ habsent => ?_,
    fun m hm _ => ?_⟩
  · rw [mem_singleton.mp hm] at habsent
    exact absurd (mem_singleton.mpr rfl) (habsent (.int 1))
  · rw [mem_singleton.mp hm]
    decide +kernel

/-- A hit that was recorded, and that recovery would have counted, is forgotten. -/
theorem hit_forgotten :
    ∃ r ∈ ((guardian tally).handleExit (afterOne tally) 0 .kill 0).2.restarts,
      r.template.persistent = true ∧ r.after.fields "hits" = some (.int 0) ∧
        ∃ old, recoverActor tally r.before.crash = some old ∧ old.fields "hits" = some (.int 1) :=
  ⟨_, mem_singleton.mpr rfl, rfl, by decide +kernel, _, rfl, by decide +kernel⟩

end Nulang.Persist

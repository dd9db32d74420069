import Nulang.StoreSteps

/-!
# Replay identities

An event that compiled code appends carries its activation and its place among the events of the
activation. The activation is the journal entry of its command, which is a new one for every turn;
so as long as the history of a workflow is in order (`Orderly`), the identity that comes next is in
no event, and the event is appended (`ends_emitCustom`, `ends_appendTimerSet`).

That the history stays in order is a fact about whole runs: no activation, current or suspended, is
of a command later than the last record, and no event is (`Traced`). Every step of `StoreSteps`
keeps it, and so do crashes and recoveries.
-/

set_option autoImplicit false

namespace Nulang.Persist

open Runtime List Option Handler MemoryStore

/-- The actor is not suspended, and the replay identities it will use are unused. -/
structure Unreplayed (s : MemoryStore) (a : Actor) : Prop where
  awake : a.suspendedExecution = none
  current : ∀ id ∈ a.currentWorkflowActivation, id.commandSequence ≤ s.latestSequence
  admitted :
    ∀ e ∈ s.workflowEvents, ∀ id ∈ e.replayId, id.activation.commandSequence ≤ s.latestSequence
  unreplayed :
    ∀ e ∈ s.workflowEvents, ∀ id ∈ e.replayId, a.currentWorkflowActivation = some id.activation →
    a.workflowReplayActivation = some id.activation ∧ id.ordinal < a.workflowReplayEventOrdinal

/-- And the actor runs in the epoch of the transitions. -/
structure Orderly (s : MemoryStore) (a : Actor) : Prop extends Unreplayed s a where
  epoch : a.activationEpoch ≠ 0
  tailEpoch : ∀ tail ∈ s.durableTail, tail.activationEpoch = a.activationEpoch

section Unreplayed

variable {s t : MemoryStore} {a b : Actor} {activation : ActivationId}

theorem Unreplayed.memory (h : Unreplayed s a)
    (hawake : b.suspendedExecution = a.suspendedExecution)
    (hcurrent : b.currentWorkflowActivation = a.currentWorkflowActivation)
    (hreplay : b.workflowReplayActivation = a.workflowReplayActivation)
    (hordinal : b.workflowReplayEventOrdinal = a.workflowReplayEventOrdinal) : Unreplayed s b where
  awake := hawake.trans h.awake
  current := hcurrent ▸ h.current
  admitted := h.admitted
  unreplayed e he id hid hc := by
    rw [hreplay, hordinal]
    exact h.unreplayed e he id hid (hcurrent ▸ hc)

theorem Orderly.memory (h : Orderly s a) (hepoch : b.activationEpoch = a.activationEpoch)
    (hawake : b.suspendedExecution = a.suspendedExecution)
    (hcurrent : b.currentWorkflowActivation = a.currentWorkflowActivation)
    (hreplay : b.workflowReplayActivation = a.workflowReplayActivation)
    (hordinal : b.workflowReplayEventOrdinal = a.workflowReplayEventOrdinal) : Orderly s b where
  toUnreplayed := h.toUnreplayed.memory hawake hcurrent hreplay hordinal
  epoch := hepoch ▸ h.epoch
  tailEpoch tail ht := (h.tailEpoch tail ht).trans hepoch.symm

theorem Orderly.advance (h : Orderly s a) : Orderly s a.advance := h.memory rfl rfl rfl rfl rfl

theorem Orderly.finished (h : Orderly s a) :
    Orderly s { a with currentWorkflowActivation := none } where
  awake := h.awake
  current _ hc := by cases hc
  admitted := h.admitted
  unreplayed _ _ _ _ hc := by cases hc
  epoch := h.epoch
  tailEpoch := h.tailEpoch

/-- Every replay identity belongs to a command that is not newer than the store. -/
theorem Unreplayed.activated (hawake : a.suspendedExecution = none)
    (h : ∀ e ∈ s.workflowEvents, ∀ id ∈ e.replayId, id.activation.commandSequence ≤
      s.latestSequence)
    (he : t.workflowEvents = s.workflowEvents) (hq : t.latestSequence = s.latestSequence + 1) :
    Unreplayed t { a with currentWorkflowActivation := some ⟨s.latestSequence + 1⟩ } where
  awake := hawake
  current id hid := by
    exact Nat.le_of_eq (by rw [← some.inj hid, hq])
  admitted e hm id hid := by
    rw [hq]
    exact Nat.le_succ_of_le (h e (he ▸ hm) id hid)
  unreplayed e hm id hid hc := by
    have hle := h e (he ▸ hm) id hid
    rw [← some.inj hc] at hle
    exact absurd hle (Nat.not_succ_le_self _)

theorem Orderly.activated (h : Orderly s a) (he : t.workflowEvents = s.workflowEvents)
    (ht : ∀ tail ∈ t.durableTail, tail.activationEpoch = a.activationEpoch)
    (hq : t.latestSequence = s.latestSequence + 1) :
    Orderly t { a with currentWorkflowActivation := some ⟨s.latestSequence + 1⟩ } where
  toUnreplayed := .activated h.awake h.admitted he hq
  epoch := h.epoch
  tailEpoch := ht

theorem Unreplayed.store (h : Unreplayed s a) (he : t.workflowEvents = s.workflowEvents)
    (hq : s.latestSequence ≤ t.latestSequence) : Unreplayed t a where
  awake := h.awake
  current id hid := Nat.le_trans (h.current id hid) hq
  admitted e hm id hid := Nat.le_trans (h.admitted e (he ▸ hm) id hid) hq
  unreplayed := he ▸ h.unreplayed

theorem Orderly.store (h : Orderly s a) (ht : t.durableTail = s.durableTail)
    (he : t.workflowEvents = s.workflowEvents) (hq : s.latestSequence ≤ t.latestSequence) :
    Orderly t a where
  toUnreplayed := h.toUnreplayed.store he hq
  epoch := h.epoch
  tailEpoch := ht ▸ h.tailEpoch

variable {e : WorkflowEvent}

theorem Unreplayed.append (h : Unreplayed s a) (hq : e.sequence = s.latestSequence + 1)
    (hid : e.replayId = none) : Unreplayed (s.appendWorkflowEvent e) a where
  awake := h.awake
  current id hid := by
    rw [latestSequence_appendWorkflowEvent hq]
    exact Nat.le_succ_of_le (h.current id hid)
  admitted e' hm id hid' := by
    rw [latestSequence_appendWorkflowEvent hq]
    rcases mem_append.mp hm with hm | hm
    · exact Nat.le_succ_of_le (h.admitted e' hm id hid')
    · rw [mem_singleton.mp hm, hid] at hid'
      cases hid'
  unreplayed e' hm id hid' := by
    rcases mem_append.mp hm with hm | hm
    · exact h.unreplayed e' hm id hid'
    · rw [mem_singleton.mp hm, hid] at hid'
      cases hid'

theorem Orderly.append (h : Orderly s a) (hq : e.sequence = s.latestSequence + 1)
    (hid : e.replayId = none) : Orderly (s.appendWorkflowEvent e) a where
  toUnreplayed := h.toUnreplayed.append hq hid
  epoch := h.epoch
  tailEpoch := h.tailEpoch

theorem Unreplayed.aligned (h : Unreplayed s a)
    (hc : a.currentWorkflowActivation = some activation) :
    Unreplayed s (a.alignReplay activation) := by
  unfold Actor.alignReplay
  split_ifs with hsame
  · exact h
  · refine ⟨h.awake, h.current, h.admitted, fun e he id hid hcur => ?_⟩
    have hact : activation = id.activation := some.inj (hc.symm.trans hcur)
    exact absurd (hact ▸ (h.unreplayed e he id hid hcur).1) hsame

/-- The identity an activation uses next. -/
abbrev Actor.nextReplayId (a : Actor) (activation : ActivationId) : ReplayEventId :=
  ⟨activation, (a.alignReplay activation).workflowReplayEventOrdinal⟩

/-- The actor when it has used it. -/
abbrev Actor.replayedNext (a : Actor) (activation : ActivationId) : Actor :=
  (a.alignReplay activation).advanceReplay (a.nextReplayId activation)

/-- The identity an activation uses next is in no event. -/
theorem Unreplayed.unused (h : Unreplayed s a)
    (hc : a.currentWorkflowActivation = some activation) :
    committedReplayEvent s (a.nextReplayId activation) = .ok none := by
  unfold committedReplayEvent
  rw [(filter_eq_nil_iff (p := _)).mpr]
  intro e he hid
  rw [decide_eq_true_eq] at hid
  obtain ⟨hact, hlt⟩ := h.unreplayed e he _ hid hc
  unfold Actor.nextReplayId Actor.alignReplay at hlt
  rw [if_pos hact] at hlt
  exact Nat.lt_irrefl _ hlt

/-- An event under the identity that comes next, which is then used up. -/
theorem Unreplayed.replayed (h : Unreplayed s a)
    (hc : a.currentWorkflowActivation = some activation)
    (hr : a.workflowReplayActivation = some activation) (hq : e.sequence = s.latestSequence + 1)
    (hid : e.replayId = some ⟨activation, a.workflowReplayEventOrdinal⟩) :
    Unreplayed (s.appendWorkflowEvent e)
      (a.advanceReplay ⟨activation, a.workflowReplayEventOrdinal⟩) := by
  unfold Actor.advanceReplay
  rw [if_pos ⟨hr, rfl⟩]
  refine ⟨h.awake, ?_, fun e' hm id hid' => ?_, fun e' hm id hid' hcur => ?_⟩
  · intro id hcur
    rw [latestSequence_appendWorkflowEvent hq]
    exact Nat.le_succ_of_le (h.current id hcur)
  · rw [latestSequence_appendWorkflowEvent hq]
    rcases mem_append.mp hm with hm | hm
    · exact Nat.le_succ_of_le (h.admitted e' hm id hid')
    · rw [mem_singleton.mp hm, hid] at hid'
      rw [← some.inj hid']
      exact Nat.le_succ_of_le (h.current activation hc)
  · rcases mem_append.mp hm with hm | hm
    · obtain ⟨hact, hlt⟩ := h.unreplayed e' hm id hid' hcur
      exact ⟨hact, Nat.lt_succ_of_lt hlt⟩
    · rw [mem_singleton.mp hm, hid] at hid'
      rw [← some.inj hid']
      exact ⟨hr, Nat.lt_succ_self _⟩

end Unreplayed

/-! ## Identified events -/

/-- After an event under the identity that comes next. -/
def Runtime.identified (activation : ActivationId) (event : Nat → ReplayEventId → WorkflowEvent)
    (rt : Runtime) :
    Runtime :=
  let id : Actor → ReplayEventId :=
    fun a => ⟨activation, (a.alignReplay activation).workflowReplayEventOrdinal⟩
  match rt.actor with
  | none => rt
  | some a =>
    { rt with
      store := rt.store.appendWorkflowEvent (event rt.nextSequence (id a))
      actor := some ((a.alignReplay activation).advanceReplay (id a)) }

theorem workflowReplayActivation_alignReplay (a : Actor) (activation : ActivationId) :
    (a.alignReplay activation).workflowReplayActivation = some activation := by
  unfold Actor.alignReplay
  split_ifs with hsame
  · exact hsame
  · rfl

variable {activation : ActivationId} {a : Actor} {rt : Runtime} {prog : Program}

theorem Unreplayed.identified {event : Nat → ReplayEventId → WorkflowEvent} (ha : rt.actor = some a)
    (h : Unreplayed rt.store a) (hc : a.currentWorkflowActivation = some activation)
    (hq : ∀ n id, (event n id).sequence = n) (hid : ∀ n id, (event n id).replayId = some id) :
    Unreplayed (rt.identified activation event).store (a.replayedNext activation) := by
  unfold Runtime.identified
  simp only [ha]
  exact (h.aligned hc).replayed ((tame_alignReplay a activation).activation.trans hc)
    (workflowReplayActivation_alignReplay a activation) (hq _ _) (hid _ _)

theorem Orderly.identified {event : Nat → ReplayEventId → WorkflowEvent} (ha : rt.actor = some a)
    (h : Orderly rt.store a) (hc : a.currentWorkflowActivation = some activation)
    (hq : ∀ n id, (event n id).sequence = n) (hid : ∀ n id, (event n id).replayId = some id) :
    Orderly (rt.identified activation event).store (a.replayedNext activation) := by
  have htame : Tame a (a.replayedNext activation) :=
    (tame_alignReplay a activation).trans (tame_advanceReplay _ _)
  have htail : (rt.identified activation event).store.durableTail = rt.store.durableTail := by
    simp only [Runtime.identified, ha, MemoryStore.appendWorkflowEvent]
  refine ⟨h.toUnreplayed.identified ha hc hq hid, ?_, fun tail ht => ?_⟩
  · rw [htame.epoch]
    exact h.epoch
  · rw [htame.epoch]
    exact h.tailEpoch tail (htail ▸ ht)

section Executing

variable {p : Process Runtime Effect} {K : Process Runtime Effect → Prop}
  {E : IoError → Process Runtime Effect → Prop}

variable {Q : Unit → Process Runtime Effect → Prop}

theorem ends_append_advance (ha : p.state.actor = some a) (activation : ActivationId)
    (event : Nat → ReplayEventId → WorkflowEvent) : (appendWorkflowEvent (event p.state.nextSequence
          (a.nextReplayId activation)) >>= fun _ =>
          advanceWorkflowReplayId (a.nextReplayId activation)).Ends
      (p.changed (modifyActor fun b => b.alignReplay activation)) K E Q ↔
      if p.writes = some 0 then K (p.changed (modifyActor fun b => b.alignReplay activation))
      else Q () (p.wrote (Runtime.identified activation event)) := by
  simp only [appendWorkflowEvent, advanceWorkflowReplayId, ends_bind, ends_write,
    ends_remember, Process.writes_changed]
  have hq : ((p.changed (modifyActor fun b => b.alignReplay activation)).wrote
      (modifyStore
        (·.appendWorkflowEvent (event p.state.nextSequence (a.nextReplayId activation))))).changed
      (modifyActor fun b => b.advanceReplay (a.nextReplayId activation))
        = p.wrote (Runtime.identified activation event) := by
    simp only [Process.wrote, Process.changed, Runtime.identified, modifyStore, modifyActor,
      ha, map_some]
  rw [hq]
  exact Iff.rfl

/-- In an activation, a custom event is one write. -/
theorem ends_emitCustom (ha : p.state.actor = some a) (ho : Unreplayed p.state.store a)
    (hc : a.currentWorkflowActivation = some activation) (event : String) (args : List Value) :
    (emitCustom prog p.state.nextSequence event args).Ends p K E Q ↔
      if p.writes = some 0 then K (p.changed (modifyActor fun b => b.alignReplay activation))
      else Q ()
        (p.wrote (Runtime.identified activation fun n id => .custom n (some id) event args)) := by
  have hdisp : customEventReplayDisposition p.state.store (a.nextReplayId activation) event args =
      .append := by
    unfold customEventReplayDisposition
    rw [ho.unused hc]
  unfold emitCustom currentWorkflowReplayId emitIdentified
  simp only [ends_bind, ends_read, ha, hc, ends_remember, ends_pure]
  have hstore : (p.changed (modifyActor fun b => b.alignReplay activation)).state.store =
      p.state.store := rfl
  rw [hstore, hdisp]
  exact ends_append_advance ha activation fun n id => .custom n (some id) event args

/-- In an activation, a new timer is one write. -/
theorem ends_appendTimerSet {Q : Bool → Process Runtime Effect → Prop} (ha : p.state.actor = some a)
    (ho : Unreplayed p.state.store a) (hc : a.currentWorkflowActivation = some activation)
    (name : String) (durationMs : Nat) : (appendTimerSet prog name durationMs).Ends p K E Q ↔
      if p.writes = some 0 then K (p.changed (modifyActor fun b => b.alignReplay activation))
      else Q true
        (p.wrote
          (Runtime.identified activation fun n id => .timerSet n (some id) name durationMs)) := by
  have hdisp : timerSetReplayDisposition p.state.store (a.nextReplayId activation) name durationMs =
      .append := by
    unfold timerSetReplayDisposition
    rw [ho.unused hc]
  unfold appendTimerSet currentWorkflowReplayId appendTimerSetIdentified
  simp only [ends_bind, ends_read, ha, hc, ends_remember, ends_pure]
  have hstore : (p.changed (modifyActor fun b => b.alignReplay activation)).state.store =
      p.state.store := rfl
  rw [hstore, hdisp]
  have hends := ends_append_advance (K := K) (E := E) (Q := fun _ q => Q true q) ha activation
    fun n id => .timerSet n (some id) name durationMs
  rw [ends_bind] at hends
  simp only [ends_bind, ends_pure]
  exact hends

end Executing

/-- Code runs in the activation. -/
structure Opened (activation : ActivationId) (a : Actor) (p : Process Runtime Effect) : Prop where
  actor : p.state.actor = some a
  unreplayed : Unreplayed p.state.store a
  current : a.currentWorkflowActivation = some activation

namespace Opened

variable {p : Process Runtime Effect}

section

variable (h : Opened activation a p)
include h

theorem remember {f : Actor → Actor} (hf : Tame a (f a))
    (hr : (f a).workflowReplayActivation = a.workflowReplayActivation)
    (ho : (f a).workflowReplayEventOrdinal = a.workflowReplayEventOrdinal) :
    Opened activation (f a) (p.changed (modifyActor f)) where
  actor := by simp only [Process.state_changed, modifyActor, h.actor, map_some]
  unreplayed := h.unreplayed.memory hf.suspended hf.activation hr ho
  current := hf.activation.trans h.current

theorem checkpointed (prog : Program) :
    Opened activation
      { a with sequence := p.state.nextSequence } (p.wrote (Runtime.checkpointed prog)) := by
  have hlatest : p.state.store.latestSequence
      ≤ (p.state.store.saveSnapshot (a.snapshotAt prog p.state.nextSequence)).latestSequence :=
    Nat.le_of_lt (Nat.lt_of_lt_of_eq (Nat.lt_succ_self _) (latestSequence_saveSnapshot rfl).symm)
  have hsaved :
      Unreplayed (p.state.store.saveSnapshot (a.snapshotAt prog p.state.nextSequence)) a :=
    h.unreplayed.store rfl hlatest
  have hstate : (p.wrote (Runtime.checkpointed prog)).state = { p.state with
      store := p.state.store.saveSnapshot (a.snapshotAt prog p.state.nextSequence)
      actor := some { a with sequence := p.state.nextSequence } } := by
    simp only [Process.state_wrote, Runtime.checkpointed, h.actor]
  refine ⟨?_, ?_, h.current⟩
  · rw [hstate]
  · rw [hstate]
    exact hsaved.memory rfl rfl rfl rfl

theorem appended {e : Nat → WorkflowEvent} (hq : ∀ n, (e n).sequence = n)
    (hid : ∀ n, (e n).replayId = none) : Opened activation a (p.wrote (appended e)) where
  actor := h.actor
  unreplayed := h.unreplayed.append (hq _) (hid _)
  current := h.current

theorem identified {e : Nat → ReplayEventId → WorkflowEvent} (hq : ∀ n id, (e n id).sequence = n)
    (hid : ∀ n id, (e n id).replayId = some id) : Opened activation (a.replayedNext activation)
      (p.wrote (Runtime.identified activation e)) where
  actor := by simp only [Process.state_wrote, Runtime.identified, h.actor]
  unreplayed := h.unreplayed.identified h.actor h.current hq hid
  current :=
    ((tame_alignReplay a activation).trans (tame_advanceReplay _ _)).activation.trans h.current

theorem armed (name : String) (durationMs : Nat) :
    Opened activation a
      (p.changed fun rt => { rt with timers := rt.timers ++ [⟨name, durationMs⟩] }) :=
  ⟨h.actor, h.unreplayed, h.current⟩

theorem fields : p.state.fields = a.stateData := by
  unfold Runtime.fields
  rw [h.actor]
  rfl

end

end Opened

/-! ## Activations -/

/-- Every activation that is recorded, open or suspended is of a command the store has. -/
structure Traced (rt : Runtime) : Prop where
  admitted : ∀ e ∈ rt.store.workflowEvents, ∀ id ∈ e.replayId,
    id.activation.commandSequence ≤ rt.store.latestSequence
  current : ∀ a, rt.actor = some a → ∀ id ∈ a.currentWorkflowActivation,
    id.commandSequence ≤ rt.store.latestSequence
  suspended : ∀ a, rt.actor = some a → ∀ s ∈ a.suspendedExecution, ∀ id ∈ s.activation,
    id.commandSequence ≤ rt.store.latestSequence

variable {snapshot : ActorSnapshot}

theorem pending_le (s : MemoryStore) {entry : JournalEntry}
    (h : readTail s snapshot = .pending activation entry) :
    activation.commandSequence ≤ s.latestSequence := by
  unfold readTail at h
  cases ht : s.durableTail with
  | none => simp [ht] at h
  | some tail =>
    rw [ht] at h
    dsimp only at h
    split_ifs at h
    split at h
    next entry' hone =>
      have hle : entry'.sequence ≤ tail.sequence := by
        have hmem : entry' ∈ s.journal.filter fun e =>
          snapshot.sequence < e.sequence && e.sequence ≤ tail.sequence :=
          hone ▸ mem_singleton.mpr rfl
        have hboth := (mem_filter.mp hmem).2
        simp only [Bool.and_eq_true, decide_eq_true_eq] at hboth
        exact hboth.2
      unfold readPending at h
      dsimp only at h
      split_ifs at h
      cases h
      unfold latestSequence
      rw [ht]
      exact Nat.le_trans hle (Nat.le_max_right _ _)
    next => cases h

/-- The command that is put back is one of the journal, and not newer than the tail. -/
theorem readmitted {events : List EventEntry} (s : MemoryStore)
    (ha : (restoreActor prog snapshot events).reopen (readTail s snapshot) = some a) :
    (∀ id ∈ a.currentWorkflowActivation, id.commandSequence ≤ s.latestSequence) ∧
    a.suspendedExecution = none := by
  cases hread : readTail s snapshot with
  | refused => simp [hread, Actor.reopen] at ha
  | settled =>
    rw [hread] at ha
    cases ha
    exact ⟨fun id hid => (by cases hid), rfl⟩
  | pending activation entry =>
    rw [hread] at ha
    cases ha
    refine ⟨fun id hid => ?_, rfl⟩
    cases hid
    exact pending_le s hread

namespace Traced

variable {f : Actor → Actor} {rt' : Runtime} {allowed : WorkflowEvent → Prop}

section

variable (h : Traced rt)
include h

theorem modifyActor
    (hf : ∀ a, rt.actor = some a →
      (∀ id ∈ (f a).currentWorkflowActivation, id.commandSequence ≤ rt.store.latestSequence) ∧
      ∀ s ∈ (f a).suspendedExecution, ∀ id ∈ s.activation,
        id.commandSequence ≤ rt.store.latestSequence) :
    Traced (rt.modifyActor f) := by
  refine ⟨h.admitted, fun b hb => ?_, fun b hb => ?_⟩
  · obtain ⟨a, ha, rfl⟩ := map_eq_some_iff.mp hb
    exact (hf a ha).1
  · obtain ⟨a, ha, rfl⟩ := map_eq_some_iff.mp hb
    exact (hf a ha).2

theorem tame (hf : ∀ a, Tame a (f a)) : Traced (rt.modifyActor f) := by
  refine h.modifyActor fun a ha => ⟨?_, ?_⟩
  · rw [(hf a).activation]
    exact h.current a ha
  · rw [(hf a).suspended]
    exact h.suspended a ha

theorem actor {a : Option Actor} (ha : ∀ b, a = some b →
      (∀ id ∈ b.currentWorkflowActivation, id.commandSequence ≤ rt.store.latestSequence) ∧
        b.suspendedExecution = none) (timers : List Timer) : Traced ⟨rt.store, a, timers⟩ where
  admitted := h.admitted
  current b hb := (ha b hb).1
  suspended b hb s hs := by
    rw [(ha b hb).2] at hs
    cases hs

theorem store {s : MemoryStore} (hq : rt.store.latestSequence ≤ s.latestSequence)
    (he : ∀ e ∈ s.workflowEvents, e ∈ rt.store.workflowEvents ∨ ∀ id ∈ e.replayId, ∃ a,
      rt.actor = some a ∧ a.currentWorkflowActivation = some id.activation) :
    Traced { rt with store := s } where
  admitted e hm id hid := by
    rcases he e hm with hold | hnew
    · exact Nat.le_trans (h.admitted e hold id hid) hq
    · obtain ⟨a, ha, hc⟩ := hnew id hid
      exact Nat.le_trans (h.current a ha _ hc) hq
  current a ha id hid := Nat.le_trans (h.current a ha id hid) hq
  suspended a ha s hs id hid := Nat.le_trans (h.suspended a ha s hs id hid) hq

theorem event {e : WorkflowEvent} (hq : e.sequence = rt.nextSequence)
    (hid : ∀ id ∈ e.replayId, ∃ a, rt.actor = some a ∧
      a.currentWorkflowActivation = some id.activation) :
    Traced (rt.modifyStore (·.appendWorkflowEvent e)) := by
  refine h.store ?_ fun e' hm => ?_
  · rw [latestSequence_appendWorkflowEvent hq]
    exact Nat.le_succ _
  · rcases mem_append.mp hm with hm | hm
    · exact .inl hm
    · rw [mem_singleton.mp hm]
      exact .inr hid

/-- A command that recovery puts back is one of the journal. -/
theorem recovered (hr : recoverWorkflow prog rt = some rt') : Traced rt' := by
  obtain ⟨snapshot, a, -, ha, rfl⟩ := of_recoverWorkflow hr
  refine h.actor (fun b hb => ?_) _
  cases hb
  have htame :=
    (tame_replay (rt.store.workflowEvents.filter fun e => snapshot.sequence < e.sequence) a).trans
      (tame_redrive prog _)
  rw [htame.activation, htame.suspended]
  exact readmitted rt.store ha

theorem micro (hm : Micro prog allowed rt rt') : Traced rt' := by
  cases hm with
  | work hw =>
    cases hw with
    | memory hf => exact h.tame hf
    | timers ts => exact ⟨h.admitted, h.current, h.suspended⟩
    | snapshot ha =>
      refine h.store ?_ fun e he => .inl he
      rw [latestSequence_saveSnapshot rfl]
      exact Nat.le_succ _
    | event hq _ hid => exact h.event hq hid
  | marker hs signal =>
    exact h.store (Nat.le_of_eq (latestSequence_marker signal hs).symm) fun e he => .inl he
  | journal idx payload =>
    refine h.store ?_ fun e he => .inl he
    rw [latestSequence_appendJournal rfl]
    exact Nat.le_succ _
  | activate hn =>
    refine h.modifyActor fun a ha => ⟨fun id hid => ?_, h.suspended a ha⟩
    cases hid
    exact hn
  | release => exact h.modifyActor fun a ha => ⟨fun id hid => (by cases hid), h.suspended a ha⟩
  -- A suspended step keeps the activation it is in, which was admitted.
  | suspend hs signal =>
    refine h.modifyActor fun a ha => ⟨h.current a ha, fun s hs' => ?_⟩
    cases hs'
    rw [hs a ha]
    exact h.current a ha
  | resume ha hs => exact h.modifyActor fun b hb =>
    ⟨h.suspended _ ha _ hs, fun s hs' => (by cases hs')⟩
  | handle hn f => exact h.modifyActor fun a ha => ⟨h.current a ha, h.suspended a ha⟩
  | commit hn ht he hid =>
    refine h.store ?_ fun e hm => ?_
    · rw [latestSequence_install ht]
      exact Nat.le_succ _
    · rcases mem_append.mp hm with hm | hm
      · exact .inl hm
      · right
        intro id hi
        rw [hid e hm] at hi
        cases hi
  | drop hn => exact h.actor (fun b hb => (by cases hb)) _
  | rebuild hn hr => exact (h.actor (a := none) (fun b hb => (by cases hb)) rt.timers).recovered hr

end

theorem steps {p q : Process Runtime Effect} (h : Traced p.state) (hs : Steps prog allowed p q) :
    Traced q.state := by
  have hchain : Relation.ReflTransGen (Micro prog allowed) p.state q.state := hs
  generalize q.state = rt at hchain ⊢
  induction hchain with
  | refl => exact h
  | tail _ hm ih => exact ih.micro hm

theorem crash (h : Traced rt) : Traced rt.crash :=
  h.actor (a := none) (fun b hb => (by cases hb)) []

end Traced

/-! ## Workflows of compiled steps -/

/-- What holds of a workflow of compiled steps in every run: it can be recovered, its records are
numbered in order, every activation is of a command it has admitted, and every field that is
declared with a value has one. -/
structure Sturdy (prog : Program) (rt : Runtime) : Prop extends Recoverable rt, Traced rt where
  domain : rt.store.events = []
  bounded : rt.store.Bounded
  fields : ∀ a, rt.actor = some a → ∀ d ∈ prog.defaults, (a.stateData d.1).isSome

namespace Sturdy

variable {f : Actor → Actor}

theorem modifyActor (h : Sturdy prog rt)
    (hf : ∀ a, rt.actor = some a → (f a).activationEpoch = a.activationEpoch ∧
      (∀ id ∈ (f a).currentWorkflowActivation, id.commandSequence ≤ rt.store.latestSequence) ∧
      (∀ s ∈ (f a).suspendedExecution, ∀ id ∈ s.activation,
        id.commandSequence ≤ rt.store.latestSequence) ∧ ∀ name, (a.stateData name).isSome →
          ((f a).stateData name).isSome) : Sturdy prog (rt.modifyActor f) := by
  have hactor {b : Actor} (hb : (rt.modifyActor f).actor = some b) :
      ∃ a, rt.actor = some a ∧ f a = b :=
    map_eq_some_iff.mp hb
  refine ⟨⟨h.tail, h.snapshot, ?_⟩, ?_, h.domain, h.bounded, ?_⟩
  · intro b hb
    obtain ⟨a, ha, rfl⟩ := hactor hb
    rw [(hf a ha).1]
    exact h.epoch a ha
  · exact h.toTraced.modifyActor fun a ha => ⟨(hf a ha).2.1, (hf a ha).2.2.1⟩
  · intro b hb d hd
    obtain ⟨a, ha, rfl⟩ := hactor hb
    exact (hf a ha).2.2.2 d.1 (h.fields a ha d hd)

theorem tame (h : Sturdy prog rt) (hf : ∀ a, Tame a (f a)) : Sturdy prog (rt.modifyActor f) := by
  refine h.modifyActor fun a ha => ⟨(hf a).epoch, ?_, ?_, (hf a).fields⟩
  · rw [(hf a).activation]
    exact h.current a ha
  · rw [(hf a).suspended]
    exact h.suspended a ha

theorem store (h : Sturdy prog rt) {s : MemoryStore} (htail : s.durableTail = rt.store.durableTail)
    (hevents : s.workflowEvents = rt.store.workflowEvents) (hdomain : s.events = rt.store.events)
    (hq : rt.store.latestSequence ≤ s.latestSequence)
    (hs : ∃ snapshot, s.snapshot = some snapshot ∧ snapshot.activationEpoch ≠ 0) :
    Sturdy prog { rt with store := s } where
  toTraced := h.toTraced.store hq fun _ he => .inl (hevents ▸ he)
  tail := htail.trans h.tail
  snapshot := hs
  epoch := h.epoch
  domain := hdomain.trans h.domain
  bounded e he := Nat.le_trans (h.bounded e (hevents ▸ he)) hq
  fields := h.fields

theorem event (h : Sturdy prog rt) {e : WorkflowEvent} (hq : e.sequence = rt.nextSequence)
    (hid : ∀ id ∈ e.replayId, ∃ a, rt.actor = some a ∧
      a.currentWorkflowActivation = some id.activation) :
    Sturdy prog (rt.modifyStore (·.appendWorkflowEvent e)) := by
  have hlatest : (rt.store.appendWorkflowEvent e).latestSequence = rt.store.latestSequence + 1 :=
    latestSequence_appendWorkflowEvent hq
  refine ⟨⟨h.tail, h.snapshot, h.epoch⟩, h.toTraced.event hq hid, h.domain, ?_, h.fields⟩
  intro e' he'
  show e'.sequence ≤ (rt.store.appendWorkflowEvent e).latestSequence
  rw [hlatest]
  rcases mem_append.mp he' with hm | hm
  · exact Nat.le_succ_of_le (h.bounded e' hm)
  · rw [mem_singleton.mp hm, hq]
    exact Nat.le_refl _

theorem checkpointed (h : Sturdy prog rt) : Sturdy prog (rt.checkpointed prog) := by
  unfold Runtime.checkpointed
  cases ha : rt.actor with
  | none => exact h
  | some a =>
    have hsaved :
        Sturdy prog
        { rt with store := rt.store.saveSnapshot (a.snapshotAt prog rt.nextSequence) } := by
      refine h.store rfl rfl rfl ?_ ⟨_, rfl, h.epoch a ha⟩
      exact Nat.le_of_lt
        (Nat.lt_of_lt_of_eq (Nat.lt_succ_self _) (latestSequence_saveSnapshot rfl).symm)
    have htame := hsaved.tame (f := fun b => { b with sequence := rt.nextSequence })
      fun _ => Tame.of_fields rfl
    simp only [ha] at htame
    exact htame

theorem micro {rt' : Runtime} (hc : prog.Compiled) (h : Sturdy prog rt)
    (hm : Micro prog (fun _ => True) rt rt') :
    Sturdy prog rt' := by
  obtain ⟨snapshot, hsnap, hepoch⟩ := h.snapshot
  have htraced := h.toTraced.micro hm
  cases hm with
  | work hw =>
    cases hw with
    | memory hf => exact h.tame hf
    | timers ts => exact ⟨⟨h.tail, h.snapshot, h.epoch⟩, htraced, h.domain, h.bounded, h.fields⟩
    | snapshot ha =>
      refine h.store rfl rfl rfl ?_ ⟨_, rfl, h.epoch _ ha⟩
      exact Nat.le_of_lt
        (Nat.lt_of_lt_of_eq (Nat.lt_succ_self _) (latestSequence_saveSnapshot rfl).symm)
    | event hq _ hid => exact h.event hq hid
  | marker hs signal =>
    rw [hsnap] at hs
    cases hs
    exact h.store rfl rfl rfl (Nat.le_of_eq (latestSequence_marker signal hsnap).symm)
      ⟨_, rfl, hepoch⟩
  | journal idx payload =>
    refine h.store rfl rfl rfl ?_ h.snapshot
    exact Nat.le_of_lt
      (Nat.lt_of_lt_of_eq (Nat.lt_succ_self _) (latestSequence_appendJournal rfl).symm)
  | activate hn =>
    refine h.modifyActor fun a ha => ⟨rfl, fun id hid => ?_, h.suspended a ha, fun _ hs => hs⟩
    cases hid
    exact hn
  | release => exact h.modifyActor fun a ha =>
    ⟨rfl, fun id hid => (by cases hid), h.suspended a ha, fun _ hs => hs⟩
  | suspend hs signal =>
    refine h.modifyActor fun a ha => ⟨rfl, h.current a ha, fun s hs' => ?_, fun _ hs => hs⟩
    cases hs'
    rw [hs a ha]
    exact h.current a ha
  | resume ha hs =>
    refine h.modifyActor fun b hb => ⟨rfl, ?_, fun s hs' => (by cases hs'), fun _ hs => hs⟩
    exact h.suspended _ ha _ hs
  | handle hn | commit hn | drop hn | rebuild hn => exact absurd hc hn

theorem steps (hc : prog.Compiled) {p q : Process Runtime Effect} (h : Sturdy prog p.state)
    (hs : Steps prog (fun _ => True) p q) : Sturdy prog q.state := by
  have hchain : Relation.ReflTransGen (Micro prog fun _ => True) p.state q.state := hs
  generalize q.state = rt at hchain ⊢
  induction hchain with
  | refl => exact h
  | tail _ hm ih => exact ih.micro hc hm

end Sturdy

variable (l : List (String × Value))

theorem foldl_set_apply (f : Fields) (x : String) :
    l.foldl (fun f r => f.set r.1 r.2) f x = (l.reverse.lookup x).or (f x) := by
  induction l generalizing f with
  | nil => rfl
  | cons r l ih =>
    obtain ⟨name, v⟩ := r
    rw [foldl_cons, ih, reverse_cons, lookup_append, Option.or_assoc]
    congr 1
    by_cases h : x = name
    · subst h
      rw [Fields.set_same, lookup_cons_self]
      rfl
    · rw [Fields.set_of_ne f _ h, lookup_cons, beq_false_of_ne h]
      rfl

theorem foldl_default_apply (f : Fields) (x : String) :
    l.foldl (fun f d => if (f d.1).isSome then f else f.set d.1 d.2) f x =
      (f x).or (l.lookup x) := by
  induction l generalizing f with
  | nil => simp
  | cons d l ih =>
    obtain ⟨name, v⟩ := d
    rw [foldl_cons, ih]
    by_cases h : x = name
    · subst h
      cases hf : f x with
      | none => simp [Fields.set_same]
      | some v => simp [hf]
    · rw [lookup_cons, beq_false_of_ne h]
      split_ifs with hs
      · rfl
      · rw [Fields.set_of_ne f _ h]

theorem isSome_restoreFields (events : List EventEntry) (d : String × Value)
    (hd : d ∈ prog.defaults) : (restoreFields prog snapshot events d.1).isSome := by
  unfold restoreFields
  rw [foldl_default_apply, isSome_or, lookup_isSome_iff.mpr ⟨d, hd, BEq.rfl⟩, Bool.or_true]

theorem isSome_initial (init : List (String × Value)) (d : String × Value)
    (hd : d ∈ prog.defaults) : (prog.initial init d.1).isSome := by
  unfold Program.initial
  rw [foldl_set_apply, isSome_or, lookup_isSome_iff.mpr ⟨d, by simp [hd], BEq.rfl⟩, Bool.true_or]

theorem sturdy_spawnWorkflow (init : List (String × Value)) :
    Sturdy prog (spawnWorkflow prog (prog.initial init)) := by
  refine ⟨⟨rfl, ⟨_, rfl, Nat.one_ne_zero⟩, ?_⟩, ⟨?_, ?_, ?_⟩, rfl, ?_, ?_⟩
  · intro a ha
    cases ha
    exact Nat.one_ne_zero
  · intro e he id hid
    rw [mem_singleton.mp he] at hid
    cases hid
  · intro a ha id hid
    cases ha
    cases hid
  · intro a ha s hs
    cases ha
    cases hs
  · intro e he
    rw [mem_singleton.mp he]
    exact Nat.le_succ 1
  · intro a ha d hd
    cases ha
    exact isSome_initial init d hd

theorem Sturdy.recovered {rt' : Runtime} (h : Sturdy prog rt)
    (hr : recoverWorkflow prog rt.crash = some rt') : Sturdy prog rt' := by
  have htraced := h.toTraced.crash.recovered hr
  obtain ⟨a, ha, _, snapshot, hs, htame⟩ := recoverWorkflow_of_recoverable h.toRecoverable
  rw [ha] at hr
  cases hr
  obtain ⟨snapshot', hs', hepoch⟩ := h.snapshot
  rw [hs] at hs'
  cases hs'
  refine ⟨⟨h.tail, h.snapshot, ?_⟩, htraced, h.domain, h.bounded, ?_⟩
  · intro b hb
    cases hb
    rw [htame.epoch]
    exact hepoch
  · intro b hb d hd
    cases hb
    exact htame.fields d.1 (isSome_restoreFields rt.store.events d hd)

/-- Every run of a workflow of compiled steps keeps it. -/
theorem Reachable.sturdy (hw : prog.isWorkflow = true) (hc : prog.Compiled)
    (h : Reachable prog rt) :
    Sturdy prog rt := by
  have hop {rt : Runtime} (h : Sturdy prog rt) (op : Op) (writes : Option Nat) :
      Sturdy prog (rt.after (op.routine prog) writes) :=
    Sturdy.steps (p := ⟨rt, [], writes⟩) hc h ((steps_any hw op).exec ⟨rt, [], writes⟩)
  induction h with
  | spawn init => exact sturdy_spawnWorkflow init
  | perform _ op ih => exact hop ih op none
  | recover _ op k hr ih => exact (hop ih op (some k)).recovered hr

/-- Every run of a workflow is traced. -/
theorem Traced.after (hw : prog.isWorkflow = true) (h : Traced rt) (op : Op) (writes : Option Nat) :
    Traced (rt.after (op.routine prog) writes) :=
  Traced.steps (p := ⟨rt, [], writes⟩) h ((steps_any hw op).exec ⟨rt, [], writes⟩)

theorem Reachable.traced (hw : prog.isWorkflow = true) (h : Reachable prog rt) : Traced rt := by
  induction h with
  | spawn init => exact (sturdy_spawnWorkflow init).toTraced
  | perform _ op ih => exact ih.after hw op none
  | recover _ op k hr ih => exact (ih.after hw op (some k)).crash.recovered hr

end Nulang.Persist

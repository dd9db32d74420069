import Nulang.StoreSteps

/-!
# Signals across a crash

`signal_workflow` records a signal and then takes a checkpoint, and recovery replays only the events
above the sequence number of the snapshot. So the checkpoint of a signal puts its record below the
horizon: as soon as the call has returned, the signal is known to the live actor only. A crash then
loses it, unless it falls between the record and the checkpoint of another call of the same name
(`signals_survive_iff`).

Nothing else helps: no other signal and no later operation puts the record above the snapshot again.
-/

set_option autoImplicit false

namespace Nulang.Persist

open MemoryStore List Handler

/-! ## Signals in the store -/

def WorkflowEvent.signal? : WorkflowEvent → Option (String × Option String)
  | .signalReceived _ name payload => some (name, payload)
  | _ => none

/-- The signals a store has recorded, with their sequence numbers. -/
def MemoryStore.signals (s : MemoryStore) : List WorkflowEvent :=
  s.workflowEvents.filter fun e => e.signal?.isSome

/-- No signal lies above the snapshot. -/
def MemoryStore.Covered (s : MemoryStore) : Prop := ∀ e ∈ s.signals, e.sequence ≤ s.snapshotSequence

/-- Nothing about signals changes but that the snapshot may move past them. -/
structure Quiet (s t : MemoryStore) : Prop where
  signals : t.signals = s.signals
  horizon : s.snapshotSequence ≤ t.snapshotSequence

instance : Std.Refl Quiet := ⟨fun _ => ⟨rfl, Nat.le_refl _⟩⟩

instance : IsTrans MemoryStore Quiet :=
  ⟨fun _ _ _ h g => ⟨g.signals.trans h.signals, Nat.le_trans h.horizon g.horizon⟩⟩

variable {s : MemoryStore} {prog : Program} {rt rt' : Runtime}

theorem Quiet.covered {t : MemoryStore} (h : Quiet s t) (hs : s.Covered) : t.Covered := by
  intro e he
  rw [h.signals] at he
  exact Nat.le_trans (hs e he) h.horizon

theorem signals_append (e : WorkflowEvent) :
    (s.appendWorkflowEvent e).signals = s.signals ++ [e].filter fun e => e.signal?.isSome :=
  filter_append ..

theorem quiet_admits : Admits Quiet fun e => e.signal? = none where
  journal s idx payload := ⟨rfl, Nat.le_refl _⟩
  snapshot s snapshot h := by
    refine ⟨rfl, ?_⟩
    show s.snapshotSequence ≤ snapshot.sequence
    rw [h]
    exact Nat.le_succ_of_le (snapshotSequence_le s)
  marker s snapshot signal h := by
    refine ⟨rfl, ?_⟩
    simp only [snapshotSequence, saveSnapshot, h]
    exact Nat.le_refl _
  event s e _ he := by
    refine ⟨?_, Nat.le_refl _⟩
    rw [signals_append, filter_cons_of_neg (by simp [he])]
    exact append_nil _
  commit s t ht he := by
    constructor
    · show (s.workflowEvents ++ t.workflowEvents).filter _ = s.signals
      rw [filter_append, (filter_eq_nil_iff (l := t.workflowEvents)).mpr]
      · exact append_nil _
      · intro e hm
        simp [he e hm]
    · show s.snapshotSequence ≤ (s.install t).snapshotSequence
      unfold snapshotSequence install
      cases hc : t.snapshot with
      | none => exact Nat.le_refl _
      | some c =>
        show s.snapshotSequence ≤ c.sequence
        rw [ht.snapshot c hc]
        exact Nat.le_succ_of_le (snapshotSequence_le s)

theorem turnEvents_quiet : TurnEvents fun e => e.signal? = none := by
  intro e he
  cases e with
  | signalReceived q name payload => exact absurd rfl (he q name payload)
  | _ => rfl

theorem receivedSignals_replay (events : List WorkflowEvent) (a : Actor) :
    (events.foldl Actor.replay a).receivedSignals = a.receivedSignals ++
    events.filterMap WorkflowEvent.signal? := by
  induction events generalizing a with
  | nil => exact (append_nil _).symm
  | cons e events ih =>
    rw [foldl_cons, ih]
    cases e with
    | signalReceived q name payload =>
      simp [Actor.replay, Actor.applyWorkflowEvent, WorkflowEvent.signal?]
    | workflowStarted | sagaCompensated =>
      simp only [Actor.replay, Actor.applyWorkflowEvent, WorkflowEvent.signal?, filterMap_cons]
      split_ifs with h
      · rfl
      · rfl
    | _ => rfl

theorem receivedSignals_redrive (a : Actor) :
    (a.redrive prog).receivedSignals = a.receivedSignals := by
  unfold Actor.redrive
  dsimp only
  split_ifs with h
  · rfl
  · rfl

theorem receivedSignals_reopen {a b : Actor} {t : TailReading} (h : a.reopen t = some b) :
    b.receivedSignals = a.receivedSignals := by
  cases t with
  | refused => cases h
  | settled | pending =>
    cases h
    rfl

/-- The rebuilt actor has the signals above the snapshot. -/
theorem signalReady_recover (h : recoverWorkflow prog rt = some rt') (name : String) :
    rt'.signalReady name = true ↔
      ∃ e ∈ rt.store.signals, rt.store.snapshotSequence < e.sequence ∧
        ∃ payload, e.signal? = some (name, payload) := by
  obtain ⟨snapshot, a, hs, hr, rfl⟩ := of_recoverWorkflow h
  have ha : a.receivedSignals = [] := receivedSignals_reopen hr
  have hq : rt.store.snapshotSequence = snapshot.sequence := by simp [snapshotSequence, hs]
  simp only [Runtime.signalReady, Option.any_some, Actor.signalReady, receivedSignals_redrive,
    receivedSignals_replay, ha, nil_append, any_eq_true, mem_filterMap, mem_filter,
    decide_eq_true_eq, signals, hq]
  constructor
  · rintro ⟨⟨n, payload⟩, ⟨e, ⟨he, hlt⟩, hn⟩, rfl⟩
    exact ⟨e, ⟨he, by simp [hn]⟩, hlt, payload, hn⟩
  · rintro ⟨e, ⟨he, _⟩, hlt, payload, hn⟩
    exact ⟨(name, payload), ⟨e, ⟨he, hlt⟩, hn⟩, rfl⟩

theorem signalReady_of_covered (h : recoverWorkflow prog rt = some rt') (hc : rt.store.Covered)
    (name : String) : rt'.signalReady name = false := by
  rw [← Bool.not_eq_true, signalReady_recover h]
  rintro ⟨e, he, hlt, _⟩
  exact absurd (hc e he) (Nat.not_le_of_lt hlt)

theorem bounded_spawnWorkflow (f : Fields) : (spawnWorkflow prog f).store.Bounded := by
  intro e he
  rw [mem_singleton.mp he]
  exact Nat.le_succ 1

theorem bounded_perform (hw : prog.isWorkflow = true) (h : rt.store.Bounded) (op : Op)
    (writes : Option Nat) : (rt.after (op.routine prog) writes).store.Bounded := by
  exact grows_admits.along ((steps_any hw op).exec ⟨rt, [], writes⟩) h

theorem Reachable.bounded (hw : prog.isWorkflow = true) (h : Reachable prog rt) :
    rt.store.Bounded := by
  induction h with
  | spawn init => exact bounded_spawnWorkflow _
  | perform _ op ih => exact bounded_perform hw ih op none
  | recover _ op k hr ih =>
    rw [store_recoverWorkflow hr]
    exact bounded_perform hw ih op (some k)

/-- After the checkpoint of an event everything recorded is below the snapshot. -/
theorem covered_checkpoint (hs : s.Bounded) {e : WorkflowEvent}
    (he : e.sequence = s.latestSequence + 1) {snapshot : ActorSnapshot}
    (hsn : snapshot.sequence = (s.appendWorkflowEvent e).latestSequence + 1) :
    ((s.appendWorkflowEvent e).saveSnapshot snapshot).Covered := by
  intro e' he'
  show e'.sequence ≤ snapshot.sequence
  rw [hsn, latestSequence_appendWorkflowEvent he]
  rcases mem_append.mp (mem_filter.mp he').1 with hm | hm
  · exact Nat.le_add_right_of_le (Nat.le_succ_of_le (hs e' hm))
  · rw [mem_singleton.mp hm, he]
    exact Nat.le_succ _

/-- The store a call leaves: nothing yet, the record alone, or everything below the snapshot. -/
def SignalStage (rt : Runtime) (name : String) (payload : Option String) (writes : Option Nat)
    (s : MemoryStore) : Prop :=
  if writes = some 0 then s = rt.store
  else if writes = some 1 then s = rt.store.appendWorkflowEvent
    (.signalReceived rt.nextSequence name payload)
  else s.Covered

theorem signalStage (hw : prog.isWorkflow = true) (hb : rt.store.Bounded) (ha : rt.actor.isSome)
    (name : String) (payload : Option String) (writes : Option Nat) :
    SignalStage rt name payload writes
      (rt.after (signalWorkflow prog name payload) writes).store := by
  suffices h : (signalWorkflow prog name payload).Ends ⟨rt, [], writes⟩
      (fun q => SignalStage rt name payload writes q.state.store)
      (fun _ q => SignalStage rt name payload writes q.state.store)
      (fun _ q => SignalStage rt name payload writes q.state.store) from ends_all.mp h
  unfold signalWorkflow appendSignalReceived SignalStage
  rw [ends_bind, ends_appendCheckpointed _ ha]
  by_cases h0 : writes = some 0
  · simp only [h0, if_true]
  · by_cases h1 : writes = some 1
    · simp only [h1, if_true]
      exact rfl
    · simp only [h0, h1, if_false]
      have hcovered (q : Process Runtime Effect) (hq : Steps prog (fun e => e.signal? = none)
          (((⟨rt, [], writes⟩ : Process Runtime Effect).wrote
            (Runtime.appended fun n => .signalReceived n name payload)).wrote
            (Runtime.checkpointed prog)) q) :
          q.state.store.Covered := by
        refine (quiet_admits.along hq).covered ?_
        obtain ⟨a, ha⟩ := Option.isSome_iff_exists.mp ha
        simp only [Process.state_wrote, Runtime.checkpointed, Runtime.actor_appended, ha]
        exact covered_checkpoint hb rfl rfl
      exact ends_mono (steps_deliverSignal hw turnEvents_quiet name payload _) hcovered
        (fun _ => hcovered) fun _ => hcovered

/-- Operations performed one after the other on a live actor. -/
inductive Runs (prog : Program) (rt : Runtime) : Runtime → Prop where
  | nil : Runs prog rt rt
  | step {rt' : Runtime} (h : Runs prog rt rt') (ha : rt'.actor.isSome) (op : Op) :
    Runs prog rt (rt'.after (op.routine prog) none)

theorem Runs.bounded (hw : prog.isWorkflow = true) (h : Runs prog rt rt') (hb : rt.store.Bounded) :
    rt'.store.Bounded := by
  induction h with
  | nil => exact hb
  | step _ _ op ih => exact bounded_perform hw ih op none

/-- An operation that is not a signal, wherever it is cut, leaves every signal below the snapshot
there. -/
theorem covered_after (hw : prog.isWorkflow = true) (hc : rt.store.Covered) (op : Op)
    (ho : ∀ name payload, op ≠ .signal name payload) (writes : Option Nat) :
    (rt.after (op.routine prog) writes).store.Covered :=
  (quiet_admits.along ((steps_op hw turnEvents_quiet op ho).exec ⟨rt, [], writes⟩)).covered hc

theorem Runs.covered (hw : prog.isWorkflow = true) (h : Runs prog rt rt') (hb : rt.store.Bounded)
    (hc : rt.store.Covered) : rt'.store.Covered := by
  induction h with
  | nil => exact hc
  | step hs ha op ih =>
    by_cases ho : ∃ name payload, op = .signal name payload
    · obtain ⟨name, payload, rfl⟩ := ho
      exact signalStage hw (hs.bounded hw hb) ha name payload none
    · exact covered_after hw ih op (fun name payload he => ho ⟨name, payload, he⟩) none

/-- The signals above the snapshot, when the record of one more has just been written. -/
theorem signalReady_recorded (hc : s.Covered) {n : Nat} (hn : s.latestSequence < n) {name' : String}
    {payload' : Option String}
    (hs : rt.store = s.appendWorkflowEvent (.signalReceived n name' payload'))
    (h : recoverWorkflow prog rt.crash = some rt') (name : String) :
    rt'.signalReady name = true ↔ name' = name := by
  have hs' : rt.crash.store = s.appendWorkflowEvent (.signalReceived n name' payload') := hs
  rw [signalReady_recover h, hs', signals_append]
  constructor
  · rintro ⟨e, he, hlt, payload, hp⟩
    rcases mem_append.mp he with hm | hm
    · exact absurd (hc e hm) (Nat.not_le_of_lt hlt)
    · cases mem_singleton.mp (mem_filter.mp hm).1
      cases hp
      rfl
  · rintro rfl
    refine ⟨.signalReceived n name' payload', ?_, ?_, payload', rfl⟩
    · exact mem_append_right _ (mem_filter.mpr ⟨mem_singleton_self _, rfl⟩)
    · exact Nat.lt_of_le_of_lt (snapshotSequence_le s) hn

/-- A signal that was accepted, any operations after it, and a crash: the rebuilt actor has the
signal exactly if the crash falls between the record and the checkpoint of another call of the same
name. -/
theorem signals_survive_iff {prog : Program} (hw : prog.isWorkflow = true) {rt rt₂ rt' : Runtime}
    (hr : Reachable prog rt) (ha : rt.actor.isSome) (name : String) (payload : Option String)
    (hruns : Runs prog (rt.after (signalWorkflow prog name payload) none) rt₂)
    (ha₂ : rt₂.actor.isSome) (last : Op) (k : Nat)
    (hrec : recoverWorkflow prog (rt₂.after (last.routine prog) (some k)).crash = some rt') :
    rt'.signalReady name = true ↔ (∃ payload', last = .signal name payload') ∧ k = 1 := by
  have hb : rt.store.Bounded := hr.bounded hw
  have hb₁ : (rt.after (signalWorkflow prog name payload) none).store.Bounded :=
    bounded_perform hw hb (.signal name payload) none
  have hc₂ : rt₂.store.Covered := hruns.covered hw hb₁ (signalStage hw hb ha name payload none)
  by_cases ho : ∃ name' payload', last = .signal name' payload'
  · obtain ⟨name', payload', rfl⟩ := ho
    have hstage := signalStage hw (hruns.bounded hw hb₁) ha₂ name' payload' (some k)
    unfold SignalStage at hstage
    split_ifs at hstage with h0 h1
    · have hlost :=
        signalReady_of_covered hrec
          (show (rt₂.after _ (some k)).store.Covered from hstage ▸ hc₂) name
      simp only [hlost, Bool.false_eq_true, false_iff]
      rintro ⟨_, rfl⟩
      cases h0
    · cases h1
      rw [signalReady_recorded hc₂ (Nat.lt_succ_self _) hstage hrec name]
      constructor
      · rintro rfl
        exact ⟨⟨payload', rfl⟩, rfl⟩
      · rintro ⟨⟨_, he⟩, _⟩
        cases he
        rfl
    · have hlost := signalReady_of_covered hrec hstage name
      simp only [hlost, Bool.false_eq_true, false_iff]
      rintro ⟨_, rfl⟩
      exact h1 rfl
  · have hcut := covered_after hw hc₂ last (fun n p he => ho ⟨n, p, he⟩) (some k)
    have hlost := signalReady_of_covered hrec hcut name
    simp only [hlost, Bool.false_eq_true, false_iff]
    rintro ⟨⟨payload', he⟩, _⟩
    exact ho ⟨name, payload', he⟩

/-- What has been recorded stays as it is, in its place. -/
structure Extends (s t : MemoryStore) : Prop where
  journal : s.journal <+: t.journal
  workflowEvents : s.workflowEvents <+: t.workflowEvents
  latest : s.latestSequence ≤ t.latestSequence

instance : Std.Refl Extends := ⟨fun _ => ⟨prefix_refl _, prefix_refl _, Nat.le_refl _⟩⟩

instance : IsTrans MemoryStore Extends where
  trans _ _ _ h g :=
    ⟨h.journal.trans g.journal, h.workflowEvents.trans g.workflowEvents,
      Nat.le_trans h.latest g.latest⟩

theorem extends_admits : Admits Extends fun _ => True where
  journal s _ _ :=
  ⟨prefix_append _ _, prefix_refl _, by rw [latestSequence_appendJournal rfl]; omega⟩
  snapshot s _ h := ⟨prefix_refl _, prefix_refl _, by rw [latestSequence_saveSnapshot h]; omega⟩
  marker s _ signal h :=
  ⟨prefix_refl _, prefix_refl _, Nat.le_of_eq (latestSequence_marker signal h).symm⟩
  event s e h _ :=
  ⟨prefix_refl _, prefix_append _ _, by rw [latestSequence_appendWorkflowEvent h]; omega⟩
  commit s t h _ := ⟨prefix_append _ _, prefix_append _ _, by rw [latestSequence_install h]; omega⟩

/-- A later runtime of a workflow, with any crashes in between, each followed by a recovery. -/
inductive Later (prog : Program) (rt : Runtime) : Runtime → Prop where
  | refl : Later prog rt rt
  | perform {rt' : Runtime} (h : Later prog rt rt') (op : Op) :
      Later prog rt (rt'.after (op.routine prog) none)
  | recover {rt' rt'' : Runtime} (h : Later prog rt rt') (op : Op) (k : Nat)
      (hr : recoverWorkflow prog (rt'.after (op.routine prog) (some k)).crash = some rt'') :
      Later prog rt rt''

/-- The history of a workflow is only ever appended to, whatever happens to it. -/
theorem history_append_only (hw : prog.isWorkflow = true) (h : Later prog rt rt') :
    Extends rt.store rt'.store := by
  have hop (rt : Runtime) (op : Op) (writes : Option Nat) :
      Extends rt.store (rt.after (op.routine prog) writes).store :=
    extends_admits.along ((steps_any hw op).exec ⟨rt, [], writes⟩)
  induction h with
  | refl => exact Std.Refl.refl _
  | perform _ op ih => exact IsTrans.trans _ _ _ ih (hop _ op none)
  | recover _ op k hr ih =>
    rw [store_recoverWorkflow hr]
    exact IsTrans.trans _ _ _ ih (hop _ op (some k))

/-- A new workflow that has accepted the signal `go`. -/
def signalled : Runtime :=
  (spawnWorkflow idleWorkflow Fields.empty).after (signalWorkflow idleWorkflow "go" none) none

/-- The signal again, with a crash after the first write of it, and after the recovery a third
time. -/
theorem history_append_only_recovered :
    ∃ rt, recoverWorkflow idleWorkflow
        (signalled.after ((Op.signal "go" none).routine idleWorkflow) (some 1)).crash = some rt ∧
      signalled.store.workflowEvents.length < rt.store.workflowEvents.length ∧
      rt.store.workflowEvents.length <
        (rt.after ((Op.signal "go" none).routine idleWorkflow) none).store.workflowEvents.length ∧
      Extends (spawnWorkflow idleWorkflow Fields.empty).store
        (rt.after ((Op.signal "go" none).routine idleWorkflow) none).store :=
  ⟨_, rfl, by decide +kernel, by decide +kernel, history_append_only rfl
    (.perform (.recover (.perform .refl (.signal "go" none)) (.signal "go" none) 1 rfl)
      (.signal "go" none))⟩

/-- The signal survives in the window of a second call. -/
theorem signals_survive_second_call :
    ∃ rt', recoverWorkflow idleWorkflow
        (signalled.after ((Op.signal "go" none).routine idleWorkflow) (some 1)).crash = some rt' ∧
      (rt'.signalReady "go" = true ↔
        (∃ payload', Op.signal "go" none = .signal "go" payload') ∧ 1 = 1) :=
  ⟨_, rfl, signals_survive_iff rfl (.spawn []) rfl "go" none .nil rfl (.signal "go" none) 1 rfl⟩

/-- A workflow accepts a signal, crashes right after, and waits for it again. -/
theorem accepted_signal_lost :
    ((signalWorkflow idleWorkflow "go" none).exec
      ⟨spawnWorkflow idleWorkflow Fields.empty, [], none⟩).1 = .ok () ∧
      ∃ rt', recoverWorkflow idleWorkflow signalled.crash = some rt' ∧
        rt'.signalReady "go" = false :=
  ⟨rfl, _, rfl, by decide⟩

end Nulang.Persist

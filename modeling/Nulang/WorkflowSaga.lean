import Nulang.StoreSteps

/-!
# Saga compensation runs at most once

`run_saga_compensation` passes over the steps its actor has marked as compensated. The mark is kept
in memory and rebuilt from the recorded events above the snapshot, but the checkpoint after each
record puts the record below the snapshot. So a recovery forgets the marks, and the next failure
runs recorded compensations again.

A call runs no recorded compensation exactly if every recorded step it could reach is marked
(`compensates_once`), and in a run whose recoveries find every record above the snapshot no call
ever does.
-/

set_option autoImplicit false

namespace Nulang.Persist

open MemoryStore Actor Runtime List Handler

/-- The steps a live actor knows to be compensated. -/
def Runtime.marks (rt : Runtime) : Option (List String) := rt.actor.map compensatedSteps

def Program.compensation? (prog : Program) (idx : Nat) : Option Body :=
  prog.steps[idx]?.bind Step.compensate

namespace Effect

def behaviorIdx : Effect → Nat
  | .compensate idx _ => idx

def recorded : Effect → List String
  | .compensate _ recorded => recorded

end Effect

/-- No compensation ran when its step was already recorded. -/
def Fresh (prog : Program) (sent : List Effect) : Prop :=
  ∀ e ∈ sent, prog.stepNameFor e.behaviorIdx ∉ e.recorded

/-- Nothing about compensation changes. -/
structure Calm (p q : Process Runtime Effect) : Prop where
  sent : q.sent = p.sent
  recorded : q.state.store.compensated = p.state.store.compensated
  marks : q.state.marks = p.state.marks

instance : Std.Refl Calm := ⟨fun _ => ⟨rfl, rfl, rfl⟩⟩

instance : IsTrans (Process Runtime Effect) Calm :=
  ⟨fun _ _ _ h g => ⟨g.sent.trans h.sent, g.recorded.trans h.recorded, g.marks.trans h.marks⟩⟩

theorem MemoryStore.compensated_append (s : MemoryStore) (e : WorkflowEvent) :
    (s.appendWorkflowEvent e).compensated = s.compensated ++
    [e].filterMap WorkflowEvent.compensated? :=
  filterMap_append

/-! ## Calm routines -/

section Calm

variable {fails : Prop}

theorem calm_changed {f : Actor → Actor} {p : Process Runtime Effect}
    (hf : ∀ a, (f a).compensatedSteps = a.compensatedSteps) :
    Calm p (p.changed (modifyActor f)) := by
  refine ⟨rfl, rfl, ?_⟩
  show (p.state.actor.map f).map _ = p.state.actor.map _
  rw [Option.map_map]
  congr 1
  funext a
  exact hf a

theorem calm_memory {f : Actor → Actor} (hf : ∀ a, (f a).compensatedSteps = a.compensatedSteps) :
    (Handler.remember (modifyActor f) : Routine Unit).Steady Calm fails :=
  Steady.remember fun _ => calm_changed hf

theorem calm_store {f : MemoryStore → MemoryStore} (hf : ∀ s, (f s).compensated = s.compensated) :
    (Handler.write (modifyStore f) : Routine Unit).Steady Calm fails :=
  Steady.write fun p => ⟨rfl, hf p.state.store, rfl⟩

theorem calm_append {e : WorkflowEvent} (he : e.compensated? = none) :
    (appendWorkflowEvent e).Steady Calm fails := by
  refine calm_store fun s => ?_
  rw [compensated_append]
  simp [he]

theorem calm_checkpoint (prog : Program) : (tryCheckpointActor prog).Steady Calm fails := by
  refine Steady.read fun rt => ?_
  cases rt.actor with
  | none => exact Steady.pure ()
  | some a => exact Steady.bind (calm_store fun _ => rfl) fun _ => calm_memory fun _ => rfl

theorem calm_appendCheckpointed (prog : Program) {event : Nat → WorkflowEvent}
    (he : ∀ n, (event n).compensated? = none) : (appendCheckpointed prog event).Steady Calm fails :=
  Steady.read fun _ => (calm_append (he _)).bind fun _ => calm_checkpoint prog

theorem calm_suspensionMarker : persistSuspensionMarker.Steady Calm fails := by
  refine Steady.read fun rt => ?_
  cases rt.actor with
  | none => exact Steady.pure ()
  | some a =>
    cases rt.store.snapshot with
    | none => exact Steady.pure ()
    | some snapshot => exact Steady.when fun _ => calm_store fun _ => rfl

theorem compensatedSteps_alignReplay (a : Actor) (activation : ActivationId) :
    (a.alignReplay activation).compensatedSteps = a.compensatedSteps := by
  unfold alignReplay
  split_ifs with h
  · rfl
  · rfl

theorem compensatedSteps_advanceReplay (a : Actor) (id : ReplayEventId) :
    (a.advanceReplay id).compensatedSteps = a.compensatedSteps := by
  unfold advanceReplay
  split_ifs with h
  · rfl
  · rfl

theorem calm_replayId : currentWorkflowReplayId.Steady Calm fails := by
  refine Steady.read fun rt => ?_
  cases rt.actor with
  | none => exact Steady.pure none
  | some a =>
    dsimp only
    cases a.currentWorkflowActivation with
    | none => exact Steady.pure none
    | some activation =>
      exact (calm_memory fun a => compensatedSteps_alignReplay a activation).bind fun _ =>
        Steady.pure _

theorem calm_advanceReplayId (id : ReplayEventId) :
    (advanceWorkflowReplayId id).Steady Calm fails :=
  calm_memory fun a => compensatedSteps_advanceReplay a id

theorem calm_emitCustom (prog : Program) (sequence : Nat) (event : String) (args : List Value) :
    (emitCustom prog sequence event args).Steady Calm fails := by
  refine calm_replayId.bind fun id => ?_
  cases id with
  | none => exact (calm_append rfl).bind fun _ => calm_checkpoint prog
  | some id =>
    refine Steady.read fun rt => ?_
    cases customEventReplayDisposition rt.store id event args with
    | consume => exact calm_advanceReplayId id
    | conflict => exact Steady.pure ()
    | append => exact (calm_append rfl).bind fun _ => calm_advanceReplayId id

theorem calm_emitDomainEvent (prog : Program) (sequence : Nat) (event : String)
    (args : List Value) :
    (emitDomainEvent prog sequence event args).Steady Calm fails := by
  have hevents (names : List String) :
      (appendEvents sequence event args names).Steady Calm fails := by
    induction names with
    | nil => exact Steady.pure ()
    | cons name names ih =>
      exact Steady.read fun _ => Steady.bind (calm_store fun _ => rfl) fun _ => ih
  exact Steady.when fun _ => (hevents _).bind fun _ => calm_memory fun _ => rfl

theorem calm_emitEvent (prog : Program) (event : String) (args : List Value) :
    (emitEvent prog event args).Steady Calm fails := by
  refine Steady.read fun rt => Steady.bind (calm_memory fun _ => rfl) fun _ => ?_
  split_ifs with hw hb
  · refine (calm_append rfl).bind fun _ => ?_
    exact Steady.bind (calm_memory fun _ => rfl) fun _ => calm_checkpoint prog
  · exact calm_emitCustom prog rt.nextSequence event args
  · exact calm_emitDomainEvent prog rt.nextSequence event args

theorem calm_scheduleTimer (prog : Program) (name : String) (durationMs : Nat) :
    (scheduleWorkflowTimer prog name durationMs).Steady Calm True := by
  refine Steady.bind ?_ fun arm => Steady.when fun _ => Steady.remember fun p => ⟨rfl, rfl, rfl⟩
  refine calm_replayId.bind fun id => ?_
  cases id with
  | none =>
    refine Steady.read fun rt => (calm_append rfl).bind fun _ => ?_
    exact (calm_checkpoint prog).bind fun _ => Steady.pure true
  | some id =>
    refine Steady.read fun rt => ?_
    cases timerSetReplayDisposition rt.store id name durationMs with
    | consume => exact (calm_advanceReplayId id).bind fun _ => Steady.pure false
    | conflict => exact Steady.fail trivial _
    | append =>
      refine (calm_append rfl).bind fun _ => ?_
      exact (calm_advanceReplayId id).bind fun _ => Steady.pure true

theorem calm_body (prog : Program) (b : Body) : (b.run prog).Steady Calm fails := by
  induction b with
  | finish | fail => exact Steady.pure _
  | observe k ih => exact Steady.read fun rt => ih rt.fields
  | assign x v k ih => exact Steady.bind (calm_memory fun _ => rfl) fun _ => ih
  | emit event args k ih => exact (calm_emitEvent prog event args).bind fun _ => ih
  | timer name durationMs k ih =>
    refine (calm_scheduleTimer prog name durationMs).attempt.bind fun scheduled => ?_
    cases scheduled with
    | true => exact ih
    | false => exact Steady.pure _
  | wait signal k ih =>
    refine Steady.read fun rt => ?_
    split_ifs with hr
    · exact ih
    · exact Steady.pure _

theorem calm_suspend (idx : Nat) (stepName signal : String) (rest : Body) :
    (suspend idx stepName signal rest).Steady Calm fails :=
  calm_memory fun _ => rfl

theorem calm_finishCompensation (outcome : Outcome) :
    (finishCompensation outcome).Steady Calm fails := by
  cases outcome with
  | completed => exact Steady.pure true
  | suspended signal rest => exact (calm_suspend 0 "" signal rest).bind fun _ => Steady.pure false
  | failed e => exact Steady.pure false

end Calm

/-- What has been sent once a step's compensation was started, if it has one. -/
def attempted (prog : Program) (idx : Nat) (p : Process Runtime Effect) : List Effect :=
  if (prog.compensation? idx).isSome then .compensate idx p.state.store.compensated ::
    p.sent else p.sent

/-- The step is recorded and marked, or its compensation did not succeed. -/
structure Compensated (prog : Program) (idx : Nat) (p q : Process Runtime Effect) : Prop where
  sent : q.sent = attempted prog idx p
  outcome : (q.state.store.compensated = p.state.store.compensated ++ [prog.stepNameFor idx] ∧
      q.state.marks = p.state.marks.map (· ++ [prog.stepNameFor idx])) ∨
    ((prog.compensation? idx).isSome ∧ q.state.store.compensated = p.state.store.compensated ∧
      q.state.marks = p.state.marks)

variable {p q : Process Runtime Effect} {prog : Program} {rt : Runtime}

theorem ends_recordCompensated (stepName : String) {m : List String} (hm : p.state.marks = some m)
    (hn : stepName ∉ m) :
    (recordCompensated prog stepName).Ends p (fun q => q.sent = p.sent ∧ p.writes ≠ none)
    (fun _ _ => False)
      fun _ q =>
        (q.sent = p.sent ∧ q.state.store.compensated = p.state.store.compensated ++ [stepName] ∧
        q.state.marks = some (m ++ [stepName])) ∧ (p.writes = none → q.writes = none) := by
  obtain ⟨a, ha, rfl⟩ := Option.map_eq_some_iff.mp hm
  have hlive : p.state.actor.isSome := by simp [ha]
  unfold recordCompensated appendSagaCompensated
  rw [ends_bind, ends_appendCheckpointed _ hlive]
  split_ifs with h0 h1
  · exact ⟨rfl, by simp [h0]⟩
  · exact ⟨rfl, by simp [h1]⟩
  · refine ⟨⟨rfl, ?_, ?_⟩, fun hw => by simp [hw]⟩
    · simp only [Process.state_changed, Process.state_wrote, modifyActor, checkpointed,
        actor_appended, ha]
      exact compensated_append ..
    · simp only [Process.state_changed, Process.state_wrote, modifyActor, checkpointed,
        actor_appended, ha, marks, Option.map_some, if_neg hn]

theorem ends_compensateStep_of_mem {idx : Nat} {K : Process Runtime Effect → Prop}
    {E : IoError → Process Runtime Effect → Prop} {Q : Unit → Process Runtime Effect → Prop}
    (hm : ∀ m ∈ p.state.marks, prog.stepNameFor idx ∈ m) :
    (compensateStep prog idx).Ends p K E Q ↔ Q () p := by
  unfold compensateStep
  rw [ends_bind, ends_read, ends_when, if_neg]
  cases ha : p.state.actor with
  | none => simp
  | some a =>
    have hmem := hm a.compensatedSteps (by simp [marks, ha])
    simp [hmem]

/-- One step of the loop, for a step that is not marked: its compensation runs if it has one, and if
that succeeds, or there is none, the step is recorded and marked. -/
theorem ends_compensateStep (idx : Nat) {m : List String} (hm : p.state.marks = some m)
    (hn : prog.stepNameFor idx ∉ m) :
    (compensateStep prog idx).Ends p (fun q => q.sent = attempted prog idx p ∧ p.writes ≠ none)
    (fun _ _ => False)
      fun _ q => Compensated prog idx p q ∧ (p.writes = none → q.writes = none) := by
  have hany : (p.state.actor.any fun a => prog.stepNameFor idx ∉ a.compensatedSteps) = true := by
    obtain ⟨a, ha, rfl⟩ := Option.map_eq_some_iff.mp hm
    simp [ha, hn]
  unfold compensateStep
  rw [ends_bind, ends_read, ends_when, if_pos hany]
  unfold runCompensation
  cases hc : prog.compensation? idx with
  -- A step without a compensation is recorded as compensated all the same.
  | none =>
    have hc' : prog.steps[idx]?.bind Step.compensate = none := hc
    rw [hc', ends_bind, ends_pure, ends_when, if_pos rfl]
    have hsent : attempted prog idx p = p.sent := by simp [attempted, hc]
    rw [hsent]
    refine ends_imp (ends_recordCompensated _ hm hn) ?_
    rintro _ q ⟨⟨hs, hr, hmarks⟩, hw⟩
    exact ⟨⟨hs.trans hsent.symm, .inl ⟨hr, by rw [hmarks, hm, Option.map_some]⟩⟩, hw⟩
  | some body =>
    have hc' : prog.steps[idx]?.bind Step.compensate = some body := hc
    have hsent : attempted prog idx p = .compensate idx p.state.store.compensated :: p.sent := by
      simp [attempted, hc]
    have hsome : (prog.compensation? idx).isSome := by simp [hc]
    rw [hc', hsent]
    rw [ends_bind, ends_bind, ends_read, ends_bind, ends_send]
    -- The body may emit and set fields, but leaves the marks and the record of compensations alone.
    have hbody : (body.run prog).Steady Calm False := calm_body prog body
    have hrun := hbody.bind fun outcome => calm_finishCompensation outcome
    refine ends_mono (hrun { p with sent := .compensate idx p.state.store.compensated :: p.sent })
      (fun q hq => ⟨hq.1.sent, hq.2⟩) (fun _ _ hq => hq.1) fun succeeded q hq => ?_
    obtain ⟨hcalm, hwrites⟩ := hq
    have hmarks : q.state.marks = some m := hcalm.marks.trans hm
    rw [ends_when]
    split_ifs with hs
    · refine ends_mono (ends_recordCompensated _ hmarks hn) ?_ (fun _ _ hr => hr) ?_
      · rintro r ⟨hr, hw⟩
        exact ⟨hr.trans hcalm.sent, fun hp => hw (hwrites hp)⟩
      · rintro _ r ⟨⟨hr, hrec, hmark⟩, hw⟩
        refine ⟨⟨(hr.trans hcalm.sent).trans hsent.symm, .inl ⟨?_, ?_⟩⟩, fun hp => hw (hwrites hp)⟩
        · rw [hrec, hcalm.recorded]
        · rw [hmark, hm, Option.map_some]
    · exact ⟨⟨hcalm.sent.trans hsent.symm, .inr ⟨hsome, hcalm.recorded, hcalm.marks⟩⟩, hwrites⟩

/-! ## A call -/

/-- Every recorded step among the first `n` that has a compensation is marked, or will be marked by
a later step of the same name before its turn comes. -/
def Remembered (prog : Program) (n : Nat) (rt : Runtime) : Prop :=
  ∀ m ∈ rt.marks, ∀ idx < n, (prog.compensation? idx).isSome →
    prog.stepNameFor idx ∈ rt.store.compensated →
    prog.stepNameFor idx ∈ m ∨
      ∃ j, idx < j ∧ j < n ∧ prog.stepNameFor j = prog.stepNameFor idx ∧ prog.compensation? j = none

section Call

variable {n : Nat} {m : List String}

/-- Passing over a marked step changes nothing for the steps before it. -/
theorem remembered_of_mem (hm : p.state.marks = some m) (hn : prog.stepNameFor n ∈ m) :
    Remembered prog (n + 1) p.state ↔ Remembered prog n p.state := by
  constructor
  · intro h m' hm' idx hidx hc hrec
    rcases h m' hm' idx (Nat.lt_succ_of_lt hidx) hc hrec with hmem | ⟨j, hj, hjn, hname, hnone⟩
    · exact .inl hmem
    · rcases Nat.lt_succ_iff_lt_or_eq.mp hjn with hlt | rfl
      · exact .inr ⟨j, hj, hlt, hname, hnone⟩
      · rw [hm] at hm'
        cases hm'
        exact .inl (hname ▸ hn)
  · intro h m' hm' idx hidx hc hrec
    rcases Nat.lt_succ_iff_lt_or_eq.mp hidx with hlt | rfl
    · rcases h m' hm' idx hlt hc hrec with hmem | ⟨j, hj, hjn, hname, hnone⟩
      · exact .inl hmem
      · exact .inr ⟨j, hj, Nat.lt_succ_of_lt hjn, hname, hnone⟩
    · rw [hm] at hm'
      cases hm'
      exact .inl hn

/-- Nothing recorded is run by the step itself. -/
theorem fresh_attempted (hm : p.state.marks = some m) (hn : prog.stepNameFor n ∉ m)
    (h : Remembered prog (n + 1) p.state) (hs : Fresh prog p.sent) :
    Fresh prog (attempted prog n p) := by
  unfold attempted
  split_ifs with hc
  · refine forall_mem_cons.mpr ⟨fun hrec => ?_, hs⟩
    rcases h m hm n (Nat.lt_succ_self n) hc hrec with hmem | ⟨j, hj, hjn, _⟩
    · exact hn hmem
    · exact absurd hj (Nat.not_lt_of_le (Nat.lt_succ_iff.mp hjn))
  · exact hs

/-- Compensating a step leaves the condition for the steps before it as it was. -/
theorem remembered_compensated (hm : p.state.marks = some m) (hq : Compensated prog n p q)
    (hs : Fresh prog (attempted prog n p)) :
    Remembered prog (n + 1) p.state ↔ Remembered prog n q.state := by
  have hself (hc : (prog.compensation? n).isSome) :
      prog.stepNameFor n ∉ p.state.store.compensated :=
    hs (.compensate n p.state.store.compensated) (by simp [attempted, hc])
  have hcomp {idx : Nat} (hc : (prog.compensation? idx).isSome) :
      prog.compensation? idx ≠ none := by
    rw [← Option.isSome_iff_ne_none]
    exact hc
  -- Either the step is recorded and marked, or its compensation has failed and nothing has changed.
  rcases hq.outcome with ⟨hrec, hmarks⟩ | ⟨hc, hrec, hmarks⟩
  · rw [hm, Option.map_some] at hmarks
    constructor
    · intro h m' hm' idx hidx hc hin
      rw [hmarks] at hm'
      cases hm'
      by_cases hname : prog.stepNameFor idx = prog.stepNameFor n
      · exact .inl (mem_append_right _ (mem_singleton.mpr hname))
      · have hin' : prog.stepNameFor idx ∈ p.state.store.compensated := by
          rw [hrec] at hin
          rcases mem_append.mp hin with hin | hin
          · exact hin
          · exact absurd (mem_singleton.mp hin) hname
        rcases h m hm idx (Nat.lt_succ_of_lt hidx) hc hin' with hmem | ⟨j, hj, hjn, hjname, hnone⟩
        · exact .inl (mem_append_left _ hmem)
        · rcases Nat.lt_succ_iff_lt_or_eq.mp hjn with hlt | rfl
          · exact .inr ⟨j, hj, hlt, hjname, hnone⟩
          · exact absurd hjname.symm hname
    · intro h m' hm' idx hidx hc hin
      rw [hm] at hm'
      cases hm'
      rcases Nat.lt_succ_iff_lt_or_eq.mp hidx with hlt | rfl
      · have hin' : prog.stepNameFor idx ∈ q.state.store.compensated := by
          rw [hrec]
          exact mem_append_left _ hin
        rcases h _ hmarks idx hlt hc hin' with hmem | ⟨j, hj, hjn, hjname, hnone⟩
        · rcases mem_append.mp hmem with hmem | hname
          · exact .inl hmem
          · -- the step that was just recorded has the same name, so it had no compensation to run
            have hname := mem_singleton.mp hname
            refine .inr ⟨n, hlt, Nat.lt_succ_self n, hname.symm, ?_⟩
            rw [← Option.not_isSome_iff_eq_none]
            exact fun hcn => hself hcn (hname ▸ hin)
        · exact .inr ⟨j, hj, Nat.lt_succ_of_lt hjn, hjname, hnone⟩
      · exact absurd hin (hself hc)
  · rw [hm] at hmarks
    constructor
    · intro h m' hm' idx hidx hci hin
      rw [hmarks] at hm'
      cases hm'
      rcases h m hm idx (Nat.lt_succ_of_lt hidx) hci (hrec ▸ hin) with
        hmem | ⟨j, hj, hjn, hjname, hnone⟩
      · exact .inl hmem
      · rcases Nat.lt_succ_iff_lt_or_eq.mp hjn with hlt | rfl
        · exact .inr ⟨j, hj, hlt, hjname, hnone⟩
        · exact absurd hnone (hcomp hc)
    · intro h m' hm' idx hidx hci hin
      rw [hm] at hm'
      cases hm'
      rcases Nat.lt_succ_iff_lt_or_eq.mp hidx with hlt | rfl
      · rcases h m hmarks idx hlt hci (hrec ▸ hin) with hmem | ⟨j, hj, hjn, hjname, hnone⟩
        · exact .inl hmem
        · exact .inr ⟨j, hj, Nat.lt_succ_of_lt hjn, hjname, hnone⟩
      · exact absurd hin (hself hc)

end Call

theorem compensateSteps_succ (n : Nat) : compensateSteps prog (range (n + 1)).reverse
      = compensateStep prog n >>= fun _ => compensateSteps prog (range n).reverse := by
  rw [range_succ, reverse_append]
  rfl

theorem marks_cases (n : Nat) :
    (∀ m ∈ p.state.marks, prog.stepNameFor n ∈ m) ∨ ∃ m, p.state.marks = some m ∧
    prog.stepNameFor n ∉ m := by
  by_cases h : ∀ m ∈ p.state.marks, prog.stepNameFor n ∈ m
  · exact .inl h
  · simp only [not_forall] at h
    obtain ⟨m, hm, hn⟩ := h
    exact .inr ⟨m, hm, hn⟩

/-- The rest of a call runs nothing recorded if everything recorded is remembered. -/
theorem fresh_compensateSteps (n : Nat) (p : Process Runtime Effect) (hs : Fresh prog p.sent)
    (h : Remembered prog n p.state) :
    (compensateSteps prog (range n).reverse).Ends p (fun q => Fresh prog q.sent) (fun _ _ => False)
      fun _ q => Fresh prog q.sent := by
  induction n generalizing p with
  | zero => exact hs
  | succ n ih =>
    rw [compensateSteps_succ, ends_bind]
    rcases marks_cases n with hall | ⟨m, hm, hn⟩
    · rw [ends_compensateStep_of_mem hall]
      refine ih p hs ?_
      cases hm : p.state.marks with
      | none => exact fun m' hm' => by simp [hm] at hm'
      | some m => exact (remembered_of_mem hm (hall m hm)).mp h
    · have hfresh := fresh_attempted hm hn h hs
      refine ends_mono (ends_compensateStep n hm hn) (fun q hq => hq.1 ▸ hfresh)
        (fun _ _ hq => hq) ?_
      rintro _ q ⟨hq, _⟩
      exact ih q (hq.sent ▸ hfresh) ((remembered_compensated hm hq hfresh).mp h)

/-- A call that is not killed and ran nothing recorded had everything recorded remembered. -/
theorem remembered_of_fresh (prog : Program) (n : Nat) (p : Process Runtime Effect)
    (hw : p.writes = none) :
    (compensateSteps prog (range n).reverse).Ends p (fun _ => False) (fun _ _ => False)
      fun _ q => Fresh prog q.sent → Fresh prog p.sent ∧ Remembered prog n p.state := by
  induction n generalizing p with
  | zero => exact fun hs => ⟨hs, fun m hm idx hidx => absurd hidx (Nat.not_lt_zero idx)⟩
  | succ n ih =>
    rw [compensateSteps_succ, ends_bind]
    rcases marks_cases n with hall | ⟨m, hm, hn⟩
    · rw [ends_compensateStep_of_mem hall]
      refine ends_imp (ih p hw) fun _ q hq hs => ?_
      obtain ⟨hsent, h⟩ := hq hs
      refine ⟨hsent, ?_⟩
      cases hm : p.state.marks with
      | none => exact fun m' hm' => by simp [hm] at hm'
      | some m => exact (remembered_of_mem hm (hall m hm)).mpr h
    · refine ends_mono (ends_compensateStep n hm hn) (fun q hq => hq.2 hw) (fun _ _ hq => hq) ?_
      rintro _ q ⟨hq, hwrites⟩
      refine ends_imp (ih q (hwrites hw)) fun _ r hr hs => ?_
      obtain ⟨hsent, h⟩ := hr hs
      have hfresh : Fresh prog (attempted prog n p) := hq.sent ▸ hsent
      refine ⟨fun e he => hfresh e ?_, (remembered_compensated hm hq hfresh).mpr h⟩
      unfold attempted
      split_ifs with hc
      · exact mem_cons_of_mem _ he
      · exact he

/-- The compensations of a call, the last one first. -/
def compensations (prog : Program) (rt : Runtime) (writes : Option Nat) : List Effect :=
  ((runSagaCompensation prog).exec ⟨rt, [], writes⟩).2.sent

theorem exec_runSagaCompensation :
    (runSagaCompensation prog).exec p =
    (compensateSteps prog (range p.state.stepIndex).reverse).exec p :=
  exec_read_bind _ p

theorem fresh_compensations_iff (rt : Runtime) :
    (∀ writes, Fresh prog (compensations prog rt writes)) ↔ Remembered prog rt.stepIndex rt := by
  have hnil : Fresh prog [] := fun e he => by cases he
  constructor
  · intro h
    have hends := remembered_of_fresh prog rt.stepIndex ⟨rt, [], none⟩ rfl
    have hfresh := h none
    unfold compensations at hfresh
    rw [exec_runSagaCompensation] at hfresh
    unfold Handler.Ends at hends
    revert hends hfresh
    rcases (compensateSteps prog (range rt.stepIndex).reverse).exec ⟨rt, [], none⟩ with
      ⟨(_ | e) | u, q⟩
    · exact fun hends => hends.elim
    · exact fun hends => hends.elim
    · exact fun hends hfresh => (hends hfresh).2
  · intro h writes
    unfold compensations
    rw [exec_runSagaCompensation, ← ends_all (K := fun q => Fresh prog q.sent)]
    exact ends_mono (fresh_compensateSteps rt.stepIndex ⟨rt, [], writes⟩ hnil h) (fun _ hq => hq)
      (fun _ _ hq => hq.elim) fun _ _ hq => hq

/-- The compensations of a call run from the last step down. -/
theorem compensations_descending (rt : Runtime) (writes : Option Nat) :
    ((compensations prog rt writes).map Effect.behaviorIdx).Pairwise (· < ·) := by
  -- On the index the loop has come down to: what has been sent has a larger one.
  suffices h : ∀ n (p : Process Runtime Effect), (∀ e ∈ p.sent, n ≤ e.behaviorIdx) →
      (p.sent.map Effect.behaviorIdx).Pairwise (· < ·) →
      (compensateSteps prog (range n).reverse).Ends p
      (fun q => (q.sent.map Effect.behaviorIdx).Pairwise (· < ·))
        (fun _ q => (q.sent.map Effect.behaviorIdx).Pairwise (· < ·))
        fun _ q => (q.sent.map Effect.behaviorIdx).Pairwise (· < ·) by
    unfold compensations
    rw [exec_runSagaCompensation]
    exact ends_all.mp (h rt.stepIndex ⟨rt, [], writes⟩ (fun e he => by cases he) List.Pairwise.nil)
  intro n
  induction n with
  | zero => exact fun p _ hp => hp
  | succ n ih =>
    intro p hle hp
    rw [compensateSteps_succ, ends_bind]
    have hle' : ∀ e ∈ attempted prog n p, n ≤ e.behaviorIdx := by
      unfold attempted
      split_ifs with hc
      · exact forall_mem_cons.mpr ⟨Nat.le_refl n, fun e he => Nat.le_of_succ_le (hle e he)⟩
      · exact fun e he => Nat.le_of_succ_le (hle e he)
    have hp' : ((attempted prog n p).map Effect.behaviorIdx).Pairwise (· < ·) := by
      unfold attempted
      split_ifs with hc
      · refine pairwise_cons.mpr ⟨fun i hi => ?_, hp⟩
        obtain ⟨e, he, rfl⟩ := mem_map.mp hi
        exact hle e he
      · exact hp
    rcases marks_cases n with hall | ⟨m, hm, hn⟩
    · rw [ends_compensateStep_of_mem hall]
      exact ih p (fun e he => Nat.le_of_succ_le (hle e he)) hp
    · refine ends_mono (ends_compensateStep n hm hn) (fun q hq => hq.1 ▸ hp')
        (fun _ _ hq => hq.elim) ?_
      rintro _ q ⟨hq, _⟩
      exact ih q (hq.sent ▸ hle') (hq.sent ▸ hp')

/-! ## Operations -/

/-- Every recorded step is marked. -/
def Runtime.Marked (rt : Runtime) : Prop := ∀ m ∈ rt.marks, ∀ name ∈ rt.store.compensated, name ∈ m

/-- Nothing is forgotten, and nothing recorded was run; `w` are the writes the process had at
first. -/
structure Sound (prog : Program) (w : Option Nat) (p : Process Runtime Effect) : Prop where
  marked : p.state.Marked
  fresh : Fresh prog p.sent
  lasting : w = none → p.writes = none

theorem Calm.marked (h : Calm p q) (hp : p.state.Marked) : q.state.Marked := by
  unfold Marked
  rw [h.marks, h.recorded]
  exact hp

theorem Calm.sound {w : Option Nat} (h : Onward Calm p q) (hp : Sound prog w p) : Sound prog w q :=
  ⟨h.1.marked hp.marked, h.1.sent ▸ hp.fresh, fun hw => h.2 (hp.lasting hw)⟩

/-- A process that is killed was going to be. -/
theorem Calm.killed {w : Option Nat} (h : Calm p q ∧ p.writes ≠ none) (hp : Sound prog w p) :
    Fresh prog q.sent ∧ w ≠ none :=
  ⟨h.1.sent ▸ hp.fresh, fun hw => h.2 (hp.lasting hw)⟩

theorem Compensated.marked {idx : Nat} (h : Compensated prog idx p q) (hp : p.state.Marked) :
    q.state.Marked := by
  intro m' hm' name hname
  rcases h.outcome with ⟨hrec, hmarks⟩ | ⟨_, hrec, hmarks⟩
  · rw [hmarks] at hm'
    obtain ⟨m, hm, rfl⟩ := Option.map_eq_some_iff.mp hm'
    rw [hrec] at hname
    rcases mem_append.mp hname with hold | hnew
    · exact mem_append_left _ (hp m hm name hold)
    · exact mem_append_right _ hnew
  · rw [hrec] at hname
    exact hp m' (hmarks ▸ hm') name hname

theorem Runtime.Marked.remembered (h : rt.Marked) (prog : Program) (n : Nat) :
    Remembered prog n rt :=
  fun m hm _ _ _ hrec => .inl (h m hm _ hrec)

/-- A routine that runs nothing recorded, and forgets nothing unless it is killed. -/
def Saves {α : Type} (prog : Program) (x : Routine α) : Prop :=
  ∀ w p, Sound prog w p →
    x.Ends p (fun q => Fresh prog q.sent ∧ w ≠ none) (fun _ => Sound prog w) (fun _ => Sound prog w)

section Saves

variable {α β : Type}

theorem Saves.calm {x : Routine α} (h : x.Steady Calm True) : Saves prog x := fun _ p hp =>
  ends_mono (h p) (fun _ hq => Calm.killed hq hp) (fun _ _ hq => Calm.sound hq.2 hp) fun _ _ hq =>
    Calm.sound hq hp

theorem Saves.bind {x : Routine β} {f : β → Routine α} (hx : Saves prog x)
    (hf : ∀ b, Saves prog (f b)) :
    Saves prog (x >>= f) := by
  intro w p hp
  rw [ends_bind]
  exact ends_imp (hx w p hp) fun b q hq => hf b w q hq

theorem Saves.read {f : Runtime → Routine α} (h : ∀ rt, Saves prog (f rt)) :
    Saves prog (Handler.read >>= f) := by
  intro w p hp
  exact h p.state w p hp

theorem Saves.when {c : Prop} [Decidable c] {x : Routine Unit} (h : Saves prog x) :
    Saves prog (Handler.when c x) := by
  intro w p hp
  rw [ends_when]
  split_ifs with hc
  · exact h w p hp
  · exact hp

theorem Saves.memory {f : Actor → Actor} (hf : ∀ a, (f a).compensatedSteps = a.compensatedSteps) :
    Saves prog (Handler.remember (modifyActor f)) :=
  Saves.calm (calm_memory hf)

theorem Saves.store {f : MemoryStore → MemoryStore} (hf : ∀ s, (f s).compensated = s.compensated) :
    Saves prog (Handler.write (modifyStore f)) :=
  Saves.calm (calm_store hf)

theorem saves_checkpoint : Saves prog (tryCheckpointActor prog) := Saves.calm (calm_checkpoint prog)

theorem saves_appendCheckpointed {event : Nat → WorkflowEvent}
    (he : ∀ n, (event n).compensated? = none) :
    Saves prog (appendCheckpointed prog event) :=
  Saves.calm (calm_appendCheckpointed prog he)

theorem saves_body (b : Body) : Saves prog (b.run prog) := Saves.calm (calm_body prog b)

theorem saves_compensateSteps (n : Nat) : Saves prog (compensateSteps prog (range n).reverse) := by
  induction n with
  | zero => exact fun _ _ hp => hp
  | succ n ih =>
    rw [compensateSteps_succ]
    refine Saves.bind (fun w p hp => ?_) fun _ => ih
    rcases marks_cases n with hall | ⟨m, hm, hn⟩
    · rw [ends_compensateStep_of_mem hall]
      exact hp
    · have hfresh := fresh_attempted hm hn (hp.marked.remembered prog (n + 1)) hp.fresh
      refine ends_mono (ends_compensateStep n hm hn) ?_ (fun _ _ hq => hq.elim) ?_
      · rintro q ⟨hq, hw⟩
        exact ⟨hq ▸ hfresh, fun hnone => hw (hp.lasting hnone)⟩
      · rintro _ q ⟨hq, hw⟩
        exact ⟨hq.marked hp.marked, hq.sent ▸ hfresh, fun hnone => hw (hp.lasting hnone)⟩

theorem saves_runSagaCompensation : Saves prog (runSagaCompensation prog) :=
  Saves.read fun rt => saves_compensateSteps rt.stepIndex

theorem saves_resume : Saves prog (resumeSuspendedWorkflowStep prog) := by
  refine Saves.read fun rt => ?_
  cases rt.actor.bind suspendedExecution with
  | none => exact fun _ _ hp => hp
  | some s =>
    refine Saves.bind (Saves.memory fun a => ?_) fun _ => (saves_body s.rest).bind fun outcome => ?_
    · cases s.activation with
      | none => rfl
      | some activation => exact compensatedSteps_alignReplay _ activation
    · refine Saves.bind (Saves.memory fun _ => rfl) fun _ => ?_
      cases outcome with
      | completed =>
        refine Saves.when (Saves.bind (Saves.memory fun _ => rfl) fun _ => ?_)
        exact saves_appendCheckpointed fun _ => rfl
      | suspended signal rest => exact Saves.memory fun _ => rfl
      | failed e => exact Saves.when saves_runSagaCompensation

theorem saves_signalWorkflow (name : String) (payload : Option String) :
    Saves prog (signalWorkflow prog name payload) := by
  refine (saves_appendCheckpointed fun _ => rfl).bind fun _ => ?_
  exact Saves.bind (Saves.memory fun _ => rfl) fun _ => Saves.read fun rt => Saves.when saves_resume

variable (msg : Message)

theorem saves_admitCommand : Saves prog (admitCommand prog msg) := by
  refine Saves.read fun rt => ?_
  refine Saves.bind (Saves.store fun _ => rfl) fun _ => ?_
  split_ifs with hw
  · exact Saves.bind (Saves.memory fun _ => rfl) fun _ _ _ hp => hp
  · exact fun _ _ hp => hp

theorem saves_compiledTurn (isParallel : Bool) (b : Body) :
    Saves prog (compiledTurn prog msg isParallel b) := by
  refine (saves_admitCommand msg).bind fun activation => (saves_body b).bind fun outcome => ?_
  refine Saves.bind ?_ fun _ => Saves.memory fun _ => rfl
  cases outcome with
  | completed =>
    refine saves_checkpoint.bind fun _ => Saves.when ?_
    refine Saves.bind (Saves.when (Saves.memory fun _ => rfl)) fun _ => ?_
    exact saves_appendCheckpointed fun _ => rfl
  | suspended signal rest =>
    refine (Saves.calm (calm_suspend _ _ signal rest)).bind fun _ => ?_
    exact Saves.calm (calm_suspensionMarker)
  | failed e =>
    refine saves_checkpoint.bind fun _ => Saves.when (Saves.read fun rt => ?_)
    refine (Saves.calm (calm_append rfl)).bind fun _ => ?_
    exact saves_runSagaCompensation

theorem saves_finishTurn : Saves prog finishTurn := Saves.memory fun _ => rfl

theorem saves_timerFiredTurn : Saves prog (timerFiredTurn prog msg) :=
  (saves_admitCommand msg).bind fun _ => Saves.bind (Saves.memory fun _ => rfl) fun _ =>
    saves_checkpoint.bind fun _ => Saves.memory fun _ => rfl

theorem saves_nativeTurn (handler : List Value → Fields → Fields) :
    Saves prog (nativeTurn prog msg handler) :=
  (saves_admitCommand msg).bind fun _ => Saves.bind (Saves.memory fun _ => rfl) fun _ =>
    saves_checkpoint.bind fun _ => Saves.memory fun _ => rfl

theorem saves_scheduleTimer (name : String) (durationMs : Nat) :
    Saves prog (scheduleWorkflowTimer prog name durationMs) :=
  Saves.calm (calm_scheduleTimer prog name durationMs)

theorem saves_tickTimer (i : Nat) : Saves prog (tickTimer prog i) := by
  refine Saves.read fun rt => ?_
  cases rt.timers[i]? with
  | none => exact fun _ _ hp => hp
  | some t =>
    refine Saves.bind (fun w p hp => ⟨hp.marked, hp.fresh, hp.lasting⟩) fun _ => ?_
    exact (saves_appendCheckpointed fun _ => rfl).bind fun _ => Saves.memory fun _ => rfl

end Saves

/-- Every recorded step has a record above the snapshot. -/
def MemoryStore.Replayed (s : MemoryStore) : Prop :=
  ∀ name ∈ s.compensated, ∃ e ∈ s.workflowEvents, e.compensated? = some name ∧
    s.snapshotSequence < e.sequence

theorem mem_compensatedSteps_replay (events : List WorkflowEvent) (a : Actor) (name : String) :
    name ∈ (events.foldl replay a).compensatedSteps ↔
      name ∈ a.compensatedSteps ∨ ∃ e ∈ events, e.compensated? = some name := by
  induction events generalizing a with
  | nil => simp
  | cons e events ih =>
    have hstep : name ∈ (a.replay e).compensatedSteps ↔ name ∈ a.compensatedSteps ∨
        e.compensated? = some name := by
      cases e with
      | sagaCompensated q stepName =>
        simp only [replay, applyWorkflowEvent, WorkflowEvent.compensated?, Option.some.injEq]
        split_ifs with hmem
        · constructor
          · exact .inl
          · rintro (h | rfl)
            · exact h
            · exact hmem
        · rw [mem_append, mem_singleton, eq_comm]
      | workflowStarted q =>
        simp only [replay, applyWorkflowEvent, WorkflowEvent.compensated?, reduceCtorEq, or_false]
        split_ifs with h
        · rfl
        · rfl
      | _ => simp [replay, applyWorkflowEvent, WorkflowEvent.compensated?, setField, advance]
    rw [foldl_cons, ih, hstep]
    simp [or_assoc]

theorem compensatedSteps_redrive (a : Actor) :
    (a.redrive prog).compensatedSteps = a.compensatedSteps := by
  unfold redrive
  dsimp only
  split_ifs with h
  · rfl
  · rfl

theorem compensatedSteps_reopen {a b : Actor} {t : TailReading} (h : a.reopen t = some b) :
    b.compensatedSteps = a.compensatedSteps := by
  cases t with
  | refused => cases h
  | settled | pending =>
    cases h
    rfl

/-- A recovery marks every recorded step exactly if each has a record above the snapshot. -/
theorem marked_recoverWorkflow {rt' : Runtime} (h : recoverWorkflow prog rt = some rt') :
    rt'.Marked ↔ rt.store.Replayed := by
  obtain ⟨snapshot, a, hs, hr, rfl⟩ := of_recoverWorkflow h
  have ha : a.compensatedSteps = [] := compensatedSteps_reopen hr
  have hq : rt.store.snapshotSequence = snapshot.sequence := by simp [snapshotSequence, hs]
  simp only [Marked, marks, Option.map_some, Option.mem_some_iff, forall_eq',
    compensatedSteps_redrive, mem_compensatedSteps_replay, ha, not_mem_nil, false_or, mem_filter,
    decide_eq_true_eq, Replayed, hq]
  refine forall_congr' fun name => imp_congr_right fun _ => exists_congr fun e => ?_
  rw [and_assoc, and_comm (a := snapshot.sequence < e.sequence)]

section Native

/-- The records that matter to compensation, and the snapshot, are as they were. -/
structure Aligned (s t : MemoryStore) : Prop where
  events : t.workflowEvents = s.workflowEvents
  snapshot : t.snapshotSequence = s.snapshotSequence

theorem Aligned.replayed {s t : MemoryStore} (h : Aligned s t) (hs : s.Replayed) : t.Replayed := by
  unfold Replayed compensated
  rw [h.events, h.snapshot]
  exact hs

theorem ends_commitTransition {t : DurableTransition} (hn : Numbered p.state.store t)
    (ht : ∀ e ∈ t.workflowEvents, e.compensated? = none) :
    (commitTransition t).Ends p (fun q => Calm p q ∧ p.writes ≠ none) (fun _ => Eq p) fun _ q =>
      Onward Calm p q ∧ q.state.store = p.state.store.install t := by
  unfold commitTransition
  rw [ends_bind, ends_read]
  cases hc : p.state.store.commitTransition t with
  | error e => exact rfl
  | ok s =>
    rw [ends_write]
    have hs :=
      (commitTransition_ok (Nat.lt_of_lt_of_eq (Nat.lt_succ_self _) hn.transition.symm) hc).1
    split_ifs with hw
    · exact ⟨Std.Refl.refl p, by simp [hw]⟩
    · refine ⟨⟨⟨rfl, ?_, rfl⟩, fun hnone => by simp [hnone]⟩, hs⟩
      rw [hs]
      show (p.state.store.workflowEvents ++ t.workflowEvents).filterMap _ = _
      rw [filterMap_append, (filterMap_eq_nil_iff).mpr ht, append_nil]
      rfl

theorem ends_admitOrResume (msg : Message) :
    (admitOrResume msg).Ends p (fun q => Calm p q ∧ p.writes ≠ none)
    (fun _ => Onward Calm p) fun _ q =>
      Onward Calm p q ∧ Aligned p.state.store q.state.store := by
  have hrefl : Onward Calm p p := Std.Refl.refl p
  unfold admitOrResume
  rw [ends_bind, ends_read]
  split
  · exact ⟨hrefl, rfl, rfl⟩
  · unfold commitWorkflowCommand
    rw [ends_bind, ends_read, ends_bind]
    cases ha : p.state.actor with
    | none => exact hrefl
    | some a =>
      rw [ends_expect_some, ends_bind]
      have hevents : ∀ e ∈ (commandTransition p.state a msg.behaviorId msg.payload).workflowEvents,
          e.compensated? = none := fun e he => by cases he
      refine ends_mono (ends_commitTransition (numbered_command ..) hevents) (fun q hq => hq)
        (fun _ q hq => hq ▸ hrefl) ?_
      rintro _ q ⟨hcalm, hstore⟩
      refine ⟨⟨IsTrans.trans p q _ hcalm.1 (calm_changed fun _ => rfl), hcalm.2⟩, ?_⟩
      show Aligned p.state.store q.state.store
      rw [hstore]
      exact ⟨append_nil _, rfl⟩

/-- A native turn whose terminal transition is refused has written nothing that recovery replays. -/
theorem ends_nativeTransitions (msg : Message) (handler : List Value → Fields → Fields) :
    (nativeTransitions prog msg handler).Ends p (fun q => Calm p q ∧ p.writes ≠ none)
    (fun _ => Onward Calm p)
      fun committed q =>
        Onward Calm p q ∧ (committed = false → Aligned p.state.store q.state.store) := by
  unfold nativeTransitions
  rw [ends_bind]
  refine ends_imp (ends_admitOrResume msg) ?_
  rintro activation q ⟨hcalm, haligned⟩
  rw [ends_bind, ends_remember, ends_attempt]
  have hcalm' (f : Fields → Fields) : Onward Calm p
      (q.changed (modifyActor fun a => { a with stateData := f a.stateData })) :=
    ⟨IsTrans.trans p q _ hcalm.1 (calm_changed fun _ => rfl), hcalm.2⟩
  unfold commitStepCompleted
  rw [ends_bind, ends_read, ends_bind]
  cases ha : (q.changed (modifyActor fun a =>
      { a with stateData := handler msg.payload a.stateData })).state.actor with
  | none => exact ⟨hcalm' _, fun _ => haligned⟩
  | some a =>
    rw [ends_expect_some, ends_bind]
    refine ends_mono (ends_commitTransition (numbered_step ..) ?_) ?_ ?_ ?_
    · intro e he
      rw [mem_singleton.mp he]
      rfl
    · rintro r ⟨hr, hw⟩
      exact ⟨IsTrans.trans p _ r (hcalm' _).1 hr, fun hp => hw (hcalm.2 hp)⟩
    · rintro _ r rfl
      exact ⟨hcalm' _, fun _ => haligned⟩
    · rintro _ r ⟨hr, _⟩
      refine ⟨⟨?_, fun hp => hr.2 (hcalm.2 hp)⟩, fun h => by cases h⟩
      exact IsTrans.trans p _ _ (IsTrans.trans p _ r (hcalm' _).1 hr.1) (calm_changed fun _ => rfl)

end Native

/-! ## Turns and runs -/

def Runtime.popped (rt : Runtime) : Runtime :=
  rt.modifyActor fun a => { a with mailbox := a.mailbox.tail }

/-- The next turn is native and its terminal transition will be refused, so that the actor is
rebuilt. -/
def Rebuilds (prog : Program) (rt : Runtime) : Prop :=
  ∃ msg step handler, rt.actor.bind receive = some msg ∧ prog.steps[msg.behaviorId]? = some step ∧
    step.code = .native handler ∧ prog.isWorkflow = true ∧
    ((nativeTransitions prog msg handler).exec ⟨rt.popped, [], none⟩).1 = .ok false

section Turns

variable {w : Option Nat}

theorem ends_nativeWorkflowTurn (hp : Sound prog w p) (msg : Message)
    (handler : List Value → Fields → Fields) :
    (nativeWorkflowTurn prog msg handler).Ends p (fun q => Fresh prog q.sent ∧ w ≠ none)
    (fun _ => Sound prog w)
      fun _ q => Fresh prog q.sent ∧
        ((((nativeTransitions prog msg handler).exec p).1 = .ok false → p.state.store.Replayed) →
          q.state.Marked) := by
  unfold nativeWorkflowTurn
  rw [ends_bind]
  have hends : (nativeTransitions prog msg handler).Ends p _ _ _ :=
    ends_nativeTransitions msg handler
  revert hends
  unfold Handler.Ends
  rcases (nativeTransitions prog msg handler).exec p with ⟨(_ | e) | committed, q⟩
  · exact fun hcalm => Calm.killed hcalm hp
  · exact fun hcalm => Calm.sound hcalm hp
  · rintro ⟨hcalm, haligned⟩
    have hq := Calm.sound hcalm hp
    cases committed with
    | true => exact ⟨hq.fresh, fun _ => Calm.marked (calm_changed fun _ => rfl) hq.marked⟩
    | false =>
      refine ⟨hq.fresh, fun hr => ?_⟩
      show Marked
        ((recoverWorkflow prog { q.state with actor := none }).getD { q.state with actor := none })
      cases hrec : recoverWorkflow prog { q.state with actor := none } with
      | none => exact fun m hm => by cases hm
      | some rt' => exact (marked_recoverWorkflow hrec).mpr ((haligned rfl).replayed (hr rfl))

/-- The routine runs nothing recorded, and forgets nothing if it is not killed and `kept` holds. -/
def SavesIf (prog : Program) (w : Option Nat) (x : Routine Unit) (p : Process Runtime Effect)
    (kept : Prop) : Prop :=
  x.Ends p (fun q => Fresh prog q.sent ∧ w ≠ none) (fun _ => Sound prog w) fun _ q =>
    Fresh prog q.sent ∧ (w = none → kept → q.state.Marked)

theorem Saves.savesIf {x : Routine Unit} {kept : Prop} (hx : Saves prog x) (hp : Sound prog w p) :
    SavesIf prog w x p kept :=
  ends_imp (hx w p hp) fun _ _ hr => ⟨hr.fresh, fun _ _ => hr.marked⟩

theorem Sound.start {rt : Runtime} (hm : rt.Marked) : Sound prog w ⟨rt, [], w⟩ :=
  ⟨hm, fun e he => (by cases he), id⟩

theorem ends_stepActor {rt : Runtime} (hm : rt.Marked) :
    SavesIf prog w (stepActor prog) ⟨rt, [], w⟩ (Rebuilds prog rt → rt.store.Replayed) := by
  have hsound : Sound prog w ⟨rt, [], w⟩ := .start hm
  unfold SavesIf stepActor
  rw [ends_bind, ends_read]
  cases hmsg : rt.actor.bind receive with
  | none => exact ⟨hsound.fresh, fun _ _ => hm⟩
  | some msg =>
    rw [ends_bind, ends_remember]
    have hcalm : Calm (⟨rt, [], w⟩ : Process Runtime Effect) ⟨rt.popped, [], w⟩ :=
      calm_changed (f := fun a => { a with mailbox := a.mailbox.tail }) fun _ => rfl
    have hpopped : Sound prog w ⟨rt.popped, [], w⟩ := Calm.sound ⟨hcalm, id⟩ hsound
    unfold dispatch
    cases hstep : prog.steps[msg.behaviorId]? with
    | none =>
      dsimp only
      split_ifs with hi
      · exact (saves_timerFiredTurn msg).savesIf hpopped
      · exact saves_finishTurn.savesIf hpopped
    | some step =>
      dsimp only
      cases hcode : step.code with
      | sequential body => exact (saves_compiledTurn msg false _).savesIf hpopped
      | parallel branches => exact (saves_compiledTurn msg true _).savesIf hpopped
      | native handler =>
        split_ifs with hw
        · refine ends_imp (ends_nativeWorkflowTurn hpopped msg handler) ?_
          rintro _ q ⟨hfresh, hmarked⟩
          refine ⟨hfresh, fun hnone hr => hmarked fun hfalse => ?_⟩
          subst hnone
          exact hr ⟨msg, step, handler, hmsg, hstep, hcode, hw, hfalse⟩
        · exact (saves_nativeTurn msg handler).savesIf hpopped

/-- From a runtime that has forgotten nothing, no operation runs anything recorded, wherever it is
cut, and nothing is forgotten unless a turn rebuilds the actor. -/
theorem ends_op {rt : Runtime} (hm : rt.Marked) (op : Op) :
    SavesIf prog w (op.routine prog) ⟨rt, [], w⟩ (op = .turn → Rebuilds prog rt →
      rt.store.Replayed) := by
  cases op with
  | turn =>
    refine ends_imp (ends_stepActor hm) ?_
    rintro _ q ⟨hfresh, hmarked⟩
    exact ⟨hfresh, fun hnone hr => hmarked hnone (hr rfl)⟩
  | send msg =>
    exact Saves.savesIf (Saves.memory fun _ => rfl : Saves prog (deliver msg)) (.start hm)
  | signal name payload => exact (saves_signalWorkflow name payload).savesIf (.start hm)
  | checkpoint => exact saves_checkpoint.savesIf (.start hm)
  | setTimer name durationMs => exact (saves_scheduleTimer name durationMs).savesIf (.start hm)
  | fireTimer i => exact (saves_tickTimer i).savesIf (.start hm)

end Turns

/-- The runs of a workflow in which every recovery finds a record above the snapshot for every
recorded step. -/
inductive Remembers (prog : Program) : Runtime → Prop where
  | spawn (f : Fields) : Remembers prog (spawnWorkflow prog f)
  | perform {rt : Runtime} (h : Remembers prog rt) (op : Op)
      (hr : op = .turn → Rebuilds prog rt → rt.store.Replayed) :
      Remembers prog (rt.after (op.routine prog) none)
  | recover {rt rt' : Runtime} (h : Remembers prog rt) (op : Op) (k : Nat)
      (hs : (rt.after (op.routine prog) (some k)).store.Replayed)
      (hr : recoverWorkflow prog (rt.after (op.routine prog) (some k)).crash = some rt') :
      Remembers prog rt'

theorem Remembers.marked (h : Remembers prog rt) : rt.Marked := by
  induction h with
  | spawn f => exact fun m hm name hn => by cases hn
  | perform h op hr ih =>
    unfold Runtime.after
    rw [← ends_all (K := fun q => Marked q.state)]
    exact ends_mono (ends_op ih op) (fun _ hq => absurd rfl hq.2) (fun _ _ hq => hq.marked)
      fun _ _ hq => hq.2 rfl hr
  | recover h op k hs hr ih => exact (marked_recoverWorkflow hr).mpr hs

/-- A call of `run_saga_compensation` goes down the steps, and it runs no recorded compensation
exactly if every recorded step it can reach is remembered. In a run whose recoveries forget nothing,
nothing recorded is ever run. -/
theorem compensates_once (prog : Program) :
    (∀ rt writes, ((compensations prog rt writes).map Effect.behaviorIdx).Pairwise (· < ·)) ∧
      (∀ rt, (∀ writes, Fresh prog (compensations prog rt writes)) ↔
        Remembered prog rt.stepIndex rt) ∧
      ∀ rt, Remembers prog rt → ∀ (op : Op) writes,
        Fresh prog ((op.routine prog).exec ⟨rt, [], writes⟩).2.sent := by
  refine ⟨compensations_descending, fresh_compensations_iff, fun rt h op writes => ?_⟩
  rw [← ends_all (K := fun q => Fresh prog q.sent)]
  exact ends_mono (ends_op h.marked op) (fun _ hq => hq.1) (fun _ _ hq => hq.fresh)
    fun _ _ hq => hq.1

/-- Book, then pay; the booking can be taken back, and the payment fails. -/
def bookingSaga : Program where
  isWorkflow := true
  models := [("step_index", .durable)]
  models_nodup := by decide
  defaults := []
  steps :=
    [⟨"book", .sequential fun _ => .observe fun f =>
        .assign "step_index" (.int ((f.int? "step_index").getD 0 + 1)) .finish, some .finish⟩,
      ⟨"pay", .sequential fun _ => .fail "declined", none⟩]

def Runtime.turned (rt : Runtime) (prog : Program) (msg : Message) : Runtime :=
  (rt.after (deliver msg) none).after (stepActor prog) none

def booked : Runtime :=
  (spawnWorkflow bookingSaga (Fields.empty.set "step_index" (.int 0))).turned bookingSaga ⟨0, []⟩

def takenBack : Runtime := booked.turned bookingSaga ⟨1, []⟩

theorem Remembers.turned {rt : Runtime} (h : Remembers bookingSaga rt) (msg : Message) :
    Remembers bookingSaga (rt.turned bookingSaga msg) := by
  refine .perform (.perform h (.send msg) fun he => by cases he) .turn fun _ hrebuilds => ?_
  -- no step of the program is native
  obtain ⟨m, step, handler, _, hstep, hcode, _⟩ := hrebuilds
  rcases List.mem_cons.mp (List.mem_of_getElem? hstep) with rfl | hstep
  · cases hcode
  · rw [List.mem_singleton.mp hstep] at hcode
    cases hcode

/-- What the payment sends when it is tried. -/
def paying (rt : Runtime) : List Effect :=
  ((stepActor bookingSaga).exec ⟨rt.after (deliver ⟨1, []⟩) none, [], none⟩).2.sent

/-- The payment fails, and the booking is taken back; when it fails again, the booking is left
alone. -/
theorem compensates_once_retried :
    paying booked = [.compensate 0 []] ∧ Fresh bookingSaga (paying booked) ∧
      takenBack.store.compensated = ["book"] ∧ Fresh bookingSaga (paying takenBack) := by
  have hbooked : Remembers bookingSaga booked := (Remembers.spawn _).turned _
  refine ⟨by decide +kernel, (compensates_once bookingSaga).2.2 _ ?_ .turn none, by decide +kernel,
    (compensates_once bookingSaga).2.2 _ ?_ .turn none⟩
  · exact hbooked.perform (.send ⟨1, []⟩) fun he => by cases he
  · exact (hbooked.turned _).perform (.send ⟨1, []⟩) fun he => by cases he

/-- After a crash the payment is tried again, and the booking is taken back a second time. -/
theorem taken_back_twice :
    takenBack.store.compensated = ["book"] ∧
      ∃ rt, recoverWorkflow bookingSaga takenBack.crash = some rt ∧
        ((stepActor bookingSaga).exec ⟨rt.after (deliver ⟨1, []⟩) none, [], none⟩).2.sent
          = [.compensate 0 ["book"]] :=
  ⟨by decide +kernel, _, rfl, by decide +kernel⟩

end Nulang.Persist

import Mathlib.Data.List.Nodup
import Nulang.Lib.Writes
import Nulang.ReplayIds

/-!
# Crashes inside a turn

A turn of a compiled step journals its command, runs the code, takes a checkpoint, records
`StepCompleted` and takes another checkpoint. A `parallel` block records and checkpoints each of its
branches on the way. A crash after any of these writes leaves a snapshot and the events above it,
and recovery replays the ones on top of the other.

`Body.writes` lists the writes of a body with the fields each of them saves, and `land` says which
fields a store holds after them. What recovery rebuilds is then compared with the fields before and
after the turn (`turn_recovers_iff`): a sequential step is advanced a second time by its own
`StepCompleted`, and a parallel step is caught between its branches and before its advance.
-/

set_option autoImplicit false

namespace Nulang.Persist

open Fields Runtime List Option Handler

def SameDurable (prog : Program) (f g : Fields) : Prop :=
  ∀ name, (name, StateModel.durable) ∈ prog.models → f name = g name

namespace SameDurable

variable {prog : Program} {f g h : Fields}

theorem refl (f : Fields) : SameDurable prog f f := fun _ _ => rfl

theorem symm (hf : SameDurable prog f g) : SameDurable prog g f := fun name hn => (hf name hn).symm

theorem trans (hf : SameDurable prog f g) (hg : SameDurable prog g h) : SameDurable prog f h :=
  fun name hn => (hf name hn).trans (hg name hn)

variable {x : String}

theorem update (hf : SameDurable prog f g) {f' g' : Fields} (hx : f x = g x → f' x = g' x)
    (hf' : ∀ name, name ≠ x → f' name = f name) (hg' : ∀ name, name ≠ x → g' name = g name) :
    SameDurable prog f' g' := by
  intro name hn
  by_cases h : name = x
  · subst h
    exact hx (hf name hn)
  · rw [hf' name h, hg' name h]
    exact hf name hn

theorem set (hf : SameDurable prog f g) (x : String) (v : Value) :
    SameDurable prog (f.set x v) (g.set x v) :=
  hf.update (fun _ => by rw [set_same, set_same]) (fun _ h => set_of_ne f v h)
    fun _ h => set_of_ne g v h

theorem int?_congr (h : f x = g x) : f.int? x = g.int? x := by
  unfold int?
  rw [h]

theorem bump (hf : SameDurable prog f g) (x : String) : SameDurable prog (f.bump x) (g.bump x) := by
  refine hf.update (x := x) (fun h => ?_) (fun _ h => bump_of_ne f h) fun _ h => bump_of_ne g h
  unfold Fields.bump
  rw [int?_congr h]
  cases g.int? x with
  | none => exact h
  | some n =>
    dsimp only
    rw [set_same, set_same]

end SameDurable

section Restore

variable {f : Fields} {name : String}

/-- The values a snapshot saves, and what they are restored to. -/
theorem restore_saved (models : List (String × StateModel)) (hnd : (models.map Prod.fst).Nodup)
    (base : Fields) (hm : (name, StateModel.durable) ∈ models) (hbase : base name = none) :
    (models.filterMap fun m => if m.2 = .durable then (f m.1).map (m.1, ·) else none).foldl
      (fun f s => f.set s.1 s.2) base name = f name := by
  -- Values of other names do not touch `name`, and no name is declared twice.
  have hkeep (l : List (String × StateModel)) (base : Fields) (hl : name ∉ l.map Prod.fst) :
      (l.filterMap fun m => if m.2 = .durable then (f m.1).map (m.1, ·) else none).foldl
        (fun f s => f.set s.1 s.2) base name = base name := by
    induction l generalizing base with
    | nil => rfl
    | cons m l ih =>
      rw [map_cons, mem_cons, not_or] at hl
      rw [filterMap_cons]
      split
      · exact ih base hl.2
      · rename_i s hs
        rw [foldl_cons, ih _ hl.2]
        have hname : s.1 = m.1 := by
          split_ifs at hs with hd
          obtain ⟨v, _, rfl⟩ := map_eq_some_iff.mp hs
          rfl
        exact set_of_ne base _ (hname ▸ hl.1)
  induction models generalizing base with
  | nil => cases hm
  | cons m models ih =>
    rw [map_cons, nodup_cons] at hnd
    rw [filterMap_cons]
    rcases mem_cons.mp hm with rfl | hm
    · cases hf : f name with
      | none =>
        simp only [if_true, map_none]
        rw [hkeep models base hnd.1, hbase]
      | some v =>
        simp only [if_true, map_some, foldl_cons]
        rw [hkeep models _ hnd.1, set_same]
    · have hne : name ≠ m.1 := fun h => hnd.1 (h ▸ List.mem_map_of_mem hm)
      split
      · exact ih hnd.2 base hm hbase
      · rename_i s hs
        have hname : s.1 = m.1 := by
          split_ifs at hs with hd
          obtain ⟨v, _, rfl⟩ := map_eq_some_iff.mp hs
          rfl
        rw [foldl_cons]
        refine ih hnd.2 _ hm ?_
        rw [set_of_ne base _ (hname ▸ hne), hbase]

/-- The declared values fill in nothing where every field declared with a value had one. -/
theorem restore_defaults (defaults : List (String × Value)) (saved : Fields)
    (hd : saved name = none → ∀ d ∈ defaults, d.1 ≠ name) :
    defaults.foldl (fun f d => if (f d.1).isSome then f else f.set d.1 d.2) saved name =
      saved name := by
  rw [foldl_default_apply]
  cases h : saved name with
  | some v => rfl
  | none => exact lookup_eq_none_iff.mpr fun d hmem => by simpa using (hd h d hmem).symm

end Restore

/-- A snapshot of an actor holds its durable fields. -/
theorem restoreFields_snapshotAt (prog : Program) (a : Actor) (n : Nat)
    (hd : ∀ d ∈ prog.defaults, (a.stateData d.1).isSome) :
    SameDurable prog (restoreFields prog (a.snapshotAt prog n) []) a.stateData := by
  intro name hm
  have hsaved : ((a.snapshotAt prog n).state.foldl (fun f s => f.set s.1 s.2) empty) name =
      a.stateData name :=
    restore_saved prog.models prog.models_nodup empty hm rfl
  unfold restoreFields
  rw [foldl_nil, restore_defaults, hsaved]
  intro hnone d hmem hname
  have hsome := hd d hmem
  rw [hname, ← hsaved, hnone] at hsome
  cases hsome

section Image

variable (prog : Program) {s : MemoryStore}

theorem image_appendEvent {e : WorkflowEvent} (hq : e.sequence = s.latestSequence + 1)
    (hs : ∃ snapshot, s.snapshot = some snapshot) :
    (s.appendWorkflowEvent e).image prog = e.onFields (s.image prog) := by
  obtain ⟨snapshot, hs⟩ := hs
  have hlt : snapshot.sequence < e.sequence := by
    have hle := MemoryStore.snapshotSequence_le s
    simp only [MemoryStore.snapshotSequence, hs, map_some, getD_some] at hle
    omega
  have habove : ([e].filter fun e => snapshot.sequence < e.sequence) = [e] := by simp [hlt]
  simp only [MemoryStore.image, MemoryStore.appendWorkflowEvent, hs, filter_append, habove,
    foldl_append,
    foldl_cons, foldl_nil]

theorem image_saveSnapshot {a : Actor} {n : Nat} (hb : s.Bounded) (hdomain : s.events = [])
    (hn : s.latestSequence ≤ n) (hd : ∀ d ∈ prog.defaults, (a.stateData d.1).isSome) :
    SameDurable prog ((s.saveSnapshot (a.snapshotAt prog n)).image prog) a.stateData := by
  have hnone :
      (s.workflowEvents.filter fun e => (a.snapshotAt prog n).sequence < e.sequence) = [] := by
    rw [filter_eq_nil_iff]
    intro e he hlt
    rw [decide_eq_true_eq] at hlt
    exact absurd (Nat.le_trans (hb e he) hn) (Nat.not_le_of_lt hlt)
  have himage : (s.saveSnapshot (a.snapshotAt prog n)).image prog
      = restoreFields prog (a.snapshotAt prog n) s.events := by
    simp only [MemoryStore.image, MemoryStore.saveSnapshot, hnone, foldl_nil]
  rw [himage, hdomain]
  exact restoreFields_snapshotAt prog a n hd

end Image

/-- A write, by what it does to the fields the store holds: nothing, the record of a branch or of a
step, or a checkpoint of these fields. -/
inductive Write where
  | event
  | record
  | completed
  | save (f : Fields)

/-- The fields a store holds after a write. -/
def Write.land (img : Fields) : Write → Fields
  | .event => img
  | .record => img.set "parallel_progress" (.int ((img.int? "parallel_progress").getD 0 + 1))
  | .completed => (img.bump "step_index").set "parallel_progress" (.int 0)
  | .save f => f

def land (img : Fields) (ws : List Write) : Fields := ws.foldl Write.land img

variable {prog : Program}

variable {f g before : Fields} {isParallel : Bool} {msg : Message}

theorem Write.land_congr (h : SameDurable prog f g) (w : Write) :
    SameDurable prog (w.land f) (w.land g) := by
  cases w with
  | event => exact h
  | record =>
    refine h.update (x := "parallel_progress") (fun hx => ?_) (fun _ hn => set_of_ne f _ hn)
      fun _ hn => set_of_ne g _ hn
    simp only [Write.land, set_same, SameDurable.int?_congr hx]
  | completed => exact (h.bump _).set _ _
  | save f => exact SameDurable.refl f

/-- The writes of a body that is run from these fields, and the fields it leaves if it comes to its
end. -/
def Body.writes (prog : Program) (ready : String → Bool) :
    Body → Fields → List Write × Option Fields
  | .finish, f => ([], some f)
  | .fail _, _ => ([], none)
  | .observe k, f => (k f).writes prog ready f
  | .assign x v k, f => k.writes prog ready (f.set x v)
  | .emit event args k, f =>
    let f := prog.eventSourced.foldl Fields.bump f
    if event = "ParallelBranchCompleted" ∧ args.length = 2 then
      let f := f.set "parallel_progress" (.int ((f.int? "parallel_progress").getD 0 + 1))
      let r := k.writes prog ready f
      (.record :: .save f :: r.1, r.2)
    else
      let r := k.writes prog ready f
      (.event :: r.1, r.2)
  | .timer _ _ k, f =>
    let r := k.writes prog ready f
    (.event :: r.1, r.2)
  | .wait signal k, f => if ready signal then k.writes prog ready f else ([], none)

/-- The fields after a turn whose body left these. -/
def turnFields (isParallel : Bool) (g : Fields) : Fields :=
  if isParallel then g.bump "step_index" else g

/-- The writes of a turn: the journal entry, those of its body, and the three that close it. -/
def turnWrites (isParallel : Bool) (ws : List Write) (g : Fields) : List Write :=
  .event :: (ws ++ [.save g, .completed, .save (turnFields isParallel g)])

/-- The store rebuilds these durable fields. -/
def Holds (prog : Program) (rt : Runtime) (img : Fields) : Prop :=
  SameDurable prog (rt.store.image prog) img

/-- A routine makes these writes, over a store that holds `img`, and the store then holds what they
leave. -/
def Makes {α : Type} (prog : Program) (x : Routine α) (p : Process Runtime Effect) (img : Fields)
    (ws : List Write) (Q : α → Process Runtime Effect → Prop) : Prop :=
  Handler.Makes (Holds prog) Write.land x p img ws Q

section Makes

variable {α β : Type} {p : Process Runtime Effect} {img : Fields}

variable {Q : α → Process Runtime Effect → Prop}

theorem makes_bind {x : Routine β} {f : β → Routine α} {w v : List Write}
    (hx : Makes prog x p img w fun b q => Makes prog (f b) q (land img w) v Q) :
    Makes prog (x >>= f) p img (w ++ v) Q := Makes.bind hx

theorem makes_remember {f : Runtime → Runtime} {Q : Unit → Process Runtime Effect → Prop}
    (himg : Holds prog p.state img) (hf : (f p.state).store = p.state.store)
    (hQ : Q () (p.changed f)) : Makes prog (remember f) p img [] Q := by
  refine Makes.remember ?_ hQ
  unfold Holds
  rw [hf]
  exact himg

theorem makes_single {x : Routine α} {o : Process Runtime Effect} {g : Runtime → Runtime} {r : α}
    {w : Write} (himg : Holds prog p.state img)
    (hends : ∀ (K : Process Runtime Effect → Prop) (E : IoError → Process Runtime Effect → Prop)
      (Q : α → Process Runtime Effect → Prop), x.Ends p K E Q ↔ if p.writes = some 0 then K o
      else Q r (p.wrote g))
    (ho : o.state.store = p.state.store)
    (hland : SameDurable prog ((g p.state).store.image prog) (w.land (p.state.store.image prog)))
    (hQ : Q r (p.wrote g)) : Makes prog x p img [w] Q := by
  refine Makes.single hends ?_ (hland.trans (w.land_congr himg)) hQ
  unfold Holds
  rw [ho]
  exact himg

end Makes

/-! ## Running a body -/

/-- The actor is running code under an activation of its own; `ready` are the signals it has
received. -/
structure Running (prog : Program) (activation : ActivationId) (ready : String → Bool) (a : Actor)
    (p : Process Runtime Effect) : Prop extends Opened activation a p where
  ready : ∀ name, a.signalReady name = ready name
  sturdy : Sturdy prog p.state

section Running

variable {activation : ActivationId} {ready : String → Bool} {a : Actor}
  {p : Process Runtime Effect}

section

variable (h : Running prog activation ready a p)
include h

theorem Running.signalReady (name : String) : p.state.signalReady name = ready name := by
  unfold Runtime.signalReady
  rw [h.actor]
  exact h.ready name

theorem Running.remember {f : Actor → Actor} (hf : ∀ b, Tame b (f b))
    (hr : (f a).workflowReplayActivation = a.workflowReplayActivation)
    (ho : (f a).workflowReplayEventOrdinal = a.workflowReplayEventOrdinal)
    (hs : (f a).receivedSignals = a.receivedSignals) :
    Running prog activation ready (f a) (p.changed (modifyActor f)) where
  toOpened := h.toOpened.remember (hf a) hr ho
  ready name := by
    rw [← h.ready name]
    unfold Actor.signalReady
    rw [hs]
  sturdy := h.sturdy.tame hf

theorem Running.checkpointed :
    Running prog activation ready { a with sequence := p.state.nextSequence }
      (p.wrote (checkpointed prog)) where
  toOpened := h.toOpened.checkpointed prog
  ready := h.ready
  sturdy := h.sturdy.checkpointed

end

variable {e : Nat → WorkflowEvent} {ws : List Write}

section

variable (h : Running prog activation ready a p)
include h

theorem Running.appended (hq : ∀ n, (e n).sequence = n) (hid : ∀ n, (e n).replayId = none) :
    Running prog activation ready a (p.wrote (appended e)) where
  toOpened := h.toOpened.appended hq hid
  ready := h.ready
  sturdy := h.sturdy.event (hq _) fun id hi => by simp [hid] at hi

theorem Running.identified {e : Nat → ReplayEventId → WorkflowEvent}
    (hq : ∀ n id, (e n id).sequence = n) (hid : ∀ n id, (e n id).replayId = some id) :
    Running prog activation ready (a.replayedNext activation)
      (p.wrote (Runtime.identified activation e)) := by
  have htame (b : Actor) :
      Tame b ((b.alignReplay activation).advanceReplay (a.nextReplayId activation)) :=
    (tame_alignReplay b activation).trans (tame_advanceReplay _ _)
  have hstate : (p.wrote (Runtime.identified activation e)).state = Runtime.modifyActor
      (fun b => (b.alignReplay activation).advanceReplay (a.nextReplayId activation))
      (p.state.modifyStore
        (·.appendWorkflowEvent (e p.state.nextSequence (a.nextReplayId activation)))) := by
    simp only [Process.state_wrote, Runtime.identified, h.actor, Runtime.modifyActor,
      modifyStore, map_some]
  refine ⟨h.toOpened.identified hq hid, fun name => ?_, ?_⟩
  · rw [← h.ready name]
    unfold Actor.signalReady Actor.replayedNext Actor.advanceReplay Actor.alignReplay
    split_ifs
    all_goals rfl
  · rw [hstate]
    refine (h.sturdy.event (hq _ _) fun id hi => ?_).tame htame
    rw [hid, mem_def, some.injEq] at hi
    exact ⟨a, h.actor, hi ▸ h.current⟩

theorem Running.armed (name : String) (durationMs : Nat) :
    Running prog activation ready a
      (p.changed fun rt => { rt with timers := rt.timers ++ [⟨name, durationMs⟩] }) where
  toOpened := h.toOpened.armed name durationMs
  ready := h.ready
  sturdy := ⟨⟨h.sturdy.tail, h.sturdy.snapshot, h.sturdy.epoch⟩,
    ⟨h.sturdy.admitted, h.sturdy.current, h.sturdy.suspended⟩, h.sturdy.domain, h.sturdy.bounded,
      h.sturdy.fields⟩

theorem Running.snapshot : ∃ snapshot, p.state.store.snapshot = some snapshot := by
  obtain ⟨snapshot, hs, _⟩ := h.sturdy.snapshot
  exact ⟨snapshot, hs⟩

end

variable {img : Fields}

variable {Q : Unit → Process Runtime Effect → Prop}

section

variable (h : Running prog activation ready a p)
include h

section

variable (himg : Holds prog p.state img)
include himg

theorem makes_checkpoint (hQ : Q () (p.wrote (checkpointed prog))) :
    Makes prog (tryCheckpointActor prog) p img [.save a.stateData] Q := by
  have hlive : p.state.actor.isSome := by simp [h.actor]
  refine makes_single (o := p) himg (fun K E Q => ends_checkpoint prog hlive) rfl ?_ hQ
  simp only [checkpointed, h.actor]
  exact image_saveSnapshot prog h.sturdy.bounded h.sturdy.domain (Nat.le_succ _)
    (h.sturdy.fields a h.actor)

theorem makes_append (hq : ∀ n, (e n).sequence = n) {w : Write}
    (hw : ∀ n f, (e n).onFields f = w.land f) (hQ : Q () (p.wrote (appended e))) :
    Makes prog (appendWorkflowEvent (e p.state.nextSequence)) p img [w] Q := by
  refine makes_single (o := p) (g := appended e) himg (fun K E Q => ends_write) rfl ?_ hQ
  have himage := image_appendEvent prog (e := e p.state.nextSequence) (hq _) h.snapshot
  rw [store_appended, himage, hw]
  exact SameDurable.refl _

omit himg in
/-- An identified event leaves the fields the store holds. -/
theorem image_identified {e : Nat → ReplayEventId → WorkflowEvent}
    (hq : ∀ n id, (e n id).sequence = n) (hw : ∀ n id f, (e n id).onFields f = f) :
    ((p.wrote (identified activation e)).state.store.image prog) = p.state.store.image prog := by
  have himage := image_appendEvent prog (e := e p.state.nextSequence (a.nextReplayId activation))
    (hq _ _) h.snapshot
  simp only [Process.state_wrote, identified, h.actor]
  rw [himage, hw]

theorem makes_emitCustom (event : String) (args : List Value)
    (hQ : Q () (p.wrote (identified activation fun n id => .custom n (some id) event args))) :
    Makes prog (emitCustom prog p.state.nextSequence event args) p img [.event] Q := by
  refine makes_single himg
    (fun K E Q => ends_emitCustom h.actor h.unreplayed h.current event args) rfl ?_ hQ
  have himage := image_identified h (e := fun n id => .custom n (some id) event args)
    (fun _ _ => rfl) fun _ _ _ => rfl
  rw [← himage]
  exact SameDurable.refl _

theorem makes_timer {Q : Bool → Process Runtime Effect → Prop} (name : String) (durationMs : Nat)
    (hQ : Q true
      ((p.wrote (identified activation fun n id => .timerSet n (some id) name durationMs)).changed
        fun rt => { rt with timers := rt.timers ++ [⟨name, durationMs⟩] })) :
    Makes prog (attempt (scheduleWorkflowTimer prog name durationMs)) p img [.event] Q := by
  refine makes_single (r := true) (o := p.changed (modifyActor fun b => b.alignReplay activation))
    (g := fun rt =>
      let rt := rt.identified activation fun n id => .timerSet n (some id) name durationMs
      { rt with timers := rt.timers ++ [⟨name, durationMs⟩] }) himg (fun K E Q => ?_) rfl ?_ hQ
  · rw [ends_attempt]
    unfold scheduleWorkflowTimer
    rw [ends_bind, ends_appendTimerSet h.actor h.unreplayed h.current, ends_when, if_pos rfl]
    exact Iff.rfl
  · have himage :=
      image_identified h (e := fun n id => .timerSet n (some id) name durationMs) (fun _ _ => rfl)
        fun _ _ _ => rfl
    rw [← himage]
    exact SameDurable.refl _

end

end

/-- An event is preceded by the change of the event-sourced fields. -/
theorem makes_emitEvent (hw : prog.isWorkflow = true)
    (himg : Holds prog p.state img) (event : String) (args : List Value)
    (hrest : ∀ q, q = p.changed (modifyActor fun a =>
        { a with stateData := prog.eventSourced.foldl Fields.bump a.stateData }) →
      Makes prog (if event = "ParallelBranchCompleted" ∧ args.length = 2 then
          emitBranchCompleted prog q.state.nextSequence args
        else emitCustom prog q.state.nextSequence event args) q img ws Q) :
    Makes prog (emitEvent prog event args) p img ws Q := by
  refine Makes.read ?_
  refine makes_bind (w := []) (makes_remember himg rfl ?_)
  rw [if_pos hw]
  exact hrest _ rfl

/-- The end of a branch is recorded, then checkpointed. -/
theorem makes_branch (h : Running prog activation ready a p) (himg : Holds prog p.state img)
    (args : List Value) :
    Makes prog (emitBranchCompleted prog p.state.nextSequence args) p img
      [.record,
        .save (a.stateData.set "parallel_progress"
          (.int ((a.stateData.int? "parallel_progress").getD 0 + 1)))]
      fun _ q =>
        ∃ c, Running prog activation ready c q ∧ c.stateData = a.stateData.set "parallel_progress"
        (.int ((a.stateData.int? "parallel_progress").getD 0 + 1)) := by
  have hrecorded := h.appended (e := fun n => .parallelBranchCompleted n
    (resolveStringConstant args[0]?) (resolveStringConstant args[1]?)) (fun _ => rfl) fun _ => rfl
  have hset := hrecorded.remember (f := fun a =>
    a.setField "parallel_progress" (.int ((a.stateData.int? "parallel_progress").getD 0 + 1)))
    (fun a => tame_setField a _ _) rfl rfl rfl
  refine makes_bind (w := [.record]) (makes_append h himg (e := fun n => .parallelBranchCompleted n
    (resolveStringConstant args[0]?) (resolveStringConstant args[1]?)) (fun _ => rfl)
    (fun _ _ => rfl) ?_)
  have himg' : SameDurable prog ((p.wrote (appended fun n => .parallelBranchCompleted n
      (resolveStringConstant args[0]?) (resolveStringConstant args[1]?))).state.store.image prog)
      (land img [.record]) := by
    have himage := image_appendEvent prog (e := .parallelBranchCompleted p.state.nextSequence
      (resolveStringConstant args[0]?) (resolveStringConstant args[1]?)) rfl h.snapshot
    rw [Process.state_wrote, store_appended, himage]
    exact Write.land_congr himg .record
  refine makes_bind (w := []) (makes_remember himg' rfl ?_)
  exact makes_checkpoint hset himg' ⟨_, hset.checkpointed, rfl⟩

theorem stateData_replayedNext : (a.replayedNext activation).stateData = a.stateData := by
  unfold Actor.replayedNext Actor.advanceReplay Actor.alignReplay
  split_ifs
  all_goals rfl

/-- A body that comes to its end makes its writes and leaves its fields. -/
theorem makes_body (hw : prog.isWorkflow = true) (b : Body) (h : Running prog activation ready a p)
    (himg : Holds prog p.state img) {g : Fields}
    (hb : b.writes prog ready a.stateData = (ws, some g)) :
    Makes prog (b.run prog) p img ws fun outcome q =>
      outcome = .completed ∧ ∃ c, Running prog activation ready c q ∧ c.stateData = g := by
  -- On the body, with the fields and the image the writes so far have left.
  induction b generalizing a p img ws with
  | finish =>
    cases hb
    exact Makes.pure himg ⟨rfl, a, h, rfl⟩
  | fail e => cases hb
  | observe k ih =>
    refine Makes.read ?_
    rw [h.fields]
    exact ih a.stateData h himg hb
  | assign x v k ih =>
    have hset :=
      h.remember (f := fun a => a.setField x v) (fun a => tame_setField a x v) rfl rfl rfl
    refine makes_bind (w := []) (makes_remember himg rfl ?_)
    exact ih hset himg hb
  | emit event args k ih =>
    have hbumped :=
      h.remember
        (f := fun a => { a with stateData := prog.eventSourced.foldl Fields.bump a.stateData })
        (fun a => tame_bumpAll a prog.eventSourced) rfl rfl rfl
    unfold Body.writes at hb
    split_ifs at hb with hbranch
    -- The end of a branch is recorded and checkpointed at once.
    · obtain ⟨rfl, hg⟩ := Prod.mk.inj hb
      refine makes_bind (w := [.record, .save _])
        (makes_emitEvent hw himg event args fun q hq => ?_)
      rw [if_pos hbranch, hq]
      refine Makes.mono (makes_branch hbumped himg args) ?_
      rintro _ q himg' ⟨c, hc, hfields⟩
      refine ih hc himg' ?_
      rw [hfields, ← hg]
    · obtain ⟨rfl, hg⟩ := Prod.mk.inj hb
      refine makes_bind (w := [.event]) (makes_emitEvent hw himg event args fun q hq => ?_)
      rw [if_neg hbranch, hq]
      have hnext :=
        hbumped.identified (e := fun n id => .custom n (some id) event args) (fun _ _ => rfl)
          fun _ _ => rfl
      have himg' :=
        image_identified hbumped (e := fun n id => .custom n (some id) event args) (fun _ _ => rfl)
          fun _ _ _ => rfl
      refine makes_emitCustom hbumped himg event args (ih hnext ?_ ?_)
      · rw [Holds, himg']
        exact himg
      · rw [stateData_replayedNext, ← hg]
  | timer name durationMs k ih =>
    have hnext :=
      h.identified (e := fun n id => .timerSet n (some id) name durationMs) (fun _ _ => rfl)
        fun _ _ => rfl
    have himg' :=
      image_identified h (e := fun n id => .timerSet n (some id) name durationMs) (fun _ _ => rfl)
        fun _ _ _ => rfl
    show Makes prog (attempt (scheduleWorkflowTimer prog name durationMs) >>= fun scheduled =>
      if scheduled then k.run prog else pure (.failed "Timer")) p img ws _
    obtain ⟨rfl, hg⟩ := Prod.mk.inj hb
    refine makes_bind (w := [.event]) (makes_timer h himg name durationMs ?_)
    refine ih (hnext.armed name durationMs) ?_ ?_
    · rw [Holds, Process.state_changed, himg']
      exact himg
    · rw [stateData_replayedNext, ← hg]
  -- A body that comes to its end has found all its signals; one that waits has no fields to
  -- compare.
  | wait signal k ih =>
    show Makes prog (read >>= fun rt =>
      if rt.signalReady signal then k.run prog
      else pure (.suspended signal (.wait signal k))) p img ws _
    refine Makes.read ?_
    rw [h.signalReady signal]
    unfold Body.writes at hb
    split_ifs at hb ⊢ with hready
    · exact ih h himg hb
    · cases hb

end Running

/-! ## The turn -/

/-- The compiled code a message runs, and whether it is a `parallel` block. -/
def Program.codeFor (prog : Program) (msg : Message) : Option (Bool × Body) :=
  match prog.steps[msg.behaviorId]? with
  | none => none
  | some step =>
    match step.code with
    | .sequential body => some (false, body msg.payload)
    | .parallel branches => some (true, parallelBody step.name 0 branches)
    | .native _ => none

theorem dispatch_of_codeFor {body : Body} (h : prog.codeFor msg = some (isParallel, body)) :
    dispatch prog msg = compiledTurn prog msg isParallel body := by
  unfold Program.codeFor at h
  unfold dispatch
  cases hs : prog.steps[msg.behaviorId]? with
  | none =>
    rw [hs] at h
    cases h
  | some step =>
    rw [hs] at h
    dsimp only at h ⊢
    cases hc : step.code with
    | sequential | parallel =>
      rw [hc] at h
      cases h
      rfl
    | native handler =>
      rw [hc] at h
      cases h

theorem Actor.awake_of_receive {a : Actor} (h : a.receive = some msg) :
    a.suspendedExecution = none := by
  unfold Actor.receive at h
  cases hs : a.suspendedExecution with
  | none => rfl
  | some s =>
    rw [hs] at h
    cases h

section Turn

variable {rt : Runtime} {a : Actor}

/-- The runtime in which the code of a turn starts. -/
def Runtime.admitted (msg : Message) (rt : Runtime) : Runtime :=
  (rt.modifyStore (·.appendJournal ⟨rt.nextSequence, msg.behaviorId, msg.payload⟩)).modifyActor
    fun a =>
    { a with currentWorkflowActivation := some ⟨rt.nextSequence⟩ }

variable {p : Process Runtime Effect}

/-- A command that is admitted opens an activation of its own. -/
theorem opened_admitted (h : Traced rt) (ha : rt.actor = some a)
    (hawake : a.suspendedExecution = none) (hp : p.state = rt.admitted msg) :
    Opened ⟨rt.nextSequence⟩ { a with currentWorkflowActivation := some ⟨rt.nextSequence⟩ } p := by
  refine ⟨?_, ?_, rfl⟩
  · rw [hp]
    simp only [admitted, modifyActor, modifyStore, ha, map_some]
  · rw [hp]
    exact .activated hawake h.admitted rfl (MemoryStore.latestSequence_appendJournal rfl)

theorem running_admitted (h : Sturdy prog rt) (ha : rt.actor = some a)
    (hawake : a.suspendedExecution = none) (hp : p.state = rt.admitted msg) :
    Running prog ⟨rt.nextSequence⟩ a.signalReady
      { a with currentWorkflowActivation := some ⟨rt.nextSequence⟩ } p := by
  have hlatest :
      (rt.store.appendJournal ⟨rt.nextSequence, msg.behaviorId, msg.payload⟩).latestSequence
      = rt.store.latestSequence + 1 := MemoryStore.latestSequence_appendJournal rfl
  have hjournaled : Sturdy prog (rt.modifyStore
      (·.appendJournal ⟨rt.nextSequence, msg.behaviorId, msg.payload⟩)) := by
    refine h.store rfl rfl rfl ?_ h.snapshot
    rw [hlatest]
    exact Nat.le_succ _
  refine ⟨opened_admitted h.toTraced ha hawake hp, fun _ => rfl, ?_⟩
  rw [hp]
  refine hjournaled.modifyActor fun b hb =>
    ⟨rfl, fun id hid => ?_, hjournaled.suspended b hb, fun _ hs => hs⟩
  cases hid
  exact Nat.le_of_eq hlatest.symm

theorem makes_admitCommand {w : Option Nat} {sent : List Effect} {img : Fields}
    {Q : Option ActivationId → Process Runtime Effect → Prop} (hw : prog.isWorkflow = true)
    (himg : Holds prog rt img)
    (hQ : ∀ q : Process Runtime Effect, q.state = rt.admitted msg → Q (some ⟨rt.nextSequence⟩) q) :
    Makes prog (admitCommand prog msg) ⟨rt, sent, w⟩ img [.event] Q := by
  refine makes_single (r := some ⟨rt.nextSequence⟩) (o := ⟨rt, sent, w⟩) (g := admitted msg) himg
    (fun K E Q => ?_) rfl (SameDurable.refl _) (hQ _ rfl)
  unfold admitCommand
  rw [ends_bind, ends_read, ends_bind, ends_write, if_pos hw]
  exact Iff.rfl

variable {activation : ActivationId} {ready : String → Bool} {img : Fields}

theorem makes_recordStepCompleted (h : Running prog activation ready a p)
    (himg : Holds prog p.state img) (id : Option ActivationId) (stepName : String) :
    Makes prog (recordStepCompleted prog id stepName) p img
      [.completed, .save a.stateData] fun _ q =>
      ∃ c, Running prog activation ready c q ∧ c.stateData = a.stateData := by
  have hrecorded :=
    h.appended (e := fun n => .stepCompleted n id stepName) (fun _ => rfl) fun _ => rfl
  have himg' :
      SameDurable prog ((p.wrote (appended fun n => .stepCompleted n id stepName)).state.store.image
      prog) (land img [.completed]) := by
    have himage :=
      image_appendEvent prog (e := .stepCompleted p.state.nextSequence id stepName) rfl h.snapshot
    rw [Process.state_wrote, store_appended, himage]
    exact Write.land_congr himg .completed
  refine Makes.read ?_
  refine makes_bind (w := [.completed])
    (makes_append h himg (e := fun n => .stepCompleted n id stepName)
    (fun _ => rfl) (fun _ _ => rfl) ?_)
  exact makes_checkpoint hrecorded himg' ⟨_, hrecorded.checkpointed, rfl⟩

theorem makes_finish (hw : prog.isWorkflow = true) (h : Running prog activation ready a p)
    (himg : Holds prog p.state img) (idx : Nat) (id : Option ActivationId) :
    Makes prog (finishCompiled prog idx isParallel id .completed) p img
      [.save a.stateData, .completed, .save (turnFields isParallel a.stateData)] fun _ q =>
      ∃ c, Running prog activation ready c q ∧ c.stateData = turnFields isParallel a.stateData := by
  have hsaved := h.checkpointed
  refine makes_bind (w := [.save a.stateData])
    (Makes.mono (makes_checkpoint (Q := fun _ q => q = p.wrote _) h himg rfl) ?_)
  rintro _ q himg' rfl
  unfold when
  rw [if_pos hw]
  cases isParallel with
  | false =>
    exact makes_bind (w := []) (Makes.pure himg' (makes_recordStepCompleted hsaved himg' id _))
  | true =>
    have hadvanced := hsaved.remember (f := Actor.advance) tame_advance rfl rfl rfl
    exact makes_bind (w := [])
      (makes_remember himg' rfl (makes_recordStepCompleted hadvanced himg' id _))

theorem makes_turn (hw : prog.isWorkflow = true) (h : Sturdy prog rt) (ha : rt.actor = some a)
    (hmsg : a.receive = some msg) {isParallel : Bool} {body : Body}
    (hcode : prog.codeFor msg = some (isParallel, body)) {ws : List Write} {g : Fields}
    (hb : body.writes prog a.signalReady a.stateData = (ws, some g)) (w : Option Nat) :
    Makes prog (stepActor prog) ⟨rt, [], w⟩ (rt.store.image prog)
      (turnWrites isParallel ws g) fun _ q =>
      q.state.fields = turnFields isParallel g := by
  have himg : SameDurable prog (rt.store.image prog) (rt.store.image prog) := SameDurable.refl _
  have hawake := a.awake_of_receive hmsg
  refine Makes.read ?_
  rw [ha, bind_some, hmsg]
  refine makes_bind (w := []) (makes_remember himg rfl ?_)
  rw [dispatch_of_codeFor hcode]
  have hpopped : Sturdy prog (rt.modifyActor fun a => { a with mailbox := a.mailbox.tail }) :=
    h.tame fun _ => Tame.of_fields rfl
  have hactor : (rt.modifyActor fun a => { a with mailbox := a.mailbox.tail }).actor
      = some { a with mailbox := a.mailbox.tail } := by
    simp only [modifyActor, ha, map_some]
  refine makes_bind (w := [.event])
    (Makes.mono (makes_admitCommand (Q := fun id q => id = _ ∧ q.state = _) hw himg
    fun q hq => ⟨rfl, hq⟩) ?_)
  rintro _ q himg' ⟨rfl, hq⟩
  have hrunning := running_admitted hpopped hactor hawake hq
  refine makes_bind (w := ws) (Makes.mono (makes_body hw body hrunning himg' hb) ?_)
  rintro _ q himg'' ⟨rfl, c, hc, rfl⟩
  refine makes_bind (w := [.save c.stateData, .completed, .save _]) (v := [])
    (Makes.mono (makes_finish hw hc himg'' msg.behaviorId _) ?_)
  rintro _ q himg₃ ⟨c', hc', hfields⟩
  refine makes_remember himg₃ rfl ?_
  rw [← hfields, ← hc'.fields]
  simp only [fields, Process.state_changed, modifyActor, hc'.actor, map_some]

end Turn

/-- The fields before a turn, or those after it. -/
def Whole (prog : Program) (before after f : Fields) : Prop :=
  SameDurable prog f before ∨ SameDurable prog f after

/-- A crash after `k` writes does not catch a turn halfway. Until the checkpoint of the body, the
store holds what it held before the turn and what the branches have recorded and saved since; that
checkpoint saves the fields of the body, which are those of the turn unless the step is still to be
advanced; and the record of the step, over that checkpoint, advances it once more. -/
def TurnSafe (prog : Program) (stored before : Fields) (isParallel : Bool) (ws : List Write)
    (g : Fields) (k : Nat) :
    Prop :=
  let whole := Whole prog before (turnFields isParallel g)
  if k ≤ ws.length + 1 then whole (land stored (ws.take (k - 1)))
  else if k = ws.length + 2 then isParallel = false ∨ whole g
  else if k = ws.length + 3 then whole ((g.bump "step_index").set "parallel_progress" (.int 0))
  else True

/-- The fields a store holds after `k` writes of a turn, one window after the other. -/
theorem land_turnWrites (stored : Fields) (ws : List Write) (k : Nat) :
    land stored ((turnWrites isParallel ws g).take k) = if k ≤ ws.length + 1 then
      land stored (ws.take (k - 1))
      else if k = ws.length + 2 then g
      else if k = ws.length + 3 then (g.bump "step_index").set "parallel_progress" (.int 0)
      else turnFields isParallel g := by
  rcases k with _ | k
  · rfl
  · unfold turnWrites land
    rw [take_succ_cons, foldl_cons, take_append, foldl_append]
    simp only [Write.land, Nat.add_sub_cancel, Nat.succ_le_succ_iff, Nat.add_right_cancel_iff]
    split_ifs with h1 h2 h3
    · rw [Nat.sub_eq_zero_of_le h1]
      rfl
    · have hk : k - ws.length = 1 := by omega
      rw [hk]
      rfl
    · have hk : k - ws.length = 2 := by omega
      rw [hk]
      rfl
    · have hk : 3 ≤ k - ws.length := by omega
      rw [take_of_length_le (l := [_, _, _]) hk]
      rfl

theorem whole_turnWrites {stored : Fields} {ws : List Write} {k : Nat} :
    Whole prog before (turnFields isParallel g)
      (land stored ((turnWrites isParallel ws g).take k)) ↔
      TurnSafe prog stored before isParallel ws g k := by
  rw [land_turnWrites]
  unfold TurnSafe
  split_ifs with h1 h2 h3
  · exact Iff.rfl
  · constructor
    · exact .inr
    · rintro (rfl | h)
      · exact .inr (SameDurable.refl g)
      · exact h
  · exact Iff.rfl
  · exact iff_of_true (.inr (SameDurable.refl _)) trivial

theorem Whole.congr {after : Fields} (h : SameDurable prog f g) :
    Whole prog before after f ↔ Whole prog before after g :=
  or_congr ⟨h.symm.trans, h.trans⟩ ⟨h.symm.trans, h.trans⟩

/-- A turn of a compiled step that comes to its end, cut after any number of its writes: recovery
rebuilds the durable fields before the turn or those after it exactly if the crash does not catch it
halfway. -/
theorem turn_recovers_iff {prog : Program} (hw : prog.isWorkflow = true) (hc : prog.Compiled)
    {rt : Runtime} (hr : Reachable prog rt) {a : Actor} {msg : Message} (ha : rt.actor = some a)
    (hmsg : a.receive = some msg) {isParallel : Bool} {body : Body}
    (hcode : prog.codeFor msg = some (isParallel, body)) {ws : List Write} {g : Fields}
    (hb : body.writes prog a.signalReady a.stateData = (ws, some g)) (k : Nat) :
    ∃ rt', recoverWorkflow prog (rt.after (stepActor prog) (some k)).crash = some rt' ∧
      (Whole prog a.stateData (rt.after (stepActor prog) none).fields rt'.fields ↔
        TurnSafe prog (rt.store.image prog) a.stateData isParallel ws g k) := by
  have hsturdy := hr.sturdy hw hc
  have hmakes := makes_turn hw hsturdy ha hmsg hcode hb
  have hdone : (rt.after (stepActor prog) none).fields = turnFields isParallel g := by
    obtain ⟨_, _, hfields⟩ := (hmakes none).done
    exact hfields
  have hcut : SameDurable prog ((rt.after (stepActor prog) (some k)).store.image prog)
      (land (rt.store.image prog) ((turnWrites isParallel ws g).take k)) := (hmakes (some k)).cut
  have hsturdy' : Sturdy prog (rt.after (stepActor prog) (some k)) :=
    Sturdy.steps (p := ⟨rt, [], some k⟩) hc hsturdy ((steps_any hw .turn).exec ⟨rt, [], some k⟩)
  obtain ⟨b, hrec, hfields, _⟩ := recoverWorkflow_of_recoverable hsturdy'.toRecoverable
  refine ⟨_, hrec, ?_⟩
  have hrebuilt : SameDurable prog (fields ⟨(rt.after (stepActor prog) (some k)).store, some b,
      rearmedTimers (rt.after (stepActor prog) (some k)).store⟩)
      (land (rt.store.image prog) ((turnWrites isParallel ws g).take k)) := by
    show SameDurable prog b.stateData _
    rw [hfields]
    exact hcut
  rw [Whole.congr hrebuilt, hdone]
  exact whole_turnWrites

/-- A workflow of one step, which does nothing but advance. -/
def oneStep : Program where
  isWorkflow := true
  models := [("step_index", .durable)]
  models_nodup := nodup_singleton "step_index"
  defaults := [("step_index", .int 0)]
  steps := [⟨"advance", .sequential fun _ => .observe fun f =>
    .assign "step_index" (.int ((f.int? "step_index").getD 0 + 1)) .finish, none⟩]

def oneStepSent : Runtime :=
  (spawnWorkflow oneStep (oneStep.initial [])).after (deliver ⟨0, []⟩) none

/-- The checkpoint of a sequential step holds the whole turn. -/
theorem turn_recovers_saved :
    ∃ rt', recoverWorkflow oneStep
      (oneStepSent.after (stepActor oneStep) (some 2)).crash = some rt' ∧
      (Whole oneStep (oneStep.initial []) (oneStepSent.after (stepActor oneStep) none).fields
        rt'.fields ↔
        TurnSafe oneStep (oneStepSent.store.image oneStep) (oneStep.initial []) false []
          ((oneStep.initial []).set "step_index" (.int 1)) 2) := by
  refine turn_recovers_iff rfl ?_ (.perform (.spawn []) (.send ⟨0, []⟩)) rfl rfl rfl rfl 2
  intro step hs handler hn
  rw [mem_singleton.mp hs] at hn
  cases hn

/-- Between the record of the step and its checkpoint, the step is advanced twice. -/
theorem step_advanced_twice :
    ∃ rt', recoverWorkflow oneStep
      (oneStepSent.after (stepActor oneStep) (some 3)).crash = some rt' ∧
      rt'.fields "step_index" = some (.int 2) ∧ oneStepSent.fields "step_index" = some (.int 0) ∧
      (oneStepSent.after (stepActor oneStep) none).fields "step_index" = some (.int 1) :=
  ⟨_, rfl, by decide, by decide, by decide⟩

end Nulang.Persist

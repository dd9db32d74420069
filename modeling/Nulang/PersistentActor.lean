import Nulang.WorkflowTurn

/-!
# Crashes of persistent actors

A persistent actor that is not a workflow journals each message, runs its behaviour, and checkpoints
its durable fields; every event on the way records the values of the event-sourced fields. Recovery
puts the last checkpoint and the last recorded values together (`Program.resumed`) and runs again
what was journaled after the checkpoint. So an event that was recorded before the crash counts
twice, a value that was assigned to an event-sourced field without an event is forgotten, and before
the first checkpoint there is nothing to recover.

What a crash leaves is described by a `Disk`: the writes of a turn land on it one by one
(`makes_turn`), and recovery is a function of it (`recover_disk`); a message of a host handler is
not run again. The fields after a recovery are those of an uncrashed run over the journaled messages
exactly if the behaviour in flight makes up for the difference (`recovery_agrees_iff`).
-/

set_option autoImplicit false

namespace Nulang.Persist

open Process JournalEntry Fields MemoryStore Runtime List Option Handler

/-- What is left of code that has to wait is kept in the actor. -/
def keepSuspended (prog : Program) (idx : Nat) : Outcome → Routine Unit
  | .suspended signal rest => suspend idx (prog.stepNameFor idx) signal rest
  | .completed | .failed _ => pure ()

/-- Compiled code is run again, and the sequence number of its message taken over. -/
def reexecuteCompiled (prog : Program) (entry : JournalEntry) (body : Body) : Routine Unit := do
  let outcome ← body.run prog
  keepSuspended prog entry.behaviorId outcome
  Handler.remember (modifyActor fun a => { a with sequence := entry.sequence })

/-- A journaled message is run again, without being journaled or checkpointed. The handlers of the
host are not: the behaviour table of the actor being recovered is empty, and only compiled code has
been registered for it. -/
def reexecute (prog : Program) (entry : JournalEntry) : Routine Unit :=
  match prog.steps[entry.behaviorId]? with
  | none => pure ()
  | some step =>
    match step.code with
    | .native _ => pure ()
    | .sequential body => reexecuteCompiled prog entry (body entry.payload)
    | .parallel branches => reexecuteCompiled prog entry (parallelBody step.name 0 branches)

def replayJournal (prog : Program) : List JournalEntry → Routine Unit
  | [] => pure ()
  | entry :: entries => do
    reexecute prog entry
    replayJournal prog entries

/-- `recover_actor` for an actor that is not a workflow. -/
def recoverPersistent (prog : Program) (rt : Runtime) : Option Runtime :=
  match rt.store.snapshot with
  | none => none
  | some snapshot =>
    if snapshot.activationEpoch = 0 then none
    else
      let pending := rt.store.journal.filter fun entry => snapshot.sequence < entry.sequence
      some (after { rt with actor := some (restoreActor prog snapshot rt.store.events) }
        (replayJournal prog pending) none)

/-- A new actor. Nothing is written before its first message. -/
def spawnPersistent (prog : Program) (init : List (String × Value)) : Runtime :=
  ⟨.empty, some (freshActor (prog.initial init)), []⟩

/-- The runtimes of an actor that has not crashed. -/
inductive Lives (prog : Program) (init : List (String × Value)) : Runtime → Prop where
  | spawn : Lives prog init (spawnPersistent prog init)
  | send {rt : Runtime} (h : Lives prog init rt) (msg : Message) :
      Lives prog init (rt.after (deliver msg) none)
  | turn {rt : Runtime} (h : Lives prog init rt) : Lives prog init (rt.after (stepActor prog) none)

def uncrashed (prog : Program) (init : List (String × Value)) (messages : List Message) : Runtime :=
  messages.foldl (fun rt msg => (rt.after (deliver msg) none).after (stepActor prog) none)
    (spawnPersistent prog init)

def JournalEntry.message (entry : JournalEntry) : Message := ⟨entry.behaviorId, entry.payload⟩

/-- Code that reads and assigns fields and emits events. -/
inductive Plain : Body → Prop where
  | finish : Plain .finish
  | fail (error : String) : Plain (.fail error)
  | observe {k : Fields → Body} (h : ∀ f, Plain (k f)) : Plain (.observe k)
  | assign {x : String} {v : Value} {k : Body} (h : Plain k) : Plain (.assign x v k)
  | emit {event : String} {args : List Value} {k : Body} (h : Plain k) : Plain (.emit event args k)

/-- The behaviours are such code, or handlers of the host. -/
def Program.Plain (prog : Program) : Prop :=
  ∀ step ∈ prog.steps, (∃ handler, step.code = .native handler) ∨
    ∃ body, step.code = .sequential body ∧ ∀ payload, Persist.Plain (body payload)

def Body.outcome (prog : Program) : Body → Fields → Fields
  | .finish, f => f
  | .fail _, f => f
  | .observe k, f => (k f).outcome prog f
  | .assign x v k, f => k.outcome prog (f.set x v)
  | .emit _ _ k, f => k.outcome prog (prog.eventSourced.foldl bump f)
  | .timer _ _ k, f => k.outcome prog f
  | .wait _ k, f => k.outcome prog f

/-- The values of the event-sourced fields that its events record. -/
def Body.records (prog : Program) : Body → Fields → List (String × Value)
  | .finish, _ => []
  | .fail _, _ => []
  | .observe k, f => (k f).records prog f
  | .assign x v k, f => k.records prog (f.set x v)
  | .emit _ _ k, f =>
    let f := prog.eventSourced.foldl bump f
    (prog.eventSourced.map fun x => (x, (f x).getD .nil)) ++ k.records prog f
  | .timer _ _ k, f => k.records prog f
  | .wait _ k, f => k.records prog f

def Step.outcome (prog : Program) (step : Step) (payload : List Value) (f : Fields) : Fields :=
  match step.code with
  | .native handler => handler payload f
  | .sequential body => (body payload).outcome prog f
  | .parallel branches => (parallelBody step.name 0 branches).outcome prog f

def Step.records (prog : Program) (step : Step) (payload : List Value) (f : Fields) :
    List (String × Value) :=
  match step.code with
  | .native _ => []
  | .sequential body => (body payload).records prog f
  | .parallel branches => (parallelBody step.name 0 branches).records prog f

/-- The fields the code leaves when recovery runs it again. It stops at the first wait: no signal
has reached an actor that is being recovered. -/
def Body.redone (prog : Program) : Body → Fields → Fields
  | .finish, f => f
  | .fail _, f => f
  | .observe k, f => (k f).redone prog f
  | .assign x v k, f => k.redone prog (f.set x v)
  | .emit _ _ k, f => k.redone prog (prog.eventSourced.foldl bump f)
  | .timer _ _ k, f => k.redone prog f
  | .wait _ _, f => f

def Step.redone (prog : Program) (step : Step) (payload : List Value) (f : Fields) : Fields :=
  match step.code with
  | .native _ => f
  | .sequential body => (body payload).redone prog f
  | .parallel branches => (parallelBody step.name 0 branches).redone prog f

/-- The fields after a message. -/
def Program.handle (prog : Program) (f : Fields) (msg : Message) : Fields :=
  match prog.steps[msg.behaviorId]? with
  | none => f
  | some step => step.outcome prog msg.payload f

/-- The fields after a journaled message is run again. -/
def Program.redo (prog : Program) (f : Fields) (msg : Message) : Fields :=
  match prog.steps[msg.behaviorId]? with
  | none => f
  | some step => step.redone prog msg.payload f

/-- The contents of the store: the fields of the last checkpoint with the number of messages it
covers, the journaled messages, and the recorded values. -/
structure Disk where
  saved : Option (Fields × Nat)
  journal : List Message
  records : List (String × Value)

inductive DiskWrite where
  | journal (msg : Message)
  | record (r : String × Value)
  | save (f : Fields)

def Disk.land (d : Disk) : DiskWrite → Disk
  | .journal msg => { d with journal := d.journal ++ [msg] }
  | .record r => { d with records := d.records ++ [r] }
  | .save f => { d with saved := some (f, d.journal.length) }

/-- The snapshot is of these fields, and these messages were journaled after it. -/
structure Saved (prog : Program) (s : MemoryStore) (snapshot : ActorSnapshot) (f : Fields)
    (pending : List Message) :
    Prop where
  latest : s.snapshot = some snapshot
  fields : snapshot.state = prog.persisted f
  epoch : snapshot.activationEpoch ≠ 0
  pending : (s.journal.filter fun e => snapshot.sequence < e.sequence).map message = pending

structure Stores (prog : Program) (s : MemoryStore) (d : Disk) : Prop where
  records : s.events.map (fun e => (e.fieldName, e.value)) = d.records
  journal : s.journal.map message = d.journal
  bounded : ∀ e ∈ s.journal, e.sequence ≤ s.latestSequence
  unsaved : d.saved = none → s.snapshot = none
  saved : ∀ f n, d.saved = some (f, n) → n ≤ d.journal.length ∧
    ∃ snapshot, Saved prog s snapshot f (d.journal.drop n)

section Stores

variable {prog : Program} {s : MemoryStore} {d : Disk}

variable {e : EventEntry}

theorem latestSequence_appendEvent (h : s.latestSequence ≤ e.sequence) :
    (s.appendEvent e).latestSequence = e.sequence := by
  simp only [latestSequence, legacyTail, appendEvent, snapshotSequence, getLast?_concat, map_some,
    getD_some] at h ⊢
  omega

theorem Stores.journaled (h : Stores prog s d) (msg : Message) :
    Stores prog (s.appendJournal ⟨s.latestSequence + 1, msg.behaviorId, msg.payload⟩)
      (d.land (.journal msg)) := by
  have hlatest :
      (s.appendJournal ⟨s.latestSequence + 1, msg.behaviorId, msg.payload⟩).latestSequence
      = s.latestSequence + 1 := latestSequence_appendJournal rfl
  refine ⟨h.records, ?_, fun e he => ?_, h.unsaved, fun f n hs => ?_⟩
  · simp only [appendJournal, Disk.land, map_append, h.journal]
    rfl
  · rw [hlatest]
    rcases mem_append.mp he with he | he
    · exact Nat.le_succ_of_le (h.bounded e he)
    · exact Nat.le_of_eq (by rw [mem_singleton.mp he])
  · obtain ⟨hn, snapshot, hsaved⟩ := h.saved f n hs
    have hnew : snapshot.sequence < s.latestSequence + 1 := by
      have hle := snapshotSequence_le s
      simp only [snapshotSequence, hsaved.latest, map_some, getD_some] at hle
      exact Nat.lt_succ_of_le hle
    refine ⟨?_, snapshot, hsaved.latest, hsaved.fields, hsaved.epoch, ?_⟩
    · simp only [Disk.land, length_append]
      exact Nat.le_add_right_of_le hn
    · simp only [appendJournal, Disk.land, filter_append, map_append, hsaved.pending]
      rw [drop_append_of_le_length hn, filter_cons_of_pos (by simpa using hnew), filter_nil]
      rfl

theorem Stores.recorded (h : Stores prog s d) (hq : s.latestSequence ≤ e.sequence) :
    Stores prog (s.appendEvent e) (d.land (.record (e.fieldName, e.value))) := by
  refine ⟨?_, h.journal, fun j hj => ?_, h.unsaved, fun f n hs => ?_⟩
  · simp only [appendEvent, Disk.land, map_append, h.records]
    rfl
  · rw [latestSequence_appendEvent hq]
    exact Nat.le_trans (h.bounded j hj) hq
  · obtain ⟨hn, snapshot, hsaved⟩ := h.saved f n hs
    exact ⟨hn, snapshot, hsaved.latest, hsaved.fields, hsaved.epoch, hsaved.pending⟩

theorem Stores.checkpointed (h : Stores prog s d) {a : Actor} (he : a.activationEpoch ≠ 0) :
    Stores prog (s.saveSnapshot (a.snapshotAt prog (s.latestSequence + 1)))
      (d.land (.save a.stateData)) := by
  have hlatest : (s.saveSnapshot (a.snapshotAt prog (s.latestSequence + 1))).latestSequence =
      s.latestSequence + 1 :=
    latestSequence_saveSnapshot rfl
  have hnone :
      (s.journal.filter fun e => (a.snapshotAt prog (s.latestSequence + 1)).sequence <
        e.sequence) = [] := by
    rw [filter_eq_nil_iff]
    intro e he hlt
    rw [decide_eq_true_eq] at hlt
    exact absurd (Nat.lt_of_lt_of_le hlt (h.bounded e he)) (Nat.not_succ_lt_self)
  refine ⟨h.records, h.journal, fun e he => ?_, fun hs => (by cases hs), fun f n hs => ?_⟩
  · rw [hlatest]
    exact Nat.le_succ_of_le (h.bounded e he)
  · cases hs
    refine ⟨Nat.le_refl _, _, rfl, rfl, he, ?_⟩
    simp only [saveSnapshot, hnone, Disk.land, drop_length, map_nil]

end Stores

/-! ## The writes of a turn -/

def Lands {α : Type} (prog : Program) (x : Routine α) (p : Process Runtime Effect) (d : Disk)
    (ws : List DiskWrite) (Q : α → Process Runtime Effect → Prop) : Prop :=
  Handler.Makes (fun rt d => Stores prog rt.store d) Disk.land x p d ws Q

/-- The actor with other fields, as far as its turns depend on it. -/
structure Carries (a b : Actor) (f : Fields) : Prop where
  fields : b.stateData = f
  epoch : b.activationEpoch = a.activationEpoch
  awake : b.suspendedExecution = a.suspendedExecution
  mailbox : b.mailbox = a.mailbox

theorem fields_of_actor {rt : Runtime} {a : Actor} (ha : rt.actor = some a) :
    rt.fields = a.stateData := by
  unfold fields
  rw [ha]
  rfl

section Turn

variable {prog : Program} {p : Process Runtime Effect} {d : Disk} {a : Actor}

variable {n : Nat}

theorem actor_changed (ha : p.state.actor = some a) (g : Actor → Actor) :
    (p.changed (modifyActor g)).state.actor = some (g a) := by
  simp only [state_changed, modifyActor, ha, map_some]

theorem lands_appendEvents (ha : p.state.actor = some a) (h : Stores prog p.state.store d)
    (hn : p.state.store.latestSequence ≤ n) (event : String) (args : List Value)
    (names : List String) : Lands prog (appendEvents n event args names) p d
      (names.map fun x => .record (x, (a.stateData x).getD .nil)) fun _ q =>
      q.state.actor = some a := by
  induction names generalizing p d with
  | nil => exact Makes.pure h ha
  | cons x names ih =>
    have hfield := fields_of_actor ha
    have hrecorded := h.recorded (e := ⟨n, x, event, args, (p.state.fields x).getD .nil⟩) hn
    rw [hfield] at hrecorded
    refine Makes.read (Makes.bind (w := [_]) ?_)
    rw [hfield]
    refine Makes.write h hrecorded (ih ha hrecorded ?_)
    exact Nat.le_of_eq (latestSequence_appendEvent hn)

/-- An event: the event-sourced fields go up, and are recorded. -/
theorem lands_emit (hw : prog.isWorkflow = false) (ha : p.state.actor = some a)
    (h : Stores prog p.state.store d) (event : String) (args : List Value) :
    Lands prog (emitEvent prog event args) p d
      (prog.eventSourced.map fun x =>
        .record (x, (prog.eventSourced.foldl bump a.stateData x).getD .nil))
      fun _ q =>
        ∃ b, q.state.actor = some b ∧ Carries a b (prog.eventSourced.foldl bump a.stateData) := by
  have hbumped := actor_changed ha fun a =>
    { a with stateData := prog.eventSourced.foldl bump a.stateData }
  refine Makes.read (Makes.bind (w := []) (Makes.remember h ?_))
  rw [if_neg (by simp [hw])]
  unfold emitDomainEvent when
  split_ifs with hes
  · have hrecords : Lands prog _ _ _ _ _ :=
      lands_appendEvents hbumped h (n := p.state.nextSequence) (Nat.le_succ _) event args
        prog.eventSourced
    refine Makes.bind_last (Makes.mono hrecords fun _ q hq hb => ?_)
    refine Makes.remember hq ⟨{ a with
      stateData := prog.eventSourced.foldl bump a.stateData
      sequence := p.state.nextSequence }, actor_changed hb _, rfl, rfl, rfl, rfl⟩
  · rw [not_not] at hes
    rw [hes] at hbumped ⊢
    exact Makes.pure h ⟨_, hbumped, rfl, rfl, rfl, rfl⟩

theorem Carries.trans {b c : Actor} {f g : Fields} (h : Carries a b f) (h' : Carries b c g) :
    Carries a c g :=
  ⟨h'.fields, h'.epoch.trans h.epoch, h'.awake.trans h.awake, h'.mailbox.trans h.mailbox⟩

/-- The writes of the code are its records. -/
theorem lands_body (hw : prog.isWorkflow = false) {b : Body} (hb : Plain b)
    (ha : p.state.actor = some a) (h : Stores prog p.state.store d) :
    Lands prog (b.run prog) p d ((b.records prog a.stateData).map .record) fun outcome q =>
      (∀ signal rest, outcome ≠ .suspended signal rest) ∧
        ∃ c, q.state.actor = some c ∧ Carries a c (b.outcome prog a.stateData) := by
  induction hb generalizing p d a with
  | finish | fail => exact Makes.pure h ⟨fun _ _ ho => (by cases ho), a, ha, rfl, rfl, rfl, rfl⟩
  | @observe k hk ih =>
    refine Makes.read ?_
    rw [fields_of_actor ha]
    exact ih a.stateData ha h
  | @assign x v k hk ih =>
    refine Makes.bind (w := []) (Makes.remember h ?_)
    refine Makes.mono (ih (actor_changed ha _) h) ?_
    rintro outcome q _ ⟨ho, c, hc, hcarries⟩
    exact ⟨ho, c, hc, hcarries.fields, hcarries.epoch, hcarries.awake, hcarries.mailbox⟩
  | @emit event args k hk ih =>
    unfold Body.records
    rw [map_append, List.map_map]
    refine Makes.bind (Makes.mono (lands_emit hw ha h event args) ?_)
    rintro _ q hq ⟨b, hb, hcarries⟩
    have hrest := ih hb hq
    rw [hcarries.fields] at hrest
    refine Makes.mono hrest ?_
    rintro outcome r _ ⟨ho, c, hc, hcarries'⟩
    exact ⟨ho, c, hc, hcarries.trans hcarries'⟩

theorem lands_checkpoint (ha : p.state.actor = some a) (he : a.activationEpoch ≠ 0)
    (h : Stores prog p.state.store d) :
    Lands prog (tryCheckpointActor prog) p d [.save a.stateData] fun _ q =>
      ∃ c, q.state.actor = some c ∧ Carries a c a.stateData := by
  have hlive : p.state.actor.isSome := by simp [ha]
  have hstate : checkpointed prog p.state = { p.state with
      store := p.state.store.saveSnapshot (a.snapshotAt prog p.state.nextSequence)
      actor := some { a with sequence := p.state.nextSequence } } := by
    simp only [checkpointed, ha]
  refine Makes.single (g := checkpointed prog) (fun K E Q => ends_checkpoint prog hlive) h ?_ ?_
  · rw [hstate]
    exact h.checkpointed he
  · rw [state_wrote, hstate]
    exact ⟨_, rfl, rfl, rfl, rfl, rfl⟩

/-- The writes of a turn: the journal entry, the records, and the checkpoint. -/
def Step.writes (prog : Program) (step : Step) (msg : Message) (f : Fields) : List DiskWrite :=
  .journal msg ::
    ((step.records prog msg.payload f).map .record ++ [.save (step.outcome prog msg.payload f)])

theorem land_records (rs : List (String × Value)) :
    (rs.map DiskWrite.record).foldl Disk.land d = { d with records := d.records ++ rs } := by
  induction rs generalizing d with
  | nil => simp
  | cons r rs ih =>
    rw [map_cons, foldl_cons, ih]
    simp [Disk.land]

theorem land_turn (prog : Program) (step : Step) (msg : Message) (f : Fields) (d : Disk) :
    (step.writes prog msg f).foldl Disk.land d =
      ⟨some (step.outcome prog msg.payload f, d.journal.length + 1), d.journal ++ [msg],
        d.records ++ step.records prog msg.payload f⟩ := by
  unfold Step.writes
  rw [foldl_cons, foldl_append, land_records]
  simp [Disk.land]

theorem land_cut (step : Step) (msg : Message) (f : Fields)
    (hn : n ≤ (step.records prog msg.payload f).length) :
    ((step.writes prog msg f).take (n + 1)).foldl Disk.land d = { d with
      journal := d.journal ++ [msg]
      records := d.records ++ (step.records prog msg.payload f).take n } := by
  unfold Step.writes
  rw [take_succ_cons, take_append_of_le_length (by rw [length_map]; exact hn), foldl_cons,
    ← map_take, land_records]
  rfl

theorem take_writes {step : Step} {msg : Message} {f : Fields}
    (hn : ¬ n ≤ (step.records prog msg.payload f).length + 1) :
    (step.writes prog msg f).take n = step.writes prog msg f := by
  refine take_of_length_le ?_
  unfold Step.writes
  simp only [length_cons, length_append, length_map, length_nil]
  omega

theorem outcome_eq_handle {step : Step} {msg : Message}
    (hstep : prog.steps[msg.behaviorId]? = some step) (f : Fields) :
    step.outcome prog msg.payload f = prog.handle f msg := by
  unfold Program.handle
  rw [hstep]

section

variable (hw : prog.isWorkflow = false)
include hw

theorem lands_admitCommand (h : Stores prog p.state.store d) (msg : Message) :
    Lands prog (admitCommand prog msg) p d [.journal msg] fun activation q =>
      activation = none ∧ q.state.actor = p.state.actor := by
  refine Makes.read (Makes.bind_last (Makes.write h (h.journaled msg) ?_))
  rw [if_neg (by simp [hw])]
  exact Makes.pure (h.journaled msg) ⟨rfl, rfl⟩

/-- Code that ran to its end is checkpointed, whether it failed or not. -/
theorem lands_finish (ha : p.state.actor = some a) (he : a.activationEpoch ≠ 0)
    (h : Stores prog p.state.store d) (idx : Nat) {outcome : Outcome}
    (ho : ∀ signal rest, outcome ≠ .suspended signal rest) :
    Lands prog (finishCompiled prog idx false none outcome) p d [.save a.stateData] fun _ q =>
      ∃ c, q.state.actor = some c ∧ Carries a c a.stateData := by
  have hrest {x : Routine Unit} (q : Process Runtime Effect) (c : Actor)
      (hq : Stores prog q.state.store
      ([DiskWrite.save a.stateData].foldl Disk.land d)) (hc : q.state.actor = some c)
      (hcarries : Carries a c a.stateData) :
      Lands prog (when (prog.isWorkflow = true) x) q
      ([DiskWrite.save a.stateData].foldl Disk.land d) []
        fun _ q => ∃ c, q.state.actor = some c ∧ Carries a c a.stateData := by
    unfold when
    rw [if_neg (by simp [hw])]
    exact Makes.pure hq ⟨c, hc, hcarries⟩
  cases outcome with
  | completed | failed =>
    refine Makes.bind_last (Makes.mono (lands_checkpoint ha he h) ?_)
    rintro _ q hq ⟨c, hc, hcarries⟩
    exact hrest q c hq hc hcarries
  | suspended signal rest => exact absurd rfl (ho signal rest)

omit hw in
theorem lands_finishTurn (ha : p.state.actor = some a) (h : Stores prog p.state.store d) :
    Lands prog finishTurn p d [] fun _ q =>
      ∃ c, q.state.actor = some c ∧ Carries a c a.stateData := by
  exact Makes.remember h ⟨{ a with currentWorkflowActivation := none }, actor_changed ha _, rfl,
    rfl, rfl, rfl⟩

theorem lands_compiled (ha : p.state.actor = some a) (he : a.activationEpoch ≠ 0)
    (h : Stores prog p.state.store d) (msg : Message) {body : Body} (hb : Plain body) :
    Lands prog (compiledTurn prog msg false body) p d
      (.journal msg ::
        ((body.records prog a.stateData).map .record ++ [.save (body.outcome prog a.stateData)]))
      fun _ q => ∃ c, q.state.actor = some c ∧ Carries a c (body.outcome prog a.stateData) := by
  refine Makes.bind (w := [_]) (Makes.mono (lands_admitCommand hw h msg) ?_)
  rintro _ q hq ⟨rfl, hactor⟩
  rw [ha] at hactor
  refine Makes.bind (Makes.mono (lands_body hw hb hactor hq) ?_)
  rintro outcome r hr ⟨ho, c, hc, hcarries⟩
  have hsave := lands_finish hw hc (by rw [hcarries.epoch]; exact he) hr msg.behaviorId ho
  rw [hcarries.fields] at hsave
  refine Makes.bind_last (Makes.mono hsave ?_)
  rintro _ u hu ⟨c', hc', hcarries'⟩
  refine Makes.mono (lands_finishTurn hc' hu) ?_
  rintro _ v _ ⟨c'', hc'', hcarries''⟩
  rw [hcarries'.fields] at hcarries''
  exact ⟨c'', hc'', (hcarries.trans hcarries').trans hcarries''⟩

theorem lands_native (ha : p.state.actor = some a) (he : a.activationEpoch ≠ 0)
    (h : Stores prog p.state.store d) (msg : Message) (handler : List Value → Fields → Fields) :
    Lands prog (nativeTurn prog msg handler) p d
      [.journal msg, .save (handler msg.payload a.stateData)]
      fun _ q => ∃ c, q.state.actor = some c ∧ Carries a c (handler msg.payload a.stateData) := by
  refine Makes.bind (w := [_]) (Makes.mono (lands_admitCommand hw h msg) ?_)
  rintro _ q hq ⟨_, hactor⟩
  rw [ha] at hactor
  have hhandled := actor_changed hactor fun a =>
    { a with stateData := handler msg.payload a.stateData }
  refine Makes.bind (w := []) (Makes.remember hq ?_)
  have hsave : Lands prog _ _ _ _ _ := lands_checkpoint hhandled he hq
  refine Makes.bind_last (Makes.mono hsave ?_)
  rintro _ u hu ⟨c, hc, hcarries⟩
  refine Makes.mono (lands_finishTurn hc hu) ?_
  rintro _ v _ ⟨c', hc', hcarries'⟩
  rw [hcarries.fields] at hcarries'
  have hall := hcarries.trans hcarries'
  exact ⟨c', hc', hall.fields, hall.epoch, hall.awake, hall.mailbox⟩

theorem lands_dispatch (hp : prog.Plain) (ha : p.state.actor = some a) (he : a.activationEpoch ≠ 0)
    (h : Stores prog p.state.store d) {msg : Message} {step : Step}
    (hstep : prog.steps[msg.behaviorId]? = some step) :
    Lands prog (dispatch prog msg) p d (step.writes prog msg a.stateData) fun _ q =>
      ∃ c, q.state.actor = some c ∧ Carries a c (step.outcome prog msg.payload a.stateData) := by
  unfold dispatch Step.writes Step.records Step.outcome
  rw [hstep]
  rcases hp step (mem_of_getElem? hstep) with ⟨handler, hcode⟩ | ⟨body, hcode, hplain⟩
  · simp only [hcode, hw, Bool.false_eq_true, if_false]
    exact lands_native hw ha he h msg handler
  · simp only [hcode]
    exact lands_compiled hw ha he h msg (hplain msg.payload)

theorem lands_turn (hp : prog.Plain) {rt : Runtime} (ha : rt.actor = some a)
    (he : a.activationEpoch ≠ 0) {msg : Message} (hmsg : a.receive = some msg) {step : Step}
    (hstep : prog.steps[msg.behaviorId]? = some step) (h : Stores prog rt.store d)
    (writes : Option Nat) :
    Lands prog (stepActor prog) ⟨rt, [], writes⟩ d (step.writes prog msg a.stateData) fun _ q =>
      ∃ c, q.state.actor = some c ∧
        Carries { a with mailbox := a.mailbox.tail } c
          (step.outcome prog msg.payload a.stateData) := by
  have hpopped := actor_changed (p := ⟨rt, [], writes⟩) ha fun a =>
    { a with mailbox := a.mailbox.tail }
  have hdispatch : Lands prog (dispatch prog msg) _ d (step.writes prog msg a.stateData) _ :=
    lands_dispatch hw hp hpopped he h hstep
  refine Makes.read ?_
  rw [ha, bind_some, hmsg]
  exact Makes.bind (w := []) (Makes.remember h hdispatch)

end

end Turn

/-! ## What recovery makes of the store -/

/-- The fields recovery starts from: the value that was recorded last, or the saved one of a durable
field, or the declared one. -/
def Program.resumed (prog : Program) (saved : Fields) (records : List (String × Value)) : Fields :=
  fun x =>
  ((records.reverse.lookup x).or (if (x, .durable) ∈ prog.models then saved x else none)).or
    (prog.defaults.lookup x)

section Resumed

variable {prog : Program} {f : Fields} {x : String}

/-- Only durable fields are saved. -/
theorem saved_apply : (prog.persisted f).foldl (fun f s => f.set s.1 s.2) Fields.empty x =
      if (x, .durable) ∈ prog.models then f x else none := by
  split_ifs with hx
  · exact restore_saved prog.models prog.models_nodup Fields.empty hx rfl
  · have hnone : (prog.persisted f).reverse.lookup x = none := by
      rw [lookup_eq_none_iff]
      intro r hr
      obtain ⟨m, hm, hsome⟩ := mem_filterMap.mp (mem_reverse.mp hr)
      split_ifs at hsome with hd
      obtain ⟨v, _, rfl⟩ := map_eq_some_iff.mp hsome
      have hne : x ≠ m.1 := fun h => hx (by rw [h, ← hd]; exact hm)
      simpa using hne
    rw [foldl_set_apply, hnone]
    rfl

theorem restoreFields_eq {snapshot : ActorSnapshot} (hs : snapshot.state = prog.persisted f)
    (events : List EventEntry) :
    restoreFields prog snapshot events =
      prog.resumed f (events.map fun e => (e.fieldName, e.value)) := by
  funext x
  unfold restoreFields Program.resumed
  rw [foldl_default_apply, hs, ← saved_apply, ← foldl_set_apply, foldl_map]

end Resumed

section Recovery

variable {prog : Program} {p : Process Runtime Effect} {d : Disk}

/-- The actor, with these fields, has neither a signal nor an activation. -/
structure Isolated (p : Process Runtime Effect) (f : Fields) : Prop where
  writes : p.writes = none
  actor : ∃ a, p.state.actor = some a ∧ a.stateData = f ∧ a.receivedSignals =
    [] ∧ a.currentWorkflowActivation = none

variable {f : Fields} {rt : Runtime}

theorem Isolated.changed (h : Isolated p f) {g : Actor → Actor} {f' : Fields}
    (hg : ∀ a, a.stateData = f → (g a).stateData = f' ∧ (g a).receivedSignals = a.receivedSignals ∧
      (g a).currentWorkflowActivation = a.currentWorkflowActivation) :
    Isolated (p.changed (modifyActor g)) f' := by
  obtain ⟨a, ha, hf, hs, hc⟩ := h.actor
  obtain ⟨hf', hs', hc'⟩ := hg a hf
  exact ⟨h.writes, g a, actor_changed ha g, hf', hs'.trans hs, hc'.trans hc⟩

theorem Isolated.wrote (h : Isolated p f) {g : Runtime → Runtime}
    (hg : ∀ rt, (g rt).actor = rt.actor) : Isolated (p.wrote g) f := by
  obtain ⟨a, ha, hrest⟩ := h.actor
  refine ⟨by simp [h.writes], a, ?_, hrest⟩
  rw [state_wrote, hg, ha]

/-- The routine comes to its end, and the actor has these fields then. -/
def Reruns {α : Type} (x : Routine α) (p : Process Runtime Effect) (f : Fields) : Prop :=
  x.Ends p (fun _ => False) (fun _ _ => False) fun _ q => Isolated q f

theorem Reruns.bind {α β : Type} {x : Routine α} {k : α → Routine β} {f' : Fields}
    (h : Reruns x p f) (hk : ∀ a q, Isolated q f → Reruns (k a) q f') : Reruns (x >>= k) p f' :=
  ends_bind.mpr (ends_imp h hk)

theorem ends_appendEvents_isolated (h : Isolated p f) (n : Nat) (event : String) (args : List Value)
    (names : List String) : Reruns (appendEvents n event args names) p f := by
  induction names generalizing p with
  | nil => exact h
  | cons x names ih =>
    unfold appendEvents Reruns
    rw [ends_bind, ends_read, ends_bind, ends_write_of_none h.writes]
    exact ih (h.wrote fun _ => rfl)

theorem ends_emitEvent_isolated (hw : prog.isWorkflow = false) (h : Isolated p f) (event : String)
    (args : List Value) :
    Reruns (emitEvent prog event args) p (prog.eventSourced.foldl bump f) := by
  unfold emitEvent Reruns
  rw [ends_bind, ends_read, ends_bind, ends_remember, if_neg (by simp [hw])]
  have hbumped : Isolated (p.changed (modifyActor fun a =>
      { a with stateData := prog.eventSourced.foldl bump a.stateData }))
      (prog.eventSourced.foldl bump f) :=
    h.changed fun a hf => ⟨by rw [hf], rfl, rfl⟩
  unfold emitDomainEvent when
  split_ifs with hes
  · refine (ends_appendEvents_isolated hbumped _ event args _).bind fun _ q hq => ?_
    exact hq.changed fun a hf => ⟨hf, rfl, rfl⟩
  · exact hbumped

theorem ends_timer_isolated (h : Isolated p f) (name : String) (durationMs : Nat) :
    Reruns (scheduleWorkflowTimer prog name durationMs) p f := by
  obtain ⟨a, ha, _, _, hc⟩ := h.actor
  have hid (q : Process Runtime Effect) (hq : Isolated q f) :
      Reruns (tryCheckpointActor prog) q f := by
    obtain ⟨b, hb, hrest⟩ := hq.actor
    rw [Reruns, ends_checkpoint prog (by simp [hb]), if_neg (by simp [hq.writes])]
    refine ⟨by simp [hq.writes], { b with sequence := q.state.nextSequence }, ?_, hrest⟩
    simp only [state_wrote, checkpointed, hb]
  unfold Reruns scheduleWorkflowTimer appendTimerSet currentWorkflowReplayId appendWorkflowEvent
  simp only [ends_bind, ends_read, ha, hc, ends_pure, ends_write_of_none h.writes]
  refine ends_imp (hid _ (h.wrote fun _ => rfl)) ?_
  intro _ q hq
  exact ⟨hq.writes, hq.actor⟩

section

variable (hw : prog.isWorkflow = false)
include hw

/-- Code that is run again leaves the fields it is said to leave. -/
theorem ends_run_isolated (b : Body) (h : Isolated p f) :
    Reruns (b.run prog) p (b.redone prog f) := by
  induction b generalizing p f with
  | finish => exact h
  | fail e => exact h
  | observe k ih =>
    obtain ⟨a, ha, hf, _⟩ := h.actor
    unfold Body.run Reruns
    rw [ends_bind, ends_read, fields_of_actor ha, hf]
    exact ih f h
  | assign x v k ih =>
    exact ih (h.changed fun a hf => ⟨by rw [← hf]; rfl, rfl, rfl⟩)
  | emit event args k ih =>
    unfold Body.run
    exact (ends_emitEvent_isolated hw h event args).bind fun _ _ hq => ih hq
  | timer name durationMs k ih =>
    unfold Body.run Reruns
    rw [ends_bind, ends_attempt]
    refine ends_mono (ends_timer_isolated h name durationMs) (fun _ hq => hq)
      (fun _ _ hq => hq.elim) ?_
    intro _ q hq
    exact ih hq
  | wait signal k _ =>
    obtain ⟨a, ha, _, hs, _⟩ := h.actor
    have hready : p.state.signalReady signal = false := by
      simp [signalReady, ha, Actor.signalReady, hs]
    unfold Body.run Reruns
    rw [ends_bind, ends_read, hready, if_neg Bool.false_ne_true]
    exact h

/-- A message that is run again changes the fields as its compiled code does. -/
theorem ends_reexecute (h : Isolated p f) (entry : JournalEntry) :
    Reruns (reexecute prog entry) p (prog.redo f entry.message) := by
  have hcompiled (body : Body) :
      Reruns (reexecuteCompiled prog entry body) p (body.redone prog f) := by
    refine (ends_run_isolated hw body h).bind fun outcome q hq => ?_
    cases outcome with
    | suspended signal rest =>
      apply Isolated.changed
      · apply Isolated.changed hq
        exact fun a hf => ⟨hf, rfl, rfl⟩
      · exact fun a hf => ⟨hf, rfl, rfl⟩
    | completed | failed => exact hq.changed fun a hf => ⟨hf, rfl, rfl⟩
  unfold reexecute Program.redo Step.redone message
  cases hstep : prog.steps[entry.behaviorId]? with
  | none => exact h
  | some step =>
    dsimp only
    cases hcode : step.code with
    | native handler => exact h
    | sequential body => exact hcompiled (body entry.payload)
    | parallel branches => exact hcompiled (parallelBody step.name 0 branches)

theorem ends_replayJournal (h : Isolated p f) (entries : List JournalEntry) :
    Reruns (replayJournal prog entries) p ((entries.map message).foldl prog.redo f) := by
  induction entries generalizing p f with
  | nil => exact h
  | cons entry entries ih =>
    unfold replayJournal
    exact (ends_reexecute hw h entry).bind fun _ _ hq => ih hq

/-- Recovery, by the snapshot: what was journaled after it is run again on the restored fields. -/
theorem recoverPersistent_eq {snapshot : ActorSnapshot} (hs : rt.store.snapshot = some snapshot)
    (he : snapshot.activationEpoch ≠ 0) : ∃ rt', recoverPersistent prog rt = some rt' ∧
      rt'.fields = ((rt.store.journal.filter fun e => snapshot.sequence < e.sequence).map
        message).foldl prog.redo (restoreFields prog snapshot rt.store.events) := by
  unfold recoverPersistent
  rw [hs]
  dsimp only
  rw [if_neg he]
  refine ⟨_, rfl, after_of_ends (P := fun rt' => rt'.fields = _) ?_⟩
  have hisolated :
      Isolated
      (p := ⟨{ rt with actor := some (restoreActor prog snapshot rt.store.events) }, [], none⟩)
      (restoreFields prog snapshot rt.store.events) := ⟨rfl, _, rfl, rfl, rfl, rfl⟩
  refine ends_imp (ends_replayJournal hw hisolated _) ?_
  intro _ q hq
  obtain ⟨a, ha, hf, _⟩ := hq.actor
  rw [fields_of_actor ha, hf]

/-- Recovery, by what the store holds. -/
theorem recover_disk (h : Stores prog rt.store d) {n : Nat} (hs : d.saved = some (f, n)) :
    ∃ rt', recoverPersistent prog rt = some rt' ∧
      rt'.fields = (d.journal.drop n).foldl prog.redo (prog.resumed f d.records) := by
  obtain ⟨_, snapshot, hsaved⟩ := h.saved f n hs
  obtain ⟨rt', hr, hfields⟩ := recoverPersistent_eq hw hsaved.latest hsaved.epoch
  refine ⟨rt', hr, ?_⟩
  rw [hfields, hsaved.pending, restoreFields_eq hsaved.fields, h.records]

end

theorem recover_unsaved (h : Stores prog rt.store d) (hs : d.saved = none) :
    recoverPersistent prog rt = none := by
  unfold recoverPersistent
  rw [h.unsaved hs]

end Recovery

/-! ## Runs without a crash -/

/-- The message that comes next, and its behaviour. -/
def Runtime.next (prog : Program) (rt : Runtime) : Option (Message × Step) := do
  let msg ← rt.actor.bind Actor.receive
  let step ← prog.steps[msg.behaviorId]?
  pure (msg, step)

variable {a : Actor} {msg : Message} {prog : Program} {rt : Runtime}

theorem next_eq_some (ha : rt.actor = some a) {step : Step} (h : rt.next prog = some (msg, step)) :
    a.receive = some msg ∧ prog.steps[msg.behaviorId]? = some step := by
  unfold Runtime.next at h
  rw [ha, bind_some] at h
  cases hmsg : a.receive with
  | none => simp [hmsg] at h
  | some m =>
    cases hstep : prog.steps[m.behaviorId]? with
    | none => simp [hmsg, hstep] at h
    | some s =>
      simp only [hmsg, hstep, bind_eq_bind, bind_some, Option.pure_def, some.injEq,
        Prod.mk.injEq] at h
      obtain ⟨rfl, rfl⟩ := h
      exact ⟨rfl, hstep⟩

theorem next_eq_none (ha : rt.actor = some a) (hmsg : a.receive = some msg)
    (h : rt.next prog = none) : prog.steps[msg.behaviorId]? = none := by
  unfold Runtime.next at h
  rw [ha, bind_some, hmsg] at h
  cases hstep : prog.steps[msg.behaviorId]? with
  | none => rfl
  | some step => simp [hstep] at h

section Live

variable {d : Disk} {init : List (String × Value)}

/-- Without a message that has a behaviour, a turn does nothing but drop it. -/
theorem after_idle (hw : prog.isWorkflow = false) (hnext : rt.next prog = none)
    (ha : rt.actor = some a) (writes : Option Nat) :
    ∃ c, rt.after (stepActor prog) writes = { rt with actor := some c } ∧
      Carries { a with mailbox := c.mailbox } c a.stateData ∧
      ∀ msg, a.receive = some msg → c.mailbox = a.mailbox.tail := by
  let P : Process Runtime Effect → Prop := fun q => ∃ c, q.state = { rt with actor := some c } ∧
    Carries { a with mailbox := c.mailbox } c a.stateData ∧ ∀ msg, a.receive = some msg →
    c.mailbox = a.mailbox.tail
  suffices h : (stepActor prog).Ends ⟨rt, [], writes⟩ P (fun _ => P) (fun _ => P) from ends_all.mp h
  unfold stepActor
  rw [ends_bind, ends_read, ha, bind_some]
  cases hmsg : a.receive with
  | none =>
    refine ⟨a, ?_, ⟨rfl, rfl, rfl, rfl⟩, fun msg hm => (by rw [hmsg] at hm; cases hm)⟩
    rw [← ha]
  | some msg =>
    unfold dispatch finishTurn
    rw [ends_bind, ends_remember, next_eq_none ha hmsg hnext]
    rw [if_neg (by simp [hw]), ends_remember]
    refine ⟨{ a with mailbox := a.mailbox.tail, currentWorkflowActivation := none }, ?_,
      ⟨rfl, rfl, rfl, rfl⟩,
      fun _ _ => rfl⟩
    simp only [state_changed, modifyActor, ha, map_some]

/-- What holds of an actor that has not crashed: its fields are what the journaled messages have
made of them, and the last checkpoint is of these fields. -/
structure Live (prog : Program) (init : List (String × Value)) (rt : Runtime) (d : Disk)
    (a : Actor) : Prop where
  actor : rt.actor = some a
  epoch : a.activationEpoch ≠ 0
  awake : a.suspendedExecution = none
  stores : Stores prog rt.store d
  fields : a.stateData = d.journal.foldl prog.handle (prog.initial init)
  saved : d.saved = if d.journal = [] then none else some (a.stateData, d.journal.length)

theorem live_spawn :
    Live prog init (spawnPersistent prog init) ⟨none, [], []⟩ (freshActor (prog.initial init)) where
  actor := rfl
  epoch := Nat.one_ne_zero
  awake := rfl
  stores := ⟨rfl, rfl, fun e he => (by cases he), fun _ => rfl, fun f n hs => (by cases hs)⟩
  fields := rfl
  saved := rfl

theorem Live.deliver (h : Live prog init rt d a) (msg : Message) :
    Live prog init (rt.after (deliver msg) none) d { a with mailbox := a.mailbox ++ [msg] } where
  actor := by
    show rt.actor.map _ = _
    rw [h.actor]
    rfl
  epoch := h.epoch
  awake := h.awake
  stores := h.stores
  fields := h.fields
  saved := h.saved

section

variable (hw : prog.isWorkflow = false)
include hw

theorem Live.turn (hp : prog.Plain) (h : Live prog init rt d a) {msg : Message} {step : Step}
    (hnext : rt.next prog = some (msg, step)) :
    ∃ d' c, Live prog init (rt.after (stepActor prog) none) d' c ∧ d'.journal = d.journal ++ [msg] ∧
      c.stateData = prog.handle a.stateData msg ∧ c.mailbox = a.mailbox.tail := by
  obtain ⟨hmsg, hstep⟩ := next_eq_some h.actor hnext
  have hlands := lands_turn hw hp h.actor h.epoch hmsg hstep h.stores none
  obtain ⟨hstores, _, c, hc, hcarries⟩ := hlands.done
  have hhandle := outcome_eq_handle hstep a.stateData
  have hdisk := land_turn prog step msg a.stateData d
  rw [hhandle] at hcarries hdisk
  rw [hdisk] at hstores
  refine ⟨_, c, ⟨hc, ?_, ?_, hstores, ?_, ?_⟩, rfl, hcarries.fields, hcarries.mailbox⟩
  · rw [hcarries.epoch]
    exact h.epoch
  · rw [hcarries.awake]
    exact h.awake
  · rw [hcarries.fields, foldl_append, ← h.fields]
    rfl
  · simp [hcarries.fields]

theorem Live.idle (h : Live prog init rt d a) (hnext : rt.next prog = none) :
    ∃ c, Live prog init (rt.after (stepActor prog) none) d c ∧ c.stateData = a.stateData ∧
      ∀ msg, a.receive = some msg → c.mailbox = a.mailbox.tail := by
  obtain ⟨c, hafter, hcarries, hmailbox⟩ := after_idle hw hnext h.actor none
  refine ⟨c, ?_, hcarries.fields, hmailbox⟩
  rw [hafter]
  exact ⟨rfl, hcarries.epoch ▸ h.epoch, hcarries.awake.trans h.awake, h.stores,
    hcarries.fields.trans h.fields,
    hcarries.fields ▸ h.saved⟩

theorem Lives.live (hp : prog.Plain) (h : Lives prog init rt) : ∃ d a, Live prog init rt d a := by
  induction h with
  | spawn => exact ⟨_, _, live_spawn⟩
  | send _ msg ih =>
    obtain ⟨d, a, hlive⟩ := ih
    exact ⟨_, _, hlive.deliver msg⟩
  | @turn rt _ ih =>
    obtain ⟨d, a, hlive⟩ := ih
    cases hnext : rt.next prog with
    | none =>
      obtain ⟨c, hlive', _⟩ := hlive.idle hw hnext
      exact ⟨d, c, hlive'⟩
    | some next =>
      obtain ⟨d', c, hlive', _⟩ := hlive.turn hw hp hnext
      exact ⟨d', c, hlive'⟩

/-- The run over these messages comes to what the messages make of the fields. -/
theorem fields_uncrashed (hp : prog.Plain) (messages : List Message) :
    (uncrashed prog init messages).fields = messages.foldl prog.handle (prog.initial init) := by
  have hrun (messages : List Message) (rt : Runtime) (d : Disk) (a : Actor)
      (h : Live prog init rt d a)
      (hempty : a.mailbox = []) :
      (messages.foldl
        (fun rt msg => (rt.after (deliver msg) none).after (stepActor prog) none) rt).fields
        = messages.foldl prog.handle a.stateData := by
    induction messages generalizing rt d a with
    | nil =>
      exact fields_of_actor h.actor
    | cons msg messages ih =>
      rw [foldl_cons, foldl_cons]
      have hsent := h.deliver msg
      have hreceive : ({ a with mailbox := a.mailbox ++ [msg] } : Actor).receive = some msg := by
        rw [h.awake, hempty]
        rfl
      have htail : ({ a with mailbox := a.mailbox ++ [msg] } : Actor).mailbox.tail = [] := by
        rw [hempty]
        rfl
      cases hnext : (rt.after (deliver msg) none).next prog with
      | none =>
        obtain ⟨c, hlive, hfields, hmailbox⟩ := hsent.idle hw hnext
        have hhandle : prog.handle a.stateData msg = a.stateData := by
          unfold Program.handle
          rw [next_eq_none hsent.actor hreceive hnext]
        rw [hhandle, ← hfields]
        exact ih _ _ _ hlive ((hmailbox msg hreceive).trans htail)
      | some next =>
        obtain ⟨d', c, hlive, _, hfields, hmailbox⟩ := hsent.turn hw hp hnext
        have hmsg := (next_eq_some hsent.actor hnext).1
        rw [hreceive] at hmsg
        rw [← some.inj hmsg] at hfields
        rw [← hfields]
        exact ih _ _ _ hlive (hmailbox.trans htail)
  exact hrun messages _ _ _ (live_spawn) rfl

end

end Live

/-! ## Crashes -/

/-- The durable and event-sourced fields agree. -/
def Program.Agree (prog : Program) (f g : Fields) : Prop :=
  ∀ m ∈ prog.models, m.2 ≠ .localState → f m.1 = g m.1

theorem Program.Agree.symm {prog : Program} {f g : Fields} (h : prog.Agree f g) : prog.Agree g f :=
  fun m hm hl => (h m hm hl).symm

theorem Program.Agree.trans {prog : Program} {f g k : Fields} (h : prog.Agree f g)
    (h' : prog.Agree g k) :
    prog.Agree f k :=
  fun m hm hl => (h m hm hl).trans (h' m hm hl)

/-- When a crash after `k` writes of the next turn does no harm. Before the turn and after it, the
last recorded value of every event-sourced field has to be its value; inside of it, what recovery
runs again of the behaviour has to come to the same from what recovery starts with; and before the
first checkpoint there is no recovery. -/
def CrashSafe (prog : Program) (rt : Runtime) (k : Nat) : Prop :=
  let f := rt.fields
  let recorded := rt.store.events.map fun e => (e.fieldName, e.value)
  match rt.next prog with
  | none => rt.store.journal ≠ [] ∧ prog.Agree (prog.resumed f recorded) f
  | some (msg, step) =>
    let new := step.records prog msg.payload f
    if k = 0 then rt.store.journal ≠ [] ∧ prog.Agree (prog.resumed f recorded) f
    else if k ≤ new.length + 1 then
      rt.store.journal ≠ [] ∧ prog.Agree
        (step.redone prog msg.payload (prog.resumed f (recorded ++ new.take (k - 1))))
        (step.outcome prog msg.payload f)
    else
      prog.Agree (prog.resumed (step.outcome prog msg.payload f) (recorded ++ new))
      (step.outcome prog msg.payload f)

/-- The actor is recovered, with the fields of an uncrashed run over the messages the journal
has. -/
def RecoversTo (prog : Program) (init : List (String × Value)) (rt : Runtime) : Prop :=
  ∃ rt', recoverPersistent prog rt.crash = some rt' ∧
    prog.Agree rt'.fields (uncrashed prog init (rt.store.journal.map message)).fields

section Crash

variable {d : Disk} {init : List (String × Value)}

theorem recoversTo_iff (hw : prog.isWorkflow = false) (hp : prog.Plain) (h : Stores prog rt.store d)
    {f : Fields} {n : Nat} (hs : d.saved = some (f, n)) :
    RecoversTo prog init rt ↔
      prog.Agree ((d.journal.drop n).foldl prog.redo (prog.resumed f d.records))
      (d.journal.foldl prog.handle (prog.initial init)) := by
  have hstores : Stores prog rt.crash.store d := h
  obtain ⟨rt', hr, hfields⟩ := recover_disk hw hstores hs
  unfold RecoversTo
  rw [h.journal, fields_uncrashed hw hp, hr]
  constructor
  · rintro ⟨_, ⟨⟩, ha⟩
    rw [← hfields]
    exact ha
  · intro ha
    refine ⟨rt', rfl, ?_⟩
    rw [hfields]
    exact ha

theorem not_recoversTo (h : Stores prog rt.store d) (hs : d.saved = none) :
    ¬ RecoversTo prog init rt := by
  rintro ⟨rt', hr, _⟩
  have hstores : Stores prog rt.crash.store d := h
  rw [recover_unsaved hstores hs] at hr
  cases hr

variable {cut : Runtime}

theorem recoversTo_unsaved {d' : Disk} (hw : prog.isWorkflow = false) (hp : prog.Plain)
    (h : Live prog init rt d a) (hstores : Stores prog cut.store d') (hsaved : d'.saved = d.saved) :
    RecoversTo prog init cut ↔ rt.store.journal ≠ [] ∧
      prog.Agree
        ((d'.journal.drop d.journal.length).foldl prog.redo (prog.resumed a.stateData d'.records))
        (d'.journal.foldl prog.handle (prog.initial init)) := by
  have hjournal : rt.store.journal = [] ↔ d.journal = [] := by
    rw [← h.stores.journal, map_eq_nil_iff]
  rw [ne_eq, hjournal]
  by_cases hempty : d.journal = []
  · have hnone : d'.saved = none := by
      rw [hsaved, h.saved, if_pos hempty]
    constructor
    · intro hr
      exact absurd hr (not_recoversTo hstores hnone)
    · exact fun hr => absurd hempty hr.1
  · have hsome : d'.saved = some (a.stateData, d.journal.length) := by
      rw [hsaved, h.saved, if_neg hempty]
    rw [recoversTo_iff hw hp hstores hsome, and_iff_right hempty]

theorem recoversTo_between (hw : prog.isWorkflow = false) (hp : prog.Plain)
    (h : Live prog init rt d a) (hstores : Stores prog cut.store d) :
    RecoversTo prog init cut ↔ rt.store.journal ≠ [] ∧
      prog.Agree (prog.resumed a.stateData (rt.store.events.map fun e => (e.fieldName, e.value)))
        a.stateData := by
  rw [recoversTo_unsaved hw hp h hstores rfl, h.stores.records, drop_length, ← h.fields]
  rfl

theorem recoversTo_inside (hw : prog.isWorkflow = false) (hp : prog.Plain)
    (h : Live prog init rt d a) {msg : Message} {new : List (String × Value)}
    (hstores : Stores prog cut.store
      { d with journal := d.journal ++ [msg], records := d.records ++ new }) :
    RecoversTo prog init cut ↔ rt.store.journal ≠
      [] ∧ prog.Agree (prog.redo (prog.resumed a.stateData
        ((rt.store.events.map fun e => (e.fieldName, e.value)) ++ new)) msg)
        (prog.handle a.stateData msg) := by
  rw [recoversTo_unsaved hw hp h hstores rfl, h.stores.records, drop_left, foldl_append, ← h.fields]
  rfl

/-- The fields after a recovery are those of an uncrashed run over the journaled messages exactly if
the crash does no harm. -/
theorem recovery_agrees_iff (hw : prog.isWorkflow = false) (hp : prog.Plain)
    (h : Lives prog init rt) (k : Nat) :
    RecoversTo prog init (rt.after (stepActor prog) (some k)) ↔ CrashSafe prog rt k := by
  obtain ⟨d, a, hlive⟩ := h.live hw hp
  unfold CrashSafe
  rw [fields_of_actor hlive.actor]
  cases hnext : rt.next prog with
  | none =>
    obtain ⟨c, hafter, _⟩ := after_idle hw hnext hlive.actor (some k)
    rw [hafter]
    exact recoversTo_between hw hp hlive hlive.stores
  | some next =>
    obtain ⟨msg, step⟩ := next
    obtain ⟨hmsg, hstep⟩ := next_eq_some hlive.actor hnext
    have hhandle := outcome_eq_handle hstep
    have hredo (f : Fields) : step.redone prog msg.payload f = prog.redo f msg := by
      unfold Program.redo
      rw [hstep]
    have hcut : Stores prog (rt.after (stepActor prog) (some k)).store
        (((step.writes prog msg a.stateData).take k).foldl Disk.land d) :=
      (lands_turn hw hp hlive.actor hlive.epoch hmsg hstep hlive.stores (some k)).cut
    dsimp only
    split_ifs with hzero hinside
    · -- nothing has been written
      subst hzero
      exact recoversTo_between hw hp hlive hcut
    · -- the message is journaled, and so many values are recorded
      obtain ⟨n, rfl⟩ := Nat.exists_eq_succ_of_ne_zero hzero
      rw [land_cut step msg a.stateData (Nat.le_of_succ_le_succ hinside)] at hcut
      rw [hredo, hhandle]
      exact recoversTo_inside hw hp hlive hcut
    · -- the turn is complete
      rw [take_writes hinside, land_turn] at hcut
      rw [recoversTo_iff hw hp hcut rfl, hlive.stores.records]
      have hdrop : (d.journal ++ [msg]).drop (d.journal.length + 1) = [] := by simp
      rw [hdrop, foldl_append, ← hlive.fields, hhandle]
      rfl

end Crash

/-- An actor that counts: the event counts the hits, and the behaviour their total. -/
def tally : Program where
  isWorkflow := false
  models := [("total", .durable), ("hits", .eventSourced)]
  models_nodup := by decide
  defaults := [("total", .int 0), ("hits", .int 0)]
  steps := [⟨"hit", .sequential fun _ => .emit "hit" [] <| .observe fun f =>
    .assign "total" (.int ((f.int? "total").getD 0 + 1)) .finish, none⟩]

theorem plain_tally : tally.Plain := by
  intro step hs
  rw [mem_singleton.mp hs]
  exact .inr ⟨_, rfl, fun _ => .emit (.observe fun _ => .assign .finish)⟩

def tallySent : Runtime :=
  (((spawnPersistent tally []).after (deliver ⟨0, []⟩) none).after (stepActor tally) none).after
    (deliver ⟨0, []⟩) none

/-- Before the event is recorded, a crash does no harm. -/
theorem recovery_agrees_journaled :
    RecoversTo tally [] (tallySent.after (stepActor tally) (some 1)) ↔
      CrashSafe tally tallySent 1 :=
  recovery_agrees_iff rfl plain_tally (.send (.turn (.send .spawn ⟨0, []⟩)) ⟨0, []⟩) 1

/-- An event that was recorded before the crash is counted twice. -/
theorem event_counted_twice :
    ∃ rt', recoverPersistent tally (tallySent.after (stepActor tally) (some 2)).crash = some rt' ∧
      rt'.fields "hits" = some (.int 3) ∧
      (uncrashed tally [] ((tallySent.after (stepActor tally) (some 2)).store.journal.map
        message)).fields "hits" = some (.int 2) :=
  ⟨_, rfl, by decide +kernel, by decide +kernel⟩

end Nulang.Persist

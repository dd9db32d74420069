import Nulang.Grain
import Nulang.PersistentActor

/-!
# The state of a virtual actor

A grain is put to sleep with a checkpoint, thrown out of memory, and brought back by the next
message; a restart of the runtime throws it out, too, wherever it is. Hydration starts from the
declared values and the snapshot and runs again what was journaled after it. It reads no recorded
events, and without a snapshot it runs nothing again. So a grain that comes back has the declared
values in its event-sourced fields, and a message whose turn was cut short before the first
checkpoint is forgotten.

A run stays invisible exactly as long as these things make no difference (`invisible_iff`): what a
step does to what the next message sees is decided by the fields before the step.
-/

set_option autoImplicit false

namespace Nulang.Persist

open Fields Runtime List Option Handler

/-! ## Grains -/

/-- The behaviours of a grain are compiled code. -/
def Program.Scripted (prog : Program) : Prop :=
  ∀ step ∈ prog.steps, ∃ body, step.code = .sequential body ∧
    ∀ payload, Persist.Plain (body payload)

/-- What a behaviour makes of the durable and event-sourced fields depends on them and on the
message only. -/
def Program.Deterministic (prog : Program) : Prop :=
  ∀ f g msg, prog.Agree f g → prog.Agree (prog.handle f msg) (prog.handle g msg)

/-- A grain: its store, its actor while it is in memory, whether the actor sleeps, and whether it
has been checkpointed since it is in memory. -/
structure Grain where
  rt : Runtime
  hibernated : Bool
  checkpointed : Bool

/-- `resolve_or_hydrate_grain`, for a grain that is not in memory. -/
def hydrateGrain (prog : Program) (rt : Runtime) : Option Runtime :=
  match rt.store.snapshot with
  | none => some { rt with actor := some (freshActor (prog.initial [])) }
  | some snapshot =>
    if snapshot.activationEpoch = 0 then none
    else
      let pending := rt.store.journal.filter fun entry => snapshot.sequence < entry.sequence
      some (Runtime.after { rt with actor := some (restoreActor prog snapshot []) }
      (replayJournal prog pending) none)

namespace Grain

variable (prog : Program) (g : Grain)

/-- The grain as the next message finds it. -/
def resident : Grain :=
  match g.rt.actor with
  | some _ => g
  | none =>
    match hydrateGrain prog g.rt with
    | none => g
    | some rt => ⟨rt, false, false⟩

def send (msg : Message) : Grain :=
  let g := g.resident prog
  { g with rt := g.rt.after (deliver msg) none, hibernated := false }

def turn : Grain :=
  { g with
    rt := g.rt.after (stepActor prog) none
    checkpointed := g.checkpointed || (g.rt.next prog).isSome }

/-- `dehydrate_idle_grains`, when the grain has idled long enough. -/
def dehydrate : Grain :=
  match g.rt.actor with
  | none => g
  | some a =>
    if g.hibernated ∨ a.suspendedExecution.isSome ∨ a.mailbox ≠ [] then g
    else ⟨g.rt.after (tryCheckpointActor prog) none, true, true⟩

/-- `evict_hibernated_grains`. -/
def evict : Grain :=
  match g.rt.actor with
  | none => g
  | some a =>
    if g.hibernated ∧ a.mailbox = [] then ⟨{ g.rt with actor := none }, false, false⟩ else g

/-- The runtime is restarted after so many writes of the next turn. -/
def restart (k : Nat) : Grain := ⟨(g.rt.after (stepActor prog) (some k)).crash, false, false⟩

end Grain

inductive GrainOp where
  | send (msg : Message)
  | turn
  | dehydrate
  | evict
  | restart (k : Nat)

def Grain.step (prog : Program) (g : Grain) : GrainOp → Grain
  | .send msg => g.send prog msg
  | .turn => g.turn prog
  | .dehydrate => g.dehydrate prog
  | .evict => g.evict
  | .restart k => g.restart prog k

def Grain.unborn : Grain := ⟨⟨.empty, none, []⟩, false, false⟩

/-- The next message sees what it would see in a grain that was never put to sleep, thrown out or
restarted. -/
def Grain.Invisible (prog : Program) (g : Grain) : Prop :=
  prog.Agree (g.resident prog).rt.fields
    (uncrashed prog [] (g.rt.store.journal.map JournalEntry.message)).fields

/-- The fields come back: those that are not saved have their declared values. -/
def Program.Returns (prog : Program) (f : Fields) : Prop := prog.Agree (prog.resumed f []) f

/-- A restart after `k` writes of the next turn makes no difference. A grain that has been
checkpointed since it is in memory has to come back, from the fields before the turn with the
message run again, or from those after it. One that has not is rebuilt as it was, but without a
snapshot the message is not run again. -/
def Grain.RestartSafe (prog : Program) (g : Grain) (k : Nat) : Prop :=
  let f := g.rt.fields
  match g.rt.next prog with
  | none => g.checkpointed = true → prog.Returns f
  | some (msg, step) =>
    if k = 0 then g.checkpointed = true → prog.Returns f
    else if k ≤ (step.records prog msg.payload f).length + 1 then
      if g.checkpointed then prog.Agree (prog.handle (prog.resumed f []) msg) (prog.handle f msg)
      else g.rt.store.snapshot = none → prog.Agree f (prog.handle f msg)
    else prog.Returns (prog.handle f msg)

def Grain.Safe (prog : Program) (g : Grain) : GrainOp → Prop
  | .send _ | .turn | .dehydrate => True
  | .evict =>
    ∀ a, g.rt.actor = some a → g.hibernated = true ∧ a.mailbox = [] → prog.Returns a.stateData
  | .restart k => g.rt.actor ≠ none → g.RestartSafe prog k

/-- The grains of runs whose steps make no difference. -/
inductive SafeRun (prog : Program) : Grain → Prop where
  | start : SafeRun prog .unborn
  | step {g : Grain} (h : SafeRun prog g) (op : GrainOp) (hs : g.Safe prog op) :
      SafeRun prog (g.step prog op)

section Hydration

variable {prog : Program} {d : Disk} {p : Process Runtime Effect}

theorem Program.Scripted.plain (hc : prog.Scripted) : prog.Plain := fun step hs => .inr (hc step hs)

/-- The fields hydration makes of the store. -/
def Disk.rebuilt (prog : Program) (d : Disk) : Fields :=
  match d.saved with
  | none => prog.initial []
  | some (f, n) => (d.journal.drop n).foldl prog.handle (prog.resumed f [])

/-- An actor that is ready for the next message, with these fields. -/
structure Ready (a : Actor) (f : Fields) : Prop where
  fields : a.stateData = f
  epoch : a.activationEpoch ≠ 0
  awake : a.suspendedExecution = none

theorem Ready.carried {a c : Actor} {f f' : Fields} {mailbox : List Message} (h : Ready a f)
    (hc : Carries { a with mailbox := mailbox } c f') : Ready c c.stateData :=
  ⟨rfl, hc.epoch ▸ h.epoch, hc.awake.trans h.awake⟩

/-- The journal is being run again: nothing but records is added to the store. -/
structure Replaying (prog : Program) (d : Disk) (p : Process Runtime Effect) (f : Fields) :
    Prop where
  writes : p.writes = none
  actor : ∃ a, p.state.actor = some a ∧ Ready a f
  store : ∃ d', Stores prog p.state.store d' ∧ d'.journal = d.journal ∧ d'.saved = d.saved

variable {f : Fields}

theorem ends_reexecute_replaying (hw : prog.isWorkflow = false) (hc : prog.Scripted)
    (h : Replaying prog d p f) (entry : JournalEntry) :
    (reexecute prog entry).Ends p (fun _ => False) (fun _ _ => False) fun _ q =>
      Replaying prog d q (prog.handle f entry.message) := by
  obtain ⟨a, ha, rfl, hepoch, hawake⟩ := h.actor
  obtain ⟨d', hstores, hjournal, hsaved⟩ := h.store
  unfold reexecute Program.handle Step.outcome JournalEntry.message
  cases hstep : prog.steps[entry.behaviorId]? with
  | none => exact h
  | some step =>
    obtain ⟨body, hcode, hplain⟩ := hc step (mem_of_getElem? hstep)
    simp only [hcode]
    unfold reexecuteCompiled
    rw [ends_bind]
    have hbody := (lands_body hw (hplain entry.payload) ha hstores).unbroken h.writes
    refine ends_imp hbody ?_
    rintro outcome q ⟨hq, hland, hends, c, hcactor, hcarries⟩
    rw [land_records] at hland
    have hkeep : keepSuspended prog entry.behaviorId outcome = pure () := by
      cases outcome with
      | suspended signal rest => exact absurd rfl (hends signal rest)
      | completed => rfl
      | failed e => rfl
    rw [ends_bind, hkeep, ends_pure, ends_remember]
    refine ⟨hq, ⟨{ c with sequence := entry.sequence }, ?_, hcarries.fields, ?_, ?_⟩, _, hland,
      hjournal, hsaved⟩
    · simp only [Process.state_changed, modifyActor, hcactor, map_some]
    · show c.activationEpoch ≠ 0
      rw [hcarries.epoch]
      exact hepoch
    · exact hcarries.awake.trans hawake

theorem ends_replayJournal_replaying (hw : prog.isWorkflow = false) (hc : prog.Scripted)
    (h : Replaying prog d p f) (entries : List JournalEntry) :
    (replayJournal prog entries).Ends p (fun _ => False) (fun _ _ => False) fun _ q =>
      Replaying prog d q ((entries.map JournalEntry.message).foldl prog.handle f) := by
  induction entries generalizing p f with
  | nil => exact h
  | cons entry entries ih =>
    unfold replayJournal
    rw [ends_bind]
    refine ends_imp (ends_reexecute_replaying hw hc h entry) ?_
    intro _ q hq
    exact ih hq

theorem hydrate_stores (hw : prog.isWorkflow = false) (hc : prog.Scripted) {rt : Runtime}
    (h : Stores prog rt.store d) :
    ∃ rt' a d', hydrateGrain prog rt = some rt' ∧ rt'.actor = some a ∧ Ready a (d.rebuilt prog) ∧
      Stores prog rt'.store d' ∧ d'.journal = d.journal ∧ d'.saved = d.saved := by
  unfold hydrateGrain Disk.rebuilt
  cases hs : d.saved with
  | none =>
    rw [h.unsaved hs]
    exact ⟨_, _, d, rfl, rfl, ⟨rfl, Nat.one_ne_zero, rfl⟩, h, rfl, hs⟩
  | some saved =>
    obtain ⟨f, n⟩ := saved
    obtain ⟨_, snapshot, hsaved⟩ := h.saved f n hs
    rw [hsaved.latest]
    dsimp only
    rw [if_neg hsaved.epoch]
    have hstart :
        Replaying prog d ⟨{ rt with actor := some (restoreActor prog snapshot []) }, [], none⟩
        (restoreFields prog snapshot []) := ⟨rfl, ⟨_, rfl, rfl, hsaved.epoch, rfl⟩, d, h, rfl, rfl⟩
    -- The messages above the snapshot are handled again: records may be added, but no message.
    have hends := ends_replayJournal_replaying hw hc hstart
      (rt.store.journal.filter fun e => snapshot.sequence < e.sequence)
    rw [hsaved.pending, restoreFields_eq hsaved.fields] at hends
    have hdone : ∃ a d',
        (Runtime.after { rt with actor := some (restoreActor prog snapshot []) } (replayJournal prog
        (rt.store.journal.filter fun e => snapshot.sequence < e.sequence)) none).actor = some a ∧
        Ready a ((d.journal.drop n).foldl prog.handle (prog.resumed f [])) ∧
        Stores prog
        (Runtime.after { rt with actor := some (restoreActor prog snapshot []) } (replayJournal prog
          (rt.store.journal.filter fun e => snapshot.sequence < e.sequence)) none).store d' ∧
        d'.journal = d.journal ∧ d'.saved = d.saved := by
      refine after_of_ends (P := fun rt' => ∃ a d', rt'.actor = some a ∧ Ready a _ ∧
        Stores prog rt'.store d' ∧
        d'.journal = d.journal ∧ d'.saved = d.saved) ?_
      refine ends_imp hends ?_
      intro _ q hq
      obtain ⟨a, ha, hready⟩ := hq.actor
      obtain ⟨d', hd'⟩ := hq.store
      exact ⟨a, d', ha, hready, hd'⟩
    obtain ⟨a, d', ha, hready, hstores, hjournal, hsaved'⟩ := hdone
    exact ⟨_, a, d', rfl, ha, hready, hstores, hjournal, hsaved'.trans hs⟩

end Hydration

/-! ## The grain among the others

`Nulang.Grain` has the same hydration for all grains of a runtime, without what is in their stores.
-/

/-- The runtime of all grains shows this one: whether it is in memory, and the epochs of its actor
and of its snapshot. -/
structure Shows (all : Nulang.Grain.Runtime) (id : Nulang.Grain.GrainId) (rt : Runtime) : Prop where
  actor : (all.actors id.actorId).map (·.activationEpoch) = rt.actor.map (·.activationEpoch)
  snapshot : all.snapshots id.actorId =
    rt.store.snapshot.map fun s => ⟨s.activationEpoch, some id.grainType, none⟩

/-- The snapshot and the epoch of the actor stay as they are. -/
def KeepsEpochs (p q : Process Runtime Effect) : Prop :=
  q.state.store.snapshot = p.state.store.snapshot ∧
    q.state.actor.map (·.activationEpoch) = p.state.actor.map (·.activationEpoch)

instance : Std.Refl KeepsEpochs := ⟨fun _ => ⟨rfl, rfl⟩⟩

instance : IsTrans (Process Runtime Effect) KeepsEpochs :=
  ⟨fun _ _ _ h g => ⟨g.1.trans h.1, g.2.trans h.2⟩⟩

section Epochs

variable {prog : Program}

theorem keepsEpochs_memory {f : Actor → Actor}
    (hf : ∀ a, (f a).activationEpoch = a.activationEpoch) :
    Always (ε := IoError) KeepsEpochs (Handler.remember (modifyActor f)) := by
  refine Always.remember fun p => ⟨rfl, ?_⟩
  show (p.state.actor.map f).map _ = _
  rw [Option.map_map]
  exact congrArg (p.state.actor.map ·) (funext hf)

theorem keepsEpochs_appendEvents (n : Nat) (event : String) (args : List Value)
    (names : List String) :
    (appendEvents n event args names).Always KeepsEpochs := by
  induction names with
  | nil => exact Always.pure _
  | cons x names ih =>
    exact Always.read fun p => ((Always.write fun _ => ⟨rfl, rfl⟩).bind fun _ => ih) p

theorem keepsEpochs_emit (hw : prog.isWorkflow = false) (event : String) (args : List Value) :
    (emitEvent prog event args).Always KeepsEpochs := by
  refine Always.read fun p => Always.bind (keepsEpochs_memory ?_) (fun _ => ?_) p
  · exact fun _ => rfl
  rw [if_neg (by simp [hw])]
  refine Always.when fun _ => Always.bind (keepsEpochs_appendEvents _ _ _ _) fun _ =>
    keepsEpochs_memory ?_
  exact fun _ => rfl

theorem keepsEpochs_body (hw : prog.isWorkflow = false) {b : Body} (hb : Plain b) :
    (b.run prog).Always KeepsEpochs := by
  induction hb with
  | finish | fail => exact Always.pure _
  | observe _ ih => exact Always.read fun p => ih _ p
  | assign _ ih =>
    refine Always.bind (keepsEpochs_memory ?_) fun _ => ih
    exact fun _ => rfl
  | emit _ ih => exact (keepsEpochs_emit hw _ _).bind fun _ => ih

theorem keepsEpochs_reexecute (hw : prog.isWorkflow = false) (hc : prog.Scripted)
    (entry : JournalEntry) :
    (reexecute prog entry).Always KeepsEpochs := by
  unfold reexecute
  cases hstep : prog.steps[entry.behaviorId]? with
  | none => exact Always.pure _
  | some step =>
    obtain ⟨body, hcode, hplain⟩ := hc step (mem_of_getElem? hstep)
    simp only [hcode]
    refine (keepsEpochs_body hw (hplain entry.payload)).bind fun outcome => ?_
    refine Always.bind ?_ fun _ => keepsEpochs_memory fun _ => rfl
    cases outcome with
    | suspended signal rest => exact keepsEpochs_memory fun _ => rfl
    | completed | failed => exact Always.pure _

theorem keepsEpochs_replayJournal (hw : prog.isWorkflow = false) (hc : prog.Scripted)
    (entries : List JournalEntry) : (replayJournal prog entries).Always KeepsEpochs := by
  induction entries with
  | nil => exact Always.pure _
  | cons entry entries ih => exact (keepsEpochs_reexecute hw hc entry).bind fun _ => ih

variable {all : Nulang.Grain.Runtime} {id : Nulang.Grain.GrainId} {rt : Runtime}
  {t : Nulang.Grain.GrainType} {m : Nulang.Grain.ActorMeta}

/-- The two models of hydration agree on a grain whose type has its schema: a snapshot that one
refuses the other refuses, and else the grain is in memory in both, with the same epoch. -/
theorem resolveOrHydrateGrain_shows (hw : prog.isWorkflow = false) (hc : prog.Scripted)
    (hshows : Shows all id rt) (hgone : all.grainResidents id = none)
    (htype : all.grainRegistry id.grainType = some t)
    (hschema : t.resolveExpected (some id.grainType) id.grainType = .ok m)
    (hrole : m.role = .ok ()) :
    (hydrateGrain prog rt).elim
      (∃ e, all.resolveOrHydrateGrain id true = (.error e, all))
      fun rt' => ∃ all', all.resolveOrHydrateGrain id true = (.ok id.actorId, all') ∧
        all'.grainResidents id = some id.actorId ∧ Shows all' id rt' := by
  have hsettled (a : Nulang.Grain.GrainActor) (rt' : Runtime) (hepoch :
      rt'.actor.map (·.activationEpoch) = some a.activationEpoch)
      (hsnapshot : rt'.store.snapshot = rt.store.snapshot) :
      (all.settle id a).grainResidents id = some id.actorId ∧ Shows (all.settle id a) id rt' := by
    refine ⟨Function.update_self .., ?_, ?_⟩
    · simp only [Nulang.Grain.Runtime.settle, Function.update_self, map_some, hepoch]
    · rw [hsnapshot]
      exact hshows.snapshot
  have houtlives (all' : Nulang.Grain.Runtime) : all'.replayed id true = all' := if_neg (by simp)
  unfold hydrateGrain Nulang.Grain.Runtime.resolveOrHydrateGrain Nulang.Grain.Runtime.hydrated
  simp only [hgone, htype, hshows.snapshot, houtlives]
  cases hs : rt.store.snapshot with
  | none => exact ⟨_, rfl, hsettled _ _ rfl rfl⟩
  | some snapshot =>
    simp only [map_some, Nulang.Grain.restoreActorFromSnapshot, hschema, hrole]
    by_cases hzero : snapshot.activationEpoch = 0
    · simp [hzero]
    · have hkeeps := (keepsEpochs_replayJournal hw hc (rt.store.journal.filter fun entry =>
        snapshot.sequence < entry.sequence)).exec
          ⟨{ rt with actor := some (restoreActor prog snapshot []) }, [], none⟩
      simp only [if_neg hzero, elim_some]
      exact ⟨_, rfl, hsettled _ _ hkeeps.2 hkeeps.1⟩

end Epochs

/-! ## Runs -/

/-- The fields of a grain that was never disturbed. -/
def Disk.undisturbed (prog : Program) (d : Disk) : Fields :=
  d.journal.foldl prog.handle (prog.initial [])

/-- What holds in a run whose steps make no difference. -/
structure Tracked (prog : Program) (g : Grain) (d : Disk) : Prop where
  stores : Stores prog g.rt.store d
  ready : ∀ a, g.rt.actor = some a → Ready a a.stateData
  agrees : ∀ a, g.rt.actor = some a → prog.Agree a.stateData (d.undisturbed prog)
  saved : ∀ a, g.rt.actor = some a → g.checkpointed = true →
    d.saved = some (a.stateData, d.journal.length)
  unsaved : ∀ a, g.rt.actor = some a → g.checkpointed = false → a.stateData = d.rebuilt prog
  asleep : g.hibernated = true → g.checkpointed = true
  gone : g.rt.actor = none → prog.Agree (d.rebuilt prog) (d.undisturbed prog)

section Runs

variable {prog : Program} {g : Grain} {d : Disk} {a : Actor}

theorem agree_refl (f : Fields) : prog.Agree f f := fun _ _ _ => rfl

variable {f f' f'' : Fields} {rt : Runtime} {c : Actor} {d' : Disk} {rs : List (String × Value)}
  {msg : Message}

/-- A grain that is not in memory takes no turns. -/
theorem after_gone (ha : rt.actor = none) (writes : Option Nat) :
    rt.after (stepActor prog) writes = rt := by
  unfold Runtime.after stepActor
  rw [exec_read_bind]
  rw [ha]
  rfl

theorem resident_live (ha : g.rt.actor = some a) : g.resident prog = g := by
  unfold Grain.resident
  rw [ha]

theorem resident_gone (ha : g.rt.actor = none) (hr : hydrateGrain prog g.rt = some rt) :
    g.resident prog = ⟨rt, false, false⟩ := by
  unfold Grain.resident
  rw [ha]
  rw [hr]

theorem agree_congr_right (h : prog.Agree f' f'') : prog.Agree f f' ↔ prog.Agree f f'' :=
  ⟨fun hf => hf.trans h, fun hf => hf.trans h.symm⟩

section

variable (hw : prog.isWorkflow = false)
include hw

/-- A grain in memory is invisible if it has the fields of one that was never disturbed. -/
theorem invisible_live (hc : prog.Scripted) (h : Stores prog g.rt.store d)
    (ha : g.rt.actor = some a) :
    g.Invisible prog ↔ prog.Agree a.stateData (d.undisturbed prog) := by
  unfold Grain.Invisible Disk.undisturbed
  rw [resident_live ha, fields_of_actor ha, h.journal, fields_uncrashed hw hc.plain]

/-- A grain that is not in memory is invisible if hydration gives it these fields. -/
theorem invisible_gone (hc : prog.Scripted) (h : Stores prog g.rt.store d)
    (ha : g.rt.actor = none) :
    g.Invisible prog ↔ prog.Agree (d.rebuilt prog) (d.undisturbed prog) := by
  obtain ⟨rt', a, d', hr, ha', hready, _⟩ := hydrate_stores hw hc h
  unfold Grain.Invisible Disk.undisturbed
  rw [resident_gone ha hr, fields_of_actor ha', hready.fields, h.journal,
    fields_uncrashed hw hc.plain]

theorem Tracked.invisible (hc : prog.Scripted) (h : Tracked prog g d) : g.Invisible prog := by
  cases ha : g.rt.actor with
  | none => exact (invisible_gone hw hc h.stores ha).mpr (h.gone ha)
  | some a => exact (invisible_live hw hc h.stores ha).mpr (h.agrees a ha)

theorem Tracked.resident (hc : prog.Scripted) (h : Tracked prog g d) :
    ∃ d', Tracked prog (g.resident prog) d' ∧ (g.resident prog).rt.actor ≠ none := by
  cases ha : g.rt.actor with
  | some a =>
    rw [resident_live ha]
    exact ⟨d, h, by rw [ha]; exact fun hn => by cases hn⟩
  | none =>
    obtain ⟨rt', a, d', hr, ha', hready, hstores, hjournal, hsaved⟩ := hydrate_stores hw hc h.stores
    have hrebuilt : d'.rebuilt prog = d.rebuilt prog := by
      unfold Disk.rebuilt
      rw [hjournal, hsaved]
    have hundisturbed : d'.undisturbed prog = d.undisturbed prog := by
      unfold Disk.undisturbed
      rw [hjournal]
    have hsame (b : Actor) (hb : rt'.actor = some b) : b = a := some.inj (hb.symm.trans ha')
    rw [resident_gone ha hr]
    refine ⟨d', ⟨hstores, ?_, ?_, ?_, ?_, ?_, ?_⟩, by rw [ha']; exact fun hn => by cases hn⟩
    · intro b hb
      rw [hsame b hb]
      exact ⟨rfl, hready.epoch, hready.awake⟩
    · intro b hb
      rw [hsame b hb, hready.fields, hundisturbed]
      exact h.gone ha
    · exact fun _ _ hck => by cases hck
    · intro b hb _
      rw [hsame b hb, hready.fields, hrebuilt]
    · exact fun hh => by cases hh
    · intro hn
      rw [ha'] at hn
      cases hn

omit hw in
theorem Tracked.mailbox (h : Tracked prog g d) (ha : g.rt.actor = some a)
    (hfields : c.stateData = a.stateData) (hepoch : c.activationEpoch = a.activationEpoch)
    (hawake : c.suspendedExecution = a.suspendedExecution) (hibernated : Bool)
    (hsleep : hibernated = true → g.hibernated = true) :
    Tracked prog ⟨{ g.rt with actor := some c }, hibernated, g.checkpointed⟩ d := by
  refine ⟨h.stores, ?_, ?_, ?_, ?_, fun hh => h.asleep (hsleep hh), fun hn => by cases hn⟩
  · rintro _ ⟨⟩
    exact ⟨rfl, by rw [hepoch]; exact (h.ready a ha).epoch, hawake.trans (h.ready a ha).awake⟩
  · rintro _ ⟨⟩
    rw [hfields]
    exact h.agrees a ha
  · rintro _ ⟨⟩ hck
    rw [hfields]
    exact h.saved a ha hck
  · rintro _ ⟨⟩ hck
    rw [hfields]
    exact h.unsaved a ha hck

theorem Tracked.send (hc : prog.Scripted) (h : Tracked prog g d) (msg : Message) :
    ∃ d', Tracked prog (g.send prog msg) d' := by
  obtain ⟨d', hresident, hlive⟩ := h.resident hw hc
  obtain ⟨a, ha⟩ := ne_none_iff_exists'.mp hlive
  have hsent : (g.resident prog).rt.after (deliver msg) none = { (g.resident prog).rt with
      actor := some { a with mailbox := a.mailbox ++ [msg] } } := by
    show modifyActor _ (g.resident prog).rt = _
    unfold modifyActor
    rw [ha]
    rfl
  unfold Grain.send
  dsimp only
  rw [hsent]
  exact ⟨d', hresident.mailbox ha (c := { a with mailbox := a.mailbox ++ [msg] }) rfl rfl rfl false
    fun hh => by cases hh⟩

omit hw in
theorem tracked_saved (hstores : Stores prog rt.store d') (hactor : rt.actor = some c)
    (hready : Ready c c.stateData) (hsaved : d'.saved = some (c.stateData, d'.journal.length))
    (hagrees : prog.Agree c.stateData (d'.undisturbed prog)) (hibernated : Bool) :
    Tracked prog ⟨rt, hibernated, true⟩ d' := by
  have hsame (b : Actor) (hb : rt.actor = some b) : b = c := some.inj (hb.symm.trans hactor)
  refine ⟨hstores, ?_, ?_, ?_, fun _ _ hck => (by cases hck), fun _ => rfl, ?_⟩
  · intro b hb
    rw [hsame b hb]
    exact hready
  · intro b hb
    rw [hsame b hb]
    exact hagrees
  · intro b hb _
    rw [hsame b hb]
    exact hsaved
  · intro hn
    rw [hactor] at hn
    cases hn

omit hw in
/-- What a turn makes of an undisturbed grain. -/
theorem Tracked.undisturbed (h : Tracked prog g d) (hdet : prog.Deterministic)
    (ha : g.rt.actor = some a) (hjournal : d'.journal = d.journal ++ [msg]) :
    prog.Agree (d'.undisturbed prog) (prog.handle a.stateData msg) := by
  unfold Disk.undisturbed
  rw [hjournal, foldl_append]
  exact hdet _ _ msg (h.agrees a ha).symm

theorem Tracked.turn (hc : prog.Scripted) (hdet : prog.Deterministic) (h : Tracked prog g d) :
    ∃ d', Tracked prog (g.turn prog) d' := by
  unfold Grain.turn
  cases ha : g.rt.actor with
  | none =>
    have hnext : g.rt.next prog = none := by
      unfold Runtime.next
      rw [ha]
      rfl
    rw [after_gone ha, hnext, isSome_none, Bool.or_false]
    exact ⟨d, h⟩
  | some a =>
    cases hnext : g.rt.next prog with
    | none =>
      obtain ⟨c, hafter, hcarries, _⟩ := after_idle hw hnext ha none
      rw [hafter, isSome_none, Bool.or_false]
      exact ⟨d, h.mailbox ha hcarries.fields hcarries.epoch hcarries.awake g.hibernated
        fun hh => hh⟩
    | some next =>
      obtain ⟨msg, step⟩ := next
      obtain ⟨hmsg, hstep⟩ := next_eq_some ha hnext
      have hready := h.ready a ha
      obtain ⟨hstores, _, c, hactor, hcarries⟩ :=
        (lands_turn hw hc.plain ha hready.epoch hmsg hstep h.stores none).done
      have hhandle := outcome_eq_handle hstep a.stateData
      rw [land_turn, hhandle] at hstores
      rw [hhandle] at hcarries
      rw [isSome_some, Bool.or_true]
      refine ⟨_, tracked_saved hstores hactor (hready.carried hcarries) ?_ ?_ g.hibernated⟩
      · simp [hcarries.fields]
      · rw [hcarries.fields]
        exact (h.undisturbed hdet ha rfl).symm

end

theorem Tracked.dehydrate (h : Tracked prog g d) : ∃ d', Tracked prog (g.dehydrate prog) d' := by
  unfold Grain.dehydrate
  cases ha : g.rt.actor with
  | none => exact ⟨d, h⟩
  | some a =>
    dsimp only
    split_ifs with hbusy
    · exact ⟨d, h⟩
    · have hready := h.ready a ha
      have hlands : Lands prog (tryCheckpointActor prog) ⟨g.rt, [], none⟩ d [.save a.stateData] _ :=
        lands_checkpoint ha hready.epoch h.stores
      obtain ⟨hstores, _, c, hactor, hcarries⟩ := hlands.done
      refine ⟨_, tracked_saved hstores hactor (hready.carried hcarries) ?_ ?_ true⟩
      · rw [hcarries.fields]
        rfl
      · rw [hcarries.fields]
        exact h.agrees a ha

/-- A grain that has left memory is tracked if it is invisible. -/
theorem tracked_gone (hstores : Stores prog rt.store d') (hactor : rt.actor = none)
    (hagrees : prog.Agree (d'.rebuilt prog) (d'.undisturbed prog)) :
    Tracked prog ⟨rt, false, false⟩ d' := by
  have hnone (a : Actor) : rt.actor ≠ some a := by simp [hactor]
  refine ⟨hstores, ?_, ?_, ?_, ?_, fun hh => (by cases hh), fun _ => hagrees⟩
  · exact fun a ha => absurd ha (hnone a)
  · exact fun a ha => absurd ha (hnone a)
  · exact fun _ _ hck => by cases hck
  · exact fun a ha => absurd ha (hnone a)

theorem evict_of_busy (h : ¬ ∃ a, g.rt.actor = some a ∧ g.hibernated = true ∧ a.mailbox = []) :
    g.evict = g := by
  unfold Grain.evict
  cases ha : g.rt.actor with
  | none => rfl
  | some a => exact if_neg fun hidle => h ⟨a, ha, hidle⟩

/-- What a step that takes the grain out of memory has to show. -/
structure Leaves (prog : Program) (g' : Grain) (safe : Prop) : Prop where
  out : ∃ rt d', g' = ⟨rt, false, false⟩ ∧ rt.actor = none ∧ Stores prog rt.store d' ∧
    (prog.Agree (d'.rebuilt prog) (d'.undisturbed prog) ↔ safe)

theorem Leaves.seen_iff (hw : prog.isWorkflow = false) (hc : prog.Scripted) {g' : Grain}
    {safe : Prop} (h : Leaves prog g' safe) : g'.Invisible prog ↔ safe := by
  obtain ⟨rt, d', rfl, hactor, hstores, hiff⟩ := h.out
  exact (invisible_gone hw hc hstores hactor).trans hiff

theorem Leaves.tracked {g' : Grain} {safe : Prop} (h : Leaves prog g' safe) (hs : safe) :
    ∃ d', Tracked prog g' d' := by
  obtain ⟨rt, d', rfl, hactor, hstores, hiff⟩ := h.out
  exact ⟨d', tracked_gone hstores hactor (hiff.mpr hs)⟩

theorem Tracked.rebuilt_iff (h : Tracked prog g d) (ha : g.rt.actor = some a) :
    prog.Agree (d.rebuilt prog) (d.undisturbed prog) ↔
      (g.checkpointed = true → prog.Returns a.stateData) := by
  have hagrees := h.agrees a ha
  cases hck : g.checkpointed with
  | true =>
    have hrebuilt : d.rebuilt prog = prog.resumed a.stateData [] := by
      unfold Disk.rebuilt
      rw [h.saved a ha hck]
      dsimp only
      rw [drop_length]
      rfl
    rw [hrebuilt, agree_congr_right hagrees.symm]
    exact ⟨fun hreturns _ => hreturns, fun hreturns => hreturns rfl⟩
  | false =>
    rw [← h.unsaved a ha hck]
    exact iff_of_true hagrees fun hf => by cases hf

theorem Tracked.evict (h : Tracked prog g d) (ha : g.rt.actor = some a)
    (hidle : g.hibernated = true ∧ a.mailbox = []) : Leaves prog g.evict (g.Safe prog .evict) := by
  have hevicted : g.evict = ⟨{ g.rt with actor := none }, false, false⟩ := by
    unfold Grain.evict
    rw [ha]
    exact if_pos hidle
  refine ⟨_, d, hevicted, rfl, h.stores, ?_⟩
  rw [h.rebuilt_iff ha]
  constructor
  · rintro hreturns b hb _
    rw [some.inj (hb.symm.trans ha)]
    exact hreturns (h.asleep hidle.1)
  · exact fun hsafe _ => hsafe a ha hidle

/-- Nothing has been written. -/
theorem Tracked.restart_between (h : Tracked prog g d) (ha : g.rt.actor = some a)
    (hstores : Stores prog rt.store d) :
    Leaves prog ⟨rt.crash, false, false⟩ (g.checkpointed = true → prog.Returns g.rt.fields) := by
  refine ⟨_, d, rfl, rfl, hstores, ?_⟩
  rw [fields_of_actor ha]
  exact h.rebuilt_iff ha

/-- The message is journaled, and no checkpoint has been taken. -/
theorem Tracked.restart_inside (hdet : prog.Deterministic) (h : Tracked prog g d)
    (ha : g.rt.actor = some a)
    (hstores : Stores prog rt.store
      { d with journal := d.journal ++ [msg], records := d.records ++ rs }) :
    Leaves prog ⟨rt.crash, false, false⟩
      (if g.checkpointed then prog.Agree (prog.handle (prog.resumed g.rt.fields []) msg)
        (prog.handle g.rt.fields msg)
      else g.rt.store.snapshot = none → prog.Agree g.rt.fields (prog.handle g.rt.fields msg)) := by
  refine ⟨_, _, rfl, rfl, hstores, ?_⟩
  rw [agree_congr_right (h.undisturbed hdet ha rfl), fields_of_actor ha]
  cases hck : g.checkpointed with
  | true =>
    unfold Disk.rebuilt
    rw [h.saved a ha hck]
    dsimp only
    rw [drop_left, if_pos rfl]
    rfl
  | false =>
    have hfields := h.unsaved a ha hck
    unfold Disk.rebuilt at hfields ⊢
    cases hs : d.saved with
    | none =>
      rw [hs] at hfields
      rw [← hfields, h.stores.unsaved hs]
      exact ⟨fun hagree _ => hagree, fun hagree => hagree rfl⟩
    | some saved =>
      obtain ⟨f, n⟩ := saved
      obtain ⟨hn, snapshot, hsaved⟩ := h.stores.saved f n hs
      rw [hs] at hfields
      dsimp only at hfields ⊢
      rw [drop_append_of_le_length hn, foldl_append, ← hfields]
      refine iff_of_true (agree_refl _) fun hnone => ?_
      rw [hsaved.latest] at hnone
      cases hnone

/-- The turn is complete. -/
theorem Tracked.restart_done (hdet : prog.Deterministic) (h : Tracked prog g d)
    (ha : g.rt.actor = some a)
    (hstores : Stores prog rt.store ⟨some (prog.handle a.stateData msg, d.journal.length + 1),
      d.journal ++ [msg], d.records ++ rs⟩) :
    Leaves prog ⟨rt.crash, false, false⟩ (prog.Returns (prog.handle g.rt.fields msg)) := by
  refine ⟨_, _, rfl, rfl, hstores, ?_⟩
  have hdrop : (d.journal ++ [msg]).drop (d.journal.length + 1) = [] := by simp
  rw [agree_congr_right (h.undisturbed hdet ha rfl), fields_of_actor ha]
  unfold Disk.rebuilt
  dsimp only
  rw [hdrop]
  rfl

section

variable (hw : prog.isWorkflow = false) (hc : prog.Scripted) (hdet : prog.Deterministic)
include hw hc hdet

theorem Tracked.restart (h : Tracked prog g d) (k : Nat) :
    Leaves prog (g.restart prog k) (g.Safe prog (.restart k)) := by
  unfold Grain.restart Grain.Safe
  dsimp only
  cases ha : g.rt.actor with
  | none =>
    rw [after_gone ha]
    exact ⟨_, d, rfl, rfl, h.stores, iff_of_true (h.gone ha) fun hne => absurd rfl hne⟩
  | some a =>
    have hlive : (some a ≠ none → g.RestartSafe prog k) ↔ g.RestartSafe prog k :=
      ⟨fun hsafe => hsafe (fun hn => by cases hn), fun hsafe _ => hsafe⟩
    rw [hlive]
    unfold Grain.RestartSafe
    cases hnext : g.rt.next prog with
    | none =>
      obtain ⟨c, hafter, _⟩ := after_idle hw hnext ha (some k)
      rw [hafter]
      exact h.restart_between ha h.stores
    | some next =>
      obtain ⟨msg, step⟩ := next
      obtain ⟨hmsg, hstep⟩ := next_eq_some ha hnext
      have hcut : Stores prog (g.rt.after (stepActor prog) (some k)).store
          (((step.writes prog msg a.stateData).take k).foldl Disk.land d) :=
        (lands_turn hw hc.plain ha (h.ready a ha).epoch hmsg hstep h.stores (some k)).cut
      dsimp only
      rw [fields_of_actor ha]
      -- Where the cut falls: before the message is journaled, inside the turn, or after its
      -- checkpoint.
      by_cases hzero : k = 0
      · subst hzero
        rw [if_pos rfl, ← fields_of_actor ha]
        exact h.restart_between ha hcut
      · obtain ⟨n, rfl⟩ := Nat.exists_eq_succ_of_ne_zero hzero
        by_cases hinside : n.succ ≤ (step.records prog msg.payload a.stateData).length + 1
        · rw [land_cut step msg a.stateData (Nat.le_of_succ_le_succ hinside)] at hcut
          rw [if_pos hinside, ← fields_of_actor ha]
          exact h.restart_inside hdet ha hcut
        · rw [take_writes hinside, land_turn, outcome_eq_handle hstep] at hcut
          rw [if_neg hinside, ← fields_of_actor ha]
          exact h.restart_done hdet ha hcut

/-- A step keeps the run tracked if it makes no difference. -/
theorem Tracked.step (h : Tracked prog g d) {op : GrainOp} (hs : g.Safe prog op) :
    ∃ d', Tracked prog (g.step prog op) d' := by
  cases op with
  | send msg => exact h.send hw hc msg
  | turn => exact h.turn hw hc hdet
  | dehydrate => exact h.dehydrate
  | evict =>
    unfold Grain.step
    by_cases hidle : ∃ a, g.rt.actor = some a ∧ g.hibernated = true ∧ a.mailbox = []
    · obtain ⟨a, ha, hidle⟩ := hidle
      exact (h.evict ha hidle).tracked hs
    · rw [evict_of_busy hidle]
      exact ⟨d, h⟩
  | restart k => exact (h.restart hw hc hdet k).tracked hs

theorem SafeRun.tracked (h : SafeRun prog g) : ∃ d, Tracked prog g d := by
  induction h with
  | start =>
    exact ⟨⟨none, [], []⟩,
      tracked_gone ⟨rfl, rfl, fun e he => (by cases he), fun _ => rfl, fun f n hs => (by cases hs)⟩
      rfl (agree_refl _)⟩
  | step _ op hs ih =>
    obtain ⟨d, hd⟩ := ih
    exact hd.step hw hc hdet hs

end

end Runs

/-- After a run whose steps make no difference, a step leaves the next message what an undisturbed
grain would show it exactly if it makes no difference. -/
theorem invisible_iff {prog : Program} (hw : prog.isWorkflow = false) (hc : prog.Scripted)
    (hdet : prog.Deterministic) {g : Grain} (h : SafeRun prog g) (op : GrainOp) :
    (g.step prog op).Invisible prog ↔ g.Safe prog op := by
  obtain ⟨d, hd⟩ := h.tracked hw hc hdet
  have hkept (hs : g.Safe prog op) : (g.step prog op).Invisible prog := by
    obtain ⟨d', hd'⟩ := hd.step hw hc hdet hs
    exact hd'.invisible hw hc
  cases op with
  | send | turn | dehydrate => exact iff_of_true (hkept trivial) trivial
  | evict =>
    by_cases hidle : ∃ a, g.rt.actor = some a ∧ g.hibernated = true ∧ a.mailbox = []
    · obtain ⟨a, ha, hidle⟩ := hidle
      exact (hd.evict ha hidle).seen_iff hw hc
    · have hsafe : g.Safe prog .evict := fun a ha hboth => absurd ⟨a, ha, hboth⟩ hidle
      exact iff_of_true (hkept hsafe) hsafe
  | restart k => exact (hd.restart hw hc hdet k).seen_iff hw hc

theorem scripted_tally : tally.Scripted := by
  intro step hs
  rw [mem_singleton.mp hs]
  exact ⟨_, rfl, fun _ => .emit (.observe fun _ => .assign .finish)⟩

/-- A hit adds one to either field. -/
theorem deterministic_tally : tally.Deterministic := by
  intro f g msg h
  have htotal : f "total" = g "total" := h _ mem_cons_self (fun hl => by cases hl)
  have hhits : f "hits" = g "hits" := h _ (mem_cons_of_mem _ mem_cons_self) (fun hl => by cases hl)
  have hbumped : f.bump "hits" "hits" = g.bump "hits" "hits" := by
    have hsame : f.int? "hits" = g.int? "hits" := by
      unfold int?
      rw [hhits]
    unfold bump
    rw [hsame]
    cases g.int? "hits" with
    | none => exact hhits
    | some n =>
      dsimp only
      rw [set_same, set_same]
  have hint : (f.bump "hits").int? "total" = (g.bump "hits").int? "total" := by
    unfold int?
    rw [bump_of_ne f (by decide), bump_of_ne g (by decide), htotal]
  obtain ⟨idx, payload⟩ := msg
  cases idx with
  | succ n => exact h
  | zero =>
    intro m hm _
    show (f.bump "hits").set "total" (.int (((f.bump "hits").int? "total").getD 0 + 1)) m.1 =
      (g.bump "hits").set "total" (.int (((g.bump "hits").int? "total").getD 0 + 1)) m.1
    rw [hint]
    rcases mem_cons.mp hm with rfl | hm
    · rw [set_same, set_same]
    · rw [mem_singleton.mp hm, set_of_ne _ _ (by decide), set_of_ne _ _ (by decide)]
      exact hbumped

def tallyHit : Grain := (Grain.unborn.step tally (.send ⟨0, []⟩)).step tally .turn

/-- As long as it stays in memory, it is there. -/
theorem hit_seen_asleep : (tallyHit.step tally .dehydrate).Invisible tally :=
  (invisible_iff rfl scripted_tally deterministic_tally
    (.step (.step .start (.send ⟨0, []⟩) trivial) .turn trivial) .dehydrate).mpr trivial

/-- After the grain has been thrown out, it is gone. -/
theorem hit_evicted :
    let g := (tallyHit.step tally .dehydrate).step tally .evict
    (g.resident tally).rt.fields "hits" = some (.int 0) ∧
      (uncrashed tally [] (g.rt.store.journal.map JournalEntry.message)).fields "hits" =
      some (.int 1) := by
  decide +kernel

end Nulang.Persist

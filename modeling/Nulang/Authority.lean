import Mathlib.Data.List.Basic

/-!
# External authority and the current actor

An actor holds a manifest of grants, and a spawn site may request grants for the child. The runtime
checks the request against the manifest of `current_actor`, a field that the paths into an actor's
bytecode set, leave alone, restore or clear, each in its own way. This file models those paths:
message turns, synchronous asks with the flush of the mailbox before them, the wakes of suspended
behaviors (by `Timer.sleep`, a receive timeout, a message, a signal, an LLM completion), queries,
and the journal replay of a recovered actor or a grain.

What bytecode does between entering and returning is arbitrary; its actions, like the host's, are
the events of `Runtime.apply`. With no current actor a spawn is the host's own and any grant is
given.

The fields `lives`, `parent`, `held`, `installed` and `spawns` are a record of the run: a life is
one creation of an actor, which a recovery from a snapshot continues.
-/

set_option autoImplicit false

namespace Nulang.Authority

open Function

/-- The paths into an actor's bytecode. -/
inductive Entry where
  /-- `step_actor`: a message turn, or the resumption of a behavior that yielded at a safepoint -/
  | turn
  /-- `flush_actor_mailbox` -/
  | flush
  /-- `vm_exec_end`: a receive wait that was woken while the VM was busy -/
  | deferredWake
  /-- `recover_actor`, `resolve_or_hydrate_grain`: the journal after the snapshot -/
  | replay
  /-- `ask_actor_sync` -/
  | ask
  /-- `fire_timer_sleep_wake` -/
  | sleepWake
  /-- `fire_receive_wait_timeout` -/
  | receiveTimeout
  /-- `deliver_local_message`, with the VM idle -/
  | directWake
  /-- `resume_suspended_workflow_step` -/
  | signal
  /-- `resume_suspended_llm_step` -/
  | llm
  /-- `query_workflow` -/
  | query
deriving DecidableEq

/-- What a suspended behavior waits for. -/
inductive Suspension where
  | jitYield
  | sleep
  | receiveWait
  | signal
  | llm
deriving DecidableEq

namespace Entry

/-- The path makes the actor the current one. -/
def sets : Entry → Bool
  | .turn | .flush | .deferredWake | .replay => true
  | _ => false

/-- What the path leaves in `current_actor` when it returns: `saved` is its value on entry. -/
def leaves (e : Entry) (current saved : Option Nat) : Option Nat :=
  match e with
  | .turn | .ask | .replay => none
  | .flush | .deferredWake => saved
  | _ => current

/-- The path gives back the current actor it found. -/
def restores : Entry → Bool
  | .flush | .deferredWake => true
  | _ => false

/-- The path can be taken from inside running bytecode: a pipeline asks an agent, a send hydrates a
grain, a behavior queries a workflow. -/
def nests : Entry → Bool
  | .flush | .ask | .replay | .query => true
  | _ => false

/-- The path resumes a behavior that waits for this. -/
def resumes : Entry → Option Suspension → Bool
  | .turn, s => s == none || s == some .jitYield
  | .sleepWake, s | .receiveTimeout, s | .llm, s => s.isSome
  | .directWake, s | .deferredWake, s => s == some .receiveWait
  | .signal, s => s == some .signal
  | _, _ => true

end Entry

variable (Grant : Type)

/-- The fields of an actor that authority depends on; a manifest with a malformed token is
`none`. -/
structure Actor where
  authority : Option (List Grant)
  persistent : Bool
  suspended : Option Suspension
  life : Nat

/-- A behavior on the stack: whose bytecode it is, how it was entered, the current actor it found,
and whether the VM still runs it. -/
structure Activation where
  actor : Nat
  life : Nat
  entry : Entry
  saved : Option Nat
  live : Bool
deriving DecidableEq

/-- A child created by bytecode: the life of the spawning actor, its manifest at that moment, and
what the child got. -/
structure SpawnRecord where
  spawner : Nat
  manifest : Option (List Grant)
  granted : List Grant

structure Runtime where
  actors : Nat → Option (Actor Grant)
  current : Option Nat
  stack : List Activation
  /-- `pending_receive_wakes`, last pushed first -/
  wakes : List Nat
  /-- the authority tokens of the stored snapshots, and whose they are -/
  snapshots : Nat → Option (List Grant × Nat)
  lives : Nat
  parent : Nat → Option Nat
  held : List (Nat × Grant)
  installed : List (Nat × Grant)
  spawns : List (SpawnRecord Grant)

variable {Grant}

def Runtime.new : Runtime Grant where
  actors := fun _ => none
  current := none
  stack := []
  wakes := []
  snapshots := fun _ => none
  lives := 0
  parent := fun _ => none
  held := []
  installed := []
  spawns := []

variable [DecidableEq Grant]

/-- `delegate_authority`: every grant requested is one the actor holds. -/
def Actor.delegates (a : Actor Grant) (requested : List Grant) : Bool :=
  match a.authority with
  | none => false
  | some manifest => requested.all (manifest.contains ·)

namespace Runtime

/-- The check of `spawn_from_module_with_authority`. -/
def authorizes (s : Runtime Grant) (requested : List Grant) : Bool :=
  match s.current with
  | none => true
  | some parentId =>
    match s.actors parentId with
    | some parent => parent.delegates requested
    | none => requested.isEmpty

/-- `vm_execution_depth`; a query runs on a VM of its own. -/
def depth (s : Runtime Grant) : Nat := s.stack.countP fun a => a.live && a.entry != .query

/-- `draining_receive_wakes`. -/
def draining (s : Runtime Grant) : Bool := s.stack.any (·.entry == .deferredWake)

/-- Bytecode is running: the VM runs the behavior on top of the stack. -/
def running (s : Runtime Grant) : Bool := s.stack.head?.any (·.live)

/-- An id that `fresh_actor_id` may return. -/
def fresh (s : Runtime Grant) (id : Nat) : Bool :=
  (s.actors id).isNone && s.stack.all (·.actor != id)

/-- A new actor, in a life of its own. -/
def create (s : Runtime Grant) (id : Nat) (manifest : List Grant) (persistent : Bool)
    (parent : Option Nat) : Runtime Grant :=
  { s with
    actors := update s.actors id (some ⟨some manifest, persistent, none, s.lives⟩)
    lives := s.lives + 1
    parent := update s.parent s.lives parent
    held := manifest.map (s.lives, ·) ++ s.held }

/-- An actor from its snapshot, in the life that the snapshot is of. -/
def restore (s : Runtime Grant) (id : Nat) (snapshot : List Grant × Nat) : Runtime Grant :=
  { s with actors := update s.actors id (some ⟨some snapshot.1, true, none, snapshot.2⟩) }

/-- The behavior of a resident actor goes on the stack. -/
def push (s : Runtime Grant) (e : Entry) (id : Nat) (a : Actor Grant) : Runtime Grant :=
  { s with
    actors := update s.actors id (some { a with suspended := none })
    current := if e.sets then some id else s.current
    stack := ⟨id, a.life, e, s.current, true⟩ :: s.stack }

/-- Where a path can be taken. -/
def admits (s : Runtime Grant) (e : Entry) : Bool :=
  match e with
  | .turn | .sleepWake | .receiveTimeout | .signal | .llm => s.stack.isEmpty
  | .directWake => s.stack.isEmpty || (s.depth == 0 && s.stack.head?.any (·.entry == .query))
  | .flush | .ask | .query | .replay => s.stack.isEmpty || s.running
  | .deferredWake => false

end Runtime

/-- What happens: the host's actions, the paths into bytecode, and the actions of the bytecode on
top of the stack. -/
inductive Event (Grant : Type) where
  /-- the host creates an actor with these grants -/
  | hostSpawn (id : Nat) (manifest : List Grant) (persistent : Bool)
  /-- the host replaces an actor's manifest -/
  | hostInstall (id : Nat) (manifest : Option (List Grant))
  /-- a native or ahead-of-time compiled behavior of an actor begins, or ends -/
  | native (current : Option Nat)
  /-- an actor exits or is evicted -/
  | exit (id : Nat)
  | checkpoint (id : Nat)
  /-- the process ends and another begins over the same store -/
  | restart
  /-- a path into an actor's bytecode -/
  | enter (e : Entry) (id : Nat)
  /-- an actor is restored from its snapshot and its journal is replayed -/
  | replay (id : Nat)
  /-- a grain without a snapshot is materialised -/
  | hydrate (id : Nat)
  /-- a spawn site; `none` is a site whose metadata is malformed or ambiguous -/
  | spawn (id : Nat) (site : Option (List Grant)) (persistent : Bool)
  /-- `spawn_from_module`: a supervisor's child, without authority of its own -/
  | spawnPlain (id : Nat) (persistent : Bool)
  /-- a message to an actor that waits for one, while the VM is busy -/
  | send (id : Nat)
  | suspend (reason : Suspension)
  /-- the VM call returns -/
  | ret
  /-- another VM call in the same path: the message after a safepoint yield, a compensation, the
  next journal entry -/
  | again
  /-- `vm_exec_end` takes a deferred wake -/
  | wake
  /-- the path returns to its caller -/
  | leave

namespace Runtime

def apply (s : Runtime Grant) : Event Grant → Option (Runtime Grant)
  | .hostSpawn id manifest persistent =>
      if s.stack.isEmpty && s.fresh id then
        let s' := s.create id manifest persistent none
        some { s' with installed := manifest.map (s.lives, ·) ++ s'.installed }
      else none
  | .hostInstall id manifest =>
      if s.stack.isEmpty then
        (s.actors id).map fun a =>
          { s with
            actors := update s.actors id (some { a with authority := manifest })
            held := (manifest.getD []).map (a.life, ·) ++ s.held
            installed := (manifest.getD []).map (a.life, ·) ++ s.installed }
      else none
  | .native current => if s.stack.isEmpty then some { s with current := current } else none
  | .exit id => some { s with actors := update s.actors id none }
  | .checkpoint id =>
      (s.actors id).bind fun a =>
        a.authority.bind fun manifest =>
          if a.persistent then
            some { s with snapshots := update s.snapshots id (some (manifest, a.life)) }
          else none
  | .restart =>
      some { s with actors := fun _ => none, current := none, stack := [], wakes := [] }
  | .enter e id =>
      if s.admits e && e != .replay then
        (s.actors id).bind fun a => if e.resumes a.suspended then some (s.push e id a) else none
      else none
  | .replay id =>
      if s.admits .replay && s.fresh id then
        (s.snapshots id).map fun snapshot =>
          (s.restore id snapshot).push .replay id ⟨some snapshot.1, true, none, snapshot.2⟩
      else none
  | .hydrate id => if s.fresh id then some (s.create id [] true none) else none
  | .spawn id site persistent =>
      match s.stack with
      | [] => none
      | top :: _ =>
        if top.live && s.fresh id then
          site.bind fun requested =>
            if s.authorizes requested then
              let s' := s.create id requested persistent (some top.life)
              some { s' with spawns :=
                ⟨top.life, (s.actors top.actor).bind (·.authority), requested⟩ :: s'.spawns }
            else none
        else none
  | .spawnPlain id persistent =>
      match s.stack with
      | [] => none
      | top :: _ =>
        if top.live && s.fresh id then
          match s.snapshots id with
          | some snapshot =>
              if persistent then some (s.restore id snapshot)
              else some (s.create id [] persistent (some top.life))
          | none => some (s.create id [] persistent (some top.life))
        else none
  | .send id =>
      if s.depth != 0 && (s.actors id).any (fun a => a.suspended == some .receiveWait) then
        some { s with wakes := if s.wakes.contains id then s.wakes else id :: s.wakes }
      else none
  | .suspend reason =>
      match s.stack with
      | [] => none
      | top :: rest =>
        if top.live then
          some { s with
            actors := update s.actors top.actor
              ((s.actors top.actor).map fun a => { a with suspended := some reason })
            stack := { top with live := false } :: rest }
        else none
  | .ret =>
      match s.stack with
      | [] => none
      | top :: rest =>
        if top.live then some { s with stack := { top with live := false } :: rest } else none
  | .again =>
      match s.stack with
      | [] => none
      | top :: rest =>
        if !top.live && (top.entry == .turn || top.entry == .signal || top.entry == .replay) then
          some { s with stack := { top with live := true } :: rest }
        else none
  | .wake =>
      match s.wakes with
      | [] => none
      | id :: wakes =>
        if s.depth == 0 && !s.draining && !s.stack.isEmpty then
          match s.actors id with
          | some a =>
              if Entry.deferredWake.resumes a.suspended then
                some ({ s with wakes := wakes }.push .deferredWake id a)
              else some { s with wakes := wakes }
          | none => some { s with wakes := wakes }
        else none
  | .leave =>
      match s.stack with
      | [] => none
      | top :: rest =>
        if !top.live && (s.wakes.isEmpty || s.depth != 0 || s.draining) then
          some { s with current := top.entry.leaves s.current top.saved, stack := rest }
        else none

end Runtime

def Event.entry : Event Grant → Option Entry
  | .enter e _ => some e
  | .replay _ => some .replay
  | _ => none

/-- The states of the runs that take only paths which `ok` admits, told whether bytecode is already
on the stack. -/
inductive Reachable (ok : Entry → Bool → Prop) : Runtime Grant → Prop where
  | new : Reachable ok .new
  | step {s s' : Runtime Grant} {e : Event Grant} (h : Reachable ok s)
      (hok : ∀ p, e.entry = some p → ok p (!s.stack.isEmpty)) (hs : s.apply e = some s') :
      Reachable ok s'

/-- A grant that comes from the host, through spawners that each held it. -/
inductive Inherited (s : Runtime Grant) : Nat → Grant → Prop where
  | host {life : Nat} {g : Grant} (h : (life, g) ∈ s.installed) : Inherited s life g
  | spawned {life parent : Nat} {g : Grant} (hp : s.parent life = some parent)
      (hg : (parent, g) ∈ s.held) (h : Inherited s parent g) : Inherited s life g

/-- No actor has gained authority: every child that bytecode created got only grants its spawner
held at that moment, and every grant held was held by each of the spawning ancestors or installed by
the host. -/
structure Confined (s : Runtime Grant) : Prop where
  delegated : ∀ r ∈ s.spawns, ∀ g ∈ r.granted, ∃ manifest, r.manifest = some manifest ∧ g ∈ manifest
  inherited : ∀ id a, s.actors id = some a → ∀ manifest, a.authority = some manifest →
    ∀ g ∈ manifest, Inherited s a.life g

/-- The path keeps the executing actor the current one: it sets it, and gives back what it found
when it was taken from inside other bytecode. -/
def Entry.Keeps (e : Entry) (nested : Bool) : Prop :=
  e.sets = true ∧ (nested = true → e.restores = true)

/-- The path is one that an event can take from there. -/
def Entry.Possible (e : Entry) (nested : Bool) : Prop :=
  e ≠ .deferredWake ∧ (nested = true → e.nests = true)

end Nulang.Authority

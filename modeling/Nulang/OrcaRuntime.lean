import Nulang.OrcaInv

/-!
# References between actors

`runtime/mod.rs`: the part of the runtime that counts references to objects of other actors. A send
from a running actor raises the foreign count of every object in the message and queues the matching
decrement with the coordinator; taking a message out of a mailbox raises the count once more, for
the receiver, which holds it until it exits; `process_gc_ops` applies the queued decrements when the
scheduler has become idle. The heap of an actor that exits while its objects are referenced is
retired and kept until the references are gone.

The mailboxes are one list of pairs of receiver and payload, and so are the receiver holds. Which of
its messages a receiver takes is left open: that covers the order of the lanes and selective
receives. Left out are the notifications to the dead-letter actor, which carry no pointers, the
object store, and the cycle detector: its edges lead from the sentinels of receivers to objects, and
sentinels are never sent, so that it finds no cycle.
-/

set_option autoImplicit false

namespace Nulang.Orca

/-- A pointer: the owner is read from the header it points to. -/
structure Ref where
  owner : Nat
  addr : Addr
  deriving DecidableEq

inductive Status where
  | unborn | alive | retired | gone
  deriving DecidableEq

structure Runtime where
  status : Nat → Status
  /-- The heap of each actor and its ORCA engine; that of a retired actor is its retired heap. -/
  engine : Nat → Engine
  /-- `suspended_execution` is set. -/
  suspended : Nat → Bool
  /-- The capacity of each mailbox; `0` is no bound. -/
  capacity : Nat → Nat
  mailboxes : List (Nat × List (Option Ref))
  heldForeignRefs : List (Nat × Ref)
  pendingOps : List ForeignRefOp

/-- `heap_has_outstanding_foreign_refs`. -/
def Engine.hasOutstandingForeignRefs (E : Engine) : Bool :=
  (List.range E.top).any fun p => (E.heap p).live && decide (0 < (E.heap p).foreignCount)

namespace Runtime

def initial : Runtime :=
  { status := fun _ => .unborn, engine := .new, suspended := fun _ => false,
    capacity := fun _ => 0, mailboxes := [], heldForeignRefs := [], pendingOps := [] }

def setEngine (R : Runtime) (a : Nat) (E : Engine) : Runtime :=
  { R with engine := fun b => if b = a then E else R.engine b }

def setStatus (R : Runtime) (a : Nat) (s : Status) : Runtime :=
  { R with status := fun b => if b = a then s else R.status b }

/-- The object that a pointer points to is in memory: its heap is there and has it. -/
def Valid (R : Runtime) (r : Ref) : Prop :=
  (R.status r.owner = .alive ∨ R.status r.owner = .retired) ∧
    ((R.engine r.owner).heap r.addr).live = true

/-- `foreign_count += 1`: through `send_ref_to` or `inc_foreign_hold` of an owner that is alive, and
on the header itself where the owner's heap is retired. -/
def bumpForeign (R : Runtime) (r : Ref) : Runtime :=
  R.setEngine r.owner ((R.engine r.owner).incForeignHold r.addr)

/-- A foreign-reference operation: through `process_foreign_op` of an owner that is alive, which may
reclaim the object, and on the header itself where the owner's heap is retired. -/
def applyForeignOp (fuel : Nat) (R : Runtime) (op : ForeignRefOp) : Option Runtime :=
  if R.status op.ownerActor = .alive then
    (((R.engine op.ownerActor).processForeignOp op.objectHeader op.delta).settle fuel).map
      (R.setEngine op.ownerActor)
  else some (R.setEngine op.ownerActor
    ((R.engine op.ownerActor).modify op.objectHeader (Header.applyDelta op.delta)))

/-- `reclaim_retired_heaps`. -/
def reclaimRetiredHeaps (R : Runtime) : Runtime :=
  { R with status := fun a =>
      if R.status a = .retired ∧ (R.engine a).hasOutstandingForeignRefs = false then .gone
      else R.status a }

/-- The release of a reference to `r` that `target` was given. -/
def release (target : Nat) (r : Ref) : ForeignRefOp :=
  { targetActor := target, ownerActor := r.owner, objectHeader := r.addr, delta := -1 }

/-- The ORCA part of an accepted message: every pointer is in flight, and its release is queued. -/
def countSent (R : Runtime) (target : Nat) (payload : List (Option Ref)) : Runtime :=
  payload.reduceOption.foldl (fun R r =>
    { R.bumpForeign r with pendingOps := R.pendingOps ++ [release target r] }) R

/-- `deliver_local_message` for a message of a running actor. -/
def deliverLocalMessage (R : Runtime) (target : Nat) (payload : List (Option Ref)) : Runtime :=
  if R.status target ≠ .alive then R
  else if R.capacity target ≠ 0 ∧
      R.capacity target ≤ (R.mailboxes.filter (·.1 = target)).length then R
  else countSent { R with mailboxes := R.mailboxes ++ [(target, payload)] } target payload

/-- `hold_payload_refs`. -/
def holdPayloadRefs (R : Runtime) (receiver : Nat) (payload : List (Option Ref)) : Runtime :=
  payload.reduceOption.foldl (fun R r =>
    { R.bumpForeign r with heldForeignRefs := R.heldForeignRefs ++ [(receiver, r)] }) R

/-- An actor takes the message at position `k` of all mailboxes, if it is one of its own. -/
def receive (R : Runtime) (receiver k : Nat) : Runtime :=
  match R.mailboxes[k]? with
  | some (b, payload) =>
    if b = receiver then
      holdPayloadRefs { R with mailboxes := R.mailboxes.eraseIdx k } receiver payload
    else R
  | none => R

/-- `release_held_foreign_refs`. -/
def releaseHeldForeignRefs (fuel : Nat) (R : Runtime) (a : Nat) : Option Runtime :=
  (((R.heldForeignRefs.filter (·.1 = a)).map fun hold => release a hold.2).foldlM
    (applyForeignOp fuel) { R with heldForeignRefs := R.heldForeignRefs.filter (·.1 ≠ a) }).map
    reclaimRetiredHeaps

/-- `reap_living_actor`: the holds go, the mailbox goes, and the heap goes unless its objects are
referenced. -/
def exit (fuel : Nat) (R : Runtime) (a : Nat) : Option Runtime :=
  (R.releaseHeldForeignRefs fuel a).map fun R' =>
    { R' with mailboxes := R'.mailboxes.filter (·.1 ≠ a) }.setStatus a
      (if (R'.engine a).hasOutstandingForeignRefs then .retired else .gone)

/-- `process_gc_ops`. -/
def processGcOps (fuel : Nat) (R : Runtime) : Option Runtime :=
  (R.pendingOps.foldlM (applyForeignOp fuel) { R with pendingOps := [] }).map reclaimRetiredHeaps

end Runtime

/-- What the runtime does. `call` is a call that a running actor's code makes on its own engine;
`process_deferred_all` is one `processDeferred` per actor. -/
inductive Action where
  | spawn (a capacity : Nat)
  | call (a : Nat) (c : Call)
  | send (a target : Nat) (payload : List (Option Ref))
  | receive (a k : Nat)
  | suspend (a : Nat)
  | resume (a : Nat)
  | exit (a : Nat)
  | processGcOps
  | processDeferred (a : Nat)

/-- The calls that an actor's code makes on the engine: those without foreign counts. -/
def Call.isLocal : Call → Bool
  | .allocObject .. | .localRef _ | .dropLocalRef _ | .pinObject _ | .unpinObject _
  | .storeSlot .. => true
  | _ => false

namespace Runtime

def perform (fuel : Nat) (R : Runtime) : Action → Option Runtime
  | .spawn a capacity => some
      { (R.setEngine a (.new a)).setStatus a .alive with
        suspended := fun b => if b = a then false else R.suspended b
        capacity := fun b => if b = a then capacity else R.capacity b }
  | .call a c => ((c.start (R.engine a)).settle fuel).map (R.setEngine a)
  | .send _ target payload => some (R.deliverLocalMessage target payload)
  | .receive a k => some (R.receive a k)
  | .suspend a => some { R with suspended := fun b => if b = a then true else R.suspended b }
  | .resume a => some { R with suspended := fun b => if b = a then false else R.suspended b }
  | .exit a => R.exit fuel a
  | .processGcOps => R.processGcOps fuel
  | .processDeferred a => (((R.engine a).push (.scan 0)).settle fuel).map (R.setEngine a)

/-- The foreign counts have room for the pointers of a message. -/
def HasRoom (R : Runtime) (payload : List (Option Ref)) : Prop :=
  ∀ r ∈ payload.reduceOption,
    ((R.engine r.owner).heap r.addr).foreignCount + payload.reduceOption.count r < countLimit

/-- Only running actors act, on pointers to objects that are there, and no count leaves the range of
a `u32`. -/
def Lawful (R : Runtime) : Action → Prop
  | .spawn a _ => R.status a = .unborn
  | .call a c => R.status a = .alive ∧ R.suspended a = false ∧ c.isLocal = true ∧
      Orca.Lawful (R.engine a) c
  | .send a _ payload => R.status a = .alive ∧ R.suspended a = false ∧
      (∀ slot ∈ payload, ∀ r ∈ slot, R.Valid r) ∧ R.HasRoom payload
  | .receive a k => R.status a = .alive ∧ R.suspended a = false ∧
      ∀ msg ∈ R.mailboxes[k]?, R.HasRoom msg.2
  | .suspend a | .resume a | .exit a | .processDeferred a => R.status a = .alive
  | .processGcOps => True

instance (R : Runtime) (r : Ref) : Decidable (R.Valid r) := inferInstanceAs (Decidable (_ ∧ _))

instance (R : Runtime) (payload : List (Option Ref)) : Decidable (R.HasRoom payload) :=
  inferInstanceAs (Decidable (∀ r ∈ payload.reduceOption, _ < _))

instance (R : Runtime) (a : Action) : Decidable (R.Lawful a) :=
  match a with
  | .spawn _ _ | .suspend _ | .resume _ | .exit _ | .processDeferred _ =>
    inferInstanceAs (Decidable (_ = _))
  | .call _ _ => inferInstanceAs (Decidable (_ ∧ _ ∧ _ ∧ _))
  | .send _ _ _ => inferInstanceAs (Decidable (_ ∧ _ ∧ _ ∧ _))
  | .receive _ _ => inferInstanceAs (Decidable (_ ∧ _ ∧ _))
  | .processGcOps => inferInstanceAs (Decidable True)

/-- A run: each action with the state after it. -/
inductive Trace : Runtime → List (Action × Runtime) → Prop where
  | nil (R : Runtime) : Trace R []
  | cons {R R' : Runtime} {a : Action} {t : List (Action × Runtime)} (hl : R.Lawful a) (fuel : Nat)
      (hp : R.perform fuel a = some R') (ht : Trace R' t) : Trace R ((a, R') :: t)

end Runtime

end Nulang.Orca

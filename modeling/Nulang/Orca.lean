import Nulang.Lib.SwapRemove

/-!
# The ORCA engine of one actor

`runtime/gc.rs`: every object carries a local and a foreign reference count and a sticky flag, and
is reclaimed when both counts are zero and the flag is off. `drop_local_ref`, `process_foreign_op`
and `process_deferred` reclaim, and reclaiming a container releases its children, which reclaims
further. The calls in progress are kept as data (`Frame`), so that each `drop_local_ref`, whoever
makes it, is one transition of `Engine.step`; a call of the engine is `Call.start` followed by steps
until no frame is left.

The counts are `u32` in the source. A lawful call leaves every count below `countLimit` (`Lawful`),
so that the sums here are the sums there; what a release build does when a count wraps is no lawful
run. The statistics are left out, and so is what the heap does with a block apart from handing out
blocks that are not in use: reclaimed memory keeps its header, as `ActorHeap::free` leaves it.
-/

set_option autoImplicit false

namespace Nulang.Orca

/-- The counts of a header are `u32`. -/
def countLimit : Nat := 4294967296

/-- Where a header lies. The payload follows it, so one address stands for both. -/
abbrev Addr := Nat

inductive TypeTag where
  | actorRef | array | string | record | closure | map | tuple | raw | remoteActor
  deriving DecidableEq

/-- The tags whose payload is an array of values that own references. -/
def TypeTag.isContainer : TypeTag → Bool
  | .array | .record | .tuple | .map => true
  | _ => false

/-- `OrcaHeader` with its payload. A slot is `some p` when it holds a pointer to the object `p`.
`live` and `serial` are not in memory: whether the block is in use, and which allocation made it. -/
structure Header where
  refCount : Nat
  foreignCount : Nat
  sticky : Bool
  typeTag : TypeTag
  actorId : Nat
  slots : List (Option Addr)
  live : Bool
  serial : Nat
  deriving DecidableEq

/-- `!sticky && local_count == 0 && foreign_count == 0`. -/
def Header.eligible (h : Header) : Bool :=
  h.refCount == 0 && h.foreignCount == 0 && !h.sticky

/-- `op.delta` applied to the foreign count. -/
def Header.applyDelta (delta : Int) (h : Header) : Header :=
  { h with foreignCount := if 0 ≤ delta then h.foreignCount + delta.toNat
      else h.foreignCount - (-delta).toNat }

/-- Write one slot of the payload. -/
def Header.setSlot (i : Nat) (v : Option Addr) (h : Header) : Header :=
  { h with slots := h.slots.set i v }

/-- Memory that was never allocated. -/
def Header.blank : Header :=
  { refCount := 0, foreignCount := 0, sticky := false, typeTag := .raw, actorId := 0, slots := [],
    live := false, serial := 0 }

/-- A call in progress. -/
inductive Frame where
  /-- `drop_local_ref` about to run. -/
  | drop (p : Addr)
  /-- `free_object_impl` on `p` with the slots it has not released yet. -/
  | free (p : Addr) (rest : List (Option Addr)) (removeFromDeferred : Bool)
  /-- `process_deferred` at index `i`. -/
  | scan (i : Nat)
  deriving DecidableEq

/-- `OrcaGc` with the heap it works on. `freed` records the headers that were passed to
`free_payload`, as they stood then; `allocs` counts allocations; blocks lie below `top`. -/
structure Engine where
  actorId : Nat
  heap : Addr → Header
  top : Nat
  deferredDecrements : List Addr
  stack : List Frame
  freed : List Header
  allocs : Nat

/-- The release of a reference that a message carried: `ForeignRefOp`. -/
structure ForeignRefOp where
  targetActor : Nat
  ownerActor : Nat
  objectHeader : Addr
  delta : Int
  deriving DecidableEq

namespace Engine

def new (actorId : Nat) : Engine :=
  { actorId, heap := fun _ => .blank, top := 0, deferredDecrements := [], stack := [], freed := [],
    allocs := 0 }

/-- Change the header at `p`. -/
def modify (E : Engine) (p : Addr) (f : Header → Header) : Engine :=
  { E with heap := fun q => if q = p then f (E.heap p) else E.heap q }

def push (E : Engine) (fr : Frame) : Engine := { E with stack := fr :: E.stack }

/-- The slots whose references the object owns in the eyes of this engine: those of a container
that belongs to the engine's actor. -/
def ownedSlots (E : Engine) (h : Header) : List (Option Addr) :=
  if h.actorId = E.actorId ∧ h.typeTag.isContainer then h.slots else []

/-- `alloc_object`, where `p` is the block that the heap hands out. -/
def allocObject (E : Engine) (p : Addr) (payloadSize : Nat) (tag : TypeTag) : Engine :=
  if payloadSize = 0 then E
  else
    { E with
      heap := fun q => if q = p then
          { refCount := 1, foreignCount := 0, sticky := false, typeTag := tag,
            actorId := E.actorId, slots := List.replicate (payloadSize / 8) none, live := true,
            serial := E.allocs }
        else E.heap q
      top := max E.top (p + 1)
      allocs := E.allocs + 1 }

/-- `local_ref`. -/
def localRef (E : Engine) (p : Addr) : Engine :=
  E.modify p fun h => { h with refCount := h.refCount + 1 }

/-- `remove_deferred`. -/
def removeDeferred (E : Engine) (p : Addr) : Engine :=
  { E with deferredDecrements := E.deferredDecrements.swapErase p }

/-- The beginning of `free_object_impl`: the children are released first. -/
def freeObjectImpl (E : Engine) (p : Addr) (removeFromDeferred : Bool) : Engine :=
  E.push (.free p (E.ownedSlots (E.heap p)) removeFromDeferred)

/-- `free_object`. -/
def freeObject (E : Engine) (p : Addr) : Engine := E.freeObjectImpl p true

/-- The end of `free_object_impl`, when every child is released. -/
def freePayload (E : Engine) (p : Addr) (removeFromDeferred : Bool) : Engine :=
  let E' := { E.modify p fun h => { h with live := false } with
    freed := E.freed ++ [E.heap p] }
  if removeFromDeferred then E'.removeDeferred p else E'

/-- `drop_local_ref`, up to the point where it calls `free_object`. -/
def dropLocalRef (E : Engine) (p : Addr) : Engine :=
  let E' := E.modify p fun h => { h with refCount := h.refCount - 1 }
  if (E'.heap p).refCount = 0 then
    if (E'.heap p).foreignCount = 0 ∧ (E'.heap p).sticky = false then E'.freeObject p
    else { E' with deferredDecrements := E'.deferredDecrements ++ [p] }
  else E'

/-- `send_ref_to`. -/
def sendRefTo (E : Engine) (p : Addr) (targetActor : Nat) : Engine × ForeignRefOp :=
  (E.modify p fun h => { h with foreignCount := h.foreignCount + 1 },
    { targetActor, ownerActor := E.actorId, objectHeader := p, delta := -1 })

/-- `receive_ref`. -/
def receiveRef (E : Engine) (p : Addr) : Engine :=
  E.modify p fun h => { h with foreignCount := h.foreignCount - 1, refCount := h.refCount + 1 }

/-- `inc_foreign_hold`. -/
def incForeignHold (E : Engine) (p : Addr) : Engine :=
  E.modify p fun h => { h with foreignCount := h.foreignCount + 1 }

/-- `process_foreign_op`, up to the point where it calls `free_object`. -/
def processForeignOp (E : Engine) (p : Addr) (delta : Int) : Engine :=
  let E' := E.modify p (Header.applyDelta delta)
  if (E'.heap p).foreignCount = 0 then
    if (E'.heap p).refCount = 0 ∧ (E'.heap p).sticky = false then E'.freeObject p else E'
  else E'

/-- `pin_object`. -/
def pinObject (E : Engine) (p : Addr) : Engine := E.modify p fun h => { h with sticky := true }

/-- `unpin_object`. -/
def unpinObject (E : Engine) (p : Addr) : Engine := E.modify p fun h => { h with sticky := false }

/-- One turn of the loop of `process_deferred`; `none` when the loop is over. -/
def scanDeferred (E : Engine) (i : Nat) : Option Engine :=
  match E.deferredDecrements[i]? with
  | none => none
  | some p =>
    if (E.heap p).eligible then
      some ({ E.push (.scan i) with
        deferredDecrements := E.deferredDecrements.swapRemove i }.freeObjectImpl p false)
    else some (E.push (.scan (i + 1)))

/-- `retain_ref` on a value, which does nothing unless it is a pointer. -/
def retain (E : Engine) : Option Addr → Engine
  | some p => E.localRef p
  | none => E

/-- The write barrier of the VM's container stores (`ArrStore`, `RecS`, `FieldS`): the new child is
retained, the slot written, and the old child released. -/
def storeSlot (E : Engine) (c : Addr) (i : Nat) (v : Option Addr) : Engine :=
  match ((E.retain v).heap c).slots[i]? with
  | some (some old) => ((E.retain v).modify c (Header.setSlot i v)).push (.drop old)
  | _ => (E.retain v).modify c (Header.setSlot i v)

/-- One transition of the call in progress; `none` when there is none. -/
def step (E : Engine) : Option Engine :=
  match E.stack with
  | [] => none
  | .drop p :: st => some ({ E with stack := st }.dropLocalRef p)
  | .free p (some c :: rest) r :: st => some { E with stack := .drop c :: .free p rest r :: st }
  | .free p (none :: rest) r :: st => some { E with stack := .free p rest r :: st }
  | .free p [] r :: st => some ({ E with stack := st }.freePayload p r)
  | .scan i :: st =>
    match { E with stack := st }.scanDeferred i with
    | some E' => some E'
    | none => some { E with stack := st }

/-- Run the call in progress to its end. -/
def settle : Nat → Engine → Option Engine
  | 0, E => if E.stack = [] then some E else none
  | fuel + 1, E => match E.step with
      | none => some E
      | some E' => settle fuel E'

end Engine

/-- The calls of the engine, and the container store through which its objects come to hold one
another. -/
inductive Call where
  | allocObject (p : Addr) (payloadSize : Nat) (tag : TypeTag)
  | localRef (p : Addr)
  | dropLocalRef (p : Addr)
  | sendRefTo (p : Addr) (targetActor : Nat)
  | receiveRef (p : Addr)
  | incForeignHold (p : Addr)
  | processForeignOp (p : Addr) (delta : Int)
  | pinObject (p : Addr)
  | unpinObject (p : Addr)
  | processDeferred
  | storeSlot (c : Addr) (i : Nat) (v : Option Addr)
  deriving DecidableEq

/-- The engine right after the call is made. -/
def Call.start (E : Engine) : Call → Engine
  | .allocObject p payloadSize tag => E.allocObject p payloadSize tag
  | .localRef p => E.localRef p
  | .dropLocalRef p => E.push (.drop p)
  | .sendRefTo p target => (E.sendRefTo p target).1
  | .receiveRef p => E.receiveRef p
  | .incForeignHold p => E.incForeignHold p
  | .processForeignOp p delta => E.processForeignOp p delta
  | .pinObject p => E.pinObject p
  | .unpinObject p => E.unpinObject p
  | .processDeferred => E.push (.scan 0)
  | .storeSlot c i v => E.storeSlot c i v

end Nulang.Orca

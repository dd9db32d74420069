import Nulang.Lib.Encoding
import Nulang.DurableActor

/-!
# Virtual actors

A virtual actor, or grain, is addressed by its type and key. It has no spawn: a message to its
reference brings it to life, from its snapshot or from the declared values of its type, and it is
put to sleep and thrown out when it idles (`runtime/mod.rs`, `runtime/grain.rs`). Where it lives is
recorded three times: `grainResidents` says whether it is in memory, `actorGrainId` which grain an
actor is, and `grainActorIds` which grain a reference stands for.

Eviction takes the grain out of `grainResidents`; an exit does not. A grain that has exited is still
recorded as resident, so no message brings it back (`reached_iff`). The reference is a 48-bit hash
of type and key, and a grain that is not in memory also loses its reference to any other grain with
the same hash.
-/

set_option autoImplicit false

namespace Nulang.Grain

open Option Function
open Persist (Message)
open Encoding (utf8)

structure GrainId where
  grainType : String
  key : String
deriving DecidableEq

/-- `actor_name`. -/
def GrainId.actorName (g : GrainId) : String := s!"{g.grainType}@{g.key}"

def fnvByte (hash : Nat) (b : UInt8) : Nat := (hash ^^^ b.toNat) * 0x100000001B3 % 2 ^ 64

/-- `grain_actor_id`: the hash of the type, a separator, and the key, cut to the bits of a
reference. -/
def GrainId.actorId (g : GrainId) : Nat :=
  let typed := (utf8 g.grainType).foldl fnvByte 0xCBF29CE484222325
  (utf8 g.key).foldl fnvByte (fnvByte typed 0xFF) % 2 ^ 48

structure ActorMeta where
  name : String
  isWorkflow : Bool
  isAgent : Bool
  isOrganization : Bool
  isVirtual : Bool
deriving DecidableEq

/-- `role`: at most one of the flags is set. -/
def ActorMeta.role (m : ActorMeta) : Except String Unit :=
  if ([m.isWorkflow, m.isAgent, m.isOrganization, m.isVirtual].filter id).length > 1 then
    .error (s!"actor metadata has conflicting roles (workflow={m.isWorkflow}, " ++
      s!"agent={m.isAgent}, organization={m.isOrganization}, virtual={m.isVirtual})")
  else .ok ()

structure DehydratePolicy where
  idleMs : Nat := 30000
  allowDehydrate : Bool := true
deriving DecidableEq

/-- A registered type: the schemas of its module, and when its grains may be put to sleep. -/
structure GrainType where
  actorMetadata : List ActorMeta
  dehydratePolicy : DehydratePolicy
deriving DecidableEq

/-- What hydration checks of a snapshot. Authority tokens that cannot be read stand for the text
that says why. -/
structure GrainSnapshot where
  activationEpoch : Nat
  schemaName : Option String
  authorityError : Option String
deriving DecidableEq

inductive SnapshotSchemaError where
  | unknownPersistedSchema (schemaName : String) (candidates : List String)
  | unexpectedPersistedSchema (expected actual : String)
  | ambiguousLegacySnapshot (candidates : List String)
  | moduleHasNoActorSchema
deriving DecidableEq

def SnapshotSchemaError.message : SnapshotSchemaError → String
  | .unknownPersistedSchema name candidates =>
    s!"persisted actor schema '{name}' is not declared by the loaded module (declared: " ++
      ", ".intercalate candidates ++ ")"
  | .unexpectedPersistedSchema expected actual =>
    s!"persisted actor schema '{actual}' does not match expected schema '{expected}'"
  | .ambiguousLegacySnapshot candidates =>
    "legacy snapshot has no actor schema identity and the loaded module declares " ++
      "multiple schemas: " ++ ", ".intercalate candidates
  | .moduleHasNoActorSchema => "loaded module declares no actor schema"

namespace GrainType

def sortedSchemaNames (t : GrainType) : List String :=
  (t.actorMetadata.map ActorMeta.name).mergeSort

/-- `resolve_snapshot_actor_meta`. -/
def resolveSnapshotActorMeta (t : GrainType) (persisted : Option String) :
    Except SnapshotSchemaError ActorMeta :=
  match persisted.filter fun name => name ≠ "" with
  | some name =>
    match t.actorMetadata.find? fun m => m.name = name with
    | some m => .ok m
    | none => .error (.unknownPersistedSchema name t.sortedSchemaNames)
  | none =>
    match t.actorMetadata with
    | [] => .error .moduleHasNoActorSchema
    | [m] => .ok m
    | _ => .error (.ambiguousLegacySnapshot t.sortedSchemaNames)

/-- `resolve_expected_snapshot_actor_meta`. -/
def resolveExpected (t : GrainType) (persisted : Option String) (expected : String) :
    Except SnapshotSchemaError ActorMeta := do
  let m ← t.resolveSnapshotActorMeta persisted
  if m.name ≠ expected then throw (.unexpectedPersistedSchema expected m.name)
  pure m

end GrainType

/-! ## The runtime -/

/-- An actor that is a grain, as far as its residence depends on it. -/
structure GrainActor where
  grain : GrainId
  activationEpoch : Nat
  mailbox : List Message
  capacity : Nat
  hibernated : Bool
  pinned : Bool
  midExecution : Bool
  holdsObjects : Bool
  idleMs : Nat
deriving DecidableEq

def GrainActor.new (g : GrainId) (epoch : Nat) : GrainActor where
  grain := g
  activationEpoch := epoch
  mailbox := []
  capacity := 0
  hibernated := false
  pinned := false
  midExecution := false
  holdsObjects := false
  idleMs := 0

/-- The checks of `restore_actor_from_snapshot`. -/
def restoreActorFromSnapshot (t : GrainType) (snapshot : GrainSnapshot) (g : GrainId) :
    Except String GrainActor :=
  if snapshot.activationEpoch = 0 then
    .error s!"actor {g.actorId} snapshot has invalid activation epoch 0"
  else
    match t.resolveExpected snapshot.schemaName g.grainType with
    | .error e => .error e.message
    | .ok m =>
      match m.role, snapshot.authorityError with
      | .error e, _ => .error e
      | .ok _, some e => .error e
      | .ok _, none => .ok (GrainActor.new g snapshot.activationEpoch)

structure DeadLetter where
  message : Message
  reason : String
deriving DecidableEq

structure Runtime where
  actors : Nat → Option GrainActor
  grainRegistry : String → Option GrainType
  grainResidents : GrainId → Option Nat
  actorGrainId : Nat → Option GrainId
  grainActorIds : Nat → Option GrainId
  snapshots : Nat → Option GrainSnapshot
  deadLetters : List DeadLetter

inductive Admission where
  | accepted
  | backpressured
  | rejected
deriving DecidableEq

namespace Runtime

variable (rt : Runtime)

def setActor (id : Nat) (a : Option GrainActor) : Runtime :=
  { rt with actors := update rt.actors id a }

def routeToDlq (msg : Message) (reason : String) : Runtime :=
  { rt with deadLetters := rt.deadLetters ++ [⟨msg, reason⟩] }

/-- `reap_living_actor`, as far as it touches what is kept here. -/
def exit (id : Nat) : Runtime := rt.setActor id none

def settle (g : GrainId) (a : GrainActor) : Runtime :=
  { rt with
    actors := update rt.actors g.actorId (some a)
    grainResidents := update rt.grainResidents g (some g.actorId)
    actorGrainId := update rt.actorGrainId g.actorId (some g)
    grainActorIds := update rt.grainActorIds g.actorId (some g) }

/-- The actor hydration makes of the snapshot, or of the declared values. -/
def hydrated (t : GrainType) (g : GrainId) : Except String GrainActor :=
  match rt.snapshots g.actorId with
  | some snapshot => restoreActorFromSnapshot t snapshot g
  | none => .ok (GrainActor.new g 1)

/-- What was journaled after the snapshot is run again; code that is run again can make its actor
exit. -/
def replayed (g : GrainId) (outlives : Bool) : Runtime :=
  if (rt.snapshots g.actorId).isSome ∧ outlives = false then rt.exit g.actorId else rt

/-- `resolve_or_hydrate_grain`. Whether the actor outlives the replay of its journal is up to its
code. -/
def resolveOrHydrateGrain (g : GrainId) (outlives : Bool) : Except String Nat × Runtime :=
  match rt.grainResidents g with
  | some id => (.ok id, rt)
  | none =>
    match rt.grainRegistry g.grainType with
    | none => (.error s!"unknown virtual actor type: {g.grainType}", rt)
    | some t =>
      match rt.hydrated t g with
      | .error e => (.error s!"invalid durable snapshot for virtual actor {g.actorName}: {e}", rt)
      | .ok a => (.ok g.actorId, (rt.settle g a).replayed g outlives)

/-- `deliver_local_message`. -/
def deliverLocalMessage (id : Nat) (msg : Message) : Admission × Runtime :=
  match rt.actors id with
  | none => (.rejected, rt.routeToDlq msg "target actor not found")
  | some a =>
    if a.capacity = 0 ∨ a.mailbox.length < a.capacity then
      (.accepted, rt.setActor id (some { a with mailbox := a.mailbox ++ [msg], idleMs := 0 }))
    else (.backpressured, rt.routeToDlq msg "mailbox full")

/-- A grain that sleeps is woken by a message. -/
def wake (id : Nat) : Runtime :=
  if (rt.actorGrainId id).isSome then
    rt.setActor id ((rt.actors id).map fun a => { a with hibernated := false }) else rt

/-- A grain that is not in memory is hydrated, and the message delivered. -/
def hydrateAndDeliver (id : Nat) (g : GrainId) (msg : Message) (outlives : Bool) :
    Admission × Runtime :=
  match rt.resolveOrHydrateGrain g outlives with
  | (.error _, rt') => (.rejected, rt'.routeToDlq msg "grain hydration failed")
  | (.ok _, rt') =>
    if (rt'.actors id).isSome then rt'.deliverLocalMessage id msg
    else (.rejected, rt'.routeToDlq msg "grain hydration failed")

/-- `send_message_by_id` on a node of one shard, for an actor that has not been moved. -/
def sendMessageById (id : Nat) (msg : Message) (outlives : Bool) : Admission × Runtime :=
  let woken := rt.wake id
  match woken.actors id, woken.grainActorIds id with
  | none, some g => woken.hydrateAndDeliver id g msg outlives
  | _, _ => woken.deliverLocalMessage id msg

/-- `Grain.ref`. -/
def grainRef (g : GrainId) : Runtime :=
  { rt with grainActorIds := update rt.grainActorIds g.actorId (some g) }

/-- `Grain.pin` and `Grain.unpin`. -/
def pin (g : GrainId) (pinned outlives : Bool) : Runtime :=
  match rt.resolveOrHydrateGrain g outlives with
  | (.error _, rt') => rt'
  | (.ok id, rt') => rt'.setActor id ((rt'.actors id).map fun a => { a with pinned := pinned })

/-- `send_to_grain`. -/
def sendToGrain (g : GrainId) (msg : Message) (outlives : Bool) : Runtime :=
  match rt.resolveOrHydrateGrain g outlives with
  | (.error _, rt') => rt'
  | (.ok id, rt') => if (rt'.actors id).isSome then (rt'.sendMessageById id msg outlives).2 else rt'

/-- `build_actor_snapshot`. -/
def snapshotOf (g : GrainId) (a : GrainActor) : GrainSnapshot :=
  ⟨a.activationEpoch, some g.grainType, none⟩

/-- A turn of the actor: it takes a message, and is checkpointed. -/
def turn (id : Nat) (mid holds : Bool) : Runtime :=
  match rt.actors id with
  | none => rt
  | some a =>
    { rt with
      actors := update rt.actors id (some { a with
        mailbox := a.mailbox.tail, midExecution := mid, holdsObjects := holds })
      snapshots := update rt.snapshots id (some (snapshotOf a.grain a)) }

/-- `DEHYDRATE_CHECK_INTERVAL`. -/
def checkInterval : Nat := 50

/-- Whether the scan passes over an actor. -/
def GrainActor.busy (a : GrainActor) : Bool :=
  a.pinned || a.hibernated || a.midExecution || !a.mailbox.isEmpty

/-- The scan of `dehydrate_idle_grains` at one actor; `saves` says whether the store takes the
snapshot. -/
def dehydrateAt (id : Nat) (saves : Bool) : Runtime :=
  match rt.actorGrainId id, rt.actors id with
  | some g, some a =>
    match rt.grainRegistry g.grainType with
    | none => rt
    | some t =>
      if GrainActor.busy a ∨ t.dehydratePolicy.allowDehydrate = false then rt
      else if a.idleMs + checkInterval < t.dehydratePolicy.idleMs ∨ saves = false then
        rt.setActor id (some { a with idleMs := a.idleMs + checkInterval })
      else
        { rt with
          actors := update rt.actors id (some { a with hibernated := true, idleMs := 0 })
          snapshots := update rt.snapshots id (some (snapshotOf g a)) }
  | _, _ => rt

/-- One eviction of `evict_hibernated_grains`. -/
def evictAt (id : Nat) : Runtime :=
  match rt.actorGrainId id, rt.actors id with
  | some g, some a =>
    if a.hibernated ∧ a.pinned = false ∧ a.mailbox = [] ∧ a.holdsObjects = false then
      { rt.setActor id none with grainResidents := update rt.grainResidents g none }
    else rt
  | _, _ => rt

end Runtime

/-- What can happen. The scans are taken apart into their actors, so every order and every bound is
covered. -/
inductive Op where
  | register (name : String) (t : GrainType)
  | ref (g : GrainId)
  | prewarm (g : GrainId) (outlives : Bool)
  | pin (g : GrainId) (pinned outlives : Bool)
  | send (id : Nat) (msg : Message) (outlives : Bool)
  | sendToGrain (g : GrainId) (msg : Message) (outlives : Bool)
  | turn (id : Nat) (mid holds : Bool)
  | dehydrate (id : Nat) (saves : Bool)
  | evict (id : Nat)
  | exit (id : Nat)

def Runtime.perform (rt : Runtime) : Op → Runtime
  | .register name t => { rt with grainRegistry := update rt.grainRegistry name (some t) }
  | .ref g => rt.grainRef g
  | .prewarm g outlives => (rt.resolveOrHydrateGrain g outlives).2
  | .pin g pinned outlives => rt.pin g pinned outlives
  | .send id msg outlives => (rt.sendMessageById id msg outlives).2
  | .sendToGrain g msg outlives => rt.sendToGrain g msg outlives
  | .turn id mid holds => rt.turn id mid holds
  | .dehydrate id saves => rt.dehydrateAt id saves
  | .evict id => rt.evictAt id
  | .exit id => rt.exit id

def Runtime.start (snapshots : Nat → Option GrainSnapshot) : Runtime where
  actors := fun _ => none
  grainRegistry := fun _ => none
  grainResidents := fun _ => none
  actorGrainId := fun _ => none
  grainActorIds := fun _ => none
  snapshots := snapshots
  deadLetters := []

/-! ## When a grain is reached -/

/-- The message gets into the mailbox of the grain, or that mailbox is full. -/
def Runtime.Reached (rt : Runtime) (g : GrainId) (msg : Message) (outlives : Bool) : Prop :=
  let sent := rt.sendMessageById g.actorId msg outlives
  ∃ a, sent.2.actors g.actorId = some a ∧ a.grain = g ∧
    (sent.1 = .accepted ∧ a.mailbox.getLast? = some msg ∨ sent.1 = .backpressured)

/-- The reference stands for the grain: no other grain of the same hash has taken its place. -/
def Runtime.Held (rt : Runtime) (g : GrainId) : Prop :=
  match rt.actors g.actorId with
  | some a => a.grain = g
  | none => rt.grainActorIds g.actorId = some g

/-- The grain has exited and is still recorded as resident. -/
def Runtime.Lost (rt : Runtime) (g : GrainId) : Prop :=
  rt.actors g.actorId = none ∧ rt.grainResidents g ≠ none

/-- Bringing the grain back, if that is necessary, does not make it exit. -/
def Runtime.Revives (rt : Runtime) (g : GrainId) (outlives : Bool) : Prop :=
  (rt.actors g.actorId).isSome ∨ rt.snapshots g.actorId = none ∨ outlives = true

section Reached

variable {rt : Runtime} {g : GrainId} {msg : Message} {outlives : Bool}

variable {a : GrainActor} {id : Nat} {t : GrainType} {h : GrainId}

theorem deliver_live (ha : rt.actors id = some a) :
    ∃ b, (rt.deliverLocalMessage id msg).2.actors id = some b ∧ b.grain = a.grain ∧
      ((rt.deliverLocalMessage id msg).1 = .accepted ∧ b.mailbox.getLast? = some msg ∨
        (rt.deliverLocalMessage id msg).1 = .backpressured) := by
  unfold Runtime.deliverLocalMessage
  rw [ha]
  dsimp only
  split_ifs with hroom
  · exact ⟨_, update_self .., rfl, .inl ⟨rfl, List.getLast?_concat ..⟩⟩
  · exact ⟨a, ha, rfl, .inr rfl⟩

theorem wake_actors (rt : Runtime) (id : Nat) : (rt.wake id).actors id = (rt.actors id).map fun a =>
      if (rt.actorGrainId id).isSome then { a with hibernated := false } else a := by
  unfold Runtime.wake
  split_ifs with hgrain
  · exact update_self ..
  · cases rt.actors id with
    | none => rfl
    | some a => rfl

theorem wake_of_absent (ha : rt.actors id = none) : rt.wake id = rt := by
  unfold Runtime.wake
  split_ifs with hgrain
  · have hsame : update rt.actors id none = rt.actors := by
      rw [← ha]
      exact update_eq_self ..
    simp only [Runtime.setActor, ha, map_none, hsame]
  · rfl

theorem hydrated_grain (h : rt.hydrated t g = .ok a) : a.grain = g := by
  unfold Runtime.hydrated at h
  cases hs : rt.snapshots g.actorId with
  | none =>
    rw [hs] at h
    cases h
    rfl
  | some snapshot =>
    rw [hs] at h
    dsimp only at h
    unfold restoreActorFromSnapshot at h
    split_ifs at h with hepoch
    cases hmeta : t.resolveExpected snapshot.schemaName g.grainType with
    | error e =>
      rw [hmeta] at h
      cases h
    | ok m =>
      rw [hmeta] at h
      dsimp only at h
      cases hrole : m.role with
      | error e =>
        rw [hrole] at h
        cases h
      | ok u =>
        rw [hrole] at h
        cases hauthority : snapshot.authorityError with
        | some e =>
          rw [hauthority] at h
          cases h
        | none =>
          rw [hauthority] at h
          cases h
          rfl

theorem sendMessageById_live (ha : rt.actors id = some a) :
    rt.sendMessageById id msg outlives = (rt.wake id).deliverLocalMessage id msg := by
  unfold Runtime.sendMessageById
  have hwoken := wake_actors rt id
  rw [ha] at hwoken
  dsimp only
  rw [hwoken]
  rfl

theorem sendMessageById_absent (msg : Message) (outlives : Bool) (ha : rt.actors id = none)
    (hid : rt.grainActorIds id = some h) :
    rt.sendMessageById id msg outlives = rt.hydrateAndDeliver id h msg outlives := by
  unfold Runtime.sendMessageById
  rw [wake_of_absent ha]
  dsimp only
  rw [ha, hid]

theorem sendMessageById_unknown (ha : rt.actors id = none) (hid : rt.grainActorIds id = none) :
    rt.sendMessageById id msg outlives =
      (.rejected, rt.routeToDlq msg "target actor not found") := by
  unfold Runtime.sendMessageById
  rw [wake_of_absent ha]
  dsimp only
  rw [ha, hid]
  unfold Runtime.deliverLocalMessage
  rw [ha]

/-- A message to a grain in memory reaches whoever has the identity. -/
theorem reached_live (ha : rt.actors g.actorId = some a) :
    rt.Reached g msg outlives ↔ a.grain = g := by
  have hwoken : ∃ b, (rt.wake g.actorId).actors g.actorId = some b ∧ b.grain = a.grain := by
    rw [wake_actors, ha]
    split_ifs with hgrain
    · exact ⟨_, rfl, rfl⟩
    · exact ⟨_, rfl, rfl⟩
  obtain ⟨b, hb, hgrain⟩ := hwoken
  obtain ⟨c, hc, hsame, hadmitted⟩ := deliver_live hb
  unfold Runtime.Reached
  rw [sendMessageById_live ha]
  constructor
  · rintro ⟨d, hd, hd', _⟩
    rw [hc] at hd
    cases hd
    rw [← hd', hsame, hgrain]
  · intro heq
    exact ⟨c, hc, by rw [hsame, hgrain, heq], hadmitted⟩

theorem not_reached_of_rejected (h : (rt.sendMessageById g.actorId msg outlives).1 = .rejected) :
    ¬ rt.Reached g msg outlives := by
  rintro ⟨a, _, _, hadmitted⟩
  rw [h] at hadmitted
  rcases hadmitted with ⟨hacc, _⟩ | hback
  · cases hacc
  · cases hback

/-- Hydration does not bring back a grain that is recorded as resident. -/
theorem hydrateAndDeliver_resident (ha : rt.actors id = none) (hres : rt.grainResidents h ≠ none) :
    (rt.hydrateAndDeliver id h msg outlives).1 = .rejected := by
  obtain ⟨other, hother⟩ := ne_none_iff_exists'.mp hres
  unfold Runtime.hydrateAndDeliver Runtime.resolveOrHydrateGrain
  simp only [hother, ha, isSome_none, Bool.false_eq_true, if_false]

/-- What hydration leaves under the identity. -/
theorem hydrateAndDeliver_hydrates (hres : rt.grainResidents h = none)
    (ht : rt.grainRegistry h.grainType = some t) (hok : rt.hydrated t h = .ok a) :
    rt.hydrateAndDeliver h.actorId h msg outlives =
      if (rt.snapshots h.actorId).isSome ∧ outlives = false then
        (.rejected, ((rt.settle h a).exit h.actorId).routeToDlq msg "grain hydration failed")
      else (rt.settle h a).deliverLocalMessage h.actorId msg := by
  have hsettled : (rt.settle h a).actors h.actorId = some a := update_self ..
  have hgone : ((rt.settle h a).exit h.actorId).actors h.actorId = none := update_self ..
  have hsnapshots : (rt.settle h a).snapshots = rt.snapshots := rfl
  unfold Runtime.hydrateAndDeliver Runtime.resolveOrHydrateGrain
  simp only [hres, ht, hok]
  unfold Runtime.replayed
  rw [hsnapshots]
  by_cases hdies : (rt.snapshots h.actorId).isSome ∧ outlives = false
  · rw [if_pos hdies, if_pos hdies, hgone]
    rfl
  · rw [if_neg hdies, if_neg hdies, hsettled]
    rfl

/-- An actor that hydration has put somewhere is the grain that was hydrated. -/
theorem resolved_grain (ha : rt.actors id = none) {b : GrainActor}
    (hb : (rt.resolveOrHydrateGrain h outlives).2.actors id = some b) : b.grain = h := by
  have habsent : rt.actors id ≠ some b := by
    rw [ha]
    exact fun hne => by cases hne
  unfold Runtime.resolveOrHydrateGrain at hb
  -- A new actor is at the address of `h`; any other address is as it was, and empty.
  cases hres : rt.grainResidents h with
  | some other =>
    rw [hres] at hb
    exact absurd hb habsent
  | none =>
    rw [hres] at hb
    cases ht : rt.grainRegistry h.grainType with
    | none =>
      rw [ht] at hb
      exact absurd hb habsent
    | some t =>
      rw [ht] at hb
      dsimp only at hb
      cases hok : rt.hydrated t h with
      | error e =>
        rw [hok] at hb
        exact absurd hb habsent
      | ok a =>
        rw [hok] at hb
        dsimp only at hb
        have hsettled : (rt.settle h a).actors id = some b := by
          unfold Runtime.replayed at hb
          split_ifs at hb with hdies
          · by_cases hid : id = h.actorId
            · rw [hid] at hb
              rw [show ((rt.settle h a).exit h.actorId).actors h.actorId =
                none from update_self ..] at hb
              cases hb
            · exact (update_of_ne hid ..).symm.trans hb
          · exact hb
        by_cases hid : id = h.actorId
        · rw [hid, show (rt.settle h a).actors h.actorId = some a from update_self ..] at hsettled
          cases hsettled
          exact hydrated_grain hok
        · exact absurd ((update_of_ne hid ..).symm.trans hsettled) habsent

/-- A reference that stands for another grain does not reach this one. -/
theorem not_reached_other (ha : rt.actors g.actorId = none)
    (hid : rt.grainActorIds g.actorId = some h) (hne : h ≠ g) : ¬ rt.Reached g msg outlives := by
  intro hreached
  have hsent := sendMessageById_absent msg outlives ha hid
  unfold Runtime.hydrateAndDeliver at hsent
  cases hresolved : rt.resolveOrHydrateGrain h outlives with
  | mk result rt' =>
    rw [hresolved] at hsent
    cases result with
    | error e => exact not_reached_of_rejected (by rw [hsent]) hreached
    | ok other =>
      dsimp only at hsent
      cases hactor : rt'.actors g.actorId with
      | none =>
        rw [hactor] at hsent
        exact not_reached_of_rejected (by rw [hsent]; rfl) hreached
      | some b =>
        rw [hactor, isSome_some, if_pos rfl] at hsent
        have hb' : (rt.resolveOrHydrateGrain h outlives).2.actors g.actorId = some b := by
          rw [hresolved]
          exact hactor
        have hb : b.grain = h := resolved_grain ha hb'
        obtain ⟨c, hc, hsame, _⟩ := deliver_live hactor
        obtain ⟨d, hd, hgrain, _⟩ := hreached
        rw [hsent, hc] at hd
        cases hd
        exact hne (by rw [← hb, ← hsame, hgrain])

theorem reached_hydrated (ha : rt.actors g.actorId = none)
    (hid : rt.grainActorIds g.actorId = some g) (hres : rt.grainResidents g = none)
    (ht : rt.grainRegistry g.grainType = some t) (hok : rt.hydrated t g = .ok a) :
    rt.Reached g msg outlives ↔ rt.snapshots g.actorId = none ∨ outlives = true := by
  have hsent :=
    (sendMessageById_absent msg outlives ha hid).trans (hydrateAndDeliver_hydrates hres ht hok)
  by_cases hdies : (rt.snapshots g.actorId).isSome ∧ outlives = false
  · rw [if_pos hdies] at hsent
    refine iff_of_false (not_reached_of_rejected (by rw [hsent])) ?_
    rintro (hnone | hlives)
    · rw [hnone] at hdies
      exact Bool.false_ne_true hdies.1
    · rw [hlives] at hdies
      exact Bool.false_ne_true hdies.2.symm
  · rw [if_neg hdies] at hsent
    obtain ⟨c, hc, hsame, hadmitted⟩ :=
      deliver_live (show (rt.settle g a).actors g.actorId = some a from update_self ..)
    refine iff_of_true ?_ ?_
    · unfold Runtime.Reached
      rw [hsent]
      exact ⟨c, hc, hsame.trans (hydrated_grain hok), hadmitted⟩
    · rw [not_and_or, not_isSome_iff_eq_none, Bool.not_eq_false] at hdies
      exact hdies

/-- A message to the reference of a grain, whose type is registered and whose snapshot is valid,
gets to the grain exactly if the reference stands for it, it has not exited, and bringing it back
does not make it exit. -/
theorem reached_iff (ht : rt.grainRegistry g.grainType = some t) (hok : rt.hydrated t g = .ok a) :
    rt.Reached g msg outlives ↔ rt.Held g ∧ ¬ rt.Lost g ∧ rt.Revives g outlives := by
  unfold Runtime.Held Runtime.Lost Runtime.Revives
  cases ha : rt.actors g.actorId with
  | some b =>
    rw [reached_live ha]
    simp
  | none =>
    by_cases hid : rt.grainActorIds g.actorId = some g
    · by_cases hres : rt.grainResidents g = none
      · rw [reached_hydrated ha hid hres ht hok]
        simp [hid, hres]
      · refine iff_of_false (not_reached_of_rejected ?_) fun h => h.2.1 ⟨rfl, hres⟩
        rw [sendMessageById_absent _ _ ha hid]
        exact hydrateAndDeliver_resident ha hres
    · refine iff_of_false ?_ fun h => hid h.1
      cases hknown : rt.grainActorIds g.actorId with
      | none => exact not_reached_of_rejected (by rw [sendMessageById_unknown ha hknown])
      | some h => exact not_reached_other ha hknown fun heq => hid (by rw [hknown, heq])

end Reached

/-! ## Careful runs -/

/-- No other grain of the same hash is known. -/
def Runtime.Unclaimed (rt : Runtime) (g : GrainId) : Prop :=
  ∀ h, rt.grainActorIds g.actorId = some h → h = g

/-- No grain exits, and no two grains of the same hash are used. -/
def Op.Careful (rt : Runtime) : Op → Prop
  | .register _ _ => True
  | .ref g => rt.Unclaimed g
  | .prewarm g outlives => rt.Unclaimed g ∧ outlives = true
  | .pin g _ outlives => rt.Unclaimed g ∧ outlives = true
  | .send _ _ outlives => outlives = true
  | .sendToGrain g _ outlives => rt.Unclaimed g ∧ outlives = true
  | .turn _ _ _ => True
  | .dehydrate _ _ => True
  | .evict _ => True
  | .exit id => rt.actors id = none

/-- The three records agree with the actors. -/
structure Runtime.Settled (rt : Runtime) : Prop where
  claimed : ∀ id g, rt.grainActorIds id = some g → g.actorId = id
  live : ∀ id a, rt.actors id = some a → rt.grainActorIds id = some a.grain ∧
    rt.actorGrainId id = some a.grain
  resident : ∀ g id, rt.grainResidents g = some id → id = g.actorId ∧
    ∃ a, rt.actors id = some a ∧ a.grain = g

/-- What a careful step does: the records stay in agreement, and no reference changes its
meaning. -/
structure Careful (rt rt' : Runtime) : Prop where
  settled : rt.Settled → rt'.Settled
  references : ∀ id g, rt.grainActorIds id = some g → rt'.grainActorIds id = some g

section Careful

variable {rt : Runtime} {g : GrainId} {id : Nat}

theorem Careful.refl (rt : Runtime) : Careful rt rt := ⟨fun h => h, fun _ _ h => h⟩

theorem Careful.trans {rt' rt'' : Runtime} (h : Careful rt rt') (h' : Careful rt' rt'') :
    Careful rt rt'' :=
  ⟨fun hs => h'.settled (h.settled hs), fun id g hg => h'.references id g (h.references id g hg)⟩

theorem careful_modify {rt' : Runtime} (hids : rt'.grainActorIds = rt.grainActorIds)
    (hgrains : rt'.actorGrainId = rt.actorGrainId)
    (hresidents : rt'.grainResidents = rt.grainResidents)
    (hactors : ∀ id, (rt'.actors id).map GrainActor.grain = (rt.actors id).map GrainActor.grain) :
    Careful rt rt' := by
  refine ⟨fun h => ⟨?_, ?_, ?_⟩, ?_⟩
  · rw [hids]
    exact h.claimed
  · intro id a ha
    have hgrain := hactors id
    rw [ha, map_some] at hgrain
    obtain ⟨b, hb, hsame⟩ := map_eq_some_iff.mp hgrain.symm
    rw [hids, hgrains, ← hsame]
    exact h.live id b hb
  · intro g id hg
    rw [hresidents] at hg
    obtain ⟨hid, a, ha, hgrain⟩ := h.resident g id hg
    have hsame := hactors id
    rw [ha, map_some] at hsame
    obtain ⟨b, hb, hb'⟩ := map_eq_some_iff.mp hsame
    exact ⟨hid, b, hb, hb'.trans hgrain⟩
  · rw [hids]
    exact fun _ _ hg => hg

theorem careful_setActor {a b : GrainActor} (ha : rt.actors id = some a)
    (hgrain : b.grain = a.grain) :
    Careful rt (rt.setActor id (some b)) := by
  refine careful_modify rfl rfl rfl fun other => ?_
  by_cases hother : other = id
  · subst hother
    rw [show (rt.setActor other (some b)).actors other = some b from update_self .., ha, map_some,
      map_some, hgrain]
  · rw [show (rt.setActor id (some b)).actors other = rt.actors other from update_of_ne hother ..]

theorem careful_mapActor (f : GrainActor → GrainActor) (hf : ∀ a, (f a).grain = a.grain) :
    Careful rt (rt.setActor id ((rt.actors id).map f)) := by
  cases ha : rt.actors id with
  | none =>
    have hsame : rt.setActor id none = rt := by
      unfold Runtime.setActor
      rw [← ha, update_eq_self]
    rw [map_none, hsame]
    exact Careful.refl rt
  | some a => exact careful_setActor ha (hf a)

theorem careful_settle (hg : rt.Unclaimed g) {a : GrainActor} (ha : a.grain = g) :
    Careful rt (rt.settle g a) := by
  have hids (id : Nat) (h : GrainId) (hid : (rt.settle g a).grainActorIds id = some h) :
      id = g.actorId ∧ h = g ∨ rt.grainActorIds id = some h := by
    by_cases heq : id = g.actorId
    · subst heq
      rw [show (rt.settle g a).grainActorIds g.actorId = some g from update_self ..] at hid
      exact .inl ⟨rfl, (some.inj hid).symm⟩
    · exact .inr ((update_of_ne heq ..).symm.trans hid)
  refine ⟨fun h => ⟨?_, ?_, ?_⟩, ?_⟩
  · intro id h' hid
    rcases hids id h' hid with ⟨rfl, rfl⟩ | hold
    · rfl
    · exact h.claimed id h' hold
  · intro id b hb
    by_cases heq : id = g.actorId
    · subst heq
      rw [show (rt.settle g a).actors g.actorId = some a from update_self ..] at hb
      cases hb
      rw [ha]
      exact ⟨update_self .., update_self ..⟩
    · rw [show (rt.settle g a).grainActorIds id = rt.grainActorIds id from update_of_ne heq ..,
        show (rt.settle g a).actorGrainId id = rt.actorGrainId id from update_of_ne heq ..]
      exact h.live id b ((update_of_ne heq ..).symm.trans hb)
  · intro h' id hres
    by_cases hsame : h' = g
    · subst hsame
      rw [show (rt.settle h' a).grainResidents h' = some h'.actorId from update_self ..] at hres
      cases hres
      exact ⟨rfl, a, update_self .., ha⟩
    · obtain ⟨hid, b, hb, hb'⟩ := h.resident h' id ((update_of_ne hsame ..).symm.trans hres)
      -- the identity is taken by `h'`, which is not `g`
      have hne : id ≠ g.actorId := by
        intro heq
        have hclaim := (h.live id b hb).1
        rw [heq, hb'] at hclaim
        exact hsame (hg h' hclaim)
      exact ⟨hid, b, (update_of_ne hne ..).trans hb, hb'⟩
  · intro id h' hid
    by_cases heq : id = g.actorId
    · subst heq
      rw [hg h' hid]
      exact update_self ..
    · exact (update_of_ne heq ..).trans hid

theorem careful_resolve (hg : rt.Unclaimed g) : Careful rt (rt.resolveOrHydrateGrain g true).2 := by
  unfold Runtime.resolveOrHydrateGrain
  cases hres : rt.grainResidents g with
  | some other => exact Careful.refl rt
  | none =>
    cases ht : rt.grainRegistry g.grainType with
    | none => exact Careful.refl rt
    | some t =>
      dsimp only
      cases hok : rt.hydrated t g with
      | error e => exact Careful.refl rt
      | ok a =>
        have hlives : (rt.settle g a).replayed g true = rt.settle g a :=
          if_neg fun h => by cases h.2
        dsimp only
        rw [hlives]
        exact careful_settle hg (hydrated_grain hok)

theorem careful_deliver (msg : Message) : Careful rt (rt.deliverLocalMessage id msg).2 := by
  unfold Runtime.deliverLocalMessage
  cases ha : rt.actors id with
  | none => exact careful_modify rfl rfl rfl fun _ => rfl
  | some a =>
    dsimp only
    split_ifs with hroom
    · exact careful_setActor ha rfl
    · exact careful_modify rfl rfl rfl fun _ => rfl

theorem careful_wake (rt : Runtime) (id : Nat) : Careful rt (rt.wake id) := by
  unfold Runtime.wake
  split_ifs with hgrain
  · exact careful_mapActor _ fun _ => rfl
  · exact Careful.refl rt

theorem careful_hydrateAndDeliver (hg : rt.Unclaimed g) (msg : Message) :
    Careful rt (rt.hydrateAndDeliver id g msg true).2 := by
  have hresolve := careful_resolve hg
  unfold Runtime.hydrateAndDeliver
  cases hresolved : rt.resolveOrHydrateGrain g true with
  | mk result rt' =>
    rw [hresolved] at hresolve
    cases result with
    | error e => exact hresolve.trans (careful_modify rfl rfl rfl fun _ => rfl)
    | ok other =>
      dsimp only
      split_ifs with hsome
      · exact hresolve.trans (careful_deliver msg)
      · exact hresolve.trans (careful_modify rfl rfl rfl fun _ => rfl)

/-- A message brings back the grain its reference stands for. -/
theorem careful_send (hs : rt.Settled) (msg : Message) :
    Careful rt (rt.sendMessageById id msg true).2 := by
  have hwake := careful_wake rt id
  unfold Runtime.sendMessageById
  dsimp only
  cases ha : (rt.wake id).actors id with
  | some a => exact hwake.trans (careful_deliver msg)
  | none =>
    cases hid : (rt.wake id).grainActorIds id with
    | none => exact hwake.trans (careful_deliver msg)
    | some g =>
      have hclaimed : g.actorId = id := (hwake.settled hs).claimed id g hid
      have hg : (rt.wake id).Unclaimed g := by
        intro h hh
        rw [hclaimed, hid] at hh
        exact (some.inj hh).symm
      exact hwake.trans (careful_hydrateAndDeliver hg msg)

theorem careful_evict : Careful rt (rt.evictAt id) := by
  unfold Runtime.evictAt
  cases hgrain : rt.actorGrainId id with
  | none => exact Careful.refl rt
  | some g =>
    cases ha : rt.actors id with
    | none => exact Careful.refl rt
    | some a =>
      dsimp only
      split_ifs with hidle
      · refine ⟨fun h => ⟨h.claimed, ?_, ?_⟩, fun _ _ hg => hg⟩
        · intro other b hb
          by_cases heq : other = id
          · subst heq
            rw [show (rt.setActor other none).actors other = none from update_self ..] at hb
            cases hb
          · exact h.live other b ((update_of_ne heq ..).symm.trans hb)
        · intro h' other hres
          have hne : h' ≠ g := by
            intro heq
            subst heq
            cases (update_self ..).symm.trans hres
          obtain ⟨hid, b, hb, hb'⟩ := h.resident h' other ((update_of_ne hne ..).symm.trans hres)
          -- the evicted actor is `g`
          have hother : other ≠ id := by
            intro heq
            have hboth := (h.live other b hb).2
            rw [heq, hgrain, hb'] at hboth
            exact hne (some.inj hboth).symm
          exact ⟨hid, b, (update_of_ne hother ..).trans hb, hb'⟩
      · exact Careful.refl rt

theorem careful_turn (mid holds : Bool) : Careful rt (rt.turn id mid holds) := by
  unfold Runtime.turn
  cases ha : rt.actors id with
  | none => exact Careful.refl rt
  | some a =>
    exact (careful_setActor ha
      (b := { a with mailbox := a.mailbox.tail, midExecution := mid, holdsObjects := holds })
      rfl).trans (careful_modify rfl rfl rfl fun _ => rfl)

theorem careful_dehydrate (saves : Bool) : Careful rt (rt.dehydrateAt id saves) := by
  unfold Runtime.dehydrateAt
  cases hgrain : rt.actorGrainId id with
  | none => exact Careful.refl rt
  | some g =>
    cases ha : rt.actors id with
    | none => exact Careful.refl rt
    | some a =>
      dsimp only
      cases rt.grainRegistry g.grainType with
      | none => exact Careful.refl rt
      | some t =>
        dsimp only
        split_ifs with hbusy hwaits
        · exact Careful.refl rt
        · exact careful_setActor ha rfl
        · exact (careful_setActor ha (b := { a with hibernated := true, idleMs := 0 }) rfl).trans
            (careful_modify rfl rfl rfl fun _ => rfl)

theorem careful_ref (hg : rt.Unclaimed g) : Careful rt (rt.grainRef g) := by
  have hids (id : Nat) (h : GrainId) (hid : rt.grainActorIds id = some h) :
      (rt.grainRef g).grainActorIds id = some h := by
    by_cases heq : id = g.actorId
    · subst heq
      rw [hg h hid]
      exact update_self ..
    · exact (update_of_ne heq ..).trans hid
  refine ⟨fun h =>
    ⟨?_, fun id a ha => ⟨hids id a.grain (h.live id a ha).1, (h.live id a ha).2⟩, h.resident⟩, hids⟩
  intro id h' hid
  by_cases heq : id = g.actorId
  · subst heq
    rw [show (rt.grainRef g).grainActorIds g.actorId = some g from update_self ..] at hid
    rw [some.inj hid]
  · exact h.claimed id h' ((update_of_ne heq ..).symm.trans hid)

theorem careful_pin (hg : rt.Unclaimed g) (pinned : Bool) : Careful rt (rt.pin g pinned true) := by
  have hresolve := careful_resolve hg
  unfold Runtime.pin
  cases hresolved : rt.resolveOrHydrateGrain g true with
  | mk result rt' =>
    rw [hresolved] at hresolve
    cases result with
    | error e => exact hresolve
    | ok other => exact hresolve.trans (careful_mapActor _ fun _ => rfl)

theorem careful_sendToGrain (hs : rt.Settled) (hg : rt.Unclaimed g) (msg : Message) :
    Careful rt (rt.sendToGrain g msg true) := by
  have hresolve := careful_resolve hg
  unfold Runtime.sendToGrain
  cases hresolved : rt.resolveOrHydrateGrain g true with
  | mk result rt' =>
    rw [hresolved] at hresolve
    cases result with
    | error e => exact hresolve
    | ok other =>
      dsimp only
      split_ifs with hsome
      · exact hresolve.trans (careful_send (hresolve.settled hs) msg)
      · exact hresolve

theorem careful_perform (hs : rt.Settled) {op : Op} (hc : op.Careful rt) :
    Careful rt (rt.perform op) := by
  cases op with
  | register name t => exact careful_modify rfl rfl rfl fun _ => rfl
  | ref g => exact careful_ref hc
  | prewarm g outlives =>
    obtain ⟨hg, rfl⟩ := hc
    exact careful_resolve hg
  | pin g pinned outlives =>
    obtain ⟨hg, rfl⟩ := hc
    exact careful_pin hg pinned
  | send id msg outlives =>
    obtain rfl : outlives = true := hc
    exact careful_send hs msg
  | sendToGrain g msg outlives =>
    obtain ⟨hg, rfl⟩ := hc
    exact careful_sendToGrain hs hg msg
  | turn id mid holds => exact careful_turn mid holds
  | dehydrate id saves => exact careful_dehydrate saves
  | evict id => exact careful_evict
  | exit id =>
    have hgone : rt.actors id = none := hc
    have hsame : rt.exit id = rt := by
      unfold Runtime.exit Runtime.setActor
      rw [← hgone, update_eq_self]
    show Careful rt (rt.exit id)
    rw [hsame]
    exact Careful.refl rt

end Careful

/-- Every step of the run is careful. -/
def CarefulFrom : Runtime → List Op → Prop
  | _, [] => True
  | rt, op :: ops => op.Careful rt ∧ CarefulFrom (rt.perform op) ops

variable {rt : Runtime}

theorem careful_run (hs : rt.Settled) {ops : List Op} (hc : CarefulFrom rt ops) :
    Careful rt (ops.foldl Runtime.perform rt) := by
  induction ops generalizing rt with
  | nil => exact Careful.refl rt
  | cons op ops ih =>
    have hstep := careful_perform hs hc.1
    exact hstep.trans (ih (hstep.settled hs) hc.2)

/-- A reference that was obtained in a careful run stands for its grain at the end of it. -/
theorem careful_run_reference (hs : rt.Settled) {ops : List Op} (hc : CarefulFrom rt ops)
    {g : GrainId} (href : .ref g ∈ ops) :
    (ops.foldl Runtime.perform rt).grainActorIds g.actorId = some g := by
  induction ops generalizing rt with
  | nil => cases href
  | cons op ops ih =>
    have hsettled := (careful_perform hs hc.1).settled hs
    rcases List.mem_cons.mp href with rfl | hrest
    · exact (careful_run hsettled hc.2).references _ _ (update_self ..)
    · exact ih hsettled hc.2 hrest

theorem settled_start (snapshots : Nat → Option GrainSnapshot) :
    (Runtime.start snapshots).Settled :=
  ⟨fun _ _ h => (by cases h), fun _ _ h => (by cases h), fun _ _ h => (by cases h)⟩

/-- Where the records agree, a grain is reached by its reference. -/
theorem Runtime.Settled.held (h : rt.Settled) {g : GrainId}
    (hid : rt.grainActorIds g.actorId = some g) : rt.Held g ∧ ¬ rt.Lost g := by
  constructor
  · unfold Runtime.Held
    cases ha : rt.actors g.actorId with
    | none => exact hid
    | some b =>
      have hb := (h.live _ b ha).1
      rw [hid] at hb
      exact (some.inj hb).symm
  · rintro ⟨hgone, hres⟩
    obtain ⟨id, hid'⟩ := ne_none_iff_exists'.mp hres
    obtain ⟨rfl, b, hb, _⟩ := h.resident g id hid'
    rw [hgone] at hb
    cases hb

/-- After any run, a message to the reference of a grain whose type is registered and whose snapshot
is valid gets to the grain exactly if the reference stands for it, it is not lost, and bringing it
back does not make it exit. In a run without exits and without two grains of the same hash, it
always does. -/
theorem grain_reached_iff (snapshots : Nat → Option GrainSnapshot) (ops : List Op) (g : GrainId)
    (msg : Message) {t : GrainType} {a : GrainActor}
    (ht : (ops.foldl Runtime.perform (.start snapshots)).grainRegistry g.grainType = some t)
    (hok : (ops.foldl Runtime.perform (.start snapshots)).hydrated t g = .ok a) :
    (∀ outlives, (ops.foldl Runtime.perform (.start snapshots)).Reached g msg outlives ↔
      (ops.foldl Runtime.perform (.start snapshots)).Held g ∧
        ¬ (ops.foldl Runtime.perform (.start snapshots)).Lost g ∧
        (ops.foldl Runtime.perform (.start snapshots)).Revives g outlives) ∧
      (.ref g ∈ ops → CarefulFrom (.start snapshots) ops →
        (ops.foldl Runtime.perform (.start snapshots)).Reached g msg true) := by
  refine ⟨fun outlives => reached_iff ht hok, fun href hc => ?_⟩
  have hsettled := (careful_run (settled_start snapshots) hc).settled (settled_start snapshots)
  obtain ⟨hheld, hlost⟩ := hsettled.held (careful_run_reference (settled_start snapshots) hc href)
  exact (reached_iff ht hok).mpr ⟨hheld, hlost, .inr (.inr rfl)⟩

def cartType : GrainType := ⟨[⟨"Cart", false, false, false, true⟩], {}⟩

def cart : GrainId := ⟨"Cart", "42"⟩

/-- The type is registered, the reference obtained, and a first message brings the cart to life. -/
def cartUsed : List Op := [.register "Cart" cartType, .ref cart, .send cart.actorId ⟨0, []⟩ true]

/-- A second message is reached, too. -/
theorem cart_reached :
    (cartUsed.foldl Runtime.perform (.start fun _ => none)).Reached cart ⟨1, []⟩ true :=
  (grain_reached_iff (fun _ => none) cartUsed cart ⟨1, []⟩ (t := cartType)
    (a := GrainActor.new cart 1) rfl rfl).2
    (List.mem_cons_of_mem _ List.mem_cons_self) ⟨trivial, ⟨fun _ h => (by cases h), ⟨rfl, trivial⟩⟩⟩

/-- After the cart has exited, its messages are dead letters. -/
theorem cart_lost :
    let rt := (cartUsed ++ [Op.exit cart.actorId]).foldl Runtime.perform (.start fun _ => none)
    rt.grainRegistry cart.grainType = some cartType ∧
    rt.hydrated cartType cart = .ok (GrainActor.new cart 1) ∧
      (rt.sendMessageById cart.actorId ⟨1, []⟩ true).1 = .rejected ∧
      (rt.sendMessageById cart.actorId ⟨1, []⟩ true).2.deadLetters =
      [⟨⟨1, []⟩, "grain hydration failed"⟩] := by
  decide +kernel

end Nulang.Grain

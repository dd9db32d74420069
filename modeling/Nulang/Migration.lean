import Nulang.AuthorityToken
import Nulang.Grain

/-!
# Moving an actor to another node

`migrate` makes a snapshot of an actor, sends it with the actor's module, and reaps the actor; the
receiving node makes an actor from what arrives (`callbacks.rs`, `runtime/mod.rs`). The snapshot has
the durable and CRDT fields, as far as their values can be persisted, the CRDT registers, the
authority and the schema. It does not have the fields that are derived from events, and the mailbox
stays behind.

What arrives is compared field by field with what was sent (`Preserved`), and the comparison is read
off the actor and the target before the move (`Portable`). How a float survives its encoding is a
parameter. That messages sent later still find the actor is another matter: `Relocation`.
-/

set_option autoImplicit false

namespace Nulang.Migration

open List Option
open AuthorityToken (Text Manifest fromTokens canonicalTokens)
open Grain (ActorMeta GrainType)

/-! ## Actors -/

/-- A value; everything on the heap but strings is an object here. -/
inductive Value where
  | int (n : BitVec 48)
  | float (bits : BitVec 64)
  | bool (b : Bool)
  | string (s : String)
  | nil
  | unit
  | actor (id : Nat)
  | object (address : Nat)
deriving DecidableEq

inductive StateModel where
  | localState
  | durable
  | eventSourced
  | crdt (kind : Nat)
deriving DecidableEq

structure Schema extends ActorMeta where
  stateModels : List (String × StateModel)
  stateDefaults : List (String × Value)
deriving DecidableEq

structure CodeModule where
  actorMetadata : List Schema
deriving DecidableEq

structure Message where
  behaviorId : Nat
  payload : List Value
deriving DecidableEq

/-- A persistent bytecode actor. -/
structure Actor where
  name : String
  module : CodeModule
  stateData : String → Option Value
  stateModels : String → Option StateModel
  activationEpoch : Nat
  sequence : Nat
  waitingSignal : Option String
  capabilities : List Text
  /-- The message whose turn is suspended. -/
  suspended : Option Message
  mailbox : List Message

/-- The registers of a node, and which of them are the fields of which actor. -/
structure CrdtManager (ρ : Type) where
  entries : Nat → Option ρ
  fieldMap : Nat → String → Option Nat

/-- `ActorSnapshot`. -/
structure Snapshot (ρ : Type) where
  sequence : Nat
  activationEpoch : Nat
  state : String → Option Value
  waitingSignal : Option String
  crdtSnapshot : Option (Nat → Option ρ)
  crdtFieldMap : Option (String → Option Nat)
  schemaName : Option String
  authorityTokens : List Text

namespace CodeModule

/-- `actor_meta_for_runtime_name`: by name, or by the type before the `@` for a virtual actor. -/
def actorMetaForRuntimeName (m : CodeModule) (name : String) : Option Schema :=
  match m.actorMetadata.find? fun s => s.name = name with
  | some s => some s
  | none =>
    match AuthorityToken.splitFirst '@' name.toList with
    | none => none
    | some (grainType, _) => m.actorMetadata.find? fun s =>
      s.isVirtual ∧ s.name = String.ofList grainType

/-- `resolve_snapshot_actor_meta`. -/
def resolve (m : CodeModule) (persisted : Option String) : Option Schema :=
  match (⟨m.actorMetadata.map Schema.toActorMeta, {}⟩ : GrainType).resolveSnapshotActorMeta
    persisted with
  | .error _ => none
  | .ok found => m.actorMetadata.find? fun s => s.name = found.name

end CodeModule

namespace Actor

/-- The canonical name of the actor's schema. -/
def schemaName (a : Actor) : Option String := (a.module.actorMetaForRuntimeName a.name).map (·.name)

def authorityManifest (a : Actor) : Except String Manifest := fromTokens a.capabilities

/-- The messages that were accepted and are not processed. -/
def pending (a : Actor) : List Message := a.suspended.toList ++ a.mailbox

/-- Snapshots keep the durable and the CRDT fields; a field without a model is local. -/
def inSnapshot (a : Actor) (field : String) : Bool :=
  match a.stateModels field with
  | some .durable => true
  | some (.crdt _) => true
  | _ => false

end Actor

section Move

variable {ρ : Type}

/-- What is left of a value in a snapshot, given what a float is read back as: objects become
nil. -/
def persist (float : BitVec 64 → BitVec 64) : Value → Value
  | .object _ => .nil
  | .float bits => .float (float bits)
  | v => v

/-- `migrate`: the snapshot it sends, unless it refuses. -/
def migrate (float : BitVec 64 → BitVec 64) (a : Actor) (actorId : Nat)
    (manager : Option (CrdtManager ρ)) (reachable : Bool) : Option (Snapshot ρ) :=
  match a.authorityManifest with
  | .error _ => none
  | .ok manifest =>
    if a.activationEpoch + 1 < 2 ^ 64 ∧ reachable = true then
      some
        { sequence := a.sequence
          activationEpoch := a.activationEpoch + 1
          state := fun field => if a.inSnapshot field then
            (a.stateData field).map (persist float) else none
          waitingSignal := a.waitingSignal
          crdtSnapshot := manager.map (·.entries)
          crdtFieldMap := manager.map fun m => m.fieldMap actorId
          schemaName := a.schemaName
          authorityTokens := canonicalTokens manifest }
    else none

def Schema.default (s : Schema) (field : String) : Option Value := s.stateDefaults.lookup field

/-- The model of a field at the receiving node: the schema's, or for a field the schema does not
have what the snapshot suggests. -/
def restoredModel (schema : Option Schema) (snapshot : Snapshot ρ) (kindOf : ρ → Nat)
    (field : String) :
    Option StateModel :=
  match schema.bind fun s => s.stateModels.lookup field with
  | some model => some model
  | none =>
    if (snapshot.state field).isNone then none
    else
      let register := do
        let id ← (← snapshot.crdtFieldMap) field
        (← snapshot.crdtSnapshot) id
      match register with
      | some r => some (.crdt (kindOf r))
      | none => some .durable

/-- The actor made from a snapshot: what it has in it, and the declared values for the rest. -/
def restoredActor (module : CodeModule) (schema : Option Schema) (actorId : Nat)
    (snapshot : Snapshot ρ) (manifest : Manifest) (kindOf : ρ → Nat) : Actor where
  name := (schema.map (·.name)).getD s!"actor_{actorId}"
  module := module
  stateData := fun field => (snapshot.state field).or (schema.bind fun s => s.default field)
  stateModels := restoredModel schema snapshot kindOf
  activationEpoch := snapshot.activationEpoch
  sequence := snapshot.sequence
  waitingSignal := snapshot.waitingSignal
  capabilities := canonicalTokens manifest
  suspended := none
  mailbox := []

/-- `restore_actor_from_snapshot`. -/
def restoreActorFromSnapshot (module : CodeModule) (actorId : Nat) (snapshot : Snapshot ρ)
    (kindOf : ρ → Nat) :
    Option Actor :=
  if snapshot.activationEpoch = 0 then none
  else
    match fromTokens snapshot.authorityTokens with
    | .error _ => none
    | .ok manifest =>
      if module.actorMetadata = [] ∧ snapshot.schemaName = none then
        some (restoredActor module none actorId snapshot manifest kindOf)
      else
        match module.resolve snapshot.schemaName with
        | none => none
        | some schema =>
          match schema.toActorMeta.role with
          | .error _ => none
          | .ok () => some (restoredActor module (some schema) actorId snapshot manifest kindOf)

/-- Registers that arrive take the place of those with the same ids. -/
def CrdtManager.restore (m : CrdtManager ρ) (actorId : Nat) (snapshot : Snapshot ρ) :
    CrdtManager ρ :=
  match snapshot.crdtSnapshot with
  | none => m
  | some entries =>
    { entries := fun id => (entries id).or (m.entries id)
      fieldMap := fun owner field =>
        if owner = actorId then
          ((snapshot.crdtFieldMap.bind fun f => f field)).or (m.fieldMap owner field)
        else m.fieldMap owner field }

/-- `receive_migrated_actor`, given whether the packet can be read and the store takes the
snapshot. -/
def receiveMigratedActor (module : CodeModule) (actorId : Nat) (snapshot : Snapshot ρ)
    (kindOf : ρ → Nat) (manager : Option (CrdtManager ρ)) (reads saves : Bool) :
    Option (Actor × Option (CrdtManager ρ)) :=
  if reads = true ∧ saves = true then
    (restoreActorFromSnapshot module actorId snapshot kindOf).map fun b =>
      (b, manager.map fun m => m.restore actorId snapshot)
  else none

/-! ## What arrives -/

def register (manager : Option (CrdtManager ρ)) (actorId : Nat) (field : String) : Option ρ := do
  let m ← manager
  m.entries (← m.fieldMap actorId field)

/-- The schema under which the actor arrives. -/
def Actor.arrivalSchema (a : Actor) : Option Schema :=
  if a.module.actorMetadata = [] ∧ a.schemaName = none then none else a.module.resolve a.schemaName

/-- The declared value of a field at the receiving node. -/
def Actor.declared (a : Actor) (field : String) : Option Value :=
  a.arrivalSchema.bind fun s => s.default field

/-- The actor `b` on the receiving node is the actor `a` that was sent, one epoch later. -/
structure Preserved (actorId : Nat) (a : Actor) (manager : Option (CrdtManager ρ)) (b : Actor)
    (manager' : Option (CrdtManager ρ)) : Prop where
  fields : ∀ field model, a.stateModels field = some model → model ≠ .localState →
  b.stateData field = a.stateData field
  registers : ∀ field r, register manager actorId field = some r →
  register manager' actorId field = some r
  authority : ∃ m m', a.authorityManifest = .ok m ∧ b.authorityManifest = .ok m' ∧
  ∀ g, g ∈ m' ↔ g ∈ m
  schema : b.schemaName = a.schemaName
  epoch : b.activationEpoch = a.activationEpoch + 1
  pending : b.pending = a.pending

/-- The actor loses nothing by the move. -/
structure Portable (float : BitVec 64 → BitVec 64) (actorId : Nat) (a : Actor)
    (manager target : Option (CrdtManager ρ)) : Prop where
  /-- Nothing is waiting to be processed. -/
  idle : a.pending = []
  /-- What is in the fields of the snapshot can be persisted; a field with nothing in it has no
  declared value. -/
  saved : ∀ field, a.inSnapshot field = true →
    (∀ v, a.stateData field = some v → persist float v = v) ∧
    (a.stateData field = none → a.declared field = none)
  /-- The event-sourced fields are as declared. -/
  derived : ∀ field, a.stateModels field = some .eventSourced → a.stateData field = a.declared field
  /-- The receiving node keeps registers, if the actor has one. -/
  registers : ∀ field, (register manager actorId field).isSome → target.isSome
  /-- The actor's name says which schema it is of, if there are any. -/
  schema : a.module.actorMetadata ≠ [] → a.schemaName ≠ none

variable {float : BitVec 64 → BitVec 64} {a b : Actor} {actorId : Nat}
  {manager target manager' : Option (CrdtManager ρ)}
  {reachable reads saves : Bool} {snapshot : Snapshot ρ} {kindOf : ρ → Nat}

theorem migrate_eq_some (h : migrate float a actorId manager reachable = some snapshot) :
    ∃ manifest, a.authorityManifest = .ok manifest ∧ snapshot =
      { sequence := a.sequence
        activationEpoch := a.activationEpoch + 1
        state := fun field => if a.inSnapshot field then
          (a.stateData field).map (persist float) else none
        waitingSignal := a.waitingSignal
        crdtSnapshot := manager.map (·.entries)
        crdtFieldMap := manager.map fun m => m.fieldMap actorId
        schemaName := a.schemaName
        authorityTokens := canonicalTokens manifest } := by
  unfold migrate at h
  cases hm : a.authorityManifest with
  | error e =>
    rw [hm] at h
    cases h
  | ok manifest =>
    rw [hm] at h
    split_ifs at h
    exact ⟨manifest, rfl, (some.inj h).symm⟩

/-- What a snapshot is restored to, if it is. -/
theorem restore_eq_some {module : CodeModule}
    (h : restoreActorFromSnapshot module actorId snapshot kindOf = some b) :
    ∃ manifest schema, fromTokens snapshot.authorityTokens = .ok manifest ∧
      b = restoredActor module schema actorId snapshot manifest kindOf ∧
      (module.actorMetadata = [] ∧ snapshot.schemaName = none ∧ schema = none ∨
        ¬ (module.actorMetadata = [] ∧ snapshot.schemaName = none) ∧ ∃ s, schema = some s ∧
          module.resolve snapshot.schemaName = some s) := by
  unfold restoreActorFromSnapshot at h
  by_cases h0 : snapshot.activationEpoch = 0
  · rw [if_pos h0] at h
    cases h
  rw [if_neg h0] at h
  cases hm : fromTokens snapshot.authorityTokens with
  | error e =>
    rw [hm] at h
    cases h
  | ok manifest =>
    rw [hm] at h
    dsimp only at h
    by_cases hnone : module.actorMetadata = [] ∧ snapshot.schemaName = none
    · rw [if_pos hnone] at h
      exact ⟨manifest, none, rfl, (some.inj h).symm, .inl ⟨hnone.1, hnone.2, rfl⟩⟩
    · rw [if_neg hnone] at h
      cases hs : module.resolve snapshot.schemaName with
      | none =>
        rw [hs] at h
        cases h
      | some s =>
        rw [hs] at h
        dsimp only at h
        cases hrole : s.toActorMeta.role with
        | error e =>
          rw [hrole] at h
          cases h
        | ok u =>
          rw [hrole] at h
          exact ⟨manifest, some s, rfl, (some.inj h).symm, .inr ⟨hnone, s, rfl, rfl⟩⟩

variable {m : CodeModule} {s : Schema} {name field : String}

theorem find_name (h : (m.actorMetadata.find? fun s => s.name = name) = some s) :
    s.name = name := by
  simpa using find?_some h

theorem resolve_name {persisted : Option String} (h : m.resolve persisted = some s) :
    (m.actorMetaForRuntimeName s.name).map (·.name) = some s.name := by
  unfold CodeModule.resolve at h
  cases hr : (⟨m.actorMetadata.map Schema.toActorMeta, {}⟩ : GrainType).resolveSnapshotActorMeta
    persisted with
  | error e =>
    rw [hr] at h
    cases h
  | ok found =>
    rw [hr] at h
    dsimp only at h
    have hname : s.name = found.name := find_name h
    unfold CodeModule.actorMetaForRuntimeName
    rw [hname, h]
    exact congrArg some hname

theorem mem_of_actorMetaForRuntimeName (h : m.actorMetaForRuntimeName name = some s) :
    s ∈ m.actorMetadata := by
  unfold CodeModule.actorMetaForRuntimeName at h
  cases hf : m.actorMetadata.find? fun s => s.name = name with
  | some s' =>
    rw [hf] at h
    cases h
    exact mem_of_find?_eq_some hf
  | none =>
    rw [hf] at h
    cases hsplit : AuthorityToken.splitFirst '@' name.toList with
    | none =>
      rw [hsplit] at h
      cases h
    | some p =>
      rw [hsplit] at h
      exact mem_of_find?_eq_some h

/-- A schema that an actor's own name leads to is the one its snapshot is resolved to. -/
theorem resolve_own (hs : a.schemaName = some name) (h : a.module.resolve (some name) = some s) :
    s.name = name := by
  unfold CodeModule.resolve at h
  cases hr :
    (⟨a.module.actorMetadata.map Schema.toActorMeta, {}⟩ : GrainType).resolveSnapshotActorMeta
    (some name) with
  | error e =>
    rw [hr] at h
    cases h
  | ok found =>
    rw [hr] at h
    have hsame : s.name = found.name := find_name h
    rw [hsame]
    unfold GrainType.resolveSnapshotActorMeta at hr
    by_cases hempty : name = ""
    · -- an empty name is taken for none: there is one schema only, and the actor is of it
      obtain ⟨s', hs', hname⟩ := map_eq_some_iff.mp hs
      have hmem := mem_of_actorMetaForRuntimeName hs'
      rw [show (some name).filter (fun name => name ≠ "") = none by simp [hempty]] at hr
      cases hm : a.module.actorMetadata with
      | nil =>
        rw [hm] at hmem
        cases hmem
      | cons first rest =>
        cases rest with
        | nil =>
          rw [hm] at hr hmem
          cases hr
          rw [← mem_singleton.mp hmem]
          exact hname
        -- With two schemas an empty name is ambiguous, and the restoration fails.
        | cons second rest =>
          rw [hm] at hr
          cases hr
    · rw [show (some name).filter (fun name => name ≠ "") = some name by simp [hempty]] at hr
      dsimp only at hr
      cases hf : (a.module.actorMetadata.map Schema.toActorMeta).find? fun m => m.name = name with
      | none =>
        rw [hf] at hr
        cases hr
      | some m =>
        rw [hf] at hr
        cases hr
        simpa using find?_some hf

/-- What the receiving node has after a move that succeeds. -/
theorem arrived (hsent : migrate float a actorId manager reachable = some snapshot)
    (hreceived : receiveMigratedActor a.module actorId snapshot kindOf target reads saves =
      some (b, manager')) :
    ∃ manifest manifest', a.authorityManifest = .ok manifest ∧
      fromTokens (canonicalTokens manifest) = .ok manifest' ∧
      b = restoredActor a.module a.arrivalSchema actorId snapshot manifest' kindOf ∧
      manager' = (target.map fun m => m.restore actorId snapshot) ∧
      (¬ (a.module.actorMetadata = [] ∧ a.schemaName = none) →
        ∃ s, a.module.resolve a.schemaName = some s) := by
  obtain ⟨manifest, hmanifest, hsnapshot⟩ := migrate_eq_some hsent
  have hname : snapshot.schemaName = a.schemaName := by rw [hsnapshot]
  have htokens : snapshot.authorityTokens = canonicalTokens manifest := by rw [hsnapshot]
  unfold receiveMigratedActor at hreceived
  split_ifs at hreceived
  obtain ⟨b', hb', heq⟩ := map_eq_some_iff.mp hreceived
  cases heq
  obtain ⟨manifest', schema, hmanifest', hb, hschema⟩ := restore_eq_some hb'
  rw [htokens] at hmanifest'
  rw [hname] at hschema
  have harrival : schema = a.arrivalSchema := by
    unfold Actor.arrivalSchema
    rcases hschema with ⟨hnil, hnone, hs⟩ | ⟨hsome, s, hs, hresolve⟩
    · rw [if_pos ⟨hnil, hnone⟩, hs]
    · rw [if_neg hsome, hs, hresolve]
  refine ⟨manifest, manifest', hmanifest, hmanifest', by rw [hb, harrival], rfl, fun hsome => ?_⟩
  rcases hschema with ⟨hnil, hnone, _⟩ | ⟨_, s, _, hresolve⟩
  · exact absurd ⟨hnil, hnone⟩ hsome
  · exact ⟨s, hresolve⟩

/-- The schema survives where the actor's name says which it is. -/
theorem schemaName_restored_iff (manifest : Manifest)
    (hresolves : ¬ (a.module.actorMetadata = [] ∧ a.schemaName = none) →
      ∃ s, a.module.resolve a.schemaName = some s) :
    (restoredActor a.module a.arrivalSchema actorId snapshot manifest kindOf).schemaName =
    a.schemaName ↔
      (a.module.actorMetadata ≠ [] → a.schemaName ≠ none) := by
  by_cases hnone : a.module.actorMetadata = [] ∧ a.schemaName = none
  · refine iff_of_true ?_ fun h => absurd hnone.1 h
    rw [hnone.2]
    have hall (name : String) : a.module.actorMetaForRuntimeName name = none := by
      cases h : a.module.actorMetaForRuntimeName name with
      | none => rfl
      | some s =>
        have hmem := mem_of_actorMetaForRuntimeName h
        rw [hnone.1] at hmem
        cases hmem
    exact congrArg (Option.map _) (hall _)
  · obtain ⟨s, hs⟩ := hresolves hnone
    have harrival : a.arrivalSchema = some s := by rw [Actor.arrivalSchema, if_neg hnone, hs]
    have hb : (restoredActor a.module a.arrivalSchema actorId snapshot manifest
        kindOf).schemaName = some s.name := by
      rw [harrival]
      exact resolve_name hs
    rw [hb]
    cases hown : a.schemaName with
    | none =>
      exact iff_of_false (fun h => by cases h) fun h => h (fun hnil => hnone ⟨hnil, hown⟩) rfl
    | some name =>
      rw [hown] at hs
      rw [resolve_own hown hs]
      exact iff_of_true rfl fun _ h => by cases h

theorem exists_model_of_inSnapshot (h : a.inSnapshot field = true) :
    ∃ model, a.stateModels field = some model ∧ model ≠ .localState := by
  unfold Actor.inSnapshot at h
  cases hmodel : a.stateModels field with
  | none => simp [hmodel] at h
  | some model =>
    refine ⟨model, rfl, fun hlocal => ?_⟩
    simp [hmodel, hlocal] at h

/-- The fields survive where what the snapshot has of each, or the declared value, is what the actor
has. -/
theorem fields_iff
    (h : ∀ field,
      b.stateData field = (if a.inSnapshot field then (a.stateData field).map (persist float)
        else none).or (a.declared field)) :
    (∀ field model, a.stateModels field = some model → model ≠ .localState →
      b.stateData field = a.stateData field) ↔
      (∀ field, a.inSnapshot field = true →
        (∀ v, a.stateData field = some v → persist float v = v) ∧
        (a.stateData field = none → a.declared field = none)) ∧
      ∀ field, a.stateModels field = some .eventSourced → a.stateData field = a.declared field := by
  have hsaved (field : String) (hin : a.inSnapshot field = true) :
      b.stateData field = a.stateData field ↔
      (∀ v, a.stateData field = some v → persist float v = v) ∧
        (a.stateData field = none → a.declared field = none) := by
    rw [h, if_pos hin]
    cases a.stateData field with
    | none => simp
    | some v => simp
  have hderived (field : String) (hmodel : a.stateModels field = some .eventSourced) :
      b.stateData field = a.stateData field ↔ a.stateData field = a.declared field := by
    have hin : a.inSnapshot field = false := by simp [Actor.inSnapshot, hmodel]
    rw [h, hin]
    exact eq_comm
  constructor
  · refine fun hfields => ⟨fun field hin => (hsaved field hin).mp ?_, fun field hmodel =>
      (hderived field hmodel).mp (hfields field _ hmodel fun h => by cases h)⟩
    obtain ⟨model, hmodel, hne⟩ := exists_model_of_inSnapshot hin
    exact hfields field model hmodel hne
  · rintro ⟨hs, hd⟩ field model hmodel hne
    cases model with
    | localState => exact absurd rfl hne
    | durable | crdt =>
      exact (hsaved field (by simp [Actor.inSnapshot, hmodel])).mpr
        (hs field (by simp [Actor.inSnapshot, hmodel]))
    | eventSourced => exact (hderived field hmodel).mpr (hd field hmodel)

/-- A register that arrives at a node that keeps registers is there under the same field. -/
theorem register_restored {m : CrdtManager ρ} {r : ρ}
    (hregisters : snapshot.crdtSnapshot = manager.map (·.entries))
    (hfields : snapshot.crdtFieldMap = manager.map fun m => m.fieldMap actorId)
    (h : register manager actorId field = some r) :
    register (some (m.restore actorId snapshot)) actorId field = some r := by
  cases manager with
  | none => cases h
  | some source =>
    obtain ⟨id, hid, hr⟩ := bind_eq_some_iff.mp h
    unfold CrdtManager.restore
    rw [hregisters, hfields]
    simp [register, hid, hr]

/-- **A migrated actor arrives as it left** just if nothing was waiting for it, the values of its
fields can be persisted, its event-sourced fields are as declared, there is a place for its
registers and its name says of which schema it is. -/
theorem preserved_iff_portable (hsent : migrate float a actorId manager reachable = some snapshot)
    (hreceived : receiveMigratedActor a.module actorId snapshot kindOf target reads saves =
      some (b, manager')) :
    Preserved actorId a manager b manager' ↔ Portable float actorId a manager target := by
  obtain ⟨manifest, manifest', hmanifest, hmanifest', hb, hmanager, hresolves⟩ :=
    arrived hsent hreceived
  obtain ⟨_, _, hsnapshot⟩ := migrate_eq_some hsent
  -- A field is what the snapshot saves of it, or else what its schema declares.
  have hdata (field : String) : b.stateData field =
      (if a.inSnapshot field then (a.stateData field).map (persist float)
        else none).or (a.declared field) := by
    rw [hb, hsnapshot]
    rfl
  have hfields := fields_iff hdata
  have hschema : b.schemaName = a.schemaName ↔
      (a.module.actorMetadata ≠ [] → a.schemaName ≠ none) := by
    rw [hb]
    exact schemaName_restored_iff manifest' hresolves
  have hpending : b.pending = [] := by rw [hb]; rfl
  constructor
  · intro hp
    obtain ⟨hsaved, hderived⟩ := hfields.mp hp.fields
    refine ⟨hp.pending.symm.trans hpending, hsaved, hderived, fun field hr => ?_,
      hschema.mp hp.schema⟩
    obtain ⟨r, hr⟩ := isSome_iff_exists.mp hr
    have hthere := hp.registers field r hr
    cases target with
    | none =>
      rw [hmanager] at hthere
      cases hthere
    | some m => rfl
  · intro hp
    refine ⟨hfields.mpr ⟨hp.saved, hp.derived⟩, fun field r hr => ?_, ?_,
      hschema.mpr hp.schema, ?_, ?_⟩
    · obtain ⟨m, hm⟩ := isSome_iff_exists.mp (hp.registers field (by rw [hr]; rfl))
      rw [hmanager, hm]
      exact register_restored (by rw [hsnapshot]) (by rw [hsnapshot]) hr
    · obtain ⟨sent, hsent', hsame⟩ := AuthorityToken.fromTokens_canonicalTokens hmanifest
      cases hsent'.symm.trans hmanifest'
      obtain ⟨installed, hinstalled, hsame'⟩ := AuthorityToken.fromTokens_canonicalTokens hmanifest'
      exact ⟨manifest, installed, hmanifest, by rw [hb]; exact hinstalled, fun g =>
        (hsame' g).trans (hsame g)⟩
    · rw [hb, hsnapshot]
      rfl
    · rw [hpending, hp.idle]

/-- A schema with a durable field and one that is derived from events. -/
def counterSchema : Schema where
  name := "Counter"
  isWorkflow := false
  isAgent := false
  isOrganization := false
  isVirtual := false
  stateModels := [("n", .durable), ("total", .eventSourced)]
  stateDefaults := [("n", .int 0), ("total", .int 0)]

/-- A counter that has counted to three, with the sum of its events and what is waiting for it. -/
def counter (total : BitVec 48) (mailbox : List Message) : Actor where
  name := "Counter"
  module := ⟨[counterSchema]⟩
  stateData := fun field => [("n", Value.int 3), ("total", Value.int total)].lookup field
  stateModels := fun field => counterSchema.stateModels.lookup field
  activationEpoch := 1
  sequence := 3
  waitingSignal := none
  capabilities := []
  suspended := none
  mailbox := mailbox

def counterSnapshot (total : BitVec 48) : Snapshot Unit where
  sequence := 3
  activationEpoch := 2
  state := fun field =>
    if (counter total []).inSnapshot field then
      ((counter total []).stateData field).map (persist id) else none
  waitingSignal := none
  crdtSnapshot := none
  crdtFieldMap := none
  schemaName := some "Counter"
  authorityTokens := []

theorem counter_sent (total : BitVec 48) (mailbox : List Message) :
    migrate id (counter total mailbox) 7 none true = some (counterSnapshot total) := by
  have hmanifest : (counter total mailbox).authorityManifest = .ok [] := rfl
  have htokens : canonicalTokens [] = [] := by simp [canonicalTokens]
  unfold migrate
  rw [hmanifest]
  dsimp only
  rw [htokens]
  rfl

theorem counter_model {total : BitVec 48} {mailbox : List Message} {model : StateModel}
    (h : (counter total mailbox).stateModels field = some model) :
    field = "n" ∧ model = .durable ∨ field = "total" ∧ model = .eventSourced := by
  simp only [counter, counterSchema, lookup_cons, lookup_nil] at h
  split at h
  · next hn => exact .inl ⟨eq_of_beq hn, (some.inj h).symm⟩
  · split at h
    · next htotal => exact .inr ⟨eq_of_beq htotal, (some.inj h).symm⟩
    · cases h

theorem counter_received (total : BitVec 48) :
    receiveMigratedActor ⟨[counterSchema]⟩ 7 (counterSnapshot total) (fun _ => 0) none true true =
      some (restoredActor ⟨[counterSchema]⟩ (some counterSchema) 7 (counterSnapshot total) []
        fun _ => 0, none) := rfl

/-- Nothing is lost of a counter whose sum is as declared and that has nothing to do. -/
theorem idle_counter_arrives :
    Preserved 7 (counter 0 []) (none : Option (CrdtManager Unit))
      (restoredActor ⟨[counterSchema]⟩ (some counterSchema) 7 (counterSnapshot 0) [] fun _ =>
        0) none := by
  refine (preserved_iff_portable (counter_sent 0 []) (counter_received 0)).mpr
    ⟨rfl, fun field hin => ?_, ?_, ?_, ?_⟩
  · obtain ⟨model, hmodel, _⟩ := exists_model_of_inSnapshot hin
    rcases counter_model hmodel with ⟨rfl, _⟩ | ⟨rfl, _⟩
    · exact ⟨fun v hv => by cases hv; rfl, fun h => by cases h⟩
    · cases hin
  · intro field hmodel
    rcases counter_model hmodel with ⟨_, h⟩ | ⟨rfl, _⟩
    · cases h
    · rfl
  · intro _ h
    cases h
  · intro _ h
    cases h

/-- A counter with a sum of seven is moved while a message waits: it arrives with a sum of zero, and
without the message. -/
theorem busy_counter_loses :
    let a := counter 7 [⟨0, []⟩]
    let b :=
      restoredActor ⟨[counterSchema]⟩ (some counterSchema) 7 (counterSnapshot 7) [] fun _ => 0
    migrate id a 7 (none : Option (CrdtManager Unit)) true = some (counterSnapshot 7) ∧
      receiveMigratedActor a.module 7 (counterSnapshot 7) (fun _ => 0) none true true =
      some (b, none) ∧
      a.stateData "total" = some (.int 7) ∧ b.stateData "total" = some (.int 0) ∧
      a.pending = [⟨0, []⟩] ∧ b.pending = [] ∧
      ¬ Preserved 7 a none b (none : Option (CrdtManager Unit)) :=
  ⟨counter_sent 7 _, counter_received 7, rfl, rfl, rfl, rfl, fun h => by cases h.pending⟩

end Move

end Nulang.Migration

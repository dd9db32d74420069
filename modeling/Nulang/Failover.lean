import Mathlib.Data.List.AList
import Nulang.Lib.Result

/-!
# Node-loss failover on one node

Every node keeps a directory of the durable actors it has heard of (where each lives, and in which
activation) and replicas of the actors it is the shadow of. Three things are to follow from that: a
node whose activation has been superseded stops it, a node that leaves hands its actors to their
shadows, and a shadow takes over the actors of a node that is confirmed gone.

The state of the cluster is owned by the runtime, but not always: `process_network` takes it out of
the runtime, hands it to the packet loop beside the runtime, and puts it back when the loop is over.
The model keeps that: `Node.cluster` is `none` while packets are handled, and what the handlers read
is the runtime they are given.
-/

set_option autoImplicit false

namespace Nulang.Failover

open Option Function

/-! ## The cluster's tables -/

inductive NodeStatus where
  | joining
  | healthy
  | suspicious
  | failed
  | leaving
deriving DecidableEq

structure NodeInfo where
  nodeId : Nat
  status : NodeStatus
deriving DecidableEq

/-- Where a durable actor lives, and in which activation. -/
structure Home where
  nodeId : Nat
  epoch : Nat
deriving DecidableEq

structure DurableDirectoryEntry where
  actorId : Nat
  nodeId : Nat
  epoch : Nat
deriving DecidableEq

structure ClusterState where
  /-- `all_members`: the node itself is one of them. -/
  members : List NodeInfo
  directory : AList fun _ : Nat => Home
  removedNodes : List Nat

namespace ClusterState

/-- The rule by which an entry gets into the directory: it has to be newer than what is there. -/
def claim (c : ClusterState) (entry : DurableDirectoryEntry) : ClusterState :=
  match c.directory.lookup entry.actorId with
  | some existing =>
    if entry.epoch ≤ existing.epoch then c
    else { c with directory := c.directory.insert entry.actorId ⟨entry.nodeId, entry.epoch⟩ }
  | none => { c with directory := c.directory.insert entry.actorId ⟨entry.nodeId, entry.epoch⟩ }

def mergeDirectory (c : ClusterState) (entries : List DurableDirectoryEntry) : ClusterState :=
  entries.foldl claim c

def announceDirectory (c : ClusterState) (entry : DurableDirectoryEntry) : ClusterState :=
  c.claim entry

def directoryPayload (c : ClusterState) : List DurableDirectoryEntry :=
  c.directory.entries.map fun e => ⟨e.1, e.2.nodeId, e.2.epoch⟩

def directoryForNode (c : ClusterState) (node : Nat) : List DurableDirectoryEntry :=
  c.directoryPayload.filter (·.nodeId = node)

/-- Confirm a node gone; the answer says whether that is new. -/
def markRemoved (c : ClusterState) (node : Nat) : Bool × ClusterState :=
  if node ∈ c.removedNodes then (false, c)
  else (true, { c with removedNodes := node :: c.removedNodes })

def healthyMembers (c : ClusterState) (localNode : Nat) : List NodeInfo :=
  c.members.filter fun info => info.nodeId ≠ localNode ∧ info.status = .healthy

/-- The healthy member with the smallest id, the actor's home excluded. -/
def shadowFor (c : ClusterState) (home : Nat) : Option Nat :=
  ((c.members.filter fun info => info.status = .healthy ∧ info.nodeId ≠ home).map (·.nodeId)).min?

end ClusterState

structure Message where
  behaviorId : Nat
  payload : List Int
deriving DecidableEq

structure ActorSnapshot (σ : Type) where
  activationEpoch : Nat
  state : σ

/-- A live actor, with the names of its module's behaviors if it is a bytecode actor. -/
structure Activation (σ : Type) where
  activationEpoch : Nat
  persistent : Bool
  module : Option (List String)
  state : σ
  mailbox : List Message
  /-- `0` is unbounded. -/
  capacity : Nat

/-- A module and a snapshot as they arrive: each is `none` if it cannot be read, the snapshot also
if its schema or its authority tokens are refused. -/
structure Image (σ : Type) where
  module : Option (List String)
  snapshot : Option (ActorSnapshot σ)

structure ShadowReplica (σ : Type) where
  image : Image σ
  epoch : Nat

inductive Packet (σ : Type) where
  | heartbeat
  | gossip (directory : List DurableDirectoryEntry)
  | spawnRequest (known : Bool) (initialState : σ)
  | migrateActor (actorId : Nat) (image : Image σ)
  | nodeGoodbye (nodeId : Nat) (durable : List (Nat × Nat))
  | shadowReplicate (actorId : Nat) (image : Image σ) (epoch : Nat)
  | actorMessage (target : Nat) (msg : Message)
  /-- The packets that concern neither actors nor the directory. -/
  | other

variable {σ : Type}

def Activation.snapshot (act : Activation σ) : ActorSnapshot σ := ⟨act.activationEpoch, act.state⟩

def Activation.hasRoom (act : Activation σ) : Bool :=
  act.capacity = 0 || act.mailbox.length < act.capacity

/-- `restore_actor_from_snapshot`: the actor starts with an empty, unbounded mailbox, and epoch 0 is
refused. -/
def Image.restore (image : Image σ) : Option (Activation σ) := do
  let module ← image.module
  let snapshot ← image.snapshot
  if snapshot.activationEpoch = 0 then none
  else some ⟨snapshot.activationEpoch, true, some module, snapshot.state, [], 0⟩

/-- What the environment answers while one packet or one cluster action is handled. -/
structure Env where
  /-- The store takes the snapshot of a received actor. -/
  saves : Nat → Bool
  /-- The store takes the snapshot of a checkpoint. -/
  checkpoints : Nat → Bool
  /-- The next id of the counter of the process. -/
  freshActorId : Nat
  now : Nat

/-- A packet with the membership table as `handle_heartbeat` or `merge_membership_from_sender` leave
it. -/
structure Incoming (σ : Type) where
  packet : Packet σ
  members : List NodeInfo
  env : Env

/-! ## The runtime of a node -/

structure Node (σ : Type) where
  nodeId : Nat
  actors : Nat → Option (Activation σ)
  respawnOpted : List Nat
  shadowReplicas : Nat → Option (ShadowReplica σ)
  migratedActors : Nat → Option (Nat × Nat)
  /-- The latest snapshot of each actor in the node's store. -/
  persistence : Nat → Option (ActorSnapshot σ)
  cluster : Option ClusterState
  /-- What the node has sent, and to whom. -/
  outbox : List (Nat × Packet σ)

namespace Node

def reapLivingActor (rt : Node σ) (actorId : Nat) : Node σ :=
  { rt with actors := update rt.actors actorId none }

def optOut (rt : Node σ) (actorId : Nat) : Node σ :=
  { rt with respawnOpted := rt.respawnOpted.filter (· ≠ actorId) }

def forwardTo (rt : Node σ) (actorId node now : Nat) : Node σ :=
  { rt with migratedActors := update rt.migratedActors actorId (some (node, now)) }

def announce (rt : Node σ) (entry : DurableDirectoryEntry) : Node σ :=
  { rt with cluster := rt.cluster.map (·.announceDirectory entry) }

def storeShadowReplica (rt : Node σ) (actorId : Nat) (image : Image σ) (epoch : Nat) : Node σ :=
  let replace := match rt.shadowReplicas actorId with
    | some existing => decide (existing.epoch ≤ epoch)
    | none => true
  if replace then
    { rt with shadowReplicas := update rt.shadowReplicas actorId (some ⟨image, epoch⟩) } else rt

/-- Send the shadow a replica, and announce the activation it is of. -/
def replicateTo (rt : Node σ) (c : ClusterState) (shadow actorId : Nat) (image : Image σ)
    (epoch : Nat) : Node σ :=
  { rt with
    cluster := some (c.announceDirectory ⟨actorId, rt.nodeId, epoch⟩)
    outbox := rt.outbox ++ [(shadow, .shadowReplicate actorId image epoch)] }

/-- Only opted actors are replicated, to the shadow this node's view of the cluster names. -/
def maybeShadowReplicate (rt : Node σ) (actorId : Nat) (snapshot : ActorSnapshot σ) : Node σ :=
  if actorId ∈ rt.respawnOpted then
    match rt.actors actorId, rt.cluster with
    | some act, some c =>
      match c.shadowFor rt.nodeId, act.module with
      | some shadow, some module =>
        if shadow = rt.nodeId then rt
        else rt.replicateTo c shadow actorId ⟨some module, some snapshot⟩ act.activationEpoch
      | _, _ => rt
    | _, _ => rt
  else rt

def saveSnapshot (rt : Node σ) (actorId : Nat) (snapshot : ActorSnapshot σ) : Node σ :=
  { rt with persistence := update rt.persistence actorId (some snapshot) }

/-- `none` is the error of a store that does not take the snapshot. -/
def tryCheckpointActor (rt : Node σ) (actorId : Nat) (ok : Bool) : Option (Node σ) :=
  match rt.actors actorId with
  | none => some rt
  | some act =>
    if act.persistent = false then some rt
    else if ok = false then none
    else some ((rt.saveSnapshot actorId act.snapshot).maybeShadowReplicate actorId act.snapshot)

/-- A received actor is saved before it becomes live. -/
def received (rt : Node σ) (actorId : Nat) (act : Activation σ) : Node σ :=
  { rt.saveSnapshot actorId act.snapshot with actors := update rt.actors actorId (some act) }

/-- Make an actor from what has arrived live here; `none` is a refusal, which changes nothing. -/
def receiveMigratedActor (rt : Node σ) (actorId : Nat) (image : Image σ) (saves : Bool) :
    Option (Node σ) :=
  match image.restore with
  | none => none
  | some act =>
    if saves = false then none
    else some (rt.received actorId act)

def dropReplica (rt : Node σ) (actorId : Nat) : Node σ :=
  { rt with shadowReplicas := update rt.shadowReplicas actorId none }

/-- Give the received actor the epoch it owns, and opt it in. -/
def own (rt : Node σ) (actorId epoch : Nat) : Node σ :=
  { rt with
    actors := update rt.actors actorId
      ((rt.actors actorId).map fun act => { act with activationEpoch := epoch })
    respawnOpted := rt.respawnOpted.insert actorId }

end Node

/-- There is no epoch after the last of the `u64`s. -/
def nextFailoverActivationEpoch (current : Nat) : Option Nat := checkedSucc current

namespace Node

/-- Take over one actor of a node that is confirmed gone. -/
def takeOver (removed : Nat) (env : Env) (rt : Node σ) (entry : DurableDirectoryEntry) : Node σ :=
  if rt.cluster.bind (·.shadowFor removed) ≠ some rt.nodeId then rt
  else
    match nextFailoverActivationEpoch entry.epoch, rt.shadowReplicas entry.actorId with
    | some newEpoch, some replica =>
      let rt := rt.dropReplica entry.actorId
      match rt.receiveMigratedActor entry.actorId replica.image (env.saves entry.actorId) with
      | none => rt
      | some rt =>
        let rt := rt.own entry.actorId newEpoch
        match rt.tryCheckpointActor entry.actorId (env.checkpoints entry.actorId) with
        | none => (rt.optOut entry.actorId).reapLivingActor entry.actorId
        | some rt =>
          (rt.announce ⟨entry.actorId, rt.nodeId, newEpoch⟩).forwardTo entry.actorId
            rt.nodeId env.now
    | _, _ => rt

/-- The actors of the removed node are those the directory of the runtime's own cluster names. -/
def handleNodeRemoved (rt : Node σ) (node : Nat) (env : Env) : Node σ :=
  let entries := (rt.cluster.map (·.directoryForNode node)).getD []
  entries.foldl (takeOver node env) rt

/-- The opted actors for which the directory of the runtime's own cluster knows a newer
activation. -/
def superseded (rt : Node σ) : List (Nat × Nat) :=
  match rt.cluster with
  | none => []
  | some c =>
    rt.respawnOpted.filterMap fun actorId => do
      let act ← rt.actors actorId
      let home ← c.directory.lookup actorId
      if act.activationEpoch < home.epoch then some (actorId, home.nodeId) else none

def selfDemoteSuperseded (rt : Node σ) (now : Nat) : Node σ :=
  rt.superseded.foldl (fun rt s => ((rt.reapLivingActor s.1).optOut s.1).forwardTo s.1 s.2 now) rt

/-- Checkpoint and stop every opted actor, and list them with their epochs. -/
def goodbyeSelf (rt : Node σ) (env : Env) : List (Nat × Nat) × Node σ :=
  let opted := (rt.respawnOpted.mergeSort).filterMap fun actorId => do
    let act ← rt.actors actorId
    if act.persistent then some (actorId, act.activationEpoch) else none
  (opted, opted.foldl
    (fun rt s =>
      ((rt.tryCheckpointActor s.1 (env.checkpoints s.1)).getD rt).reapLivingActor s.1) rt)

def deliver (rt : Node σ) (actorId : Nat) (msg : Message) : Node σ :=
  match rt.actors actorId with
  | none => rt
  | some act =>
    if act.hasRoom then
      { rt with
        actors := update rt.actors actorId (some { act with mailbox := act.mailbox ++ [msg] }) }
    else rt

/-- `spawn_actor` for a remote spawn request: not persistent, and in its first activation. -/
def spawnActor (rt : Node σ) (actorId : Nat) (state : σ) : Node σ :=
  { rt with actors := update rt.actors actorId (some ⟨1, false, none, state, [], 0⟩) }

end Node

/-- The loop's state: the runtime, and the cluster that was taken out of it. -/
abbrev Loop (σ : Type) : Type := Node σ × ClusterState

def processPacket (w : Loop σ) (p : Incoming σ) : Loop σ :=
  match p.packet with
  | .heartbeat => (w.1, { w.2 with members := p.members })
  | .gossip directory =>
    let c := { w.2 with members := p.members }
    if directory.isEmpty then (w.1, c)
    else (w.1.selfDemoteSuperseded p.env.now, c.mergeDirectory directory)
  | .spawnRequest known state =>
    (if known then w.1.spawnActor p.env.freshActorId state else w.1, w.2)
  | .migrateActor actorId image =>
    ((w.1.receiveMigratedActor actorId image (p.env.saves actorId)).getD w.1, w.2)
  | .nodeGoodbye node durable =>
    let c := w.2.mergeDirectory (durable.map fun d => ⟨d.1, node, d.2⟩)
    match c.markRemoved node with
    | (true, c) => (w.1.handleNodeRemoved node p.env, c)
    | (false, c) => (w.1, c)
  | .shadowReplicate actorId image epoch => (w.1.storeShadowReplica actorId image epoch, w.2)
  | .actorMessage target msg => (w.1.deliver target msg, w.2)
  | .other => w

def processNetworkPackets (w : Loop σ) (batch : List (Incoming σ)) : Loop σ :=
  batch.foldl processPacket w

inductive ClusterAction where
  | nodeRemoved (node : Nat)
  | down
  | other
deriving DecidableEq

/-- What a tick of the cluster makes of the membership table, and the actions it asks for. -/
structure Tick where
  members : List NodeInfo
  actions : List ClusterAction
  env : Env

/-- A tick reports a node removed only once: it is then in `removed_nodes`. -/
def applyAction (env : Env) (rt : Node σ) : ClusterAction → Node σ
  | .nodeRemoved node =>
    match rt.cluster with
    | none => rt
    | some c =>
      match c.markRemoved node with
      | (true, c) => ({ rt with cluster := some c } : Node σ).handleNodeRemoved node env
      | (false, _) => rt
  | .down =>
    let (durable, rt) := rt.goodbyeSelf env
    let targets := (rt.cluster.map fun c => c.healthyMembers rt.nodeId).getD []
    { rt with outbox := rt.outbox ++ targets.map fun info =>
      (info.nodeId, .nodeGoodbye rt.nodeId durable) }
  | .other => rt

def processNetwork (rt : Node σ) (batch : List (Incoming σ)) (tick : Tick) : Node σ :=
  match rt.cluster with
  | none => rt
  | some c =>
    let w := processNetworkPackets ({ rt with cluster := none }, c) batch
    tick.actions.foldl (applyAction tick.env)
    { w.1 with cluster := some { w.2 with members := tick.members } }

/-! ## What the tables and the functions do -/

namespace ClusterState

variable {c : ClusterState} {entry : DurableDirectoryEntry} {a : Nat}

/-- The entry is newer than what the directory has for its actor. -/
def Newer (c : ClusterState) (entry : DurableDirectoryEntry) : Prop :=
  ∀ home ∈ c.directory.lookup entry.actorId, home.epoch < entry.epoch

def epochOf (c : ClusterState) (a : Nat) : Nat := ((c.directory.lookup a).map Home.epoch).getD 0

theorem claim_of_newer (h : c.Newer entry) :
    c.claim entry =
      { c with directory := c.directory.insert entry.actorId ⟨entry.nodeId, entry.epoch⟩ } := by
  unfold claim
  cases hl : c.directory.lookup entry.actorId with
  | none => rfl
  | some home => exact if_neg (Nat.not_le.mpr (h home hl))

theorem claim_of_not_newer (h : ¬ c.Newer entry) : c.claim entry = c := by
  unfold Newer at h
  push Not at h
  obtain ⟨home, hl, hle⟩ := h
  unfold claim
  rw [mem_def.mp hl]
  exact if_pos hle

theorem claim_members : (c.claim entry).members = c.members := by
  by_cases hn : c.Newer entry
  · rw [claim_of_newer hn]
  · rw [claim_of_not_newer hn]

theorem lookup_claim (c : ClusterState) (entry : DurableDirectoryEntry) (a : Nat) :
    (c.claim entry).directory.lookup a = c.directory.lookup a ∨ a = entry.actorId ∧ c.Newer entry ∧
        (c.claim entry).directory.lookup a = some ⟨entry.nodeId, entry.epoch⟩ := by
  by_cases hn : c.Newer entry
  · rw [claim_of_newer hn]
    by_cases ha : a = entry.actorId
    · exact .inr ⟨ha, hn, by rw [ha]; exact AList.lookup_insert _⟩
    · exact .inl (AList.lookup_insert_ne ha)
  · exact .inl (by rw [claim_of_not_newer hn])

/-- Claims only move an actor's epoch forward. -/
theorem epochOf_le_claim (a : Nat) : c.epochOf a ≤ (c.claim entry).epochOf a := by
  unfold epochOf
  obtain h | ⟨ha, hn, h⟩ := lookup_claim c entry a
  · rw [h]
  · rw [h]
    cases hl : c.directory.lookup a with
    | none => exact Nat.zero_le _
    | some home => exact Nat.le_of_lt (hn home (ha ▸ hl))

theorem le_epochOf_claim : entry.epoch ≤ (c.claim entry).epochOf entry.actorId := by
  by_cases hn : c.Newer entry
  · rw [claim_of_newer hn, epochOf, AList.lookup_insert]
    exact Nat.le_refl _
  · rw [claim_of_not_newer hn, epochOf]
    unfold Newer at hn
    push Not at hn
    obtain ⟨home, hl, hle⟩ := hn
    rw [mem_def.mp hl]
    exact hle

theorem epochOf_le_mergeDirectory (entries : List DurableDirectoryEntry) :
    ∀ (c : ClusterState) (a : Nat), c.epochOf a ≤ (c.mergeDirectory entries).epochOf a := by
  induction entries with
  | nil => exact fun _ _ => Nat.le_refl _
  | cons entry entries ih =>
    exact fun c a => Nat.le_trans (epochOf_le_claim a) (ih (c.claim entry) a)

theorem le_epochOf_mergeDirectory {entries : List DurableDirectoryEntry} (h : entry ∈ entries) :
    ∀ c : ClusterState, entry.epoch ≤ (c.mergeDirectory entries).epochOf entry.actorId := by
  induction entries with
  | nil => cases h
  | cons first entries ih =>
    intro c
    rcases List.mem_cons.mp h with rfl | hm
    · exact Nat.le_trans (le_epochOf_claim) (epochOf_le_mergeDirectory entries _ _)
    · exact ih hm _

theorem mem_directoryPayload :
    entry ∈ c.directoryPayload ↔
      c.directory.lookup entry.actorId = some ⟨entry.nodeId, entry.epoch⟩ := by
  unfold directoryPayload
  rw [List.mem_map, ← mem_def, AList.mem_lookup_iff]
  constructor
  · rintro ⟨⟨b, home⟩, hmem, rfl⟩
    exact hmem
  · exact fun hmem => ⟨_, hmem, rfl⟩

theorem nodup_directoryPayload : (c.directoryPayload.map (·.actorId)).Nodup := by
  unfold directoryPayload
  rw [List.map_map]
  exact c.directory.nodupKeys

theorem nodup_directoryForNode {node : Nat} : ((c.directoryForNode node).map (·.actorId)).Nodup :=
  (nodup_directoryPayload).sublist (List.filter_sublist.map _)

theorem mem_directoryForNode {node : Nat} : entry ∈ c.directoryForNode node ↔
      c.directory.lookup entry.actorId = some ⟨entry.nodeId, entry.epoch⟩ ∧
        entry.nodeId = node := by
  unfold directoryForNode
  rw [List.mem_filter, mem_directoryPayload, decide_eq_true_iff]

@[simp] theorem markRemoved_directory (node : Nat) :
    (c.markRemoved node).2.directory = c.directory := by
  unfold markRemoved
  split_ifs
  · rfl
  · rfl

theorem epochOf_markRemoved (c : ClusterState) (node a : Nat) :
    (c.markRemoved node).2.epochOf a = c.epochOf a := by
  unfold epochOf
  rw [markRemoved_directory]

end ClusterState

namespace Node

variable {rt rt' : Node σ} {id : Nat}

def epochOf (rt : Node σ) (a : Nat) : Option Nat := (rt.actors a).map (·.activationEpoch)

theorem epochOf_reapLivingActor (a : Nat) :
    (rt.reapLivingActor id).epochOf a = if a = id then none else rt.epochOf a := by
  unfold epochOf reapLivingActor
  split_ifs with ha
  · simp [ha]
  · simp [ha]

theorem maybeShadowReplicate_cases {snapshot : ActorSnapshot σ} :
    rt.maybeShadowReplicate id snapshot = rt ∨ ∃ act c shadow module,
      id ∈ rt.respawnOpted ∧ rt.actors id = some act ∧ rt.cluster = some c ∧
        c.shadowFor rt.nodeId = some shadow ∧
        rt.maybeShadowReplicate id snapshot =
          rt.replicateTo c shadow id ⟨some module, some snapshot⟩ act.activationEpoch := by
  unfold maybeShadowReplicate
  by_cases hopted : id ∈ rt.respawnOpted
  · rw [if_pos hopted]
    cases ha : rt.actors id with
    | none => exact .inl rfl
    | some act =>
      cases hc : rt.cluster with
      | none => exact .inl rfl
      | some c =>
        dsimp only
        cases hs : c.shadowFor rt.nodeId with
        | none => exact .inl rfl
        | some shadow =>
          cases hm : act.module with
          | none => exact .inl rfl
          | some module =>
            by_cases heq : shadow = rt.nodeId
            · exact .inl (if_pos heq)
            · exact .inr ⟨act, c, shadow, module, hopted, rfl, rfl, hs, if_neg heq⟩
  · exact .inl (if_neg hopted)

/-- What a checkpoint can do: nothing, save the snapshot, or save and replicate it. -/
theorem tryCheckpointActor_cases {ok : Bool} (h : rt.tryCheckpointActor id ok = some rt') :
    rt' = rt ∨ ∃ act, rt.actors id = some act ∧
      (rt' = rt.saveSnapshot id act.snapshot ∨ ∃ c shadow module, rt.cluster = some c ∧
        id ∈ rt.respawnOpted ∧
        c.shadowFor rt.nodeId = some shadow ∧
          rt' = (rt.saveSnapshot id act.snapshot).replicateTo c shadow id
          ⟨some module, some act.snapshot⟩ act.activationEpoch) := by
  unfold tryCheckpointActor at h
  cases ha : rt.actors id with
  | none =>
    rw [ha] at h
    cases h
    exact .inl rfl
  | some act =>
    rw [ha] at h
    dsimp only at h
    split_ifs at h with hp
    · cases h
      exact .inl rfl
    · cases h
      refine .inr ⟨act, rfl, ?_⟩
      obtain heq | ⟨act', c, shadow, module, hopted, ha', hc, hs, heq⟩ :=
        maybeShadowReplicate_cases
      · exact .inl heq
      · have hact : act' = act := some.inj (ha'.symm.trans ha)
        rw [hact] at heq
        exact .inr ⟨c, shadow, module, hc, hopted, hs, heq⟩

/-- What a checkpoint leaves alone. -/
structure Kept (rt rt' : Node σ) : Prop where
  nodeId : rt'.nodeId = rt.nodeId
  actors : rt'.actors = rt.actors
  opted : rt'.respawnOpted = rt.respawnOpted
  replicas : rt'.shadowReplicas = rt.shadowReplicas
  forwarding : rt'.migratedActors = rt.migratedActors
  members : rt'.cluster.map (·.members) = rt.cluster.map (·.members)

theorem kept_tryCheckpointActor {ok : Bool} (h : rt.tryCheckpointActor id ok = some rt') :
    Kept rt rt' := by
  obtain rfl | ⟨act, _, rfl | ⟨c, shadow, module, hc, _, _, rfl⟩⟩ := tryCheckpointActor_cases h
  · exact ⟨rfl, rfl, rfl, rfl, rfl, rfl⟩
  · exact ⟨rfl, rfl, rfl, rfl, rfl, rfl⟩
  · refine ⟨rfl, rfl, rfl, rfl, rfl, ?_⟩
    rw [hc]
    exact congrArg some (ClusterState.claim_members)

/-- While the cluster is out of the runtime nothing is taken over. -/
theorem handleNodeRemoved_of_none (h : rt.cluster = none) (node : Nat) (env : Env) :
    rt.handleNodeRemoved node env = rt := by
  unfold handleNodeRemoved
  rw [h]
  rfl

/-- While the cluster is out of the runtime nothing is demoted. -/
theorem selfDemoteSuperseded_of_none (h : rt.cluster = none) (now : Nat) :
    rt.selfDemoteSuperseded now = rt := by
  unfold selfDemoteSuperseded superseded
  rw [h]
  rfl

/-- What the node's replica of the actor restores to. -/
def replicaOf (rt : Node σ) (a : Nat) : Option (Activation σ) :=
  (rt.shadowReplicas a).bind (·.image.restore)

/-- The node has a replica of the actor that can be restored, and a store that takes it. -/
def Ready (env : Env) (rt : Node σ) (a : Nat) : Prop :=
  (rt.replicaOf a).isSome = true ∧ env.saves a = true

/-- The node makes the actor of a directory entry live. -/
structure Tries (removed : Nat) (env : Env) (rt : Node σ) (entry : DurableDirectoryEntry) :
    Prop where
  shadow : rt.cluster.bind (·.shadowFor removed) = some rt.nodeId
  next : entry.epoch + 1 < 2 ^ 64
  ready : Ready env rt entry.actorId

/-- The node takes the actor of a directory entry over, with what its replica restores to. -/
structure Takes (removed : Nat) (env : Env) (rt : Node σ) (entry : DurableDirectoryEntry)
    (act : Activation σ) :
    Prop where
  shadow : rt.cluster.bind (·.shadowFor removed) = some rt.nodeId
  next : entry.epoch + 1 < 2 ^ 64
  replica : (rt.shadowReplicas entry.actorId).bind (·.image.restore) = some act
  saves : env.saves entry.actorId = true
  checkpoints : env.checkpoints entry.actorId = true

theorem Takes.tries {removed : Nat} {env : Env} {entry : DurableDirectoryEntry} {act : Activation σ}
    (h : Takes removed env rt entry act) : Tries removed env rt entry :=
  ⟨h.shadow, h.next, Option.isSome_of_eq_some h.replica, h.saves⟩

/-- The actor of an entry as it is live on the node before its first checkpoint there. -/
def adopted (rt : Node σ) (entry : DurableDirectoryEntry) (act : Activation σ) : Node σ :=
  ((rt.dropReplica entry.actorId).received entry.actorId act).own entry.actorId (entry.epoch + 1)

theorem adopted_actors (entry : DurableDirectoryEntry) (act : Activation σ) :
    (rt.adopted entry act).actors =
      update rt.actors entry.actorId (some { act with activationEpoch := entry.epoch + 1 }) := by
  unfold adopted own received
  funext a
  by_cases ha : a = entry.actorId
  · subst ha
    simp
  · simp [update_of_ne ha, dropReplica]

theorem restore_eq_some {image : Image σ} {act : Activation σ} (h : image.restore = some act) :
    ∃ module snapshot, image.module = some module ∧ image.snapshot = some snapshot ∧
      act = ⟨snapshot.activationEpoch, true, some module, snapshot.state, [], 0⟩ := by
  unfold Image.restore at h
  cases hm : image.module with
  | none =>
    rw [hm] at h
    cases h
  | some module =>
    cases hs : image.snapshot with
    | none =>
      rw [hm, hs] at h
      cases h
    | some snapshot =>
      rw [hm, hs, bind_eq_bind, bind_some, bind_eq_bind, bind_some] at h
      split_ifs at h
      exact ⟨module, snapshot, rfl, rfl, (some.inj h).symm⟩

/-- Whether the first checkpoint of an adopted actor goes through is the store's answer. -/
theorem tryCheckpointActor_adopted {act : Activation σ} (hp : act.persistent = true)
    {entry : DurableDirectoryEntry} {ok : Bool} :
    ∃ rt', (rt.adopted entry act).tryCheckpointActor entry.actorId ok = if ok = false then none
      else some rt' := by
  unfold tryCheckpointActor
  rw [adopted_actors, update_self]
  dsimp only
  rw [if_neg (by simp [hp])]
  exact ⟨_, rfl⟩

theorem receiveMigratedActor_cases {image : Image σ} {saves : Bool} :
    rt.receiveMigratedActor id image saves = none ∧ (image.restore = none ∨ saves = false) ∨
      ∃ act, image.restore = some act ∧ saves = true ∧
        rt.receiveMigratedActor id image saves = some (rt.received id act) := by
  unfold receiveMigratedActor
  cases hr : image.restore with
  | none => exact .inl ⟨rfl, .inl rfl⟩
  | some act =>
    cases saves with
    | false => exact .inl ⟨rfl, .inr rfl⟩
    | true => exact .inr ⟨act, rfl, rfl, rfl⟩

/-- What the takeover of one entry can do: nothing but use the replica up, give the actor up again
because its first checkpoint failed, or go through. -/
theorem takeOver_cases {removed : Nat} {env : Env} {entry : DurableDirectoryEntry} :
    (takeOver removed env rt entry = rt ∨
        takeOver removed env rt entry = rt.dropReplica entry.actorId ∧
          ¬ Ready env rt entry.actorId) ∧
        ¬ Tries removed env rt entry ∨
      (∃ act, takeOver removed env rt entry =
          ((rt.adopted entry act).optOut entry.actorId).reapLivingActor entry.actorId ∧
        rt.replicaOf entry.actorId = some act ∧ env.checkpoints entry.actorId = false ∧
          Tries removed env rt entry) ∨
      ∃ act rt', Takes removed env rt entry act ∧
        (rt.adopted entry act).tryCheckpointActor entry.actorId true = some rt' ∧
        takeOver removed env rt entry =
          (rt'.announce ⟨entry.actorId, rt'.nodeId, entry.epoch + 1⟩).forwardTo entry.actorId
          rt'.nodeId env.now := by
  -- In the order of the source: the shadow, the next epoch, the replica, its restoration, its
  -- checkpoint.
  unfold takeOver
  by_cases hshadow : rt.cluster.bind (·.shadowFor removed) = some rt.nodeId
  case neg => exact .inl ⟨.inl (if_pos hshadow), fun h => hshadow h.shadow⟩
  rw [if_neg (not_not_intro hshadow)]
  unfold nextFailoverActivationEpoch checkedSucc
  by_cases hnext : entry.epoch + 1 < 2 ^ 64
  case neg =>
    rw [if_neg hnext]
    exact .inl ⟨.inl rfl, fun h => hnext h.next⟩
  rw [if_pos hnext]
  cases hr : rt.shadowReplicas entry.actorId with
  -- Without a replica nothing is taken over, and nothing is changed.
  | none =>
    refine .inl ⟨.inl rfl, fun h => ?_⟩
    have hsome := h.ready.1
    rw [replicaOf, hr] at hsome
    cases hsome
  | some replica =>
    dsimp only
    obtain ⟨hnone, hwhy⟩ | ⟨act, hrestore, hsaves, hsome⟩ :=
      receiveMigratedActor_cases
    · rw [hnone]
      have hnot : ¬ Ready env rt entry.actorId := by
        rintro ⟨hsome, hsaves⟩
        rcases hwhy with hwhy | hwhy
        · rw [replicaOf, hr, bind_some, hwhy] at hsome
          cases hsome
        · rw [hsaves] at hwhy
          cases hwhy
      exact .inl ⟨.inr ⟨rfl, hnot⟩, fun h => hnot h.ready⟩
    · rw [hsome]
      dsimp only
      obtain ⟨module, snapshot, _, _, hact⟩ := restore_eq_some hrestore
      have hpersistent : act.persistent = true := by rw [hact]
      obtain ⟨rt', hrt'⟩ := tryCheckpointActor_adopted hpersistent
      rw [show ((rt.dropReplica entry.actorId).received entry.actorId act).own entry.actorId
        (entry.epoch + 1) =
        rt.adopted entry act from rfl, hrt']
      have hreplica : rt.replicaOf entry.actorId = some act := by
        rw [replicaOf, hr]
        exact hrestore
      cases hcheck : env.checkpoints entry.actorId with
      | false =>
        exact .inr
          (.inl ⟨act, rfl, hreplica, rfl, hshadow, hnext,
            Option.isSome_of_eq_some hreplica, hsaves⟩)
      | true =>
        rw [hcheck] at hrt'
        exact .inr (.inr ⟨act, rt', ⟨hshadow, hnext, hreplica, hsaves, hcheck⟩, hrt', rfl⟩)

end Node

end Nulang.Failover

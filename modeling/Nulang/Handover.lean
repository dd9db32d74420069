import Nulang.Takeover

/-!
# Superseded activations and goodbyes

Both the demotion of a superseded activation and the takeover after a goodbye are started from the
packet loop, where the cluster is out of the runtime. Neither finds anything to do there: the loop
changes the live activations only by the actors it spawns and receives
(`epochOf_processNetworkPackets`).

A superseded activation is therefore stopped by the end of a call only if a later packet happens to
replace it (`superseded_stops_iff`), and a goodbye hands an actor over only if a later packet brings
it (`goodbye_hands_over_iff`). Both are about any batch of packets and any tick at its end. The tick
does have the cluster; that it does not make up for the loss takes the second part of the file.
-/

set_option autoImplicit false

namespace Nulang.Failover

open Node List Function
open ClusterState hiding epochOf about

variable {σ : Type}

/-! ## What the packet loop does to the live activations -/

/-- The epoch in which handling the packet makes the actor live. -/
def Incoming.installs (p : Incoming σ) (a : Nat) : Option Nat :=
  match p.packet with
  | .spawnRequest known _ => if known = true ∧ a = p.env.freshActorId then some 1 else none
  | .migrateActor id image =>
    if a = id ∧ p.env.saves id = true then image.restore.map (·.activationEpoch) else none
  | _ => none

/-- The epoch in which the last packet that makes the actor live does so. -/
def lastInstalled (a : Nat) : List (Incoming σ) → Option Nat
  | [] => none
  | p :: batch => (lastInstalled a batch).or (p.installs a)

/-- What handling the packet makes the actor start with. -/
def Incoming.brings (p : Incoming σ) (a : Nat) : Option (ActorSnapshot σ) :=
  match p.packet with
  | .spawnRequest known state =>
    if known = true ∧ a = p.env.freshActorId then some ⟨1, state⟩ else none
  | .migrateActor id image =>
    if a = id ∧ p.env.saves id = true then image.restore.map (·.snapshot) else none
  | _ => none

/-- What the last packet that makes the actor live makes it start with. -/
def lastBrought (a : Nat) : List (Incoming σ) → Option (ActorSnapshot σ)
  | [] => none
  | p :: batch => (lastBrought a batch).or (p.brings a)

/-- The epoch and the durable state of a live actor. -/
def Node.snapshotOf (rt : Node σ) (a : Nat) : Option (ActorSnapshot σ) :=
  (rt.actors a).map (·.snapshot)

theorem Node.epochOf_eq (rt : Node σ) (a : Nat) :
    rt.epochOf a = (rt.snapshotOf a).map (·.activationEpoch) := by
  unfold epochOf snapshotOf
  rw [Option.map_map]
  rfl

theorem Incoming.installs_eq (p : Incoming σ) (a : Nat) :
    p.installs a = (p.brings a).map (·.activationEpoch) := by
  unfold installs brings
  cases p.packet with
  | spawnRequest known state =>
    dsimp only
    split_ifs
    · rfl
    · rfl
  | migrateActor id image =>
    dsimp only
    split_ifs
    · rw [Option.map_map]
      rfl
    · rfl
  | heartbeat | gossip | nodeGoodbye | shadowReplicate | actorMessage | other => rfl

theorem lastInstalled_eq (a : Nat) (batch : List (Incoming σ)) :
    lastInstalled a batch = (lastBrought a batch).map (·.activationEpoch) := by
  induction batch with
  | nil => rfl
  | cons p batch ih => rw [lastInstalled, lastBrought, ih, Incoming.installs_eq, Option.map_or]

/-- What is left of a packet's effect on the runtime while the cluster is out of it: no demotion and
no takeover. -/
def Incoming.onRuntime (p : Incoming σ) (rt : Node σ) : Node σ :=
  match p.packet with
  | .spawnRequest known state => if known then rt.spawnActor p.env.freshActorId state else rt
  | .migrateActor id image => (rt.receiveMigratedActor id image (p.env.saves id)).getD rt
  | .shadowReplicate id image epoch => rt.storeShadowReplica id image epoch
  | .actorMessage target msg => rt.deliver target msg
  | _ => rt

section Loop

variable {w : Loop σ} {rt : Node σ} {a : Nat}

theorem processPacket_fst (h : w.1.cluster = none) (p : Incoming σ) :
    (processPacket w p).1 = p.onRuntime w.1 := by
  unfold processPacket Incoming.onRuntime
  cases p.packet with
  | gossip directory =>
    dsimp only
    rw [selfDemoteSuperseded_of_none h]
    split_ifs
    · rfl
    · rfl
  | nodeGoodbye node durable =>
    dsimp only
    rw [handleNodeRemoved_of_none h]
    split
    · rfl
    · rfl
  | heartbeat | spawnRequest | migrateActor | shadowReplicate | actorMessage | other => rfl

/-- A message changes nothing but a mailbox. -/
theorem deliver_eq (target : Nat) (msg : Message) :
    rt.deliver target msg = { rt with actors := (rt.deliver target msg).actors } := by
  unfold deliver
  cases rt.actors target with
  | none => rfl
  | some act =>
    dsimp only
    split_ifs
    · rfl
    · rfl

theorem snapshotOf_deliver {target : Nat} {msg : Message} :
    (rt.deliver target msg).snapshotOf a = rt.snapshotOf a := by
  unfold deliver snapshotOf
  cases hact : rt.actors target with
  | none => rfl
  | some act =>
    dsimp only
    split_ifs
    · by_cases ha : a = target
      · subst ha
        simp [hact, Activation.snapshot]
      · simp [ha]
    · rfl

theorem epochOf_deliver {target : Nat} {msg : Message} :
    (rt.deliver target msg).epochOf a = rt.epochOf a := by
  rw [epochOf_eq, epochOf_eq, snapshotOf_deliver]

theorem onRuntime_cluster (p : Incoming σ) : (p.onRuntime rt).cluster = rt.cluster := by
  unfold Incoming.onRuntime
  cases p.packet with
  | spawnRequest known state =>
    cases known with
    | false => rfl
    | true => rfl
  | migrateActor id image =>
    dsimp only
    obtain ⟨hnone, _⟩ | ⟨act, _, _, hsome⟩ := receiveMigratedActor_cases
    · rw [hnone]
      rfl
    · rw [hsome]
      rfl
  | shadowReplicate id image epoch =>
    dsimp only [storeShadowReplica]
    split_ifs
    · rfl
    · rfl
  | actorMessage target msg =>
    dsimp only
    rw [deliver_eq]
  | heartbeat | gossip | nodeGoodbye | other => rfl

theorem snapshotOf_onRuntime (p : Incoming σ) (rt : Node σ) (a : Nat) :
    (p.onRuntime rt).snapshotOf a = (p.brings a).or (rt.snapshotOf a) := by
  unfold Incoming.onRuntime Incoming.brings
  cases p.packet with
  | spawnRequest known state =>
    cases known with
    | false => rfl
    | true =>
      by_cases ha : a = p.env.freshActorId
      · simp [ha, spawnActor, snapshotOf, Activation.snapshot]
      · simp [ha, spawnActor, snapshotOf]
  | migrateActor id image =>
    dsimp only
    obtain ⟨hnone, hwhy⟩ | ⟨act, hact, hsaves, hsome⟩ := receiveMigratedActor_cases
    · rw [hnone]
      rcases hwhy with hwhy | hwhy
      · simp [hwhy]
      · simp [hwhy]
    · rw [hsome, hact, hsaves]
      by_cases ha : a = id
      · simp [ha, received, snapshotOf]
      · simp [ha, received, snapshotOf]
  | shadowReplicate id image epoch =>
    dsimp only [storeShadowReplica]
    split_ifs
    · rfl
    · rfl
  | actorMessage target msg => exact snapshotOf_deliver
  | heartbeat | gossip | nodeGoodbye | other => rfl

theorem epochOf_onRuntime (p : Incoming σ) (rt : Node σ) (a : Nat) :
    (p.onRuntime rt).epochOf a = (p.installs a).or (rt.epochOf a) := by
  rw [epochOf_eq, epochOf_eq, snapshotOf_onRuntime, Option.map_or, Incoming.installs_eq]

theorem processPacket_cluster (h : w.1.cluster = none) (p : Incoming σ) :
    (processPacket w p).1.cluster = none := by
  rw [processPacket_fst h, onRuntime_cluster, h]

variable (batch : List (Incoming σ))

theorem processNetworkPackets_cluster (h : w.1.cluster = none) :
    (processNetworkPackets w batch).1.cluster = none :=
  foldlRecOn (motive := fun w : Loop σ => w.1.cluster = none) batch _ h fun _ h p _ =>
    processPacket_cluster h p

/-- The loop changes the live activations only by the packets that install one. -/
theorem snapshotOf_processNetworkPackets : ∀ {w : Loop σ}, w.1.cluster = none →
      (processNetworkPackets w batch).1.snapshotOf a =
      (lastBrought a batch).or (w.1.snapshotOf a) := by
  induction batch with
  | nil => exact fun h => rfl
  | cons p batch ih =>
    intro w h
    have hrest := ih (processPacket_cluster h p)
    rw [processPacket_fst h, snapshotOf_onRuntime, ← Option.or_assoc] at hrest
    exact hrest

theorem epochOf_processNetworkPackets {w : Loop σ} (h : w.1.cluster = none) :
    (processNetworkPackets w batch).1.epochOf a = (lastInstalled a batch).or (w.1.epochOf a) := by
  rw [epochOf_eq, epochOf_eq, snapshotOf_processNetworkPackets batch h, Option.map_or,
    lastInstalled_eq]

/-- The loop only moves the directory forward. -/
theorem epochOf_le_processPacket (p : Incoming σ) :
    w.2.epochOf a ≤ (processPacket w p).2.epochOf a := by
  unfold processPacket
  cases p.packet with
  | gossip directory =>
    dsimp only
    split_ifs
    · exact Nat.le_refl _
    · exact ClusterState.epochOf_le_mergeDirectory directory { w.2 with members := p.members } a
  | nodeGoodbye node durable =>
    have hmerge :=
      ClusterState.epochOf_le_mergeDirectory (durable.map fun d => ⟨d.1, node, d.2⟩) w.2 a
    have hmark :=
      ClusterState.epochOf_markRemoved
        (w.2.mergeDirectory (durable.map fun d => ⟨d.1, node, d.2⟩)) node a
    rw [← hmark] at hmerge
    dsimp only
    split
    · rename_i c hc
      rw [hc] at hmerge
      exact hmerge
    · rename_i c hc
      rw [hc] at hmerge
      exact hmerge
  | heartbeat | spawnRequest | migrateActor | shadowReplicate | actorMessage | other =>
    exact Nat.le_refl _

theorem epochOf_le_processNetworkPackets :
    ∀ w : Loop σ, w.2.epochOf a ≤ (processNetworkPackets w batch).2.epochOf a := by
  induction batch with
  | nil => exact fun w => Nat.le_refl _
  | cons p batch ih => exact fun w => Nat.le_trans (epochOf_le_processPacket p) (ih _)

end Loop

/-! ## What the tick does to one actor -/

/-- What is known of the tables is kept by claims and by removals, and makes every takeover of the
actor one in epoch `l` or later. -/
structure Keeps (l a : Nat) (K : ClusterState → Prop) : Prop where
  members : ∀ c members, K c → K { c with members := members }
  claim : ∀ c entry, K c → K (c.claim entry)
  marked : ∀ c node, K c → K (c.markRemoved node).2
  next : ∀ c home, K c → home.nodeId ∉ c.removedNodes → c.directory.lookup a = some home →
    l ≤ home.epoch + 1

/-- The live activation of the actor, if there is one, is at epoch `l` or past it, and a later
takeover will be too. -/
structure Settled (l a : Nat) (K : ClusterState → Prop) (rt : Node σ) : Prop where
  live : ∀ x, rt.epochOf a = some x → l ≤ x
  known : ∃ c, rt.cluster = some c ∧ K c

section Tick

variable {l a : Nat} {K : ClusterState → Prop} {rt rt' : Node σ}

theorem Settled.reaped (h : Settled l a K rt) (id : Nat) :
    Settled l a K (rt.reapLivingActor id) := by
  refine ⟨fun x hx => ?_, h.known⟩
  rw [epochOf_reapLivingActor] at hx
  split_ifs at hx
  exact h.live x hx

theorem Settled.adopted (h : Settled l a K rt) {entry : DurableDirectoryEntry}
    (he : entry.actorId = a → l ≤ entry.epoch + 1) (act : Activation σ) :
    Settled l a K (rt.adopted entry act) := by
  refine ⟨fun x hx => ?_, h.known⟩
  unfold epochOf at hx
  rw [adopted_actors] at hx
  by_cases ha : a = entry.actorId
  · rw [ha, update_self] at hx
    cases hx
    exact he ha.symm
  · rw [update_of_ne ha] at hx
    exact h.live x hx

section

variable (hK : Keeps l a K) (h : Settled l a K rt)
include hK h

theorem Settled.checkpointed {id : Nat} {ok : Bool} (hc : rt.tryCheckpointActor id ok = some rt') :
    Settled l a K rt' := by
  obtain ⟨c, hcluster, hc'⟩ := h.known
  obtain rfl | ⟨act, _, rfl | ⟨c', shadow, module, hcluster', _, _, rfl⟩⟩ :=
    tryCheckpointActor_cases hc
  · exact h
  · exact ⟨h.live, h.known⟩
  · rw [hcluster] at hcluster'
    cases hcluster'
    exact ⟨h.live, _, rfl, hK.claim c _ hc'⟩

theorem Settled.announced (entry : DurableDirectoryEntry) : Settled l a K (rt.announce entry) := by
  obtain ⟨c, hc, hk⟩ := h.known
  refine ⟨h.live, c.announceDirectory entry, ?_, hK.claim c entry hk⟩
  unfold announce
  rw [hc]
  rfl

theorem Settled.takeOver (removed : Nat) (env : Env) {entry : DurableDirectoryEntry}
    (he : entry.actorId = a → l ≤ entry.epoch + 1) :
    Settled l a K (takeOver removed env rt entry) := by
  obtain ⟨heq | ⟨heq, _⟩, _⟩ | ⟨act, heq, _, _⟩ | ⟨act, rt', _, hcheck, heq⟩ := takeOver_cases
  · rw [heq]
    exact h
  · rw [heq]
    exact ⟨h.live, h.known⟩
  · rw [heq]
    have hgiven : Settled l a K ((rt.adopted entry act).optOut entry.actorId) :=
      ⟨(h.adopted he act).live, (h.adopted he act).known⟩
    exact hgiven.reaped entry.actorId
  · rw [heq]
    have hthrough := ((h.adopted he act).checkpointed hK hcheck).announced hK
      ⟨entry.actorId, rt'.nodeId, entry.epoch + 1⟩
    exact ⟨hthrough.live, hthrough.known⟩

theorem Settled.takeOvers (removed : Nat) (env : Env) (entries : List DurableDirectoryEntry)
    (he : ∀ entry ∈ entries, entry.actorId = a → l ≤ entry.epoch + 1) :
    Settled l a K (entries.foldl (Node.takeOver removed env) rt) :=
  foldlRecOn (motive := Settled l a K) entries _ h fun _ h entry hmem =>
    h.takeOver hK removed env (he entry hmem)

theorem Settled.goodbyeSelf (env : Env) : Settled l a K (rt.goodbyeSelf env).2 := by
  unfold Node.goodbyeSelf
  refine foldlRecOn (motive := Settled l a K) _ _ h fun rt h s _ => ?_
  cases hc : rt.tryCheckpointActor s.1 (env.checkpoints s.1) with
  | none => exact h.reaped s.1
  | some rt' => exact (h.checkpointed hK hc).reaped s.1

theorem Settled.action (env : Env) (action : ClusterAction) :
    Settled l a K (applyAction env rt action) := by
  cases action with
  | nodeRemoved node =>
    obtain ⟨c, hc, hk⟩ := h.known
    rw [applyAction_nodeRemoved hc]
    split_ifs with hn
    · exact h
    · have hmarked : Settled l a K (rt.marked c node) := by
        refine ⟨h.live, _, rfl, ?_⟩
        have hkept := hK.marked c node hk
        rwa [markRemoved, if_neg hn] at hkept
      refine hmarked.takeOvers hK node env _ fun entry hmem ha => ?_
      obtain ⟨hl, hnode⟩ := mem_directoryForNode.mp hmem
      subst ha
      exact hK.next c ⟨entry.nodeId, entry.epoch⟩ hk (by rw [hnode]; exact hn) hl
  | down => exact ⟨(h.goodbyeSelf hK env).live, (h.goodbyeSelf hK env).known⟩
  | other => exact h

end

theorem Settled.actions (hK : Keeps l a K) (env : Env) (actions : List ClusterAction)
    (h : Settled l a K rt) :
    Settled l a K (actions.foldl (applyAction env) rt) :=
  foldlRecOn (motive := Settled l a K) actions _ h fun _ h action _ => h.action hK env action

end Tick

/-! ## A superseded activation -/

/-- The state of the packet loop of a node after some of the packets. -/
def loopAfter (rt : Node σ) (c : ClusterState) (batch : List (Incoming σ)) : Loop σ :=
  processNetworkPackets ({ rt with cluster := none }, c) batch

theorem loopAfter_append (rt : Node σ) (c : ClusterState) (before after : List (Incoming σ))
    (p : Incoming σ) : loopAfter rt c (before ++ p :: after) =
      processNetworkPackets (processPacket (loopAfter rt c before) p) after := by
  unfold loopAfter processNetworkPackets
  rw [foldl_append]
  rfl

/-- An entry of arriving gossip that supersedes a live, opted activation. -/
def Supersedes (w : Loop σ) (entry : DurableDirectoryEntry) : Prop :=
  entry.actorId ∈ w.1.respawnOpted ∧ (∃ x, w.1.epochOf entry.actorId = some x ∧ x < entry.epoch) ∧
    w.2.Newer entry

/-- No activation older than the entry is live. -/
def Stopped (rt : Node σ) (entry : DurableDirectoryEntry) : Prop :=
  ∀ x, rt.epochOf entry.actorId = some x → entry.epoch ≤ x

theorem keeps_epochOf {e a : Nat} : Keeps e a (e ≤ ·.epochOf a) where
  members _ _ h := h
  claim _ _ h := Nat.le_trans h (epochOf_le_claim a)
  marked c node h := by rwa [epochOf_markRemoved]
  next c home h _ hl := by
    unfold ClusterState.epochOf at h
    rw [hl] at h
    exact Nat.le_succ_of_le h

theorem processNetwork_of_some (rt : Node σ) (c : ClusterState) (batch : List (Incoming σ))
    (tick : Tick) :
    processNetwork
      { rt with cluster := some c } batch tick = tick.actions.foldl (applyAction tick.env)
        { (loopAfter rt c batch).1 with
          cluster := some { (loopAfter rt c batch).2 with members := tick.members } } := rfl

/-- After gossip the cluster knows every entry of it, or a newer one. -/
theorem le_epochOf_gossip (w : Loop σ) {directory : List DurableDirectoryEntry}
    {entry : DurableDirectoryEntry} (hmem : entry ∈ directory) (members : List NodeInfo)
    (env : Env) : entry.epoch ≤
      (processPacket w ⟨.gossip directory, members, env⟩).2.epochOf entry.actorId := by
  have hnonempty : directory.isEmpty = false := isEmpty_eq_false_iff.mpr (ne_nil_of_mem hmem)
  unfold processPacket
  dsimp only
  rw [if_neg (by simp [hnonempty])]
  exact ClusterState.le_epochOf_mergeDirectory hmem _

/-- Gossip that supersedes a live activation stops it by the end of the call exactly if a later
packet of the batch happens to bring a newer activation of the same actor. -/
theorem superseded_stops_iff (rt : Node σ) (c : ClusterState) (before after : List (Incoming σ))
    (directory : List DurableDirectoryEntry) (members : List NodeInfo) (env : Env) :
    (∀ entry ∈ directory, Supersedes (loopAfter rt c before) entry → ∀ tick,
        Stopped (processNetwork { rt with cluster := some c }
          (before ++ ⟨.gossip directory, members, env⟩ :: after) tick) entry) ↔
      ∀ entry ∈ directory, Supersedes (loopAfter rt c before) entry →
        ∃ x, lastInstalled entry.actorId after = some x ∧ entry.epoch ≤ x := by
  refine forall_congr' fun entry => forall_congr' fun hmem => forall_congr' fun hs => ?_
  set gossip : Incoming σ := ⟨.gossip directory, members, env⟩
  have hout : (loopAfter rt c before).1.cluster = none := processNetworkPackets_cluster before rfl
  -- the gossip itself leaves the activation as it is
  have hepoch : (loopAfter rt c (before ++ gossip :: after)).1.epochOf entry.actorId =
      (lastInstalled entry.actorId after).or ((loopAfter rt c before).1.epochOf entry.actorId) := by
    rw [loopAfter_append, epochOf_processNetworkPackets _ (processPacket_cluster hout gossip),
      processPacket_fst hout, epochOf_onRuntime]
    rfl
  have hknown :
      entry.epoch ≤ (loopAfter rt c (before ++ gossip :: after)).2.epochOf entry.actorId := by
    rw [loopAfter_append]
    exact Nat.le_trans (le_epochOf_gossip _ hmem members env)
      (epochOf_le_processNetworkPackets _ _)
  obtain ⟨_, ⟨x, hx, hlt⟩, _⟩ := hs
  constructor
  · intro hstopped
    have hend := hstopped ⟨[], [], env⟩
    rw [processNetwork_of_some] at hend
    unfold Stopped at hend
    cases hlast : lastInstalled entry.actorId after with
    | none =>
      rw [hlast, hx] at hepoch
      exact absurd (hend x hepoch) (Nat.not_le.mpr hlt)
    | some y =>
      rw [hlast] at hepoch
      exact ⟨y, rfl, hend y hepoch⟩
  · rintro ⟨y, hy, hle⟩ tick
    rw [hy] at hepoch
    rw [processNetwork_of_some]
    have hlive :
        ∀ z, (loopAfter rt c (before ++ gossip :: after)).1.epochOf entry.actorId = some z →
        entry.epoch ≤ z := by
      intro z hz
      rw [hepoch] at hz
      cases hz
      exact hle
    have hstart : Settled entry.epoch entry.actorId (entry.epoch ≤ ·.epochOf entry.actorId)
        ({ (loopAfter rt c (before ++ gossip :: after)).1 with
            cluster :=
              some { (loopAfter rt c (before ++ gossip :: after)).2 with members := tick.members }
                } : Node σ) :=
      ⟨hlive, _, rfl, hknown⟩
    exact (Settled.actions keeps_epochOf tick.env tick.actions hstart).live

section Veteran

/-- A store that works, on a node whose next actor is number 9. -/
def working : Env := ⟨fun _ => true, fun _ => true, 9, 0⟩

def bare (nodeId : Nat) : Node Int :=
  ⟨nodeId, fun _ => none, [], fun _ => none, fun _ => none, fun _ => none, none, []⟩

/-- Node 1 hosts actor 7 in its first activation and has come back after having been given up. -/
def veteran : Node Int :=
  { bare 1 with
    actors := update (fun _ => none) 7 (some ⟨1, true, some ["hit"], 5, [], 0⟩)
    respawnOpted := [7] }

def veteranCluster : ClusterState :=
  ⟨[⟨1, .healthy⟩, ⟨2, .healthy⟩], AList.singleton 7 ⟨1, 1⟩, []⟩

/-- Node 2 has taken the actor over in epoch 2 and says so; node 1 goes on with its own. -/
theorem veteran_goes_on :
    Supersedes (loopAfter veteran veteranCluster []) ⟨7, 2, 2⟩ ∧
      ¬ ∀ tick, Stopped (processNetwork { veteran with cluster := some veteranCluster }
        [⟨.gossip [⟨7, 2, 2⟩], veteranCluster.members, working⟩] tick) ⟨7, 2, 2⟩ := by
  refine ⟨⟨by decide, ⟨1, rfl, by decide⟩, ?_⟩, fun h => ?_⟩
  · rintro home hl
    have hhome : home = ⟨1, 1⟩ := Option.some.inj (Option.mem_def.mp hl).symm
    rw [hhome]
    decide
  · have hend := h ⟨[], [], working⟩ 1 rfl
    exact absurd hend (by decide)

end Veteran

/-! ## A goodbye -/

/-- What matters to one actor in a tick is the same on both sides. -/
structure Alike (env : Env) (a : Nat) (rt rt' : Node σ) : Prop where
  nodeId : rt'.nodeId = rt.nodeId
  about : rt'.about a = rt.about a
  actor : rt'.actors a = rt.actors a
  ready : Ready env rt' a ↔ Ready env rt a
  opted : a ∈ rt'.respawnOpted ↔ a ∈ rt.respawnOpted

/-- The action of a tick takes the actor over, or stops it. -/
def Touches (env : Env) (a : Nat) (rt : Node σ) : ClusterAction → Prop
  | .nodeRemoved node => ∃ c e, rt.cluster = some c ∧ node ∉ c.removedNodes ∧
      c.directory.lookup a = some ⟨node, e⟩ ∧ Tries node env rt ⟨a, node, e⟩
  | .down => a ∈ rt.respawnOpted ∧ ∃ act, rt.actors a = some act ∧ act.persistent = true
  | .other => False

section Touched

variable {env : Env} {a : Nat} {rt rt' : Node σ}

namespace Alike

theorem refl (rt : Node σ) : Alike env a rt rt := ⟨rfl, rfl, rfl, Iff.rfl, Iff.rfl⟩

theorem symm (h : Alike env a rt rt') : Alike env a rt' rt :=
  ⟨h.nodeId.symm, h.about.symm, h.actor.symm, h.ready.symm, h.opted.symm⟩

theorem trans {rt'' : Node σ} (h : Alike env a rt rt') (h' : Alike env a rt' rt'') :
    Alike env a rt rt'' :=
  ⟨h'.nodeId.trans h.nodeId, h'.about.trans h.about, h'.actor.trans h.actor, h'.ready.trans h.ready,
    h'.opted.trans h.opted⟩

theorem of_apart {id : Nat} (h : Apart id rt rt') (ha : a ≠ id) : Alike env a rt rt' where
  nodeId := h.nodeId
  about := h.about a ha
  actor := h.actors a ha
  ready := by rw [Ready, Ready, replicaOf, replicaOf, h.replicas a ha]
  opted := h.opted a ha

/-- The node's tables say the same about the actor. -/
theorem cluster (h : Alike env a rt rt') {c : ClusterState} (hc : rt.cluster = some c) :
    ∃ c', rt'.cluster = some c' ∧ c'.about a = c.about a := by
  have habout := h.about
  unfold Node.about at habout
  rw [hc] at habout
  exact Option.map_eq_some_iff.mp habout

theorem tries (h : Alike env a rt rt') {removed : Nat} {entry : DurableDirectoryEntry}
    (ha : entry.actorId = a) (ht : Tries removed env rt entry) : Tries removed env rt' entry := by
  obtain ⟨c, hc, hshadow⟩ := Option.bind_eq_some_iff.mp ht.shadow
  obtain ⟨c', hc', habout⟩ := h.cluster hc
  refine ⟨?_, ht.next, ?_⟩
  · rw [hc', h.nodeId, ← hshadow]
    -- the shadow is read off the members
    exact congrArg (fun view => (⟨view.1, ∅, []⟩ : ClusterState).shadowFor removed) habout
  · rw [ha]
    exact h.ready.mpr (ha ▸ ht.ready)

theorem touches (h : Alike env a rt rt') {action : ClusterAction} (ht : Touches env a rt action) :
    Touches env a rt' action := by
  cases action with
  | nodeRemoved node =>
    obtain ⟨c, e, hc, hn, hl, htries⟩ := ht
    obtain ⟨c', hc', habout⟩ := h.cluster hc
    obtain ⟨-, hview⟩ := Prod.mk.inj habout
    obtain ⟨hremoved, hlookup⟩ := Prod.mk.inj hview
    exact ⟨c', e, hc', by rw [hremoved]; exact hn, by rw [hlookup]; exact hl, h.tries rfl htries⟩
  | down =>
    obtain ⟨hopted, act, hact, hp⟩ := ht
    exact ⟨h.opted.mpr hopted, act, h.actor.trans hact, hp⟩
  | other => exact ht

theorem takeOver {removed : Nat} {entry : DurableDirectoryEntry} (ha : entry.actorId = a)
    (hnot : ¬ Tries removed env rt entry) : Alike env a rt (takeOver removed env rt entry) := by
  subst ha
  obtain ⟨heq | ⟨heq, hready⟩, _⟩ | ⟨_, _, _, _, htries⟩ | ⟨act, rt', htakes, _, _⟩ :=
    takeOver_cases
  · rw [heq]
    exact .refl rt
  · rw [heq]
    -- the replica is used up, but it was of no use
    refine ⟨rfl, rfl, rfl, iff_of_false ?_ hready, Iff.rfl⟩
    rintro ⟨hsome, -⟩
    simp [replicaOf, dropReplica] at hsome
  · exact absurd htries hnot
  · exact absurd htakes.tries hnot

theorem takeOvers {removed : Nat} (entries : List DurableDirectoryEntry) :
    ∀ {rt : Node σ}, (∀ entry ∈ entries, entry.actorId = a → ¬ Tries removed env rt entry) →
      Alike env a rt (entries.foldl (Node.takeOver removed env) rt) := by
  induction entries with
  | nil => exact fun _ => .refl _
  | cons first entries ih =>
    intro rt hnot
    have hfirst : Alike env a rt (Node.takeOver removed env rt first) := by
      by_cases ha : first.actorId = a
      · exact .takeOver ha (hnot first mem_cons_self ha)
      · exact .of_apart (apart_takeOver first) (Ne.symm ha)
    refine hfirst.trans (ih fun entry hmem ha htries => ?_)
    exact hnot entry (mem_cons_of_mem _ hmem) ha (hfirst.symm.tries ha htries)

theorem goodbyes (opted : List (Nat × Nat)) :
    ∀ {rt : Node σ}, a ∉ opted.map Prod.fst → Alike env a rt (opted.foldl (stop env) rt) := by
  induction opted with
  | nil => exact fun _ => .refl _
  | cons s opted ih =>
    intro rt hnot
    rw [map_cons, mem_cons, not_or] at hnot
    exact (of_apart (apart_stop s) hnot.1).trans (ih hnot.2)

end Alike

variable {c : ClusterState} {action : ClusterAction}

/-- An action that does not touch the actor changes nothing that matters to it, but for a node that
is marked. -/
theorem alike_of_not_touches (hc : rt.cluster = some c) (hnot : ¬ Touches env a rt action) :
    Alike env a rt (applyAction env rt action) ∨ ∃ node, action = .nodeRemoved node ∧
      Alike env a (rt.marked c node) (applyAction env rt action) := by
  cases action with
  | nodeRemoved node =>
    rw [applyAction_nodeRemoved hc]
    split_ifs with hn
    · exact .inl (.refl rt)
    · refine .inr ⟨node, rfl, .takeOvers _ fun entry hmem ha htries => hnot ?_⟩
      obtain ⟨hl, hnode⟩ := mem_directoryForNode.mp hmem
      subst ha hnode
      refine ⟨c, entry.epoch, hc, hn, hl, ?_, htries.next, htries.ready⟩
      rw [hc]
      exact htries.shadow
  | down =>
    have hlist : a ∉ (rt.goodbyeSelf env).1.map Prod.fst := fun ha => hnot (mem_goodbyeSelf.mp ha)
    have halike : Alike env a rt ((rt.goodbyeSelf env).1.foldl (stop env) rt) := .goodbyes _ hlist
    exact .inl ⟨halike.nodeId, halike.about, halike.actor, halike.ready, halike.opted⟩
  | other => exact .inl (.refl rt)

/-- A node that is marked is not removed again; but removing it would not have touched the actor. -/
theorem touches_marked (hc : rt.cluster = some c) {node : Nat}
    (hnot : ¬ Touches env a rt (.nodeRemoved node)) :
    Touches env a (rt.marked c node) action ↔ Touches env a rt action := by
  cases action with
  | nodeRemoved other =>
    constructor
    · rintro ⟨c', e, hc', hn, hl, htries⟩
      cases hc'
      refine ⟨c, e, hc, fun hmem => hn (mem_cons_of_mem _ hmem), hl, ?_, htries.next, htries.ready⟩
      rw [hc]
      exact htries.shadow
    · rintro ⟨c', e, hc', hn, hl, htries⟩
      obtain rfl := Option.some.inj (hc.symm.trans hc')
      have hne : other ≠ node := by
        rintro rfl
        exact hnot ⟨c, e, hc, hn, hl, htries⟩
      refine ⟨_, e, rfl, fun hmem => ?_, hl, ?_, htries.next, htries.ready⟩
      · exact (mem_cons.mp hmem).elim hne hn
      · have hshadow := htries.shadow
        rw [hc] at hshadow
        exact hshadow
  | down | other => exact Iff.rfl

theorem untouched (hc : rt.cluster = some c) (hnot : ¬ Touches env a rt action) :
    (applyAction env rt action).actors a = rt.actors a ∧
      ∀ next, Touches env a (applyAction env rt action) next ↔ Touches env a rt next := by
  obtain halike | ⟨node, rfl, halike⟩ := alike_of_not_touches hc hnot
  · exact ⟨halike.actor, fun next => ⟨halike.symm.touches, halike.touches⟩⟩
  · refine ⟨halike.actor, fun next =>
      Iff.trans ⟨halike.symm.touches, halike.touches⟩ (touches_marked hc hnot)⟩

variable {l : Nat} {K : ClusterState → Prop}

theorem Keeps.weaken (hK : Keeps l a K) : Keeps 0 a K :=
  ⟨hK.members, hK.claim, hK.marked, fun _ _ _ _ _ => Nat.zero_le _⟩

theorem Settled.of_takeOvers (hK : Keeps l a K) {removed : Nat} {entry : DurableDirectoryEntry}
    (ha : entry.actorId = a) (hl : l ≤ entry.epoch + 1) (entries : List DurableDirectoryEntry) :
    ∀ {rt : Node σ}, Settled 0 a K rt → (entries.map (·.actorId)).Nodup → entry ∈ entries →
      Tries removed env rt entry →
        Settled l a K (entries.foldl (Node.takeOver removed env) rt) := by
  induction entries with
  | nil => exact fun _ _ hmem => absurd hmem not_mem_nil
  | cons first entries ih =>
    intro rt h hnodup hmem htries
    obtain ⟨hfirst, hrest⟩ := nodup_cons.mp hnodup
    have hknown : Settled 0 a K (Node.takeOver removed env rt first) :=
      h.takeOver hK.weaken removed env fun _ => Nat.zero_le _
    rcases mem_cons.mp hmem with rfl | hmem
    · -- taken over, or stopped again
      have hdone : Settled l a K (Node.takeOver removed env rt entry) := by
        refine ⟨fun x hx => ?_, hknown.known⟩
        subst ha
        obtain ⟨_, hnot⟩ | ⟨act, heq, _, _⟩ | ⟨act, rt', htakes, _, _⟩ :=
          @takeOver_cases σ rt removed env entry
        · exact absurd htries hnot
        · rw [heq, epochOf_reapLivingActor, if_pos rfl] at hx
          cases hx
        · rw [epochOf_takeOver_takes htakes] at hx
          cases hx
          exact hl
      refine hdone.takeOvers hK removed env entries fun other hother heq => absurd ?_ hfirst
      exact mem_map.mpr ⟨other, hother, heq.trans ha.symm⟩
    · have hne : a ≠ first.actorId := by
        rintro rfl
        exact hfirst (mem_map.mpr ⟨entry, hmem, ha⟩)
      exact ih hknown hrest hmem ((Alike.of_apart (apart_takeOver first) hne).tries ha htries)

/-- An action that touches the actor leaves it stopped, or live in epoch `l` or later. -/
theorem Settled.of_touches (hK : Keeps l a K) (h : Settled 0 a K rt)
    (ht : Touches env a rt action) :
    Settled l a K (applyAction env rt action) := by
  cases action with
  | nodeRemoved node =>
    obtain ⟨c, e, hc, hn, hl, htries⟩ := ht
    obtain ⟨c', hc', hk⟩ := h.known
    obtain rfl := Option.some.inj (hc.symm.trans hc')
    rw [applyAction_nodeRemoved hc, if_neg hn]
    have hmarked : Settled 0 a K (rt.marked c node) := by
      refine ⟨h.live, _, rfl, ?_⟩
      have hkept := hK.marked c node hk
      rwa [markRemoved, if_neg hn] at hkept
    have hmem : (⟨a, node, e⟩ : DurableDirectoryEntry) ∈ c.directoryForNode node :=
      mem_directoryForNode.mpr ⟨hl, rfl⟩
    refine .of_takeOvers hK rfl (hK.next c ⟨node, e⟩ hk hn hl) _ hmarked
      nodup_directoryForNode hmem ?_
    refine ⟨?_, htries.next, htries.ready⟩
    have hshadow := htries.shadow
    rw [hc] at hshadow
    exact hshadow
  | down =>
    have hknown := (h.goodbyeSelf hK.weaken env).known
    refine ⟨fun x hx => ?_, hknown⟩
    have hlist : a ∈ (rt.goodbyeSelf env).1.map Prod.fst := mem_goodbyeSelf.mpr ht
    have hstopped : (rt.goodbyeSelf env).2.epochOf a = none := epochOf_goodbyes_of_mem hlist rt
    exact absurd (hstopped.symm.trans hx) (by simp)
  | other => exact ht.elim

/-- The actor comes out of a tick as it was, if none of the actions touches it as the tick finds
it. -/
theorem actors_of_untouched (actions : List ClusterAction) :
    ∀ {rt : Node σ}, Settled 0 a (fun _ => True) rt →
      (∀ action ∈ actions, ¬ Touches env a rt action) →
      (actions.foldl (applyAction env) rt).actors a = rt.actors a := by
  have hK : Keeps 0 a fun _ => True :=
    ⟨fun _ _ h => h, fun _ _ h => h, fun _ _ h => h, fun _ _ _ _ _ => Nat.zero_le _⟩
  induction actions with
  | nil => exact fun _ _ => rfl
  | cons action actions ih =>
    intro rt h hnot
    obtain ⟨hthis, hrest⟩ := forall_mem_cons.mp hnot
    obtain ⟨c, hc, -⟩ := h.known
    obtain ⟨hactor, htouches⟩ := untouched hc hthis
    exact (ih (h.action hK env action) fun next hmem ht =>
      hrest next hmem ((htouches next).mp ht)).trans hactor

/-- Otherwise it comes out stopped, or live in epoch `l` or later. -/
theorem Settled.of_touched (hK : Keeps l a K) (actions : List ClusterAction) :
    ∀ {rt : Node σ}, Settled 0 a K rt → (∃ action ∈ actions, Touches env a rt action) →
      Settled l a K (actions.foldl (applyAction env) rt) := by
  induction actions with
  | nil =>
    rintro rt - ⟨action, hmem, -⟩
    cases hmem
  | cons action actions ih =>
    rintro rt h ⟨touching, hmem, ht⟩
    by_cases hthis : Touches env a rt action
    · exact (Settled.of_touches hK h hthis).actions hK env actions
    · obtain ⟨c, hc, -⟩ := h.known
      have hmem' : touching ∈ actions := by
        rcases mem_cons.mp hmem with rfl | hmem'
        · exact absurd ht hthis
        · exact hmem'
      exact ih (h.action hK.weaken env action)
        ⟨touching, hmem', ((untouched hc hthis).2 touching).mpr ht⟩

end Touched

/-- The node is the shadow of a healthy peer and has a replica of each of the actors it lists that
can be restored. -/
structure Stands (w : Loop σ) (node : Nat) (durable : List (Nat × Nat)) : Prop where
  healthy : ⟨node, .healthy⟩ ∈ w.2.members
  shadow : w.2.shadowFor node = some w.1.nodeId
  replicas : ∀ d ∈ durable, (w.1.replicaOf d.1).isSome

/-- The directory, with the list merged in, still places the actor on the node. -/
def StillOn (w : Loop σ) (node : Nat) (durable : List (Nat × Nat)) (a : Nat) : Prop :=
  ∃ home, (w.2.mergeDirectory (durable.map fun d => ⟨d.1, node, d.2⟩)).directory.lookup
    a = some home ∧
    home.nodeId = node

/-- What a listed actor is to be: in the epoch after the listed one and with the state of the
replica. -/
def Inherited (w : Loop σ) (d : Nat × Nat) (live : Option (ActorSnapshot σ)) : Prop :=
  ∃ replica, w.1.replicaOf d.1 = some replica ∧ live = some ⟨d.2 + 1, replica.state⟩

/-- Every listed actor that is still on the node is live on `rt` as it is to be. -/
def HandedOver (w : Loop σ) (node : Nat) (durable : List (Nat × Nat)) (rt : Node σ) : Prop :=
  ∀ d ∈ durable, StillOn w node durable d.1 → Inherited w d (rt.snapshotOf d.1)

/-- The actor is on the removed node in epoch `e` or later, or somewhere else in a later one. -/
structure OnOrPast (node e a : Nat) (c : ClusterState) : Prop where
  removed : node ∈ c.removedNodes
  home : ∃ home, c.directory.lookup a = some home ∧
    (home.nodeId = node ∧ e ≤ home.epoch ∨ e + 1 ≤ home.epoch)

/-- Whoever takes it over from there skips the epoch after `e`. -/
theorem keeps_onOrPast {node e a : Nat} : Keeps (e + 2) a (OnOrPast node e a) where
  members _ _ h := ⟨h.removed, h.home⟩
  claim c entry h := by
    refine ⟨by rw [claim_removedNodes]; exact h.removed, ?_⟩
    obtain ⟨home, hl, hhome⟩ := h.home
    obtain heq | ⟨ha, hnewer, heq⟩ := lookup_claim c entry a
    · exact ⟨home, heq.trans hl, hhome⟩
    · have hlt := hnewer home (ha ▸ hl)
      refine ⟨_, heq, .inr ?_⟩
      rcases hhome with ⟨-, hle⟩ | hle
      · exact Nat.lt_of_le_of_lt hle hlt
      · exact Nat.le_trans hle (Nat.le_of_lt hlt)
  marked c other h := by
    refine ⟨?_, by rw [markRemoved_directory]; exact h.home⟩
    unfold markRemoved
    split_ifs
    · exact h.removed
    · exact mem_cons_of_mem _ h.removed
  next c home h hn hl := by
    obtain ⟨home', hl', hhome⟩ := h.home
    obtain rfl := Option.some.inj (hl.symm.trans hl')
    rcases hhome with ⟨rfl, -⟩ | hle
    · exact absurd h.removed hn
    · exact Nat.succ_le_succ hle

/-- What is known of the tables is also kept by the packets. -/
theorem Keeps.packets {l a : Nat} {K : ClusterState → Prop} (hK : Keeps l a K)
    (batch : List (Incoming σ)) {w : Loop σ} (h : K w.2) : K (processNetworkPackets w batch).2 := by
  have hmerge (c : ClusterState) (entries : List DurableDirectoryEntry) (hc : K c) :
      K (c.mergeDirectory entries) :=
    foldlRecOn (motive := K) entries _ hc fun c hc entry _ => hK.claim c entry hc
  refine foldlRecOn (motive := fun w : Loop σ => K w.2) batch _ h fun w h p _ => ?_
  unfold processPacket
  cases p.packet with
  | heartbeat => exact hK.members _ _ h
  | gossip directory =>
    dsimp only
    split_ifs
    · exact hK.members _ _ h
    · exact hmerge _ _ (hK.members _ _ h)
  | nodeGoodbye node durable =>
    have hmarked := hK.marked _ node (hmerge w.2 (durable.map fun d => ⟨d.1, node, d.2⟩) h)
    dsimp only
    split
    · rename_i c hc
      rw [hc] at hmarked
      exact hmarked
    · rename_i c hc
      rw [hc] at hmarked
      exact hmarked
  | spawnRequest | migrateActor | shadowReplicate | actorMessage | other => exact h

/-- Once a goodbye has been handled, its actors are on the leaving node or past it. -/
theorem onOrPast_goodbye {w : Loop σ} {node : Nat} {durable : List (Nat × Nat)} {d : Nat × Nat}
    (hd : d ∈ durable) (hon : StillOn w node durable d.1) (members : List NodeInfo) (env : Env) :
    OnOrPast node d.2 d.1 (processPacket w ⟨.nodeGoodbye node durable, members, env⟩).2 := by
  obtain ⟨home, hl, hnode⟩ := hon
  set merged := w.2.mergeDirectory (durable.map fun d => ⟨d.1, node, d.2⟩) with hmerged
  have hle : d.2 ≤ home.epoch := by
    have hmem : (⟨d.1, node, d.2⟩ : DurableDirectoryEntry) ∈ durable.map fun d =>
      ⟨d.1, node, d.2⟩ :=
      mem_map.mpr ⟨d, hd, rfl⟩
    have hle := le_epochOf_mergeDirectory hmem w.2
    rw [← hmerged, ClusterState.epochOf, hl] at hle
    exact hle
  have hafter : OnOrPast node d.2 d.1 (merged.markRemoved node).2 := by
    refine ⟨?_, home, by rw [markRemoved_directory]; exact hl, .inl ⟨hnode, hle⟩⟩
    unfold markRemoved
    split_ifs with hn
    · exact hn
    · exact mem_cons_self
  unfold processPacket
  dsimp only
  rw [← hmerged]
  split
  · rename_i c hc
    rw [hc] at hafter
    exact hafter
  · rename_i c hc
    rw [hc] at hafter
    exact hafter

/-- The node as the tick at the end of a call finds it. -/
def atTick (rt : Node σ) (c : ClusterState) (batch : List (Incoming σ)) (tick : Tick) : Node σ :=
  { (loopAfter rt c batch).1 with
    cluster := some { (loopAfter rt c batch).2 with members := tick.members } }

/-- A goodbye, in any batch, hands a listed actor that is still on the leaving node over exactly if
a later packet of the batch happens to bring it as it is to be, or it is live like that already and
no later packet brings it otherwise; and no action of the tick then touches it. The takeover itself
does nothing. -/
theorem goodbye_hands_over_iff (rt : Node σ) (c : ClusterState) (before after : List (Incoming σ))
    (node : Nat) (durable : List (Nat × Nat)) (members : List NodeInfo) (env : Env) (tick : Tick) :
    HandedOver (loopAfter rt c before) node durable (processNetwork { rt with cluster := some c }
        (before ++ ⟨.nodeGoodbye node durable, members, env⟩ :: after) tick) ↔
      ∀ d ∈ durable, StillOn (loopAfter rt c before) node durable d.1 →
        Inherited (loopAfter rt c before) d
          ((lastBrought d.1 after).or ((loopAfter rt c before).1.snapshotOf d.1)) ∧
        ∀ action ∈ tick.actions, ¬ Touches tick.env d.1
          (atTick rt c (before ++ ⟨.nodeGoodbye node durable, members, env⟩ :: after) tick)
          action := by
  set goodbye : Incoming σ := ⟨.nodeGoodbye node durable, members, env⟩
  refine forall_congr' fun d => forall_congr' fun hd => forall_congr' fun hon => ?_
  have hout : (loopAfter rt c before).1.cluster = none := processNetworkPackets_cluster before rfl
  -- the takeover is started, but finds no cluster in the runtime
  have hloop : (atTick rt c (before ++ goodbye :: after) tick).snapshotOf d.1 =
      (lastBrought d.1 after).or ((loopAfter rt c before).1.snapshotOf d.1) := by
    have hafter :=
      snapshotOf_processNetworkPackets (a := d.1) after (processPacket_cluster hout goodbye)
    rw [← loopAfter_append, processPacket_fst hout] at hafter
    exact hafter
  have hknown :
      Settled 0 d.1 (OnOrPast node d.2 d.1) (atTick rt c (before ++ goodbye :: after) tick) := by
    refine ⟨fun _ _ => Nat.zero_le _, _, rfl, keeps_onOrPast.members _ _ ?_⟩
    rw [loopAfter_append]
    exact keeps_onOrPast.packets after (onOrPast_goodbye hd hon members env)
  rw [processNetwork_of_some]
  change Inherited _ d ((tick.actions.foldl (applyAction tick.env)
    (atTick rt c (before ++ goodbye :: after) tick)).snapshotOf d.1) ↔ _
  by_cases htouched : ∃ action ∈ tick.actions,
      Touches tick.env d.1 (atTick rt c (before ++ goodbye :: after) tick) action
  · refine iff_of_false ?_ fun h => ?_
    · rintro ⟨replica, -, hlive⟩
      have hend := (Settled.of_touched keeps_onOrPast tick.actions hknown htouched).live (d.2 + 1)
        (by rw [epochOf_eq, hlive]; rfl)
      exact absurd hend (Nat.not_succ_le_self _)
    · obtain ⟨action, hmem, ht⟩ := htouched
      exact h.2 action hmem ht
  · have hnot : ∀ action ∈ tick.actions,
        ¬ Touches tick.env d.1 (atTick rt c (before ++ goodbye :: after) tick) action :=
      fun action hmem ht => htouched ⟨action, hmem, ht⟩
    have hsome : Settled 0 d.1 (fun _ => True) (atTick rt c (before ++ goodbye :: after) tick) :=
      ⟨hknown.live, hknown.known.imp fun _ h => ⟨h.1, trivial⟩⟩
    have hsame := actors_of_untouched tick.actions hsome hnot
    rw [← hloop, and_iff_left hnot, snapshotOf, hsame]
    rfl

/-- Node 2 holds the replica of actor 7 of node 1. -/
def heir : Node Int :=
  { bare 2 with
    shadowReplicas := update (fun _ => none) 7 (some ⟨⟨some ["hit"], some ⟨1, 5⟩⟩, 1⟩) }

/-- Node 1 leaves, node 2 has all it needs to go on with its actor and a store that works, and
nobody has the actor. -/
theorem heir_inherits_nothing :
    Stands (loopAfter heir veteranCluster []) 1 [(7, 1)] ∧
      ¬ HandedOver (loopAfter heir veteranCluster []) 1
        [(7, 1)] (processNetwork { heir with cluster := some veteranCluster }
        [⟨.nodeGoodbye 1 [(7, 1)], veteranCluster.members, working⟩]
        ⟨veteranCluster.members, [], working⟩) := by
  refine ⟨⟨by decide, by decide, by decide⟩, fun h => ?_⟩
  obtain ⟨replica, -, hlive⟩ := h (7, 1) (by decide) ⟨⟨1, 1⟩, rfl, rfl⟩
  cases hlive

end Nulang.Failover

import Nulang.Handover

/-!
# Activations across the cluster

Any number of nodes, each with its own view of who is healthy, its own directory and the replicas it
has been sent. A node that confirms another one gone takes that one's actors over if, in its own
view, it is their shadow and it holds their replicas; the new activation gets the epoch after the
one its directory has. Nothing is agreed on with the other nodes. The world keeps, beside the nodes,
who has ever hosted which activation.

Nothing that a node or a packet speaks of is made up: every activation that is live, in a directory,
in a replica, in a store or on its way has been hosted by some node before (`Within`, and `Inv` for
the whole world). An entry that a takeover goes by is therefore of an activation that there was, and
epochs are handed out without gaps in every run (`epochs_gapless`). That they are handed out only
once does not hold in every run: `OneHost` says when.
-/

set_option autoImplicit false

namespace Nulang.Failover

open ClusterState Node List Option Function

variable {σ : Type}

/-! ## What nodes and packets speak of -/

/-- A packet of the failover protocol that speaks only of activations in `K`. -/
def Packet.Within (K : Nat → Nat → Prop) : Packet σ → Prop
  | .gossip directory => ∀ entry ∈ directory, K entry.actorId entry.epoch
  | .nodeGoodbye _ durable => ∀ d ∈ durable, K d.1 d.2
  | .shadowReplicate a image _ => ∀ act, image.restore = some act → K a act.activationEpoch
  | .spawnRequest _ _ => False
  | .migrateActor _ _ => False
  | _ => True

/-- The directory knows only activations in `K`. -/
def ClusterState.Within (K : Nat → Nat → Prop) (c : ClusterState) : Prop :=
  ∀ a home, c.directory.lookup a = some home → K a home.epoch

/-- A node all of whose activations, live, known, replicated, stored or sent, are in `K`. -/
structure Node.Within (K : Nat → Nat → Prop) (rt : Node σ) : Prop where
  live : ∀ a e, rt.epochOf a = some e → K a e
  directory : ∀ c, rt.cluster = some c → c.Within K
  replicas : ∀ a act, (rt.shadowReplicas a).bind (·.image.restore) = some act →
    K a act.activationEpoch
  store : ∀ a snapshot, rt.persistence a = some snapshot → K a snapshot.activationEpoch
  sent : ∀ p ∈ rt.outbox, p.2.Within K

section Within

variable {K K' : Nat → Nat → Prop} {rt rt' : Node σ} {c : ClusterState}

theorem Packet.Within.mono (hK : ∀ a e, K a e → K' a e) {p : Packet σ} (h : p.Within K) :
    p.Within K' := by
  cases p with
  | gossip directory => exact fun entry hmem => hK _ _ (h entry hmem)
  | nodeGoodbye node durable => exact fun d hmem => hK _ _ (h d hmem)
  | shadowReplicate a image epoch => exact fun act hact => hK _ _ (h act hact)
  | spawnRequest | migrateActor => exact h
  | heartbeat | actorMessage | other => trivial

theorem Node.Within.mono (hK : ∀ a e, K a e → K' a e) (h : rt.Within K) : rt.Within K' :=
  ⟨fun a e he => hK _ _ (h.live a e he), fun c hc a home hl => hK _ _ (h.directory c hc a home hl),
    fun a act ha => hK _ _ (h.replicas a act ha), fun a s hs => hK _ _ (h.store a s hs),
    fun p hp => (h.sent p hp).mono hK⟩

variable {entry : DurableDirectoryEntry}

theorem ClusterState.Within.claim (h : c.Within K) (he : K entry.actorId entry.epoch) :
    (c.claim entry).Within K := by
  intro a home hl
  obtain heq | ⟨ha, _, hnew⟩ := lookup_claim c entry a
  · exact h a home (heq ▸ hl)
  · rw [hnew] at hl
    cases hl
    rw [ha]
    exact he

theorem ClusterState.Within.mergeDirectory (h : c.Within K) (entries : List DurableDirectoryEntry)
    (he : ∀ entry ∈ entries, K entry.actorId entry.epoch) : (c.mergeDirectory entries).Within K :=
  foldlRecOn (motive := Within K) entries _ h fun _ h entry hmem => h.claim (he entry hmem)

theorem ClusterState.Within.markRemoved (h : c.Within K) (node : Nat) :
    (c.markRemoved node).2.Within K := by
  intro a home hl
  rw [markRemoved_directory] at hl
  exact h a home hl

section

variable (h : rt.Within K)
include h

variable (id : Nat)

theorem Node.Within.reaped : (rt.reapLivingActor id).Within K := by
  refine ⟨fun a e he => ?_, h.directory, h.replicas, h.store, h.sent⟩
  rw [Node.epochOf_reapLivingActor] at he
  split_ifs at he
  exact h.live a e he

theorem Node.Within.saved {id : Nat} {snapshot : ActorSnapshot σ}
    (hs : K id snapshot.activationEpoch) : (rt.saveSnapshot id snapshot).Within K := by
  refine ⟨h.live, h.directory, h.replicas, ?_, h.sent⟩
  exact (forall_update_iff rt.persistence fun a s => ∀ snapshot, s = some snapshot →
    K a snapshot.activationEpoch).mpr
    ⟨fun _ hnew => some.inj hnew ▸ hs, fun a _ => h.store a⟩

theorem Node.Within.checkpointed {id : Nat} {ok : Bool}
    (hc : rt.tryCheckpointActor id ok = some rt') : rt'.Within K := by
  obtain rfl | ⟨act, ha, hsave⟩ := Node.tryCheckpointActor_cases hc
  · exact h
  have hact : K id act.activationEpoch := h.live id _ (by rw [Node.epochOf, ha]; rfl)
  have hsaved : (rt.saveSnapshot id act.snapshot).Within K := h.saved hact
  obtain rfl | ⟨c, shadow, module, hcluster, _, _, rfl⟩ := hsave
  · exact hsaved
  · refine ⟨hsaved.live, fun c' hc' => ?_, hsaved.replicas, hsaved.store, fun p hp => ?_⟩
    · cases hc'
      exact (h.directory c hcluster).claim hact
    · rcases mem_append.mp hp with hp | hp
      · exact h.sent p hp
      · rw [mem_singleton.mp hp]
        intro restored hrestored
        obtain ⟨_, snapshot, _, hs, heq⟩ := restore_eq_some hrestored
        cases hs
        rw [heq]
        exact hact

theorem Node.Within.checkpoint (ok : Bool) : ((rt.tryCheckpointActor id ok).getD rt).Within K := by
  cases hc : rt.tryCheckpointActor id ok with
  | none => exact h
  | some rt' => exact h.checkpointed hc

theorem Node.Within.announced (he : K entry.actorId entry.epoch) :
    (rt.announce entry).Within K := by
  refine ⟨h.live, fun c' hc' => ?_, h.replicas, h.store, h.sent⟩
  unfold Node.announce at hc'
  cases hc : rt.cluster with
  | none =>
    rw [hc] at hc'
    cases hc'
  | some c =>
    rw [hc] at hc'
    cases hc'
    exact (h.directory c hc).claim he

theorem replicas_update {id : Nat} {r : Option (ShadowReplica σ)}
    (hr : ∀ act, r.bind (·.image.restore) = some act → K id act.activationEpoch) :
    ∀ a act, (update rt.shadowReplicas id r a).bind (·.image.restore) = some act →
      K a act.activationEpoch :=
  (forall_update_iff rt.shadowReplicas fun a r => ∀ act, r.bind (·.image.restore) = some act →
    K a act.activationEpoch).mpr
    ⟨hr, fun a _ => h.replicas a⟩

theorem Node.Within.droppedReplica : (rt.dropReplica id).Within K :=
  ⟨h.live, h.directory, replicas_update h fun _ ha => (by cases ha), h.store, h.sent⟩

theorem Node.Within.adopted {act : Activation σ} (hact : K entry.actorId act.activationEpoch)
    (he : K entry.actorId (entry.epoch + 1)) : (rt.adopted entry act).Within K := by
  have hstored :
      ((rt.dropReplica entry.actorId).saveSnapshot entry.actorId act.snapshot).Within K :=
    (h.droppedReplica entry.actorId).saved hact
  refine ⟨?_, h.directory, hstored.replicas, hstored.store, h.sent⟩
  unfold Node.epochOf
  rw [adopted_actors]
  exact (forall_update_iff rt.actors fun a act => ∀ e, act.map (·.activationEpoch) =
    some e → K a e).mpr
    ⟨fun _ hnew => some.inj hnew ▸ he, fun a _ => h.live a⟩

/-- A takeover that is given up stores the replica, which is of an earlier activation. -/
theorem Node.Within.givenUp {act : Activation σ} (hact : K entry.actorId act.activationEpoch) :
    (((rt.adopted entry act).optOut entry.actorId).reapLivingActor entry.actorId).Within K := by
  have hstored :
      ((rt.dropReplica entry.actorId).saveSnapshot entry.actorId act.snapshot).Within K :=
    (h.droppedReplica entry.actorId).saved hact
  refine ⟨fun a e hlive => ?_, h.directory, hstored.replicas, hstored.store, h.sent⟩
  rw [Node.epochOf_reapLivingActor] at hlive
  split_ifs at hlive with ha
  have hother : (rt.adopted entry act).epochOf a = rt.epochOf a :=
    epochOf_of_apart (apart_adopted rt entry act) ha
  exact h.live a e (hother.symm.trans hlive)

theorem Node.Within.takeOver (removed : Nat) (env : Env)
    (he : ∀ act, Takes removed env rt entry act → K entry.actorId (entry.epoch + 1)) :
    (Node.takeOver removed env rt entry).Within K := by
  obtain ⟨heq | ⟨heq, _⟩, _⟩ | ⟨act, heq, hr, _⟩ | ⟨act, rt', htakes, hcheck, heq⟩ := takeOver_cases
  · rw [heq]
    exact h
  · rw [heq]
    exact h.droppedReplica entry.actorId
  · rw [heq]
    exact h.givenUp (h.replicas _ act hr)
  · rw [heq]
    have hnext := he act htakes
    have hthrough :=
      ((h.adopted (h.replicas _ act htakes.replica) hnext).checkpointed hcheck).announced
      (show K (⟨entry.actorId, rt'.nodeId, entry.epoch + 1⟩ : DurableDirectoryEntry).actorId
        _ from hnext)
    exact ⟨hthrough.live, hthrough.directory, hthrough.replicas, hthrough.store, hthrough.sent⟩

end

theorem Node.Within.takeOvers {removed : Nat} {env : Env} (entries : List DurableDirectoryEntry) :
    ∀ {rt : Node σ}, rt.Within K → (entries.map (·.actorId)).Nodup →
      (∀ entry ∈ entries, ∀ act, Takes removed env rt entry act →
        K entry.actorId (entry.epoch + 1)) →
      (entries.foldl (Node.takeOver removed env) rt).Within K := by
  induction entries with
  | nil => exact fun h _ _ => h
  | cons first entries ih =>
    intro rt h hnodup he
    obtain ⟨hfirst, hrest⟩ := nodup_cons.mp hnodup
    refine ih (h.takeOver removed env (he first (mem_cons_self ..))) hrest
      fun entry hmem act htakes => ?_
    exact he entry (mem_cons_of_mem _ hmem) act ((takes_rest hfirst hmem).mp htakes)

theorem Node.Within.goodbyes (h : rt.Within K) (env : Env) (opted : List (Nat × Nat)) :
    (opted.foldl (stop env) rt).Within K :=
  foldlRecOn (motive := Node.Within K) opted _ h fun _ h s _ => (h.checkpoint s.1 _).reaped s.1

theorem Node.Within.down (h : rt.Within K) (env : Env) : (applyAction env rt .down).Within K := by
  have hgone := h.goodbyes env (rt.goodbyeSelf env).1
  refine ⟨hgone.live, hgone.directory, hgone.replicas, hgone.store, fun p hp => ?_⟩
  rcases mem_append.mp hp with hp | hp
  · exact hgone.sent p hp
  · obtain ⟨info, _, rfl⟩ := List.mem_map.mp hp
    intro d hd
    obtain ⟨a, _, hd⟩ := mem_filterMap.mp hd
    cases hlive : rt.actors a with
    | none =>
      rw [hlive] at hd
      cases hd
    | some act =>
      rw [hlive, bind_eq_bind, bind_some] at hd
      split_ifs at hd
      cases hd
      exact h.live a _ (by rw [Node.epochOf, hlive]; rfl)

theorem Node.Within.packet (h : rt.Within K) {p : Incoming σ} (hp : p.packet.Within K) :
    (p.onRuntime rt).Within K ∧ ∀ a, p.installs a = none := by
  unfold Incoming.onRuntime Incoming.installs
  cases hpacket : p.packet with
  | spawnRequest | migrateActor =>
    rw [hpacket] at hp
    exact hp.elim
  | shadowReplicate id image epoch =>
    rw [hpacket] at hp
    refine ⟨?_, fun _ => rfl⟩
    dsimp only [storeShadowReplica]
    split_ifs
    · exact ⟨h.live, h.directory, replicas_update h hp, h.store, h.sent⟩
    · exact h
  | actorMessage target msg =>
    refine ⟨?_, fun _ => rfl⟩
    have hlive : ∀ a e, (rt.deliver target msg).epochOf a = some e → K a e := fun a e he =>
      h.live a e ((epochOf_deliver).symm.trans he)
    dsimp only
    rw [deliver_eq] at hlive ⊢
    exact ⟨hlive, h.directory, h.replicas, h.store, h.sent⟩
  | heartbeat | gossip | nodeGoodbye | other => exact ⟨h, fun _ => rfl⟩

end Within

/-- The nodes, the packets on their way, and who has ever hosted which activation of which actor. -/
structure World (σ : Type) where
  nodes : Nat → Node σ
  network : List (Nat × Packet σ)
  hosted : Nat → Nat → Nat → Prop

/-- A node that has just started, with what its store holds. -/
def freshNode (nodeId : Nat) (persistence : Nat → Option (ActorSnapshot σ)) : Node σ :=
  ⟨nodeId, fun _ => none, [], fun _ => none, fun _ => none, persistence,
    some ⟨[⟨nodeId, .healthy⟩], ∅, []⟩, []⟩

inductive NodeOp (σ : Type) where
  /-- Spawn a persistent bytecode actor. -/
  | spawn (a : Nat) (module : List String) (state : σ)
  /-- Supervise it, to be respawned on node loss. -/
  | superviseChild (a : Nat)
  /-- A handler of the actor leaves it with another state. -/
  | turn (a : Nat) (state : σ)
  | checkpoint (a : Nat) (ok : Bool)
  /-- The membership table changes, by heartbeats, timeouts or gossip. -/
  | view (members : List NodeInfo)
  /-- Send some of the directory's entries. -/
  | gossip (target : Nat) (pick : DurableDirectoryEntry → Bool)
  /-- The tick confirms a node gone. -/
  | removed (node : Nat) (env : Env)
  /-- The tick takes this node out of the cluster. -/
  | down (env : Env)
  /-- The process dies and is started again: all that is left is the store. -/
  | crash
  | recover (a : Nat) (module : List String)

namespace Node

def insertActor (rt : Node σ) (a : Nat) (act : Activation σ) : Node σ :=
  { rt with actors := update rt.actors a (some act) }

/-- What `recover_actor` makes live. -/
def recovered (rt : Node σ) (a : Nat) (module : List String) : Option (Activation σ) :=
  (rt.persistence a).bind fun snapshot => (⟨some module, some snapshot⟩ : Image σ).restore

def superviseChild (rt : Node σ) (a : Nat) : Node σ :=
  match rt.actors a with
  | none => rt
  | some act =>
    if act.persistent then
      ({ rt with respawnOpted := rt.respawnOpted.insert a } : Node σ).announce
      ⟨a, rt.nodeId, act.activationEpoch⟩
    else rt

def run (rt : Node σ) : NodeOp σ → Node σ
  | .spawn a module state => rt.insertActor a ⟨1, true, some module, state, [], 0⟩
  | .superviseChild a => rt.superviseChild a
  | .turn a state =>
    match rt.actors a with
    | none => rt
    | some act => rt.insertActor a { act with state := state }
  | .checkpoint a ok => (rt.tryCheckpointActor a ok).getD rt
  | .view members => { rt with cluster := rt.cluster.map fun c => { c with members := members } }
  | .gossip target pick =>
    { rt with outbox := rt.outbox ++ rt.cluster.toList.map fun c =>
      (target, .gossip (c.directoryPayload.filter pick)) }
  | .removed node env => applyAction env rt (.nodeRemoved node)
  | .down env => applyAction env rt .down
  | .crash => freshNode rt.nodeId rt.persistence
  | .recover a module =>
    match rt.recovered a module with
    | none => rt
    | some act => rt.insertActor a act

/-- One packet in a call of `process_network`, with a tick that asks for nothing. -/
def receivePacket (rt : Node σ) (packet : Packet σ) (env : Env) : Node σ :=
  let members := (rt.cluster.map (·.members)).getD []
  processNetwork rt [⟨packet, members, env⟩] ⟨members, [], env⟩

end Node

namespace World

def start : World σ := ⟨fun n => freshNode n fun _ => none, [], fun _ _ _ => False⟩

/-- Let one node act: what it sends is then on its way, and what it hosts is recorded. -/
def act (w : World σ) (n : Nat) (rt : Node σ) : World σ :=
  let nodes := update w.nodes n { rt with outbox := [] }
  ⟨nodes, w.network ++ rt.outbox, fun a e m => w.hosted a e m ∨ (nodes m).epochOf a = some e⟩

inductive Op (σ : Type) where
  | node (n : Nat) (op : NodeOp σ)
  /-- Any packet on its way arrives. -/
  | deliver (i : Nat) (env : Env)

def step (w : World σ) : Op σ → World σ
  | .node n op => w.act n ((w.nodes n).run op)
  | .deliver i env =>
    match w.network[i]? with
    | none => w
    | some (n, packet) =>
      ({ w with network := w.network.eraseIdx i } : World σ).act n
        ((w.nodes n).receivePacket packet env)

/-- No activation of an actor has ever been hosted by two nodes. -/
def Unique (w : World σ) : Prop := ∀ a e n m, w.hosted a e n → w.hosted a e m → n = m

/-- Some node has hosted the activation. -/
def Known (w : World σ) (a e : Nat) : Prop := ∃ n, w.hosted a e n

end World

/-! ## What the steps of a node make live -/

/-- The activations a step makes live. -/
def Node.Creates (rt : Node σ) (op : NodeOp σ) (a e : Nat) : Prop :=
  match op with
  | .spawn b _ _ => a = b ∧ e = 1
  | .recover b module => a = b ∧ ∃ act, rt.recovered b module = some act ∧ e = act.activationEpoch
  | .removed node env => ∃ c, rt.cluster = some c ∧ node ∉ c.removedNodes ∧
      ∃ entry ∈ c.directoryForNode node, ∃ act, Takes node env rt entry act ∧ a = entry.actorId ∧
      e = entry.epoch + 1
  | _ => False

namespace Node

variable {rt : Node σ} {a e : Nat}

theorem epochOf_insertActor (b : Nat) (act : Activation σ) :
    (rt.insertActor b act).epochOf a = if a = b then some act.activationEpoch
    else rt.epochOf a := by
  unfold epochOf insertActor
  split_ifs with ha
  · simp [ha]
  · simp [ha]

variable {c : ClusterState}

/-- A confirmed removal does nothing, or marks the node and takes its actors over. -/
theorem run_removed (rt : Node σ) (node : Nat) (env : Env) :
    rt.run (.removed node env) = rt ∧ (∀ c, rt.cluster = some c → node ∈ c.removedNodes) ∨
      ∃ c, rt.cluster = some c ∧ node ∉ c.removedNodes ∧
        rt.run (.removed node env) = (c.directoryForNode node).foldl (takeOver node env)
          (rt.marked c node) := by
  cases hc : rt.cluster with
  | none =>
    refine .inl ⟨?_, fun _ h => (by cases h)⟩
    simp [run, applyAction, hc]
  | some c =>
    have heq : rt.run (.removed node env) = _ := applyAction_nodeRemoved hc node
    rw [heq]
    split_ifs with hn
    · exact .inl ⟨rfl, fun _ h => Option.some.inj h ▸ hn⟩
    · exact .inr ⟨c, rfl, hn, rfl⟩

theorem tries_marked (hc : rt.cluster = some c) {removed node : Nat} {env : Env}
    {entry : DurableDirectoryEntry} :
    Tries removed env (rt.marked c node) entry ↔ Tries removed env rt entry :=
  tries_congr rfl (by rw [hc]; rfl) rfl

theorem takes_marked (hc : rt.cluster = some c) {removed node : Nat} {env : Env}
    {entry : DurableDirectoryEntry} {act : Activation σ} :
    Takes removed env (rt.marked c node) entry act ↔ Takes removed env rt entry act :=
  takes_congr rfl (by rw [hc]; rfl) rfl

/-- What is live after a step was so before, or the step has made it live. -/
theorem epochOf_run (op : NodeOp σ) (h : (rt.run op).epochOf a = some e) :
    rt.epochOf a = some e ∨ rt.Creates op a e := by
  cases op with
  | spawn b module state =>
    unfold run at h
    rw [epochOf_insertActor] at h
    split_ifs at h with ha
    · exact .inr ⟨ha, (some.inj h).symm⟩
    · exact .inl h
  | superviseChild b =>
    refine .inl ?_
    unfold run superviseChild at h
    dsimp only at h
    split at h
    · exact h
    · split_ifs at h <;> exact h
  | turn b state =>
    refine .inl ?_
    unfold run at h
    dsimp only at h
    split at h
    · exact h
    · next act hb =>
      rw [epochOf_insertActor] at h
      split_ifs at h with ha
      · rw [ha, epochOf, hb]
        exact h
      · exact h
  | checkpoint b ok =>
    exact .inl ((epochOf_checkpoint b ok).symm.trans h)
  | view | gossip => exact .inl h
  | removed node env =>
    obtain ⟨heq, -⟩ | ⟨c, hc, hn, heq⟩ := run_removed rt node env
    · exact .inl (heq ▸ h)
    · rw [heq] at h
      -- The entries of a directory are of distinct actors, so at most one of them concerns `a`.
      by_cases htakes : ∃ entry ∈ c.directoryForNode node, entry.actorId = a ∧
        ∃ act, Takes node env rt entry act
      · obtain ⟨entry, hmem, rfl, act, htakes⟩ := htakes
        rw [epochOf_takeOvers_takes _ (nodup_directoryForNode) entry hmem act
          ((takes_marked hc).mpr htakes)] at h
        exact .inr ⟨c, hc, hn, entry, hmem, act, htakes, rfl, (some.inj h).symm⟩
      · have hnot : ∀ entry ∈ c.directoryForNode node, entry.actorId = a →
            ∀ act, ¬ Takes node env (rt.marked c node) entry act :=
          fun entry hmem ha act hact => htakes ⟨entry, hmem, ha, act, (takes_marked hc).mp hact⟩
        exact .inl (epochOf_takeOvers_not _ (nodup_directoryForNode) hnot h :)
  -- A goodbye stops actors and starts none.
  | down env => exact .inl (epochOf_goodbyes _ h)
  | crash => cases h
  | recover b module =>
    unfold run at h
    dsimp only at h
    split at h
    · exact .inl h
    · next act hr =>
      rw [epochOf_insertActor] at h
      split_ifs at h with ha
      · exact .inr ⟨ha, act, hr, (some.inj h).symm⟩
      · exact .inl h

theorem epochOf_of_creates {op : NodeOp σ} (h : rt.Creates op a e) :
    (rt.run op).epochOf a = some e := by
  cases op with
  | spawn b module state =>
    obtain ⟨rfl, rfl⟩ := h
    unfold run
    rw [epochOf_insertActor, if_pos rfl]
  | recover b module =>
    obtain ⟨rfl, act, hr, rfl⟩ := h
    unfold run
    dsimp only
    rw [hr]
    rw [epochOf_insertActor, if_pos rfl]
  | removed node env =>
    obtain ⟨c, hc, hn, entry, hmem, act, htakes, rfl, rfl⟩ := h
    obtain ⟨-, hmarked⟩ | ⟨c', hc', -, heq⟩ := run_removed rt node env
    · exact absurd (hmarked c hc) hn
    obtain rfl := some.inj (hc.symm.trans hc')
    rw [heq]
    exact epochOf_takeOvers_takes _ (nodup_directoryForNode) entry hmem act
      ((takes_marked hc).mpr htakes)
  | superviseChild | turn | checkpoint | view | gossip | down | crash => exact h.elim

end Node

section Steps

variable {K : Nat → Nat → Prop} {rt : Node σ}

theorem Node.Within.inserted (h : rt.Within K) {a : Nat} {act : Activation σ}
    (ha : K a act.activationEpoch) :
    (rt.insertActor a act).Within K := by
  refine ⟨fun b e hb => ?_, h.directory, h.replicas, h.store, h.sent⟩
  rw [epochOf_insertActor] at hb
  split_ifs at hb with heq
  · rw [heq, ← some.inj hb]
    exact ha
  · exact h.live b e hb

theorem freshNode_within {persistence : Nat → Option (ActorSnapshot σ)}
    (h : ∀ a snapshot, persistence a = some snapshot → K a snapshot.activationEpoch)
    (nodeId : Nat) :
    (freshNode nodeId persistence).Within K := by
  refine ⟨?_, ?_, ?_, h, ?_⟩
  · intro a e he
    cases he
  · intro c hc a home hl
    cases hc
    cases hl
  · intro a act ha
    cases ha
  · intro p hp
    cases hp

/-- Nothing that a step leaves on the node speaks of an activation that there has not been, if the
activations it creates are allowed. -/
theorem Node.Within.run (h : rt.Within K) (op : NodeOp σ)
    (hnew : ∀ a e, rt.Creates op a e → K a e) :
    (rt.run op).Within K := by
  cases op with
  | spawn a module state => exact h.inserted (hnew a 1 ⟨rfl, rfl⟩)
  | superviseChild a =>
    show (rt.superviseChild a).Within K
    unfold superviseChild
    cases ha : rt.actors a with
    | none => exact h
    | some act =>
      dsimp only
      split_ifs
      · have hopted : ({ rt with respawnOpted := rt.respawnOpted.insert a } : Node σ).Within K :=
          ⟨h.live, h.directory, h.replicas, h.store, h.sent⟩
        exact hopted.announced (h.live a _ (by rw [Node.epochOf, ha]; rfl))
      · exact h
  | turn a state =>
    unfold Node.run
    dsimp only
    cases ha : rt.actors a with
    | none => exact h
    | some act => exact h.inserted (h.live a _ (by rw [Node.epochOf, ha]; rfl))
  | checkpoint a ok =>
    exact h.checkpoint a ok
  | view members =>
    refine ⟨h.live, fun c' hc' => ?_, h.replicas, h.store, h.sent⟩
    obtain ⟨c, hc, rfl⟩ := map_eq_some_iff.mp hc'
    exact h.directory c hc
  -- What is sent is taken from the directory, and so is known.
  | gossip target pick =>
    refine ⟨h.live, h.directory, h.replicas, h.store, fun p hp => ?_⟩
    rcases mem_append.mp hp with hp | hp
    · exact h.sent p hp
    · obtain ⟨c, hc, rfl⟩ := List.mem_map.mp hp
      intro entry hmem
      have hl := mem_directoryPayload.mp (mem_of_mem_filter hmem)
      exact h.directory c (mem_toList.mp hc) entry.actorId _ hl
  | removed node env =>
    obtain ⟨heq, -⟩ | ⟨c, hc, hn, heq⟩ := run_removed rt node env
    · rw [heq]
      exact h
    · rw [heq]
      have hmarked : (rt.marked c node).Within K := by
        refine ⟨h.live, fun c' hc' => ?_, h.replicas, h.store, h.sent⟩
        cases hc'
        exact h.directory c hc
      refine hmarked.takeOvers _ (nodup_directoryForNode) fun entry hmem act htakes => ?_
      exact hnew _ _ ⟨c, hc, hn, entry, hmem, act, (takes_marked hc).mp htakes, rfl, rfl⟩
  | down env => exact h.down env
  | crash => exact freshNode_within h.store rt.nodeId
  | recover a module =>
    unfold Node.run
    dsimp only
    cases hr : rt.recovered a module with
    | none => exact h
    | some act => exact h.inserted (hnew a _ ⟨rfl, act, hr, rfl⟩)

theorem ClusterState.Within.packet {w : Loop σ} (h : w.2.Within K) {p : Incoming σ}
    (hp : p.packet.Within K) :
    (processPacket w p).2.Within K := by
  unfold processPacket
  cases hpacket : p.packet with
  | gossip directory =>
    rw [hpacket] at hp
    dsimp only
    split_ifs
    · exact h
    · have hview : ({ w.2 with members := p.members } : ClusterState).Within K := h
      exact hview.mergeDirectory directory hp
  | nodeGoodbye node durable =>
    rw [hpacket] at hp
    have hmerged : (w.2.mergeDirectory (durable.map fun d => ⟨d.1, node, d.2⟩)).Within K := by
      refine h.mergeDirectory _ fun entry hmem => ?_
      obtain ⟨d, hd, rfl⟩ := List.mem_map.mp hmem
      exact hp d hd
    have hmarked := hmerged.markRemoved node
    dsimp only
    split
    · rename_i c hc
      rw [hc] at hmarked
      exact hmarked
    · rename_i c hc
      rw [hc] at hmarked
      exact hmarked
  | heartbeat | spawnRequest | migrateActor | shadowReplicate | actorMessage | other => exact h

theorem Node.Within.received (h : rt.Within K) {packet : Packet σ} (hp : packet.Within K)
    (env : Env) :
    (rt.receivePacket packet env).Within K ∧
    ∀ a, (rt.receivePacket packet env).epochOf a = rt.epochOf a := by
  unfold receivePacket processNetwork
  cases hc : rt.cluster with
  | none => exact ⟨h, fun _ => rfl⟩
  | some c =>
    have hout : ({ rt with cluster := none } : Node σ).Within K := by
      refine ⟨h.live, fun c' hc' => ?_, h.replicas, h.store, h.sent⟩
      cases hc'
    obtain ⟨hin, hnothing⟩ := hout.packet (p := ⟨packet, c.members, env⟩) hp
    rw [← processPacket_fst (w := (({ rt with cluster := none } : Node σ), c)) rfl] at hin
    refine ⟨⟨hin.live, fun c' hc' => ?_, hin.replicas, hin.store, hin.sent⟩, fun a => ?_⟩
    · cases hc'
      exact ClusterState.Within.packet (w := (({ rt with cluster := none } : Node σ), c))
        (h.directory c hc) hp
    · have hepoch :=
        epochOf_onRuntime ⟨packet, c.members, env⟩ ({ rt with cluster := none } : Node σ) a
      rw [hnothing a, ← processPacket_fst (w := (({ rt with cluster := none } : Node σ), c))
        rfl] at hepoch
      exact hepoch

end Steps

/-! ## What every run keeps -/

namespace World

/-- What a world that has been reached is like. -/
structure Inv (w : World σ) : Prop where
  live : ∀ n a e, (w.nodes n).epochOf a = some e → w.hosted a e n
  nodes : ∀ n, (w.nodes n).Within w.Known
  network : ∀ p ∈ w.network, p.2.Within w.Known
  first : ∀ a, ¬ w.Known a 0
  /-- There are no gaps: an activation comes after the one before it. -/
  gapless : ∀ a e, w.Known a (e + 2) → w.Known a (e + 1)

variable {w : World σ} {n a e : Nat} {rt : Node σ}

/-- What a step adds to the record. -/
theorem hosted_act_iff (h : Inv w) {m : Nat} :
    (w.act n rt).hosted a e m ↔ w.hosted a e m ∨ m = n ∧ rt.epochOf a = some e := by
  by_cases hm : m = n
  · subst hm
    exact or_congr_right (by simp [Node.epochOf])
  · have hsame : (w.act n rt).nodes m = w.nodes m := Function.update_of_ne hm ..
    simp only [hm, false_and, or_false]
    exact or_iff_left_of_imp fun hlive => h.live m a e (hsame ▸ hlive)

theorem known_act (h : w.Known a e) : (w.act n rt).Known a e := by
  obtain ⟨m, hm⟩ := h
  exact ⟨m, .inl hm⟩

theorem Inv.known_of_le (h : Inv w) {e' : Nat} (he : w.Known a e) (h1 : 1 ≤ e') (hle : e' ≤ e) :
    w.Known a e' := by
  induction e with
  | zero => exact absurd (Nat.le_trans h1 hle) (by decide)
  | succ e ih =>
    by_cases heq : e' = e + 1
    · rw [heq]
      exact he
    · have hle' : e' ≤ e := Nat.le_of_lt_succ (Nat.lt_of_le_of_ne hle heq)
      obtain ⟨k, rfl⟩ := Nat.exists_eq_add_of_le' (Nat.le_trans h1 hle')
      exact ih (h.gapless a k he) hle'

theorem Inv.start : Inv (World.start : World σ) where
  live _ _ _ h := by cases h
  nodes n := freshNode_within (fun _ _ h => by cases h) n
  network _ h := by cases h
  first _ h := h.elim fun _ h => h
  gapless _ _ h := h.elim fun _ h => h.elim

theorem Inv.act (h : Inv w) (hw : rt.Within (w.act n rt).Known)
    (hnext : ∀ a e, rt.epochOf a = some e → w.Known a e ∨ e = 1 ∨ ∃ k, e = k + 2 ∧
      w.Known a (k + 1)) :
    Inv (w.act n rt) where
  live m a e he := .inr he
  nodes m := by
    by_cases hm : m = n
    · subst hm
      rw [show (w.act m rt).nodes m = { rt with outbox := [] } from update_self ..]
      exact ⟨hw.live, hw.directory, hw.replicas, hw.store, fun p hp => absurd hp (not_mem_nil)⟩
    · rw [show (w.act n rt).nodes m = w.nodes m from Function.update_of_ne hm ..]
      exact (h.nodes m).mono fun a e he => known_act he
  network p hp := by
    rcases mem_append.mp hp with hp | hp
    · exact (h.network p hp).mono fun a e he => known_act he
    · exact hw.sent p hp
  first a := by
    rintro ⟨m, hm⟩
    rcases (hosted_act_iff h).mp hm with hm | ⟨_, he⟩
    · exact h.first a ⟨m, hm⟩
    · rcases hnext a 0 he with hk | h1 | ⟨k, hk, _⟩
      · exact h.first a hk
      · cases h1
      · cases hk
  gapless a e := by
    rintro ⟨m, hm⟩
    refine known_act ?_
    rcases (hosted_act_iff h).mp hm with hm | ⟨_, he⟩
    · exact h.gapless a e ⟨m, hm⟩
    · rcases hnext a (e + 2) he with hk | h1 | ⟨k, hk, hknown⟩
      · exact h.gapless a e hk
      · cases h1
      · cases hk
        exact hknown

theorem recovered_known (h : Inv w) {module : List String} {act : Activation σ}
    (hr : (w.nodes n).recovered a module = some act) : w.Known a act.activationEpoch := by
  obtain ⟨snapshot, hs, hrestore⟩ := bind_eq_some_iff.mp hr
  obtain ⟨_, snapshot', _, hs', heq⟩ := restore_eq_some hrestore
  cases hs'
  rw [heq]
  exact (h.nodes n).store a snapshot hs

/-- The epoch of a directory entry is one that has been hosted, so it is not 0. -/
theorem entry_known (h : Inv w) {c : ClusterState} (hc : (w.nodes n).cluster = some c) {node : Nat}
    {entry : DurableDirectoryEntry} (hmem : entry ∈ c.directoryForNode node) :
    w.Known entry.actorId entry.epoch ∧ ∃ k, entry.epoch = k + 1 := by
  obtain ⟨hl, _⟩ := mem_directoryForNode.mp hmem
  have hknown : w.Known entry.actorId entry.epoch := (h.nodes n).directory c hc _ _ hl
  refine ⟨hknown, ?_⟩
  cases he : entry.epoch with
  | zero => exact absurd (he ▸ hknown) (h.first _)
  | succ k => exact ⟨k, rfl⟩

/-- What a step makes live comes after an activation that is known. -/
theorem creates_next (h : Inv w) {op : NodeOp σ} (hnew : (w.nodes n).Creates op a e) :
    w.Known a e ∨ e = 1 ∨ ∃ k, e = k + 2 ∧ w.Known a (k + 1) := by
  cases op with
  | spawn b module state => exact .inr (.inl hnew.2)
  | recover b module =>
    obtain ⟨rfl, act, hr, rfl⟩ := hnew
    exact .inl (recovered_known h hr)
  | removed node env =>
    obtain ⟨c, hc, _, entry, hmem, _, _, rfl, rfl⟩ := hnew
    obtain ⟨hknown, k, hk⟩ := entry_known h hc hmem
    exact .inr (.inr ⟨k, by rw [hk], hk ▸ hknown⟩)
  | superviseChild | turn | checkpoint | view | gossip | down | crash => exact hnew.elim

theorem Inv.node (h : Inv w) (op : NodeOp σ) : Inv (w.step (.node n op)) := by
  refine h.act ?_ fun a e he => ?_
  · refine ((h.nodes n).mono fun a e he => known_act he).run op fun a e hnew => ⟨n, ?_⟩
    exact (hosted_act_iff h).mpr (.inr ⟨rfl, epochOf_of_creates hnew⟩)
  · rcases epochOf_run op he with hold | hnew
    · exact .inl ⟨n, h.live n a e hold⟩
    · exact creates_next h hnew

/-- A packet that is gone from the network changes nothing. -/
theorem Inv.without (h : Inv w) (i : Nat) :
    Inv ({ w with network := w.network.eraseIdx i } : World σ) :=
  ⟨h.live, h.nodes, fun p hmem => h.network p (mem_of_mem_eraseIdx hmem), h.first, h.gapless⟩

theorem Inv.deliver (h : Inv w) (i : Nat) (env : Env) : Inv (w.step (.deliver i env)) := by
  unfold step
  dsimp only
  cases hp : w.network[i]? with
  | none => exact h
  | some p =>
    obtain ⟨n, packet⟩ := p
    obtain ⟨hwithin, hlive⟩ := (h.nodes n).received (h.network _ (mem_of_getElem? hp)) env
    refine (h.without i).act (hwithin.mono fun a e he => known_act he) fun a e he => .inl ⟨n, ?_⟩
    exact h.live n a e ((hlive a).symm.trans he)

theorem Inv.step (h : Inv w) (op : Op σ) : Inv (w.step op) := by
  cases op with
  | node n op => exact h.node op
  | deliver i env => exact h.deliver i env

theorem Inv.run (ops : List (Op σ)) : Inv (ops.foldl World.step World.start) :=
  foldlRecOn (motive := Inv) ops _ .start fun _ h op _ => h.step op

/-- Epochs are handed out one after the other, in every run and whichever nodes take over. -/
theorem epochs_gapless (ops : List (Op σ)) (he : (ops.foldl step start).Known a e) :
    1 ≤ e ∧ ∀ e', 1 ≤ e' → e' ≤ e → (ops.foldl step start).Known a e' := by
  refine ⟨Nat.one_le_iff_ne_zero.mpr ?_, fun e' h1 hle => (Inv.run ops).known_of_le he h1 hle⟩
  rintro rfl
  exact (Inv.run ops).first a he

def trio : List NodeInfo := [⟨1, .healthy⟩, ⟨2, .healthy⟩, ⟨3, .healthy⟩]

/-- Node 1 replicates actor 7 to node 2 and tells it where the actor is; node 2 confirms node 1 gone
and takes the actor over. Node 1 has only crashed, and recovers what its store has. -/
def relayed : List (Op Int) :=
  [.node 1 (.view trio), .node 1 (.spawn 7 ["hit"] 0), .node 1 (.superviseChild 7),
    .node 1 (.checkpoint 7 true), .deliver 0 working, .node 1 (.gossip 2 fun _ => true),
    .deliver 0 working,
    .node 2 (.view [⟨1, .failed⟩, ⟨2, .healthy⟩, ⟨3, .healthy⟩]), .node 2 (.removed 1 working),
    .node 1 .crash, .node 1 (.recover 7 ["hit"])]

theorem epochs_gapless_relayed :
    1 ≤ 2 ∧ ∀ e', 1 ≤ e' → e' ≤ 2 → (relayed.foldl step start).Known 7 e' :=
  epochs_gapless relayed ⟨2, .inr (by decide +kernel)⟩

end World

end Nulang.Failover

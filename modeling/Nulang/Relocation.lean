import Nulang.Handover

/-!
# Sending to actors that have moved

A runtime that has given an actor away keeps a forwarding entry for it, for a minute or so, and a
send to the actor looks at that entry before it looks whether the actor is here. `migrate` writes an
entry for the node the actor goes to, and a takeover one for this very node. Nothing removes an
entry when the actor comes back.

`send_message`, `send_message_by_id` and `send_distributed` call each other, and the last one takes
the transport out of the runtime while it does: a send that comes back to it in the meantime ends
there without a word. The functions carry fuel, because without distribution the three call each
other for ever.
-/

set_option autoImplicit false

namespace Nulang.Failover

variable {σ : Type}

/-! ## The runtime, as far as sends depend on it -/

structure Runtime (σ : Type) extends Node σ where
  /-- Distribution is enabled. -/
  enabled : Bool
  /-- The transport is in the runtime, and not taken out of it by a send or by the packet loop. -/
  transport : Bool
  remoteRefs : Nat → Option Nat
  /-- The actors the resolver has in its cache, by node. -/
  remoteCache : Nat → Nat → Bool
  spawnPending : Nat → Bool
  spawnTranslations : Nat → Option Nat
  shardCount : Nat
  shardIdx : Nat
  /-- The behaviors of the retained modules, by their runtime ids. -/
  recoveryModules : Nat → Option (List String)
  currentActor : Option Nat

/-- What becomes of a message. -/
inductive Outcome where
  | accepted
  | mailboxFull
  | targetNotFound
  | unknownBehavior
  | queued
  | toNode (node : Nat)
  | toShard (shard : Nat)
  | dropped
  /-- The fuel does not suffice. -/
  | unfinished
deriving DecidableEq

/-- In the mailbox, or reported because there is no room in it. -/
def Outcome.admitted : Outcome → Bool
  | .accepted => true
  | .mailboxFull => true
  | _ => false

namespace Runtime

/-- A name is matched in full, or after a dot. -/
def nameMatches (behavior name : String) : Bool :=
  name = behavior || name.endsWith ("." ++ behavior)

def behaviorIdFor (rt : Runtime σ) (actorId : Nat) (behavior : String) : Option Nat := do
  let act ← rt.actors actorId
  let idx ← (act.module.getD []).findIdx? (nameMatches behavior)
  if idx < 2 ^ 16 then some idx else none

/-- An actor without any named behavior takes every name for its behavior 0. -/
def behaviorIdForDelivery (rt : Runtime σ) (actorId : Nat) (behavior : String) : Option Nat :=
  match rt.behaviorIdFor actorId behavior with
  | some idx => some idx
  | none => do
    let act ← rt.actors actorId
    if (act.module.getD []).any (· ≠ "") then none else some 0

def behaviorWireNameFor (rt : Runtime σ) (actor : Option Nat) (behaviorId : Nat) : Option String :=
  do
  let act ← rt.actors (← actor)
  (act.module.getD [])[behaviorId]?

def recoveryBehaviorWireNameFor (rt : Runtime σ) (actorId behaviorId : Nat) : Option String := do
  (← rt.recoveryModules actorId)[behaviorId]?

/-- The actor lives on another shard, by its id. -/
def otherShard (rt : Runtime σ) (actorId : Nat) : Bool :=
  rt.shardCount > 1 && actorId % rt.shardCount ≠ rt.shardIdx

/-- The node of a reference to an actor that is not here. -/
def remoteRef (rt : Runtime σ) (actorId : Nat) : Option Nat :=
  if (rt.actors actorId).isSome then none else rt.remoteRefs actorId

def deliverLocalMessage (rt : Runtime σ) (actorId : Nat) (msg : Message) : Outcome × Runtime σ :=
  match rt.actors actorId with
  | none => (.targetNotFound, rt)
  | some act => (if act.hasRoom then .accepted
      else .mailboxFull, { rt with toNode := rt.toNode.deliver actorId msg })

/-- What the resolver makes of an address on another node. -/
def resolvesRemote (rt : Runtime σ) (c : ClusterState) (node actorId : Nat) : Bool :=
  rt.remoteCache node actorId || c.members.any fun info =>
    info.nodeId = node ∧ info.status = .healthy

/-- The packet goes out if the node is still a member. -/
def sendPacket (rt : Runtime σ) (c : ClusterState) (node actorId : Nat) : Outcome × Runtime σ :=
  let rt := { rt with remoteRefs := Function.update rt.remoteRefs actorId (some node) }
  (if c.members.any (·.nodeId = node) then .toNode node else .dropped, rt)

def takeTransport (rt : Runtime σ) : Runtime σ := { rt with transport := false, cluster := none }

/-- Put the transport and the cluster back. -/
def putBack (c : ClusterState) (r : Outcome × Runtime σ) : Outcome × Runtime σ :=
  (r.1, { r.2 with transport := true, cluster := some c })

mutual

def sendMessage : Nat → Runtime σ → Nat → String → List Int → Outcome × Runtime σ
  | 0, rt, _, _, _ => (.unfinished, rt)
  | fuel + 1, rt, actorId, behavior, args =>
    match rt.remoteRef actorId with
    | some node => routeRefSend fuel rt actorId node behavior args
    | none =>
      if rt.otherShard actorId then (.toShard (actorId % rt.shardCount), rt)
      else
        match rt.behaviorIdForDelivery actorId behavior with
        | none => (.unknownBehavior, rt)
        | some behaviorId => sendMessageById fuel rt actorId behaviorId args

/-- Send to a reference whose node is known; a placeholder of a spawn that is under way keeps its
messages. -/
def routeRefSend : Nat → Runtime σ → Nat → Nat → String → List Int → Outcome × Runtime σ
  | 0, rt, _, _, _, _ => (.unfinished, rt)
  | fuel + 1, rt, actorId, node, behavior, args =>
    if rt.spawnPending actorId then (.queued, rt)
    else sendDistributed fuel rt node ((rt.spawnTranslations actorId).getD actorId) behavior args

/-- Send by the behavior's id: the forwarding entry comes before the actor. -/
def sendMessageById : Nat → Runtime σ → Nat → Nat → List Int → Outcome × Runtime σ
  | 0, rt, _, _, _ => (.unfinished, rt)
  | fuel + 1, rt, actorId, behaviorId, args =>
    match rt.remoteRef actorId with
    | some node =>
      match rt.behaviorWireNameFor rt.currentActor behaviorId with
      | none => (.dropped, rt)
      | some behavior => routeRefSend fuel rt actorId node behavior args
    | none =>
      match rt.migratedActors actorId with
      | some (node, _) =>
        match rt.recoveryBehaviorWireNameFor actorId behaviorId with
        | none => (.dropped, rt)
        | some behavior => sendDistributed fuel rt node actorId behavior args
      | none =>
        if rt.otherShard actorId then (.toShard (actorId % rt.shardCount), rt)
        else rt.deliverLocalMessage actorId ⟨behaviorId, args⟩

/-- Send to an address on a node. Node 0 stands for the local node, as this node's own id does. -/
def sendDistributed : Nat → Runtime σ → Nat → Nat → String → List Int → Outcome × Runtime σ
  | 0, rt, _, _, _, _ => (.unfinished, rt)
  | fuel + 1, rt, node, actorId, behavior, args =>
    if rt.enabled = false then sendMessage fuel rt actorId behavior args
    else if rt.transport = false then (.dropped, rt)
    else
      match rt.cluster with
      | none => (.dropped, rt)
      | some c =>
        if node = rt.nodeId ∨ node = 0 then
          putBack c (sendMessage fuel rt.takeTransport actorId behavior args)
        else if rt.resolvesRemote c node actorId then rt.sendPacket c node actorId
        else (.dropped, rt)

end

/-- `migrate`, once the packet is sent: the forwarding entry, and the end of the actor here. -/
def migrate (rt : Runtime σ) (actorId node now : Nat) : Runtime σ :=
  { rt with toNode := (rt.toNode.forwardTo actorId node now).reapLivingActor actorId }

def migratedActorTtl : Nat := 60

/-- `sweep_migrated_actors`: entries older than a minute go. -/
def sweepMigratedActors (rt : Runtime σ) (now : Nat) : Runtime σ :=
  { rt with migratedActors := fun a => (rt.migratedActors a).filter fun entry =>
    now - entry.2 < migratedActorTtl }

def processNetwork (rt : Runtime σ) (batch : List (Incoming σ)) (tick : Tick) : Runtime σ :=
  { rt with toNode := Failover.processNetwork rt.toNode batch tick }

/-! ## What a send does -/

section Sends

variable {rt : Runtime σ} {actorId : Nat}

theorem remoteRef_of_live (h : (rt.actors actorId).isSome) : rt.remoteRef actorId = none := if_pos h

/-- No send that meets a forwarding entry ends in the mailbox, whatever the fuel. -/
theorem not_admitted_of_forwarded (fuel : Nat) :
    ∀ {rt : Runtime σ} {actorId : Nat}, (rt.actors actorId).isSome →
      (rt.migratedActors actorId).isSome →
      (∀ behavior args, (sendMessage fuel rt actorId behavior args).1.admitted = false) ∧
      (∀ behaviorId args, (sendMessageById fuel rt actorId behaviorId args).1.admitted = false) ∧
      ∀ node behavior args,
        (sendDistributed fuel rt node actorId behavior args).1.admitted = false := by
  induction fuel with
  | zero =>
    intro rt actorId _ _
    exact ⟨fun _ _ => by rw [sendMessage]; rfl, fun _ _ => by rw [sendMessageById]; rfl,
      fun _ _ _ => by rw [sendDistributed]; rfl⟩
  | succ fuel ih =>
    intro rt actorId hlive hentry
    obtain ⟨hmessage, hbyId, hdistributed⟩ := ih hlive hentry
    refine ⟨fun behavior args => ?_, fun behaviorId args => ?_, fun node behavior args => ?_⟩
    · unfold sendMessage
      rw [remoteRef_of_live hlive]
      dsimp only
      by_cases hshard : rt.otherShard actorId = true
      · rw [if_pos hshard]
        rfl
      · rw [if_neg hshard]
        cases rt.behaviorIdForDelivery actorId behavior with
        | none => rfl
        | some behaviorId => exact hbyId behaviorId args
    · unfold sendMessageById
      rw [remoteRef_of_live hlive]
      dsimp only
      cases hm : rt.migratedActors actorId with
      | none =>
        rw [hm] at hentry
        cases hentry
      | some entry =>
        dsimp only
        cases rt.recoveryBehaviorWireNameFor actorId behaviorId with
        | none => rfl
        | some behavior => exact hdistributed entry.1 behavior args
    · unfold sendDistributed
      by_cases henabled : rt.enabled = false
      · rw [if_pos henabled]
        exact hmessage behavior args
      rw [if_neg henabled]
      by_cases htransport : rt.transport = false
      · rw [if_pos htransport]
        rfl
      rw [if_neg htransport]
      cases rt.cluster with
      | none => rfl
      | some c =>
        dsimp only
        by_cases hlocal : node = rt.nodeId ∨ node = 0
        · rw [if_pos hlocal]
          -- the actor is here, but so is the entry still, and now the transport is gone
          have hlive' : (rt.takeTransport.actors actorId).isSome := hlive
          have hentry' : (rt.takeTransport.migratedActors actorId).isSome := hentry
          exact (ih hlive' hentry').1 behavior args
        rw [if_neg hlocal]
        by_cases hresolves : rt.resolvesRemote c node actorId = true
        · rw [if_pos hresolves]
          unfold sendPacket
          dsimp only
          split_ifs
          · rfl
          · rfl
        · rw [if_neg hresolves]
          rfl

/-- The message is in the actor's mailbox, or there is no room in it and that is reported. -/
def Delivers (act : Activation σ) (actorId : Nat) (msg : Message) (r : Outcome × Runtime σ) :
    Prop :=
  r.1 = .accepted ∧ r.2.actors actorId = some { act with mailbox := act.mailbox ++ [msg] } ∨
    r.1 = .mailboxFull ∧ act.hasRoom = false

variable {act : Activation σ} {behaviorId : Nat} {behavior : String}

theorem Delivers.admitted {msg : Message} {r : Outcome × Runtime σ}
    (h : Delivers act actorId msg r) :
    r.1.admitted = true := by
  rcases h with ⟨h, _⟩ | ⟨h, _⟩
  · rw [h]
    rfl
  · rw [h]
    rfl

theorem delivers_deliverLocalMessage (h : rt.actors actorId = some act) (msg : Message) :
    Delivers act actorId msg (rt.deliverLocalMessage actorId msg) := by
  unfold deliverLocalMessage Node.deliver
  rw [h]
  dsimp only
  by_cases hroom : act.hasRoom = true
  · rw [if_pos hroom, if_pos hroom]
    exact .inl ⟨rfl, Function.update_self ..⟩
  · rw [if_neg hroom]
    exact .inr ⟨rfl, Bool.eq_false_iff.mpr hroom⟩

/-- Both ways to send to an actor with one of its behaviors come to an end and deliver. -/
def Reaches (rt : Runtime σ) (actorId : Nat) (act : Activation σ) (behavior : String)
    (behaviorId : Nat) (args : List Int) : Prop :=
  (∃ n, ∀ fuel, n ≤ fuel →
    Delivers act actorId ⟨behaviorId, args⟩ (sendMessage fuel rt actorId behavior args)) ∧
    ∃ n, ∀ fuel, n ≤ fuel →
    Delivers act actorId ⟨behaviorId, args⟩ (sendMessageById fuel rt actorId behaviorId args)

section

variable (hlive : rt.actors actorId = some act)
include hlive

theorem sendMessageById_here (hentry : rt.migratedActors actorId = none) (fuel : Nat)
    (args : List Int) : sendMessageById (fuel + 1) rt actorId behaviorId args =
      if rt.otherShard actorId then (.toShard (actorId % rt.shardCount), rt)
      else rt.deliverLocalMessage actorId ⟨behaviorId, args⟩ := by
  rw [sendMessageById, remoteRef_of_live (by rw [hlive]; rfl)]
  dsimp only
  rw [hentry]

section

variable (hb : rt.behaviorIdForDelivery actorId behavior = some behaviorId)
include hb

theorem sendMessage_here (fuel : Nat) (args : List Int) :
    sendMessage (fuel + 1) rt actorId behavior args =
      if rt.otherShard actorId then (.toShard (actorId % rt.shardCount), rt)
      else sendMessageById fuel rt actorId behaviorId args := by
  rw [sendMessage, remoteRef_of_live (by rw [hlive]; rfl)]
  dsimp only
  rw [hb]

theorem reaches_of_no_entry (hentry : rt.migratedActors actorId = none)
    (hshard : rt.otherShard actorId = false) (args : List Int) :
    rt.Reaches actorId act behavior behaviorId args := by
  have hhere : ∀ fuel, sendMessageById (fuel + 1) rt actorId behaviorId args =
      rt.deliverLocalMessage actorId ⟨behaviorId, args⟩ := by
    intro fuel
    rw [sendMessageById_here hlive hentry, hshard]
    rfl
  refine ⟨⟨2, fun fuel hfuel => ?_⟩, ⟨1, fun fuel hfuel => ?_⟩⟩
  · obtain ⟨k, rfl⟩ := Nat.exists_eq_add_of_le' hfuel
    rw [show k + 2 = k + 1 + 1 from rfl, sendMessage_here hlive hb, hshard,
      if_neg Bool.false_ne_true, hhere]
    exact delivers_deliverLocalMessage hlive _
  · obtain ⟨k, rfl⟩ := Nat.exists_eq_add_of_le' hfuel
    rw [hhere]
    exact delivers_deliverLocalMessage hlive _

/-- An actor that has come back is out of reach until its entry is a minute old and swept. -/
theorem reaches_after_sweep (hshard : rt.otherShard actorId = false) {node since now : Nat}
    (hentry : rt.migratedActors actorId = some (node, since))
    (hold : since + migratedActorTtl ≤ now) (args : List Int) :
    (rt.sweepMigratedActors now).Reaches actorId act behavior behaviorId args := by
  have hstale : migratedActorTtl ≤ now - since := by omega
  have hgone : (rt.sweepMigratedActors now).migratedActors actorId = none := by
    show (rt.migratedActors actorId).filter (fun entry => now - entry.2 < migratedActorTtl) = none
    rw [hentry]
    simp [hstale]
  have hlive' : (rt.sweepMigratedActors now).actors actorId = some act := hlive
  exact reaches_of_no_entry hlive' hb hgone hshard args

end

end

/-- An actor that lives here is reached by the sends from here exactly if no forwarding entry is
left of it, and it is on the shard its id belongs to. -/
theorem live_reached_iff (rt : Runtime σ) (actorId : Nat) (act : Activation σ) (behavior : String)
    (behaviorId : Nat) (args : List Int) (hlive : rt.actors actorId = some act)
    (hb : rt.behaviorIdForDelivery actorId behavior = some behaviorId) :
    rt.Reaches actorId act behavior behaviorId args ↔
      rt.migratedActors actorId = none ∧ rt.otherShard actorId = false := by
  constructor
  · rintro ⟨_, n, hbyId⟩
    have hn := hbyId (n + 1) (Nat.le_succ n)
    have hentry : rt.migratedActors actorId = none := by
      by_contra hentry
      have hlive' : (rt.actors actorId).isSome := by rw [hlive]; rfl
      have hnot :=
        (not_admitted_of_forwarded (n + 1) hlive' (Option.isSome_iff_ne_none.mpr hentry)).2.1
          behaviorId args
      rw [hn.admitted] at hnot
      cases hnot
    refine ⟨hentry, Bool.eq_false_iff.mpr fun hshard => ?_⟩
    rw [sendMessageById_here hlive hentry, if_pos hshard] at hn
    rcases hn with ⟨hn, _⟩ | ⟨hn, _⟩
    · cases hn
    · cases hn
  · rintro ⟨hentry, hshard⟩
    exact reaches_of_no_entry hlive hb hentry hshard args

/-- A runtime with distribution on and one shard. -/
def ofNode (rt : Node σ) : Runtime σ :=
  { rt with
    enabled := true
    transport := true
    remoteRefs := fun _ => none
    remoteCache := fun _ _ => false
    spawnPending := fun _ => false
    spawnTranslations := fun _ => none
    shardCount := 1
    shardIdx := 0
    recoveryModules := fun a => (rt.actors a).bind (·.module)
    currentActor := none }

def taken : Runtime Int :=
  (ofNode { heir with cluster := some veteranCluster }).processNetwork []
    ⟨veteranCluster.members, [.nodeRemoved 1], working⟩

/-- Actor 7 moves from node 1 to node 2, and ten seconds later back. -/
def returned : Runtime Int :=
  ((ofNode { veteran with cluster := some veteranCluster }).migrate 7 2 0).processNetwork
    [⟨.migrateActor 7 ⟨some ["hit"], some ⟨3, 5⟩⟩, veteranCluster.members, working⟩]
    ⟨veteranCluster.members, [], working⟩

theorem reaches_returned :
    (returned.sweepMigratedActors 60).Reaches 7 ⟨3, true, some ["hit"], 5, [], 0⟩ "hit" 0 [] := by
  have hb : returned.behaviorIdForDelivery 7 "hit" = some 0 := by decide +kernel
  exact reaches_after_sweep rfl hb rfl rfl (Nat.le_refl _) []

/-- It is reached again once its forwarding entry is a minute old, and not before. -/
theorem returned_reached :
    ¬ returned.Reaches 7 ⟨3, true, some ["hit"], 5, [], 0⟩ "hit" 0 [3] ∧
      (returned.sweepMigratedActors 60).Reaches 7 ⟨3, true, some ["hit"], 5, [], 0⟩
      "hit" 0 [3] := by
  constructor
  · rw [live_reached_iff _ 7 _ "hit" 0 [3] rfl (by decide +kernel)]
    rintro ⟨hentry, _⟩
    cases hentry
  · exact (live_reached_iff _ 7 _ "hit" 0 [3] rfl (by decide +kernel)).mpr ⟨rfl, rfl⟩

/-- Both have the actor, and neither reaches it: what is sent is dropped on the one, and sent away
on the other. -/
theorem moved_not_reached :
    (∃ act, taken.actors 7 = some act ∧ ∀ behavior behaviorId args,
      ¬ taken.Reaches 7 act behavior behaviorId args) ∧
      ∃ act, returned.actors 7 = some act ∧
        ∀ behavior behaviorId args, ¬ returned.Reaches 7 act behavior behaviorId args := by
  have hnot : ∀ (rt : Runtime Int) act, rt.actors 7 = some act →
      (rt.migratedActors 7).isSome = true →
      ∀ behavior behaviorId args, ¬ rt.Reaches 7 act behavior behaviorId args := by
    rintro rt act hlive hentry behavior behaviorId args ⟨_, n, hn⟩
    have hlive' : (rt.actors 7).isSome := by rw [hlive]; rfl
    have hnone := (not_admitted_of_forwarded n hlive' hentry).2.1 behaviorId args
    rw [(hn n (Nat.le_refl n)).admitted] at hnone
    cases hnone
  exact ⟨⟨⟨2, true, some ["hit"], 5, [], 0⟩, rfl, hnot taken _ rfl rfl⟩,
    ⟨⟨3, true, some ["hit"], 5, [], 0⟩, rfl, hnot returned _ rfl rfl⟩⟩

end Sends

end Runtime

end Nulang.Failover

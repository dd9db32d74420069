import Nulang.Failover

/-!
# Takeovers and goodbyes, one actor at a time

A confirmed removal takes over the actors of a whole node, and a goodbye stops all the opted actors
of one: both are loops over lists of actors. What such a loop does to one actor can be read off the
entry of that actor alone, because handling another one leaves everything that matters to it as it
was: its activation, its replica, whether it is opted in, and what the node's own tables say about
it (`Apart`). So an actor is taken over by a loop exactly if it would be by itself
(`takes_of_apart`), and the lists need no order.
-/

set_option autoImplicit false

namespace Nulang.Failover

open ClusterState Node List Option Function

variable {σ : Type}

namespace ClusterState

/-- What the tables say that matters to one actor: the members, the removed nodes, and the actor's
own entry. -/
def about (c : ClusterState) (a : Nat) : List NodeInfo × List Nat × Option Home :=
  (c.members, c.removedNodes, c.directory.lookup a)

theorem claim_removedNodes (c : ClusterState) (entry : DurableDirectoryEntry) :
    (c.claim entry).removedNodes = c.removedNodes := by
  by_cases hn : c.Newer entry
  · rw [claim_of_newer hn]
  · rw [claim_of_not_newer hn]

theorem about_claim {c : ClusterState} {entry : DurableDirectoryEntry} {a : Nat}
    (ha : a ≠ entry.actorId) :
    (c.claim entry).about a = c.about a := by
  unfold about
  obtain hl | ⟨heq, _⟩ := lookup_claim c entry a
  · rw [claim_members, claim_removedNodes, hl]
  · exact absurd heq ha

end ClusterState

namespace Node

variable {rt rt' : Node σ} {removed id a e : Nat} {env : Env}

/-- The same, for the tables the node has, if it has them. -/
def about (rt : Node σ) (a : Nat) : Option (List NodeInfo × List Nat × Option Home) :=
  rt.cluster.map (·.about a)

/-- What the takeover of one actor leaves alone: whatever matters to the others. -/
structure Apart (id : Nat) (rt rt' : Node σ) : Prop where
  nodeId : rt'.nodeId = rt.nodeId
  about : ∀ a, a ≠ id → rt'.about a = rt.about a
  actors : ∀ a, a ≠ id → rt'.actors a = rt.actors a
  replicas : ∀ a, a ≠ id → rt'.shadowReplicas a = rt.shadowReplicas a
  opted : ∀ a, a ≠ id → (a ∈ rt'.respawnOpted ↔ a ∈ rt.respawnOpted)
  store : ∀ a, a ≠ id → rt'.persistence a = rt.persistence a

theorem Apart.refl (id : Nat) (rt : Node σ) : Apart id rt rt :=
  ⟨rfl, fun _ _ => rfl, fun _ _ => rfl, fun _ _ => rfl, fun _ _ => Iff.rfl, fun _ _ => rfl⟩

theorem Apart.trans {rt'' : Node σ} (h : Apart id rt rt') (h' : Apart id rt' rt'') :
    Apart id rt rt'' where
  nodeId := h'.nodeId.trans h.nodeId
  about a ha := (h'.about a ha).trans (h.about a ha)
  actors a ha := (h'.actors a ha).trans (h.actors a ha)
  replicas a ha := (h'.replicas a ha).trans (h.replicas a ha)
  opted a ha := (h'.opted a ha).trans (h.opted a ha)
  store a ha := (h'.store a ha).trans (h.store a ha)

/-! ## The steps of a takeover -/

theorem apart_announce (rt : Node σ) (entry : DurableDirectoryEntry) :
    Apart entry.actorId rt (rt.announce entry) := by
  refine ⟨rfl, fun a ha => ?_, fun _ _ => rfl, fun _ _ => rfl, fun _ _ => Iff.rfl, fun _ _ => rfl⟩
  unfold Node.about announce
  cases rt.cluster with
  | none => rfl
  | some c => exact congrArg some (about_claim ha)

theorem apart_checkpoint {ok : Bool} (h : rt.tryCheckpointActor id ok = some rt') :
    Apart id rt rt' := by
  have hkept := kept_tryCheckpointActor h
  refine ⟨hkept.nodeId, fun a ha => ?_, fun a _ => congrFun hkept.actors a, fun a _ =>
    congrFun hkept.replicas a,
    fun a _ => by rw [hkept.opted], fun a ha => ?_⟩
  · obtain rfl | ⟨act, _, rfl | ⟨c, shadow, module, hc, _, _, rfl⟩⟩ := tryCheckpointActor_cases h
    · rfl
    · rfl
    · unfold Node.about
      rw [hc]
      exact congrArg some (about_claim ha)
  · obtain rfl | ⟨act, _, rfl | ⟨c, shadow, module, _, _, _, rfl⟩⟩ := tryCheckpointActor_cases h
    · rfl
    · exact Function.update_of_ne ha ..
    · exact Function.update_of_ne ha ..

theorem apart_dropReplica (rt : Node σ) (id : Nat) : Apart id rt (rt.dropReplica id) :=
  ⟨rfl, fun _ _ => rfl, fun _ _ => rfl, fun _ ha => Function.update_of_ne ha .., fun _ _ => Iff.rfl,
    fun _ _ => rfl⟩

theorem apart_reap (rt : Node σ) (id : Nat) : Apart id rt (rt.reapLivingActor id) :=
  ⟨rfl, fun _ _ => rfl, fun _ ha => Function.update_of_ne ha .., fun _ _ => rfl, fun _ _ => Iff.rfl,
    fun _ _ => rfl⟩

theorem apart_optOut (rt : Node σ) (id : Nat) : Apart id rt (rt.optOut id) := by
  refine ⟨rfl, fun _ _ => rfl, fun _ _ => rfl, fun _ _ => rfl, fun a ha => ?_, fun _ _ => rfl⟩
  unfold optOut
  simp [ha]

theorem apart_adopted (rt : Node σ) (entry : DurableDirectoryEntry) (act : Activation σ) :
    Apart entry.actorId rt (rt.adopted entry act) := by
  refine ⟨rfl, fun _ _ => rfl, fun a ha => ?_, fun a ha => Function.update_of_ne ha ..,
    fun a ha => ?_,
    fun a ha => Function.update_of_ne ha ..⟩
  · rw [adopted_actors, Function.update_of_ne ha]
  · exact mem_insert_iff.trans (or_iff_right ha)

theorem apart_takeOver (entry : DurableDirectoryEntry) :
    Apart entry.actorId rt (takeOver removed env rt entry) := by
  obtain ⟨heq | ⟨heq, _⟩, _⟩ | ⟨act, heq, _, _⟩ | ⟨act, rt', _, hcheck, heq⟩ := takeOver_cases
  · rw [heq]
    exact .refl _ rt
  · rw [heq]
    exact apart_dropReplica rt _
  · rw [heq]
    exact ((apart_adopted rt entry act).trans (apart_optOut _ _)).trans (apart_reap _ _)
  · rw [heq]
    have hannounced := (apart_adopted rt entry act).trans ((apart_checkpoint hcheck).trans
      (apart_announce rt' ⟨entry.actorId, rt'.nodeId, entry.epoch + 1⟩))
    exact ⟨hannounced.nodeId, hannounced.about, hannounced.actors, hannounced.replicas,
      hannounced.opted,
      hannounced.store⟩

variable {entry : DurableDirectoryEntry} {act : Activation σ}

theorem takes_iff : Takes removed env rt entry act ↔
    Tries removed env rt entry ∧ rt.replicaOf entry.actorId = some act ∧
      env.checkpoints entry.actorId = true := by
  constructor
  · exact fun h => ⟨h.tries, h.replica, h.checkpoints⟩
  · rintro ⟨h, hr, hok⟩
    exact ⟨h.shadow, h.next, hr, h.ready.2, hok⟩

/-- Whether an actor is taken over is read off the members and its replica. -/
theorem tries_congr (hid : rt'.nodeId = rt.nodeId)
    (hmembers : rt'.cluster.map (·.members) = rt.cluster.map (·.members))
    (hreplica : rt'.shadowReplicas entry.actorId = rt.shadowReplicas entry.actorId) :
    Tries removed env rt' entry ↔ Tries removed env rt entry := by
  have hof : ∀ c : Option ClusterState, c.bind (·.shadowFor removed) = (c.map (·.members)).bind
      fun members => (⟨members, ∅, []⟩ : ClusterState).shadowFor removed := by
    intro c
    cases c with
    | none => rfl
    | some c => rfl
  have hshadow :
      rt'.cluster.bind (·.shadowFor removed) = rt.cluster.bind (·.shadowFor removed) := by
    rw [hof, hof, hmembers]
  have hready : Ready env rt' entry.actorId ↔ Ready env rt entry.actorId := by
    unfold Ready replicaOf
    rw [hreplica]
  constructor
  · rintro ⟨h1, h2, h3⟩
    exact ⟨by rw [← hshadow, ← hid]; exact h1, h2, hready.mp h3⟩
  · rintro ⟨h1, h2, h3⟩
    exact ⟨by rw [hshadow, hid]; exact h1, h2, hready.mpr h3⟩

theorem takes_congr (hid : rt'.nodeId = rt.nodeId)
    (hmembers : rt'.cluster.map (·.members) = rt.cluster.map (·.members))
    (hreplica : rt'.shadowReplicas entry.actorId = rt.shadowReplicas entry.actorId) :
    Takes removed env rt' entry act ↔ Takes removed env rt entry act := by
  rw [takes_iff, takes_iff, tries_congr hid hmembers hreplica, replicaOf, replicaOf, hreplica]

theorem Apart.members (h : Apart id rt rt') (ha : a ≠ id) :
    rt'.cluster.map (·.members) = rt.cluster.map (·.members) := by
  have habout := congrArg (Option.map Prod.fst) (h.about a ha)
  unfold Node.about at habout
  rw [Option.map_map, Option.map_map] at habout
  exact habout

/-- Whether an actor is taken over does not depend on the takeovers of others. -/
theorem tries_of_apart (h : Apart id rt rt') (hne : entry.actorId ≠ id) :
    Tries removed env rt' entry ↔ Tries removed env rt entry :=
  tries_congr h.nodeId (h.members hne) (h.replicas entry.actorId hne)

theorem takes_of_apart (h : Apart id rt rt') (hne : entry.actorId ≠ id) :
    Takes removed env rt' entry act ↔ Takes removed env rt entry act :=
  takes_congr h.nodeId (h.members hne) (h.replicas entry.actorId hne)

theorem epochOf_takeOver_takes (h : Takes removed env rt entry act) :
    (takeOver removed env rt entry).epochOf entry.actorId = some (entry.epoch + 1) := by
  obtain ⟨_, hnot⟩ | ⟨act', _, _, hfails, _⟩ | ⟨act', rt', _, hcheck, heq⟩ := takeOver_cases
  · exact absurd h.tries hnot
  · rw [h.checkpoints] at hfails
    cases hfails
  · rw [heq]
    have hactors :
        rt'.actors entry.actorId = some { act' with activationEpoch := entry.epoch + 1 } := by
      rw [(kept_tryCheckpointActor hcheck).actors, adopted_actors, update_self]
    exact congrArg (Option.map (·.activationEpoch)) hactors

theorem epochOf_takeOver_not (h : ∀ act, ¬ Takes removed env rt entry act) {x : Nat}
    (hx : (takeOver removed env rt entry).epochOf entry.actorId = some x) :
    rt.epochOf entry.actorId = some x := by
  obtain ⟨heq | ⟨heq, _⟩, _⟩ | ⟨act, heq, _, _⟩ | ⟨act, rt', htakes, _, _⟩ := takeOver_cases
  · rw [heq] at hx
    exact hx
  · rw [heq] at hx
    exact hx
  · rw [heq, epochOf_reapLivingActor, if_pos rfl] at hx
    cases hx
  · exact absurd htakes (h act)

theorem epochOf_of_apart {id a : Nat} (h : Apart id rt rt') (hne : a ≠ id) :
    rt'.epochOf a = rt.epochOf a := by
  unfold epochOf
  rw [h.actors a hne]

theorem takes_rest {first : DurableDirectoryEntry} {entries : List DurableDirectoryEntry}
    (h : first.actorId ∉ entries.map (·.actorId)) (hmem : entry ∈ entries) :
    Takes removed env (takeOver removed env rt first) entry act ↔ Takes removed env rt entry act :=
  takes_of_apart (apart_takeOver first) fun heq => h (List.mem_map.mpr ⟨entry, hmem, heq⟩)

variable (entries : List DurableDirectoryEntry)

theorem epochOf_takeOvers_other {a : Nat} : ∀ {rt : Node σ}, a ∉ entries.map (·.actorId) →
      (entries.foldl (takeOver removed env) rt).epochOf a = rt.epochOf a := by
  induction entries with
  | nil => exact fun _ => rfl
  | cons first entries ih =>
    intro rt hnot
    rw [map_cons, mem_cons, not_or] at hnot
    exact (ih hnot.2).trans (epochOf_of_apart (apart_takeOver first) hnot.1)

/-- An actor that is taken over is live in the epoch after the entry's, whatever else is taken over
with it. -/
theorem epochOf_takeOvers_takes :
    ∀ {rt : Node σ}, (entries.map (·.actorId)).Nodup → ∀ entry ∈ entries, ∀ act,
      Takes removed env rt entry act →
      (entries.foldl (takeOver removed env) rt).epochOf entry.actorId = some (entry.epoch + 1) := by
  induction entries with
  | nil => exact fun _ _ hmem => absurd hmem (not_mem_nil)
  | cons first entries ih =>
    intro rt hnodup entry hmem act htakes
    obtain ⟨hfirst, hrest⟩ := nodup_cons.mp hnodup
    rcases mem_cons.mp hmem with rfl | hmem
    · exact (epochOf_takeOvers_other entries hfirst).trans (epochOf_takeOver_takes htakes)
    · exact ih hrest entry hmem act ((takes_rest hfirst hmem).mpr htakes)

/-- An actor that is live after the takeovers was so before, or has been taken over. -/
theorem epochOf_takeOvers_not {a x : Nat} : ∀ {rt : Node σ}, (entries.map (·.actorId)).Nodup →
      (∀ entry ∈ entries, entry.actorId = a → ∀ act, ¬ Takes removed env rt entry act) →
      (entries.foldl (takeOver removed env) rt).epochOf a = some x → rt.epochOf a = some x := by
  induction entries with
  | nil => exact fun _ _ hx => hx
  | cons first entries ih =>
    intro rt hnodup hnot hx
    obtain ⟨hfirst, hrest⟩ := nodup_cons.mp hnodup
    have hx' : (takeOver removed env rt first).epochOf a = some x := by
      refine ih hrest (fun entry hmem ha act htakes => ?_) hx
      exact hnot entry (mem_cons_of_mem _ hmem) ha act ((takes_rest hfirst hmem).mp htakes)
    by_cases ha : a = first.actorId
    · subst ha
      exact epochOf_takeOver_not (hnot first (mem_cons_self ..) rfl) hx'
    · rw [← epochOf_of_apart (apart_takeOver first) ha]
      exact hx'

/-- The node that has marked another one removed. -/
def marked (rt : Node σ) (c : ClusterState) (node : Nat) : Node σ :=
  { rt with cluster := some { c with removedNodes := node :: c.removedNodes } }

/-- A confirmed removal does nothing, or marks the node and takes its actors over. -/
theorem applyAction_nodeRemoved {c : ClusterState} (hc : rt.cluster = some c) (node : Nat) :
    applyAction env rt (.nodeRemoved node) = if node ∈ c.removedNodes then rt
      else (c.directoryForNode node).foldl (takeOver node env) (rt.marked c node) := by
  unfold applyAction
  rw [hc]
  dsimp only
  unfold markRemoved
  split_ifs
  · rfl
  · rfl

/-! ## Goodbyes -/

theorem epochOf_checkpoint (b : Nat) (ok : Bool) :
    ((rt.tryCheckpointActor b ok).getD rt).epochOf a = rt.epochOf a := by
  cases hc : rt.tryCheckpointActor b ok with
  | none => rfl
  | some rt' =>
    exact congrArg (Option.map (·.activationEpoch)) (congrFun (kept_tryCheckpointActor hc).actors a)

/-- Checkpoint an actor, if the store takes it, and stop it. -/
def stop (env : Env) (rt : Node σ) (s : Nat × Nat) : Node σ :=
  ((rt.tryCheckpointActor s.1 (env.checkpoints s.1)).getD rt).reapLivingActor s.1

theorem apart_stop (s : Nat × Nat) : Apart s.1 rt (stop env rt s) := by
  unfold stop
  cases hc : rt.tryCheckpointActor s.1 (env.checkpoints s.1) with
  | none => exact apart_reap rt s.1
  | some rt' => exact (apart_checkpoint hc).trans (apart_reap rt' s.1)

theorem epochOf_stop (s : Nat × Nat) :
    (stop env rt s).epochOf a = if a = s.1 then none else rt.epochOf a := by
  rw [stop, epochOf_reapLivingActor, epochOf_checkpoint]

/-- A goodbye makes nothing live. -/
theorem epochOf_goodbyes (opted : List (Nat × Nat)) :
    ∀ {rt : Node σ}, (opted.foldl (stop env) rt).epochOf a = some e → rt.epochOf a = some e := by
  induction opted with
  | nil => exact fun h => h
  | cons s opted ih =>
    intro rt h
    have hnext := ih h
    rw [epochOf_stop] at hnext
    split_ifs at hnext
    exact hnext

/-- A goodbye stops every actor it lists. -/
theorem epochOf_goodbyes_of_mem {opted : List (Nat × Nat)} (ha : a ∈ opted.map Prod.fst)
    (rt : Node σ) :
    (opted.foldl (stop env) rt).epochOf a = none := by
  obtain ⟨s, hs, rfl⟩ := List.mem_map.mp ha
  obtain ⟨before, after, rfl⟩ := append_of_mem hs
  rw [foldl_append, foldl_cons]
  refine eq_none_iff_forall_not_mem.mpr fun x hx => ?_
  have hstopped := epochOf_goodbyes after (mem_def.mp hx)
  rw [epochOf_stop, if_pos rfl] at hstopped
  cases hstopped

/-- The list of a goodbye has the opted actors that are live and persistent. -/
theorem mem_goodbyeSelf : a ∈ (rt.goodbyeSelf env).1.map Prod.fst ↔
    a ∈ rt.respawnOpted ∧ ∃ act, rt.actors a = some act ∧ act.persistent = true := by
  unfold goodbyeSelf
  simp only [List.mem_map, mem_filterMap, List.mem_mergeSort]
  constructor
  · rintro ⟨s, ⟨b, hb, hs⟩, rfl⟩
    obtain ⟨act, hact, hs⟩ := bind_eq_some_iff.mp hs
    split_ifs at hs with hp
    cases hs
    exact ⟨hb, act, hact, hp⟩
  · rintro ⟨ha, act, hact, hp⟩
    refine ⟨(a, act.activationEpoch), ⟨a, ha, bind_eq_some_iff.mpr ⟨act, hact, ?_⟩⟩, rfl⟩
    rw [if_pos hp]

end Node

end Nulang.Failover

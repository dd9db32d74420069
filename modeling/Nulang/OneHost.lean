import Nulang.Activations

/-!
# One node for each activation

There is no election: each survivor decides alone, from its own view of the members and its own
directory, that it takes a lost node's actor over, and it gives the actor the epoch after the one
its directory has. Two survivors whose views differ, with replicas left from two earlier views,
give it the same one (`both_shadows_take_over`).

What rules that out is a condition on the nodes' stores, which survive a crash and so remember what
a node has hosted after it has forgotten it itself. A takeover writes the new activation to the
taker's store before anybody hears of it. So if a node takes over only by an entry that no other
node's store is ahead of, the epoch it hands out is new. Two more things can go wrong and are part
of the condition: actor ids are minted by counters that start at 1 on every node, and a takeover
whose checkpoint fails leaves the replica of somebody else's activation in the store, to be
recovered from later (`Safe`).

The proof follows one actor on one node, by what is live and what is stored (`Moves`): the store
never goes back behind a takeover, so it is at least at every later activation the node has hosted
(`Own`).
-/

set_option autoImplicit false

namespace Nulang.Failover

open ClusterState Node List Option Function

variable {σ : Type}

namespace Node

variable {rt rt' rt'' : Node σ} {a removed : Nat} {env : Env}

/-- The epoch of the actor's snapshot in the node's store. -/
def storedEpoch (rt : Node σ) (a : Nat) : Option Nat := (rt.persistence a).map (·.activationEpoch)

/-- What a step does to one actor on one node, read off what is live and what is stored. -/
inductive Moves (rt rt' : Node σ) (a : Nat) : Prop
  /-- Nothing becomes live, and at most what is live is stored. -/
  | kept (live : ∀ e, rt'.epochOf a = some e → rt.epochOf a = some e)
      (stored : rt'.storedEpoch a = rt.storedEpoch a ∨
        ∃ e, rt.epochOf a = some e ∧ rt'.storedEpoch a = some e)
  /-- The actor is spawned. -/
  | began (live : rt'.epochOf a = some 1) (stored : rt'.storedEpoch a = rt.storedEpoch a)
      (early : ∀ s, rt.storedEpoch a = some s → s ≤ 1)
  /-- The actor is recovered from the store. -/
  | resumed (live : rt'.epochOf a = rt.storedEpoch a)
      (stored : rt'.storedEpoch a = rt.storedEpoch a)
  /-- The actor is taken over, and stored in its new activation. -/
  | taken (k : Nat) (live : rt'.epochOf a = some (k + 1))
      (stored : rt'.storedEpoch a = some (k + 1))
      (forward : ∀ s, rt.storedEpoch a = some s → s ≤ k + 1)

theorem Moves.same (hlive : rt'.epochOf a = rt.epochOf a)
    (hstored : rt'.storedEpoch a = rt.storedEpoch a) :
    Moves rt rt' a :=
  .kept (fun _ he => hlive.symm.trans he) (.inl hstored)

/-- What a step does to an actor is read off what is live and stored, and off nothing else. -/
theorem Moves.congr (h : Moves rt rt' a) (hlive : rt''.epochOf a = rt'.epochOf a)
    (hstored : rt''.storedEpoch a = rt'.storedEpoch a) : Moves rt rt'' a := by
  cases h with
  | kept live stored => exact .kept (hlive ▸ live) (hstored ▸ stored)
  | began live stored early => exact .began (hlive.trans live) (hstored.trans stored) early
  | resumed live stored => exact .resumed (hlive.trans live) (hstored.trans stored)
  | taken k live stored forward => exact .taken k (hlive.trans live) (hstored.trans stored) forward

theorem Moves.congr_left (h : Moves rt' rt'' a) (hlive : rt'.epochOf a = rt.epochOf a)
    (hstored : rt'.storedEpoch a = rt.storedEpoch a) : Moves rt rt'' a := by
  cases h with
  | kept live stored => exact .kept (hlive ▸ live) (hlive ▸ hstored ▸ stored)
  | began live stored early => exact .began live (stored.trans hstored) (hstored ▸ early)
  | resumed live stored => exact .resumed (live.trans hstored) (stored.trans hstored)
  | taken k live stored forward => exact .taken k live stored (hstored ▸ forward)

theorem storedEpoch_of_apart {id : Nat} (h : Apart id rt rt') (hne : a ≠ id) :
    rt'.storedEpoch a = rt.storedEpoch a := by
  unfold storedEpoch
  rw [h.store a hne]

/-! ## Checkpoints and goodbyes -/

theorem storedEpoch_saveSnapshot (rt : Node σ) (a : Nat) (snapshot : ActorSnapshot σ) :
    (rt.saveSnapshot a snapshot).storedEpoch a = some snapshot.activationEpoch := by
  simp [storedEpoch, saveSnapshot]

/-- A checkpoint that goes through stores what is live. -/
theorem storedEpoch_tryCheckpointActor {ok : Bool} (h : rt.tryCheckpointActor a ok = some rt') :
    rt'.storedEpoch a = rt.storedEpoch a ∨
      ∃ e, rt.epochOf a = some e ∧ rt'.storedEpoch a = some e := by
  obtain rfl | ⟨act, ha, rfl | ⟨c, shadow, module, _, _, _, rfl⟩⟩ := tryCheckpointActor_cases h
  · exact .inl rfl
  · exact .inr ⟨act.activationEpoch, by rw [epochOf, ha]; rfl, storedEpoch_saveSnapshot ..⟩
  · exact .inr ⟨act.activationEpoch, by rw [epochOf, ha]; rfl, storedEpoch_saveSnapshot ..⟩

theorem moves_checkpoint (b : Nat) (ok : Bool) :
    Moves rt ((rt.tryCheckpointActor b ok).getD rt) a := by
  refine .kept (fun e he => (epochOf_checkpoint b ok).symm.trans he) ?_
  cases hc : rt.tryCheckpointActor b ok with
  | none => exact .inl rfl
  | some rt' =>
    by_cases ha : a = b
    · subst ha
      exact storedEpoch_tryCheckpointActor hc
    · exact .inl (storedEpoch_of_apart (apart_checkpoint hc) ha)

/-- A goodbye stores actors and stops them. The list may name an actor twice: what is stored is what
was live before, because nothing becomes live on the way. -/
theorem moves_goodbyes (opted : List (Nat × Nat)) :
    (∀ e, (opted.foldl (stop env) rt).epochOf a = some e → rt.epochOf a = some e) ∧
      ((opted.foldl (stop env) rt).storedEpoch a = rt.storedEpoch a ∨
        ∃ e, rt.epochOf a = some e ∧ (opted.foldl (stop env) rt).storedEpoch a = some e) := by
  induction opted generalizing rt with
  | nil => exact ⟨fun _ he => he, .inl rfl⟩
  | cons s opted ih =>
    obtain ⟨hlive, hstored⟩ := @ih (stop env rt s)
    have hstop : ∀ e, (stop env rt s).epochOf a = some e → rt.epochOf a = some e := by
      intro e he
      rw [epochOf_stop] at he
      split_ifs at he
      exact he
    refine ⟨fun e he => hstop e (hlive e he), ?_⟩
    rw [foldl_cons]
    obtain heq | ⟨e, he, heq⟩ := hstored
    · rw [heq]
      cases hc : rt.tryCheckpointActor s.1 (env.checkpoints s.1) with
      | none =>
        refine .inl ?_
        unfold stop
        rw [hc]
        rfl
      | some rt' =>
        have hafter : (stop env rt s).storedEpoch a = rt'.storedEpoch a := by
          unfold stop
          rw [hc]
          rfl
        rw [hafter]
        by_cases ha : a = s.1
        · subst ha
          exact storedEpoch_tryCheckpointActor hc
        · exact .inl (storedEpoch_of_apart (apart_checkpoint hc) ha)
    · exact .inr ⟨e, hstop e he, heq⟩

/-! ## Takeovers -/

variable {entry : DurableDirectoryEntry}

/-- The store takes the actor, and is not ahead of the activation it is taken over in. -/
def Clear (env : Env) (rt : Node σ) (entry : DurableDirectoryEntry) : Prop :=
  env.checkpoints entry.actorId = true ∧
    ∀ s, rt.storedEpoch entry.actorId = some s → s ≤ entry.epoch + 1

theorem storedEpoch_adopted {act : Activation σ}
    (hp : act.persistent = true)
    (h : (rt.adopted entry act).tryCheckpointActor entry.actorId true = some rt') :
    rt'.storedEpoch entry.actorId = some (entry.epoch + 1) := by
  have hlive : (rt.adopted entry act).actors entry.actorId =
      some { act with activationEpoch := entry.epoch + 1 } := by
    rw [adopted_actors, update_self]
  unfold tryCheckpointActor at h
  rw [hlive] at h
  dsimp only at h
  rw [if_neg (by simp [hp]), if_neg (by simp)] at h
  cases h
  obtain heq | ⟨_, c, shadow, module, _, _, _, _, heq⟩ := maybeShadowReplicate_cases
  · rw [heq, storedEpoch_saveSnapshot]
    rfl
  · rw [heq]
    exact storedEpoch_saveSnapshot ..

theorem moves_takeOver (h : Tries removed env rt entry → Clear env rt entry) :
    Moves rt (takeOver removed env rt entry) entry.actorId := by
  obtain ⟨heq | ⟨heq, _⟩, _⟩ | ⟨act, _, _, hfails, htries⟩ | ⟨act, rt', htakes, hcheck, heq⟩ :=
    @takeOver_cases σ rt removed env entry
  · rw [heq]
    exact .same rfl rfl
  · rw [heq]
    exact .same rfl rfl
  · rw [(h htries).1] at hfails
    cases hfails
  · refine .taken entry.epoch (epochOf_takeOver_takes htakes) ?_ (h htakes.tries).2
    obtain ⟨replica, _, hrestore⟩ := bind_eq_some_iff.mp htakes.replica
    obtain ⟨_, _, _, _, hact⟩ := restore_eq_some hrestore
    have hp : act.persistent = true := by rw [hact]
    have hstored : rt'.storedEpoch entry.actorId = some (entry.epoch + 1) :=
      storedEpoch_adopted hp hcheck
    rw [heq]
    exact hstored

theorem takeOvers_other (entries : List DurableDirectoryEntry) :
    ∀ {rt : Node σ}, a ∉ entries.map (·.actorId) →
      (entries.foldl (takeOver removed env) rt).storedEpoch a = rt.storedEpoch a := by
  induction entries with
  | nil => exact fun _ => rfl
  | cons first entries ih =>
    intro rt hnot
    rw [map_cons, mem_cons, not_or] at hnot
    exact (ih hnot.2).trans (storedEpoch_of_apart (apart_takeOver first) hnot.1)

/-- A directory has one entry for an actor, so an actor is taken over once, from the state it is in
before all of the takeovers. -/
theorem moves_takeOvers (entries : List DurableDirectoryEntry) :
    ∀ {rt : Node σ}, (entries.map (·.actorId)).Nodup →
      (∀ entry ∈ entries, Tries removed env rt entry → Clear env rt entry) →
      Moves rt (entries.foldl (takeOver removed env) rt) a := by
  induction entries with
  | nil => exact fun _ _ => .same rfl rfl
  | cons first entries ih =>
    intro rt hnodup hclear
    obtain ⟨hfirst, hrest⟩ := nodup_cons.mp hnodup
    have happart : Apart first.actorId rt (takeOver removed env rt first) := apart_takeOver first
    by_cases ha : a = first.actorId
    · subst ha
      exact (moves_takeOver (hclear first (mem_cons_self ..))).congr
        (epochOf_takeOvers_other entries hfirst) (takeOvers_other entries hfirst)
    · refine (ih hrest fun entry hmem htries => ?_).congr_left (epochOf_of_apart happart ha)
        (storedEpoch_of_apart happart ha)
      have hne : entry.actorId ≠ first.actorId :=
        fun heq => hfirst (List.mem_map.mpr ⟨entry, hmem, heq⟩)
      obtain ⟨hok, hstored⟩ :=
        hclear entry (mem_cons_of_mem _ hmem) ((tries_of_apart happart hne).mp htries)
      exact ⟨hok, storedEpoch_of_apart happart hne ▸ hstored⟩

end Node

/-! ## The steps of a node -/

/-- The steps of a node that keep its store ahead: it spawns no actor it has stored in a later
activation, and its takeovers are clear. -/
def Node.Forward (rt : Node σ) : NodeOp σ → Prop
  | .spawn a _ _ => ∀ s, rt.storedEpoch a = some s → s ≤ 1
  | .removed node env => ∀ c, rt.cluster = some c → node ∉ c.removedNodes →
      ∀ entry ∈ c.directoryForNode node, Tries node env rt entry → Clear env rt entry
  | _ => True

namespace Node

variable {rt : Node σ} {a : Nat}

theorem moves_insertActor (b : Nat) (act : Activation σ)
    (h : a = b → Moves rt (rt.insertActor b act) a) :
    Moves rt (rt.insertActor b act) a := by
  by_cases ha : a = b
  · exact h ha
  · refine .same ?_ rfl
    rw [epochOf_insertActor, if_neg ha]

/-- Every operation of a node moves each actor in one of the four ways. -/
theorem moves_run (op : NodeOp σ) (h : rt.Forward op) : Moves rt (rt.run op) a := by
  cases op with
  | spawn b module state =>
    refine moves_insertActor b _ fun ha => .began ?_ rfl (ha ▸ h)
    rw [epochOf_insertActor, if_pos ha]
  | superviseChild b =>
    unfold run superviseChild
    dsimp only
    split
    · exact .same rfl rfl
    · split_ifs
      · exact .same rfl rfl
      · exact .same rfl rfl
  | turn b state =>
    unfold run
    dsimp only
    split
    · exact .same rfl rfl
    · next act hb =>
      refine moves_insertActor b _ fun ha => .same ?_ rfl
      rw [epochOf_insertActor, if_pos ha, ha, epochOf, hb]
      rfl
  | checkpoint b ok => exact moves_checkpoint b ok
  | view | gossip => exact .same rfl rfl
  | removed node env =>
    obtain ⟨heq, -⟩ | ⟨c, hc, hn, heq⟩ := run_removed rt node env
    · rw [heq]
      exact .same rfl rfl
    · rw [heq]
      have hmarked :
          Moves (rt.marked c node)
          ((c.directoryForNode node).foldl (takeOver node env) (rt.marked c node)) a := by
        refine moves_takeOvers _ nodup_directoryForNode fun entry hmem htries => ?_
        exact h c hc hn entry hmem ((tries_marked hc).mp htries)
      exact hmarked.congr_left rfl rfl
  | down env =>
    obtain ⟨hlive, hstored⟩ := @moves_goodbyes σ rt a env (rt.goodbyeSelf env).1
    exact .kept hlive hstored
  | crash => exact .kept (fun _ he => (by cases he)) (.inl rfl)
  | recover b module =>
    unfold run
    dsimp only
    split
    · exact .same rfl rfl
    · next act hr =>
      refine moves_insertActor b _ fun ha => .resumed ?_ rfl
      -- A recovered actor has the epoch of the snapshot it is restored from.
      obtain ⟨snapshot, hs, hrestore⟩ := bind_eq_some_iff.mp hr
      obtain ⟨_, snapshot', _, hs', hact⟩ := restore_eq_some hrestore
      cases hs'
      rw [epochOf_insertActor, if_pos ha, storedEpoch, ha, hs, hact]
      rfl

theorem storedEpoch_onRuntime {p : Incoming σ} {K : Nat → Nat → Prop} (hp : p.packet.Within K) :
    (p.onRuntime rt).storedEpoch a = rt.storedEpoch a := by
  unfold Incoming.onRuntime
  cases hpacket : p.packet with
  | spawnRequest | migrateActor =>
    rw [hpacket] at hp
    exact hp.elim
  | shadowReplicate id image epoch =>
    dsimp only [storeShadowReplica]
    split_ifs
    · rfl
    · rfl
  | actorMessage target msg =>
    dsimp only
    rw [deliver_eq]
    rfl
  | heartbeat | gossip | nodeGoodbye | other => rfl

/-- A packet of the protocol leaves the stores alone. -/
theorem storedEpoch_receivePacket {packet : Packet σ} {K : Nat → Nat → Prop} (hp : packet.Within K)
    (env : Env) :
    (rt.receivePacket packet env).storedEpoch a = rt.storedEpoch a := by
  unfold receivePacket processNetwork
  cases hc : rt.cluster with
  | none => rfl
  | some c =>
    have hstored :
        ((⟨packet, c.members, env⟩ : Incoming σ).onRuntime
          { rt with cluster := none }).storedEpoch a =
        rt.storedEpoch a := storedEpoch_onRuntime hp
    rw [← processPacket_fst (w := (({ rt with cluster := none } : Node σ), c)) rfl] at hstored
    exact hstored

end Node

/-- A node's store against the activations `K` it has ever hosted: it holds one of them, behind the
one that is live, and is at least at every one that came from a takeover. -/
structure Node.Own (K : Nat → Nat → Prop) (rt : Node σ) : Prop where
  store : ∀ a s, rt.storedEpoch a = some s → K a s
  behind : ∀ a s e, rt.storedEpoch a = some s → rt.epochOf a = some e → s ≤ e
  ahead : ∀ a e, K a (e + 2) → ∃ s, rt.storedEpoch a = some s ∧ e + 2 ≤ s

/-- The store of a node keeps up with what the node hosts, whichever way the actors move. -/
theorem Node.Own.moves {K : Nat → Nat → Prop} {rt rt' : Node σ} (h : rt.Own K)
    (hlive : ∀ a e, rt.epochOf a = some e → K a e) (hm : ∀ a, Moves rt rt' a) :
    rt'.Own fun a e => K a e ∨ rt'.epochOf a = some e := by
  refine ⟨fun a s hs => ?_, fun a s e hs he => ?_, fun a e hK => ?_⟩
  · cases hm a with
    | kept live stored =>
      obtain heq | ⟨e, he, heq⟩ := stored
      · exact .inl (h.store a s (heq ▸ hs))
      · obtain rfl := some.inj (heq.symm.trans hs)
        exact .inl (hlive a e he)
    | began live stored early => exact .inl (h.store a s (stored ▸ hs))
    | resumed live stored => exact .inl (h.store a s (stored ▸ hs))
    | taken k live stored forward => exact .inr (live.trans (stored.symm.trans hs))
  · cases hm a with
    | kept live stored =>
      obtain heq | ⟨x, hx, heq⟩ := stored
      · exact h.behind a s e (heq ▸ hs) (live e he)
      · obtain rfl := some.inj (heq.symm.trans hs)
        exact Nat.le_of_eq (some.inj (hx.symm.trans (live e he)))
    | began live stored early =>
      obtain rfl := some.inj (live.symm.trans he)
      exact early s (stored ▸ hs)
    | resumed live stored =>
      exact Nat.le_of_eq (some.inj ((stored ▸ hs).symm.trans (live ▸ he)))
    | taken k live stored forward =>
      exact Nat.le_of_eq (some.inj (hs.symm.trans (stored.trans (live.symm.trans he))))
  · -- What was hosted before is at most what was stored before, and the store has not gone back.
    have hbefore : K a (e + 2) → ∃ s, rt'.storedEpoch a = some s ∧ e + 2 ≤ s := by
      intro hK
      obtain ⟨s, hs, hle⟩ := h.ahead a e hK
      cases hm a with
      | kept live stored =>
        obtain heq | ⟨x, hx, heq⟩ := stored
        · exact ⟨s, heq.trans hs, hle⟩
        · exact ⟨x, heq, Nat.le_trans hle (h.behind a s x hs hx)⟩
      | began live stored early => exact ⟨s, stored.trans hs, hle⟩
      | resumed live stored => exact ⟨s, stored.trans hs, hle⟩
      | taken k live stored forward => exact ⟨k + 1, stored, Nat.le_trans hle (forward s hs)⟩
    rcases hK with hK | he
    · exact hbefore hK
    · cases hm a with
      | kept live stored => exact hbefore (hlive a _ (live _ he))
      | began live stored early => exact absurd (some.inj (live.symm.trans he)) (by omega)
      | resumed live stored => exact ⟨e + 2, stored.trans (live.symm.trans he), Nat.le_refl _⟩
      | taken k live stored forward =>
        exact ⟨k + 1, stored, Nat.le_of_eq (some.inj (he.symm.trans live))⟩

namespace World

/-! ## Safe runs -/

/-- A step is safe if it spawns an actor only on the node that mints its id, and not over a later
activation in that node's store; and if it takes an actor over only where the store takes it, by an
entry that no other node's store is ahead of. -/
def Safe (mint : Nat → Nat) (w : World σ) : Op σ → Prop
  | .node n (.spawn a _ _) => mint a = n ∧ ∀ s, (w.nodes n).storedEpoch a = some s → s ≤ 1
  | .node n (.removed node env) => ∀ c, (w.nodes n).cluster = some c → node ∉ c.removedNodes →
      ∀ entry ∈ c.directoryForNode node, Tries node env (w.nodes n) entry →
        Clear env (w.nodes n) entry ∧
          ∀ m, m ≠ n → ∀ s, (w.nodes m).storedEpoch entry.actorId = some s → s ≤ entry.epoch
  | _ => True

/-- Each step of the run is safe in the state it is made in. -/
def SafeRun (mint : Nat → Nat) : World σ → List (Op σ) → Prop
  | _, [] => True
  | w, op :: ops => w.Safe mint op ∧ SafeRun mint (w.step op) ops

/-- What a safe run keeps. -/
structure Sound (mint : Nat → Nat) (w : World σ) : Prop where
  inv : Inv w
  own : ∀ n, (w.nodes n).Own fun a e => w.hosted a e n
  minted : ∀ a n, w.hosted a 1 n → n = mint a
  unique : w.Unique

variable {mint : Nat → Nat} {w : World σ} {n : Nat} {rt : Node σ}

theorem Sound.start : Sound mint (World.start : World σ) where
  inv := .start
  own n := by
    refine ⟨fun a s hs => ?_, fun a s e hs => ?_, fun a e h => h.elim⟩
    · cases hs
    · cases hs
  minted _ _ h := h.elim
  unique _ _ _ _ h := h.elim

/-- One node acts. What it makes live besides what was live before has to be its own. -/
theorem Sound.act (h : Sound mint w) (hinv : Inv (w.act n rt)) (hm : ∀ a, Moves (w.nodes n) rt a)
    (hnew : ∀ a e, rt.epochOf a = some e →
      w.hosted a e n ∨ (∀ m, ¬ w.hosted a e m) ∧ (e = 1 → n = mint a)) :
    Sound mint (w.act n rt) := by
  refine ⟨hinv, fun m => ?_, fun a m hm' => ?_, fun a e m m' h1 h2 => ?_⟩
  · by_cases hmn : m = n
    · subst hmn
      rw [show (w.act m rt).nodes m = { rt with outbox := [] } from update_self ..]
      have hown := (h.own m).moves (fun a e he => h.inv.live m a e he) hm
      refine ⟨fun a s hs => ?_, hown.behind, fun a e hK => ?_⟩
      · exact (hosted_act_iff h.inv).mpr ((hown.store a s hs).imp_right fun he => ⟨rfl, he⟩)
      · exact hown.ahead a e (((hosted_act_iff h.inv).mp hK).imp_right And.right)
    · rw [show (w.act n rt).nodes m = w.nodes m from Function.update_of_ne hmn ..]
      refine ⟨fun a s hs => .inl ((h.own m).store a s hs), (h.own m).behind, fun a e hK => ?_⟩
      refine (h.own m).ahead a e (((hosted_act_iff h.inv).mp hK).resolve_right fun hno => hmn hno.1)
  · rcases (hosted_act_iff h.inv).mp hm' with hold | ⟨rfl, he⟩
    · exact h.minted a m hold
    · exact (hnew a 1 he).elim (h.minted a m) fun hfresh => hfresh.2 rfl
  · have hmine : ∀ {x}, rt.epochOf a = some e → w.hosted a e x → x = n := fun he hx =>
      (hnew a e he).elim (h.unique a e _ n hx) fun hno => absurd hx (hno.1 _)
    rcases (hosted_act_iff h.inv).mp h1 with hold | ⟨heq, he⟩
    · rcases (hosted_act_iff h.inv).mp h2 with hold' | ⟨heq', he'⟩
      · exact h.unique a e m m' hold hold'
      · exact (hmine he' hold).trans heq'.symm
    · rcases (hosted_act_iff h.inv).mp h2 with hold' | ⟨heq', _⟩
      · exact heq.trans (hmine he hold').symm
      · exact heq.trans heq'.symm

/-- What a safe step makes live is the node's own already, or nobody has ever hosted it. -/
theorem Sound.creates (h : Sound mint w) {op : NodeOp σ} (hsafe : w.Safe mint (.node n op))
    {a e : Nat} (hnew : (w.nodes n).Creates op a e) :
    w.hosted a e n ∨ (∀ m, ¬ w.hosted a e m) ∧ (e = 1 → n = mint a) := by
  cases op with
  | spawn b module state =>
    obtain ⟨rfl, rfl⟩ := hnew
    by_cases hn : w.hosted a 1 n
    · exact .inl hn
    · refine .inr ⟨fun m hm => hn ?_, fun _ => hsafe.1.symm⟩
      rwa [← hsafe.1, ← h.minted a m hm]
  | recover b module =>
    obtain ⟨rfl, act, hr, rfl⟩ := hnew
    refine .inl ?_
    obtain ⟨snapshot, hs, hrestore⟩ := bind_eq_some_iff.mp hr
    obtain ⟨_, snapshot', _, hs', hact⟩ := restore_eq_some hrestore
    cases hs'
    rw [hact]
    exact (h.own n).store a _ (by rw [storedEpoch, hs]; rfl)
  | removed node env =>
    obtain ⟨c, hc, hn, entry, hmem, act, htakes, rfl, rfl⟩ := hnew
    obtain ⟨_, hothers⟩ := hsafe c hc hn entry hmem htakes.tries
    obtain ⟨_, k, hk⟩ := entry_known h.inv hc hmem
    by_cases hmine : w.hosted entry.actorId (entry.epoch + 1) n
    · exact .inl hmine
    · refine .inr ⟨fun m hm => ?_, fun h1 => absurd h1 (by omega)⟩
      -- Another node that has hosted the next activation still has it, or a later one, stored.
      have hmn : m ≠ n := fun heq => hmine (heq ▸ hm)
      rw [hk] at hm
      obtain ⟨s, hs, hle⟩ := (h.own m).ahead _ k hm
      have := hothers m hmn s hs
      omega
  | superviseChild | turn | checkpoint | view | gossip | down | crash => exact hnew.elim

theorem Safe.forward {op : NodeOp σ} (h : w.Safe mint (.node n op)) : (w.nodes n).Forward op := by
  cases op with
  | spawn b module state => exact h.2
  | removed node env => exact fun c hc hn entry hmem htries => (h c hc hn entry hmem htries).1
  | superviseChild | turn | checkpoint | view | gossip | down | crash | recover => trivial

theorem Sound.node (h : Sound mint w) {op : NodeOp σ} (hsafe : w.Safe mint (.node n op)) :
    Sound mint (w.step (.node n op)) := by
  refine h.act (h.inv.node op) (fun a => moves_run op hsafe.forward) fun a e he => ?_
  rcases epochOf_run op he with hold | hnew
  · exact .inl (h.inv.live n a e hold)
  · exact h.creates hsafe hnew

theorem Sound.deliver (h : Sound mint w) (i : Nat) (env : Env) :
    Sound mint (w.step (.deliver i env)) := by
  have hinv := h.inv.deliver i env
  unfold World.step at hinv ⊢
  dsimp only at hinv ⊢
  cases hp : w.network[i]? with
  | none => exact h
  | some p =>
    obtain ⟨n, packet⟩ := p
    rw [hp] at hinv
    have hpacket := h.inv.network _ (mem_of_getElem? hp)
    obtain ⟨_, hlive⟩ := (h.inv.nodes n).received hpacket env
    have hgone : Sound mint ({ w with network := w.network.eraseIdx i } : World σ) :=
      ⟨h.inv.without i, h.own, h.minted, h.unique⟩
    refine hgone.act hinv (fun a => .same (hlive a) (storedEpoch_receivePacket hpacket env))
      fun a e he => .inl ?_
    exact h.inv.live n a e ((hlive a).symm.trans he)

theorem Sound.step (h : Sound mint w) {op : Op σ} (hsafe : w.Safe mint op) :
    Sound mint (w.step op) := by
  cases op with
  | node n op => exact h.node hsafe
  | deliver i env => exact h.deliver i env

theorem Sound.run (ops : List (Op σ)) :
    ∀ {w : World σ}, Sound mint w → SafeRun mint w ops → Sound mint (ops.foldl World.step w) := by
  induction ops with
  | nil => exact fun h _ => h
  | cons op ops ih => exact fun h hsafe => ih (h.step hsafe.1) hsafe.2

/-- In every state of a run whose steps are all safe, no activation of an actor has ever been hosted
by two nodes. A run that has got so far is itself a run, so the last state stands for all of
them. -/
theorem activations_unique (ops : List (Op σ)) (h : SafeRun mint start ops) :
    (ops.foldl step start).Unique :=
  (Sound.start.run ops h).unique

/-- The nodes that the steps of a run are made on. -/
def actors : World σ → List (Op σ) → List Nat
  | _, [] => []
  | w, .node n op :: ops => n :: actors (w.step (.node n op)) ops
  | w, .deliver i env :: ops =>
    (w.network[i]?.map Prod.fst).toList ++ actors (w.step (.deliver i env)) ops

theorem nodes_foldl_of_not_mem {m : Nat} (ops : List (Op σ)) :
    ∀ {w : World σ}, m ∉ actors w ops → (ops.foldl step w).nodes m = w.nodes m := by
  induction ops with
  | nil => exact fun _ => rfl
  | cons op ops ih =>
    intro w hnot
    cases op with
    | node n op =>
      rw [actors, mem_cons, not_or] at hnot
      exact (ih hnot.2).trans (Function.update_of_ne hnot.1 ..)
    | deliver i env =>
      rw [actors, mem_append, not_or] at hnot
      refine (ih hnot.2).trans ?_
      unfold step
      dsimp only
      cases hp : w.network[i]? with
      | none => rfl
      | some p =>
        rw [hp] at hnot
        exact Function.update_of_ne (fun heq => hnot.1 (mem_singleton.mpr heq)) ..

/-- The takeover of `relayed` goes by the entry for the first activation. Only nodes 1 and 2 have
acted before it, and node 1 has stored no later one. -/
theorem relayed_safe :
    ((relayed.take 8).foldl step start).Safe (fun _ => 1) (.node 2 (.removed 1 working)) := by
  intro c hc _ entry hmem _
  have hdirectory :
      (((relayed.take 8).foldl step start).nodes 2).cluster.map (·.directoryForNode 1) =
      some [⟨7, 1, 1⟩] := by decide +kernel
  rw [hc, map_some] at hdirectory
  rw [some.inj hdirectory, mem_singleton] at hmem
  subst hmem
  refine ⟨⟨rfl, fun s hs => ?_⟩, fun m hm s hs => ?_⟩
  · have hnone : (((relayed.take 8).foldl step start).nodes 2).storedEpoch 7 = none := by
      decide +kernel
    rw [hnone] at hs
    cases hs
  · by_cases h1 : m = 1
    · subst h1
      have hone : (((relayed.take 8).foldl step start).nodes 1).storedEpoch 7 = some 1 := by
        decide +kernel
      exact Nat.le_of_eq (some.inj (hs.symm.trans hone))
    · have hactors : actors start (relayed.take 8) = [1, 1, 1, 1, 2, 1, 2, 2] := by decide +kernel
      have hfresh : ((relayed.take 8).foldl step start).nodes m = (start : World Int).nodes m :=
        nodes_foldl_of_not_mem _ (by rw [hactors]; simp [h1, hm])
      rw [hfresh] at hs
      cases hs

/-- Node 2 takes the actor over by an entry that no store is ahead of, and node 1, which comes back
with the first activation in its store, resumes that one. -/
theorem activations_unique_relayed :
    (relayed.foldl step start).Unique ∧ (relayed.foldl step start).hosted 7 1 1 ∧
      (relayed.foldl step start).hosted 7 2 2 := by
  have hsafe : SafeRun (fun _ => 1) start relayed :=
    ⟨trivial, ⟨rfl, fun s hs => (by cases hs)⟩, trivial, trivial, trivial, trivial, trivial, trivial,
      relayed_safe, trivial, trivial, trivial⟩
  exact ⟨activations_unique relayed hsafe, .inr (by decide +kernel), .inr (by decide +kernel)⟩

/-- Node 1 replicates actor 7 to node 2, loses sight of node 2 and replicates it to node 3; both
learn where the actor is. Then each of them sees nobody else and confirms node 1 gone. -/
def twoShadows : List (Op Int) :=
  [.node 1 (.view trio), .node 1 (.spawn 7 ["hit"] 0), .node 1 (.superviseChild 7),
    .node 1 (.checkpoint 7 true), .deliver 0 working,
    .node 1 (.view [⟨1, .healthy⟩, ⟨2, .suspicious⟩, ⟨3, .healthy⟩]),
    .node 1 (.checkpoint 7 true), .deliver 0 working,
    .node 1 (.gossip 2 fun _ => true), .node 1 (.gossip 3 fun _ => true), .deliver 0 working,
    .deliver 0 working,
    .node 2 (.view [⟨1, .failed⟩, ⟨2, .healthy⟩, ⟨3, .failed⟩]),
    .node 3 (.view [⟨1, .failed⟩, ⟨2, .failed⟩, ⟨3, .healthy⟩]),
    .node 2 (.removed 1 working), .node 3 (.removed 1 working)]

/-- Both nodes then host the second activation. -/
theorem both_shadows_take_over : ¬ (twoShadows.foldl step (start : World Int)).Unique := by
  intro hu
  have hsecond : (twoShadows.foldl step (start : World Int)).hosted 7 2 2 :=
    .inr (by decide +kernel)
  have hthird : (twoShadows.foldl step (start : World Int)).hosted 7 2 3 := .inr (by decide +kernel)
  exact absurd (hu 7 2 2 3 hsecond hthird) (by decide)

end World

end Nulang.Failover

import Mathlib.Data.List.Induction
import Nulang.Failover

/-!
# The replica a shadow holds

A home sends a replica of every checkpoint, marked with the epoch of the activation but not with the
sequence number of the snapshot inside. `store_shadow_replica` compares epochs, so within an epoch
the last packet to arrive wins, and the takeover does not compare the replica with the directory
entry at all. What a shadow holds and starts from is the newest checkpoint exactly if the newest one
arrived last of its epoch, and the entry is no newer (`takeover_newest_iff`).
-/

set_option autoImplicit false

namespace Nulang.Failover

open Function List

variable {σ : Type}

/-- A checkpoint as the home sends it; its snapshot has the epoch of the activation, and they start
at 1. -/
structure Checkpoint (σ : Type) where
  module : List String
  epoch : Nat
  state : σ
  started : epoch ≠ 0

def Checkpoint.image (c : Checkpoint σ) : Image σ := ⟨some c.module, some ⟨c.epoch, c.state⟩⟩

/-- The newest of some checkpoints, by epoch and then by the sequence number of the snapshot. -/
def Newest (sequence : σ → Nat) (cps : List (Checkpoint σ)) (c : Checkpoint σ) : Prop :=
  c ∈ cps ∧ ∀ d ∈ cps, d.epoch < c.epoch ∨ d.epoch = c.epoch ∧ sequence d.state ≤ sequence c.state

namespace Node

/-- The node after these packets of one actor, in the order in which they arrive. -/
def replicated (rt : Node σ) (id : Nat) (cps : List (Checkpoint σ)) : Node σ :=
  cps.foldl (fun rt c => rt.storeShadowReplica id c.image c.epoch) rt

/-- The node is to take the actor of an entry over, and its store takes the snapshots. -/
structure TakesUp (removed : Nat) (env : Env) (rt : Node σ) (entry : DurableDirectoryEntry) :
    Prop where
  shadow : rt.cluster.bind (·.shadowFor removed) = some rt.nodeId
  next : entry.epoch + 1 < 2 ^ 64
  saves : env.saves entry.actorId = true
  checkpoints : env.checkpoints entry.actorId = true

variable {rt : Node σ} {id : Nat} {cps : List (Checkpoint σ)}

theorem replicated_frame (rt : Node σ) :
    ∃ replicas, rt.replicated id cps = { rt with shadowReplicas := replicas } := by
  induction cps generalizing rt with
  | nil => exact ⟨rt.shadowReplicas, rfl⟩
  | cons c cps ih =>
    obtain ⟨replicas, h⟩ := ih (rt.storeShadowReplica id c.image c.epoch)
    refine ⟨replicas, h.trans ?_⟩
    unfold storeShadowReplica
    dsimp only
    split_ifs <;> rfl

/-- What is held is of the highest epoch that has arrived, and of that epoch the last. -/
theorem held_of_replicated (hnone : rt.shadowReplicas id = none) (hne : cps ≠ []) :
    ∃ pre c post, cps = pre ++ c :: post ∧ (∀ d ∈ cps, d.epoch ≤ c.epoch) ∧
      (∀ d ∈ post, d.epoch < c.epoch) ∧
      (rt.replicated id cps).shadowReplicas id = some ⟨c.image, c.epoch⟩ := by
  induction cps using reverseRecOn with
  | nil => exact absurd rfl hne
  | append_singleton cps d ih =>
    have hlast : rt.replicated id (cps ++ [d]) = (rt.replicated id cps).storeShadowReplica id
        d.image d.epoch :=
      foldl_append
    rw [hlast]
    unfold storeShadowReplica
    by_cases hcps : cps = []
    · subst hcps
      have hstart : rt.replicated id [] = rt := rfl
      exact ⟨[], d, [], rfl, by simp, by simp, by simp [hstart, hnone]⟩
    · obtain ⟨pre, c, post, hsplit, hle, hpost, hheld⟩ := ih hcps
      by_cases hd : c.epoch ≤ d.epoch
      · refine ⟨cps, d, [], rfl,
          forall_mem_append.mpr ⟨fun x hx => Nat.le_trans (hle x hx) hd, by simp⟩, by simp, ?_⟩
        simp [hheld, hd]
      · have hlt := Nat.lt_of_not_le hd
        refine ⟨pre, c, post ++ [d], by simp [hsplit], forall_mem_append.mpr ⟨hle, ?_⟩,
          forall_mem_append.mpr ⟨hpost, ?_⟩, ?_⟩
        · simpa using Nat.le_of_lt hlt
        · simpa using hlt
        · simp [hheld, hd]

theorem eq_of_split {pre post pre' post' : List (Checkpoint σ)} {c c' : Checkpoint σ}
    (h : pre ++ c :: post = pre' ++ c' :: post') (hpost : ∀ d ∈ post, d.epoch < c.epoch)
    (hpost' : ∀ d ∈ post', d.epoch < c'.epoch) (he : c.epoch = c'.epoch) : c = c' := by
  obtain ⟨as, -, h⟩ | ⟨as, -, h⟩ := append_eq_append_iff.mp h
  · cases as with
    | nil => exact (cons.inj h).1
    | cons a as =>
      obtain ⟨rfl, rfl⟩ := cons.inj h
      exact absurd (hpost c' (by simp)) (by omega)
  · cases as with
    | nil => exact (cons.inj h).1.symm
    | cons a as =>
      obtain ⟨rfl, rfl⟩ := cons.inj h
      exact absurd (hpost' c (by simp)) (by omega)

theorem takeover_newest_iff (sequence : σ → Nat) (rt : Node σ) (first : Checkpoint σ)
    (rest : List (Checkpoint σ)) (removed : Nat) (env : Env) (entry : DurableDirectoryEntry) :
    ((∃ c, Newest sequence
      (first :: rest) c ∧ ((rt.dropReplica entry.actorId).replicated entry.actorId
          (first :: rest)).shadowReplicas entry.actorId = some ⟨c.image, c.epoch⟩) ∧
      ∀ act, Takes removed env ((rt.dropReplica entry.actorId).replicated entry.actorId
        (first :: rest)) entry act →
        entry.epoch ≤ act.activationEpoch) ↔
    (∃ pre c post, first :: rest = pre ++ c :: post ∧ Newest sequence (first :: rest) c ∧
        ∀ d ∈ post, d.epoch < c.epoch) ∧
      (TakesUp removed env rt entry → ∃ c ∈ first :: rest, entry.epoch ≤ c.epoch) := by
  have hnone : (rt.dropReplica entry.actorId).shadowReplicas entry.actorId = none := update_self ..
  generalize hcps' : first :: rest = cps
  have hne : cps ≠ [] := by simp [← hcps']
  -- The shadow holds the last checkpoint of the highest epoch, whatever the sequences are.
  obtain ⟨pre, c, post, hcps, hle, hpost, hheld⟩ := held_of_replicated hnone hne
  obtain ⟨replicas, hframe⟩ := replicated_frame (rt.dropReplica entry.actorId)
  have hmem : c ∈ cps := by simp [hcps]
  have hact : ∀ act,
      Takes removed env ((rt.dropReplica entry.actorId).replicated entry.actorId cps) entry act ↔
      TakesUp removed env rt entry ∧ act = ⟨c.epoch, true, some c.module, c.state, [], 0⟩ := by
    have hrestore : c.image.restore = some ⟨c.epoch, true, some c.module, c.state, [], 0⟩ :=
      if_neg c.started
    refine fun act => ⟨fun h => ⟨⟨?_, h.next, h.saves, h.checkpoints⟩, ?_⟩, ?_⟩
    · have := h.shadow
      rwa [hframe] at this
    · have := h.replica
      rw [hheld, Option.bind_some, hrestore] at this
      exact (Option.some.inj this).symm
    · rintro ⟨h, rfl⟩
      refine ⟨?_, h.next, ?_, h.saves, h.checkpoints⟩
      · rw [hframe]
        exact h.shadow
      · rw [hheld, Option.bind_some, hrestore]
  have hnewest : ∀ d, Newest sequence cps d → d.epoch = c.epoch := by
    intro d hd
    have := hle d hd.1
    have := hd.2 c hmem
    omega
  constructor
  · rintro ⟨⟨d, hd, hheld'⟩, htakes⟩
    refine ⟨⟨pre, c, post, hcps, ?_, hpost⟩, fun h => ⟨c, hmem, htakes _ ((hact _).mpr ⟨h, rfl⟩)⟩⟩
    have heq := hheld.symm.trans hheld'
    simp only [Option.some.injEq, ShadowReplica.mk.injEq, Checkpoint.image, Image.mk.injEq,
      ActorSnapshot.mk.injEq] at heq
    rw [show c = d from by cases c; cases d; simp_all]
    exact hd
  · rintro ⟨⟨pre', d, post', hsplit, hd, hpost'⟩, htakes⟩
    -- Two checkpoints of the highest epoch with nothing as high after them are the same one.
    obtain rfl := eq_of_split (hcps.symm.trans hsplit) hpost hpost' (hnewest d hd).symm
    refine ⟨⟨c, hd, hheld⟩, fun act h => ?_⟩
    obtain ⟨hup, rfl⟩ := (hact act).mp h
    obtain ⟨x, hx, hle⟩ := htakes hup
    have := hd.2 x hx
    change entry.epoch ≤ c.epoch
    omega

/-- Two checkpoints of one epoch, with the sequence numbers 2 and 1 in the order of their
arrival. -/
def swapped : List (Checkpoint Nat) :=
  [⟨["counter"], 1, 2, Nat.one_ne_zero⟩, ⟨["counter"], 1, 1, Nat.one_ne_zero⟩]

theorem older_checkpoint_held : ∃ rt : Node Nat, rt.shadowReplicas 7 = none ∧
    ¬ ∃ c, Newest (fun n => n) swapped c ∧
      (rt.replicated 7 swapped).shadowReplicas 7 = some ⟨c.image, c.epoch⟩ := by
  refine ⟨⟨1, fun _ => none, [], fun _ => none, fun _ => none, fun _ => none, none, []⟩, rfl, ?_⟩
  rintro ⟨c, ⟨hc, hnewest⟩, hheld⟩
  have hold : (1 : Nat) = c.state := by
    have := Option.some.inj hheld
    exact congrArg (fun r => (r.image.snapshot.map ActorSnapshot.state).getD 0) this
  have := hnewest _ mem_cons_self
  simp only [swapped, mem_cons, not_mem_nil, or_false] at hc
  rcases hc with rfl | rfl
  · exact absurd hold (by decide)
  · exact absurd this (by decide)

end Node

end Nulang.Failover

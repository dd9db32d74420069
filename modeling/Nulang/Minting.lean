import Mathlib.Algebra.Group.Nat.Defs
import Mathlib.Data.List.Induction
import Mathlib.Data.List.Nodup

/-!
# Ids that nodes mint

A node mints ids of replicated objects (`CrdtId::new`) and tags of set elements (`ORSet::fresh_tag`)
without asking the others: its own id is a part of each. An object's id has the node's id above a
counter of the process, shifted so far that its upper half is lost; a tag has the lower halves of
the node's id and of the set's counter. So ids of two nodes are apart exactly if the lower halves of
the nodes' ids are.

A set's counter does not only count its own additions: a merge takes over the counter of the other
state if that is larger. Where an addition stands on that scale is said here without running the
code: every step takes the counter to some value, and each addition after it takes it one further,
so the counter is the `height` of the steps so far, counted from the last time it passed `2 ^ 64`.
Tags repeat exactly if two additions stand `2 ^ 32` apart, or a multiple of that.
-/

set_option autoImplicit false

namespace Nulang.Minting

open List

/-- `CrdtId::new`, at a value of the counter. -/
def crdtId (nodeId counter : UInt64) : UInt64 := (nodeId <<< 32) ||| (counter &&& 0xFFFFFFFF)

/-- What the first `n` calls of a process return: its counter starts at 1. -/
def crdtIds (nodeId : UInt64) (n : Nat) : List UInt64 :=
  (range n).map fun i => crdtId nodeId (.ofNat (i + 1))

structure Tag where
  nodeId : UInt32
  counter : UInt32
deriving DecidableEq

/-- The fields of an `ORSet` that tags are made from. -/
structure Replica where
  nodeId : UInt64
  tagCounter : UInt64

/-- What a replica goes through: additions, and merges with states of other replicas. -/
inductive Step where
  | add
  | merge (tagCounter : UInt64)
deriving DecidableEq

namespace Replica

def new (nodeId : UInt64) : Replica := ⟨nodeId, 0⟩

def freshTag (r : Replica) : Tag × Replica :=
  (⟨r.nodeId.toUInt32, r.tagCounter.toUInt32⟩, { r with tagCounter := r.tagCounter + 1 })

def merge (r : Replica) (tagCounter : UInt64) : Replica :=
  { r with tagCounter := max r.tagCounter tagCounter }

/-- The tags minted on the way. -/
def tags (r : Replica) : List Step → List Tag
  | [] => []
  | .add :: steps => r.freshTag.1 :: r.freshTag.2.tags steps
  | .merge c :: steps => (r.merge c).tags steps

/-- A replica after a step. -/
def step (r : Replica) : Step → Replica
  | .add => r.freshTag.2
  | .merge c => r.merge c

@[simp] theorem nodeId_foldl (r : Replica) (steps : List Step) :
    (steps.foldl step r).nodeId = r.nodeId := by
  refine foldlRecOn (motive := fun r' : Replica => r'.nodeId = r.nodeId) steps step rfl
    fun r' h s _ => ?_
  cases s with
  | add => exact h
  | merge c => exact h

end Replica

/-! ## Where an addition stands -/

/-- Where a step by itself takes a counter. -/
def Step.reach : Step → Nat
  | .add => 1
  | .merge c => c.toNat

/-- The farthest that any of the steps takes a counter, with the additions after it. -/
def height : List Step → Nat
  | [] => 0
  | step :: later => max (step.reach + later.count .add) (height later)

/-- The steps since the counter last passed `2 ^ 64`. -/
def lap (steps : List Step) : List Step :=
  steps.foldl (fun lap step => if step = .add ∧ height lap + 1 = 2 ^ 64 then []
    else lap ++ [step]) []

/-- Where the additions among further steps stand. -/
def positionsAfter (earlier : List Step) : List Step → List Nat
  | [] => []
  | .add :: steps => height (lap earlier) :: positionsAfter (earlier ++ [.add]) steps
  | .merge c :: steps => positionsAfter (earlier ++ [.merge c]) steps

/-- Where the additions of a replica's life stand. -/
def positions (steps : List Step) : List Nat := positionsAfter [] steps

theorem height_concat_add (steps : List Step) : height (steps ++ [.add]) = height steps + 1 := by
  induction steps with
  | nil => rfl
  | cons step steps ih =>
    rw [cons_append, height, height, ih, count_append, count_singleton_self]
    omega

theorem height_concat_merge (c : UInt64) (steps : List Step) :
    height (steps ++ [.merge c]) = max (height steps) c.toNat := by
  induction steps with
  | nil => exact Nat.max_comm _ _
  | cons step steps ih =>
    have hnone : count Step.add [.merge c] = 0 := rfl
    rw [cons_append, height, height, ih, count_append, hnone, Nat.add_zero, Nat.max_assoc]

/-- The counter is the height of the current lap. -/
theorem tagCounter_foldl (nodeId : UInt64) (steps : List Step) :
    (steps.foldl Replica.step (Replica.new nodeId)).tagCounter.toNat = height (lap steps) := by
  induction steps using reverseRecOn with
  | nil => rfl
  | append_singleton steps step ih =>
    rw [foldl_concat, lap, foldl_concat, ← lap.eq_def]
    cases step with
    | merge c =>
      rw [if_neg fun h => absurd h.1 (by simp), height_concat_merge, ← ih]
      exact UInt64.toNat_max ..
    | add =>
      have hlt := (steps.foldl Replica.step (Replica.new nodeId)).tagCounter.toNat_lt
      have hnext : ((steps.foldl Replica.step (Replica.new nodeId)).step .add).tagCounter.toNat =
          (height (lap steps) + 1) % 2 ^ 64 := by
        rw [← ih]
        exact UInt64.toNat_add ..
      rw [hnext]
      rw [ih] at hlt
      split
      · rename_i hwrap
        rw [hwrap.2, Nat.mod_self]
        rfl
      · rename_i hwrap
        rw [height_concat_add]
        exact Nat.mod_eq_of_lt (Nat.lt_of_le_of_ne hlt fun heq => hwrap ⟨rfl, heq⟩)

/-- The tags of a replica's life, from any point of it on, by where its additions stand. -/
theorem tags_after (nodeId : UInt64) (earlier steps : List Step) :
    (earlier.foldl Replica.step (Replica.new nodeId)).tags steps =
      (positionsAfter earlier steps).map fun p => ⟨nodeId.toUInt32, .ofNat p⟩ := by
  induction steps generalizing earlier with
  | nil => rfl
  | cons step steps ih =>
    have hnext := ih (earlier ++ [step])
    rw [foldl_concat] at hnext
    cases step with
    | merge c => exact hnext
    | add =>
      have htag : (earlier.foldl Replica.step (Replica.new nodeId)).freshTag.1 =
          ⟨nodeId.toUInt32, .ofNat (height (lap earlier))⟩ := by
        rw [← tagCounter_foldl nodeId earlier, Replica.freshTag, Replica.nodeId_foldl]
        rfl
      exact congrArg₂ cons htag hnext

/-- The upper half of a node's id and of a counter is lost. -/
theorem toNat_crdtId (nodeId counter : UInt64) :
    (crdtId nodeId counter).toNat = nodeId.toNat % 2 ^ 32 * 2 ^ 32 + counter.toNat % 2 ^ 32 := by
  have hlow : (counter &&& 0xFFFFFFFF).toNat = counter.toNat % 2 ^ 32 :=
    (UInt64.toNat_and ..).trans (Nat.and_two_pow_sub_one_eq_mod _ 32)
  have hhigh : (nodeId <<< 32).toNat = (nodeId.toNat % 2 ^ 32) <<< 32 := by
    rw [UInt64.toNat_shiftLeft, Nat.shiftLeft_eq, Nat.shiftLeft_eq]
    exact Nat.mul_mod_mul_right (2 ^ 32) nodeId.toNat (2 ^ 32)
  rw [crdtId, UInt64.toNat_or, hlow, hhigh,
    ← Nat.shiftLeft_add_eq_or_of_lt (Nat.mod_lt _ (by decide)), Nat.shiftLeft_eq]

theorem toUInt32_eq_iff {a b : UInt64} :
    a.toUInt32 = b.toUInt32 ↔ a.toNat % 2 ^ 32 = b.toNat % 2 ^ 32 := by
  rw [← UInt32.toNat_inj, UInt64.toNat_toUInt32, UInt64.toNat_toUInt32]

theorem crdtId_eq_iff {a b c c' : UInt64} :
    crdtId a c = crdtId b c' ↔ a.toUInt32 = b.toUInt32 ∧ c.toUInt32 = c'.toUInt32 := by
  rw [← UInt64.toNat_inj, toNat_crdtId, toNat_crdtId, toUInt32_eq_iff, toUInt32_eq_iff]
  omega

/-- Two nodes that mint at all mint the same first id if the lower halves of their ids agree. -/
theorem disjoint_crdtIds_iff {a b : UInt64} {n m : Nat} :
    Disjoint (crdtIds a n) (crdtIds b m) ↔ n = 0 ∨ m = 0 ∨ a.toUInt32 ≠ b.toUInt32 := by
  constructor
  · intro h
    by_contra hnot
    obtain ⟨hn, hm, hlow⟩ := not_or.mp hnot |>.imp_right not_or.mp
    have hfirst (c : UInt64) {k : Nat} (hk : k ≠ 0) : crdtId c (.ofNat 1) ∈ crdtIds c k :=
      mem_map.mpr ⟨0, mem_range.mpr (Nat.pos_of_ne_zero hk), rfl⟩
    refine h (hfirst a hn) ?_
    rw [crdtId_eq_iff.mpr ⟨not_not.mp hlow, rfl⟩]
    exact hfirst b hm
  · rintro h id hid hid'
    obtain ⟨i, hi, rfl⟩ := mem_map.mp hid
    obtain ⟨j, hj, heq⟩ := mem_map.mp hid'
    rw [mem_range] at hi hj
    rcases h with rfl | rfl | hlow
    · exact absurd hi (Nat.not_lt_zero i)
    · exact absurd hj (Nat.not_lt_zero j)
    · exact hlow (crdtId_eq_iff.mp heq).1.symm

theorem ofNat_eq_iff {p q : Nat} : UInt32.ofNat p = UInt32.ofNat q ↔ p % 2 ^ 32 = q % 2 ^ 32 := by
  rw [← UInt32.toNat_inj, UInt32.toNat_ofNat', UInt32.toNat_ofNat']

/-- What two nodes mint is apart, and a replica mints no tag twice, exactly if the lower halves of
the nodes' ids differ and no two additions of the replica stand a multiple of `2 ^ 32` apart. Two
replicas whose nodes' ids have the same lower half can still be apart, if no addition of the one
stands a multiple of `2 ^ 32` from one of the other. -/
theorem minted_apart_iff (a b : UInt64) (n m : Nat) (steps steps' : List Step) :
    (Disjoint (crdtIds a n) (crdtIds b m) ∧ ((Replica.new a).tags steps).Nodup ∧
      Disjoint ((Replica.new a).tags steps) ((Replica.new b).tags steps')) ↔
    (n = 0 ∨ m = 0 ∨ a.toUInt32 ≠ b.toUInt32) ∧
      (positions steps).Pairwise (fun p q => p % 2 ^ 32 ≠ q % 2 ^ 32) ∧
      (a.toUInt32 ≠ b.toUInt32 ∨ ∀ p ∈ positions steps, ∀ q ∈ positions steps',
        p % 2 ^ 32 ≠ q % 2 ^ 32) := by
  have htags (a : UInt64) (steps : List Step) : (Replica.new a).tags steps =
      (positions steps).map fun p => ⟨a.toUInt32, .ofNat p⟩ := tags_after a [] steps
  rw [htags, htags, disjoint_crdtIds_iff, Nodup, pairwise_map]
  refine and_congr_right fun _ => and_congr ?_ ?_
  · simp only [ne_eq, Tag.mk.injEq, true_and, ofNat_eq_iff]
  · simp only [disjoint_left, mem_map]
    constructor
    · intro h
      by_contra hnot
      simp only [not_or, not_not, not_forall] at hnot
      obtain ⟨hlow, p, hp, q, hq, heq⟩ := hnot
      exact h ⟨p, hp, rfl⟩ ⟨q, hq, by rw [hlow, ofNat_eq_iff.mpr heq]⟩
    · rintro h _ ⟨p, hp, rfl⟩ ⟨q, hq, heq⟩
      obtain ⟨hnode, hcounter⟩ := Tag.mk.inj heq
      rcases h with hlow | hall
      · exact hlow hnode.symm
      · exact hall p hp q hq (ofNat_eq_iff.mp hcounter.symm)

/-- The first ids of two nodes whose ids differ in the upper half only. -/
theorem first_ids_collide : ¬Disjoint (crdtIds 1 1) (crdtIds 0x100000001 1) :=
  fun h => h mem_cons_self (by decide)

end Nulang.Minting

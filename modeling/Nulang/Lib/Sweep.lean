import Mathlib.Data.Finset.Card

/-!
# Saturation by rounds

A finite set grows by *sweeps*: a sweep visits a list of entries in order, and an entry puts its
node into the set when the set, as it stands at that moment, makes it. Updates are in place, so what
an early entry adds is seen by the later ones.

The point is the bound. A set that has not settled after a sweep has gained a node, so as many
sweeps as there are nodes are enough, whatever the order of the entries and however they depend on
each other: no monotonicity of `makes` is needed.
-/

set_option autoImplicit false

namespace Sweep

open Classical

variable {ν α : Type} [DecidableEq ν] (makes : Finset ν → α → Prop)

/-- One entry: its node joins if the set makes it. -/
noncomputable def visit (X : Finset ν) (entry : ν × α) : Finset ν :=
  if makes X entry.2 then insert entry.1 X else X

noncomputable def sweep (entries : List (ν × α)) (X : Finset ν) : Finset ν :=
  entries.foldl (visit makes) X

/-- No entry has anything left to add. -/
def Closed (entries : List (ν × α)) (X : Finset ν) : Prop :=
  ∀ entry ∈ entries, makes X entry.2 → entry.1 ∈ X

variable {makes}

variable {X N : Finset ν} {entry : ν × α} {entries : List (ν × α)}

theorem mem_visit {x : ν} : x ∈ visit makes X entry ↔ x ∈ X ∨ makes X entry.2 ∧ x = entry.1 := by
  unfold visit
  split <;> simp_all [or_comm]

theorem subset_visit : X ⊆ visit makes X entry := by
  unfold visit
  split
  · exact Finset.subset_insert _ _
  · exact Finset.Subset.refl X

theorem subset_sweep (X : Finset ν) : X ⊆ sweep makes entries X := by
  induction entries generalizing X with
  | nil => exact Finset.Subset.refl X
  | cons entry entries ih => exact (subset_visit).trans (ih _)

theorem visit_subset (hX : X ⊆ N) (he : entry.1 ∈ N) : visit makes X entry ⊆ N := by
  unfold visit
  split
  · exact Finset.insert_subset he hX
  · exact hX

theorem sweep_subset (hX : X ⊆ N) (he : ∀ entry ∈ entries, entry.1 ∈ N) :
    sweep makes entries X ⊆ N := by
  induction entries generalizing X with
  | nil => exact hX
  | cons entry entries ih =>
    have hv : visit makes X entry ⊆ N := visit_subset hX (he entry (by simp))
    exact ih hv fun e h => he e (List.mem_cons_of_mem _ h)

theorem visit_eq_self : visit makes X entry = X ↔ (makes X entry.2 → entry.1 ∈ X) := by
  unfold visit
  split <;> simp_all

/-- A sweep that changes nothing has found the set closed, and the other way round. -/
theorem sweep_eq_self : sweep makes entries X = X ↔ Closed makes entries X := by
  induction entries with
  | nil => simp [sweep, Closed]
  | cons entry entries ih =>
    have hcons : sweep makes (entry :: entries) X = sweep makes entries (visit makes X entry) := rfl
    rw [hcons]
    constructor
    · intro h
      -- the set never shrinks, so the first visit cannot have changed it
      have hsub : visit makes X entry ⊆ X := (subset_sweep (visit makes X entry)).trans h.subset
      have hv : visit makes X entry = X := Finset.Subset.antisymm hsub (subset_visit)
      rw [hv] at h
      intro e he
      rcases List.mem_cons.mp he with rfl | he
      · exact visit_eq_self.mp hv
      · exact ih.mp h e he
    · intro h
      rw [visit_eq_self.mpr (h entry (by simp))]
      exact ih.mpr fun e he => h e (List.mem_cons_of_mem _ he)

/-- After `k` sweeps the set is closed or has at least `k` nodes. -/
theorem closed_or_card (X : Finset ν) (k : Nat) :
    Closed makes entries ((sweep makes entries)^[k] X) ∨
      k ≤ ((sweep makes entries)^[k] X).card := by
  induction k with
  | zero => exact .inr (Nat.zero_le _)
  | succ k ih =>
    rw [Function.iterate_succ_apply']
    by_cases hc : Closed makes entries ((sweep makes entries)^[k] X)
    · exact .inl (by rw [sweep_eq_self.mpr hc]; exact hc)
    · have hcard := ih.resolve_left hc
      have hlt : ((sweep makes entries)^[k] X).card <
          (sweep makes entries ((sweep makes entries)^[k] X)).card := by
        refine Finset.card_lt_card (Finset.ssubset_iff_subset_ne.mpr ⟨subset_sweep _, ?_⟩)
        exact fun h => hc (sweep_eq_self.mp h.symm)
      exact .inr (by omega)

/-- As many sweeps as there are nodes are enough. -/
theorem closed_iterate {k : Nat} (hX : X ⊆ N) (he : ∀ entry ∈ entries, entry.1 ∈ N)
    (hk : N.card ≤ k) : Closed makes entries ((sweep makes entries)^[k] X) := by
  have hsub : (sweep makes entries)^[k] X ⊆ N := by
    clear hk
    induction k with
    | zero => exact hX
    | succ k ih =>
      rw [Function.iterate_succ_apply']
      exact sweep_subset ih he
  rcases closed_or_card X k with hc | hc
  · exact hc
  · have hall : (sweep makes entries)^[k] X = N := Finset.eq_of_subset_of_card_le hsub (by omega)
    intro entry hentry _
    rw [hall]
    exact he entry hentry

theorem subset_iterate (k : Nat) : X ⊆ (sweep makes entries)^[k] X := by
  induction k with
  | zero => exact subset_rfl
  | succ k ih =>
    rw [Function.iterate_succ_apply']
    exact ih.trans (subset_sweep _)

section Mono

variable {k : Nat} (hmono : ∀ A B a, A ⊆ B → makes A a → makes B a)
include hmono

/-- The sweeps stay below every closed set they start below. -/
theorem iterate_subset {Y : Finset ν} (hX : X ⊆ Y) (hY : Closed makes entries Y) :
    (sweep makes entries)^[k] X ⊆ Y := by
  induction k with
  | zero => exact hX
  | succ k ih =>
    rw [Function.iterate_succ_apply']
    refine List.foldlRecOn (motive := (· ⊆ Y)) entries _ ih fun Z hZ entry hentry x hx => ?_
    obtain hx | ⟨hm, rfl⟩ := mem_visit.mp hx
    · exact hZ hx
    · exact hY entry hentry (hmono _ _ _ hZ hm)

/-- What is in a closed set that was swept up is there from the start, or the set makes it. -/
theorem mem_iterate (hc : Closed makes entries ((sweep makes entries)^[k] X)) {x : ν}
    (hx : x ∈ (sweep makes entries)^[k] X) :
    x ∈ X ∨ ∃ entry ∈ entries, entry.1 = x ∧ makes ((sweep makes entries)^[k] X) entry.2 := by
  set F := (sweep makes entries)^[k] X
  set Y := F.filter fun x => x ∈ X ∨ ∃ entry ∈ entries, entry.1 = x ∧ makes F entry.2
  have hY : F ⊆ Y := by
    refine iterate_subset hmono (fun x hx => ?_) fun entry hentry hm => ?_
    · exact Finset.mem_filter.mpr ⟨subset_iterate k hx, .inl hx⟩
    · have hmF := hmono _ _ _ (Finset.filter_subset _ F) hm
      exact Finset.mem_filter.mpr ⟨hc entry hentry hmF, .inr ⟨entry, hentry, rfl, hmF⟩⟩
  exact (Finset.mem_filter.mp (hY hx)).2

end Mono

end Sweep

import Mathlib.Data.List.Chain
import Mathlib.Data.List.Rotate

/-!
# Circuits of a relation

A circuit is a list without repetitions in which each element is related to the next one, and the
last one to the first. A set that has everything related into it contains a circuit as soon as it
meets it (`Circuit.subset_of_meets`).
-/

set_option autoImplicit false

namespace Nulang

open List

variable {α : Type*}

/-- Each element is related to the one after it, around the list. -/
structure Circuit (R : α → α → Prop) (c : List α) : Prop where
  ne_nil : c ≠ []
  nodup : c.Nodup
  next : Forall₂ R c (c.rotate 1)

/-- Everything that is related to an element of `S` is in `S`. -/
def ClosedBack (R : α → α → Prop) (S : List α) : Prop := ∀ a b, R a b → b ∈ S → a ∈ S

namespace Circuit

variable {R R' : α → α → Prop} {c : List α}

theorem mono (h : ∀ a ∈ c, ∀ b ∈ c, R a b → R' a b) (hc : Circuit R c) : Circuit R' c := by
  refine ⟨hc.ne_nil, hc.nodup, ?_⟩
  have hnext := hc.next
  rw [forall₂_iff_zip] at hnext ⊢
  refine ⟨hnext.1, fun {a b} hab => ?_⟩
  obtain ⟨ha, hb⟩ := of_mem_zip hab
  exact h a ha b (mem_rotate.mp hb) (hnext.2 hab)

theorem rotate (hc : Circuit R c) (n : Nat) : Circuit R (c.rotate n) := by
  refine ⟨by simpa using hc.ne_nil, nodup_rotate.mpr hc.nodup, ?_⟩
  have hnext := hc.next
  rw [forall₂_iff_zip] at hnext ⊢
  refine ⟨by simp, fun {a b} hab => hnext.2 ?_⟩
  have hzip : (c.rotate n).zip ((c.rotate n).rotate 1) = (c.zip (c.rotate 1)).rotate n := by
    have hnext : (c.rotate n).rotate 1 = (c.rotate 1).rotate n := by
      rw [rotate_rotate, rotate_rotate, Nat.add_comm]
    rw [hnext]
    exact (zipWith_rotate_distrib _ _ _ _ (by simp)).symm
  rw [hzip] at hab
  exact mem_rotate.mp hab

theorem exists_cons {a : α} (hc : Circuit R c) (ha : a ∈ c) :
    ∃ l, Circuit R (a :: l) ∧ ∀ b, b ∈ a :: l ↔ b ∈ c := by
  obtain ⟨l₁, l₂, rfl⟩ := append_of_mem ha
  have hrot : (l₁ ++ a :: l₂).rotate l₁.length = a :: (l₂ ++ l₁) := by
    rw [rotate_append_length_eq, cons_append]
  refine ⟨l₂ ++ l₁, hrot ▸ hc.rotate l₁.length, fun b => ?_⟩
  rw [← hrot, mem_rotate]

theorem iff_chain {a : α} {l : List α} :
    Circuit R (a :: l) ↔ (a :: l).Nodup ∧ (a :: l ++ [a]).IsChain R := by
  rw [isChain_cons_append_singleton_iff_forall₂]
  constructor
  · exact fun h => ⟨h.nodup, by simpa using h.next⟩
  · exact fun h => ⟨by simp, h.1, by simpa using h.2⟩

theorem exists_next (hc : Circuit R c) {a : α} (ha : a ∈ c) : ∃ b ∈ c, R a b := by
  obtain ⟨i, hi, rfl⟩ := getElem_of_mem ha
  have hlen : i < (c.rotate 1).length := by simpa using hi
  have hnext := forall₂_iff_get.mp hc.next
  exact ⟨(c.rotate 1)[i], mem_rotate.mp (getElem_mem hlen), by simpa using hnext.2 i hi hlen⟩

theorem exists_prev (hc : Circuit R c) {b : α} (hb : b ∈ c) : ∃ a ∈ c, R a b := by
  obtain ⟨i, hi, rfl⟩ := getElem_of_mem (mem_rotate.mpr hb : b ∈ c.rotate 1)
  have hlen : i < c.length := by simpa using hi
  have hnext := forall₂_iff_get.mp hc.next
  exact ⟨c.get ⟨i, hlen⟩, getElem_mem hlen, by simpa using hnext.2 i hlen hi⟩

/-- A chain into a set that is closed backwards lies in it. -/
theorem mem_of_chain {S : List α} (hS : ClosedBack R S) {l : List α} {b : α}
    (h : (l ++ [b]).IsChain R) (hb : b ∈ S) : ∀ a ∈ l, a ∈ S := by
  induction l using reverseRecOn generalizing b with
  | nil => simp
  | append_singleton l z ih =>
    rw [append_assoc, singleton_append] at h
    obtain ⟨hleft, hz⟩ := isChain_split.mp h
    have hzS : z ∈ S := hS z b (isChain_pair.mp hz) hb
    intro a ha
    rcases mem_append.mp ha with ha | ha
    · exact ih hleft hzS a ha
    · rw [mem_singleton.mp ha]
      exact hzS

theorem subset_of_meets {S : List α} (hS : ClosedBack R S) (hc : Circuit R c) {a : α} (ha : a ∈ c)
    (haS : a ∈ S) : ∀ b ∈ c, b ∈ S := by
  obtain ⟨l, hl, hmem⟩ := hc.exists_cons ha
  have hchain := (iff_chain.mp hl).2
  intro b hb
  exact mem_of_chain hS hchain haS b ((hmem b).mpr hb)

end Circuit

end Nulang

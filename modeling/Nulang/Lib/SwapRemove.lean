import Mathlib.Data.List.Induction
import Mathlib.Data.List.Nodup
import Mathlib.Data.List.Perm.Basic

/-!
# Removing an element by moving the last one into its place

`swapRemove l i` is the constant-time removal of growable arrays: the last element takes the place
of the one at `i`. As a multiset nothing but that element goes (`perm_swapRemove`); as a sequence
every other element keeps its place, the last one excepted, which comes to stand at `i`
(`getElem?_swapRemove`). A loop that scans the list from the left has to mind that exception.
-/

set_option autoImplicit false

namespace List

variable {α : Type*} {l : List α} {i j : Nat} {x y : α}

/-- Remove the element at `i`; the last element takes its place. -/
def swapRemove (l : List α) (i : Nat) : List α :=
  match l.getLast? with
  | some z => (l.set i z).dropLast
  | none => []

/-- Remove the first occurrence of `x`, if there is one, in the same way. -/
def swapErase [BEq α] (l : List α) (x : α) : List α :=
  match l.idxOf? x with
  | some i => l.swapRemove i
  | none => l

theorem swapRemove_concat (z : α) : (l ++ [z]).swapRemove i = l.set i z := by
  simp only [swapRemove, getLast?_append, getLast?_singleton, Option.some_or]
  by_cases h : i < l.length
  · rw [set_append_left _ _ h, dropLast_concat]
  · have hle : l.length ≤ i := Nat.le_of_not_lt h
    rw [set_append_right _ _ hle, set_eq_of_length_le hle]
    cases hi : i - l.length with
    | zero => simp
    | succ n => simp

@[simp] theorem length_swapRemove : (l.swapRemove i).length = l.length - 1 := by
  cases l using List.reverseRecOn with
  | nil => rfl
  | append_singleton l z => simp [swapRemove_concat]

/-- Apart from the element at `i`, the removal keeps everything. -/
theorem perm_swapRemove (h : l[i]? = some x) : l.Perm (x :: l.swapRemove i) := by
  cases l using List.reverseRecOn with
  | nil => exact absurd h (by simp)
  | append_singleton l z =>
    rw [swapRemove_concat]
    rcases Nat.lt_or_ge i l.length with hi | hi
    · rw [getElem?_append_left hi] at h
      obtain ⟨_, rfl⟩ := getElem?_eq_some_iff.mp h
      have hset : (z :: l).Perm (l[i] :: l.set i z) := by
        rw [set_eq_take_append_cons_drop, if_pos hi]
        calc z :: l
            _ = z :: (l.take i ++ l[i] :: l.drop (i + 1)) := by
              rw [← drop_eq_getElem_cons hi, take_append_drop]
            _ ~ l[i] :: (z :: (l.take i ++ l.drop (i + 1))) :=
          (perm_middle.cons z).trans (Perm.swap ..)
            _ ~ l[i] :: (l.take i ++ z :: l.drop (i + 1)) := (perm_middle.symm).cons _
      exact (perm_append_singleton z l).trans hset
    · rw [getElem?_append_right hi] at h
      have hz : i - l.length = 0 := by
        by_contra hne
        rw [getElem?_eq_none (by simp; omega)] at h
        cases h
      rw [hz] at h
      cases h
      rw [set_eq_of_length_le hi]
      exact perm_append_singleton _ l

theorem nodup_swapRemove (hl : l.Nodup) (h : l[i]? = some x) :
    (l.swapRemove i).Nodup ∧ x ∉ l.swapRemove i := by
  have hc := ((perm_swapRemove h).nodup_iff.mp hl)
  exact ⟨hc.of_cons, (nodup_cons.mp hc).1⟩

theorem mem_swapRemove (hl : l.Nodup) (h : l[i]? = some x) :
    y ∈ l.swapRemove i ↔ y ∈ l ∧ y ≠ x := by
  rw [(perm_swapRemove h).mem_iff, mem_cons]
  constructor
  · intro hy
    refine ⟨.inr hy, ?_⟩
    rintro rfl
    exact (nodup_swapRemove hl h).2 hy
  · rintro ⟨rfl | hy, hne⟩
    · exact absurd rfl hne
    · exact hy

/-- Every element but the removed one keeps its place or, if it was the last, moves to `i`. -/
theorem getElem?_swapRemove (h : l[j]? = some y) (hij : j ≠ i) (hi : i < l.length) :
    (l.swapRemove i)[j]? = some y ∨ (j + 1 = l.length ∧ (l.swapRemove i)[i]? = some y) := by
  cases l using List.reverseRecOn with
  | nil => exact absurd h (by simp)
  | append_singleton l z =>
    rw [swapRemove_concat]
    rcases Nat.lt_or_ge j l.length with hj | hj
    · left
      rw [getElem?_set_ne (Ne.symm hij), ← h, getElem?_append_left hj]
    · right
      have hjl : j < (l ++ [z]).length := (getElem?_eq_some_iff.mp h).1
      rw [length_append, length_singleton] at hjl hi
      have hj' : j = l.length := by omega
      subst hj'
      rw [getElem?_append_right (Nat.le_refl _), Nat.sub_self] at h
      cases h
      refine ⟨by simp, ?_⟩
      rw [getElem?_set_self (by omega)]

section Erase

variable [BEq α] [LawfulBEq α]

theorem swapErase_of_notMem (h : x ∉ l) : l.swapErase x = l := by
  rw [swapErase, idxOf?_eq_none_iff.mpr h]

theorem swapErase_of_mem (h : x ∈ l) :
    l.swapErase x = l.swapRemove (l.idxOf x) ∧ l[l.idxOf x]? = some x := by
  have hlt : l.idxOf x < l.length := idxOf_lt_length_iff.mpr h
  refine ⟨?_, by rw [getElem?_eq_getElem hlt, getElem_idxOf hlt]⟩
  cases hi : l.idxOf? x with
  | none => exact absurd h (idxOf?_eq_none_iff.mp hi)
  | some i =>
    have hx : l.idxOf x = i := by rw [idxOf_eq_getD_idxOf?, hi, Option.getD_some]
    rw [swapErase, hi, hx]

theorem nodup_swapErase (hl : l.Nodup) : (l.swapErase x).Nodup := by
  by_cases h : x ∈ l
  · obtain ⟨he, hx⟩ := swapErase_of_mem h
    rw [he]
    exact (nodup_swapRemove hl hx).1
  · rw [swapErase_of_notMem h]
    exact hl

theorem mem_swapErase (hl : l.Nodup) : y ∈ l.swapErase x ↔ y ∈ l ∧ y ≠ x := by
  by_cases h : x ∈ l
  · obtain ⟨he, hx⟩ := swapErase_of_mem h
    rw [he, mem_swapRemove hl hx]
  · rw [swapErase_of_notMem h]
    refine ⟨fun hy => ⟨hy, ?_⟩, And.left⟩
    rintro rfl
    exact h hy

theorem getElem?_swapErase (hx : x ∈ l) (h : l[j]? = some y) (hne : y ≠ x) :
    (l.swapErase x)[j]? = some y ∨
      (j + 1 = l.length ∧ (l.swapErase x)[l.idxOf x]? = some y) := by
  obtain ⟨he, hi⟩ := swapErase_of_mem hx
  have hij : j ≠ l.idxOf x := by
    rintro rfl
    rw [h] at hi
    exact hne (Option.some.inj hi)
  rw [he]
  exact getElem?_swapRemove h hij (idxOf_lt_length_iff.mpr hx)

end Erase

end List

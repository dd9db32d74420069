import Mathlib.Algebra.Group.Nat.Defs
import Mathlib.Tactic.Common

/-!
# Computations that may fail

What a successful `do` block or loop over `Except` says about its steps, and the successor of a
machine word, which the largest one does not have.

Where it can be, a lemma is an equivalence, to be used as a rewrite rule on the hypothesis that some
code has returned.
-/

set_option autoImplicit false

namespace Nulang

variable {ε : Type} {α β : Type}

theorem bind_eq_ok {x : Except ε α} {f : α → Except ε β} {b : β} :
    (x >>= f) = .ok b ↔ ∃ a, x = .ok a ∧ f a = .ok b := by
  cases x with
  | error | ok => simp [Bind.bind, Except.bind]

theorem seq_eq_ok {x y : Except ε Unit} :
    (x >>= fun _ => y) = .ok () ↔ x = .ok () ∧ y = .ok () := by
  rw [bind_eq_ok]
  constructor
  · rintro ⟨⟨⟩, h⟩
    exact h
  · exact fun h => ⟨(), h⟩

theorem forM_eq_ok {f : α → Except ε Unit} {l : List α} :
    l.forM f = .ok () ↔ ∀ a ∈ l, f a = .ok () := by
  induction l with
  | nil => simp [pure, Except.pure]
  | cons a l ih =>
    rw [List.forall_mem_cons]
    refine bind_eq_ok.trans ?_
    constructor
    · rintro ⟨⟨⟩, ha, hl⟩
      exact ⟨ha, ih.mp hl⟩
    · rintro ⟨ha, hl⟩
      exact ⟨(), ha, ih.mpr hl⟩

/-- `checked_add(1)` on a `u64`. -/
def checkedSucc (n : Nat) : Option Nat := if n + 1 < 2 ^ 64 then some (n + 1) else none

theorem checkedSucc_of_lt {n : Nat} (h : n + 1 < 2 ^ 64) : checkedSucc n = some (n + 1) := if_pos h

theorem checkedSucc_eq {n m : Nat} (h : checkedSucc n = some m) : m = n + 1 ∧ m < 2 ^ 64 := by
  unfold checkedSucc at h
  split_ifs at h with hlt
  cases h
  exact ⟨rfl, hlt⟩

end Nulang

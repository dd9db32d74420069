import Mathlib.Tactic.Common

/-!
# Runs: stateful computations that may stop

A run threads a state and either finishes with a value or stops with a reason; the state is kept
in both cases. Programs whose termination is a theorem and not a syntactic fact are written with a
fuel argument and stop with an out-of-fuel reason; programs with ghost assertions stop with an
assertion reason. Both kinds of reason are *uninformative*: a run that stops for one of them says
nothing about the run with more fuel, or about the run without assertions. `Below bad x y` is that
comparison, and the lemmas of this file push it through the monad.

A program with fuel is a family of runs. `Converges x n r` says that from some amount of fuel on
the family's run is `r`: the big-step reading of the program, with no fuel in it. Its rules follow
the monad as well, so a termination proof is written like an evaluation.
-/

set_option autoImplicit false

/-- A computation on a state `σ` that returns an `α` or stops with an `ε`. -/
abbrev Run (ε σ α : Type) : Type := ExceptT ε (StateM σ) α

namespace Run

variable {ε σ α β : Type}

def exec (x : Run ε σ α) (n : σ) : Except ε α × σ := x n

def stop (e : ε) : Run ε σ α := fun n => (.error e, n)

/-- Turn the stops a program can observe into `none`; every other stop is passed on. -/
def recover (observable : ε → Bool) (x : Run ε σ α) : Run ε σ (Option α) := fun n =>
  match x n with
  | (.ok a, m) => (.ok (some a), m)
  | (.error e, m) => if observable e then (.ok none, m) else (.error e, m)

def next : Run ε Nat Nat := fun n => (.ok n, n + 1)

theorem exec_recover (observable : ε → Bool) (x : Run ε σ α) (n : σ) :
    (x.recover observable).exec n = match x.exec n with
      | (.ok a, m) => (.ok (some a), m)
      | (.error e, m) => if observable e then (.ok none, m) else (.error e, m) := rfl

theorem exec_bind (x : Run ε σ α) (f : α → Run ε σ β) (n : σ) :
    (x >>= f).exec n = match x.exec n with
      | (.ok a, m) => (f a).exec m
      | (.error e, m) => (.error e, m) := by
  show (ExceptT.bind x f) n = _
  unfold ExceptT.bind exec
  simp only [ExceptT.mk, bind, StateT.bind]
  rcases h : x n with ⟨_ | _, m⟩
  · rfl
  · rfl

/-- `y` does what `x` does, unless `x` stops for an uninformative reason. -/
def Below (bad : ε → Prop) (x y : Run ε σ α) : Prop :=
  ∀ n, (∃ e m, bad e ∧ x.exec n = (.error e, m)) ∨ x.exec n = y.exec n

namespace Below

variable {bad : ε → Prop} {x y z : Run ε σ α} {f g : α → Run ε σ β}

theorem refl (x : Run ε σ α) : Below bad x x := fun _ => .inr rfl

theorem of_stop {e : ε} (he : bad e) : Below bad (stop e) y :=
  fun n => .inl ⟨e, n, he, rfl⟩

theorem bind (hxy : Below bad x y) (hfg : ∀ a, Below bad (f a) (g a)) :
    Below bad (x >>= f) (y >>= g) := by
  intro n
  rw [exec_bind, exec_bind]
  rcases hxy n with ⟨e, m, he, h⟩ | h
  · rw [h]
    exact .inl ⟨e, m, he, rfl⟩
  · rw [← h]
    rcases x.exec n with ⟨_ | a, l⟩
    · exact .inr rfl
    · exact hfg a l

theorem recover {observable : ε → Bool} (hb : ∀ e, bad e → observable e = false)
    (hxy : Below bad x y) : Below bad (x.recover observable) (y.recover observable) := by
  intro n
  rw [exec_recover, exec_recover]
  rcases hxy n with ⟨e, m, he, h⟩ | h
  · rw [h]
    exact .inl ⟨e, m, he, by simp [hb e he]⟩
  · rw [h]
    exact .inr rfl

theorem ite {c : Prop} [Decidable c] {x' y' : Run ε σ α} (h : Below bad x y)
    (h' : Below bad x' y') : Below bad (if c then x else x') (if c then y else y') := by
  split
  · exact h
  · exact h'

/-- What a comparison says once the uninformative reasons are excluded. -/
theorem exec_eq (h : Below bad x y) {n : σ} (hx : ∀ e, bad e → (x.exec n).1 ≠ .error e) :
    x.exec n = y.exec n := by
  rcases h n with ⟨e, m, he, h'⟩ | h'
  · exact absurd (by rw [h']) (hx e he)
  · exact h'

end Below

/-- From some amount of fuel on, the run from `n` is `r`. -/
def Converges (x : Nat → Run ε σ α) (n : σ) (r : Except ε α × σ) : Prop :=
  ∃ F, ∀ f, F ≤ f → (x f).exec n = r

namespace Converges

variable {x y : Nat → Run ε σ α} {g : Nat → α → Run ε σ β} {n l m : σ} {a : α} {e : ε}
  {r : Except ε α × σ}

theorem of_eq (h : ∀ f, (x f).exec n = r) : Converges x n r := ⟨0, fun f _ => h f⟩

theorem unique {r' : Except ε α × σ} (h : Converges x n r) (h' : Converges x n r') : r = r' := by
  obtain ⟨F, hF⟩ := h
  obtain ⟨F', hF'⟩ := h'
  rw [← hF _ (Nat.le_max_left F F'), hF' _ (Nat.le_max_right F F')]

theorem succ (h : Converges x n r) (hs : ∀ f, y (f + 1) = x f) : Converges y n r := by
  obtain ⟨F, hF⟩ := h
  refine ⟨F + 1, fun f hf => ?_⟩
  obtain ⟨f, rfl⟩ : ∃ f', f = f' + 1 := ⟨f - 1, by omega⟩
  rw [hs, hF f (by omega)]

theorem bind {r : Except ε β × σ} (hx : Converges x n (.ok a, l))
    (hg : Converges (fun f => g f a) l r) : Converges (fun f => x f >>= g f) n r := by
  obtain ⟨F, hF⟩ := hx
  obtain ⟨G, hG⟩ := hg
  refine ⟨max F G, fun f hf => ?_⟩
  rw [exec_bind, hF f (Nat.le_trans (Nat.le_max_left F G) hf)]
  exact hG f (Nat.le_trans (Nat.le_max_right F G) hf)

theorem bind_stop (hx : Converges x n (.error e, l)) :
    Converges (fun f => x f >>= g f) n (.error e, l) := by
  obtain ⟨F, hF⟩ := hx
  refine ⟨F, fun f hf => ?_⟩
  rw [exec_bind, hF f hf]

/-- What a family of runs does, another does too, when the first does not stop for an
uninformative reason. -/
theorem of_below {bad : ε → Prop} (h : ∀ f, Below bad (x f) (y f)) (hx : Converges x n r)
    (hr : ∀ e, bad e → r.1 ≠ .error e) : Converges y n r := by
  obtain ⟨F, hF⟩ := hx
  refine ⟨F, fun f hf => ?_⟩
  rw [← (h f).exec_eq (fun e he => by rw [hF f hf]; exact hr e he), hF f hf]

end Converges

/-- From some amount of fuel on, the run from `n` is one result, and the result satisfies `Q`. -/
def Yields (x : Nat → Run ε σ α) (n : σ) (Q : Except ε α × σ → Prop) : Prop :=
  ∃ r, Converges x n r ∧ Q r

namespace Yields

variable {x y : Nat → Run ε σ α} {g : Nat → α → Run ε σ β} {n : σ}
  {P P' : Except ε α × σ → Prop} {Q : Except ε β × σ → Prop}

theorem of_eq {r : Except ε α × σ} (h : ∀ f, (x f).exec n = r) (hr : P r) : Yields x n P :=
  ⟨r, .of_eq h, hr⟩

theorem mono (h : Yields x n P) (hP : ∀ r, P r → P' r) : Yields x n P' := by
  obtain ⟨r, hx, hr⟩ := h
  exact ⟨r, hx, hP r hr⟩

theorem succ (h : Yields x n P) (hs : ∀ f, y (f + 1) = x f) : Yields y n P := by
  obtain ⟨r, hx, hr⟩ := h
  exact ⟨r, hx.succ hs, hr⟩

/-- The rule for a sequence: the first half's result decides how the second half starts, and its
stops are the sequence's stops. -/
theorem bind (hx : Yields x n P) (hstop : ∀ e m, P (.error e, m) → Q (.error e, m))
    (hg : ∀ a m, P (.ok a, m) → Yields (fun f => g f a) m Q) :
    Yields (fun f => x f >>= g f) n Q := by
  obtain ⟨⟨_ | a, m⟩, hx, hr⟩ := hx
  · exact ⟨_, hx.bind_stop, hstop _ m hr⟩
  · obtain ⟨r', hy, hr'⟩ := hg a m hr
    exact ⟨r', hx.bind hy, hr'⟩

end Yields

end Run

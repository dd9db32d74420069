import Mathlib.Tactic.Linarith

/-!
# Minimising a failing trace

`minimize_failing_trace` of `dst/shrink.rs` deletes chunks from a trace as long as what is left
still fails: finer chunks when no chunk of a size can go, coarser ones after a success. The two
loops are a state machine here. One invariant carries the whole result: what has been tried in the
round, and what the round and all later ones can cost.

The predicate is a computation of any monad, as it is an `FnMut` in the source: a replay may do
anything. The result is about predicates that answer the same every time they are asked. Such a one
that also counts how often it is asked ends with the number of replays that is returned
(`minimize_counting`).
-/

set_option autoImplicit false

namespace Nulang.Shrink

open List

inductive MinimizationStatus
  | notFailing
  | oneMinimal
  | budgetExhausted
deriving DecidableEq

structure MinimizedTrace (α : Type) where
  trace : List α
  replays : Nat
  status : MinimizationStatus

/-- The state of the two loops. -/
structure Search (α : Type) where
  current : List α
  granularity : Nat
  start : Nat

variable {α : Type}

namespace Search

variable (s : Search α)

def chunkSize : Nat :=
  s.current.length / s.granularity + if s.current.length % s.granularity ≠ 0 then 1 else 0

/-- `end` -/
def stop : Nat := min (s.start + s.chunkSize) s.current.length

def candidate : List α := s.current.take s.start ++ s.current.drop s.stop

/-- The state in which the next candidate is made, after the end of a round if there is none left in
it; `none` is the end of the outer loop. -/
def turn : Option (Search α) :=
  if s.current.isEmpty then none
  else if s.start < s.current.length then some s
  else if s.current.length ≤ s.granularity then none
  else some { s with granularity := min (2 * s.granularity) s.current.length, start := 0 }

def reduced : Search α := ⟨s.candidate, max (s.granularity - 1) 2, 0⟩

def skipped : Search α := { s with start := s.stop }

/-- The loops, with `left` replays left. -/
def run {m : Type → Type} [Monad m] (fails : List α → m Bool) :
    (left replays : Nat) → Search α → m (MinimizedTrace α)
  | 0, replays, s =>
    match s.turn with
    | none => pure ⟨s.current, replays, .oneMinimal⟩
    | some s => pure ⟨s.current, replays, .budgetExhausted⟩
  | left + 1, replays, s =>
    match s.turn with
    | none => pure ⟨s.current, replays, .oneMinimal⟩
    | some s => do
      let failed ← fails s.candidate
      run fails left (replays + 1) (if failed then s.reduced else s.skipped)

end Search

def minimizeFailingTrace {m : Type → Type} [Monad m] (trace : List α) (maxReplays : Nat)
    (fails : List α → m Bool) : m (MinimizedTrace α) :=
  match maxReplays with
  | 0 => pure ⟨trace, 0, .budgetExhausted⟩
  | left + 1 => do
    if ← fails trace then Search.run fails left 1 ⟨trace, 2, 0⟩
    else pure ⟨trace, 1, .notFailing⟩

/-- The predicate, which also counts its calls. -/
def counting (fails : List α → Bool) (trace : List α) : StateM Nat Bool := do
  modify (· + 1)
  return fails trace

/-- What the rounds from a trace of length `l` at granularity `g` can cost: the rounds that end in a
deletion, and those that do not, whose granularity doubles. -/
def cost (l g : Nat) : Nat := l * l + if l ≤ g then l else 3 * l - g

theorem cost_reduced {l l' g k : Nat} (hl : l' < l) (hg : 2 ≤ g) (hk : k < l) :
    k + 1 + cost l' (max (g - 1) 2) ≤ cost l g := by
  have hsquare : l' * l' + l ≤ l * l := by nlinarith
  unfold cost
  split_ifs <;> omega

theorem cost_doubled {l g k : Nat} (hg : g < l) (hk : k ≤ g) :
    k + cost l (min (2 * g) l) ≤ cost l g := by
  unfold cost
  split_ifs <;> omega

namespace Search

variable {s : Search α}

theorem length_le_chunks (hg : 0 < s.granularity) :
    s.current.length ≤ s.chunkSize * s.granularity := by
  have hdiv := Nat.div_add_mod s.current.length s.granularity
  have hmod := Nat.mod_lt s.current.length hg
  unfold chunkSize
  split_ifs with h
  · nlinarith
  · have : s.current.length % s.granularity = 0 := by omega
    nlinarith

theorem chunkSize_eq_one (h : s.current ≠ []) (hg : s.current.length ≤ s.granularity) :
    s.chunkSize = 1 := by
  have hpos := length_pos_iff.mpr h
  unfold chunkSize
  rcases Nat.lt_or_eq_of_le hg with hlt | heq
  · rw [Nat.div_eq_of_lt hlt, Nat.mod_eq_of_lt hlt, if_pos (by omega)]
  · rw [← heq, Nat.div_self hpos, Nat.mod_self, if_neg (by omega)]

/-- What holds of a search for a failing part of `trace`, after `replays` calls of the predicate. -/
structure Inv (trace : List α) (fails : List α → Bool) (replays : Nat) (s : Search α) : Prop where
  sub : s.current <+ trace
  failing : fails s.current = true
  two_le : 2 ≤ s.granularity
  tried : s.chunkSize = 1 → ∀ i < s.start, fails (s.current.eraseIdx i) = false
  spent : ∃ k, s.start = min (k * s.chunkSize) s.current.length ∧ k ≤ s.granularity ∧
    k ≤ s.current.length ∧
    replays + cost s.current.length s.granularity ≤ 1 + cost trace.length 2 + k

variable {trace : List α} {fails : List α → Bool} {replays : Nat}

theorem Inv.init (h : fails trace = true) : Inv trace fails 1 ⟨trace, 2, 0⟩ :=
  ⟨Sublist.refl _, h, le_rfl, fun _ i hi => absurd hi (Nat.not_lt_zero i), 0, by simp⟩

/-- The search goes on inside a round, or has tried every deletion. -/
theorem Inv.turn (h : Inv trace fails replays s) :
    (∃ s', s.turn = some s' ∧ Inv trace fails replays s' ∧ s'.start < s'.current.length) ∨
      s.turn = none ∧ ∀ i < s.current.length, fails (s.current.eraseIdx i) = false := by
  obtain ⟨k, hstart, hkg, hkl, hspent⟩ := h.spent
  unfold Search.turn
  split_ifs with hempty hlt hle
  · rw [isEmpty_iff.mp hempty]
    exact .inr ⟨rfl, fun i hi => absurd hi (Nat.not_lt_zero i)⟩
  · exact .inl ⟨s, rfl, h, hlt⟩
  · have hne : s.current ≠ [] := fun h => hempty (isEmpty_iff.mpr h)
    exact .inr ⟨rfl, fun i hi => h.tried (chunkSize_eq_one hne hle) i (by omega)⟩
  · have hdoubled := cost_doubled (by omega) hkg (l := s.current.length)
    refine .inl
      ⟨_, rfl, ⟨h.sub, h.failing, ?_, fun _ i hi => absurd hi (Nat.not_lt_zero i), 0, ?_⟩, ?_⟩
    · have := h.two_le
      dsimp only
      omega
    · simp only [Nat.zero_mul, Nat.zero_min, Nat.zero_le, true_and]
      omega
    · dsimp only
      have := h.two_le
      omega

/-- One replay: the candidate fails and is kept, or it passes and the next chunk is tried. -/
theorem Inv.step (h : Inv trace fails replays s) (hlt : s.start < s.current.length) :
    Inv trace fails (replays + 1) (if fails s.candidate then s.reduced else s.skipped) := by
  obtain ⟨k, hstart, hkg, hkl, hspent⟩ := h.spent
  have hchunks := length_le_chunks (s := s) (by have := h.two_le; omega)
  have hchunk : 0 < s.chunkSize := by
    rcases Nat.eq_zero_or_pos s.chunkSize with h0 | hpos
    · rw [h0] at hchunks
      omega
    · exact hpos
  have hk : k * s.chunkSize = s.start := by omega
  have hkg' : k < s.granularity := by
    by_contra hge
    nlinarith
  have hkl' : k < s.current.length := by nlinarith
  have hstop : s.start < s.stop := by
    unfold stop
    omega
  -- If the candidate fails, the trace gets shorter and the scan begins again; if not, one more
  -- chunk has been tried.
  split_ifs with hfails
  · have hshorter : s.candidate.length < s.current.length := by
      simp only [candidate, length_append, length_take, length_drop]
      omega
    have hsub : s.candidate <+ s.current := by
      conv_rhs => rw [← take_append_drop s.start s.current]
      exact (Sublist.refl _).append (drop_sublist_drop_left _ hstop.le)
    have hcost := cost_reduced hshorter h.two_le hkl'
    refine ⟨hsub.trans h.sub, hfails, le_max_right _ _, fun _ i hi =>
      absurd hi (Nat.not_lt_zero i), 0, ?_⟩
    simp only [reduced, Nat.zero_mul, Nat.zero_min, Nat.zero_le, true_and]
    omega
  · refine ⟨h.sub, h.failing, h.two_le, fun hone i hi => ?_, k + 1, ?_, hkg', hkl', ?_⟩
    -- With chunks of one event, this chunk is one more event that cannot be left out.
    · have hone : s.chunkSize = 1 := hone
      have hi : i < s.stop := hi
      unfold stop at hi
      rcases Nat.lt_or_eq_of_le (show i ≤ s.start by omega) with hi | rfl
      · exact h.tried hone i hi
      · change fails (s.current.eraseIdx s.start) = false
        rw [eraseIdx_eq_take_drop_succ]
        simpa [candidate, stop, hone, Nat.succ_le_of_lt hlt] using hfails
    · change s.stop = min ((k + 1) * s.chunkSize) s.current.length
      rw [Nat.succ_mul, hk]
      rfl
    · change replays + 1 + cost s.current.length s.granularity ≤ 1 + cost trace.length 2 + (k + 1)
      omega

section Runs

variable {s' : Search α} {left : Nat}

theorem run_of_none (h : s.turn = none) :
    s.run (m := Id) fails left replays = ⟨s.current, replays, .oneMinimal⟩ := by
  cases left with
  | zero | succ => simp only [Search.run, h, pure]

theorem run_zero (h : s.turn = some s') :
    s.run (m := Id) fails 0 replays = ⟨s'.current, replays, .budgetExhausted⟩ := by
  simp only [Search.run, h, pure]

theorem run_succ (h : s.turn = some s') :
    s.run (m := Id) fails (left + 1) replays =
      (if fails s'.candidate then s'.reduced else s'.skipped).run
      (m := Id) fails left (replays + 1) := by
  simp only [Search.run, h]
  rfl

/-- A predicate that counts its calls has been called once for each replay. -/
theorem run_counting (fails : List α → Bool) (calls left replays : Nat) (s : Search α) :
    (s.run (counting fails) left replays).run (calls + replays) =
      (s.run (m := Id) fails left replays,
        calls + (s.run (m := Id) fails left replays).replays) := by
  induction left generalizing replays s with
  | zero =>
    cases hturn : s.turn with
    | none =>
      rw [run_of_none hturn]
      simp only [Search.run, hturn]
      rfl
    | some s' =>
      rw [run_zero hturn]
      simp only [Search.run, hturn]
      rfl
  | succ left ih =>
    cases hturn : s.turn with
    | none =>
      rw [run_of_none hturn]
      simp only [Search.run, hturn]
      rfl
    | some s' =>
      rw [run_succ hturn, ← ih]
      simp only [Search.run, hturn]
      rfl

end Runs

/-- What a search returns that has the invariant: replays left over mean that the search is
complete. -/
theorem Inv.run (left : Nat) (h : Inv trace fails replays s) :
    let r := s.run (m := Id) fails left replays
    r.replays ≤ replays + left ∧ r.trace <+ trace ∧ r.status ≠ .notFailing ∧
      (r.status = .oneMinimal → fails r.trace = true ∧
        ∀ i < r.trace.length, fails (r.trace.eraseIdx i) = false) ∧
      (r.status = .budgetExhausted →
        replays + left ≤ trace.length * trace.length + 3 * trace.length + 1) := by
  induction left generalizing replays s with
  | zero =>
    obtain ⟨s', hturn, h', hlt⟩ | ⟨hturn, hmin⟩ := h.turn
    · obtain ⟨k, -, -, hkl, hspent⟩ := h'.spent
      rw [run_zero hturn]
      refine ⟨le_rfl, h'.sub, by simp, by simp, fun _ => ?_⟩
      unfold cost at hspent
      split_ifs at hspent <;> omega
    · rw [run_of_none hturn]
      exact ⟨le_rfl, h.sub, by simp, fun _ => ⟨h.failing, hmin⟩, by simp⟩
  | succ left ih =>
    obtain ⟨s', hturn, h', hlt⟩ | ⟨hturn, hmin⟩ := h.turn
    · rw [run_succ hturn]
      have := ih (h'.step hlt)
      rwa [show replays + 1 + left = replays + (left + 1) by omega] at this
    · rw [run_of_none hturn]
      exact ⟨Nat.le_add_right _ _, h.sub, by simp, fun _ => ⟨h.failing, hmin⟩, by simp⟩

end Search

/-- What is promised of the result of a minimisation. -/
structure Promised (trace : List α) (maxReplays : Nat) (fails : List α → Bool)
    (r : MinimizedTrace α) : Prop where
  replays : r.replays ≤ maxReplays
  sub : r.trace <+ trace
  oneMinimal : r.status = .oneMinimal →
    fails r.trace = true ∧ ∀ i < r.trace.length, fails (r.trace.eraseIdx i) = false
  notFailing : r.status = .notFailing → r.trace = trace ∧ fails trace = false
  budget : trace.length * trace.length + 4 * trace.length + 2 ≤ maxReplays →
    r.status ≠ .budgetExhausted

variable {trace : List α} {fails : List α → Bool}

theorem minimize_succ (left : Nat) : minimizeFailingTrace (m := Id) trace (left + 1) fails =
    if fails trace then Search.run (m := Id) fails left 1 ⟨trace, 2, 0⟩
    else ⟨trace, 1, .notFailing⟩ := rfl

theorem minimize_counting (trace : List α) (maxReplays : Nat) (fails : List α → Bool)
    (calls : Nat) :
    (minimizeFailingTrace trace maxReplays (counting fails)).run calls =
      (minimizeFailingTrace (m := Id) trace maxReplays fails,
        calls + (minimizeFailingTrace (m := Id) trace maxReplays fails).replays) := by
  cases maxReplays with
  | zero => rfl
  | succ left =>
    have hcounted : (minimizeFailingTrace trace (left + 1) (counting fails)).run calls =
        (if fails trace then Search.run (counting fails) left 1 ⟨trace, 2, 0⟩
          else pure ⟨trace, 1, .notFailing⟩ : StateM Nat (MinimizedTrace α)).run (calls + 1) := rfl
    rw [hcounted, minimize_succ]
    cases fails trace with
    | false => rfl
    | true => exact Search.run_counting fails calls left 1 _

theorem promised_minimize (trace : List α) (maxReplays : Nat) (fails : List α → Bool) :
    Promised trace maxReplays fails (minimizeFailingTrace (m := Id) trace maxReplays fails) := by
  cases maxReplays with
  | zero =>
    exact ⟨le_rfl, Sublist.refl _, by simp [minimizeFailingTrace, pure],
      by simp [minimizeFailingTrace, pure], by simp⟩
  | succ left =>
    rw [minimize_succ]
    cases hfails : fails trace with
    | false => exact ⟨by simp, Sublist.refl _, by simp, fun _ => ⟨rfl, hfails⟩, by simp⟩
    | true =>
      obtain ⟨hreplays, hsub, hstatus, hone, hbudget⟩ := (Search.Inv.init hfails).run left
      rw [if_pos rfl]
      refine ⟨by omega, hsub, hone, fun h => absurd h hstatus, fun hle h => ?_⟩
      have := hbudget h
      omega

/-- What the result promises, and that it is the one found with a predicate that counts its calls,
which the number of replays is. -/
theorem minimize_sound (trace : List α) (maxReplays : Nat) (fails : List α → Bool) :
    Promised trace maxReplays fails (minimizeFailingTrace (m := Id) trace maxReplays fails) ∧
      ∃ calls, (minimizeFailingTrace trace maxReplays (counting fails)).run 0 =
          (minimizeFailingTrace (m := Id) trace maxReplays fails, calls) ∧
        calls = (minimizeFailingTrace (m := Id) trace maxReplays fails).replays ∧
          calls ≤ maxReplays := by
  have hpromised := promised_minimize trace maxReplays fails
  refine ⟨hpromised, _, minimize_counting trace maxReplays fails 0, Nat.zero_add _, ?_⟩
  rw [Nat.zero_add]
  exact hpromised.replays

end Nulang.Shrink

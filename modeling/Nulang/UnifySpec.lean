import Mathlib.Order.Interval.Finset.Nat
import Nulang.Resolved
import Nulang.UnifyRuns

/-!
# What a unification run means

The unifier with the checks `circular` and `stale` armed, as a solver of constraints. A run on a
list of rounds ends in a `Solution`: a resolved substitution over the variables of the rounds and
the fresh ones, each of whose models satisfies the rounds, and through which every valuation that
unifies them factors (on the core fragment). Or it stops, and then for a reason that is not a lack
of fuel.

Rounds are the source's own loop bodies (`UnifyStep`). The one loop is settled here
(`unifySteps_yields`) from what one call of `mgu` does; the cases of `mgu` follow in the next
module.
-/

set_option autoImplicit false

namespace Nulang

open Ty List Run Substitution

/-! ## Rounds as constraints -/

namespace UnifyStep

/-- The two sides of the round are read alike. -/
def Unified (R : Reading) : UnifyStep → Prop
  | .unify a b => R.read a = R.read b
  | .skip => True
  | .fail _ => False

/-- The valuation reads the two sides of the round as the same type. -/
def Agreed (ρ : TypeVar → Ty) : UnifyStep → Prop
  | .unify a b => Agree ρ a b
  | .skip => True
  | .fail _ => False

/-- Every node of the round's types satisfies `p`. -/
def All (p : Ty → Bool) : UnifyStep → Prop
  | .unify a b => a.all p = true ∧ b.all p = true
  | .skip => True
  | .fail _ => True

variable (s : Substitution)

def inst : UnifyStep → UnifyStep
  | .unify a b => .unify (a.inst s.toFun) (b.inst s.toFun)
  | c => c

/-- The substitution goes under no scheme of the round. -/
def Clear : UnifyStep → Prop
  | .unify a b => a.captures s.toFun = false ∧ b.captures s.toFun = false
  | _ => True

end UnifyStep

/-- All rounds lie in the core fragment. -/
def CoreSteps (C : List UnifyStep) : Prop := ∀ c ∈ C, c.All Ty.coreNode

/-- No round contains a node of the excluded kind. -/
def LackSteps (x : Excluded) (C : List UnifyStep) : Prop := ∀ c ∈ C, c.All x.admits

/-- The run returns a value with the given property, or stops and not for want of fuel. -/
def Ends {α : Type} (Q : α → Nat → Prop) : Except Stop α × TypeVar → Prop
  | (.ok a, m) => Q a m
  | (.error e, _) => e ≠ .fuel

section Spec

variable (armed : Hook → Bool)

/-- A resolved substitution over the variables `W` and those handed out between the counters `n`
and `m`. -/
structure Fits (W : Finset TypeVar) (n : Nat) (s : Substitution) (m : Nat) : Prop where
  le : n ≤ m
  resolved : s.Resolved
  bounded : ∀ w : Nat, s.Mentions w → w ∈ W ∨ n ≤ w ∧ w < m

/-- `s` solves the rounds `C`, whose variables are in `W`; `n` and `m` are the counter before and
after. -/
structure Solution (W : Finset TypeVar) (C : List UnifyStep) (n : Nat) (s : Substitution)
    (m : Nat) : Prop extends Fits W n s m where
  /-- Every fresh variable is paid for by a bound one, with one to spare. -/
  fresh : s = [] ∧ m = n ∨ m < n + s.length
  lacks : ∀ x, LackSteps x C → ∀ b ∈ s, b.2.lacks x = true
  core : CoreSteps C → ∀ b ∈ s, b.2.core = true
  sound : (∀ h, armed h = true) → LackSteps .never C → ∀ ρ, Models ρ s → ∀ c ∈ C, c.Agreed ρ
  general : CoreSteps C → ∀ R : Reading, (∀ c ∈ C, c.Unified R) → R.Models s

/-- What a run on the rounds `C` may end in. In the core fragment it does not return, or fails a
check, only if no reading unifies the rounds. -/
def Solves (W : Finset TypeVar) (C : List UnifyStep) (n : Nat) :
    Except Stop Substitution × TypeVar → Prop
  | (.ok s, m) => Solution armed W C n s m
  | (.error .fuel, _) => False
  | (.error (.assertion _), _) => CoreSteps C → ∀ R, ¬ ∀ c ∈ C, c.Unified R
  | (.error (.error _), _) => CoreSteps C → ∀ R, ¬ ∀ c ∈ C, c.Unified R

variable {armed} {W : Finset TypeVar} {C : List UnifyStep} {n : Nat}

theorem Solution.nil (W : Finset TypeVar) (n : Nat) : Solution armed W [] n [] n where
  le := le_refl n
  resolved := ⟨by simp [dom], by simp⟩
  bounded := by simp [Mentions, dom]
  fresh := .inl ⟨rfl, rfl⟩
  lacks := by simp
  core := by simp
  sound := by simp
  general := by simp [Reading.Models]

variable {C' : List UnifyStep} {m : Nat} {s : Substitution} {r : Except Stop Substitution × TypeVar}
  {e : Stop}

theorem Solution.transport (h : Solution armed W C n s m) (hn : ∀ x, LackSteps x C' → LackSteps x C)
    (hc : CoreSteps C' → CoreSteps C)
    (hs : (∀ h, armed h = true) → LackSteps .never C' → ∀ ρ, (∀ c ∈ C, c.Agreed ρ) →
      ∀ c ∈ C', c.Agreed ρ)
    (hg : CoreSteps C' → ∀ R, (∀ c ∈ C', c.Unified R) → ∀ c ∈ C, c.Unified R) :
    Solution armed W C' n s m where
  toFits := h.toFits
  fresh := h.fresh
  lacks := fun x hC => h.lacks x (hn x hC)
  core := fun hC => h.core (hc hC)
  sound := fun ha hC ρ hρ => hs ha hC ρ (h.sound ha (hn .never hC) ρ hρ)
  general := fun hC R hR => h.general (hc hC) R (hg hC R hR)

theorem Solution.mono {W' : Finset TypeVar} (h : Solution armed W C n s m) (hW : W ⊆ W') :
    Solution armed W' C n s m :=
  { h with bounded := fun w hw => (h.bounded w hw).imp (fun hw => hW hw) id }

theorem Solves.transport (h : Solves armed W C n r) (hn : ∀ x, LackSteps x C' → LackSteps x C)
    (hc : CoreSteps C' → CoreSteps C)
    (hs : (∀ h, armed h = true) → LackSteps .never C' → ∀ ρ, (∀ c ∈ C, c.Agreed ρ) →
      ∀ c ∈ C', c.Agreed ρ)
    (hg : CoreSteps C' → ∀ R, (∀ c ∈ C', c.Unified R) → ∀ c ∈ C, c.Unified R) :
    Solves armed W C' n r := by
  match r with
  | (.ok s, m) => exact Solution.transport h hn hc hs hg
  | (.error .fuel, _) => exact h
  | (.error (.assertion _), _) => exact fun hC R hR => h (hc hC) R (hg hC R hR)
  | (.error (.error _), _) => exact fun hC R hR => h (hc hC) R (hg hC R hR)

theorem Solves.parts {t1 t2 : Ty} (h : Solves armed W C n r)
    (hall : ∀ p, t1.all p = true → t2.all p = true → ∀ c ∈ C, c.All p)
    (hs : ∀ ρ, (∀ c ∈ C, c.Agreed ρ) → Agree ρ t1 t2)
    (hg : t1.core = true → t2.core = true → ∀ R, R.read t1 = R.read t2 → ∀ c ∈ C, c.Unified R) :
    Solves armed W [.unify t1 t2] n r := by
  have hround : ∀ p, (∀ c ∈ [UnifyStep.unify t1 t2], c.All p) → t1.all p = true ∧ t2.all p = true :=
    fun _ hC => hC _ (mem_singleton.mpr rfl)
  refine h.transport (fun _ hC => ?_) (fun hC => ?_) (fun _ _ ρ hA c hc => ?_) fun hC R hU => ?_
  · exact (hround _ hC).elim (hall _)
  · exact (hround _ hC).elim (hall _)
  · rw [mem_singleton] at hc
    subst hc
    exact hs ρ hA
  · exact hg (hround _ hC).1 (hround _ hC).2 R (hU _ (mem_singleton.mpr rfl))

theorem Solves.ne_fuel {m : TypeVar} (h : Solves armed W C n (.error e, m)) : e ≠ .fuel := by
  rintro rfl
  exact h

theorem Solves.of_not_core (h : ¬ CoreSteps C) (he : e ≠ .fuel) (m : Nat) :
    Solves armed W C n (.error e, m) := by
  match e with
  | .fuel => exact he rfl
  | .assertion _ => exact fun hC => absurd hC h
  | .error _ => exact fun hC => absurd hC h

end Spec

/-! ## The calls -/

theorem Ty.plain_of_core {fs : Fields} (h : (record fs).core = true) : Plain fs := by
  simp only [core, all, coreNode, Bool.and_eq_true, all_eq_true] at h
  intro f hf
  simpa using h.1 f hf

theorem captures_of_all {p : Ty → Bool} (hp : ∀ vs t, p (.scheme vs t) = false)
    {σ : TypeVar → Ty} (t : Ty) (h : t.all p = true) : t.captures σ = false := by
  induction t with
  | var | primitive | skolem => rfl
  | tuple ts ih => exact capturesList_eq_false.mpr fun t ht => ih t ht ((IsPart.tuple ht).all p h)
  | record fs ih =>
    exact capturesFields_eq_false.mpr fun f hf => ih f hf ((IsPart.field hf).all p h)
  | variant vs ih =>
    exact capturesCases_eq_false.mpr fun c hc t ht => ih c hc t ht ((IsPart.payload hc ht).all p h)
  | array t ih | reference c t ih | nominal n t ih =>
    rw [Ty.all, Bool.and_eq_true] at h
    exact ih h.2
  | function a b e c iha ihb =>
    rw [captures, iha (IsPart.function.1.all p h), ihb (IsPart.function.2.all p h)]
    rfl
  | actor a b iha ihb =>
    rw [captures, iha (IsPart.actor.1.all p h), ihb (IsPart.actor.2.all p h)]
    rfl
  | app c as ihc ih =>
    rw [captures, ihc (IsPart.app.1.all p h),
      capturesList_eq_false.mpr fun t ht => ih t ht ((IsPart.app.2 t ht).all p h)]
    rfl
  | scheme vs t =>
    rw [Ty.all, hp] at h
    cases h

/-- Where the two sides bind different variables, the loop of `compose_subst` appends. -/
theorem composeLoop_eq (k : Calls) {s2 acc : Substitution} (h2 : s2.dom.Nodup)
    (hd : ∀ v ∈ s2.dom, v ∉ acc.dom) : composeLoop k s2 acc = pure (acc ++ s2) := by
  induction s2 generalizing acc with
  | nil => simp [composeLoop]
  | cons b s2 ih =>
    obtain ⟨v, t⟩ := b
    simp only [dom, map_cons, nodup_cons, mem_cons, forall_eq_or_imp] at h2 hd
    have hl : acc.lookup v = none := lookup_eq_none.mpr hd.1
    rw [composeLoop, hl]
    simp only
    rw [ih h2.2, append_assoc, singleton_append]
    intro w hw hacc
    simp only [dom, map_append, map_cons, map_nil, mem_append, mem_singleton] at hacc
    rcases hacc with hacc | rfl
    · exact hd.2 w hw hacc
    · exact h2.1 hw

section Calls

variable [Blake3] {armed : Hook → Bool}

theorem check_yields (h : Hook) (b : Bool) (n : Nat) :
    Yields (fun f => (calls armed f).check h b) n fun
      | (.ok _, m) => n = m ∧ (armed h = true → b = true)
      | (.error e, _) => e = .assertion h ∧ armed h = true ∧ b = false := by
  by_cases hb : armed h && !b
  · refine .of_eq (r := (.error (.assertion h), n)) (fun f => ?_) ⟨rfl, ?_⟩
    · rw [calls_check, checkHook, if_pos hb]
      rfl
    · simpa using Bool.and_eq_true_iff.mp hb
  · refine .of_eq (r := (.ok (), n)) (fun f => ?_) ⟨rfl, fun ha => ?_⟩
    · rw [calls_check, checkHook, if_neg hb]
      rfl
    · simpa [ha] using hb

theorem apply_yields {s : Substitution} (hs : ∀ b ∈ s, ∀ w ∈ b.2.fv, w ∉ s.dom) (t : Ty) (n : Nat) :
    Yields (fun f => (calls armed f).apply s t) n fun
      | (.ok u, m) => u = t.inst s.toFun ∧ n = m ∧
          (armed .underScheme = true → t.captures s.toFun = false)
      | (.error e, _) => (∃ h, e = .assertion h) ∧ t.core = false := by
  have hrun : ∀ f, 2 ≤ f → ((calls armed f).apply s t).exec n =
      match (checkHook armed .underScheme (!t.captures s.toFun)).exec n with
      | (.ok _, m) => (.ok (t.inst s.toFun), m)
      | (.error e, m) => (.error e, m) := by
    intro f hf
    obtain ⟨f, rfl⟩ : ∃ g, f = g + 2 := ⟨f - 2, by omega⟩
    rw [calls_apply, applyRun, exec_bind, applySubst_eq_inst hs]
    rcases exec (checkHook armed .underScheme (!t.captures s.toFun)) n with ⟨_ | _, m⟩
    · rfl
    · rfl
  refine ⟨_, ⟨2, hrun⟩, ?_⟩
  unfold checkHook
  by_cases hb : armed .underScheme && !!t.captures s.toFun
  · rw [if_pos hb]
    refine ⟨⟨_, rfl⟩, ?_⟩
    cases hc : t.core with
    | false => rfl
    | true => exact absurd hb (by simp [captures_of_all (fun _ _ => rfl) t hc])
  · rw [if_neg hb]
    exact ⟨rfl, rfl, fun ha => by simpa [ha] using hb⟩

theorem applyBindings_yields {s2 : Substitution} (h2 : s2.Resolved) (s1 : Substitution) (n : Nat) :
    Yields (fun f => applyBindings (calls armed f) s2 s1) n fun
      | (.ok s, m) => s = s1.map (fun b => (b.1, b.2.inst s2.toFun)) ∧ n = m ∧
          (armed .underScheme = true → ∀ b ∈ s1, b.2.captures s2.toFun = false)
      | (.error e, _) => (∃ h, e = .assertion h) ∧ ∃ b ∈ s1, b.2.core = false := by
  induction s1 with
  | nil => exact .of_eq (fun _ => rfl) (by simp)
  | cons b s1 ih =>
    obtain ⟨v, t⟩ := b
    refine (apply_yields h2.fresh t n).bind (fun e m h => ⟨h.1, _, mem_cons_self, h.2⟩) ?_
    rintro u m ⟨rfl, rfl, ht⟩
    refine ih.bind (fun e m h => ?_) ?_
    · obtain ⟨he, b, hb, hc⟩ := h
      exact ⟨he, b, mem_cons_of_mem _ hb, hc⟩
    · rintro s m ⟨rfl, rfl, hs⟩
      refine .of_eq (fun _ => rfl) ⟨rfl, rfl, fun ha => ?_⟩
      exact forall_mem_cons.mpr ⟨ht ha, hs ha⟩

theorem compose_yields (hstale : armed .stale = true) {s1 s2 : Substitution}
    (h2 : s2.Resolved) (n : Nat) :
    Yields (fun f => (calls armed f).compose s2 s1) n fun
      | (.ok s, m) => (∀ w, s2.Mentions w → w ∉ s1.dom) ∧ s = s2.after s1 ∧ n = m ∧
          (armed .underScheme = true → ∀ b ∈ s1, b.2.captures s2.toFun = false)
      | (.error e, _) => (∃ h, e = .assertion h) ∧
          ((∃ w, s2.Mentions w ∧ w ∈ s1.dom) ∨ ∃ b ∈ s1, b.2.core = false) := by
  refine .succ (x := fun f => composeBody (calls armed f) s2 s1) ?_ fun f => rfl
  refine (check_yields .stale (s2.resolvedAgainst s1) n).bind ?_ ?_
  · rintro e m ⟨rfl, -, hb⟩
    refine ⟨⟨_, rfl⟩, .inl ?_⟩
    by_contra hno
    have : s2.resolvedAgainst s1 = true :=
      resolvedAgainst_iff.mpr fun w hw hd => hno ⟨w, hw, hd⟩
    rw [this] at hb
    exact absurd hb (by simp)
  · rintro _ m ⟨rfl, hb⟩
    have hd := resolvedAgainst_iff.mp (hb hstale)
    refine (applyBindings_yields h2 s1 _).bind (fun e m h => ⟨h.1, .inr h.2⟩) ?_
    rintro s m ⟨rfl, rfl, hs⟩
    refine .of_eq (r := (.ok (s2.after s1), _)) (fun f => ?_) ⟨hd, rfl, rfl, hs⟩
    rw [composeLoop_eq _ h2.nodup]
    · rfl
    · intro v hv hacc
      have : (s1.map fun b => (b.1, b.2.inst s2.toFun)).map Prod.fst = s1.dom := by
        rw [map_map]
        rfl
      rw [dom, this] at hacc
      exact hd v (.inl hv) hacc

end Calls

namespace Reading.Models

variable {R : Reading} {s s1 s2 : Substitution}

theorem read_toFun (h : R.Models s) (v : TypeVar) : R.read (s.toFun v) = R.norm (R.val v) := by
  cases hl : s.lookup v with
  | none =>
    rw [toFun_of_notMem (lookup_eq_none.mp hl)]
    rfl
  | some u =>
    rw [toFun, hl, Option.getD_some]
    exact (h _ (SortByKey.mem_of_lookup hl)).symm

/-- A model does not notice that the substitution was applied to a core type. -/
theorem read_apply (h : R.Models s) (t : Ty) (ht : t.core = true) :
    R.read (t.inst s.toFun) = R.read t := by
  induction t with
  | var v => exact h.read_toFun v
  | primitive => rfl
  | tuple ts ih =>
    simp only [inst, instList_eq, R.read_tuple, map_map, tuple.injEq]
    exact map_congr_left fun t hmem => ih t hmem ((IsPart.tuple hmem).all _ ht)
  | record fs ih =>
    have hplain := plain_of_core ht
    have hplain' : Plain (instFields fs s.toFun) := by
      intro f hf
      rw [instFields_eq] at hf
      obtain ⟨g, hg, rfl⟩ := mem_map.mp hf
      exact hplain g hg
    rw [inst, R.read_record hplain', R.read_record hplain, instFields_eq, R.order_map,
      map_map, Prod.map_comp_map, Function.id_comp]
    refine congrArg _ (map_fields_congr fun f hf => ?_)
    rw [R.mem_order] at hf
    exact ih f hf ((IsPart.field hf).all _ ht)
  | array t ih | reference c t ih =>
    simp only [Ty.core, Ty.all, Bool.and_eq_true] at ht
    simp only [inst, R.read_array, R.read_reference, ih ht.2]
  | function p r e c ihp ihr =>
    simp only [inst, R.read_function, ihp (IsPart.function.1.all _ ht),
      ihr (IsPart.function.2.all _ ht)]
  | skolem | variant | actor | app | scheme | nominal => simp [Ty.core, Ty.all, Ty.coreNode] at ht

theorem after (h1 : R.Models s1) (hcore : ∀ b ∈ s1, b.2.core = true) (h2 : R.Models s2) :
    R.Models (s2.after s1) := by
  intro b hb
  rcases mem_after hb with ⟨a, ha, rfl⟩ | hb
  · rw [h2.read_apply a.2 (hcore a ha)]
    exact h1 a ha
  · exact h2 b hb

end Reading.Models

/-! ## Composing solutions -/

section Compose

variable {armed : Hook → Bool} {W W' : Finset TypeVar} {C C' C'' : List UnifyStep}
  {n l m : Nat} {s s1 s2 : Substitution}

variable {w : Nat}

theorem Fits.lt_of_mentions (h : Fits W n s m) (hW : ∀ v : Nat, v ∈ W → v < n) (hw : s.Mentions w) :
    w < m := by
  rcases h.bounded w hw with hw | hw
  · exact lt_of_lt_of_le (hW w hw) h.le
  · exact hw.2

/-- A later solution over variables the earlier one does not bind mentions none of those it
binds. -/
theorem Solution.mentions_notMem (h1 : Solution armed W C n s1 l) (h2 : Solution armed W' C' l s2 m)
    (hW : ∀ v : Nat, v ∈ W → v < n) (hW' : ∀ w ∈ W', w ∉ s1.dom) :
    ∀ w : Nat, s2.Mentions w → w ∉ s1.dom := by
  intro w hw hd
  rcases h2.bounded w hw with hw | hw
  · exact hW' w hw hd
  · have hlt : w < l := h1.lt_of_mentions hW (.inl hd)
    omega

/-- A solution that binds a variable leaves fewer variables than it found. -/
theorem Solution.card_lt (h : Solution armed W C n s m) (hs : s ≠ []) {U : Finset TypeVar}
    (hU : ∀ w : Nat, w ∈ U → w ∉ s.dom ∧ (w ∈ W ∨ n ≤ w ∧ w < m)) : U.card < W.card := by
  have hdisj : Disjoint U s.dom.toFinset := by
    rw [Finset.disjoint_left]
    intro w hw hd
    exact (hU w hw).1 (mem_toFinset.mp hd)
  have hsub : U ∪ s.dom.toFinset ⊆ W ∪ Finset.Ico n m := by
    intro w hw
    rw [Finset.mem_union, Finset.mem_Ico]
    rcases Finset.mem_union.mp hw with hw | hw
    · exact (hU w hw).2
    · exact h.bounded w (.inl (mem_toFinset.mp hw))
  have hcard : U.card + s.length ≤ W.card + (m - n) := by
    calc U.card + s.length = U.card + s.dom.toFinset.card := by
          rw [toFinset_card_of_nodup h.resolved.nodup, dom, length_map]
      _ = (U ∪ s.dom.toFinset).card := (Finset.card_union_of_disjoint hdisj).symm
      _ ≤ (W ∪ Finset.Ico n m).card := Finset.card_le_card hsub
      _ ≤ W.card + (Finset.Ico n m).card := Finset.card_union_le _ _
      _ = W.card + (m - n) := by rw [Nat.card_Ico]
  have hle := h.le
  rcases h.fresh with ⟨hnil, _⟩ | hfresh
  · exact absurd hnil hs
  · omega

theorem Fits.compose (h1 : Fits W n s1 l) (h2 : Fits W' l s2 m)
    (hd : ∀ w, s2.Mentions w → w ∉ s1.dom) (hW : ∀ w : Nat, w ∈ W' → w ∈ W ∨ n ≤ w ∧ w < l) :
    Fits W n (s2.after s1) m := by
  have hle1 := h1.le
  have hle2 := h2.le
  refine ⟨by omega, resolved_after h1.resolved h2.resolved hd, fun w hw => ?_⟩
  rcases mentions_after h2.resolved hw with hw | hw
  · exact (h1.bounded w hw).imp id fun h => ⟨h.1, by omega⟩
  · rcases h2.bounded w hw with hw | hw
    · exact (hW w hw).imp id fun h => ⟨h.1, by omega⟩
    · exact .inr ⟨by omega, hw.2⟩

/-- Solutions compose: `s1` solves `C`, `s2` solves rounds `C'` that mean, under `s1`, the same as
`C''`. -/
theorem Solution.compose (h1 : Solution armed W C n s1 l) (h2 : Solution armed W' C' l s2 m)
    (hd : ∀ w, s2.Mentions w → w ∉ s1.dom) (hW : ∀ w : Nat, w ∈ W' → w ∈ W ∨ n ≤ w ∧ w < l)
    (hclear : armed .underScheme = true → ∀ b ∈ s1, b.2.captures s2.toFun = false)
    (hn : ∀ x, LackSteps x C'' → (∀ b ∈ s1, b.2.lacks x = true) → LackSteps x C')
    (hc : CoreSteps C'' → (∀ b ∈ s1, b.2.core = true) → CoreSteps C')
    (hs : (∀ h, armed h = true) → ∀ ρ, Models ρ s1 → (∀ c ∈ C', c.Agreed ρ) → ∀ c ∈ C'', c.Agreed ρ)
    (hg : CoreSteps C'' → ∀ R : Reading, R.Models s1 → (∀ c ∈ C'', c.Unified R) →
      ∀ c ∈ C', c.Unified R) :
    Solution armed W (C ++ C'') n (s2.after s1) m := by
  constructor
  · exact h1.toFits.compose h2.toFits hd hW
  · rw [length_after]
    -- A run that binds nothing allocates nothing, so the counts of the two runs add up.
    rcases h1.fresh with ⟨rfl, rfl⟩ | h1f
    · rcases h2.fresh with ⟨rfl, rfl⟩ | h2f
      · exact .inl ⟨rfl, rfl⟩
      · exact .inr (by simpa using h2f)
    · rcases h2.fresh with ⟨rfl, rfl⟩ | h2f
      · exact .inr (by simpa using h1f)
      · exact .inr (by omega)
  · intro x hC
    have hs1 := h1.lacks x fun c hc => hC c (mem_append_left _ hc)
    have hs2 := h2.lacks x (hn x (fun c hc => hC c (mem_append_right _ hc)) hs1)
    exact all_after (nodewise_admits x) hs1 hs2
  · intro hC
    have hs1 := h1.core fun c hc => hC c (mem_append_left _ hc)
    have hs2 := h2.core (hc (fun c hc => hC c (mem_append_right _ hc)) hs1)
    exact all_after nodewise_core hs1 hs2
  · intro ha hC ρ hρ c hmem
    obtain ⟨hρ1, hρ2⟩ := (models_after (hclear (ha .underScheme))).mp hρ
    have hC1 : LackSteps .never C := fun c hc => hC c (mem_append_left _ hc)
    have hC2 := hn .never (fun c hc => hC c (mem_append_right _ hc)) (h1.lacks .never hC1)
    rcases mem_append.mp hmem with hmem | hmem
    · exact h1.sound ha hC1 ρ hρ1 c hmem
    · exact hs ha ρ hρ1 (h2.sound ha hC2 ρ hρ2) c hmem
  · intro hC R hR
    have hC1 : CoreSteps C := fun c hc => hC c (mem_append_left _ hc)
    have hC2 : CoreSteps C'' := fun c hc => hC c (mem_append_right _ hc)
    have hcore := h1.core hC1
    have hR1 := h1.general hC1 R fun c hc => hR c (mem_append_left _ hc)
    have hR2 := h2.general (hc hC2 hcore) R (hg hC2 R hR1 fun c hc => hR c (mem_append_right _ hc))
    exact hR1.after hcore hR2

theorem Fits.mem_fv_apply (h : Fits W n s l) {t : Ty} (ht : t.fv ⊆ W)
    (hw : w ∈ (t.inst s.toFun).fv) :
    w ∉ s.dom ∧ (w ∈ W ∨ n ≤ w ∧ w < l) := by
  obtain ⟨hd, hw | hw⟩ := Substitution.mem_fv_apply h.resolved hw
  · exact ⟨hd, .inl (ht hw)⟩
  · exact ⟨hd, h.bounded w hw⟩

/-- What solving the substituted rounds adds to the solution so far. -/
theorem Solution.rounds (h : Solution armed W C n s l)
    (h2 : Solution armed W' (C''.map (UnifyStep.inst s)) l s2 m)
    (hd : ∀ w, s2.Mentions w → w ∉ s.dom) (hW : ∀ w : Nat, w ∈ W' → w ∈ W ∨ n ≤ w ∧ w < l)
    (hclear : armed .underScheme = true → ∀ b ∈ s, b.2.captures s2.toFun = false)
    (hclears : armed .underScheme = true → ∀ c ∈ C'', c.Clear s) :
    Solution armed W (C ++ C'') n (s2.after s) m := by
  have hall : ∀ p, Nodewise p → (∀ c ∈ C'', c.All p) → (∀ b ∈ s, b.2.all p = true) →
      ∀ c ∈ C''.map (UnifyStep.inst s), c.All p := by
    intro p hp hC hs
    refine forall_mem_map.mpr fun c hc => ?_
    have hall := hC c hc
    cases c with
    | unify a b => exact ⟨all_apply hp hs hall.1, all_apply hp hs hall.2⟩
    | skip | fail => trivial
  refine h.compose h2 hd hW hclear (fun x => hall _ (nodewise_admits x))
    (hall _ nodewise_core) ?_ ?_
  · intro harm ρ hρ hA c hc
    have hagreed := hA _ (mem_map_of_mem hc)
    have hc := hclears (harm .underScheme) c hc
    cases c with
    | unify a b =>
      simp only [UnifyStep.inst, UnifyStep.Agreed, Agree] at hagreed ⊢
      rwa [hρ.read_apply hc.1, hρ.read_apply hc.2] at hagreed
    | skip | fail => exact hagreed
  · intro hC R hR hU
    refine forall_mem_map.mpr fun c hc => ?_
    have hunified := hU c hc
    have hcore := hC c hc
    cases c with
    | unify a b =>
      simp only [UnifyStep.inst, UnifyStep.Unified] at hunified ⊢
      rwa [hR.read_apply a hcore.1, hR.read_apply b hcore.2]
    | skip | fail => exact hunified

end Compose

section Loop

variable [Blake3] (armed : Hook → Bool)

/-- One call of `mgu` ends, and what it ends in solves its one round. -/
def Settles (t1 t2 : Ty) : Prop :=
  ∀ n : Nat, (∀ v : Nat, v ∈ t1.fv ∪ t2.fv → v < n) →
    Yields (fun f => (calls armed f).mgu t1 t2) n
      (Solves armed (t1.fv ∪ t2.fv) [.unify t1 t2] n)

variable {armed} {W : Finset TypeVar} {C : List UnifyStep} {n l : Nat} {s : Substitution}

/-- The loop of every structural case, from any solution of the rounds before it. -/
theorem unifySteps_yields (hstale : armed .stale = true) (hW : ∀ v : Nat, v ∈ W → v < n)
    (hsmall : ∀ a b, (a.fv ∪ b.fv).card < W.card → Settles armed a b) {steps : List UnifyStep}
    (hsteps : ∀ a b, .unify a b ∈ steps → a.fv ⊆ W ∧ b.fv ⊆ W ∧ Settles armed a b)
    (h : Solution armed W C n s l) :
    Yields (fun f => unifySteps (calls armed f) steps s) l (Solves armed W (C ++ steps) n) := by
  -- On the rounds that are left; `C` collects those that are behind.
  induction steps generalizing C s l with
  | nil =>
    refine .of_eq (r := (.ok s, l)) (fun _ => rfl) ?_
    rw [append_nil]
    exact h
  | cons step steps ih =>
    have ih' := fun {C s l} => @ih C s l fun a b hab => hsteps a b (mem_cons_of_mem _ hab)
    cases step with
    | fail e =>
      refine .of_eq (r := (.error (.error e), l)) (fun _ => rfl) fun _ R hR => ?_
      exact hR (.fail e) (by simp)
    | skip =>
      have hskip : Solution armed W (C ++ [.skip]) n s l := by
        refine h.transport ?_ ?_ ?_ ?_
        · exact fun _ hC c hc => hC c (mem_append_left _ hc)
        · exact fun hC c hc => hC c (mem_append_left _ hc)
        · intro _ _ ρ hC c hc
          rcases mem_append.mp hc with hc | hc
          · exact hC c hc
          · rw [mem_singleton.mp hc]
            trivial
        · exact fun _ R hC c hc => hC c (mem_append_left _ hc)
      have := ih' hskip
      rw [append_assoc, singleton_append] at this
      exact this
    | unify a b =>
      obtain ⟨ha, hb, hab⟩ := hsteps a b mem_cons_self
      have hmem : UnifyStep.unify a b ∈ C ++ .unify a b :: steps := by simp
      refine (apply_yields h.resolved.fresh a l).bind ?_ ?_
      · rintro e m ⟨⟨h, rfl⟩, hcore⟩ hC
        exact absurd (hC _ hmem).1 (by rw [← Ty.core, hcore]; simp)
      rintro _ _ ⟨rfl, rfl, hca⟩
      refine (apply_yields h.resolved.fresh b _).bind ?_ ?_
      · rintro e m ⟨⟨h, rfl⟩, hcore⟩ hC
        exact absurd (hC _ hmem).2 (by rw [← Ty.core, hcore]; simp)
      rintro _ _ ⟨rfl, rfl, hcb⟩
      have hfv : ∀ w : Nat, w ∈ (a.inst s.toFun).fv ∪ (b.inst s.toFun).fv →
          w ∉ s.dom ∧ (w ∈ W ∨ n ≤ w ∧ w < l) := by
        intro w hw
        rcases Finset.mem_union.mp hw with hw | hw
        · exact h.mem_fv_apply ha hw
        · exact h.mem_fv_apply hb hw
      -- A round of the loop may be larger than what was given, since `s` is applied first. But once
      -- `s` binds a variable there are fewer of them, and `hsmall` applies.
      have hsettles : Settles armed (a.inst s.toFun) (b.inst s.toFun) := by
        by_cases hs : s = []
        · subst hs
          have hid : ∀ t : Ty, t.inst (toFun []) = t := fun t => inst_var t
          rwa [hid, hid]
        · exact hsmall _ _ (h.card_lt hs hfv)
      refine (hsettles l fun v hv => ?_).bind ?_ ?_
      · rcases (hfv v hv).2 with hv | hv
        · exact lt_of_lt_of_le (hW v hv) h.le
        · exact hv.2
      · intro e m hr
        -- The pair fails under the substitution so far, and every unifier of the rounds so far
        -- is a model of that substitution.
        have hcore : CoreSteps (C ++ .unify a b :: steps) →
            CoreSteps [.unify (a.inst s.toFun) (b.inst s.toFun)] := by
          intro hC c hc
          rw [mem_singleton] at hc
          subst hc
          have hs := h.core fun c hc => hC c (mem_append_left _ hc)
          exact ⟨all_apply nodewise_core hs (hC _ hmem).1, all_apply nodewise_core hs (hC _ hmem).2⟩
        have hunified : CoreSteps (C ++ .unify a b :: steps) → ∀ R : Reading,
            (∀ c ∈ C ++ .unify a b :: steps, c.Unified R) →
            ∀ c ∈ [UnifyStep.unify (a.inst s.toFun) (b.inst s.toFun)], c.Unified R := by
          intro hC R hR c hc
          rw [mem_singleton] at hc
          subst hc
          have hmodel := h.general (fun c hc => hC c (mem_append_left _ hc)) R
            fun c hc => hR c (mem_append_left _ hc)
          have hab : R.read a = R.read b := hR _ hmem
          simp only [UnifyStep.Unified]
          rw [hmodel.read_apply a (hC _ hmem).1, hmodel.read_apply b (hC _ hmem).2, hab]
        match e with
        | .fuel => exact hr
        | .assertion _ => exact fun hC R hR => hr (hcore hC) R (hunified hC R hR)
        | .error _ => exact fun hC R hR => hr (hcore hC) R (hunified hC R hR)
      · intro s2 m h2
        have hd := h.mentions_notMem h2 hW fun w hw => (hfv w hw).1
        refine (compose_yields hstale h2.resolved m).bind ?_ ?_
        · rintro e m' ⟨⟨hk, rfl⟩, ⟨w, hw, hdom⟩ | ⟨b', hb', hcore⟩⟩
          · exact absurd hdom (hd w hw)
          · intro hC
            have := h.core (fun c hc => hC c (mem_append_left _ hc)) b' hb'
            rw [hcore] at this
            exact absurd this (by simp)
        · rintro _ _ ⟨_, rfl, rfl, hclear⟩
          have hstep : Solution armed W (C ++ [.unify a b]) n (s2.after s) m :=
            h.rounds h2 hd (fun w hw => (hfv w hw).2) hclear
              fun ha => forall_mem_singleton.mpr ⟨hca ha, hcb ha⟩
          have := ih' hstep
          rw [append_assoc, singleton_append] at this
          exact this

end Loop

end Nulang

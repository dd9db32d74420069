import Nulang.Unify

/-!
# Comparing runs of the unifier

A run with checks armed that meets none of them is the program's run, and a run that does not ask
for more fuel is the run with any larger amount. Both are one fact: every body is monotone in what
it calls (`mguBody_below`, `composeBody_below`), so tying the knot is monotone in the fuel and
antitone in the armed hooks (`calls_below`).

The lemmas follow the bodies of `Unify` one by one and have one shape: a body that makes its calls
through `k` is below the same body through `k'`, if `k` is below `k'`. Nothing here says what a run
computes, only that it is the same run; its meaning is the matter of `UnifySpec`.
-/

set_option autoImplicit false

namespace Nulang

open Option
open Run (Below)

/-- The stops that say nothing about a run with more fuel or fewer checks. -/
abbrev Uninformative (e : Stop) : Prop := e.isError = false

/-- One record of calls does what another does, unless it stops for an uninformative reason. -/
structure Calls.Below (k k' : Calls) : Prop where
  mgu : ∀ t1 t2, Run.Below Uninformative (k.mgu t1 t2) (k'.mgu t1 t2)
  compose : ∀ s2 s1, Run.Below Uninformative (k.compose s2 s1) (k'.compose s2 s1)
  apply : ∀ s t, Run.Below Uninformative (k.apply s t) (k'.apply s t)
  check : ∀ h b, Run.Below Uninformative (k.check h b) (k'.check h b)

theorem fuel_below {α : Type} (y : Check α) : Below Uninformative (Run.stop .fuel) y :=
  Below.of_stop (show Uninformative _ from rfl)

theorem assertion_below {α : Type} (h : Hook) (y : Check α) :
    Below Uninformative (Run.stop (.assertion h)) y :=
  Below.of_stop (show Uninformative _ from rfl)

/-! ## The bodies are monotone -/

section Bodies

variable {k k' : Calls} (hk : k.Below k')
include hk

theorem varSubst_below (v : TypeVar) (t : Ty) :
    Below Uninformative (varSubst k v t) (varSubst k' v t) := by
  unfold varSubst
  split
  · exact .refl _
  · refine .ite (.refl _) (.ite (.refl _) ?_)
    exact .bind (hk.check _ _) fun _ => .refl _

/-- The loop of the structural arms, which threads the substitution through its rounds. A stop in
one of the calls of a round is the stop of the loop. -/
theorem unifySteps_below (steps : List UnifyStep) (subst : Substitution) :
    Below Uninformative (unifySteps k steps subst) (unifySteps k' steps subst) := by
  induction steps generalizing subst with
  | nil => exact .refl _
  | cons step steps ih =>
    cases step with
    | fail e => exact .refl _
    | skip => exact ih subst
    | unify a b =>
      refine .bind (hk.apply _ _) fun a' => .bind (hk.apply _ _) fun b' => ?_
      exact .bind (hk.mgu _ _) fun s => .bind (hk.compose _ _) fun subst' => ih subst'

theorem unifyManyApp_below (ts1 ts2 : List Ty) :
    Below Uninformative (unifyManyApp k ts1 ts2) (unifyManyApp k' ts1 ts2) :=
  .ite (.refl _) (unifySteps_below hk _ _)

theorem applyFields_below (subst : Substitution) (fs : Fields) :
    Below Uninformative (applyFields k subst fs) (applyFields k' subst fs) := by
  induction fs with
  | nil => exact .refl _
  | cons f fs ih =>
    obtain ⟨n, t⟩ := f
    exact .bind (hk.apply _ _) fun t' => .bind ih fun fs' => .refl _

theorem bindRow_below (r : TypeVar) (t : Ty) (subst : Substitution) :
    Below Uninformative (bindRow k r t subst) (bindRow k' r t subst) :=
  .bind (hk.mgu _ _) fun _ => hk.compose _ _

theorem unifyOpenRecords_below (fields1 : Fields) (tail1 : Option Ty) (fields2 : Fields)
    (tail2 : Option Ty) :
    Below Uninformative (unifyOpenRecords k fields1 tail1 fields2 tail2)
      (unifyOpenRecords k' fields1 tail1 fields2 tail2) := by
  refine .bind (hk.check _ _) fun _ => .bind (unifySteps_below hk _ _) fun subst => ?_
  refine .bind (applyFields_below hk _ _) fun extras1 => ?_
  refine .bind (applyFields_below hk _ _) fun extras2 => ?_
  split
  · refine .ite (.refl _) (.bind (.refl _) fun freshRow => ?_)
    exact .bind (bindRow_below hk _ _ _) fun subst' => bindRow_below hk _ _ _
  · split
    · exact .refl _
    · exact bindRow_below hk _ _ _
  · split
    · exact .refl _
    · exact bindRow_below hk _ _ _
  · exact .refl _

theorem unifyActorProtocol_below (advertised required : Ty) :
    Below Uninformative (unifyActorProtocol k advertised required)
      (unifyActorProtocol k' advertised required) := by
  unfold unifyActorProtocol
  split
  · exact unifySteps_below hk _ _
  · exact .refl _
  · exact .refl _

theorem unifyRecursiveApps_below (args : List Ty) (inner : List (List Ty)) (subst : Substitution) :
    Below Uninformative (unifyRecursiveApps k args inner subst)
      (unifyRecursiveApps k' args inner subst) := by
  induction inner generalizing subst with
  | nil => exact .refl _
  | cons ts inner ih =>
    refine .bind (unifyManyApp_below hk _ _) fun s => ?_
    exact .bind (hk.compose _ _) fun subst' => ih subst'

theorem unifyVariantApp_below (vs : Cases) (v : TypeVar) (args : List Ty) :
    Below Uninformative (unifyVariantApp k vs v args) (unifyVariantApp k' vs v args) :=
  .bind (hk.check _ _) fun _ => unifyRecursiveApps_below hk _ _ _

theorem mapM_apply_below (s : Substitution) (ts : List Ty) :
    Below Uninformative (ts.mapM (k.apply s)) (ts.mapM (k'.apply s)) := by
  induction ts with
  | nil => exact .refl _
  | cons t ts ih =>
    rw [List.mapM_cons, List.mapM_cons]
    exact .bind (hk.apply _ _) fun t' => .bind ih fun ts' => .refl _

/-- The arms of `mgu` one by one. The arms that only compare do not call at all. -/
theorem mguShape_below (t1 t2 : Ty) :
    Below Uninformative (mguShape k t1 t2) (mguShape k' t1 t2) := by
  unfold mguShape
  split
  · exact varSubst_below hk _ _
  · exact varSubst_below hk _ _
  · refine .ite (.refl _) (.ite (.refl _) (.bind (hk.mgu _ _) fun s1 => ?_))
    refine .bind (hk.apply _ _) fun r1' => .bind (hk.apply _ _) fun r2' => ?_
    exact .bind (hk.mgu _ _) fun s2 => hk.compose _ _
  · exact .ite (hk.mgu _ _) (.refl _)
  · exact .refl _
  · exact .refl _
  · exact .ite (.refl _) (.ite (.refl _) (unifySteps_below hk _ _))
  · dsimp only
    split
    · exact .ite (.refl _) (unifySteps_below hk _ _)
    · exact unifyOpenRecords_below hk _ _ _ _
  · exact hk.mgu _ _
  · refine .bind (hk.mgu _ _) fun sState => ?_
    refine .bind (hk.apply _ _) fun b1' => .bind (hk.apply _ _) fun b2' => ?_
    exact .bind (hk.mgu _ _) fun sBeh => hk.compose _ _
  · exact .ite (.refl _) (hk.mgu _ _)
  · refine .bind (hk.mgu _ _) fun s1 => ?_
    refine .bind (mapM_apply_below hk _ _) fun a1' => .bind (mapM_apply_below hk _ _) fun a2' => ?_
    exact .bind (unifyManyApp_below hk _ _) fun s2 => hk.compose _ _
  · exact unifyVariantApp_below hk _ _ _
  · exact unifyVariantApp_below hk _ _ _
  · exact .ite (.refl _) (unifySteps_below hk _ _)
  · exact .refl _

theorem mguBody_below [Blake3] (t1 t2 : Ty) :
    Below Uninformative (mguBody k t1 t2) (mguBody k' t1 t2) := by
  unfold mguBody
  refine .ite (.refl _) ?_
  split
  · exact .bind (hk.check _ _) fun _ => unifyActorProtocol_below hk _ _
  · refine .ite (.refl _) (.ite ?_ (mguShape_below hk _ _))
    exact .bind (hk.check _ _) fun _ => .refl _

theorem applyBindings_below (s2 s1 : Substitution) :
    Below Uninformative (applyBindings k s2 s1) (applyBindings k' s2 s1) := by
  induction s1 with
  | nil => exact .refl _
  | cons b s1 ih =>
    obtain ⟨v, t⟩ := b
    exact .bind (hk.apply _ _) fun t' => .bind ih fun s1' => .refl _

theorem composeLoop_below (s2 acc : Substitution) :
    Below Uninformative (composeLoop k s2 acc) (composeLoop k' s2 acc) := by
  induction s2 generalizing acc with
  | nil => exact .refl _
  | cons b s2 ih =>
    obtain ⟨v, t⟩ := b
    unfold composeLoop
    split
    · exact ih _
    · refine .bind (.recover (fun e he => he) (hk.mgu _ _)) fun o => ?_
      split
      · exact .bind (hk.apply _ _) fun u => .bind (hk.compose _ _) fun acc' => ih acc'
      · exact ih _

/-- Composition calls back into `mgu` where both sides bind a variable, so it is compared with
it. -/
theorem composeBody_below (s2 s1 : Substitution) :
    Below Uninformative (composeBody k s2 s1) (composeBody k' s2 s1) :=
  .bind (hk.check _ _) fun _ => .bind (applyBindings_below hk _ _) fun _ =>
    composeLoop_below hk _ _

end Bodies

/-! ## Tying the knot is monotone -/

namespace Ty

section Mono

variable {rec rec' : Substitution → Ty → Option Ty}

variable {s : Substitution}

theorem applyWithList_mono {ts us : List Ty}
    (ih : ∀ t ∈ ts, ∀ u, applyWith rec t s = some u → applyWith rec' t s = some u)
    (h : applyWithList rec ts s = some us) : applyWithList rec' ts s = some us := by
  induction ts generalizing us with
  | nil => exact h
  | cons t ts iht =>
    rw [List.forall_mem_cons] at ih
    simp only [applyWithList, bind_eq_some_iff, map_eq_some_iff] at h ⊢
    obtain ⟨t', ht', ts', hts', rfl⟩ := h
    exact ⟨t', ih.1 t' ht', ts', iht ih.2 hts', rfl⟩

theorem applyWithFields_mono {fs gs : Fields}
    (ih : ∀ f ∈ fs, ∀ u, applyWith rec f.2 s = some u → applyWith rec' f.2 s = some u)
    (h : applyWithFields rec fs s = some gs) : applyWithFields rec' fs s = some gs := by
  induction fs generalizing gs with
  | nil => exact h
  | cons f fs iht =>
    obtain ⟨n, t⟩ := f
    rw [List.forall_mem_cons] at ih
    simp only [applyWithFields, bind_eq_some_iff, map_eq_some_iff] at h ⊢
    obtain ⟨t', ht', fs', hfs', rfl⟩ := h
    exact ⟨t', ih.1 t' ht', fs', iht ih.2 hfs', rfl⟩

theorem applyWithCases_mono {vs ws : Cases}
    (ih : ∀ c ∈ vs, ∀ t ∈ c.2, ∀ u, applyWith rec t s = some u → applyWith rec' t s = some u)
    (h : applyWithCases rec vs s = some ws) : applyWithCases rec' vs s = some ws := by
  induction vs generalizing ws with
  | nil => exact h
  | cons c vs iht =>
    rw [List.forall_mem_cons] at ih
    obtain ⟨n, _ | t⟩ := c
    · simp only [applyWithCases, map_eq_some_iff] at h ⊢
      obtain ⟨vs', hvs', rfl⟩ := h
      exact ⟨vs', iht ih.2 hvs', rfl⟩
    · simp only [applyWithCases, bind_eq_some_iff, map_eq_some_iff] at h ⊢
      obtain ⟨t', ht', vs', hvs', rfl⟩ := h
      exact ⟨t', ih.1 t rfl t' ht', vs', iht ih.2 hvs', rfl⟩

/-- `apply_subst` has no checks and no counter. What it returns with some amount of fuel it returns
with any larger amount, also below schemes and inside nominals. -/
theorem applyWith_mono (hrec : ∀ s t u, rec s t = some u → rec' s t = some u) {t u : Ty}
    (h : applyWith rec t s = some u) : applyWith rec' t s = some u := by
  induction t generalizing s u with
  | var v =>
    simp only [applyWith] at h ⊢
    split at h
    · exact hrec _ _ _ h
    · exact h
  | primitive | skolem => exact h
  | tuple ts ih =>
    simp only [applyWith, map_eq_some_iff] at h ⊢
    obtain ⟨ts', hts', rfl⟩ := h
    exact ⟨ts', applyWithList_mono (fun t ht u => ih t ht) hts', rfl⟩
  | record fs ih =>
    simp only [applyWith, map_eq_some_iff] at h ⊢
    obtain ⟨fs', hfs', rfl⟩ := h
    exact ⟨fs', applyWithFields_mono (fun f hf u => ih f hf) hfs', rfl⟩
  | variant vs ih =>
    simp only [applyWith, map_eq_some_iff] at h ⊢
    obtain ⟨vs', hvs', rfl⟩ := h
    exact ⟨vs', applyWithCases_mono (fun c hc t ht u => ih c hc t ht) hvs', rfl⟩
  | array t ih | reference c t ih | scheme vs t ih | nominal n t ih =>
    simp only [applyWith, map_eq_some_iff] at h ⊢
    obtain ⟨t', ht', rfl⟩ := h
    exact ⟨t', ih ht', rfl⟩
  | function p r e c ihp ihr =>
    simp only [applyWith, bind_eq_some_iff, map_eq_some_iff] at h ⊢
    obtain ⟨p', hp', r', hr', rfl⟩ := h
    exact ⟨p', ihp hp', r', ihr hr', rfl⟩
  | actor a b iha ihb =>
    simp only [applyWith, bind_eq_some_iff, map_eq_some_iff] at h ⊢
    obtain ⟨a', ha', b', hb', rfl⟩ := h
    exact ⟨a', iha ha', b', ihb hb', rfl⟩
  | app c as ihc ih =>
    simp only [applyWith, bind_eq_some_iff, map_eq_some_iff] at h ⊢
    obtain ⟨c', hc', as', has', rfl⟩ := h
    exact ⟨c', ihc hc', as', applyWithList_mono (fun t ht u => ih t ht) has', rfl⟩

end Mono

theorem applySubst_mono {f f' : Nat} (hf : f ≤ f') {s : Substitution} {t u : Ty}
    (h : applySubst f s t = some u) : applySubst f' s t = some u := by
  induction f generalizing f' s t u with
  | zero => exact absurd h (by simp [applySubst])
  | succ f ih =>
    obtain ⟨f', rfl⟩ : ∃ g, f' = g + 1 := ⟨f' - 1, by omega⟩
    exact applyWith_mono (fun s t u hu => ih (by omega) hu) h

end Ty

variable {armed armed' : Hook → Bool}

/-- Disarming a check can only turn a stop into a run that goes on. -/
theorem checkHook_below (ha : ∀ h, armed' h = true → armed h = true) (h : Hook) (b : Bool) :
    Below Uninformative (checkHook armed h b) (checkHook armed' h b) := by
  unfold checkHook
  by_cases harmed : armed h && !b
  · rw [if_pos harmed]
    exact assertion_below h _
  · have : ¬ (armed' h && !b) := by
      cases hb : b
      · cases h' : armed' h
        · simp
        · exact absurd (by simp [ha h h', hb]) harmed
      · simp
    rw [if_neg harmed, if_neg this]
    exact .refl _

theorem applyRun_below (ha : ∀ h, armed' h = true → armed h = true) {f f' : Nat} (hf : f ≤ f')
    (s : Substitution) (t : Ty) :
    Below Uninformative (applyRun armed f s t) (applyRun armed' f' s t) := by
  refine .bind (checkHook_below ha _ _) fun _ => ?_
  cases h : Ty.applySubst f s t with
  | none => exact fuel_below _
  | some u =>
    rw [Ty.applySubst_mono hf h]
    exact .refl _

theorem calls_apply [Blake3] (f : Nat) : (calls armed f).apply = applyRun armed f := by
  cases f <;> rfl

theorem calls_check [Blake3] (f : Nat) : (calls armed f).check = checkHook armed := by
  cases f <;> rfl

/-- More fuel and fewer checks change no run that ends for a reason of its own. -/
theorem calls_below [Blake3] (ha : ∀ h, armed' h = true → armed h = true) {f f' : Nat}
    (hf : f ≤ f') :
    (calls armed f).Below (calls armed' f') := by
  induction f generalizing f' with
  | zero =>
    refine ⟨fun _ _ => fuel_below _, fun _ _ => fuel_below _, fun s t => ?_, fun h b => ?_⟩
    · rw [calls_apply, calls_apply]
      exact applyRun_below ha (Nat.zero_le f') s t
    · rw [calls_check, calls_check]
      exact checkHook_below ha h b
  | succ f ih =>
    obtain ⟨f', rfl⟩ : ∃ g, f' = g + 1 := ⟨f' - 1, by omega⟩
    have hk : (calls armed f).Below (calls armed' f') := ih (by omega)
    exact ⟨mguBody_below hk, composeBody_below hk, applyRun_below ha hf, checkHook_below ha⟩

end Nulang

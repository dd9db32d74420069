import Nulang.EffectChecker
import Nulang.Lib.Result

/-!
# What a row contains

One statement about `infer_effects` for every expression form: the row of an expression is what it
adds itself, plus the rows of the sub-expressions the checker walks, less what a `handle` removes.
Everything later about rows goes through `inferEffects_charges`; nothing else unfolds the function.

The parts of an expression, with the names each of them binds and the effects it handles, are data
(`effectParts`). Most of the later files go by parts and not by constructors.
-/

set_option autoImplicit false

namespace Nulang.Ast

open List

/-- A sub-expression the checker walks: the names bound around it, the effects handled around it,
and whether it is walked with no handler at all (an annotated lambda). -/
structure EffectPart where
  expr : Expr
  names : List String := []
  handled : List Effect := []
  reset : Bool := false

namespace EffectPart

def handlers (p : EffectPart) (handlers : List Effect) : List Effect :=
  if p.reset then [] else handlers ++ p.handled

/-- The row of a part, in the scope of the expression it is a part of. -/
def infer (rows : FnRows) (shadowed : List String) (handlers : List Effect) (p : EffectPart) :
    Except EffectError EffectRow :=
  inferEffects rows (shadowed ++ p.names) (p.handlers handlers) p.expr

@[simp] theorem infer_mk {rows : FnRows} {shadowed : List String} {handlers : List Effect}
    {e : Expr} {names : List String} :
    (EffectPart.mk e names [] false).infer rows shadowed handlers =
      inferEffects rows (shadowed ++ names) handlers e := by
  simp [infer, EffectPart.handlers]

end EffectPart

def part (e : Expr) : EffectPart := { expr := e }

@[simp] theorem infer_part {rows : FnRows} {shadowed : List String} {handlers : List Effect}
    {e : Expr} : (part e).infer rows shadowed handlers = inferEffects rows shadowed handlers e := by
  simp [part]

def MatchArm.effectParts : MatchArm → List EffectPart
  | mk pattern guard body =>
      guard.toList.map (fun g => { expr := g, names := pattern.boundVars [] }) ++
        [{ expr := body, names := pattern.boundVars [] }]

def ReceiveArm.effectParts : ReceiveArm → List EffectPart
  | mk _ patterns guard body =>
      { expr := body, names := boundVarsList [] patterns } ::
        guard.toList.map (fun g => { expr := g, names := boundVarsList [] patterns })

def EffectHandler.effectPart (h : EffectHandler) : EffectPart :=
  { expr := h.body, names := h.params }

def handledEffects (arms : List EffectHandler) : List Effect :=
  arms.map fun h => parseEffectName h.effectName

/-- The sub-expressions that contribute to the row of an expression. -/
def Expr.effectParts : Expr → List EffectPart
  | .fString es | .block es | .par es | .tuple es | .array es | .emit _ es | .perform _ _ es =>
      es.map part
  | .lambda params body none => [{ expr := body, names := params.map (·.name) }]
  | .lambda params body (some _) =>
      [{ expr := body, names := params.map (·.name), reset := true }]
  | .app func args => part func :: args.map part
  | .letIn name value body _ _ => [part value, { expr := body, names := [name] }]
  | .letRec name _ value body =>
      [{ expr := value, names := [name] }, { expr := body, names := [name] }]
  | .ifElse cond thenBranch elseBranch =>
      part cond :: part thenBranch :: elseBranch.toList.map part
  | .matchOn scrutinee arms => part scrutinee :: arms.flatMap MatchArm.effectParts
  | .record fields => fields.map fun f => part f.2
  | .recordUpdate base fields => part base :: fields.map fun f => part f.2
  | .fieldAccess e _ | .unary _ e | .capAnnotate e _ | .typeAnnotate e _ | .consume e
  | .recover e | .defer e _ | .hide _ e | .sealExcept _ e | .grainRef _ e => [part e]
  | .index a b | .binary _ a b | .assign a b | .migrate a b | .pipe a b | .whileLoop a b =>
      [part a, part b]
  | .spawn actorType init _ node =>
      part actorType :: init.map (fun f => part f.2) ++ node.toList.map part
  | .send actor _ args _ | .ask actor _ args _ => part actor :: args.map part
  | .receive arms after =>
      arms.flatMap ReceiveArm.effectParts ++ after.toList.flatMap fun a => [part a.1, part a.2]
  | .handle body arms =>
      { expr := body, handled := handledEffects arms } :: arms.map EffectHandler.effectPart
  | .forIn x iterable body => [part iterable, { expr := body, names := [x] }]
  | .ret value => value.toList.map part
  | _ => []

/-- What an expression adds to its row itself. -/
def Expr.ownEffects (rows : FnRows) (shadowed : List String) (handlers : List Effect) :
    Expr → List Effect
  | .app func _ => (calleeRow rows shadowed func).effects
  | .lambda _ _ (some ann) => ann.effects
  | .binary op _ _ => op.row.effects
  | .spawn _ _ _ _ => [.spawn]
  | .send _ _ _ _ => [.send]
  | .ask _ _ _ _ => [.send, .receive]
  | .receive _ _ => [.receive]
  | .perform effect _ _ =>
      if handlers.contains (parseEffectName effect) then [] else [parseEffectName effect]
  | .emit _ _ => [.event]
  | .migrate _ _ => [.migrate]
  | _ => []

/-- `row` consists of `own` and of the rows of the parts, less what each part's `handle` removes. -/
structure Charges (rows : FnRows) (shadowed : List String) (handlers : List Effect)
    (own : List Effect) (parts : List EffectPart) (row : EffectRow) : Prop where
  ok : ∀ p ∈ parts, ∃ r, p.infer rows shadowed handlers = .ok r
  mem : ∀ e, e ∈ row.effects ↔ e ∈ own ∨
    ∃ p ∈ parts, ∃ r, p.infer rows shadowed handlers = .ok r ∧ e ∈ r.effects ∧ e ∉ p.handled

section Charges

variable {rows : FnRows} {shadowed : List String} {handlers : List Effect}

namespace Charges

theorem nil (row : EffectRow) : Charges rows shadowed handlers row.effects [] row :=
  ⟨by simp, by simp⟩

variable {p : EffectPart} {row r : EffectRow} {own : List Effect} {parts : List EffectPart}

/-- One more part: what its row has, less what it handles, joins the row so far. -/
theorem snoc (h : Charges rows shadowed handlers own parts row)
    (hp : p.infer rows shadowed handlers = .ok r) (hh : p.handled = []) :
    Charges rows shadowed handlers own (parts ++ [p]) (row.combine r) := by
  constructor
  · intro q hq
    rcases mem_append.mp hq with hq | hq
    · exact h.ok q hq
    · rw [mem_singleton] at hq
      exact ⟨r, by rw [hq]; exact hp⟩
  · intro e
    rw [EffectRow.effects_combine, mem_append, h.mem e, or_assoc]
    refine or_congr Iff.rfl ?_
    constructor
    · rintro (⟨q, hq, hr⟩ | he)
      · exact ⟨q, mem_append_left _ hq, hr⟩
      · exact ⟨p, by simp, r, hp, he, by simp [hh]⟩
    · rintro ⟨q, hq, r', hr', he, hn⟩
      rcases mem_append.mp hq with hq | hq
      · exact .inl ⟨q, hq, r', hr', he, hn⟩
      · rw [mem_singleton] at hq
        subst hq
        rw [hp] at hr'
        cases hr'
        exact .inr he

theorem single (hp : p.infer rows shadowed handlers = .ok r) (hh : p.handled = []) :
    Charges rows shadowed handlers [] [p] r := by
  constructor
  · intro q hq
    rw [mem_singleton] at hq
    exact ⟨r, by rw [hq]; exact hp⟩
  · simp [hp, hh]

variable {e : Expr} {names : List String}

/-- The row of a sub-expression is that of a part, with the names bound around it. -/
theorem bound (h : Charges rows shadowed handlers own parts row)
    (hr : inferEffects rows (shadowed ++ names) handlers e = .ok r) :
    Charges rows shadowed handlers own (parts ++ [⟨e, names, [], false⟩]) (row.combine r) :=
  h.snoc (by simpa using hr) rfl

theorem plain (h : Charges rows shadowed handlers own parts row)
    (hr : inferEffects rows shadowed handlers e = .ok r) :
    Charges rows shadowed handlers own (parts ++ [part e]) (row.combine r) :=
  h.snoc (by simpa using hr) rfl

theorem first (hr : inferEffects rows shadowed handlers e = .ok r) :
    Charges rows shadowed handlers [] [part e] r :=
  .single (by simpa using hr) rfl

theorem firstBound (hr : inferEffects rows (shadowed ++ names) handlers e = .ok r) :
    Charges rows shadowed handlers [] [⟨e, names, [], false⟩] r :=
  .single (by simpa using hr) rfl

theorem addOwn (h : Charges rows shadowed handlers own parts row) :
    Charges rows shadowed handlers (own ++ r.effects) parts (row.combine r) := by
  refine ⟨h.ok, fun e => ?_⟩
  rw [EffectRow.effects_combine, mem_append, mem_append, h.mem e]
  exact or_right_comm

end Charges

variable {row row' : EffectRow} {own : List Effect} {parts : List EffectPart}

theorem charges_list {es : List Expr} (h : Charges rows shadowed handlers own parts row)
    (hi : inferList rows shadowed handlers row es = .ok row') :
    Charges rows shadowed handlers own (parts ++ es.map part) row' := by
  induction es generalizing parts row with
  | nil =>
    cases hi
    simpa using h
  | cons e es ih =>
    simp only [inferList, bind_eq_ok] at hi
    obtain ⟨r, hr, hi⟩ := hi
    simpa using ih (h.plain hr) hi

theorem charges_option (names : List String) {e : Option Expr}
    (h : Charges rows shadowed handlers own parts row)
    (hi : inferOption rows (shadowed ++ names) handlers row e = .ok row') :
    Charges rows shadowed handlers own
      (parts ++ e.toList.map fun e => ⟨e, names, [], false⟩) row' := by
  cases e with
  | none =>
    cases hi
    simpa using h
  | some e =>
    simp only [inferOption, bind_eq_ok, pure, Except.pure, Except.ok.injEq] at hi
    obtain ⟨r, hr, rfl⟩ := hi
    exact h.bound hr

section

variable (h : Charges rows shadowed handlers own parts row)
include h

theorem charges_fields {fs : List (String × Expr)}
    (hi : inferFields rows shadowed handlers row fs = .ok row') :
    Charges rows shadowed handlers own (parts ++ fs.map fun f => part f.2) row' := by
  induction fs generalizing parts row with
  | nil =>
    cases hi
    simpa using h
  | cons f fs ih =>
    simp only [inferFields, bind_eq_ok] at hi
    obtain ⟨r, hr, hi⟩ := hi
    simpa using ih (h.plain hr) hi

theorem charges_arms {arms : List MatchArm}
    (hi : inferArms rows shadowed handlers row arms = .ok row') :
    Charges rows shadowed handlers own (parts ++ arms.flatMap MatchArm.effectParts) row' := by
  induction arms generalizing parts row with
  | nil =>
    cases hi
    simpa using h
  | cons arm arms ih =>
    obtain ⟨pattern, guard, body⟩ := arm
    simp only [inferArms, bind_eq_ok] at hi
    obtain ⟨r₁, hr₁, r₂, hr₂, hi⟩ := hi
    simpa [MatchArm.effectParts] using ih ((charges_option _ h hr₁).bound hr₂) hi

theorem charges_receive {arms : List ReceiveArm}
    (hi : inferReceive rows shadowed handlers row arms = .ok row') :
    Charges rows shadowed handlers own (parts ++ arms.flatMap ReceiveArm.effectParts) row' := by
  induction arms generalizing parts row with
  | nil =>
    cases hi
    simpa using h
  | cons arm arms ih =>
    obtain ⟨name, patterns, guard, body⟩ := arm
    simp only [inferReceive, bind_eq_ok] at hi
    obtain ⟨r₁, hr₁, r₂, hr₂, hi⟩ := hi
    simpa [ReceiveArm.effectParts] using ih (charges_option _ (h.bound hr₁) hr₂) hi

theorem charges_handlers {arms : List EffectHandler}
    (hi : inferHandlers rows shadowed handlers row arms = .ok row') :
    Charges rows shadowed handlers own (parts ++ arms.map EffectHandler.effectPart) row' := by
  induction arms generalizing parts row with
  | nil =>
    cases hi
    simpa using h
  | cons arm arms ih =>
    obtain ⟨effectName, opName, params, body, resume⟩ := arm
    simp only [inferHandlers, bind_eq_ok] at hi
    obtain ⟨r, hr, hi⟩ := hi
    simpa [EffectHandler.effectPart, EffectHandler.body, EffectHandler.params] using ih
      (h.bound hr) hi

end

/-- What removing the handled effects one by one leaves. -/
theorem mem_foldl_remove {handled : List Effect} {e : Effect} :
    e ∈ (handled.foldl EffectRow.remove row).effects ↔ e ∈ row.effects ∧ e ∉ handled := by
  induction handled generalizing row with
  | nil => simp
  | cons x xs ih =>
    rw [foldl_cons, ih]
    simp only [EffectRow.effects_remove, mem_filter, bne_iff_ne, mem_cons, not_or]
    tauto

theorem checkRow_eq_ok {inferred allowed : EffectRow} :
    checkRow inferred allowed = .ok () ↔ ∀ e ∈ inferred.effects, e ∈ allowed.effects := by
  rw [← EffectRow.subset_iff]
  unfold checkRow
  split <;> simp_all

/-- The one place where `infer_effects` is unfolded. Each constructor is charged what it adds itself
and the rows of its parts; the accumulator of the source is a `foldl` over them, which the lemmas
`charges_*` follow. -/
theorem inferEffects_charges {e : Expr} (h : inferEffects rows shadowed handlers e = .ok row) :
    Charges rows shadowed handlers (e.ownEffects rows shadowed handlers) e.effectParts row := by
  cases e <;> simp only [inferEffects, bind_eq_ok, pure, Except.pure, Except.ok.injEq] at h
  case literal | var | selfRef | panic | resume | brk =>
    subst h
    exact .nil .empty
  case fString es | block es | par es | tuple es | array es => exact charges_list (.nil .empty) h
  case emit event es => exact charges_list (.nil (.singleton .event)) h
  case perform effect op es =>
    split at h
    · cases h
    · have hn := charges_list (.nil _) h
      simp only [Expr.ownEffects]
      split <;> simp_all [Expr.effectParts]
  case lambda params body effect =>
    cases effect with
    | none => exact .firstBound h
    -- An annotated closure is charged its annotation, which the check above makes a bound of the
    -- row of the body.
    | some ann =>
      simp only [bind_eq_ok, Except.ok.injEq] at h
      obtain ⟨r, hr, u, hu, rfl⟩ := h
      have hp : (⟨body, params.map (·.name), [], true⟩ : EffectPart).infer rows shadowed handlers =
          .ok r := by simpa [EffectPart.infer, EffectPart.handlers] using hr
      constructor
      · intro p hmem
        simp only [Expr.effectParts, mem_singleton] at hmem
        exact ⟨r, by rw [hmem]; exact hp⟩
      · intro e
        have hsub := checkRow_eq_ok.mp hu e
        simp only [Expr.ownEffects, Expr.effectParts, mem_singleton, exists_eq_left, hp,
          Except.ok.injEq]
        constructor
        · exact .inl
        · rintro (he | ⟨r', rfl, he, -⟩)
          · exact he
          · exact hsub he
  case app func args =>
    obtain ⟨r, hr, r', hr', rfl⟩ := h
    simpa [Expr.ownEffects, Expr.effectParts] using (charges_list (.first hr) hr').addOwn
  case letIn name value body isMut isLetIn =>
    obtain ⟨r, hr, r', hr', rfl⟩ := h
    exact (Charges.first hr).bound hr'
  case letRec name params value body =>
    obtain ⟨r, hr, r', hr', rfl⟩ := h
    exact (Charges.firstBound hr).bound hr'
  case ifElse cond thenBranch elseBranch =>
    obtain ⟨r, hr, r', hr', h⟩ := h
    exact charges_option [] ((Charges.first hr).plain hr') (by simpa using h)
  case matchOn scrutinee arms =>
    obtain ⟨r, hr, h⟩ := h
    exact charges_arms (.first hr) h
  case record fields => exact charges_fields (.nil .empty) h
  case recordUpdate base fields =>
    obtain ⟨r, hr, h⟩ := h
    exact charges_fields (.first hr) h
  case fieldAccess | unary | capAnnotate | typeAnnotate | consume | recover | defer | hide
    | sealExcept | grainRef =>
    exact .first h
  case index a b | assign a b | pipe a b | whileLoop a b =>
    obtain ⟨r, hr, r', hr', rfl⟩ := h
    exact (Charges.first hr).plain hr'
  case binary op a b =>
    obtain ⟨r, hr, r', hr', rfl⟩ := h
    exact ((Charges.first hr).plain hr').addOwn
  case migrate a b =>
    obtain ⟨r, hr, r', hr', rfl⟩ := h
    exact ((Charges.nil (.singleton .migrate)).plain hr).plain hr'
  case spawn actorType init positional node =>
    obtain ⟨r, hr, r', hr', h⟩ := h
    exact charges_option [] (charges_fields ((Charges.nil (.singleton .spawn)).plain hr) hr')
      (by simpa using h)
  case send actor behavior args remote =>
    obtain ⟨r, hr, h⟩ := h
    exact charges_list ((Charges.nil (.singleton .send)).plain hr) h
  case ask actor behavior args remote =>
    obtain ⟨r, hr, h⟩ := h
    exact charges_list
      ((Charges.nil ((EffectRow.singleton .send).combine (.singleton .receive))).plain hr) h
  case receive arms after =>
    obtain ⟨r, hr, h⟩ := h
    have h₁ := charges_receive (.nil (.singleton .receive)) hr
    cases after with
    | none =>
      cases h
      simpa [Expr.effectParts, Expr.ownEffects] using h₁
    | some a =>
      simp only [bind_eq_ok, Except.ok.injEq] at h
      obtain ⟨r₁, hr₁, r₂, hr₂, rfl⟩ := h
      simpa [Expr.effectParts, Expr.ownEffects] using (h₁.plain hr₁).plain hr₂
  case handle body arms =>
    obtain ⟨r, hr, h⟩ := h
    have hp : (⟨body, [], handledEffects arms, false⟩ : EffectPart).infer rows shadowed handlers =
        .ok r := by simpa [EffectPart.infer, EffectPart.handlers, handledEffects] using hr
    -- The arms are charged after their effects are removed: an arm that performs its own effect
    -- counts.
    have h₁ : Charges rows shadowed handlers [] [⟨body, [], handledEffects arms, false⟩]
        ((arms.map fun h => parseEffectName h.effectName).foldl .remove r) :=
      ⟨by simp [hp], fun e => by simp only [mem_foldl_remove, ← handledEffects.eq_def,
        not_mem_nil, mem_singleton, exists_eq_left, hp, Except.ok.injEq, exists_eq_left',
        false_or]⟩
    exact charges_handlers h₁ h
  case forIn x iterable body =>
    obtain ⟨r, hr, r', hr', rfl⟩ := h
    exact (Charges.first hr).bound hr'
  case ret value => exact charges_option [] (.nil .empty) (by simpa using h)

end Charges

end Nulang.Ast

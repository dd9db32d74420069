import Nulang.EffectFixpoint
import Nulang.Walk

/-!
# Effect rows against runs

What a declared row says about the operations a run performs. A run is followed with the rows the
checker infers for the code it is in; handler arms run in the scope of the frame that installed
them, so what an arm may do is carried by the frame (`FramesOk`), not by the code that performs.

The rows miss some of what runs do, at known places: the target of a bare pipe, the value of a
`resume` or a `break`, the arguments and initialisers the lowering copies in, the `Grain.ref` of a
virtual actor reference, and an operation whose effect, but not whose name, is bound by an installed
arm. `Event.Charged` says that an operation is performed at none of these.
-/

set_option autoImplicit false

namespace Nulang.Ast

open Expr List

/-- Places whose code the checker does not charge. -/
def Place.skipsEffects : Place → Bool
  | .breakValue | .resumeValue | .given | .signal | .grain | .pipe => true
  | _ => false

/-- The operation is performed where the checker charges it: at no place it skips, and under no
installed arm of the same effect. -/
def Event.Charged (ev : Event) (effect : String) : Prop :=
  (∀ p ∈ ev.places, p.skipsEffects = false) ∧
    ∀ arm ∈ ev.installed, parseEffectName arm.1 ≠ parseEffectName effect

/-- How the checker meets an operand of an expression: it skips the operand's place, walks the
operand as a part of the expression, or, for the arguments of a piped application, as a part of a
part. -/
inductive Expr.Meets (e : Expr) (op : Operand) : Prop
  | skipped {p : Place} (hp : op.1 = some p) (hs : p.skipsEffects = true)
  | own (h : part op.2 ∈ e.effectParts)
  | within {e' : Expr} (he' : part e' ∈ e.effectParts) (h : part op.2 ∈ e'.effectParts)

namespace Expr.Meets

variable {prog : Program} {e func : Expr} {op : Operand} {es : List Expr}
  {fs : List (String × Expr)}

theorem given (hg : op ∈ prog.given func) : e.Meets op := by
  cases func with
  | var f =>
    obtain ⟨e', -, rfl⟩ := mem_map.mp hg
    exact .skipped rfl rfl
  | _ => cases hg

theorem plains (hes : op ∈ es.map plain) (hparts : ∀ e' ∈ es, part e' ∈ e.effectParts) :
    e.Meets op := by
  obtain ⟨e', he', rfl⟩ := mem_map.mp hes
  exact .own (hparts e' he')

theorem fields (hfs : op ∈ fs.map fun f => plain f.2)
    (hparts : ∀ f ∈ fs, part f.2 ∈ e.effectParts) : e.Meets op := by
  obtain ⟨f, hf, rfl⟩ := mem_map.mp hfs
  exact .own (hparts f hf)

theorem cons_plains {e₁ : Expr} (hop : op ∈ plain e₁ :: es.map plain)
    (hparts : e.effectParts = part e₁ :: es.map part) : e.Meets op := by
  rw [← map_cons] at hop hparts
  exact plains hop fun _ he' => hparts ▸ mem_map_of_mem he'

end Expr.Meets

theorem meets_of_mem_head {prog : Program} {e : Expr} {op : Operand} (hop : op ∈ e.head prog) :
    e.Meets op := by
  cases e with
  | literal | var | lambda | block | par | selfRef | handle | letRec | whileLoop | panic =>
    cases hop
  | fString es | tuple es | array es | emit _ es | perform _ _ es =>
    exact .plains hop fun e' he' => mem_map_of_mem he'
  | app func args =>
    rcases mem_append.mp hop with hop | hop
    · exact .cons_plains hop rfl
    · exact .given hop
  | letIn _ e' | ifElse e' | matchOn e' | fieldAccess e' | unary _ e' | capAnnotate e'
  | typeAnnotate e' | consume e' | recover e' | defer e' | hide _ e' | sealExcept _ e'
  | grainRef _ e' | forIn _ e' =>
    obtain rfl := mem_singleton.mp hop
    exact .own mem_cons_self
  | record fs => exact .fields hop fun f hf => mem_map.mpr ⟨f, hf, rfl⟩
  | recordUpdate base fs =>
    rcases mem_cons.mp hop with rfl | hop
    · exact .own mem_cons_self
    · exact .fields hop fun f hf => mem_cons_of_mem _ (mem_map.mpr ⟨f, hf, rfl⟩)
  | index a b | binary _ a b | migrate a b =>
    rcases mem_cons.mp hop with rfl | hop
    · exact .own mem_cons_self
    · obtain rfl := mem_singleton.mp hop
      exact .own (mem_cons_of_mem _ mem_cons_self)
  | assign target value =>
    cases target <;> simp only [Expr.head, mem_cons, not_mem_nil, or_false] at hop
    case var => subst hop; exact .own (by simp [effectParts, plain])
    all_goals rcases hop with rfl | rfl <;> exact .own (by simp [effectParts, plain])
  | spawn actorType init positional node =>
    rcases mem_append.mp hop with hop | hop
    · refine .fields hop fun f hf => mem_cons_of_mem _ (mem_append_left _ ?_)
      exact mem_map.mpr ⟨f, hf, rfl⟩
    · exact .plains hop fun e' he' => mem_cons_of_mem _ (mem_append_right _ (mem_map_of_mem he'))
  | send actor _ args | ask actor _ args => exact .cons_plains hop rfl
  | receive arms after =>
    cases after with
    | none => cases hop
    | some a =>
      obtain rfl := mem_singleton.mp hop
      exact .own (by simp [effectParts, plain])
  | resume value =>
    obtain rfl := mem_singleton.mp hop
    exact .skipped rfl rfl
  | pipe left right =>
    -- a piped application is walked as an application
    cases right with
    | app func args =>
      have hright : part (.app func args) ∈ (pipe left (.app func args)).effectParts :=
        mem_cons_of_mem _ mem_cons_self
      simp only [Expr.head, cons_append, mem_cons, mem_append] at hop
      rcases hop with rfl | rfl | hop | hop
      · exact .own mem_cons_self
      · exact .within hright mem_cons_self
      · obtain ⟨e', he', rfl⟩ := mem_map.mp hop
        exact .within hright (mem_cons_of_mem _ (mem_map_of_mem he'))
      · exact .given hop
    | _ =>
      simp only [Expr.head, mem_cons] at hop
      rcases hop with rfl | rfl | hop
      · exact .own mem_cons_self
      · exact .own (mem_cons_of_mem _ mem_cons_self)
      · exact .given hop
  | ret value =>
    cases value with
    | none => cases hop
    | some e' =>
      obtain rfl := mem_singleton.mp hop
      exact .own mem_cons_self
  | brk value =>
    cases value with
    | none => cases hop
    | some e' =>
      obtain rfl := mem_singleton.mp hop
      exact .skipped rfl rfl

/-- What is evaluated later is a part that no handler stands around. -/
theorem later_parts {e e' : Expr} (h : e' ∈ e.later) :
    ∃ p ∈ e.effectParts, p.expr = e' ∧ p.handled = [] := by
  cases e with
  | lambda params body effect =>
    obtain rfl := mem_singleton.mp h
    cases effect <;> exact ⟨_, mem_cons_self, rfl, rfl⟩
  | letIn | forIn =>
    obtain rfl := mem_singleton.mp h
    exact ⟨_, mem_cons_of_mem _ mem_cons_self, rfl, rfl⟩
  | letRec | whileLoop =>
    rcases mem_pair.mp h with rfl | rfl
    · exact ⟨_, mem_cons_self, rfl, rfl⟩
    · exact ⟨_, mem_cons_of_mem _ mem_cons_self, rfl, rfl⟩
  | ifElse cond thenBranch elseBranch =>
    exact ⟨part e', mem_cons_of_mem _ (mem_map_of_mem h), rfl, rfl⟩
  | matchOn scrutinee arms =>
    obtain ⟨⟨pattern, guard, body⟩, harm, he⟩ := mem_flatMap.mp h
    refine ⟨⟨e', pattern.boundVars [], [], false⟩,
      mem_cons_of_mem _ (mem_flatMap.mpr ⟨_, harm, ?_⟩), rfl, rfl⟩
    simpa [MatchArm.effectParts, MatchArm.exprs] using he
  | receive arms after =>
    rcases mem_append.mp h with h | h
    · obtain ⟨⟨behavior, patterns, guard, body⟩, harm, he⟩ := mem_flatMap.mp h
      refine ⟨⟨e', boundVarsList [] patterns, [], false⟩,
        mem_append_left _ (mem_flatMap.mpr ⟨_, harm, ?_⟩), rfl, rfl⟩
      simpa [ReceiveArm.effectParts, ReceiveArm.exprs, or_comm] using he
    · obtain ⟨⟨ms, body⟩, ha, rfl⟩ := mem_map.mp h
      obtain rfl := Option.mem_toList.mp ha
      exact ⟨part body, mem_append_right _ (mem_cons_of_mem _ mem_cons_self), rfl, rfl⟩
  | block es | par es => exact ⟨part e', mem_map_of_mem h, rfl, rfl⟩
  | handle body arms =>
    obtain ⟨arm, harm, rfl⟩ := mem_map.mp h
    exact ⟨arm.effectPart, mem_cons_of_mem _ (mem_map_of_mem harm), rfl, rfl⟩
  | defer e errorOnly =>
    obtain rfl := mem_singleton.mp h
    exact ⟨_, mem_cons_self, rfl, rfl⟩
  | _ => cases h

def Expr.makesFunction : Expr → Bool
  | .lambda _ _ _ | .letRec _ _ _ _ => true
  | _ => false

/-- Functions are only called, by their names, and those names are never bound locally: `fns` are
the module's functions, `callable` those and the host's. -/
inductive FirstOrder (fns callable : List String) : Expr → Prop where
  | mk {e : Expr} :
      (∀ x, e = .var x → x ∉ fns) → e.makesFunction = false →
      (∀ func, e.target = some func → ∃ f ∈ callable, func = .var f) →
      (∀ p ∈ e.effectParts, ∀ x ∈ p.names, x ∉ callable) →
      (∀ p ∈ e.effectParts, e.target ≠ some p.expr → FirstOrder fns callable p.expr) →
      FirstOrder fns callable e

/-! ## Code the rows speak about -/

section

variable (rows : FnRows) (prog : Program) (fns callable : List String)

/-- The rows of the functions hold for their bodies. -/
structure RowsHold : Prop where
  body : ∀ f fn, prog.functions.lookup f = some fn →
    ∃ r, inferEffects rows [] [] fn.body = .ok r ∧ (∀ e ∈ r.effects, e ∈ rowOf rows f) ∧
      FirstOrder fns callable fn.body ∧ ∀ p ∈ fn.params, p.name ∉ callable
  signals : ∀ f ∈ callable, prog.signals.lookup f = none

/-- First-order code whose row is within `row`; a variable is always fine. -/
def EvalOk (row : List Effect) (shadowed : List String) (handlers : List Effect) (e : Expr) :
    Prop :=
  (∃ x, e = .var x) ∨ FirstOrder fns callable e ∧
    ∃ r, inferEffects rows shadowed handlers e = .ok r ∧ ∀ eff ∈ r.effects, eff ∈ row

/-- A clause whose guard and body are fine in the scope of its patterns. -/
def ClauseOk (row : List Effect) (shadowed : List String) (handlers : List Effect) (c : Clause) :
    Prop :=
  (∀ x ∈ bindingNamesList c.patterns, x ∉ callable) ∧
    ∀ e, (c.guard = some e ∨ c.body = e) →
      EvalOk rows fns callable row (shadowed ++ boundVarsList [] c.patterns) handlers e

/-- A callee whose effects are within `row`. -/
def CallOk (row : List Effect) (f : Val) : Prop :=
  (∃ name, f = .function name ∧ ∀ e ∈ rowOf rows name, e ∈ row) ∨ prog.isHost f = true

def targetValue : Expr → List Val → Option Val
  | .app _ _, f :: _ => some f
  | .pipe _ _, _ :: f :: _ => some f
  | _, _ => none

def CodeOk (row : List Effect) (shadowed : List String) (handlers : List Effect) : Code → Prop
  | .eval e => EvalOk rows fns callable row shadowed handlers e
  | .operands ops => ∀ op ∈ ops, (∀ p ∈ op.1, p.isBody = false) ∧
      ((∃ p, op.1 = some p ∧ p.skipsEffects = true) ∨
        EvalOk rows fns callable row shadowed handlers op.2)
  | .rest e vs => EvalOk rows fns callable row shadowed handlers e ∧
      ∀ f v, e.target = some (.var f) → targetValue e vs = some v →
        v = .function f ∨ prog.isHost v = true
  | .arms _ clauses => ∀ c ∈ clauses, ClauseOk rows fns callable row shadowed handlers c
  | .stmts _ es => ∀ e ∈ es, EvalOk rows fns callable row shadowed handlers e
  | .call f _ => CallOk rows prog row f
  | .loop _ cond body => EvalOk rows fns callable row shadowed handlers cond ∧
      EvalOk rows fns callable row shadowed handlers body
  | .each x _ body => x ∉ callable ∧
      EvalOk rows fns callable row (shadowed ++ [x]) handlers body

/-- The effects the checker takes as handled are those of installed arms. -/
def HandledBy (handlers : List Effect) (frames : List Frame) : Prop :=
  ∀ e ∈ handlers, ∃ arm ∈ frames.flatMap (armOps ·.arms), parseEffectName arm.1 = e

def Skipped (places : List Place) : Prop := ∃ p ∈ places, p.skipsEffects = true

/-- A scope in which no callable name is bound, on either side. -/
structure ScopeOk (ρ : Env) (shadowed : List String) : Prop where
  env : ∀ f ∈ callable, ρ.lookup f = none
  shadowed : ∀ f ∈ callable, f ∉ shadowed

/-- What the arms of installed frames perform is allowed by `allow`. -/
def FramesOk (allow : Event → Prop) : List Frame → Prop
  | [] => True
  | frame :: outer =>
      (Skipped frame.places ∨ behaviorAt frame.places = none ∧ ∃ shadowed handlers,
        ScopeOk callable frame.env shadowed ∧ HandledBy handlers outer ∧
        ∀ h ∈ frame.arms, (∀ x ∈ h.params, x ∉ callable) ∧
          ∃ row, EvalOk rows fns callable row (shadowed ++ h.params) handlers h.body ∧
            ∀ ev effect op, ev.act = .perform effect op → parseEffectName effect ∈ row →
              (∀ a ∈ outer.flatMap (armOps ·.arms), a ∈ ev.installed) → allow ev) ∧
      FramesOk allow outer

end

/-- An operation performed where it is charged and not intercepted is allowed by a frame, or is in
the row and was performed under all of `installed`. -/
def Covers (row : List Effect) (allow : Event → Prop) (installed : List (String × String))
    (ev : Event) : Prop :=
  ∀ effect op, ev.act = .perform effect op → (effect, op) ∉ ev.installed → ev.Charged effect →
    allow ev ∨ parseEffectName effect ∈ row ∧ ∀ a ∈ installed, a ∈ ev.installed

section

variable {rows : FnRows} {prog : Program} {fns callable : List String}

variable {places : List Place} {frame : Frame} {f effect : String} {p : Option Place}
  {cap : Capability} {b n : Nat} {code' : Code} {row' : List Effect} {c : Clause} {es : List Expr}
  {arms : List EffectHandler}

theorem Skipped.cons (h : Skipped places) (p : Place) : Skipped (p :: places) := by
  obtain ⟨q, hq, hs⟩ := h
  exact ⟨q, mem_cons_of_mem _ hq, hs⟩

variable {allow : Event → Prop} {value body e : Expr} {row handlers : List Effect}
  {params : List Param} {shadowed : List String} {x : String} {cx : Cx} {ρ ρ' : Env}
  {t : List Event} {σ σ' : State} {v : Val} {ops : List Operand} {vs : List Val} {slot : Slot}
  {inst : List (String × String)}

theorem FramesOk.mono {allow' : Event → Prop} (h : ∀ ev, allow ev → allow' ev) {frames : List Frame}
    (hf : FramesOk rows fns callable allow frames) : FramesOk rows fns callable allow' frames := by
  induction frames with
  | nil => trivial
  | cons frame outer ih =>
    refine ⟨hf.1.imp id ?_, ih hf.2⟩
    rintro ⟨hfn, shadowed, handlers, hscope, hhandled, harms⟩
    refine ⟨hfn, shadowed, handlers, hscope, hhandled, fun h' hh' => ?_⟩
    obtain ⟨hp, row, hrow, hallow⟩ := harms h' hh'
    exact ⟨hp, row, hrow, fun ev effect op ha hr hi => h ev (hallow ev effect op ha hr hi)⟩

theorem FramesOk.outer {inner outer : List Frame}
    (hf : FramesOk rows fns callable allow (inner ++ frame :: outer)) :
    FramesOk rows fns callable allow (frame :: outer) := by
  induction inner with
  | nil => exact hf
  | cons _ inner ih => exact ih hf.2

/-! ### Parts of first-order code -/

section Parts

theorem evalOk_part (h : EvalOk rows fns callable row shadowed handlers e) {p : EffectPart}
    (hp : p ∈ e.effectParts) :
    EvalOk rows fns callable (row ++ p.handled) (shadowed ++ p.names) (p.handlers handlers)
      p.expr := by
  rcases h with ⟨x, rfl⟩ | ⟨hfo, r, hr, hrow⟩
  · cases hp
  · cases hfo with
    | mk _ _ htarget _ hparts =>
      by_cases ht : e.target = some p.expr
      · obtain ⟨f, -, hf⟩ := htarget _ ht
        exact .inl ⟨f, hf⟩
      · have hc := inferEffects_charges hr
        obtain ⟨s, hs⟩ := hc.ok p hp
        refine .inr ⟨hparts p hp ht, s, hs, fun eff he => ?_⟩
        by_cases hh : eff ∈ p.handled
        · exact mem_append_right _ hh
        · exact mem_append_left _ (hrow eff ((hc.mem eff).mpr (.inr ⟨p, hp, s, hs, he, hh⟩)))

variable {e' : Expr}

section

variable (h : EvalOk rows fns callable row shadowed handlers e)
include h

theorem evalOk_plain (hp : part e' ∈ e.effectParts) :
    EvalOk rows fns callable row shadowed handlers e' := by
  simpa [part, EffectPart.handlers] using evalOk_part h hp

theorem evalOk_scoped {names : List String} (hp : ⟨e', names, [], false⟩ ∈ e.effectParts) :
    EvalOk rows fns callable row (shadowed ++ names) handlers e' ∧ ∀ x ∈ names, x ∉ callable := by
  constructor
  · simpa [EffectPart.handlers] using evalOk_part h hp
  · rcases h with ⟨x, rfl⟩ | ⟨hfo, -⟩
    · cases hp
    · cases hfo with
      | mk _ _ _ hnames _ => exact hnames _ hp

theorem own_mem_row {eff : Effect} (he : eff ∈ e.ownEffects rows shadowed handlers) :
    eff ∈ row := by
  rcases h with ⟨x, rfl⟩ | ⟨-, r, hr, hrow⟩
  · cases he
  · exact hrow eff (((inferEffects_charges hr).mem eff).mpr (.inl he))

theorem target_callable {func : Expr} (ht : e.target = some func) :
    ∃ f ∈ callable, func = .var f := by
  rcases h with ⟨x, rfl⟩ | ⟨hfo, -⟩
  · cases ht
  · cases hfo with
    | mk _ _ htarget _ _ => exact htarget _ ht

/-- What is evaluated first is charged, except at the places the checker skips. -/
theorem head_ok {op : Operand} (hop : op ∈ e.head prog) : (∀ p ∈ op.1, p.isBody = false) ∧
    ((∃ p, op.1 = some p ∧ p.skipsEffects = true) ∨
      EvalOk rows fns callable row shadowed handlers op.2) := by
  refine ⟨isBody_of_head hop, ?_⟩
  cases meets_of_mem_head hop with
  | skipped hp hs => exact .inl ⟨_, hp, hs⟩
  | own hpart => exact .inr (evalOk_plain h hpart)
  | within he' hpart => exact .inr (evalOk_plain (evalOk_plain h he') hpart)

end

end Parts

theorem not_evalOk_letRec :
    ¬ EvalOk rows fns callable row shadowed handlers (.letRec x params value body) := by
  rintro (⟨y, hy⟩ | ⟨hfo, -⟩)
  · cases hy
  · cases hfo with
    | mk _ hmakes _ _ _ => cases hmakes

/-- A clause whose guard and body are parts of the expression, under its patterns. -/
theorem clauseOk_of_parts (h : EvalOk rows fns callable row shadowed handlers e)
    (hparts : ∀ e', c.guard = some e' ∨ c.body = e' →
      (⟨e', boundVarsList [] c.patterns, [], false⟩ : EffectPart) ∈ e.effectParts) :
    ClauseOk rows fns callable row shadowed handlers c := by
  refine ⟨fun x hx => ?_, fun e' he' => (evalOk_scoped h (hparts e' he')).1⟩
  refine (evalOk_scoped h (hparts c.body (.inr rfl))).2 x ?_
  simpa [mem_boundVarsList] using hx

theorem matchClauses_ok {scrutinee : Expr} {arms : List MatchArm}
    (h : EvalOk rows fns callable row shadowed handlers (.matchOn scrutinee arms)) :
    ∀ c ∈ arms.map MatchArm.clause, ClauseOk rows fns callable row shadowed handlers c := by
  intro c hc
  obtain ⟨⟨pattern, guard, body⟩, harm, rfl⟩ := mem_map.mp hc
  refine clauseOk_of_parts h fun e he => mem_cons_of_mem _ (mem_flatMap.mpr ⟨_, harm, ?_⟩)
  rcases he with rfl | rfl <;> simp [MatchArm.effectParts, MatchArm.clause, boundVarsList]

theorem receiveClauses_ok {arms : List ReceiveArm} {after : Option (Expr × Expr)}
    (h : EvalOk rows fns callable row shadowed handlers (.receive arms after)) :
    ∀ c ∈ arms.map ReceiveArm.clause, ClauseOk rows fns callable row shadowed handlers c := by
  intro c hc
  obtain ⟨⟨behavior, patterns, guard, body⟩, harm, rfl⟩ := mem_map.mp hc
  refine clauseOk_of_parts h fun e he => mem_append_left _ (mem_flatMap.mpr ⟨_, harm, ?_⟩)
  rcases he with rfl | rfl <;> simp [ReceiveArm.effectParts, ReceiveArm.clause]

/-- A callable name denotes the function of that name, or the host's. -/
theorem value_of_callable (hρ : ρ.lookup f = none) (hs : cx.prog.signals.lookup f = none)
    (h : Run cx ρ σ (.eval (.var f)) t (.value v) σ') :
    v = .function f ∨ cx.prog.isHost v = true := by
  generalize ho : Outcome.value v = o at h
  cases h with
  | halt => cases ho
  | evalExit _ hexit => subst ho; cases hexit
  | method hm => cases hm
  | methodExit hm => cases hm
  | eval hops hrest =>
    cases hrest with
    | halt => cases ho
    | node hres => cases hres
    | varLocal _ hl => rw [hρ] at hl; cases hl
    | varSignal hl => rw [hs] at hl; cases hl
    | varFunction => cases ho; exact .inl rfl
    | varGlobal _ _ _ hd => cases ho; exact .inr (isHost_of_derived hd)
    | performHost hop => cases hop
    | performArm hop => cases hop

theorem values_cons (h : Run cx ρ σ (.operands ((p, e) :: ops)) t (.values vs) σ') :
    ∃ v vs' t₁ t₂ σ₁, vs = v :: vs' ∧ Run (cx.into p) ρ σ (.eval e) t₁ (.value v) σ₁ ∧
      Run cx ρ σ₁ (.operands ops) t₂ (.values vs') σ' := by
  cases h with
  | operandsCons h₁ h₂ => exact ⟨_, _, _, _, _, rfl, h₁, h₂⟩
  | operandsHead _ hexit => cases hexit
  | operandsTail _ _ hexit => cases hexit

/-- The value a call applies, when the head of the call has been evaluated. -/
theorem target_value (hρ : ρ.lookup f = none) (hs : cx.prog.signals.lookup f = none)
    (ht : e.target = some (.var f)) (hv : targetValue e vs = some v)
    (h : Run cx ρ σ (.operands (e.head cx.prog)) t (.values vs) σ') :
    v = .function f ∨ cx.prog.isHost v = true := by
  cases e with
  | app func args =>
    cases ht
    obtain ⟨w, ws, _, _, _, rfl, hw, -⟩ := values_cons h
    cases hv
    exact value_of_callable hρ hs hw
  | pipe left right =>
    cases right with
    | app | var =>
      cases ht
      obtain ⟨_, ws, _, _, _, rfl, -, hrest⟩ := values_cons h
      obtain ⟨w, _, _, _, _, rfl, hw, -⟩ := values_cons hrest
      cases hv
      exact value_of_callable hρ hs hw
    | _ => cases ht
  | _ => cases ht

theorem callOk_of_target {func : Expr} {args : List Expr}
    (h : EvalOk rows fns callable row shadowed handlers (.app func args))
    (hsh : ∀ f ∈ callable, f ∉ shadowed)
    (hv : ∀ f, func = .var f → v = .function f ∨ prog.isHost v = true) :
    CallOk rows prog row v := by
  have ht : (app func args).target = some func := rfl
  obtain ⟨f, hf, rfl⟩ := target_callable h ht
  rcases hv f rfl with rfl | hhost
  · refine .inl ⟨f, rfl, fun eff he => own_mem_row h ?_⟩
    simpa [ownEffects, effects_calleeRow, hsh f hf] using he
  · exact .inr hhost

theorem ScopeOk.bind {names : List String} {xs : List (String × Capability)}
    (h : ScopeOk callable ρ shadowed) (hxs : ∀ x ∈ xs.map (·.1), x ∉ callable)
    (hnames : ∀ x ∈ names, x ∉ callable) :
    ScopeOk callable (bind ρ σ xs vs).1 (shadowed ++ names) := by
  constructor
  · intro f hf
    rw [lookup_bind fun hx => hxs f hx hf]
    exact h.env f hf
  · intro f hf hmem
    rcases mem_append.mp hmem with hmem | hmem
    · exact h.shadowed f hf hmem
    · exact hnames f hmem hf

theorem scopeOk_params (h : ∀ p ∈ params, p.name ∉ callable) :
    ScopeOk callable (Ast.bind [] σ (paramCaps params) vs).1 [] := by
  have hnil : ScopeOk callable [] [] := ⟨fun _ _ => rfl, fun _ _ => not_mem_nil⟩
  refine hnil.bind ?_ fun x hx => absurd hx not_mem_nil
  simpa [paramCaps] using h

theorem ScopeOk.cons (h : ScopeOk callable ρ shadowed) (hx : x ∉ callable) :
    ScopeOk callable ((x, slot) :: ρ) (shadowed ++ [x]) := by
  constructor
  · intro f hf
    have hb : (f == x) = false := by
      simp only [beq_eq_false_iff_ne]
      exact fun heq => hx (heq ▸ hf)
    rw [lookup_cons, hb]
    exact h.env f hf
  · intro f hf hmem
    rcases mem_append.mp hmem with hmem | hmem
    · exact h.shadowed f hf hmem
    · rw [mem_singleton] at hmem
      exact hx (hmem ▸ hf)

/-! ### The runs -/

variable (rows prog fns callable) in
/-- Either the code is in a place the checker skips, or the rows speak about it: it was written in a
function, so it is in no entity's behavior. -/
def Tracked (row : List Effect) (shadowed : List String) (handlers : List Effect) (cx : Cx)
    (ρ : Env) (code : Code) : Prop :=
  Skipped cx.places ∨ behaviorAt cx.places = none ∧ ScopeOk callable ρ shadowed ∧
    HandledBy handlers cx.frames ∧ CodeOk rows prog fns callable row shadowed handlers code

theorem covers_quiet {act : Act} (h : ∀ effect op, act ≠ .perform effect op) :
    Covers row allow inst (cx.event act) := by
  intro effect op hact
  exact absurd hact (h effect op)

/-- Combining operands performs nothing. -/
theorem covers_of_acts {act : Act} (h : act ∈ e.acts ρ σ vs) :
    Covers row allow inst (cx.event act) := by
  refine covers_quiet fun effect op hact => ?_
  subst hact
  cases e <;> simp [acts] at h

/-- Nothing performed in a skipped place is charged. -/
theorem not_charged_of_skipped {ev : Event} (h : Skipped ev.places) : ¬ ev.Charged effect := by
  obtain ⟨p, hp, hs⟩ := h
  intro hc
  rw [hc.1 p hp] at hs
  cases hs

/-- An operation no arm intercepts is charged, or is at a place that is not. -/
theorem covers_performed {op : String} (hop : e.operation = some (effect, op))
    (htr : Tracked rows prog fns callable row shadowed handlers cx ρ (.rest e vs)) :
    Covers row allow cx.installed ((cx.performing e).event (.perform effect op)) := by
  intro effect' op' hact _ hch
  cases hact
  rcases htr with hskip | ⟨-, -, hhandled, hok, -⟩
  · refine absurd hch (not_charged_of_skipped ?_)
    cases e <;> first | exact hskip | exact hskip.cons _
  · have hfree : parseEffectName effect ∉ handlers := by
      intro hmem
      obtain ⟨arm, harm, heq⟩ := hhandled _ hmem
      refine hch.2 arm ?_ heq
      cases e <;> exact harm
    cases e with
    | grainRef => exact absurd hch (not_charged_of_skipped ⟨.grain, by simp [Cx.performing,
        Cx.event, Cx.push], rfl⟩)
    | perform =>
      cases hop
      exact .inr ⟨own_mem_row hok (by simp [ownEffects, hfree]), fun a ha => ha⟩
    | binary bop a b =>
      cases bop <;> cases hop
      exact .inr ⟨own_mem_row hok (by simp [ownEffects, BinOp.row, parseEffectName]),
        fun a ha => ha⟩
    | _ => cases hop

section

variable {start : Code} (h : Tracked rows prog fns callable row shadowed handlers cx ρ start)
include h

theorem Tracked.step {shadowed' : List String} {cx' : Cx}
    (hplaces : ∀ p ∈ cx.places, p ∈ cx'.places)
    (hbody : behaviorAt cx'.places = behaviorAt cx.places) (hframes : cx'.frames = cx.frames)
    (hok : ScopeOk callable ρ shadowed → CodeOk rows prog fns callable row shadowed handlers start →
      ScopeOk callable ρ' shadowed' ∧ CodeOk rows prog fns callable row' shadowed' handlers code') :
    Tracked rows prog fns callable row' shadowed' handlers cx' ρ' code' := by
  rcases h with ⟨p, hp, hs⟩ | ⟨hfn, hscope, hhandled, hcode⟩
  · exact .inl ⟨p, hplaces p hp, hs⟩
  · obtain ⟨hscope', hcode'⟩ := hok hscope hcode
    exact .inr ⟨hbody.trans hfn, hscope', hframes ▸ hhandled, hcode'⟩

theorem Tracked.code (hok : CodeOk rows prog fns callable row shadowed handlers start →
      CodeOk rows prog fns callable row' shadowed handlers code') :
    Tracked rows prog fns callable row' shadowed handlers cx ρ code' :=
  h.step (fun _ hp => hp) rfl rfl fun hscope hcode => ⟨hscope, hok hcode⟩

theorem Tracked.push {p : Place} (hp : p.isBody = false)
    (hok : CodeOk rows prog fns callable row shadowed handlers start →
      CodeOk rows prog fns callable row shadowed handlers code') :
    Tracked rows prog fns callable row shadowed handlers (cx.push p) ρ code' :=
  h.step (fun _ hq => mem_cons_of_mem _ hq) (behaviorAt_push hp) rfl fun hscope hcode =>
    ⟨hscope, hok hcode⟩

end

theorem tracked_skip {p : Place} (hp : p.skipsEffects = true) :
    Tracked rows prog fns callable row [] [] (cx.push p) ρ' code' :=
  .inl ⟨p, mem_cons_self, hp⟩

theorem Tracked.operand
    (h : Tracked rows prog fns callable row shadowed handlers cx ρ (.operands ((p, e) :: ops))) :
    Tracked rows prog fns callable row shadowed handlers (cx.into p) ρ (.eval e) := by
  rcases h with hskip | ⟨hfn, hscope, hhandled, hcode⟩
  · cases p with
    | none => exact .inl hskip
    | some p => exact .inl (hskip.cons p)
  · obtain ⟨hp, ⟨q, rfl, hq⟩ | hok⟩ := hcode _ mem_cons_self
    · exact .inl ⟨q, mem_cons_self, hq⟩
    · refine .inr ⟨?_, hscope, by rwa [Cx.frames_into], hok⟩
      cases p with
      | none => exact hfn
      | some p => exact (behaviorAt_push (hp p rfl)).trans hfn

theorem Tracked.operands {op : Operand}
    (h : Tracked rows prog fns callable row shadowed handlers cx ρ (.operands (op :: ops))) :
    Tracked rows prog fns callable row shadowed handlers cx ρ (.operands ops) :=
  h.code fun hcode op' hop => hcode op' (mem_cons_of_mem _ hop)

/-- The guard and the body of a clause, in the scope of its patterns. -/
theorem Tracked.clause {ws : List Val} {clauses : List Clause}
    (h : Tracked rows prog fns callable row shadowed handlers cx ρ (.arms vs (c :: clauses)))
    (he : c.guard = some e ∨ c.body = e) {p : Place} (hp : p.isBody = false) :
    Tracked rows prog fns callable row (shadowed ++ boundVarsList [] c.patterns) handlers
      (cx.push p) (bind ρ σ ((bindingNamesList c.patterns).map (·, .val)) ws).1 (.eval e) := by
  refine h.step (fun _ hq => mem_cons_of_mem _ hq) (behaviorAt_push hp) rfl fun hscope hcode => ?_
  obtain ⟨hnames, hbody⟩ := hcode c mem_cons_self
  refine ⟨hscope.bind (by simpa using hnames) fun x hx => hnames x ?_, hbody e he⟩
  simpa [mem_boundVarsList] using hx

theorem Tracked.clauses {clauses : List Clause}
    (h : Tracked rows prog fns callable row shadowed handlers cx ρ (.arms vs (c :: clauses))) :
    Tracked rows prog fns callable row shadowed handlers cx ρ (.arms vs clauses) :=
  h.code fun hcode c' hc => hcode c' (mem_cons_of_mem _ hc)

theorem Tracked.stmt {last : Val}
    (h : Tracked rows prog fns callable row shadowed handlers cx ρ (.stmts last (e :: es))) :
    Tracked rows prog fns callable row shadowed handlers cx ρ (.eval e) :=
  h.code fun hcode => hcode e mem_cons_self

theorem Tracked.stmts {last last' : Val}
    (h : Tracked rows prog fns callable row shadowed handlers cx ρ (.stmts last (e :: es))) :
    Tracked rows prog fns callable row shadowed handlers cx ρ (.stmts last' es) :=
  h.code fun hcode e' he' => hcode e' (mem_cons_of_mem _ he')

theorem Tracked.letBody {isMut isLetIn : Bool}
    (h : Tracked rows prog fns callable row shadowed handlers cx ρ
      (.rest (.letIn x value body isMut isLetIn) vs)) :
    Tracked rows prog fns callable row (shadowed ++ [x]) handlers cx ((x, slot) :: ρ)
      (.eval body) := by
  refine h.step (fun _ hp => hp) rfl rfl fun hscope hok => ?_
  obtain ⟨hbody, hnames⟩ := evalOk_scoped hok.1 (mem_cons_of_mem _ mem_cons_self)
  exact ⟨hscope.cons (hnames _ mem_cons_self), hbody⟩

/-- First-order code has no `let rec`. -/
theorem Tracked.letRec {code : Code}
    (h : Tracked rows prog fns callable row shadowed handlers cx ρ
      (.rest (.letRec x params value body) vs)) :
    Tracked rows prog fns callable row shadowed handlers cx ρ' code :=
  h.step (fun _ hp => hp) rfl rfl fun _ hok => absurd hok.1 not_evalOk_letRec

/-- First-order code calls no closure. -/
theorem Tracked.closure {self : Option String} {env : Env} {code : Code}
    (h : Tracked rows prog fns callable row shadowed handlers cx ρ
      (.call (.closure self env params body places) vs)) :
    Tracked rows prog fns callable row shadowed handlers
      { cx with places := .lambda :: (places ++ cx.places) } ρ' code := by
  rcases h with ⟨p, hp, hs⟩ | ⟨-, -, -, ⟨name, heq, -⟩ | hhost⟩
  · exact .inl ⟨p, mem_cons_of_mem _ (mem_append_right _ hp), hs⟩
  · cases heq
  · cases hhost

/-- A function emits no event of an entity. -/
theorem Tracked.applied {decl : Nat} {code : Code} (hbehavior : behaviorAt cx.places = some decl)
    (h : Tracked rows prog fns callable row shadowed handlers cx ρ (.rest e vs)) :
    Tracked rows prog fns callable row shadowed handlers
      { cx with places := .behavior decl :: .top :: cx.places } ρ' code := by
  rcases h with ⟨p, hp, hs⟩ | ⟨hfn, -⟩
  · exact .inl ⟨p, mem_cons_of_mem _ (mem_cons_of_mem _ hp), hs⟩
  · cases hfn.symm.trans hbehavior

theorem target_of_methodCall {m : String} (h : e.methodCall = some (m, ops)) :
    ∃ receiver, e.target = some (.fieldAccess receiver m) := by
  unfold methodCall at h
  split at h
  · cases h
    exact ⟨_, rfl⟩
  · cases h
    exact ⟨_, rfl⟩
  · cases h
    exact ⟨_, rfl⟩
  · cases h

/-- First-order code calls no method. -/
theorem Tracked.method {m : String} (hm : e.methodCall = some (m, ops)) {cx' : Cx} (code : Code)
    (hplaces : ∀ p ∈ cx.places, p ∈ cx'.places)
    (h : Tracked rows prog fns callable row shadowed handlers cx ρ (.eval e)) :
    Tracked rows prog fns callable row shadowed handlers cx' ρ' code := by
  rcases h with ⟨p, hp, hs⟩ | ⟨-, -, -, hok⟩
  · exact .inl ⟨p, hplaces p hp, hs⟩
  · obtain ⟨receiver, ht⟩ := target_of_methodCall hm
    obtain ⟨f, -, hf⟩ := target_callable hok ht
    cases hf

theorem Tracked.each
    (h : Tracked rows prog fns callable row shadowed handlers cx ρ (.each x v body)) :
    Tracked rows prog fns callable row (shadowed ++ [x]) handlers cx ((x, slot) :: ρ)
      (.eval body) :=
  h.step (fun _ hp => hp) rfl rfl fun hscope hcode => ⟨hscope.cons hcode.1, hcode.2⟩

/-- The body under an installed handler: what the arms do is allowed as what the code around the
handler does. -/
theorem framesOk_handle (hfr : FramesOk rows fns callable allow cx.frames)
    (h : Tracked rows prog fns callable row shadowed handlers cx ρ (.rest (.handle body arms) [])) :
    FramesOk rows fns callable (fun ev => allow ev ∨ (∃ effect op, ev.act = .perform effect op ∧
        parseEffectName effect ∈ row) ∧ ∀ a ∈ cx.installed, a ∈ ev.installed)
      (⟨n, arms, ρ, cx.places⟩ :: cx.frames) := by
  refine ⟨?_, hfr.mono fun ev h => .inl h⟩
  rcases h with hskip | ⟨hfn, hscope, hhandled, hok, -⟩
  · exact .inl hskip
  · refine .inr ⟨hfn, shadowed, handlers, hscope, hhandled, fun arm harm => ?_⟩
    have hpart : (⟨arm.body, arm.params, [], false⟩ : EffectPart) ∈
        (Expr.handle body arms).effectParts :=
      mem_cons_of_mem _ (mem_map.mpr ⟨arm, harm, rfl⟩)
    obtain ⟨hbody, hparams⟩ := evalOk_scoped hok hpart
    exact ⟨hparams, row, hbody, fun ev effect op hact hrow hinst =>
      .inr ⟨⟨effect, op, hact, hrow⟩, hinst⟩⟩

theorem Tracked.handle
    (h : Tracked rows prog fns callable row shadowed handlers cx ρ (.rest (.handle body arms) [])) :
    Tracked rows prog fns callable (row ++ handledEffects arms) shadowed
      (handlers ++ handledEffects arms) { cx with
        frames := ⟨n, arms, ρ, cx.places⟩ :: cx.frames
        places := .handled n (armOps arms) :: cx.places } ρ (.eval body) := by
  rcases h with hskip | ⟨hfn, hscope, hhandled, hok, -⟩
  · exact .inl (hskip.cons _)
  · have hpart : (⟨body, [], handledEffects arms, false⟩ : EffectPart) ∈
        (Expr.handle body arms).effectParts := mem_cons_self
    refine .inr ⟨(behaviorAt_push rfl).trans hfn, hscope, fun eff he => ?_, ?_⟩
    · rcases mem_append.mp he with he | he
      · obtain ⟨arm, harm, heq⟩ := hhandled eff he
        exact ⟨arm, mem_append_right _ harm, heq⟩
      · obtain ⟨arm, harm, heq⟩ := mem_map.mp he
        exact ⟨_, mem_append_left _ (mem_map.mpr ⟨arm, harm, rfl⟩), heq⟩
    · simpa [CodeOk, EffectPart.handlers] using evalOk_part hok hpart

/-- An arm run for an operation, and what its frame says about it. -/
theorem FramesOk.arm {outer : List Frame} {arm : EffectHandler}
    (hf : FramesOk rows fns callable allow (frame :: outer)) (harm : arm ∈ frame.arms) (cx : Cx)
    (σ : State) (vs : List Val) :
    ∃ row shadowed handlers, Tracked rows prog fns callable row shadowed handlers
        { cx with frames := outer, places := .arm frame.id σ.next :: frame.places }
        (bind frame.env σ.bump (arm.params.map (·, .ref)) vs).1 (.eval arm.body) ∧
      ∀ ev effect op, ev.act = .perform effect op → parseEffectName effect ∈ row →
        (∀ a ∈ outer.flatMap (armOps ·.arms), a ∈ ev.installed) → allow ev := by
  rcases hf.1 with hskip | ⟨hfn, shadowed, handlers, hscope, hhandled, harms⟩
  · exact ⟨[], [], [], .inl (hskip.cons _), fun _ _ _ _ hrow => absurd hrow not_mem_nil⟩
  · obtain ⟨hparams, row, hrow, hallow⟩ := harms arm harm
    refine ⟨row, shadowed ++ arm.params, handlers,
      .inr ⟨(behaviorAt_push rfl).trans hfn, ?_, hhandled, hrow⟩, hallow⟩
    exact hscope.bind (by simpa using hparams) hparams

/-- Once the head is evaluated, the callee is known. -/
theorem rest_ok (hrows : RowsHold rows cx.prog fns callable) (hscope : ScopeOk callable ρ shadowed)
    (hok : EvalOk rows fns callable row shadowed handlers e)
    (h : Run cx ρ σ (.operands (e.head cx.prog)) t (.values vs) σ') :
    CodeOk rows cx.prog fns callable row shadowed handlers (.rest e vs) := by
  refine ⟨hok, fun f v ht hv => ?_⟩
  obtain ⟨f', hf', heq⟩ := target_callable hok ht
  cases heq
  exact target_value (hscope.env f hf') (hrows.signals f hf') ht hv h

/-- Every operation of a run is covered by the row of the code and by the installed frames. -/
theorem Run.covered (hrows : RowsHold rows prog fns callable) {code : Code} {o : Outcome}
    (h : Run cx ρ σ code t o σ') (hprog : cx.prog = prog)
    (hfr : FramesOk rows fns callable allow cx.frames)
    (htr : Tracked rows prog fns callable row shadowed handlers cx ρ code) :
    ∀ ev ∈ t, Covers row allow cx.installed ev := by
  induction h generalizing row shadowed handlers allow with
  | halt | operandsNil | varFunction | varGlobal | noElse | stmtsNil | callHost
  | resume | eachDone | ret | retUnit | brk | brkUnit | assign | assignGlobal =>
    intro ev hev
    cases hev
  | operandsCons h₁ h₂ ih₁ ih₂ | operandsTail h₁ h₂ hexit ih₁ ih₂ =>
    refine forall_mem_append.mpr ⟨?_, ih₂ hprog hfr htr.operands⟩
    simpa using ih₁ (by simpa using hprog) (by simpa using hfr) htr.operand
  | operandsHead h₁ hexit ih =>
    simpa using ih (by simpa using hprog) (by simpa using hfr) htr.operand
  | eval h₁ h₂ ih₁ ih₂ =>
    subst hprog
    have hrest := htr.step (fun _ hp => hp) rfl rfl fun hscope hok =>
      ⟨hscope, rest_ok hrows hscope hok h₁⟩
    exact forall_mem_append.mpr ⟨ih₁ rfl hfr (htr.code fun hok op hop => head_ok hok hop),
      ih₂ rfl hfr hrest⟩
  | evalExit h₁ hexit ih =>
    exact ih hprog hfr (htr.code fun hok op hop => head_ok hok hop)
  | node hres hle =>
    intro ev hev
    obtain ⟨act, hact, rfl⟩ := mem_map.mp hev
    exact covers_of_acts hact
  | varLocal =>
    exact forall_mem_singleton.mpr (covers_quiet (by simp))
  | varSignal hs h₁ ih | pipe hr h₁ ih =>
    exact ih hprog hfr (tracked_skip rfl)
  | lambda =>
    intro ev hev
    obtain ⟨c, -, rfl⟩ := mem_map.mp hev
    exact covers_quiet (by simp)
  | letIn h₁ ih =>
    exact ih hprog hfr htr.letBody
  | letRec h₁ ih =>
    refine forall_mem_append.mpr ⟨fun ev hev => ?_, ih hprog hfr htr.letRec⟩
    obtain ⟨c, -, rfl⟩ := mem_map.mp hev
    exact covers_quiet (by simp)
  | thenBranch h₁ ih | elseBranch h₁ ih | timeout h₁ ih =>
    exact ih hprog hfr (htr.push rfl fun hok => evalOk_plain hok.1 (by simp [effectParts]))
  | matchOn h₁ ih =>
    exact ih hprog hfr (htr.code fun hok => matchClauses_ok hok.1)
  | receive hws hle h₁ ih =>
    exact ih hprog hfr (htr.code fun hok => receiveClauses_ok hok.1)
  | armSkip h₁ ih =>
    exact ih hprog hfr htr.clauses
  | armTake hws hle h₁ ih =>
    exact ih hprog hfr (htr.clause (.inr rfl) rfl)
  | armPass hws hle h₁ h₂ ih₁ ih₂ =>
    exact forall_mem_append.mpr
      ⟨ih₁ hprog hfr (htr.clause (.inl rfl) rfl), ih₂ hprog hfr (htr.clause (.inr rfl) rfl)⟩
  | armFail hws hle h₁ h₂ ih₁ ih₂ =>
    exact forall_mem_append.mpr
      ⟨ih₁ hprog hfr (htr.clause (.inl rfl) rfl), ih₂ hprog hfr htr.clauses⟩
  | armExit hws hle h₁ hexit ih =>
    exact ih hprog hfr (htr.clause (.inl rfl) rfl)
  | block h₁ ih | par h₁ ih =>
    exact ih hprog hfr (htr.code fun hok e he => evalOk_plain hok.1 (mem_map_of_mem he))
  | stmtsCons hd h₁ h₂ ih₁ ih₂ =>
    exact forall_mem_append.mpr ⟨ih₁ hprog hfr htr.stmt, ih₂ hprog hfr htr.stmts⟩
  | stmtsExit hd h₁ hexit ih =>
    exact ih hprog hfr htr.stmt
  | stmtsDefer h₁ h₂ ih₁ ih₂ =>
    exact forall_mem_append.mpr ⟨ih₁ hprog hfr (htr.stmts.push rfl id),
      ih₂ hprog hfr (htr.stmt.push rfl fun hok => evalOk_plain hok mem_cons_self)⟩
  | stmtsDrop h₁ hexit ih =>
    exact ih hprog hfr (htr.stmts.push rfl id)
  | app h₁ ih =>
    refine ih hprog hfr (htr.step (fun _ hp => hp) rfl rfl fun hscope hok => ⟨hscope, ?_⟩)
    exact callOk_of_target hok.1 hscope.shadowed fun f hf =>
      hok.2 f _ (congrArg some hf) rfl
  | pipeApp h₁ ih =>
    refine ih hprog hfr (htr.step (fun _ hp => hp) rfl rfl fun hscope hok => ⟨hscope, ?_⟩)
    have hcall := evalOk_plain hok.1 (mem_cons_of_mem _ mem_cons_self)
    exact callOk_of_target hcall hscope.shadowed fun f hf => hok.2 f _ (congrArg some hf) rfl
  | @callFunction cx ρ σ σ' f fn vs o t hf h₁ ih =>
    subst hprog
    obtain ⟨r, hr, hsub, hfo, hparams⟩ := hrows.body f fn hf
    -- the body is walked with no handler and nothing shadowed
    have hbody : Tracked rows cx.prog fns callable row [] [] (cx.push (.call f))
        (bind [] σ (paramCaps fn.params) vs).1 (.eval fn.body) := by
      rcases htr with hskip | ⟨-, -, -, hcall⟩
      · exact .inl (hskip.cons _)
      · refine .inr ⟨rfl, ?_, fun e he => absurd he not_mem_nil, .inr ⟨hfo, r, hr, ?_⟩⟩
        · exact scopeOk_params hparams
        · rcases hcall with ⟨name, heq, hrow⟩ | hhost
          · cases heq
            exact fun eff he => hrow eff (hsub eff he)
          · simp [Program.isHost, hf] at hhost
    exact ih rfl hfr hbody
  | callClosure h₁ ih =>
    exact ih hprog hfr htr.closure
  | emitApply hbehavior hmem hevent h₁ hfalls h₂ ih₁ ih₂ =>
    exact forall_mem_append.mpr ⟨ih₁ hprog hfr (htr.applied hbehavior), ih₂ hprog hfr htr⟩
  | emitExit hbehavior hmem hevent h₁ hexit ih =>
    exact ih hprog hfr (htr.applied hbehavior)
  | method hm hmem h₁ h₂ ih₁ ih₂ =>
    exact forall_mem_append.mpr ⟨ih₁ hprog hfr (htr.method hm _ fun _ hp => hp),
      ih₂ hprog hfr (htr.method hm _ fun _ hp => mem_cons_of_mem _ hp)⟩
  | methodExit hm h₁ hexit ih =>
    exact ih hprog hfr (htr.method hm _ fun _ hp => hp)
  | handle h₁ ih =>
    intro ev hev effect op hact hnot hch
    have hbody := ih hprog (framesOk_handle hfr htr) htr.handle ev hev effect op hact hnot hch
    rcases hbody with (hallow | ⟨⟨effect', op', hact', hrow⟩, hinst⟩) | ⟨hrow, hinst⟩
    · exact .inl hallow
    · rw [hact] at hact'
      cases hact'
      exact .inr ⟨hrow, hinst⟩
    · rcases mem_append.mp hrow with hrow | hhandled
      · exact .inr ⟨hrow, fun a ha => hinst a (mem_append_right _ ha)⟩
      · -- an arm of this handler binds another operation of the same effect
        obtain ⟨arm, harm, heq⟩ := mem_map.mp hhandled
        have hmem := hinst _ (mem_append_left _ (mem_map.mpr ⟨arm, harm, rfl⟩))
        exact absurd heq (hch.2 _ hmem)
  | performHost hop hfind hres hle =>
    exact forall_mem_singleton.mpr (covers_performed hop htr)
  | @performArm cx ρ σ σ' e effect op vs frame arm outer o t hop hfind h₁ ih =>
    obtain ⟨⟨inner, hframes⟩, harm, rfl, rfl⟩ := findArm_some hfind
    refine forall_mem_cons.mpr ⟨covers_performed hop htr, fun ev hev => ?_⟩
    rw [hframes] at hfr
    -- the arm is followed with the row of the frame, which allows what it does
    obtain ⟨row', shadowed', handlers', hbody, hallow'⟩ := hfr.outer.arm harm cx σ vs
    intro effect op hact hnot hch
    rcases ih hprog hfr.outer.2 hbody ev hev effect op hact hnot hch with hallow | ⟨hrow, hinst⟩
    · exact .inl hallow
    · exact .inl (hallow' ev effect op hact hrow hinst)
  | whileLoop h₁ ih =>
    exact ih hprog hfr (htr.code fun hok => ⟨evalOk_plain hok.1 (by simp [effectParts]),
      evalOk_plain hok.1 (by simp [effectParts])⟩)
  | loopDone h₁ ih | loopCond h₁ hexit ih =>
    exact ih hprog hfr (htr.push rfl fun hok => hok.1)
  | loopStep h₁ h₂ h₃ ih₁ ih₂ ih₃ =>
    have hcond := ih₁ hprog hfr (htr.push rfl fun hok => hok.1)
    have hbody := ih₂ hprog hfr (htr.code fun hok => hok.2)
    exact forall_mem_append.mpr ⟨forall_mem_append.mpr ⟨hcond, hbody⟩, ih₃ hprog hfr htr⟩
  | loopBreak h₁ h₂ ih₁ ih₂ | loopExit h₁ h₂ hexit ih₁ ih₂ =>
    exact forall_mem_append.mpr ⟨ih₁ hprog hfr (htr.push rfl fun hok => hok.1),
      ih₂ hprog hfr (htr.code fun hok => hok.2)⟩
  | forIn h₁ ih =>
    refine ih hprog hfr (htr.code fun hok => ?_)
    obtain ⟨hbody, hnames⟩ := evalOk_scoped hok.1 (mem_cons_of_mem _ mem_cons_self)
    exact ⟨hnames _ mem_cons_self, hbody⟩
  | eachStep hd hle h₁ h₂ ih₁ ih₂ =>
    exact forall_mem_append.mpr ⟨ih₁ hprog hfr htr.each, ih₂ hprog hfr htr⟩
  | eachBreak hd hle h₁ ih | eachExit hd hle h₁ hexit ih =>
    exact ih hprog hfr htr.each

end

end Nulang.Ast

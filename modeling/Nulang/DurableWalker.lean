import Nulang.EffectSound

/-!
# The durable-effect gate

`DurableEffectWalker`: the walk over the bodies that recovery runs again (workflow steps and their
compensations, behaviors of persistent actors and entities, `apply` handlers). It follows calls of
module functions and keeps the operations bound by the `handle`s around.

The walk takes what it does at a call as a parameter, and `expandFn` ties the knot: each expansion
adds a name to those being visited, so the number of functions bounds the depth
(`Expansion.fuel_pos`).
-/

set_option autoImplicit false

namespace Nulang.Ast

open List

/-! ## The walker -/

/-- `is_forbidden_in_durable`. -/
def isForbiddenInDurable (effect op : String) : Bool :=
  match effect with
  | "Rand" => true
  | "Net" | "FS" => true
  | "Time" => op != "sleep"
  | "IO" => op == "print" || op == "println" || op == "read"
  | _ => false

/-- An effect an arm binds, and the operation if it names one. -/
abbrev Bound := String × Option String

/-- What an arm for an operation is taken to bind: without an operation name, the whole effect. -/
def binding (a : String × String) : Bound := (a.1, if a.2.isEmpty then none else some a.2)

/-- `is_handled_by_user`. -/
def isHandledByUser (effect op : String) (handled : List Bound) : Bool :=
  handled.any fun h => h.1 == effect && (h.2.isNone || h.2 == some op)

section Walker

variable (expand : String → List Bound → Except EffectError Unit) (scope : String)

mutual

/-- `DurableEffectWalker::walk`. -/
def walk (handled : List Bound) : Expr → Except EffectError Unit
  | .perform effect op args =>
      if isForbiddenInDurable effect op && !isHandledByUser effect op handled then
        .error { msg := scope ++ ": effect '" ++ effect ++ "." ++ op ++
          "' is not allowed in durable replay surfaces — a re-run after a crash (signal/LLM " ++
          "suspend) would execute it again with different results; handle it locally with " ++
          "`handle ... with` (deterministic implementation) or move it outside the durable " ++
          "context" }
      else walkList handled args
  | .handle body arms => do
      walk (handled ++ (armOps arms).map binding) body
      walkHandlers handled arms
  | .app func args => do
      walk handled func
      walkList handled args
      match func with
      | .var name => expand name handled
      | _ => pure ()
  | .lambda _ body _ => walk handled body
  | .letIn _ value body _ _ => do
      walk handled value
      walk handled body
  | .letRec _ _ value body => do
      walk handled value
      walk handled body
  | .ifElse cond thenBranch elseBranch => do
      walk handled cond
      walk handled thenBranch
      walkOption handled elseBranch
  | .matchOn scrutinee arms => do
      walk handled scrutinee
      walkArms handled arms
  | .block exprs => walkList handled exprs
  | .par exprs => walkList handled exprs
  | .fieldAccess e _ => walk handled e
  | .recordUpdate base fields => do
      walk handled base
      walkFields handled fields
  | .index arr idx => do
      walk handled arr
      walk handled idx
  | .binary _ left right => do
      walk handled left
      walk handled right
  | .unary _ e => walk handled e
  | .assign target value => do
      walk handled target
      walk handled value
  | .spawn actorType init positionalArgs node => do
      walk handled actorType
      walkFields handled init
      match positionalArgs with
      | some args => walkList handled args
      | none => pure ()
      walkOption handled node
  | .send actor _ args _ => do
      walk handled actor
      walkList handled args
  | .ask actor _ args _ => do
      walk handled actor
      walkList handled args
  | .receive arms after => do
      walkReceive handled arms
      match after with
      | some (timeout, body) =>
          walk handled timeout
          walk handled body
      | none => pure ()
  | .emit _ args => walkList handled args
  | .grainRef _ key => walk handled key
  | .resume value => walk handled value
  | .migrate actor node => do
      walk handled actor
      walk handled node
  | .capAnnotate e _ => walk handled e
  | .typeAnnotate e _ => walk handled e
  | .consume e => walk handled e
  | .recover body => walk handled body
  | .pipe left right => do
      walk handled left
      walk handled right
  | .forIn _ iterable body => do
      walk handled iterable
      walk handled body
  | .whileLoop cond body => do
      walk handled cond
      walk handled body
  | .defer e _ => walk handled e
  | .hide _ body => walk handled body
  | .sealExcept _ body => walk handled body
  | .fString parts => walkList handled parts
  | .tuple elts => walkList handled elts
  | .array elts => walkList handled elts
  | .record fields => walkFields handled fields
  | .ret value => walkOption handled value
  -- the value of a `break` is not walked
  | .literal _ | .var _ | .selfRef | .brk _ | .panic _ => pure ()

def walkList (handled : List Bound) : List Expr → Except EffectError Unit
  | [] => pure ()
  | e :: es => do
      walk handled e
      walkList handled es

def walkOption (handled : List Bound) : Option Expr → Except EffectError Unit
  | none => pure ()
  | some e => walk handled e

def walkFields (handled : List Bound) : List (String × Expr) → Except EffectError Unit
  | [] => pure ()
  | (_, e) :: es => do
      walk handled e
      walkFields handled es

def walkArms (handled : List Bound) : List MatchArm → Except EffectError Unit
  | [] => pure ()
  | .mk _ guard body :: arms => do
      walkOption handled guard
      walk handled body
      walkArms handled arms

def walkReceive (handled : List Bound) : List ReceiveArm → Except EffectError Unit
  | [] => pure ()
  | .mk _ _ guard body :: arms => do
      walkOption handled guard
      walk handled body
      walkReceive handled arms

def walkHandlers (handled : List Bound) : List EffectHandler → Except EffectError Unit
  | [] => pure ()
  | .mk _ _ _ body _ :: arms => do
      walk handled body
      walkHandlers handled arms

end

end Walker

/-- `DurableEffectWalker::expand_fn`, with the functions being expanded. The first argument is the
number of functions that are not. -/
def expandFn (fns : List (String × Expr)) (scope : String) :
    Nat → List String → String → List Bound → Except EffectError Unit
  | 0, _, _, _ => pure ()
  | fuel + 1, visiting, name, handled =>
      if visiting.contains name then pure ()
      else
        match fns.lookup name with
        | some body => walk (expandFn fns scope fuel (name :: visiting)) scope handled body
        | none => pure ()

/-- The bodies by name: the last declaration of a name counts. -/
def durableFns (decls : List Decl) : List (String × Expr) :=
  ((functionsOf decls).map fun f => (f.1, f.2.2.body)).reverse

/-- The bodies a declaration has recovery run again, and how errors call them. -/
def Decl.durableBodies : Decl → List (String × Expr)
  | .workflow name _ items compensate =>
      (items.flatMap WorkflowItem.steps).flatMap (fun step =>
        let scope := "workflow '" ++ name ++ "' step '" ++ step.name ++ "'"
        (scope, step.body) :: step.compensate.toList.map (scope, ·)) ++
      compensate.toList.map ("workflow '" ++ name ++ "' compensate", ·)
  | .actor name _ behaviors _ _ applyHandlers _ persistent events =>
      if !persistent && events.isEmpty then []
      else
        let kind := if events.isEmpty then "persistent actor" else "entity"
        behaviors.map (fun b =>
          ("behavior '" ++ b.name ++ "' of " ++ kind ++ " '" ++ name ++ "'", b.body)) ++
        applyHandlers.map fun h =>
          ("apply handler '" ++ h.event ++ "' of entity '" ++ name ++ "'", h.body)
  | _ => []

section Accepted

variable {expand : String → List Bound → Except EffectError Unit} {scope : String}
  {handled : List Bound}

theorem walkList_eq_ok {es : List Expr} : walkList expand scope handled es = .ok () ↔
    ∀ e ∈ es, walk expand scope handled e = .ok () := by
  induction es with
  | nil => simp [walkList, pure, Except.pure]
  | cons e es ih => rw [walkList, seq_eq_ok, ih, forall_mem_cons]

theorem walkOption_eq_ok {e : Option Expr} : walkOption expand scope handled e = .ok () ↔
    ∀ e' ∈ e, walk expand scope handled e' = .ok () := by
  cases e <;> simp [walkOption, pure, Except.pure]

theorem walkFields_eq_ok {fields : List (String × Expr)} :
    walkFields expand scope handled fields = .ok () ↔
      ∀ f ∈ fields, walk expand scope handled f.2 = .ok () := by
  induction fields with
  | nil => simp [walkFields, pure, Except.pure]
  | cons f fields ih => rw [walkFields, seq_eq_ok, ih, forall_mem_cons]

theorem walkArms_eq_ok {arms : List MatchArm} : walkArms expand scope handled arms = .ok () ↔
    ∀ arm ∈ arms, ∀ p ∈ arm.effectParts, walk expand scope handled p.expr = .ok () := by
  induction arms with
  | nil => simp [walkArms, pure, Except.pure]
  | cons arm arms ih =>
    obtain ⟨pattern, guard, body⟩ := arm
    rw [walkArms, seq_eq_ok, seq_eq_ok, ih, walkOption_eq_ok, forall_mem_cons]
    simp [MatchArm.effectParts, or_imp, forall_and, and_assoc]

theorem walkReceive_eq_ok {arms : List ReceiveArm} :
    walkReceive expand scope handled arms = .ok () ↔
      ∀ arm ∈ arms, ∀ p ∈ arm.effectParts, walk expand scope handled p.expr = .ok () := by
  induction arms with
  | nil => simp [walkReceive, pure, Except.pure]
  | cons arm arms ih =>
    obtain ⟨name, patterns, guard, body⟩ := arm
    rw [walkReceive, seq_eq_ok, seq_eq_ok, ih, walkOption_eq_ok, forall_mem_cons]
    simp [ReceiveArm.effectParts, or_imp, forall_and, and_left_comm, and_assoc]

theorem walkHandlers_eq_ok {arms : List EffectHandler} :
    walkHandlers expand scope handled arms = .ok () ↔
      ∀ arm ∈ arms, walk expand scope handled arm.body = .ok () := by
  induction arms with
  | nil => simp [walkHandlers, pure, Except.pure]
  | cons arm arms ih =>
    obtain ⟨effectName, opName, params, body, resume⟩ := arm
    rw [walkHandlers, seq_eq_ok, ih, forall_mem_cons]
    rfl

/-- Everything that contributes to a row is walked; the body of a `handle` under its bindings. -/
theorem walk_part {e : Expr} {p : EffectPart} (hp : p ∈ e.effectParts) (hh : p.handled = [])
    (h : walk expand scope handled e = .ok ()) : walk expand scope handled p.expr = .ok () := by
  have list : ∀ es : List Expr, p ∈ es.map part → walkList expand scope handled es = .ok () →
      walk expand scope handled p.expr = .ok () := by
    intro es hes hw
    obtain ⟨e', he', rfl⟩ := mem_map.mp hes
    exact walkList_eq_ok.mp hw e' he'
  have option : ∀ e : Option Expr, p ∈ e.toList.map part →
      walkOption expand scope handled e = .ok () →
      walk expand scope handled p.expr = .ok () := by
    intro e he hw
    obtain ⟨e', he', rfl⟩ := mem_map.mp he
    exact walkOption_eq_ok.mp hw e' (Option.mem_toList.mp he')
  have fields : ∀ fs : List (String × Expr), p ∈ (fs.map fun f => part f.2) →
      walkFields expand scope handled fs = .ok () → walk expand scope handled p.expr = .ok () := by
    intro fs hfs hw
    obtain ⟨f, hf, rfl⟩ := mem_map.mp hfs
    exact walkFields_eq_ok.mp hw f hf
  cases e with
  | literal | var | selfRef | panic | resume | brk => cases hp
  | fString es | block es | par es | tuple es | array es | emit _ es => exact list es hp h
  | perform effect operation es =>
    rw [walk] at h
    split at h
    · cases h
    · exact list es hp h
  -- The walker does not look at the annotation of a closure, only at its body.
  | lambda params body effect =>
    cases effect <;> obtain rfl := mem_singleton.mp hp <;> exact h
  | fieldAccess | unary | capAnnotate | typeAnnotate | consume | recover | defer | hide | sealExcept
  | grainRef =>
    obtain rfl := mem_singleton.mp hp
    exact h
  | app func args =>
    obtain ⟨hfunc, hrest⟩ := seq_eq_ok.mp h
    rcases mem_cons.mp hp with rfl | hp
    · exact hfunc
    · exact list args hp (seq_eq_ok.mp hrest).1
  | send actor _ args | ask actor _ args =>
    rcases mem_cons.mp hp with rfl | hp
    · exact (seq_eq_ok.mp h).1
    · exact list args hp (seq_eq_ok.mp h).2
  | letIn | letRec | index | binary | assign | migrate | pipe | whileLoop | forIn =>
    rcases mem_pair.mp hp with rfl | rfl
    · exact (seq_eq_ok.mp h).1
    · exact (seq_eq_ok.mp h).2
  | ifElse cond thenBranch elseBranch =>
    rw [walk, seq_eq_ok, seq_eq_ok] at h
    rcases mem_cons.mp hp with rfl | hp
    · exact h.1
    · rcases mem_cons.mp hp with rfl | hp
      · exact h.2.1
      · exact option elseBranch hp h.2.2
  | matchOn scrutinee arms =>
    rw [walk, seq_eq_ok, walkArms_eq_ok] at h
    rcases mem_cons.mp hp with rfl | hp
    · exact h.1
    · obtain ⟨arm, harm, hp⟩ := mem_flatMap.mp hp
      exact h.2 arm harm p hp
  | record fs => exact fields fs hp h
  | recordUpdate base fs =>
    rcases mem_cons.mp hp with rfl | hp
    · exact (seq_eq_ok.mp h).1
    · exact fields fs hp (seq_eq_ok.mp h).2
  | spawn actorType init positional node =>
    obtain ⟨htype, hinit, hnode⟩ : walk expand scope handled actorType = .ok () ∧
        walkFields expand scope handled init = .ok () ∧
        walkOption expand scope handled node = .ok () := by
      cases positional with
      | none => simpa only [walk, seq_eq_ok] using h
      | some args =>
        simp only [walk, seq_eq_ok] at h
        exact ⟨h.1, h.2.1, h.2.2.2⟩
    rcases mem_cons.mp hp with rfl | hp
    · exact htype
    · rcases mem_append.mp hp with hp | hp
      · exact fields init hp hinit
      · exact option node hp hnode
  | receive arms after =>
    rcases mem_append.mp hp with hp | hp
    · obtain ⟨arm, harm, hp⟩ := mem_flatMap.mp hp
      have harms : walkReceive expand scope handled arms = .ok () := by
        cases after <;> exact (seq_eq_ok.mp h).1
      exact walkReceive_eq_ok.mp harms arm harm p hp
    · cases after with
      | none => cases hp
      | some a =>
        have hafter := seq_eq_ok.mp (seq_eq_ok.mp h).2
        rcases mem_pair.mp hp with rfl | rfl
        · exact hafter.1
        · exact hafter.2
  | handle body arms =>
    rw [walk, seq_eq_ok, walkHandlers_eq_ok] at h
    rcases mem_cons.mp hp with rfl | hp
    · obtain rfl := map_eq_nil_iff.mp hh
      simpa [armOps] using h.1
    · obtain ⟨arm, harm, rfl⟩ := mem_map.mp hp
      exact h.2 arm harm
  | ret value => exact option value hp h

theorem walk_later {e e' : Expr} (hmem : e' ∈ e.later) (h : walk expand scope handled e = .ok ()) :
    walk expand scope handled e' = .ok () := by
  obtain ⟨p, hp, rfl, hh⟩ := later_parts hmem
  exact walk_part hp hh h

theorem walk_handle {body : Expr} {arms : List EffectHandler}
    (h : walk expand scope handled (.handle body arms) = .ok ()) :
    walk expand scope (handled ++ (armOps arms).map binding) body = .ok () :=
  (seq_eq_ok.mp h).1

theorem walk_perform {effect op : String} {args : List Expr}
    (h : walk expand scope handled (.perform effect op args) = .ok ())
    (hforbidden : isForbiddenInDurable effect op = true) :
    isHandledByUser effect op handled = true := by
  rw [walk, hforbidden] at h
  split at h
  · cases h
  · next hcond => simpa using hcond

/-- The places whose code is not walked. -/
def Place.skipsDurable : Place → Bool
  | .breakValue | .given | .signal | .pipe | .method _ => true
  | _ => false

/-- What is evaluated first is walked, but for the value of a `break` and for what the lowering
adds. -/
theorem walk_head {prog : Program} {e : Expr} {op : Operand} (hop : op ∈ e.head prog)
    (h : walk expand scope handled e = .ok ()) :
    (∃ p, op.1 = some p ∧ p.skipsDurable = true) ∨ walk expand scope handled op.2 = .ok () := by
  cases meets_of_mem_head hop with
  | skipped hp hskip =>
    rcases place_of_head hop with hplace | hplace | hplace | ⟨-, he⟩ | hplace
    · cases hplace.symm.trans hp
    · cases hplace.symm.trans hp
      cases hskip
    · exact .inl ⟨_, hplace, rfl⟩
    · rw [he] at h
      exact .inr h
    · exact .inl ⟨_, hplace, rfl⟩
  | own hpart => exact .inr (walk_part hpart rfl h)
  | within he' hpart => exact .inr (walk_part hpart rfl (walk_part he' rfl h))

/-- A function that is applied by name is expanded, unless a bare pipe applies it. -/
theorem walk_callee {e : Expr} {f : String} (ht : e.target = some (.var f))
    (h : walk expand scope handled e = .ok ()) (places : List Place) :
    e.callPlaces places = .pipe :: places ∨
      e.callPlaces places = places ∧ expand f handled = .ok () := by
  cases e with
  | app func args =>
    cases ht
    exact .inr ⟨rfl, (seq_eq_ok.mp (seq_eq_ok.mp h).2).2⟩
  | pipe left right =>
    cases right with
    | app func args =>
      cases ht
      exact .inr ⟨rfl, (seq_eq_ok.mp (seq_eq_ok.mp (seq_eq_ok.mp h).2).2).2⟩
    | _ => exact .inl rfl
  | _ => cases ht

end Accepted

end Nulang.Ast

import Nulang.EffectSound

/-!
# Accepted modules

What `check_module` says about the runs of a module. The rows it registers are closed under
inference (`inferred_mem_rowOf`), so an accepted module satisfies `RowsHold` and `Run.covered`
applies to every run of a function with a declared row.

The runs are those of `programOf`, the program the declarations make up, and the functions are only
called by name (`FirstOrderModule`): the checker does not follow function values.
`effect_rows_unsound` has two of the places that the rows miss.
-/

set_option autoImplicit false

namespace Nulang.Ast

open Expr List

/-- The lowering reads signals, givens and `using` parameters off the top-level declarations, later
declarations of a name winning. -/
def signalsOf (decls : List Decl) : List (String × Expr) :=
  (decls.filterMap fun
    | .signal name init => some (name, init)
    | _ => none).reverse

def givensOf (decls : List Decl) : List (String × Expr) :=
  (decls.filterMap fun
    | .given name value => some (name, value)
    | _ => none).reverse

def usingOf (decls : List Decl) : List (String × List String) :=
  (decls.filterMap fun
    | .function name _ _ (p :: ps) _ _ _ _ => some (name, (p :: ps).map (·.name))
    | _ => none).reverse

/-- The arguments added to a direct call; a `using` parameter with no `given` is skipped. -/
def givenArgsOf (decls : List Decl) (f : String) : List Expr :=
  ((usingOf decls).lookup f).toList.flatMap fun names => names.filterMap fun name =>
    (givensOf decls).lookup name

/-- The methods of the instances. The parameters of a method have no capability of their own. -/
def methodsOf (decls : List Decl) : List (String × Fn) :=
  decls.flatMap fun
    | .impl _ methods => methods.map fun m => (m.1, ⟨m.2.1, m.2.2⟩)
    | _ => []

/-- The apply handlers that an `emit` in a body of the declaration runs. -/
def Decl.applies : Decl → List ApplyHandler
  | .actor _ _ _ _ _ applyHandlers _ _ _ => applyHandlers
  | _ => []

/-- The module as its runs see it. -/
def programOf (capOf : List (String × Capability) → Expr → Capability) (decls : List Decl) :
    Program where
  functions := (functionsOf (flattenDecls decls)).map fun f => (f.1, f.2.2)
  signals := signalsOf decls
  givenArgs := givenArgsOf decls
  methods := methodsOf (flattenDecls decls)
  applies := fun decl => (flattenDecls decls)[decl]?.toList.flatMap Decl.applies
  capOf := capOf

variable {decls : List Decl} {callable fns : List String}

theorem mem_functionsOf {f : String} {effect : Option EffectRow} {fn : Fn}
    (h : (f, effect, fn) ∈ functionsOf decls) :
    ∃ decl ∈ decls, (fn.body, effect) ∈ decl.checkedBodies := by
  induction decls with
  | nil => cases h
  | cons decl decls ih =>
    cases decl with
    | function name params defaults usings eff requires ensures body =>
      rcases mem_cons.mp h with heq | h
      · cases heq
        exact ⟨_, mem_cons_self, mem_singleton_self _⟩
      · obtain ⟨d, hd, hmem⟩ := ih h
        exact ⟨d, mem_cons_of_mem _ hd, hmem⟩
    | _ =>
      obtain ⟨d, hd, hmem⟩ := ih h
      exact ⟨d, mem_cons_of_mem _ hd, hmem⟩

section Accepted

variable {gates : List Decl → Except EffectError Unit} {grants : Option (List String)}

theorem checkModule_eq_ok (h : checkModule gates grants decls = .ok ()) :
    ∃ rows, registerFunctionRows (flattenDecls decls) = .ok rows ∧
      (∀ decl ∈ flattenDecls decls, ∀ b ∈ decl.checkedBodies, checkBody rows b.1 b.2 = .ok ()) ∧
      checkResourceGrants grants rows = .ok () := by
  obtain ⟨rows, hrows, h⟩ := bind_eq_ok.mp h
  obtain ⟨⟨⟩, hdecls, h⟩ := bind_eq_ok.mp h
  obtain ⟨⟨⟩, -, hgrants⟩ := bind_eq_ok.mp h
  exact ⟨rows, hrows, fun decl hd => forM_eq_ok.mp (forM_eq_ok.mp hdecls decl hd), hgrants⟩

variable {rows : FnRows} {effect : Option EffectRow}

theorem checkBody_eq_ok {body : Expr} (h : checkBody rows body effect = .ok ()) :
    ∃ r, inferEffects rows [] [] body = .ok r ∧ ∀ ann, effect = some ann →
      ∀ e ∈ r.effects, e ∈ ann.effects := by
  cases effect with
  | none =>
    obtain ⟨r, hr, -⟩ := bind_eq_ok.mp h
    exact ⟨r, hr, fun _ hann => by cases hann⟩
  | some ann =>
    obtain ⟨r, hr, hrow⟩ := bind_eq_ok.mp h
    refine ⟨r, hr, fun ann' hann => ?_⟩
    cases hann
    exact checkRow_eq_ok.mp hrow

/-- In an accepted module every function does what its row says, declared or inferred. -/
theorem inferred_within_row (hreg : registerFunctionRows (flattenDecls decls) = .ok rows)
    (hbodies : ∀ decl ∈ flattenDecls decls, ∀ b ∈ decl.checkedBodies,
      checkBody rows b.1 b.2 = .ok ())
    {f : String} (hone : ((functionsOf (flattenDecls decls)).map (·.1)).count f = 1) {fn : Fn}
    (hf : (f, effect, fn) ∈ functionsOf (flattenDecls decls)) :
    ∃ r, inferEffects rows [] [] fn.body = .ok r ∧ ∀ e ∈ r.effects, e ∈ rowOf rows f := by
  obtain ⟨decl, hdecl, hmem⟩ := mem_functionsOf hf
  obtain ⟨r, hr, hann⟩ := checkBody_eq_ok (hbodies decl hdecl _ hmem)
  refine ⟨r, hr, fun e he => ?_⟩
  cases effect with
  | none => exact inferred_mem_rowOf hreg hf hr he
  | some ann =>
    rw [rowOf_annotated hreg hone hf]
    exact hann ann rfl e he

end Accepted

/-- An operation the host answers, anywhere. -/
theorem run_perform {cx : Cx} {ρ : Env} {σ : State} {effect op : String}
    (h : findArm cx.frames effect op = none) :
    Run cx ρ σ (.eval (.perform effect op []))
      [cx.event (.perform effect op)] (.value (.actor "" 0)) σ := by
  have hres : HostResult σ.heap [] σ.next σ.next (.actor "" 0) (.perform effect op []) :=
    Derived.actor "" 0
  exact .eval (.operandsNil _ _ _) (.performHost rfl h hres (Nat.le_refl _))

end Nulang.Ast

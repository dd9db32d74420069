import Nulang.Ast

/-!
# Names bound and names free (`effect_checker.rs`)

`free_vars` as the checkers compute it, accumulator and all. It is not the textbook function: it
does not look under `break`, it ignores the positional arguments of a `spawn`, and an alias pattern
binds its own name but not those of the pattern under it.
-/

set_option autoImplicit false

namespace Nulang.Ast

/-- `Vec::push` behind a `contains` test. -/
def pushNew (xs : List String) (x : String) : List String :=
  if xs.contains x then xs else xs ++ [x]

theorem mem_pushNew {xs : List String} {x y : String} : y ∈ pushNew xs x ↔ y ∈ xs ∨ y = x := by
  unfold pushNew
  split
  · next h =>
    have hx : x ∈ xs := by simpa using h
    constructor
    · exact Or.inl
    · rintro (hy | rfl)
      · exact hy
      · exact hx
  · simp

mutual

/-- `pat_bound_vars`. -/
def Pattern.boundVars (bound : List String) : Pattern → List String
  | .wild => bound
  | .var name => pushNew bound name
  | .alias name _ => pushNew bound name
  | .lit _ => bound
  | .tuple items => boundVarsList bound items
  | .record fields => boundVarsFields bound fields
  | .variant _ (some inner) => inner.boundVars bound
  | .variant _ none => bound

def boundVarsList (bound : List String) : List Pattern → List String
  | [] => bound
  | p :: ps => boundVarsList (p.boundVars bound) ps

def boundVarsFields (bound : List String) : List (String × Pattern) → List String
  | [] => bound
  | (_, p) :: ps => boundVarsFields (p.boundVars bound) ps

end

mutual

/-- `pat_binding_names`: what a pattern binds, in order and with repetitions. -/
def Pattern.bindingNames : Pattern → List String
  | .wild => []
  | .var name => [name]
  | .alias name _ => [name]
  | .lit _ => []
  | .tuple items => bindingNamesList items
  | .record fields => bindingNamesFields fields
  | .variant _ (some inner) => inner.bindingNames
  | .variant _ none => []

def bindingNamesList : List Pattern → List String
  | [] => []
  | p :: ps => p.bindingNames ++ bindingNamesList ps

def bindingNamesFields : List (String × Pattern) → List String
  | [] => []
  | (_, p) :: ps => p.bindingNames ++ bindingNamesFields ps

end

mutual

/-- The two ways the checkers collect the names of a pattern agree. -/
theorem Pattern.mem_boundVars {x : String} {bound : List String} :
    (p : Pattern) → (x ∈ p.boundVars bound ↔ x ∈ bound ∨ x ∈ p.bindingNames)
  | .wild | .lit _ | .variant _ none => by simp [Pattern.boundVars, Pattern.bindingNames]
  | .var name | .alias name _ => by
      simp [Pattern.boundVars, Pattern.bindingNames, mem_pushNew]
  | .tuple items => by
      simpa [Pattern.boundVars, Pattern.bindingNames] using mem_boundVarsList items
  | .record fields => by
      simpa [Pattern.boundVars, Pattern.bindingNames] using mem_boundVarsFields fields
  | .variant _ (some inner) => by
      simpa [Pattern.boundVars, Pattern.bindingNames] using inner.mem_boundVars

theorem mem_boundVarsList {x : String} {bound : List String} :
    (ps : List Pattern) → (x ∈ boundVarsList bound ps ↔ x ∈ bound ∨ x ∈ bindingNamesList ps)
  | [] => by simp [boundVarsList, bindingNamesList]
  | p :: ps => by
      rw [boundVarsList, bindingNamesList, mem_boundVarsList ps, p.mem_boundVars,
        List.mem_append, or_assoc]

theorem mem_boundVarsFields {x : String} {bound : List String} : (fs : List (String × Pattern)) →
      (x ∈ boundVarsFields bound fs ↔ x ∈ bound ∨ x ∈ bindingNamesFields fs)
  | [] => by simp [boundVarsFields, bindingNamesFields]
  | (_, p) :: fs => by
      rw [boundVarsFields, bindingNamesFields, mem_boundVarsFields fs, p.mem_boundVars,
        List.mem_append, or_assoc]

end

/-- Several names pushed at once. -/
def pushAll (xs : List String) (ys : List String) : List String :=
  ys.foldl pushNew xs

mutual

/-- `free_vars`: `acc` extended by the names free in the expression and not in `bound`. -/
def Expr.freeVars (bound acc : List String) : Expr → List String
  | .literal _ => acc
  | .fString parts => freeVarsList bound acc parts
  | .var name => if bound.contains name then acc else pushNew acc name
  | .lambda params body _ => body.freeVars (pushAll bound (params.map (·.name))) acc
  | .app func args => freeVarsList bound (func.freeVars bound acc) args
  | .letIn name value body _ _ => body.freeVars (pushNew bound name) (value.freeVars bound acc)
  | .letRec name params value body =>
      let inner := pushAll (pushNew bound name) (params.map (·.name))
      body.freeVars inner (value.freeVars inner acc)
  | .ifElse cond thenBranch elseBranch =>
      freeVarsOption bound (thenBranch.freeVars bound (cond.freeVars bound acc)) elseBranch
  | .matchOn scrutinee arms => freeVarsArms bound (scrutinee.freeVars bound acc) arms
  | .block exprs => freeVarsList bound acc exprs
  | .par exprs => freeVarsList bound acc exprs
  | .tuple elts => freeVarsList bound acc elts
  | .record fields => freeVarsFields bound acc fields
  | .recordUpdate base fields => freeVarsFields bound (base.freeVars bound acc) fields
  | .fieldAccess e _ => e.freeVars bound acc
  | .array elts => freeVarsList bound acc elts
  | .index arr idx => idx.freeVars bound (arr.freeVars bound acc)
  | .binary _ left right => right.freeVars bound (left.freeVars bound acc)
  | .unary _ e => e.freeVars bound acc
  | .assign target value => value.freeVars bound (target.freeVars bound acc)
  | .spawn actorType init _ node =>
      freeVarsOption bound (freeVarsFields bound (actorType.freeVars bound acc) init) node
  | .send actor _ args _ => freeVarsList bound (actor.freeVars bound acc) args
  | .ask actor _ args _ => freeVarsList bound (actor.freeVars bound acc) args
  | .receive arms after =>
      let acc := freeVarsReceive bound acc arms
      match after with
      | some (ms, body) => body.freeVars bound (ms.freeVars bound acc)
      | none => acc
  | .selfRef => acc
  | .grainRef _ key => key.freeVars bound acc
  | .perform _ _ args => freeVarsList bound acc args
  | .emit _ args => freeVarsList bound acc args
  | .handle body handlers => freeVarsHandlers bound (body.freeVars bound acc) handlers
  | .migrate actor node => node.freeVars bound (actor.freeVars bound acc)
  | .capAnnotate e _ => e.freeVars bound acc
  | .typeAnnotate e _ => e.freeVars bound acc
  | .pipe left right => right.freeVars bound (left.freeVars bound acc)
  | .forIn var iterable body => body.freeVars (pushNew bound var) (iterable.freeVars bound acc)
  | .whileLoop cond body => body.freeVars bound (cond.freeVars bound acc)
  | .ret value => freeVarsOption bound acc value
  | .brk _ => acc
  | .consume e => e.freeVars bound acc
  | .recover body => body.freeVars bound acc
  | .defer e _ => e.freeVars bound acc
  | .hide _ body => body.freeVars bound acc
  | .sealExcept _ body => body.freeVars bound acc
  | .panic _ => acc
  | .resume value => value.freeVars bound acc

def freeVarsOption (bound acc : List String) : Option Expr → List String
  | none => acc
  | some e => e.freeVars bound acc

def freeVarsList (bound acc : List String) : List Expr → List String
  | [] => acc
  | e :: es => freeVarsList bound (e.freeVars bound acc) es

def freeVarsFields (bound acc : List String) : List (String × Expr) → List String
  | [] => acc
  | (_, e) :: es => freeVarsFields bound (e.freeVars bound acc) es

def freeVarsArms (bound acc : List String) : List MatchArm → List String
  | [] => acc
  | .mk pattern guard body :: arms =>
      let armBound := pattern.boundVars bound
      freeVarsArms bound (body.freeVars armBound (freeVarsOption armBound acc guard)) arms

def freeVarsReceive (bound acc : List String) : List ReceiveArm → List String
  | [] => acc
  | .mk _ patterns guard body :: arms =>
      let armBound := boundVarsList bound patterns
      freeVarsReceive bound (body.freeVars armBound (freeVarsOption armBound acc guard)) arms

def freeVarsHandlers (bound acc : List String) : List EffectHandler → List String
  | [] => acc
  | .mk _ _ params body _ :: handlers =>
      freeVarsHandlers bound (body.freeVars (pushAll bound params) acc) handlers

end

/-- The free names of a lambda, which are the variables its closure captures. -/
def captures (params : List Param) (body : Expr) : List String :=
  body.freeVars (params.map (·.name)) []

end Nulang.Ast

import Nulang.Run

/-!
# The effect checker (`effect_checker.rs`)

`infer_effects` over every expression form, the rows of module functions iterated to a fixpoint,
the check of declared rows, and the resource gate. `ctx.allowed_effects` is carried by the source
and read by nothing, so a context is its list of handled effects.

`check_module` ends with two more gates, on durable workflow steps and on migration bodies. They
read nothing of the rows and only ever reject; here they are a parameter.
-/

set_option autoImplicit false

namespace Nulang

namespace EffectRow

def singleton (e : Effect) : EffectRow := .closed [e]

def effects : EffectRow → List Effect
  | .closed es => es
  | .open es _ => es

/-- Row concatenation; the first row variable wins. -/
def combine : EffectRow → EffectRow → EffectRow
  | .closed a, .closed b => .closed (a ++ b)
  | .closed a, .open b r => .open (a ++ b) r
  | .open a r, .closed b => .open (a ++ b) r
  | .open a r, .open b _ => .open (a ++ b) r

def contains (row : EffectRow) (e : Effect) : Bool := row.effects.contains e

def remove : EffectRow → Effect → EffectRow
  | .closed es, e => .closed (es.filter (· != e))
  | .open es r, e => .open (es.filter (· != e)) r

/-- `effect_row_subset`: every combination of open and closed compares the listed effects. -/
def subset (sub sup : EffectRow) : Bool := sub.effects.all sup.effects.contains

@[simp] theorem effects_empty : empty.effects = [] := rfl

@[simp] theorem effects_singleton (e : Effect) : (singleton e).effects = [e] := rfl

@[simp] theorem effects_combine (a b : EffectRow) :
    (a.combine b).effects = a.effects ++ b.effects := by
  cases a <;> cases b <;> rfl

@[simp] theorem effects_remove (row : EffectRow) (e : Effect) :
    (row.remove e).effects = row.effects.filter (· != e) := by
  cases row <;> rfl

theorem subset_iff {a b : EffectRow} : a.subset b = true ↔ ∀ e ∈ a.effects, e ∈ b.effects := by
  simp [subset]

end EffectRow

namespace Ast

/-- `NuError::EffectError`. -/
structure EffectError where
  msg : String
  missingEffects : Option (List String) := none
  allowedEffects : Option String := none

/-- `parse_effect_name`. -/
def parseEffectName : String → Effect
  | "IO" => .io
  | "Net" | "Http" => .net
  | "FS" => .fs
  | "Array" => .array
  | "String" => .string
  | "Test" => .test
  | "Rand" | "Random" => .rand
  | "Time" => .time
  | "Spawn" => .spawn
  | "Send" => .send
  | "Receive" => .receive
  | "Migrate" => .migrate
  | "STM" => .stm
  | "Async" => .async
  | "Inference" => .inference
  | "Cost" => .cost
  | "Event" => .event
  | "FFI" => .ffi
  | "DB" => .db
  | "Python" => .python
  | "Process" => .process
  | "System" => .system
  | "Render" => .render
  | "Request" => .request
  | "Respond" => .respond
  | "Realtime" => .realtime
  | "Client" => .client
  | "Web" => .web
  | other => .userDefined other

/-- `effect_resource_category`. -/
def effectResourceCategory : Effect → Option String
  | .fs => some "fs"
  | .net => some "net"
  | .env | .process | .system | .ffi | .db | .python => some "os"
  | _ => none

abbrev FnRows := List (String × EffectRow)

/-- `HashMap::insert`. -/
def FnRows.insert (rows : FnRows) (name : String) (row : EffectRow) : FnRows :=
  (name, row) :: rows.filter (·.1 != name)

/-- `check_effects` once the row is inferred. -/
def checkRow (inferred allowed : EffectRow) : Except EffectError Unit :=
  if inferred.subset allowed then .ok ()
  else
    let offending := (inferred.effects.filter fun e => !allowed.contains e).map Effect.display
    .error {
      msg :=
        if offending.isEmpty then
          "effects " ++ inferred.display ++ " are not a subset of allowed effects " ++
            allowed.display
        else
          "effects " ++ inferred.display ++ " contain disallowed effect(s): " ++
            ", ".intercalate offending ++ " (allowed: " ++ allowed.display ++ ")"
      missingEffects := if offending.isEmpty then none else some offending
      allowedEffects := some allowed.display }

/-- The row a direct call adds: the callee's, unless the name is bound locally. -/
def calleeRow (rows : FnRows) (shadowed : List String) : Expr → EffectRow
  | .var name => if shadowed.contains name then .empty else (rows.lookup name).getD .empty
  | _ => .empty

/-- The effects an expression adds after those of its operands. -/
def BinOp.row : BinOp → EffectRow
  | .range => .singleton .array
  | _ => .empty

mutual

/-- `infer_effects`. -/
def inferEffects (rows : FnRows) (shadowed : List String) (handlers : List Effect) :
    Expr → Except EffectError EffectRow
  | .literal _ => pure .empty
  | .fString parts => inferList rows shadowed handlers .empty parts
  | .var _ => pure .empty
  | .lambda params body effect => do
      let shadowed := shadowed ++ params.map (·.name)
      match effect with
      | some ann =>
          let inferred ← inferEffects rows shadowed [] body
          checkRow inferred ann
          pure ann
      | none => inferEffects rows shadowed handlers body
  | .app func args => do
      let row ← inferEffects rows shadowed handlers func
      let row ← inferList rows shadowed handlers row args
      pure (row.combine (calleeRow rows shadowed func))
  | .letIn name value body _ _ => do
      let valRow ← inferEffects rows shadowed handlers value
      let bodyRow ← inferEffects rows (shadowed ++ [name]) handlers body
      pure (valRow.combine bodyRow)
  | .letRec name _ value body => do
      let valRow ← inferEffects rows (shadowed ++ [name]) handlers value
      let bodyRow ← inferEffects rows (shadowed ++ [name]) handlers body
      pure (valRow.combine bodyRow)
  | .ifElse cond thenBranch elseBranch => do
      let row ← inferEffects rows shadowed handlers cond
      let thenRow ← inferEffects rows shadowed handlers thenBranch
      inferOption rows shadowed handlers (row.combine thenRow) elseBranch
  | .matchOn scrutinee arms => do
      let row ← inferEffects rows shadowed handlers scrutinee
      inferArms rows shadowed handlers row arms
  | .block exprs => inferList rows shadowed handlers .empty exprs
  | .par exprs => inferList rows shadowed handlers .empty exprs
  | .tuple elts => inferList rows shadowed handlers .empty elts
  | .record fields => inferFields rows shadowed handlers .empty fields
  | .recordUpdate base fields => do
      let row ← inferEffects rows shadowed handlers base
      inferFields rows shadowed handlers row fields
  | .fieldAccess e _ => inferEffects rows shadowed handlers e
  | .array elts => inferList rows shadowed handlers .empty elts
  | .index arr idx => do
      let r1 ← inferEffects rows shadowed handlers arr
      let r2 ← inferEffects rows shadowed handlers idx
      pure (r1.combine r2)
  | .binary op left right => do
      let r1 ← inferEffects rows shadowed handlers left
      let r2 ← inferEffects rows shadowed handlers right
      pure ((r1.combine r2).combine op.row)
  | .unary _ e => inferEffects rows shadowed handlers e
  | .assign target value => do
      let r1 ← inferEffects rows shadowed handlers target
      let r2 ← inferEffects rows shadowed handlers value
      pure (r1.combine r2)
  -- the positional arguments are not walked
  | .spawn actorType init _ node => do
      let row ← inferEffects rows shadowed handlers actorType
      let row ← inferFields rows shadowed handlers ((EffectRow.singleton .spawn).combine row) init
      inferOption rows shadowed handlers row node
  | .send actor _ args _ => do
      let row ← inferEffects rows shadowed handlers actor
      inferList rows shadowed handlers ((EffectRow.singleton .send).combine row) args
  | .ask actor _ args _ => do
      let row ← inferEffects rows shadowed handlers actor
      inferList rows shadowed handlers
        (((EffectRow.singleton .send).combine (.singleton .receive)).combine row) args
  | .receive arms after => do
      let row ← inferReceive rows shadowed handlers (.singleton .receive) arms
      match after with
      | some (ms, body) =>
          let r1 ← inferEffects rows shadowed handlers ms
          let r2 ← inferEffects rows shadowed handlers body
          pure ((row.combine r1).combine r2)
      | none => pure row
  | .selfRef => pure .empty
  | .grainRef _ key => inferEffects rows shadowed handlers key
  | .perform effect op args =>
      let eff := parseEffectName effect
      if op.isEmpty then
        .error { msg := "perform of effect '" ++ effect ++ "' has empty operation name" }
      else
        inferList rows shadowed handlers
          (if handlers.contains eff then .empty else .singleton eff) args
  | .emit _ args => inferList rows shadowed handlers (.singleton .event) args
  | .handle body arms => do
      let handled := arms.map fun h => parseEffectName h.effectName
      let row ← inferEffects rows shadowed (handlers ++ handled) body
      inferHandlers rows shadowed handlers (handled.foldl .remove row) arms
  | .migrate actor node => do
      let r1 ← inferEffects rows shadowed handlers actor
      let r2 ← inferEffects rows shadowed handlers node
      pure (((EffectRow.singleton .migrate).combine r1).combine r2)
  | .capAnnotate e _ => inferEffects rows shadowed handlers e
  | .typeAnnotate e _ => inferEffects rows shadowed handlers e
  | .pipe left right => do
      let r1 ← inferEffects rows shadowed handlers left
      let r2 ← inferEffects rows shadowed handlers right
      pure (r1.combine r2)
  | .forIn var iterable body => do
      let r1 ← inferEffects rows shadowed handlers iterable
      let r2 ← inferEffects rows (shadowed ++ [var]) handlers body
      pure (r1.combine r2)
  | .whileLoop cond body => do
      let r1 ← inferEffects rows shadowed handlers cond
      let r2 ← inferEffects rows shadowed handlers body
      pure (r1.combine r2)
  | .ret value => inferOption rows shadowed handlers .empty value
  -- neither the value of a `break` nor that of a `resume` is walked
  | .brk _ => pure .empty
  | .consume e => inferEffects rows shadowed handlers e
  | .recover body => inferEffects rows shadowed handlers body
  | .defer e _ => inferEffects rows shadowed handlers e
  | .hide _ body => inferEffects rows shadowed handlers body
  | .sealExcept _ body => inferEffects rows shadowed handlers body
  | .panic _ => pure .empty
  | .resume _ => pure .empty

/-- `row` and the effects of every expression of a list. -/
def inferList (rows : FnRows) (shadowed : List String) (handlers : List Effect) (row : EffectRow) :
    List Expr → Except EffectError EffectRow
  | [] => pure row
  | e :: es => do
      let r ← inferEffects rows shadowed handlers e
      inferList rows shadowed handlers (row.combine r) es

def inferOption (rows : FnRows) (shadowed : List String) (handlers : List Effect)
    (row : EffectRow) : Option Expr → Except EffectError EffectRow
  | none => pure row
  | some e => do
      let r ← inferEffects rows shadowed handlers e
      pure (row.combine r)

def inferFields (rows : FnRows) (shadowed : List String) (handlers : List Effect)
    (row : EffectRow) : List (String × Expr) → Except EffectError EffectRow
  | [] => pure row
  | (_, e) :: es => do
      let r ← inferEffects rows shadowed handlers e
      inferFields rows shadowed handlers (row.combine r) es

def inferArms (rows : FnRows) (shadowed : List String) (handlers : List Effect) (row : EffectRow) :
    List MatchArm → Except EffectError EffectRow
  | [] => pure row
  | .mk pattern guard body :: arms => do
      let bound := shadowed ++ pattern.boundVars []
      let row ← inferOption rows bound handlers row guard
      let armRow ← inferEffects rows bound handlers body
      inferArms rows shadowed handlers (row.combine armRow) arms

def inferReceive (rows : FnRows) (shadowed : List String) (handlers : List Effect)
    (row : EffectRow) : List ReceiveArm → Except EffectError EffectRow
  | [] => pure row
  | .mk _ patterns guard body :: arms => do
      let bound := shadowed ++ boundVarsList [] patterns
      let armRow ← inferEffects rows bound handlers body
      let row ← inferOption rows bound handlers (row.combine armRow) guard
      inferReceive rows shadowed handlers row arms

def inferHandlers (rows : FnRows) (shadowed : List String) (handlers : List Effect)
    (row : EffectRow) : List EffectHandler → Except EffectError EffectRow
  | [] => pure row
  | .mk _ _ params body _ :: hs => do
      let r ← inferEffects rows (shadowed ++ params) handlers body
      inferHandlers rows shadowed handlers (row.combine r) hs

end

/-- `check_effects`. -/
def checkEffects (rows : FnRows) (expr : Expr) (allowed : EffectRow) : Except EffectError Unit := do
  let inferred ← inferEffects rows [] [] expr
  checkRow inferred allowed

/-- The rows before the iteration: declared ones, and the empty row. -/
def declaredRows : FnRows → List Decl → FnRows
  | rows, [] => rows
  | rows, .function name _ _ _ effect _ _ _ :: decls =>
      declaredRows (rows.insert name (effect.getD .empty)) decls
  | rows, _ :: decls => declaredRows rows decls

/-- One round over the declarations, with whether a row has grown. -/
def growRows : FnRows → Bool → List Decl → Except EffectError (FnRows × Bool)
  | rows, changed, [] => pure (rows, changed)
  | rows, changed, .function name _ _ _ none _ _ body :: decls => do
      let inferred ← inferEffects rows [] [] body
      let entry := (rows.lookup name).getD .empty
      if inferred.subset entry then growRows (rows.insert name entry) changed decls
      else growRows (rows.insert name (entry.combine inferred)) true decls
  | rows, changed, _ :: decls => growRows rows changed decls

/-- At most `n` rounds, fewer once nothing grows. -/
def iterateRows (decls : List Decl) : Nat → FnRows → Except EffectError FnRows
  | 0, rows => pure rows
  | n + 1, rows => do
      let (rows, changed) ← growRows rows false decls
      if changed then iterateRows decls n rows else pure rows

/-- `register_function_rows`. -/
def registerFunctionRows (decls : List Decl) : Except EffectError FnRows :=
  let rows := declaredRows [] decls
  iterateRows decls rows.length rows

/-- Bodies with a declared row are checked against it, the others only inferred. -/
def checkBody (rows : FnRows) (body : Expr) : Option EffectRow → Except EffectError Unit
  | some allowed => checkEffects rows body allowed
  | none => do
      let _ ← inferEffects rows [] [] body
      pure ()

/-- The bodies of a declaration that `check_decl` visits, with their declared rows. -/
def Decl.checkedBodies : Decl → List (Expr × Option EffectRow)
  | .function _ _ _ _ effect _ _ body => [(body, effect)]
  | .actor _ stateFields behaviors init _ _ _ _ _ =>
      behaviors.map (fun b => (b.body, b.effect)) ++ stateFields.map (fun f => (f.2.2, none)) ++
        init.map (fun i => (i.2, none))
  | .stateMachine name states events entryHooks exitHooks =>
      match desugarStateMachine name states events entryHooks exitHooks with
      | .actor _ stateFields behaviors init _ _ _ _ _ =>
          behaviors.map (fun b => (b.body, b.effect)) ++
            stateFields.map (fun f => (f.2.2, none)) ++ init.map (fun i => (i.2, none))
      | _ => []
  | .workflow _ _ items compensate =>
      (items.flatMap fun item => item.steps.flatMap fun step =>
          (step.body, none) :: step.compensate.toList.map (·, none)) ++
        compensate.toList.map (·, none)
  | _ => []

/-- `check_decl`. -/
def checkDecl (rows : FnRows) (decl : Decl) : Except EffectError Unit :=
  decl.checkedBodies.forM fun b => checkBody rows b.1 b.2

/-- `check_resource_grants`: `none` when `set_resource_grants` was never called. -/
def checkResourceGrants (grants : Option (List String)) (rows : FnRows) :
    Except EffectError Unit :=
  match grants with
  | none => pure ()
  | some grants =>
      rows.forM fun (name, row) => row.effects.forM fun eff =>
        match effectResourceCategory eff with
        | some category =>
            if grants.contains category then pure ()
            else .error {
              msg := "function '" ++ name ++ "' performs effect '" ++ eff.display ++
                "' which requires resource capability '" ++ category ++
                "' (not granted; grant it with --with=" ++ category ++ ")" }
        | none => pure ()

/-- `check_module`. `gates` are the durable-determinism and migration-purity gates. -/
def checkModule (gates : List Decl → Except EffectError Unit) (grants : Option (List String))
    (decls : List Decl) : Except EffectError Unit := do
  let flat := flattenDecls decls
  let rows ← registerFunctionRows flat
  flat.forM (checkDecl rows)
  gates decls
  checkResourceGrants grants rows

end Ast

end Nulang

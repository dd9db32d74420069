import Nulang.Unification

/-!
# The surface syntax (`ast.rs`)

The tree the checkers and the lowering walk, constructor by constructor. Spans are dropped, and so
is what no modelled pass reads: the type annotation of a `let`, the return type of a lambda, the
registered name and the capability list of a `spawn`, the timeout of an `ask`.

A statement `let` (`isLetIn = false`) already carries the rest of its block as `body`: the parser
folds what follows into it. So no node of this tree binds a name for its siblings.
-/

set_option autoImplicit false

namespace Nulang

inductive Literal where
  | int (i : Int)
  | float (bits : UInt64)
  | string (s : String)
  | bool (b : Bool)
  | nil
  | unit
deriving DecidableEq

end Nulang

namespace Nulang.Ast

/-- A parameter with its optional type and capability annotations. -/
structure Param where
  name : String
  ty : Option Ty := none
  cap : Option Capability := none

inductive Pattern where
  | wild
  | var (name : String)
  | lit (lit : Literal)
  | tuple (items : List Pattern)
  | record (fields : List (String × Pattern))
  | variant (name : String) (inner : Option Pattern)
  | alias (name : String) (inner : Pattern)

inductive BinOp where
  | add | sub | mul | div | mod | eq | ne | lt | le | gt | ge | and | or
  | bitAnd | bitOr | bitXor | shl | shr | pow | assign | range | pipe
deriving DecidableEq

inductive UnOp where
  | neg | not | deref
  | ref (cap : Capability)
deriving DecidableEq

mutual

inductive Expr where
  | literal (lit : Literal)
  | fString (parts : List Expr)
  | var (name : String)
  | lambda (params : List Param) (body : Expr) (effect : Option EffectRow)
  | app (func : Expr) (args : List Expr)
  | letIn (name : String) (value body : Expr) (isMut isLetIn : Bool)
  | letRec (name : String) (params : List Param) (value body : Expr)
  | ifElse (cond thenBranch : Expr) (elseBranch : Option Expr)
  | matchOn (scrutinee : Expr) (arms : List MatchArm)
  | block (exprs : List Expr)
  | par (exprs : List Expr)
  | tuple (elts : List Expr)
  | record (fields : List (String × Expr))
  | fieldAccess (expr : Expr) (field : String)
  | recordUpdate (base : Expr) (fields : List (String × Expr))
  | array (elts : List Expr)
  | index (arr idx : Expr)
  | binary (op : BinOp) (left right : Expr)
  | unary (op : UnOp) (expr : Expr)
  | assign (target value : Expr)
  | spawn (actorType : Expr) (init : List (String × Expr)) (positionalArgs : Option (List Expr))
      (targetNode : Option Expr)
  | send (actor : Expr) (behavior : String) (args : List Expr) (remote : Bool)
  | ask (actor : Expr) (behavior : String) (args : List Expr) (remote : Bool)
  | receive (arms : List ReceiveArm) (after : Option (Expr × Expr))
  | selfRef
  | emit (event : String) (args : List Expr)
  | perform (effect op : String) (args : List Expr)
  | grainRef (grainType : String) (key : Expr)
  | resume (value : Expr)
  | handle (body : Expr) (handlers : List EffectHandler)
  | migrate (actor node : Expr)
  | capAnnotate (expr : Expr) (cap : Capability)
  | typeAnnotate (expr : Expr) (ty : Ty)
  | pipe (left right : Expr)
  | forIn (var : String) (iterable body : Expr)
  | whileLoop (cond body : Expr)
  | ret (value : Option Expr)
  | brk (value : Option Expr)
  | consume (expr : Expr)
  | recover (body : Expr)
  | defer (expr : Expr) (errorOnly : Bool)
  | hide (names : List String) (body : Expr)
  | sealExcept (names : List String) (body : Expr)
  | panic (msg : String)

/-- `pattern [if guard] => body`. -/
inductive MatchArm where
  | mk (pattern : Pattern) (guard : Option Expr) (body : Expr)

/-- `name(patterns) [if guard] => body`. -/
inductive ReceiveArm where
  | mk (name : String) (patterns : List Pattern) (guard : Option Expr) (body : Expr)

/-- `| Effect.op(params) [resume] => body`. -/
inductive EffectHandler where
  | mk (effectName opName : String) (params : List String) (body : Expr) (resume : Bool)

end

namespace EffectHandler

def effectName : EffectHandler → String
  | mk effectName _ _ _ _ => effectName

def opName : EffectHandler → String
  | mk _ opName _ _ _ => opName

def params : EffectHandler → List String
  | mk _ _ params _ _ => params

def body : EffectHandler → Expr
  | mk _ _ _ body _ => body

def resume : EffectHandler → Bool
  | mk _ _ _ _ resume => resume

end EffectHandler

structure Behavior where
  name : String
  params : List Param
  body : Expr
  effect : Option EffectRow := none
  retType : Option Ty := none

/-- `event name(params) -> target` of a state machine. -/
structure StateMachineEvent where
  name : String
  params : List Param
  target : String

/-- `| Event(params) => body` of an entity's `apply` block. -/
structure ApplyHandler where
  event : String
  params : List String
  body : Expr

structure MigrationDecl where
  stateBody : Option Expr
  eventMigrations : List (String × List String × Expr)

structure WorkflowStep where
  name : String
  body : Expr
  compensate : Option Expr

inductive WorkflowItem where
  | step (s : WorkflowStep)
  | parallel (steps : List WorkflowStep)

def WorkflowItem.steps : WorkflowItem → List WorkflowStep
  | step s => [s]
  | parallel steps => steps

/-- A declaration. `other` stands for those that hold no expression: type, effect, import, extern,
agent and database declarations. -/
inductive Decl where
  | function (name : String) (params : List Param) (defaultValues : List (Option Expr))
      (usingParams : List Param) (effect : Option EffectRow) (requires ensures : List Expr)
      (body : Expr)
  | actor (name : String) (stateFields : List (String × Ty × Expr)) (behaviors : List Behavior)
      (init : List (String × Expr)) (initializer : Option (String × List Param × Expr))
      (applyHandlers : List ApplyHandler) (migrations : List MigrationDecl) (persistent : Bool)
      (events : List String)
  | stateMachine (name : String) (states : List String) (events : List StateMachineEvent)
      (entryHooks exitHooks : List (String × Expr))
  | module (name : String) (decls : List Decl)
  | workflow (name : String) (input : Option String) (items : List WorkflowItem)
      (compensate : Option Expr)
  | namedHandler (name : String) (handlers : List EffectHandler)
  | crdtDecl (name : String) (fields : List (String × Expr))
  | classDecl (name : String) (defaultBodies : List (String × Expr))
  | impl (className : String) (methods : List (String × List Param × Expr))
  | letBinding (name : String) (value : Expr) (isMut : Bool)
  | signal (name : String) (init : Expr)
  | given (name : String) (value : Expr)
  | other

/-- `flatten_decls`: nested modules only name things, their declarations live in one flat list. -/
def flattenDecls : List Decl → List Decl
  | [] => []
  | .module _ inner :: rest => flattenDecls inner ++ flattenDecls rest
  | decl :: rest => decl :: flattenDecls rest

/-- The behavior one event of a state machine becomes: the exit hooks, guarded by the current
state, then the transition, then the entry hook of the target. -/
def desugarEvent (entryHooks exitHooks : List (String × Expr)) (event : StateMachineEvent) :
    Behavior :=
  let smState : Expr := .fieldAccess .selfRef "_sm_state"
  let exits := exitHooks.map fun hook =>
    Expr.ifElse (.binary .eq smState (.literal (.string hook.1)))
      (.block [hook.2, .literal .unit]) none
  let entries := ((entryHooks.find? (·.1 == event.target)).map (·.2)).toList
  { name := event.name
    params := event.params
    body := .block (exits ++ [.assign smState (.literal (.string event.target))] ++ entries ++
      [.literal .nil]) }

/-- `desugar_state_machine`. -/
def desugarStateMachine (name : String) (states : List String) (events : List StateMachineEvent)
    (entryHooks exitHooks : List (String × Expr)) : Decl :=
  .actor name [("_sm_state", .primitive .string, .literal (.string (states.headD "")))]
    (events.map (desugarEvent entryHooks exitHooks)) [] none [] [] false []

end Nulang.Ast

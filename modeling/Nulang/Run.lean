import Nulang.Scope

/-!
# Runs of a program

What evaluating an expression can do, as a big-step relation over the syntax tree. It is the common
ground of every statement about the checkers: which variables a path evaluates, which effect
operations it performs and under which handlers, which values it sends.

Control flow is exact, data is not: a condition may go either way, a pattern may match or not, and
the result of an operation is any value built from its operands, from what has been stored and from
fresh objects. So the runs here include every run of the language. Evaluation is left to right and
call by value, closures capture by value, `resume` and non-resuming handlers return to the `perform`
and to the `handle`. A run may stop anywhere with `halt`; the prefixes of an endless run are among
these. The positional arguments of a `spawn` are never evaluated: the lowering drops them.

Two things depend on what the lowering knows and this tree does not say. `x.m(args)` calls a method
of an instance if the type of `x` has one: here it may be that of any `impl` with a method `m`, or a
call of what the field holds. And `emit` runs the apply handlers of the entity whose behavior the
code was written in: here any number of them.
-/

set_option autoImplicit false

namespace Nulang.Ast

open List

/-! ## Values and states -/

/-- Where a piece of code sits relative to the code that led to it. Numbers tell one visit of such
a place from the next. -/
inductive Place where
  /-- the chosen branch of an `if`, `match` or `receive` -/
  | branch (n : Nat)
  /-- a guard that does not let its clause be taken -/
  | guard (n : Nat)
  /-- one evaluation of the condition of a `while` -/
  | cond (loop n : Nat)
  /-- one run of an arm of an installed handler -/
  | arm (frame n : Nat)
  /-- deferred code, and the statements run before it once it is registered -/
  | deferred (n : Nat)
  | pending (n : Nat)
  | index
  | breakValue
  | resumeValue
  /-- an argument the lowering adds for a `using` parameter -/
  | given
  /-- the initialiser the lowering copies to every use of a signal -/
  | signal
  /-- the `Grain.ref` a virtual actor reference is lowered to -/
  | grain
  /-- what the target of a bare `x |> f` does -/
  | pipe
  | lambda
  | call (function : String)
  /-- the body of a method of an `impl` -/
  | method (name : String)
  /-- a body of the declaration with that number -/
  | behavior (decl : Nat)
  /-- a body that is not a function's: a behavior, an initialiser, a workflow step -/
  | top
  | handled (frame : Nat) (ops : List (String × String))
deriving DecidableEq

/-- The places at which a body begins. -/
def Place.isBody : Place → Bool
  | .call _ | .method _ | .behavior _ | .top => true
  | _ => false

/-- The declaration whose body the code was written in, unless it is that of a function or a
method. -/
def behaviorAt (places : List Place) : Option Nat :=
  match places.find? Place.isBody with
  | some (.behavior decl) => some decl
  | _ => none

/-- The variable an environment gives to a name: its cell and its capability. -/
structure Slot where
  addr : Nat
  cap : Capability

abbrev Env := List (String × Slot)

/-- The capabilities of the variables in scope. -/
def Env.caps (ρ : Env) : List (String × Capability) := ρ.map fun b => (b.1, b.2.cap)

/-- Values up to what the checkers talk about: the identity of an object and what it holds. -/
inductive Val where
  | data (id : Nat) (parts : List Val)
  | actor (type : String) (id : Nat)
  | function (name : String)
  | closure (self : Option String) (env : Env) (params : List Param) (body : Expr)
      (places : List Place)

def Val.unit : Val := .data 0 []

/-- `w` is `v`, or `v` holds it. -/
inductive Part : Val → Val → Prop where
  | refl (v : Val) : Part v v
  | held {id : Nat} {parts : List Val} {p w : Val} : p ∈ parts → Part p w → Part (.data id parts) w

/-- A value built from parts of `vs`, from objects numbered in `[n, n')`, and from references to
actors. What the host builds holds no code of the program. -/
inductive Derived (vs : List Val) (n n' : Nat) : Val → Prop where
  | part {v w : Val} : v ∈ vs → Part v w → Derived vs n n' w
  | data {id : Nat} {parts : List Val} :
      n ≤ id → id < n' → (∀ p ∈ parts, Derived vs n n' p) → Derived vs n n' (.data id parts)
  | actor (type : String) (id : Nat) : Derived vs n n' (.actor type id)

/-- A variable's cell. A captured copy keeps the `binding` it was copied from. -/
structure Cell where
  binding : Nat
  cap : Capability
  value : Val

/-- The variables, the next unused number, and the values that objects, mailboxes, other actors and
the host hold: what is stored there can come back from any access. -/
structure State where
  cells : List Cell
  next : Nat
  heap : List Val

namespace State

/-- A new variable, which is its own binding. -/
def alloc (σ : State) (cap : Capability) (v : Val) : State :=
  { σ with cells := σ.cells ++ [⟨σ.cells.length, cap, v⟩] }

def bump (σ : State) : State := { σ with next := σ.next + 1 }

def withNext (σ : State) (n : Nat) : State := { σ with next := n }

/-- Values stored outside the variables. -/
def keep (σ : State) (vs : List Val) : State := { σ with heap := vs ++ σ.heap }

def store (σ : State) (addr : Nat) (v : Val) : State :=
  { σ with cells := σ.cells.modify addr ({ · with value := v }) }

end State

/-- Bind names to values, one cell each; a missing value is unit. -/
def bind (ρ : Env) (σ : State) : List (String × Capability) → List Val → Env × State
  | [], _ => (ρ, σ)
  | (x, cap) :: xs, vs =>
      bind ((x, ⟨σ.cells.length, cap⟩) :: ρ) (σ.alloc cap (vs.headD .unit)) xs vs.tail

/-- The variables in scope among `names`, with their cells. -/
def captured (ρ : Env) (σ : State) (names : List String) : List (String × Slot × Cell) :=
  names.filterMap fun x => do
    let slot ← ρ.lookup x
    let cell ← σ.cells[slot.addr]?
    pure (x, slot, cell)

/-- The environment of a closure over copies placed from address `n` on. -/
def closureEnv (n : Nat) : List (String × Slot × Cell) → Env
  | [] => []
  | (x, slot, _) :: rest => (x, ⟨n, slot.cap⟩) :: closureEnv (n + 1) rest

/-! ## Contexts, events, outcomes -/

/-- A module function, or a method, as a callee. -/
structure Fn where
  params : List Param
  body : Expr

/-- What a run takes from the program around it. -/
structure Program where
  functions : List (String × Fn)
  signals : List (String × Expr)
  /-- the arguments a direct call of a function gets from `given` declarations -/
  givenArgs : String → List Expr
  methods : List (String × Fn)
  /-- the apply handlers of a declaration -/
  applies : Nat → List ApplyHandler
  /-- the capability a `let` gives its variable -/
  capOf : List (String × Capability) → Expr → Capability

/-- The capability a `let rec` gives its variable. -/
def Program.recCap (prog : Program) (ρ : Env) (x : String) (value : Expr) : Capability :=
  prog.capOf ((x, .val) :: ρ.caps) value

/-- An installed handler: its arms, and the scope they run in. -/
structure Frame where
  id : Nat
  arms : List EffectHandler
  env : Env
  places : List Place

/-- The operations a list of arms binds. -/
def armOps (arms : List EffectHandler) : List (String × String) :=
  arms.map fun h => (h.effectName, h.opName)

/-- Everything around the code being run; frames and places are innermost first. -/
structure Cx where
  prog : Program
  self : Val
  frames : List Frame := []
  places : List Place := []

namespace Cx

def push (cx : Cx) (p : Place) : Cx := { cx with places := p :: cx.places }

def into (cx : Cx) : Option Place → Cx
  | none => cx
  | some p => cx.push p

/-- Where a variable is copied into a closure; a name that the checkers do not count as free is
copied unseen. -/
def capturing (cx : Cx) (free : List String) (x : String) : Cx :=
  if x ∈ free then cx else cx.push .lambda

/-- The operations the installed handlers bind. -/
def installed (cx : Cx) : List (String × String) := cx.frames.flatMap (armOps ·.arms)

variable (cx : Cx) (p : Option Place)

@[simp] theorem prog_into : (cx.into p).prog = cx.prog := by
  cases p <;> rfl

@[simp] theorem places_into : (cx.into p).places = p.toList ++ cx.places := by
  cases p <;> rfl

@[simp] theorem frames_into : (cx.into p).frames = cx.frames := by
  cases p <;> rfl

@[simp] theorem installed_into : (cx.into p).installed = cx.installed := by
  cases p <;> rfl

end Cx

/-- The innermost frame that binds an operation, the arm, and the frames outside it. -/
def findArm : List Frame → String → String → Option (Frame × EffectHandler × List Frame)
  | [], _, _ => none
  | frame :: outer, effect, op =>
      match frame.arms.find? (fun h => h.effectName == effect && h.opName == op) with
      | some h => some (frame, h, outer)
      | none => findArm outer effect op

inductive Act where
  | read (binding : Nat) (cap : Capability) (value : Val)
  /-- a variable is copied into a closure -/
  | capture (binding : Nat) (cap : Capability) (value : Val)
  | perform (effect op : String)
  /-- `moved` are the bindings of the arguments that are plain variables -/
  | send (receiver : Val) (behavior : String) (args : List Val)
      (moved : List (Nat × Capability))

structure Event where
  act : Act
  installed : List (String × String)
  places : List Place

def Cx.event (cx : Cx) (act : Act) : Event := ⟨act, cx.installed, cx.places⟩

inductive Outcome where
  | value (v : Val)
  | values (vs : List Val)
  | brk (v : Val)
  | ret (v : Val)
  | resume (v : Val)
  /-- leave every activation down to a handler, and go on there -/
  | unwind (frame : Nat) (o : Outcome)
  /-- a panic, or the end of what is observed -/
  | halt

namespace Outcome

def isExit : Outcome → Bool
  | value _ | values _ => false
  | _ => true

/-- What a caller sees of the end of a body. -/
def called : Outcome → Outcome
  | value v | ret v => value v
  | brk _ | resume _ | values _ => halt
  | o => o

/-- Code that is copied in loses the jump at its end, so what follows it is reached. -/
def fallsThrough : Outcome → Bool
  | value _ | ret _ | brk _ => true
  | _ => false

/-- What is left of an outcome outside the handler that installed `frame`. -/
def outside (frame : Nat) : Outcome → Outcome
  | unwind f o => if f = frame then o else unwind f o
  | o => o

/-- What the end of an arm means at the `perform` it runs for. -/
def answered (frame : Nat) (resumes : Bool) : Outcome → Outcome
  | value v => if resumes then value v else unwind frame (value v)
  | resume v => value v
  | o@(ret _) | o@(brk _) => unwind frame o
  | o => o

/-- The outcome of a block after its deferred code has ended with `d`. -/
def deferring (o d : Outcome) : Outcome := if d.isExit then d else o

end Outcome

/-! ## Code -/

/-- A sub-expression to evaluate, and the place it is in. -/
abbrev Operand := Option Place × Expr

def plain (e : Expr) : Operand := (none, e)

/-- An arm of a `match` or a `receive`. -/
structure Clause where
  patterns : List Pattern
  guard : Option Expr
  body : Expr

def MatchArm.clause : MatchArm → Clause
  | mk pattern guard body => ⟨[pattern], guard, body⟩

def ReceiveArm.clause : ReceiveArm → Clause
  | mk _ patterns guard body => ⟨patterns, guard, body⟩

/-- A callee whose code is not the program's own. -/
def Program.isHost (prog : Program) : Val → Bool
  | .closure .. => false
  | .function f => (prog.functions.lookup f).isNone
  | _ => true

/-- The arguments the lowering adds to a direct call. -/
def Program.given (prog : Program) : Expr → List Operand
  | .var f => (prog.givenArgs f).map (some .given, ·)
  | _ => []

/-- What an expression evaluates first, in order. -/
def Expr.head (prog : Program) : Expr → List Operand
  | .fString es | .tuple es | .array es | .emit _ es | .perform _ _ es => es.map plain
  | .app func args => plain func :: args.map plain ++ prog.given func
  | .letIn _ value _ _ _ => [plain value]
  | .ifElse cond _ _ => [plain cond]
  | .matchOn scrutinee _ => [plain scrutinee]
  | .record fields => fields.map fun f => plain f.2
  | .fieldAccess e _ | .unary _ e | .capAnnotate e _ | .typeAnnotate e _ | .consume e
  | .recover e | .defer e _ | .hide _ e | .sealExcept _ e | .grainRef _ e => [plain e]
  | .recordUpdate base fields => plain base :: fields.map fun f => plain f.2
  | .index arr idx => [plain arr, (some .index, idx)]
  | .binary _ left right => [plain left, plain right]
  | .assign (.var _) value => [plain value]
  | .assign target value => [plain target, plain value]
  | .spawn _ init _ node => init.map (fun f => plain f.2) ++ node.toList.map plain
  | .send actor _ args _ | .ask actor _ args _ => plain actor :: args.map plain
  | .receive _ (some (ms, _)) => [plain ms]
  | .resume value => [(some .resumeValue, value)]
  | .migrate actor node => [plain actor, plain node]
  | .pipe left (.app func args) => plain left :: plain func :: args.map plain ++ prog.given func
  | .pipe left right => plain left :: plain right :: prog.given right
  | .forIn _ iterable _ => [plain iterable]
  | .ret (some e) => [plain e]
  | .brk (some e) => [(some .breakValue, e)]
  | _ => []

/-- What a call or a pipe applies. -/
def Expr.target : Expr → Option Expr
  | .app func _ => some func
  | .pipe _ (.app func _) => some func
  | .pipe _ right => some right
  | _ => none

/-- The method a call or a pipe may be a call of, with its operands: the receiver comes first. -/
def Expr.methodCall : Expr → Option (String × List Operand)
  | .app (.fieldAccess receiver m) args => some (m, plain receiver :: args.map plain)
  | .pipe left (.app (.fieldAccess receiver m) args) =>
      some (m, plain receiver :: plain left :: args.map plain)
  | .pipe left (.fieldAccess receiver m) => some (m, [plain receiver, plain left])
  | _ => none

/-- The operation an expression performs, if it is one that does: ranges and virtual actor
references are lowered to performs. -/
def Expr.operation : Expr → Option (String × String)
  | .perform effect op _ => some (effect, op)
  | .grainRef _ _ => some ("Grain", "ref")
  | .binary .range _ _ => some ("Array", "range")
  | _ => none

/-- The context an operation is performed in. -/
def Cx.performing (cx : Cx) : Expr → Cx
  | .grainRef _ _ => cx.push .grain
  | _ => cx

/-- What the host may answer to an operation no handler intercepts. -/
def HostResult (heap vs : List Val) (n n' : Nat) (v : Val) : Expr → Prop
  | .grainRef grainType _ => ∃ id, v = .actor grainType id
  | .binary .range _ _ => ∃ id, n ≤ id ∧ id < n' ∧ v = .data id []
  | _ => Derived (vs ++ heap) n n' v

/-- The value of an expression that only combines the values `vs` of its operands. -/
def Result (cx : Cx) (heap vs : List Val) (n n' : Nat) (v : Val) : Expr → Prop
  | .binary .range _ _ => False
  | .literal _ | .fString _ | .binary _ _ _ | .unary .neg _ | .unary .not _ =>
      ∃ id, n ≤ id ∧ id < n' ∧ v = .data id []
  | .tuple _ | .array _ | .record _ => ∃ id, n ≤ id ∧ id < n' ∧ v = .data id vs
  | .recordUpdate _ _ | .fieldAccess _ _ | .index _ _ | .unary .deref _ =>
      Derived (vs ++ heap) n n' v
  | .capAnnotate _ _ | .typeAnnotate _ _ | .consume _ | .recover _ | .hide _ _ | .sealExcept _ _
  | .unary (.ref _) _ => vs = [v]
  | .spawn (.var name) _ _ _ => ∃ id, n ≤ id ∧ id < n' ∧ v = .actor name id
  | .spawn _ _ _ _ | .ask _ _ _ _ => Derived (vs ++ heap) n n' v
  | .selfRef => v = cx.self
  | .send _ _ _ _ | .emit _ _ | .migrate _ _ | .defer _ _ => v = .unit
  | .assign (.var _) _ => False
  | .assign _ _ => [v] = vs.drop 1
  | _ => False

/-- The bindings of the arguments that are plain variables. -/
def movedBindings (ρ : Env) (σ : State) (args : List Expr) : List (Nat × Capability) :=
  args.filterMap fun
    | .var x => do
        let slot ← ρ.lookup x
        let cell ← σ.cells[slot.addr]?
        pure (cell.binding, cell.cap)
    | _ => none

/-- What combining the operands does besides producing a value. -/
def Expr.acts (ρ : Env) (σ : State) (vs : List Val) : Expr → List Act
  | .send _ behavior args _ | .ask _ behavior args _ =>
      [.send (vs.headD .unit) behavior vs.tail (movedBindings ρ σ args)]
  | _ => []

/-- The operands that combining them hands to objects, actors or the host. -/
def Expr.stores (vs : List Val) : Expr → List Val
  | .assign _ _ => vs.drop 1
  | .send _ _ _ _ | .ask _ _ _ _ => vs.tail
  | .spawn _ _ _ _ | .emit _ _ => vs
  | _ => []

/-- A lambda bound by `let` to a name it captures refers to itself. -/
def tie (name : String) : Expr → Val → Val
  | .lambda params body _, .closure none env ps b places =>
      if name ∈ captures params body then .closure (some name) env ps b places
      else .closure none env ps b places
  | _, v => v

inductive Code where
  | eval (e : Expr)
  | operands (ops : List Operand)
  /-- an expression whose `head` has been evaluated -/
  | rest (e : Expr) (vs : List Val)
  | arms (vs : List Val) (clauses : List Clause)
  /-- the rest of a block, and its value so far -/
  | stmts (last : Val) (exprs : List Expr)
  | call (f : Val) (args : List Val)
  | loop (id : Nat) (cond body : Expr)
  | each (var : String) (iterable : Val) (body : Expr)

def Expr.isDefer : Expr → Bool
  | .defer _ _ => true
  | _ => false

def Expr.isApp : Expr → Bool
  | .app _ _ => true
  | _ => false

def paramCaps (params : List Param) : List (String × Capability) :=
  params.map fun p => (p.name, p.cap.getD .val)

/-! ## The relation -/

inductive Run : Cx → Env → State → Code → List Event → Outcome → State → Prop where
  | halt (cx ρ σ code) : Run cx ρ σ code [] .halt σ
  -- operands
  | operandsNil (cx ρ σ) : Run cx ρ σ (.operands []) [] (.values []) σ
  | operandsCons {cx ρ σ σ₁ σ₂ p e ops v vs t₁ t₂} :
      Run (cx.into p) ρ σ (.eval e) t₁ (.value v) σ₁ →
      Run cx ρ σ₁ (.operands ops) t₂ (.values vs) σ₂ →
      Run cx ρ σ (.operands ((p, e) :: ops)) (t₁ ++ t₂) (.values (v :: vs)) σ₂
  | operandsHead {cx ρ σ σ₁ p e ops o t} :
      Run (cx.into p) ρ σ (.eval e) t o σ₁ → o.isExit →
      Run cx ρ σ (.operands ((p, e) :: ops)) t o σ₁
  | operandsTail {cx ρ σ σ₁ σ₂ p e ops v o t₁ t₂} :
      Run (cx.into p) ρ σ (.eval e) t₁ (.value v) σ₁ →
      Run cx ρ σ₁ (.operands ops) t₂ o σ₂ → o.isExit →
      Run cx ρ σ (.operands ((p, e) :: ops)) (t₁ ++ t₂) o σ₂
  -- an expression: its head, then the rest of it
  | eval {cx ρ σ σ₁ σ₂ e vs o t₁ t₂} :
      Run cx ρ σ (.operands (e.head cx.prog)) t₁ (.values vs) σ₁ →
      Run cx ρ σ₁ (.rest e vs) t₂ o σ₂ →
      Run cx ρ σ (.eval e) (t₁ ++ t₂) o σ₂
  | evalExit {cx ρ σ σ₁ e o t} :
      Run cx ρ σ (.operands (e.head cx.prog)) t o σ₁ → o.isExit →
      Run cx ρ σ (.eval e) t o σ₁
  | node {cx ρ σ e vs v n'} :
      Result cx σ.heap vs σ.next n' v e → σ.next ≤ n' →
      Run cx ρ σ (.rest e vs) ((e.acts ρ σ vs).map cx.event) (.value v)
        ((σ.withNext n').keep (e.stores vs))
  -- the apply handlers of the entity, copied in before the event is emitted
  | emitApply {cx ρ σ σ₁ σ₂ event args vs decl h o₁ o t₁ t₂} :
      behaviorAt cx.places = some decl → h ∈ cx.prog.applies decl → h.event = event →
      Run { cx with places := .behavior decl :: .top :: cx.places }
        (bind ρ σ (h.params.map (·, .val)) vs).1 (bind ρ σ (h.params.map (·, .val)) vs).2
        (.eval h.body) t₁ o₁ σ₁ → o₁.fallsThrough →
      Run cx ρ σ₁ (.rest (.emit event args) vs) t₂ o σ₂ →
      Run cx ρ σ (.rest (.emit event args) vs) (t₁ ++ t₂) o σ₂
  | emitExit {cx ρ σ σ₁ event args vs decl h o t} :
      behaviorAt cx.places = some decl → h ∈ cx.prog.applies decl → h.event = event →
      Run { cx with places := .behavior decl :: .top :: cx.places }
        (bind ρ σ (h.params.map (·, .val)) vs).1 (bind ρ σ (h.params.map (·, .val)) vs).2
        (.eval h.body) t o σ₁ → o.isExit →
      Run cx ρ σ (.rest (.emit event args) vs) t o σ₁
  -- variables and closures
  | varLocal {cx ρ σ x slot cell} :
      cx.prog.signals.lookup x = none → ρ.lookup x = some slot → σ.cells[slot.addr]? = some cell →
      Run cx ρ σ (.rest (.var x) []) [cx.event (.read cell.binding cell.cap cell.value)]
        (.value cell.value) σ
  | varSignal {cx ρ σ σ' x init o t} :
      cx.prog.signals.lookup x = some init →
      Run (cx.push .signal) ρ σ (.eval init) t o σ' → Run cx ρ σ (.rest (.var x) []) t o σ'
  | varFunction {cx ρ σ x} :
      cx.prog.signals.lookup x = none → ρ.lookup x = none →
      (cx.prog.functions.lookup x).isSome →
      Run cx ρ σ (.rest (.var x) []) [] (.value (.function x)) σ
  | varGlobal {cx ρ σ x v n'} :
      cx.prog.signals.lookup x = none → ρ.lookup x = none →
      cx.prog.functions.lookup x = none → Derived [] σ.next n' v → σ.next ≤ n' →
      Run cx ρ σ (.rest (.var x) []) [] (.value v) (σ.withNext n')
  -- the lowering computes the captured names apart from the checkers: any set of them
  | lambda {cx ρ σ params body effect names} :
      names.Nodup →
      Run cx ρ σ (.rest (.lambda params body effect) [])
        ((captured ρ σ names).map fun c =>
          (cx.capturing (captures params body) c.1).event
            (.capture c.2.2.binding c.2.2.cap c.2.2.value))
        (.value (.closure none (closureEnv σ.cells.length (captured ρ σ names)) params body
          cx.places))
        { σ with cells := σ.cells ++ (captured ρ σ names).map (·.2.2) }
  | letIn {cx ρ σ σ' x value body isMut isLetIn v o t} :
      Run cx ((x, ⟨σ.cells.length, cx.prog.capOf (Env.caps ρ) value⟩) :: ρ)
        (σ.alloc (cx.prog.capOf (Env.caps ρ) value) (tie x value v))
        (.eval body) t o σ' →
      Run cx ρ σ (.rest (.letIn x value body isMut isLetIn) [v]) t o σ'
  | letRec {cx ρ σ σ' x params value body names o t} :
      Run cx ((x, ⟨σ.cells.length + (captured ρ σ names).length, cx.prog.recCap ρ x value⟩) :: ρ)
        (State.alloc { σ with cells := σ.cells ++ (captured ρ σ names).map (·.2.2) }
          (cx.prog.recCap ρ x value)
          (.closure (some x) (closureEnv σ.cells.length (captured ρ σ names)) params value
            cx.places))
        (.eval body) t o σ' →
      Run cx ρ σ (.rest (.letRec x params value body) [])
        ((captured ρ σ names).map (fun c =>
          (cx.push .lambda).event (.capture c.2.2.binding c.2.2.cap c.2.2.value)) ++ t) o σ'
  -- branches
  | thenBranch {cx ρ σ σ' c e els v o t} :
      Run (cx.push (.branch σ.next)) ρ σ.bump (.eval e) t o σ' →
      Run cx ρ σ (.rest (.ifElse c e els) [v]) t o σ'
  | elseBranch {cx ρ σ σ' c th e v o t} :
      Run (cx.push (.branch σ.next)) ρ σ.bump (.eval e) t o σ' →
      Run cx ρ σ (.rest (.ifElse c th (some e)) [v]) t o σ'
  | noElse {cx ρ σ c th v} :
      Run cx ρ σ (.rest (.ifElse c th none) [v]) [] (.value .unit) σ
  | matchOn {cx ρ σ σ' e arms vs o t} :
      Run cx ρ σ (.arms vs (arms.map MatchArm.clause)) t o σ' →
      Run cx ρ σ (.rest (.matchOn e arms) vs) t o σ'
  | receive {cx ρ σ σ' arms after vs ws n' o t} :
      (∀ w ∈ ws, Derived σ.heap σ.next n' w) → σ.next ≤ n' →
      Run cx ρ (σ.withNext n') (.arms ws (arms.map ReceiveArm.clause)) t o σ' →
      Run cx ρ σ (.rest (.receive arms after) vs) t o σ'
  | timeout {cx ρ σ σ' arms ms body vs o t} :
      Run (cx.push (.branch σ.next)) ρ σ.bump (.eval body) t o σ' →
      Run cx ρ σ (.rest (.receive arms (some (ms, body))) vs) t o σ'
  -- the clauses of a match or a receive, tried in order
  | armSkip {cx ρ σ σ' vs c clauses o t} :
      Run cx ρ σ (.arms vs clauses) t o σ' → Run cx ρ σ (.arms vs (c :: clauses)) t o σ'
  | armTake {cx ρ σ σ' vs ws n' patterns body clauses o t} :
      (∀ w ∈ ws, Derived (vs ++ σ.heap) σ.next n' w) → σ.next ≤ n' →
      Run (cx.push (.branch n'))
        (bind ρ (σ.withNext n').bump ((bindingNamesList patterns).map (·, .val)) ws).1
        (bind ρ (σ.withNext n').bump ((bindingNamesList patterns).map (·, .val)) ws).2
        (.eval body) t o σ' →
      Run cx ρ σ (.arms vs (⟨patterns, none, body⟩ :: clauses)) t o σ'
  | armPass {cx ρ σ σ₁ σ' vs ws n' patterns guard body clauses g o t₁ t₂} :
      (∀ w ∈ ws, Derived (vs ++ σ.heap) σ.next n' w) → σ.next ≤ n' →
      Run (cx.push (.branch n'))
        (bind ρ (σ.withNext n').bump ((bindingNamesList patterns).map (·, .val)) ws).1
        (bind ρ (σ.withNext n').bump ((bindingNamesList patterns).map (·, .val)) ws).2
        (.eval guard) t₁ (.value g) σ₁ →
      Run (cx.push (.branch n'))
        (bind ρ (σ.withNext n').bump ((bindingNamesList patterns).map (·, .val)) ws).1
        σ₁ (.eval body) t₂ o σ' →
      Run cx ρ σ (.arms vs (⟨patterns, some guard, body⟩ :: clauses)) (t₁ ++ t₂) o σ'
  | armFail {cx ρ σ σ₁ σ' vs ws n' patterns guard body clauses g o t₁ t₂} :
      (∀ w ∈ ws, Derived (vs ++ σ.heap) σ.next n' w) → σ.next ≤ n' →
      Run (cx.push (.guard n'))
        (bind ρ (σ.withNext n').bump ((bindingNamesList patterns).map (·, .val)) ws).1
        (bind ρ (σ.withNext n').bump ((bindingNamesList patterns).map (·, .val)) ws).2
        (.eval guard) t₁ (.value g) σ₁ →
      Run cx ρ σ₁ (.arms vs clauses) t₂ o σ' →
      Run cx ρ σ (.arms vs (⟨patterns, some guard, body⟩ :: clauses)) (t₁ ++ t₂) o σ'
  | armExit {cx ρ σ σ₁ vs ws n' patterns guard body clauses o t} :
      (∀ w ∈ ws, Derived (vs ++ σ.heap) σ.next n' w) → σ.next ≤ n' →
      Run (cx.push (.guard n'))
        (bind ρ (σ.withNext n').bump ((bindingNamesList patterns).map (·, .val)) ws).1
        (bind ρ (σ.withNext n').bump ((bindingNamesList patterns).map (·, .val)) ws).2
        (.eval guard) t o σ₁ → o.isExit →
      Run cx ρ σ (.arms vs (⟨patterns, some guard, body⟩ :: clauses)) t o σ₁
  -- blocks: deferred code runs after the statements that follow it, however they end
  | block {cx ρ σ σ' es o t} :
      Run cx ρ σ (.stmts .unit es) t o σ' → Run cx ρ σ (.rest (.block es) []) t o σ'
  | par {cx ρ σ σ' es o t} :
      Run cx ρ σ (.stmts .unit es) t o σ' → Run cx ρ σ (.rest (.par es) []) t o σ'
  | stmtsNil {cx ρ σ last} : Run cx ρ σ (.stmts last []) [] (.value last) σ
  | stmtsCons {cx ρ σ σ₁ σ₂ last e es v o t₁ t₂} :
      e.isDefer = false → Run cx ρ σ (.eval e) t₁ (.value v) σ₁ →
      Run cx ρ σ₁ (.stmts v es) t₂ o σ₂ →
      Run cx ρ σ (.stmts last (e :: es)) (t₁ ++ t₂) o σ₂
  | stmtsExit {cx ρ σ σ₁ last e es o t} :
      e.isDefer = false → Run cx ρ σ (.eval e) t o σ₁ → o.isExit →
      Run cx ρ σ (.stmts last (e :: es)) t o σ₁
  | stmtsDefer {cx ρ σ σ₁ σ₂ last e errorOnly es o d t₁ t₂} :
      Run (cx.push (.pending σ.next)) ρ σ.bump (.stmts last es) t₁ o σ₁ →
      Run (cx.push (.deferred σ.next)) ρ σ₁ (.eval e) t₂ d σ₂ →
      Run cx ρ σ (.stmts last (.defer e errorOnly :: es)) (t₁ ++ t₂) (o.deferring d) σ₂
  | stmtsDrop {cx ρ σ σ₁ last e errorOnly es o t} :
      Run (cx.push (.pending σ.next)) ρ σ.bump (.stmts last es) t o σ₁ → o.isExit →
      Run cx ρ σ (.stmts last (.defer e errorOnly :: es)) t o σ₁
  -- calls
  | app {cx ρ σ σ' func args f vs o t} :
      Run cx ρ σ (.call f vs) t o σ' → Run cx ρ σ (.rest (.app func args) (f :: vs)) t o σ'
  | pipeApp {cx ρ σ σ' left func args v f vs o t} :
      Run cx ρ σ (.call f (v :: vs)) t o σ' →
      Run cx ρ σ (.rest (.pipe left (.app func args)) (v :: f :: vs)) t o σ'
  | pipe {cx ρ σ σ' left right v f vs o t} :
      right.isApp = false → Run (cx.push .pipe) ρ σ (.call f (v :: vs)) t o σ' →
      Run cx ρ σ (.rest (.pipe left right) (v :: f :: vs)) t o σ'
  | method {cx ρ σ σ₁ σ₂ e m ops fn vs o t₁ t₂} :
      e.methodCall = some (m, ops) → (m, fn) ∈ cx.prog.methods →
      Run cx ρ σ (.operands ops) t₁ (.values vs) σ₁ →
      Run (cx.push (.method m)) (bind [] σ₁ (paramCaps fn.params) vs).1
        (bind [] σ₁ (paramCaps fn.params) vs).2 (.eval fn.body) t₂ o σ₂ →
      Run cx ρ σ (.eval e) (t₁ ++ t₂) o.called σ₂
  | methodExit {cx ρ σ σ₁ e m ops o t} :
      e.methodCall = some (m, ops) → Run cx ρ σ (.operands ops) t o σ₁ → o.isExit →
      Run cx ρ σ (.eval e) t o σ₁
  | callFunction {cx ρ σ σ' f fn vs o t} :
      cx.prog.functions.lookup f = some fn →
      Run (cx.push (.call f)) (bind [] σ (paramCaps fn.params) vs).1
        (bind [] σ (paramCaps fn.params) vs).2 (.eval fn.body) t o σ' →
      Run cx ρ σ (.call (.function f) vs) t o.called σ'
  | callClosure {cx ρ σ σ' self env params body places vs o t} :
      -- where the closure was made, then where it is called
      Run { cx with places := .lambda :: (places ++ cx.places) }
        (bind env σ ((self.toList.map (·, .val)) ++ paramCaps params)
          (self.toList.map (fun _ => .closure self env params body places) ++ vs)).1
        (bind env σ ((self.toList.map (·, .val)) ++ paramCaps params)
          (self.toList.map (fun _ => .closure self env params body places) ++ vs)).2
        (.eval body) t o σ' →
      Run cx ρ σ (.call (.closure self env params body places) vs) t o.called σ'
  | callHost {cx ρ σ f vs v n'} :
      cx.prog.isHost f → Derived (f :: vs ++ σ.heap) σ.next n' v → σ.next ≤ n' →
      Run cx ρ σ (.call f vs) [] (.value v) ((σ.withNext n').keep vs)
  -- handlers
  | handle {cx ρ σ σ' body handlers o t} :
      Run { cx with
            frames := ⟨σ.next, handlers, ρ, cx.places⟩ :: cx.frames
            places := .handled σ.next (armOps handlers) :: cx.places }
        ρ σ.bump (.eval body) t o σ' →
      Run cx ρ σ (.rest (.handle body handlers) []) t (o.outside σ.next) σ'
  | performHost {cx ρ σ e effect op vs v n'} :
      e.operation = some (effect, op) → findArm cx.frames effect op = none →
      HostResult σ.heap vs σ.next n' v e → σ.next ≤ n' →
      Run cx ρ σ (.rest e vs) [(cx.performing e).event (.perform effect op)] (.value v)
        ((σ.withNext n').keep vs)
  | performArm {cx ρ σ σ' e effect op vs frame h outer o t} :
      e.operation = some (effect, op) → findArm cx.frames effect op = some (frame, h, outer) →
      Run { cx with frames := outer, places := .arm frame.id σ.next :: frame.places }
        (bind frame.env σ.bump (h.params.map (·, .ref)) vs).1
        (bind frame.env σ.bump (h.params.map (·, .ref)) vs).2 (.eval h.body) t o σ' →
      Run cx ρ σ (.rest e vs) ((cx.performing e).event (.perform effect op) :: t)
        (o.answered frame.id h.resume) σ'
  | resume {cx ρ σ value v} : Run cx ρ σ (.rest (.resume value) [v]) [] (.resume v) σ
  -- loops and jumps
  | whileLoop {cx ρ σ σ' cond body o t} :
      Run cx ρ σ.bump (.loop σ.next cond body) t o σ' →
      Run cx ρ σ (.rest (.whileLoop cond body) []) t o σ'
  | loopDone {cx ρ σ σ' l cond body v t} :
      Run (cx.push (.cond l σ.next)) ρ σ.bump (.eval cond) t (.value v) σ' →
      Run cx ρ σ (.loop l cond body) t (.value .unit) σ'
  | loopCond {cx ρ σ σ' l cond body o t} :
      Run (cx.push (.cond l σ.next)) ρ σ.bump (.eval cond) t o σ' → o.isExit →
      Run cx ρ σ (.loop l cond body) t o σ'
  | loopStep {cx ρ σ σ₁ σ₂ σ₃ l cond body v w o t₁ t₂ t₃} :
      Run (cx.push (.cond l σ.next)) ρ σ.bump (.eval cond) t₁ (.value v) σ₁ →
      Run cx ρ σ₁ (.eval body) t₂ (.value w) σ₂ → Run cx ρ σ₂ (.loop l cond body) t₃ o σ₃ →
      Run cx ρ σ (.loop l cond body) (t₁ ++ t₂ ++ t₃) o σ₃
  | loopBreak {cx ρ σ σ₁ σ₂ l cond body v w t₁ t₂} :
      Run (cx.push (.cond l σ.next)) ρ σ.bump (.eval cond) t₁ (.value v) σ₁ →
      Run cx ρ σ₁ (.eval body) t₂ (.brk w) σ₂ →
      Run cx ρ σ (.loop l cond body) (t₁ ++ t₂) (.value w) σ₂
  | loopExit {cx ρ σ σ₁ σ₂ l cond body v o t₁ t₂} :
      Run (cx.push (.cond l σ.next)) ρ σ.bump (.eval cond) t₁ (.value v) σ₁ →
      Run cx ρ σ₁ (.eval body) t₂ o σ₂ → o.isExit →
      Run cx ρ σ (.loop l cond body) (t₁ ++ t₂) o σ₂
  | forIn {cx ρ σ σ' x iterable body v o t} :
      Run cx ρ σ (.each x v body) t o σ' → Run cx ρ σ (.rest (.forIn x iterable body) [v]) t o σ'
  | eachDone {cx ρ σ x v body} : Run cx ρ σ (.each x v body) [] (.value .unit) σ
  | eachStep {cx ρ σ σ₁ σ₂ x v w u n' body o t₁ t₂} :
      Derived (v :: σ.heap) σ.next n' w → σ.next ≤ n' →
      Run cx ((x, ⟨σ.cells.length, .val⟩) :: ρ) ((σ.withNext n').alloc .val w) (.eval body) t₁
        (.value u) σ₁ →
      Run cx ρ σ₁ (.each x v body) t₂ o σ₂ →
      Run cx ρ σ (.each x v body) (t₁ ++ t₂) o σ₂
  | eachBreak {cx ρ σ σ₁ x v w u n' body t} :
      Derived (v :: σ.heap) σ.next n' w → σ.next ≤ n' →
      Run cx ((x, ⟨σ.cells.length, .val⟩) :: ρ) ((σ.withNext n').alloc .val w) (.eval body) t
        (.brk u) σ₁ →
      Run cx ρ σ (.each x v body) t (.value u) σ₁
  | eachExit {cx ρ σ σ₁ x v w n' body o t} :
      Derived (v :: σ.heap) σ.next n' w → σ.next ≤ n' →
      Run cx ((x, ⟨σ.cells.length, .val⟩) :: ρ) ((σ.withNext n').alloc .val w) (.eval body) t o σ₁ →
      o.isExit → Run cx ρ σ (.each x v body) t o σ₁
  | ret {cx ρ σ value v} : Run cx ρ σ (.rest (.ret (some value)) [v]) [] (.ret v) σ
  | retUnit {cx ρ σ} : Run cx ρ σ (.rest (.ret none) []) [] (.ret .unit) σ
  | brk {cx ρ σ value v} : Run cx ρ σ (.rest (.brk (some value)) [v]) [] (.brk v) σ
  | brkUnit {cx ρ σ} : Run cx ρ σ (.rest (.brk none) []) [] (.brk .unit) σ
  | assign {cx ρ σ x slot value v} :
      ρ.lookup x = some slot →
      Run cx ρ σ (.rest (.assign (.var x) value) [v]) [] (.value v) (σ.store slot.addr v)
  | assignGlobal {cx ρ σ x value v} :
      ρ.lookup x = none → Run cx ρ σ (.rest (.assign (.var x) value) [v]) [] (.value v) σ

variable {vs : List Val} {n n' : Nat} {v : Val} {e : Expr}

theorem lookup_bind {x : String} {xs : List (String × Capability)} (hx : x ∉ xs.map (·.1)) {ρ : Env}
    {σ : State} : (bind ρ σ xs vs).1.lookup x = ρ.lookup x := by
  induction xs generalizing ρ σ vs with
  | nil => rfl
  | cons p xs ih =>
    obtain ⟨y, cap⟩ := p
    simp only [map_cons, mem_cons, not_or] at hx
    have hb : (x == y) = false := by simpa using hx.1
    rw [bind, ih hx.2, lookup_cons, hb]

/-- The frames outside the one that answers, and what the answer is for. -/
theorem findArm_some {frames outer : List Frame} {effect op : String} {frame : Frame}
    {h : EffectHandler} (hf : findArm frames effect op = some (frame, h, outer)) :
    (∃ inner, frames = inner ++ frame :: outer) ∧ h ∈ frame.arms ∧ h.effectName = effect ∧
    h.opName = op := by
  induction frames with
  | nil => cases hf
  | cons fr frames ih =>
    simp only [findArm] at hf
    split at hf
    · next h' hfind =>
      obtain ⟨rfl, rfl, rfl⟩ := hf
      have hp := find?_some hfind
      simp only [Bool.and_eq_true, beq_iff_eq] at hp
      exact ⟨⟨[], rfl⟩, mem_of_find?_eq_some hfind, hp⟩
    · obtain ⟨⟨inner, hi⟩, h'⟩ := ih hf
      exact ⟨⟨fr :: inner, by rw [hi]; rfl⟩, h'⟩

/-- What the value of a global name can be. -/
theorem isHost_of_derived {prog : Program} (h : Derived [] n n' v) : prog.isHost v = true := by
  cases h with
  | part hv _ => cases hv
  | data | actor => rfl

/-- Combining operands makes nothing out of nothing. -/
theorem derived_of_result {cx : Cx} {heap : List Val} (h : Result cx heap vs n n' v e) :
    v = cx.self ∨ v = .unit ∨ Derived (vs ++ heap) n n' v := by
  have fresh : ∀ ps : List Val, (∀ p ∈ ps, p ∈ vs) →
      (∃ id, n ≤ id ∧ id < n' ∧ v = .data id ps) → Derived (vs ++ heap) n n' v := by
    rintro ps hps ⟨id, hle, hlt, rfl⟩
    exact .data hle hlt fun p hp => .part (mem_append_left _ (hps p hp)) (.refl p)
  have operand : v ∈ vs → Derived (vs ++ heap) n n' v :=
    fun hv => .part (mem_append_left _ hv) (.refl v)
  have actor : ∀ name, (∃ id, n ≤ id ∧ id < n' ∧ v = .actor name id) →
      Derived (vs ++ heap) n n' v := by
    rintro name ⟨id, -, -, rfl⟩
    exact .actor name id
  unfold Result at h
  split at h
  case h_24 => exact .inl h
  case h_25 | h_26 | h_27 | h_28 => exact .inr (.inl h)
  all_goals refine .inr (.inr ?_)
  case h_2 | h_3 | h_4 | h_5 | h_6 => exact fresh [] (by simp) h
  case h_7 | h_8 | h_9 => exact fresh vs (fun _ hp => hp) h
  case h_10 | h_11 | h_12 | h_13 | h_22 | h_23 => exact h
  case h_14 | h_15 | h_16 | h_17 | h_18 | h_19 | h_20 => exact operand (by simp [h])
  case h_21 => exact actor _ h
  case h_30 =>
    have hv : v ∈ vs.drop 1 := h ▸ mem_singleton_self v
    exact operand (mem_of_mem_drop hv)
  all_goals cases h

theorem derived_of_hostResult {heap : List Val} (h : HostResult heap vs n n' v e) :
    Derived (vs ++ heap) n n' v := by
  unfold HostResult at h
  split at h
  · obtain ⟨id, rfl⟩ := h
    exact .actor _ id
  · obtain ⟨id, hle, hlt, rfl⟩ := h
    exact .data hle hlt fun _ hp => absurd hp not_mem_nil
  · exact h

theorem place_of_head {prog : Program} {op : Operand} (h : op ∈ e.head prog) :
    op.1 = none ∨ op.1 = some .index ∨ op.1 = some .given ∨ op.1 = some .resumeValue ∧
      e = .resume op.2 ∨
      op.1 = some .breakValue := by
  have plains : ∀ es : List Expr, op ∈ es.map plain → op.1 = none := by
    intro es hes
    obtain ⟨e', -, rfl⟩ := mem_map.mp hes
    rfl
  have fields : ∀ fs : List (String × Expr), op ∈ (fs.map fun f => plain f.2) → op.1 = none := by
    intro fs hfs
    obtain ⟨f, -, rfl⟩ := mem_map.mp hfs
    rfl
  have given : ∀ func, op ∈ prog.given func → op.1 = some .given := by
    intro func hg
    cases func with
    | var f =>
      obtain ⟨e', -, rfl⟩ := mem_map.mp hg
      rfl
    | _ => cases hg
  unfold Expr.head at h
  split at h
  all_goals grind [plain]

theorem mem_of_stores (h : v ∈ e.stores vs) : v ∈ vs := by
  unfold Expr.stores at h
  split at h
  · exact mem_of_mem_drop h
  · exact mem_of_mem_tail h
  · exact mem_of_mem_tail h
  · exact h
  · exact h
  · cases h

/-- No operand begins a body. -/
theorem isBody_of_head {prog : Program} {op : Operand} (h : op ∈ e.head prog) :
    ∀ p ∈ op.1, p.isBody = false := by
  intro p hp
  rcases place_of_head h with h | h | h | ⟨h, -⟩ | h <;> rw [h] at hp <;> cases hp <;> rfl

end Nulang.Ast

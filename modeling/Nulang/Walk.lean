import Nulang.Run

/-!
# Walked code

A checker looks at a body part by part; a run goes through the same parts in its own order, and
through the bodies of the functions it calls. `Walk` lists what a predicate on code has to be closed
under for runs to stay inside it: what an expression evaluates first and later, the body under its
handlers, the bodies of the functions and methods it applies, the code the lowering copies in.

Closures travel between runs, through variables, objects and messages. The invariant is therefore
about every value there is: the body of each closure is walked where it was made (`ValOk`). And a
function that is not `free` is no value at all: it is only applied, by its name, where it is named.
-/

set_option autoImplicit false

namespace Nulang.Ast

open List

/-- The places operands stand at. -/
def Place.isOperand : Place → Bool
  | .index | .given | .resumeValue | .breakValue => true
  | _ => false

/-- Neither an installed handler nor the entry of a run. -/
def Place.isInner : Place → Bool
  | .handled .. | .behavior _ | .top => false
  | _ => true

/-- The places down to the entry of the run the code was made in; closures carry them along. -/
def turn (places : List Place) : List Place := places.takeWhile (· ≠ .top)

/-- The operations bound by the handlers around the code, where it was made. -/
def handledOps (places : List Place) : List (String × String) :=
  (turn places).flatMap fun
    | .handled _ ops => ops
    | _ => []

/-- The handlers around the code are installed while it runs; only a closure can be run without
them. -/
def Linked (frames : List Frame) (places : List Place) : Prop :=
  .lambda ∈ turn places ∨ ∀ a ∈ handledOps places, a ∈ frames.flatMap (armOps ·.arms)

section Positions

variable {places : List Place} {p : Place}

@[simp] theorem turn_push (hp : p ≠ .top) : turn (p :: places) = p :: turn places := by
  simp [turn, hp]

variable {outer : List Place} {n : Nat} {frames : List Frame}

theorem turn_append (h : .top ∈ places) : turn (places ++ outer) = turn places := by
  induction places with
  | nil => cases h
  | cons q places ih =>
    by_cases hq : q = .top
    · subst hq
      rfl
    · have htail : .top ∈ places := (mem_cons.mp h).resolve_left fun heq => hq heq.symm
      rw [cons_append, turn_push hq, turn_push hq, ih htail]

/-- A position with an entry of its own stands in the same body, whatever is around it. -/
theorem bodyAt_append (h : .top ∈ places) :
    (places ++ outer).find? Place.isBody = places.find? Place.isBody := by
  have hsome : (places.find? Place.isBody).isSome := find?_isSome.mpr ⟨.top, h, rfl⟩
  obtain ⟨q, hq⟩ := Option.isSome_iff_exists.mp hsome
  rw [find?_append, hq]
  rfl

theorem behaviorAt_append (h : .top ∈ places) :
    behaviorAt (places ++ outer) = behaviorAt places := by
  unfold behaviorAt
  rw [bodyAt_append h]

theorem behaviorAt_push (hp : p.isBody = false) : behaviorAt (p :: places) = behaviorAt places := by
  unfold behaviorAt
  rw [find?_cons_of_neg (by simp [hp])]

theorem handledOps_append (h : .top ∈ places) :
    handledOps (places ++ outer) = handledOps places := by
  rw [handledOps, turn_append h, handledOps]

theorem handledOps_push (hp : p ≠ .top) {a : String × String} (h : a ∈ handledOps places) :
    a ∈ handledOps (p :: places) := by
  rw [handledOps, turn_push hp]
  exact mem_append_right _ h

@[simp] theorem handledOps_handled {ops : List (String × String)} :
    handledOps (.handled n ops :: places) = ops ++ handledOps places := by
  rw [handledOps, turn_push (by simp)]
  rfl

theorem Linked.push (hp : p.isInner = true) (h : Linked frames places) :
    Linked frames (p :: places) := by
  rw [Linked, handledOps, turn_push (by rintro rfl; cases hp)]
  refine h.imp (mem_cons_of_mem _) fun hin a ha => hin a ?_
  rw [flatMap_cons, mem_append] at ha
  refine ha.resolve_left fun ha => ?_
  cases p with
  | handled n ops => cases hp
  | _ => cases ha

theorem Linked.handle {arms : List EffectHandler} {ρ : Env} (h : Linked frames places) :
    Linked (⟨n, arms, ρ, places⟩ :: frames) (.handled n (armOps arms) :: places) := by
  rw [Linked, turn_push (by simp), handledOps_handled]
  refine h.imp (mem_cons_of_mem _) fun hin a ha => ?_
  rw [flatMap_cons]
  exact mem_append.mpr ((mem_append.mp ha).imp id (hin a))

end Positions

def MatchArm.exprs : MatchArm → List Expr
  | mk _ guard body => guard.toList ++ [body]

def ReceiveArm.exprs : ReceiveArm → List Expr
  | mk _ _ guard body => guard.toList ++ [body]

/-- What an expression may evaluate, or make a closure of, once its operands are evaluated; all of
it but the body of a `handle`, which runs under new handlers. -/
def Expr.later : Expr → List Expr
  | .lambda _ body _ | .letIn _ _ body _ _ | .forIn _ _ body => [body]
  | .letRec _ _ value body => [value, body]
  | .ifElse _ thenBranch elseBranch => thenBranch :: elseBranch.toList
  | .matchOn _ arms => arms.flatMap MatchArm.exprs
  | .receive arms after => arms.flatMap ReceiveArm.exprs ++ after.toList.map (·.2)
  | .block es | .par es => es
  | .handle _ arms => arms.map EffectHandler.body
  | .whileLoop cond body => [cond, body]
  | .defer e _ => [e]
  | _ => []

/-- The operands of an expression other than the function it applies. -/
def Expr.operands (prog : Program) : Expr → List Operand
  | .app func args => args.map plain ++ prog.given func
  | .pipe left (.app func args) => plain left :: args.map plain ++ prog.given func
  | .pipe left right => plain left :: prog.given right
  | e => e.head prog

/-- Where the function an expression applies is run. -/
def Expr.callPlaces (places : List Place) : Expr → List Place
  | .pipe _ (.app _ _) => places
  | .pipe _ _ => .pipe :: places
  | _ => places

variable {e : Expr} {prog : Program} {v : Val} {vs : List Val} {n n' : Nat} {σ : State} {cx : Cx}
  {code : Code} {o : Outcome}

variable {op : Operand} {func : Expr} {u f : Val} {ρ : Env}

theorem mem_head (h : op ∈ e.head prog) :
    op ∈ e.operands prog ∨ op.1 = none ∧ e.target = some op.2 := by
  cases e with
  | app func args =>
    rcases mem_cons.mp h with rfl | h
    · exact .inr ⟨rfl, rfl⟩
    · exact .inl h
  | pipe left right =>
    cases right with
    | app func args =>
      rcases mem_cons.mp h with rfl | h
      · exact .inl mem_cons_self
      · rcases mem_cons.mp h with rfl | h
        · exact .inr ⟨rfl, rfl⟩
        · exact .inl (mem_cons_of_mem _ h)
    | _ =>
      rcases mem_cons.mp h with rfl | h
      · exact .inl mem_cons_self
      · rcases mem_cons.mp h with rfl | h
        · exact .inr ⟨rfl, rfl⟩
        · exact .inl (mem_cons_of_mem _ h)
  | _ => exact .inl h

theorem mem_head_of_operands (h : op ∈ e.operands prog) : op ∈ e.head prog := by
  cases e with
  | app func args => exact mem_cons_of_mem _ h
  | pipe left right =>
    cases right with
    | app func args | _ =>
      rcases mem_cons.mp h with rfl | h
      · exact mem_cons_self
      · exact mem_cons_of_mem _ (mem_cons_of_mem _ h)
  | _ => exact h

theorem mem_head_of_target (h : e.target = some func) : plain func ∈ e.head prog := by
  cases e with
  | app => cases h; exact mem_cons_self
  | pipe left right =>
    cases right <;> cases h <;> exact mem_cons_of_mem _ mem_cons_self
  | _ => cases h

/-- A predicate on code, by where the code stands, that the runs of a program cannot leave. -/
structure Walk where
  prog : Program
  walked : List Place → Expr → Prop
  /-- the functions that may be used as values -/
  free : String → Prop
  /-- the declarations whose bodies are run -/
  runs : Nat → Prop
  name : ∀ {places f}, walked places (.var f) → free f
  push : ∀ {places e p}, p.isBody = false → walked places e → walked (p :: places) e
  /-- a closure keeps the places it was made at -/
  append : ∀ {places e outer}, .top ∈ places → walked places e → walked (places ++ outer) e
  operand : ∀ {places e op}, op ∈ e.operands prog → walked places e →
    walked (op.1.toList ++ places) op.2
  later : ∀ {places e e'}, e' ∈ e.later → walked places e → walked places e'
  handle : ∀ {places body arms} (n), walked places (.handle body arms) →
    walked (.handled n (armOps arms) :: places) body
  target : ∀ {places e func}, e.target = some func → walked places e →
    (∃ f, func = .var f) ∨ walked places func
  callee : ∀ {places e f fn}, e.target = some (.var f) → prog.functions.lookup f = some fn →
    walked places e → walked (.call f :: e.callPlaces places) fn.body
  body : ∀ {f fn} (places), free f → prog.functions.lookup f = some fn →
    walked (.call f :: places) fn.body
  method : ∀ {m fn} (places), (m, fn) ∈ prog.methods → walked (.method m :: places) fn.body
  signal : ∀ {x init} (places), prog.signals.lookup x = some init → walked (.signal :: places) init
  /-- the apply handlers of the entity whose behavior emits an event -/
  applied : ∀ {decl h} (places), runs decl → h ∈ prog.applies decl →
    walked (.behavior decl :: .top :: places) h.body

section

variable (w : Walk)

/-- The code was written in a body that is run. -/
def RunsAt (places : List Place) : Prop := ∀ decl, behaviorAt places = some decl → w.runs decl

/-- Every closure in the value was made by walked code, and every function in it is free. -/
inductive ValOk : Val → Prop where
  | data {id : Nat} {parts : List Val} : (∀ p ∈ parts, ValOk p) → ValOk (.data id parts)
  | actor (type : String) (id : Nat) : ValOk (.actor type id)
  | function {name : String} : w.free name → ValOk (.function name)
  | closure {self : Option String} {env : Env} {params : List Param} {body : Expr}
      {places : List Place} : .top ∈ places → RunsAt w places → w.walked places body →
      ValOk (.closure self env params body places)

structure StateOk (σ : State) : Prop where
  cells : ∀ c ∈ σ.cells, ValOk w c.value
  heap : ∀ v ∈ σ.heap, ValOk w v

end

/-- The values an outcome carries. -/
def Outcome.vals : Outcome → List Val
  | .value v | .brk v | .ret v | .resume v => [v]
  | .values vs => vs
  | .unwind _ o => o.vals
  | .halt => []

variable {w : Walk} {places : List Place}

/-! ## Values and states -/

theorem ValOk.of_part (hp : Part v u) (h : ValOk w v) : ValOk w u := by
  induction hp with
  | refl => exact h
  | held hmem _ ih =>
    cases h with
    | data hparts => exact ih (hparts _ hmem)

theorem ValOk.of_derived (hd : Derived vs n n' u) (h : ∀ v ∈ vs, ValOk w v) : ValOk w u := by
  induction hd with
  | part hv hp => exact (h _ hv).of_part hp
  | data _ _ _ ih => exact .data ih
  | actor type id => exact .actor type id

theorem valOk_unit : ValOk w .unit := .data fun _ hp => absurd hp not_mem_nil

theorem ValOk.tie {name : String} (h : ValOk w v) : ValOk w (tie name e v) := by
  unfold Ast.tie
  split
  · cases h with
    | closure htop hruns hw =>
      split
      · exact .closure htop hruns hw
      · exact .closure htop hruns hw
  · exact h

theorem forall_derived (hvs : ∀ v ∈ vs, ValOk w v) (hσ : StateOk w σ) :
    ∀ v ∈ vs ++ σ.heap, ValOk w v :=
  forall_mem_append.mpr ⟨hvs, hσ.heap⟩

namespace StateOk

section

variable (h : StateOk w σ)
include h

theorem alloc (cap : Capability) (hv : ValOk w v) : StateOk w (σ.alloc cap v) :=
  ⟨forall_mem_append.mpr ⟨h.cells, forall_mem_singleton.mpr hv⟩, h.heap⟩

theorem keep (n : Nat) (hvs : ∀ v ∈ vs, ValOk w v) : StateOk w ((σ.withNext n).keep vs) :=
  ⟨h.cells, forall_mem_append.mpr ⟨hvs, h.heap⟩⟩

theorem withNext (n : Nat) : StateOk w (σ.withNext n) := ⟨h.cells, h.heap⟩

theorem bump : StateOk w σ.bump := ⟨h.cells, h.heap⟩

theorem store (addr : Nat) (hv : ValOk w v) : StateOk w (σ.store addr v) := by
  refine ⟨fun c hc => ?_, h.heap⟩
  obtain ⟨i, hi⟩ := mem_iff_getElem?.mp hc
  rw [State.store, getElem?_modify] at hi
  obtain ⟨c', hc', rfl⟩ := Option.map_eq_some_iff.mp hi
  split
  · exact hv
  · exact h.cells c' (mem_of_getElem? hc')

theorem bind {ρ : Env} {xs : List (String × Capability)} (hvs : ∀ v ∈ vs, ValOk w v) :
    StateOk w (Ast.bind ρ σ xs vs).2 := by
  induction xs generalizing ρ σ vs with
  | nil => exact h
  | cons x xs ih =>
    obtain ⟨x, cap⟩ := x
    refine ih (h.alloc cap ?_) fun v hv => hvs v (mem_of_mem_tail hv)
    cases vs with
    | nil => exact valOk_unit
    | cons v vs => exact hvs v mem_cons_self

theorem capture (ρ : Env) (names : List String) :
    StateOk w { σ with cells := σ.cells ++ (captured ρ σ names).map (·.2.2) } := by
  refine ⟨forall_mem_append.mpr ⟨h.cells, fun c hc => ?_⟩, h.heap⟩
  obtain ⟨⟨x, slot, cell⟩, hmem, rfl⟩ := mem_map.mp hc
  obtain ⟨y, -, hy⟩ := mem_filterMap.mp hmem
  cases hslot : ρ.lookup y with
  | none => simp [hslot] at hy
  | some slot' =>
    cases hcell : σ.cells[slot'.addr]? with
    | none => simp [hslot, hcell] at hy
    | some cell' =>
      simp only [hslot, hcell, Option.bind_eq_bind, Option.bind_some, Option.pure_def,
        Option.some.injEq, Prod.mk.injEq] at hy
      obtain ⟨-, -, rfl⟩ := hy
      exact h.cells _ (mem_of_getElem? hcell)

end

end StateOk

theorem valOk_result (hself : ValOk w cx.self) (hσ : StateOk w σ) (hvs : ∀ v ∈ vs, ValOk w v)
    (h : Result cx σ.heap vs n n' v e) : ValOk w v := by
  rcases derived_of_result h with rfl | rfl | hd
  · exact hself
  · exact valOk_unit
  · exact .of_derived hd (forall_derived hvs hσ)

variable (w) in
/-- A value of the expression: a function that is not free is only the value of its own name. -/
def Yields (e : Expr) (v : Val) : Prop :=
  ValOk w v ∨ ∃ f, e = .var f ∧ v = .function f ∧ (w.prog.functions.lookup f).isSome

variable (w) in
/-- What can be applied at `places`. -/
def Callable (places : List Place) (v : Val) : Prop :=
  ValOk w v ∨ ∃ f fn, v = .function f ∧ w.prog.functions.lookup f = some fn ∧
    w.walked (.call f :: places) fn.body

theorem Yields.valOk (hw : w.walked places e) (h : Yields w e v) : ValOk w v := by
  rcases h with h | ⟨f, rfl, rfl, -⟩
  · exact h
  · exact .function (w.name hw)

theorem Yields.callable (hw : w.walked places e) (ht : e.target = some func) (h : Yields w func v) :
    Callable w (e.callPlaces places) v := by
  rcases h with h | ⟨f, rfl, rfl, hsome⟩
  · exact .inl h
  · obtain ⟨fn, hf⟩ := Option.isSome_iff_exists.mp hsome
    exact .inr ⟨f, fn, rfl, hf, w.callee ht hf hw⟩

theorem valOk_of_yields {ops : List Operand}
    (hw : ∀ op ∈ ops, w.walked (op.1.toList ++ places) op.2)
    (h : Forall₂ (fun op v => Yields w op.2 v) ops vs) : ∀ v ∈ vs, ValOk w v := by
  induction h with
  | nil => exact fun _ hv => absurd hv not_mem_nil
  | cons hhead _ ih =>
    obtain ⟨hop, hops⟩ := forall_mem_cons.mp hw
    exact forall_mem_cons.mpr ⟨hhead.valOk hop, ih hops⟩

theorem valOk_of_head (hw : w.walked places e) (ht : e.target = none)
    (h : Forall₂ (fun op v => Yields w op.2 v) (e.head w.prog) vs) : ∀ v ∈ vs, ValOk w v := by
  have hops : ∀ op ∈ e.head w.prog, w.walked (op.1.toList ++ places) op.2 := by
    intro op hop
    rcases mem_head hop with hop | ⟨-, htarget⟩
    · exact w.operand hop hw
    · rw [ht] at htarget
      cases htarget
  exact valOk_of_yields hops h

/-! ## Runs -/

variable (w) in
/-- Walked code, or a name in the place of a function. -/
def EvalWalked (places : List Place) (e : Expr) : Prop := w.walked places e ∨ ∃ f, e = .var f

variable (w) in
def CodeWalked (places : List Place) : Code → Prop
  | .eval e => EvalWalked w places e
  | .operands ops => ∀ op ∈ ops, (∀ p ∈ op.1, p.isOperand = true) ∧
      EvalWalked w (op.1.toList ++ places) op.2
  | .rest e vs => EvalWalked w places e ∧
      Forall₂ (fun op v => Yields w op.2 v) (e.head w.prog) vs
  | .arms vs clauses => (∀ v ∈ vs, ValOk w v) ∧ ∀ c ∈ clauses, ∀ e, c.guard = some e ∨ c.body = e →
      w.walked places e
  | .stmts last es => ValOk w last ∧ ∀ e ∈ es, w.walked places e
  | .call f vs => Callable w places f ∧ ∀ v ∈ vs, ValOk w v
  | .loop _ cond body => w.walked places cond ∧ w.walked places body
  | .each _ v body => ValOk w v ∧ w.walked places body

variable (w) in
/-- An installed handler whose arms were walked where it was installed. -/
structure FrameOk (frame : Frame) (outer : List Frame) : Prop where
  top : .top ∈ frame.places
  runs : RunsAt w frame.places
  linked : Linked outer frame.places
  arms : ∀ arm ∈ frame.arms, w.walked frame.places arm.body

variable (w) in
structure CxOk (cx : Cx) : Prop where
  prog : cx.prog = w.prog
  self : ValOk w cx.self
  top : .top ∈ cx.places
  runs : RunsAt w cx.places
  linked : Linked cx.frames cx.places
  frames : ∀ inner frame outer, cx.frames = inner ++ frame :: outer → FrameOk w frame outer

variable (w) in
/-- Operations are performed by walked code. -/
def Performed (ev : Event) : Prop :=
  ∀ effect op, ev.act = .perform effect op → ∃ cx e,
    ev = (Cx.performing cx e).event (.perform effect op) ∧ e.operation = some (effect, op) ∧
      w.walked cx.places e ∧ Linked cx.frames cx.places

variable (w) in
/-- What the end of code carries. -/
def CodeYields : Code → Outcome → Prop
  | .operands ops, .values vs => Forall₂ (fun op v => Yields w op.2 v) ops vs
  | .eval e, .value v | .rest e _, .value v => Yields w e v
  | _, o => ∀ v ∈ o.vals, ValOk w v

variable (w) in
/-- What holds after a run. -/
structure After (code : Code) (t : List Event) (o : Outcome) (σ : State) : Prop where
  events : ∀ ev ∈ t, Performed w ev
  yields : CodeYields w code o
  state : StateOk w σ

def Code.isOperands : Code → Bool
  | .operands _ => true
  | _ => false

theorem codeYields_of_vals (hcode : code.isOperands = false ∨ o.isExit = true)
    (h : ∀ v ∈ o.vals, ValOk w v) : CodeYields w code o := by
  cases code with
  | operands ops =>
    cases o with
    | values vs => rcases hcode with hc | hc <;> cases hc
    | _ => exact h
  | eval e | rest e _ =>
    cases o with
    | value v => exact .inl (h v (mem_singleton_self v))
    | _ => exact h
  | _ => exact h

/-- The values of walked code, and of what is neither an expression nor a list of operands. -/
theorem vals_of_walked (hw : w.walked places e) (h : CodeYields w (.eval e) o) :
    ∀ v ∈ o.vals, ValOk w v := by
  cases o with
  | value v => exact forall_mem_singleton.mpr (Yields.valOk hw h)
  | _ => exact h

theorem codeYields_eval (h : CodeYields w (.rest e vs) o) : CodeYields w (.eval e) o := by
  cases o <;> exact h

/-- An exit carries no function that is not free. -/
theorem vals_of_exit (ho : o.isExit = true) (h : CodeYields w code o) :
    ∀ v ∈ o.vals, ValOk w v := by
  cases code with
  | operands | eval | rest => cases o <;> first | exact h | cases ho
  | _ => exact h

namespace After

variable {code' : Code} {t t' : List Event} {o' : Outcome} {σ' : State}

theorem append (h : After w code t o σ) (h' : After w code' t' o' σ') :
    After w code' (t ++ t') o' σ' :=
  ⟨forall_mem_append.mpr ⟨h.events, h'.events⟩, h'.yields, h'.state⟩

theorem quiet (hcode : code.isOperands = false ∨ o.isExit = true)
    (hvals : ∀ v ∈ o.vals, ValOk w v) (hσ : StateOk w σ) : After w code [] o σ :=
  ⟨fun _ hev => absurd hev not_mem_nil, codeYields_of_vals hcode hvals, hσ⟩

theorem whole (h : After w code t o σ) (hcode : code'.isOperands = false ∨ o'.isExit = true)
    (hvals : ∀ v ∈ o'.vals, ValOk w v) : After w code' t o' σ :=
  ⟨h.events, codeYields_of_vals hcode hvals, h.state⟩

theorem tail (h : After w (.eval e) t o σ) (hw : w.walked places e)
    (hcode : code'.isOperands = false) : After w code' t o σ :=
  h.whole (.inl hcode) (vals_of_walked hw h.yields)

theorem exit (h : After w code t o σ) (ho : o.isExit = true) : After w code' t o σ :=
  h.whole (.inr ho) (vals_of_exit ho h.yields)

end After

theorem runsAt_behavior {decl : Nat} (h : w.runs decl) : RunsAt w (.behavior decl :: places) := by
  intro d hd
  cases hd
  exact h

theorem RunsAt.push {p : Place} (hp : p.isInner = true) (h : RunsAt w places) :
    RunsAt w (p :: places) := by
  intro decl hd
  cases p with
  | behavior | top | handled => cases hp
  | call | method => cases hd
  | _ => exact h decl hd

namespace CxOk

/-- The context of a body the host starts. -/
theorem entry {self : Val} (hself : ValOk w self) : CxOk w ⟨w.prog, self, [], [.top]⟩ :=
  ⟨rfl, hself, mem_singleton_self _, fun _ hd => (by cases hd), .inr fun _ ha =>
    absurd ha not_mem_nil,
    fun inner _ _ heq => by simp at heq⟩

theorem behavior {self : Val} (hself : ValOk w self) {decl : Nat} (hd : w.runs decl) :
    CxOk w ⟨w.prog, self, [], [.behavior decl, .top]⟩ :=
  ⟨rfl, hself, mem_cons_of_mem _ (mem_singleton_self _), runsAt_behavior hd,
    .inr fun _ ha => absurd ha not_mem_nil, fun inner _ _ heq => by simp at heq⟩

/-- The context of an apply handler: the handlers around the `emit` are installed, but are none of
its own. -/
theorem applied (h : CxOk w cx) {decl : Nat} (hd : w.runs decl) :
    CxOk w { cx with places := .behavior decl :: .top :: cx.places } :=
  ⟨h.prog, h.self, mem_cons_of_mem _ mem_cons_self, runsAt_behavior hd,
    .inr fun _ ha => absurd ha not_mem_nil, h.frames⟩

theorem push {p : Place} (h : CxOk w cx) (hp : p.isInner = true) : CxOk w (cx.push p) :=
  ⟨h.prog, h.self, mem_cons_of_mem _ h.top, h.runs.push hp, h.linked.push hp, h.frames⟩

theorem into {p : Option Place} (h : CxOk w cx) (hp : ∀ q ∈ p, q.isOperand = true) :
    CxOk w (cx.into p) := by
  cases p with
  | none => exact h
  | some q =>
    have hq : q.isOperand = true := hp q rfl
    exact h.push (by cases q <;> first | rfl | cases hq)

theorem handle {ρ : Env} {body : Expr} {arms : List EffectHandler} (h : CxOk w cx)
    (hw : w.walked cx.places (.handle body arms)) : CxOk w { cx with
      frames := ⟨n, arms, ρ, cx.places⟩ :: cx.frames
      places := .handled n (armOps arms) :: cx.places } := by
  have hruns : RunsAt w (.handled n (armOps arms) :: cx.places) := fun decl hd => h.runs decl hd
  refine ⟨h.prog, h.self, mem_cons_of_mem _ h.top, hruns, h.linked.handle, ?_⟩
  intro inner frame outer heq
  cases inner with
  | nil =>
    obtain ⟨rfl, rfl⟩ := cons.inj heq
    exact ⟨h.top, h.runs, h.linked, fun arm harm => w.later (mem_map_of_mem harm) hw⟩
  | cons _ inner => exact h.frames inner frame outer (cons.inj heq).2

theorem closure (h : CxOk w cx) (htop : .top ∈ places) (hruns : RunsAt w places) :
    CxOk w { cx with places := .lambda :: (places ++ cx.places) } := by
  have hmade : RunsAt w (places ++ cx.places) :=
    fun decl hd => hruns decl (behaviorAt_append htop ▸ hd)
  refine ⟨h.prog, h.self, mem_cons_of_mem _ (mem_append_right _ h.top), hmade.push rfl,
    ?_, h.frames⟩
  exact .inl (by rw [turn_push (by simp)]; exact mem_cons_self)

theorem arm {effect op : String} {frame : Frame} {arm : EffectHandler} {outer : List Frame}
    (h : CxOk w cx) (hfind : findArm cx.frames effect op = some (frame, arm, outer)) :
    CxOk w { cx with frames := outer, places := .arm frame.id n :: frame.places } ∧
      w.walked (.arm frame.id n :: frame.places) arm.body := by
  obtain ⟨⟨inner, hframes⟩, harm, -, -⟩ := findArm_some hfind
  have hframe := h.frames inner frame outer hframes
  refine ⟨⟨h.prog, h.self, mem_cons_of_mem _ hframe.top, hframe.runs.push rfl,
    hframe.linked.push rfl, fun inner' frame' outer' heq => ?_⟩,
    w.push rfl (hframe.arms _ harm)⟩
  refine h.frames (inner ++ frame :: inner') frame' outer' ?_
  rw [hframes, append_assoc, cons_append]
  exact congrArg (inner ++ frame :: ·) heq

end CxOk

/-! ### The run lemma -/

theorem codeWalked_head (hcx : CxOk w cx) (h : EvalWalked w cx.places e) :
    CodeWalked w cx.places (.operands (e.head cx.prog)) := by
  intro op hop
  refine ⟨fun p hp => ?_, ?_⟩
  · rcases place_of_head hop with h | h | h | ⟨h, -⟩ | h <;> rw [h] at hp <;> cases hp <;> rfl
  rcases h with hw | ⟨f, rfl⟩
  · rw [hcx.prog] at hop
    rcases mem_head hop with hop | ⟨hnone, ht⟩
    · exact .inl (w.operand hop hw)
    · rw [hnone]
      exact (w.target ht hw).symm
  · cases hop

/-- The operands of a method call are walked as those of the call it is written as. -/
theorem codeWalked_method {m : String} {ops : List Operand} (hm : e.methodCall = some (m, ops))
    (h : EvalWalked w places e) : ∀ op ∈ ops, op.1 = none ∧ w.walked places op.2 := by
  have hargs : ∀ args : List Expr, (∀ op ∈ args.map plain, op ∈ e.operands w.prog) →
      w.walked places e →
      ∀ op ∈ args.map plain, op.1 = none ∧ w.walked places op.2 := by
    intro args hmem hw op hop
    have hwalked := w.operand (hmem op hop) hw
    obtain ⟨e', -, rfl⟩ := mem_map.mp hop
    exact ⟨rfl, hwalked⟩
  have hreceiver : ∀ {receiver}, e.target = some (.fieldAccess receiver m) → w.walked places e →
      (plain receiver).1 = none ∧ w.walked places (plain receiver).2 := by
    intro receiver ht hw
    have hfield := (w.target ht hw).resolve_left (by rintro ⟨f, hf⟩; cases hf)
    have hop : plain receiver ∈ (Expr.fieldAccess receiver m).operands w.prog := mem_cons_self
    exact ⟨rfl, w.operand hop hfield⟩
  rcases h with hw | ⟨f, rfl⟩
  case inr => cases hm
  unfold Expr.methodCall at hm
  split at hm
  · cases hm
    exact forall_mem_cons.mpr ⟨hreceiver rfl hw, hargs _ (fun op hop => mem_append_left _ hop) hw⟩
  · cases hm
    exact forall_mem_cons.mpr
      ⟨hreceiver rfl hw, hargs (_ :: _) (fun op hop => mem_append_left _ hop) hw⟩
  · cases hm
    exact forall_mem_cons.mpr ⟨hreceiver rfl hw, hargs [_] (fun op hop => mem_append_left _ hop) hw⟩
  · cases hm

theorem codeWalked_operands {ops : List Operand}
    (h : ∀ op ∈ ops, op.1 = none ∧ w.walked places op.2) :
    CodeWalked w places (.operands ops) := by
  intro op hop
  obtain ⟨hnone, hw⟩ := h op hop
  rw [hnone]
  exact ⟨fun p hp => (by cases hp), .inl hw⟩

/-- The values of the operands of walked code that is neither a name nor an application. -/
theorem rest_walked (h : CodeWalked w places (.rest e vs)) (hvar : ∀ f, e ≠ .var f)
    (ht : e.target = none) : w.walked places e ∧ ∀ v ∈ vs, ValOk w v := by
  rcases h.1 with hw | ⟨f, rfl⟩
  · exact ⟨hw, valOk_of_head hw ht h.2⟩
  · exact absurd rfl (hvar f)

theorem performed_other {act : Act} (h : ∀ effect op, act ≠ .perform effect op) :
    Performed w (cx.event act) := fun effect op hact => absurd hact (h effect op)

theorem performed_acts : ∀ ev ∈ (e.acts ρ σ vs).map cx.event, Performed w ev := by
  intro ev hev
  obtain ⟨act, hmem, rfl⟩ := mem_map.mp hev
  refine performed_other fun effect op hact => ?_
  subst hact
  cases e <;> simp [Expr.acts] at hmem

/-! Outcomes on their way out carry the same values. -/

theorem vals_called (h : v ∈ o.called.vals) : v ∈ o.vals := by
  cases o <;> first | exact h | cases h

theorem vals_outside (h : v ∈ (o.outside n).vals) : v ∈ o.vals := by
  cases o with
  | unwind f o =>
    simp only [Outcome.outside] at h
    split at h <;> exact h
  | _ => exact h

theorem vals_answered {resumes : Bool} (h : v ∈ (o.answered n resumes).vals) : v ∈ o.vals := by
  cases o with
  | value w =>
    simp only [Outcome.answered] at h
    split at h <;> exact h
  | _ => exact h

/-- The operands of a bare pipe. -/
theorem pipe_operands {left right : Expr} (hr : right.isApp = false)
    (hw : w.walked places (.pipe left right))
    (h : Forall₂ (fun op v => Yields w op.2 v) ((Expr.pipe left right).head w.prog)
      (v :: f :: vs)) : ValOk w v ∧ Callable w (.pipe :: places) f ∧ ∀ u ∈ vs, ValOk w u := by
  have hhead : (Expr.pipe left right).head w.prog = plain left :: plain right ::
      w.prog.given right ∧
      (Expr.pipe left right).operands w.prog = plain left :: w.prog.given right ∧
      (Expr.pipe left right).target = some right ∧
      (Expr.pipe left right).callPlaces places = .pipe :: places := by
    cases right <;> first | exact ⟨rfl, rfl, rfl, rfl⟩ | cases hr
  obtain ⟨hhead, hops, htarget, hplaces⟩ := hhead
  rw [hhead, forall₂_cons, forall₂_cons] at h
  have hop : ∀ op ∈ plain left :: w.prog.given right, w.walked (op.1.toList ++ places) op.2 :=
    fun op hop => w.operand (by rw [hops]; exact hop) hw
  obtain ⟨hleft, hgiven⟩ := forall_mem_cons.mp hop
  exact ⟨h.1.valOk hleft, hplaces ▸ h.2.1.callable hw htarget, valOk_of_yields hgiven h.2.2⟩

theorem callable_function {f : String} {fn : Fn} (hf : w.prog.functions.lookup f = some fn)
    (h : Callable w places (.function f)) : w.walked (.call f :: places) fn.body := by
  rcases h with hfree | ⟨name, fn', hname, hf', hbody⟩
  · cases hfree with
    | function hfree => exact w.body _ hfree hf
  · cases hname
    rw [hf] at hf'
    cases hf'
    exact hbody

/-- What the host is asked to apply is a value of its own. -/
theorem isHost_callable (hcx : CxOk w cx) (hhost : cx.prog.isHost f = true)
    (h : Callable w places f) : ValOk w f := by
  rcases h with h | ⟨name, fn, rfl, hf, -⟩
  · exact h
  · rw [hcx.prog] at hhost
    simp [Program.isHost, hf] at hhost

theorem plain_of_result {heap : List Val} (h : Result cx heap vs n n' v e) :
    (∀ f, e ≠ .var f) ∧ e.target = none := by
  cases e with
  | var | app | pipe => exact h.elim
  | _ => exact ⟨by simp, rfl⟩

theorem plain_of_operation {effect op : String} (h : e.operation = some (effect, op)) :
    (∀ f, e ≠ .var f) ∧ e.target = none := by
  cases e with
  | var | app | pipe => cases h
  | _ => exact ⟨by simp, rfl⟩

theorem performed_operation {effect op : String} (hcx : CxOk w cx)
    (hop : e.operation = some (effect, op)) (hw : w.walked cx.places e) :
    Performed w ((cx.performing e).event (.perform effect op)) := by
  intro effect' op' hact
  cases hact
  exact ⟨cx, e, rfl, hop, hw, hcx.linked⟩

/-- The code the clauses of a `match` or a `receive` run. -/
theorem clauses_walked {arms : List MatchArm} {scrutinee : Expr}
    (h : w.walked places (.matchOn scrutinee arms)) :
    ∀ c ∈ arms.map MatchArm.clause, ∀ e, c.guard = some e ∨ c.body = e → w.walked places e := by
  intro c hc e he
  obtain ⟨⟨pattern, guard, body⟩, harm, rfl⟩ := mem_map.mp hc
  refine w.later (mem_flatMap.mpr ⟨_, harm, ?_⟩) h
  rcases he with he | he
  · exact mem_append_left _ (Option.mem_toList.mpr he)
  · exact mem_append_right _ (mem_singleton.mpr he.symm)

theorem receive_walked {arms : List ReceiveArm} {after : Option (Expr × Expr)}
    (h : w.walked places (.receive arms after)) :
    ∀ c ∈ arms.map ReceiveArm.clause, ∀ e, c.guard = some e ∨ c.body = e → w.walked places e := by
  intro c hc e he
  obtain ⟨⟨behavior, patterns, guard, body⟩, harm, rfl⟩ := mem_map.mp hc
  refine w.later (mem_append_left _ (mem_flatMap.mpr ⟨_, harm, ?_⟩)) h
  rcases he with he | he
  · exact mem_append_left _ (Option.mem_toList.mpr he)
  · exact mem_append_right _ (mem_singleton.mpr he.symm)

/-- A run from walked code stays in walked code: it performs operations only there, and every
closure it leaves behind was made there. -/
theorem Run.walked {σ' : State} {t : List Event} (h : Run cx ρ σ code t o σ') (hcx : CxOk w cx)
    (hσ : StateOk w σ) (hw : CodeWalked w cx.places code) : After w code t o σ' := by
  have nil : ∀ v ∈ ([] : List Val), ValOk w v := fun _ hv => absurd hv not_mem_nil
  have unit : ∀ v ∈ [Val.unit], ValOk w v := forall_mem_singleton.mpr valOk_unit
  -- Induction on the run, with one case per rule. A case finds the walked expression its premise
  -- runs, applies the hypothesis there, and joins the two traces.
  induction h with
  | halt =>
    exact .quiet (.inr rfl) nil hσ
  | operandsNil =>
    exact ⟨fun _ hev => absurd hev not_mem_nil, .nil, hσ⟩
  | operandsCons h₁ h₂ ih₁ ih₂ =>
    obtain ⟨⟨hp, hhead⟩, htail⟩ := forall_mem_cons.mp hw
    have hfirst := ih₁ (hcx.into hp) hσ (by rw [Cx.places_into]; exact hhead)
    have hrest := ih₂ hcx hfirst.state htail
    exact ⟨(hfirst.append hrest).events, .cons hfirst.yields hrest.yields, hrest.state⟩
  | operandsHead h₁ hexit ih =>
    obtain ⟨⟨hp, hhead⟩, -⟩ := forall_mem_cons.mp hw
    exact (ih (hcx.into hp) hσ (by rw [Cx.places_into]; exact hhead)).exit hexit
  | operandsTail h₁ h₂ hexit ih₁ ih₂ =>
    obtain ⟨⟨hp, hhead⟩, htail⟩ := forall_mem_cons.mp hw
    have hfirst := ih₁ (hcx.into hp) hσ (by rw [Cx.places_into]; exact hhead)
    exact (hfirst.append (ih₂ hcx hfirst.state htail)).exit hexit
  | eval h₁ h₂ ih₁ ih₂ =>
    have hhead := ih₁ hcx hσ (codeWalked_head hcx hw)
    have hops := hhead.yields
    rw [hcx.prog] at hops
    have hrest := ih₂ hcx hhead.state ⟨hw, hops⟩
    exact ⟨(hhead.append hrest).events, codeYields_eval hrest.yields, hrest.state⟩
  | evalExit h₁ hexit ih =>
    exact (ih hcx hσ (codeWalked_head hcx hw)).exit hexit
  | node hres hle =>
    obtain ⟨hvar, htarget⟩ := plain_of_result hres
    obtain ⟨-, hvals⟩ := rest_walked hw hvar htarget
    exact ⟨performed_acts, .inl (valOk_result hcx.self hσ hvals hres),
      hσ.keep _ fun v hv => hvals v (mem_of_stores hv)⟩
  -- What the actor declares to apply an event runs at a place of its own, and is walked there.
  | emitApply hbehavior hmem hevent h₁ hfalls h₂ ih₁ ih₂ =>
    rw [hcx.prog] at hmem
    obtain ⟨-, hvals⟩ := rest_walked hw (by simp) rfl
    have hruns := hcx.runs _ hbehavior
    have hfirst := ih₁ (hcx.applied hruns) (hσ.bind hvals) (.inl (w.applied _ hruns hmem))
    exact hfirst.append (ih₂ hcx hfirst.state hw)
  | emitExit hbehavior hmem hevent h₁ hexit ih =>
    rw [hcx.prog] at hmem
    obtain ⟨-, hvals⟩ := rest_walked hw (by simp) rfl
    have hruns := hcx.runs _ hbehavior
    exact (ih (hcx.applied hruns) (hσ.bind hvals) (.inl (w.applied _ hruns hmem))).exit hexit
  | varLocal hs hl hc =>
    exact ⟨forall_mem_singleton.mpr (performed_other (by simp)),
      .inl (hσ.cells _ (mem_of_getElem? hc)), hσ⟩
  | varSignal hs h₁ ih =>
    rw [hcx.prog] at hs
    exact (ih (hcx.push rfl) hσ (.inl (w.signal _ hs))).tail (w.signal [] hs) rfl
  | varFunction _ _ hsome =>
    rw [hcx.prog] at hsome
    exact ⟨fun _ hev => absurd hev not_mem_nil, .inr ⟨_, rfl, rfl, hsome⟩, hσ⟩
  | varGlobal _ _ _ hd hle =>
    exact .quiet (.inl rfl) (forall_mem_singleton.mpr (.of_derived hd nil)) (hσ.withNext _)
  | lambda =>
    obtain ⟨hw, -⟩ := rest_walked hw (by simp) rfl
    refine ⟨fun ev hev => ?_, .inl (.closure hcx.top hcx.runs (w.later mem_cons_self hw)),
      hσ.capture _ _⟩
    obtain ⟨c, -, rfl⟩ := mem_map.mp hev
    exact performed_other (by simp)
  | letIn h₁ ih =>
    obtain ⟨hw, hvals⟩ := rest_walked hw (by simp) rfl
    have hbody := w.later mem_cons_self hw
    exact (ih hcx (hσ.alloc _ (hvals _ mem_cons_self).tie) (.inl hbody)).tail hbody rfl
  | letRec h₁ ih =>
    obtain ⟨hw, -⟩ := rest_walked hw (by simp) rfl
    have hvalue := w.later mem_cons_self hw
    have hbody := w.later (mem_cons_of_mem _ mem_cons_self) hw
    have hrest := ih hcx ((hσ.capture _ _).alloc _ (.closure hcx.top hcx.runs hvalue)) (.inl hbody)
    refine ⟨forall_mem_append.mpr ⟨fun ev hev => ?_, hrest.events⟩, (hrest.tail hbody rfl).yields,
      hrest.state⟩
    obtain ⟨c, -, rfl⟩ := mem_map.mp hev
    exact performed_other (by simp)
  | thenBranch h₁ ih =>
    obtain ⟨hw, -⟩ := rest_walked hw (by simp) rfl
    have hbody := w.later mem_cons_self hw
    exact (ih (hcx.push rfl) hσ.bump (.inl (w.push rfl hbody))).tail hbody rfl
  | elseBranch h₁ ih =>
    obtain ⟨hw, -⟩ := rest_walked hw (by simp) rfl
    have hbody := w.later (mem_cons_of_mem _ mem_cons_self) hw
    exact (ih (hcx.push rfl) hσ.bump (.inl (w.push rfl hbody))).tail hbody rfl
  | matchOn h₁ ih =>
    obtain ⟨hw, hvals⟩ := rest_walked hw (by simp) rfl
    have harms := ih hcx hσ ⟨hvals, clauses_walked hw⟩
    exact harms.whole (.inl rfl) harms.yields
  | receive hws hle h₁ ih =>
    obtain ⟨hw, -⟩ := rest_walked hw (by simp) rfl
    have harms :=
      ih hcx (hσ.withNext _) ⟨fun u h => .of_derived (hws u h) hσ.heap, receive_walked hw⟩
    exact harms.whole (.inl rfl) harms.yields
  | timeout h₁ ih =>
    obtain ⟨hw, -⟩ := rest_walked hw (by simp) rfl
    have hbody := w.later (mem_append_right _ mem_cons_self) hw
    exact (ih (hcx.push rfl) hσ.bump (.inl (w.push rfl hbody))).tail hbody rfl
  | armSkip h₁ ih =>
    have hrest := ih hcx hσ ⟨hw.1, (forall_mem_cons.mp hw.2).2⟩
    exact hrest.whole (.inl rfl) hrest.yields
  | armTake hws hle h₁ ih =>
    have hws' := fun u h => ValOk.of_derived (hws u h) (forall_derived hw.1 hσ)
    have hbody := (forall_mem_cons.mp hw.2).1 _ (.inr rfl)
    exact (ih (hcx.push rfl) ((hσ.withNext _).bump.bind hws')
      (.inl (w.push rfl hbody))).tail hbody rfl
  | armPass hws hle h₁ h₂ ih₁ ih₂ =>
    have hws' := fun u h => ValOk.of_derived (hws u h) (forall_derived hw.1 hσ)
    have hclause := (forall_mem_cons.mp hw.2).1
    have hguard := ih₁ (hcx.push rfl) ((hσ.withNext _).bump.bind hws')
      (.inl (w.push rfl (hclause _ (.inl rfl))))
    have hbody := hclause _ (.inr rfl)
    exact hguard.append ((ih₂ (hcx.push rfl) hguard.state (.inl (w.push rfl hbody))).tail hbody rfl)
  | armFail hws hle h₁ h₂ ih₁ ih₂ =>
    have hws' := fun u h => ValOk.of_derived (hws u h) (forall_derived hw.1 hσ)
    obtain ⟨hclause, hothers⟩ := forall_mem_cons.mp hw.2
    have hguard := ih₁ (hcx.push rfl) ((hσ.withNext _).bump.bind hws')
      (.inl (w.push rfl (hclause _ (.inl rfl))))
    have hrest := ih₂ hcx hguard.state ⟨hw.1, hothers⟩
    exact (hguard.append hrest).whole (.inl rfl) hrest.yields
  | armExit hws hle h₁ hexit ih =>
    have hws' := fun u h => ValOk.of_derived (hws u h) (forall_derived hw.1 hσ)
    have hguard := (forall_mem_cons.mp hw.2).1 _ (.inl rfl)
    exact (ih (hcx.push rfl) ((hσ.withNext _).bump.bind hws') (.inl (w.push rfl hguard))).exit hexit
  | @block _ _ _ _ es _ _ h₁ ih | @par _ _ _ _ es _ _ h₁ ih =>
    obtain ⟨hw, -⟩ := rest_walked hw (by simp) rfl
    have hes : ∀ e ∈ es, w.walked _ e := fun e he => w.later (by exact he) hw
    have hstmts := ih hcx hσ ⟨valOk_unit, hes⟩
    exact hstmts.whole (.inl rfl) hstmts.yields
  | stmtsNil =>
    exact .quiet (.inl rfl) (forall_mem_singleton.mpr hw.1) hσ
  | stmtsCons hd h₁ h₂ ih₁ ih₂ =>
    obtain ⟨hhead, htail⟩ := forall_mem_cons.mp hw.2
    have hfirst := ih₁ hcx hσ (.inl hhead)
    have hrest := ih₂ hcx hfirst.state ⟨Yields.valOk hhead hfirst.yields, htail⟩
    exact (hfirst.append hrest).whole (.inl rfl) hrest.yields
  | stmtsExit hd h₁ hexit ih =>
    exact (ih hcx hσ (.inl (forall_mem_cons.mp hw.2).1)).exit hexit
  | stmtsDefer h₁ h₂ ih₁ ih₂ =>
    obtain ⟨hdefer, htail⟩ := forall_mem_cons.mp hw.2
    have hstmts := ih₁ (hcx.push rfl) hσ.bump ⟨hw.1, fun e he => w.push rfl (htail e he)⟩
    have hdeferred := w.later mem_cons_self hdefer
    have hlast := ih₂ (hcx.push rfl) hstmts.state (.inl (w.push rfl hdeferred))
    refine (hstmts.append hlast).whole (.inl rfl) ?_
    rw [Outcome.deferring]
    split
    · exact vals_of_walked hdeferred hlast.yields
    · exact hstmts.yields
  | stmtsDrop h₁ hexit ih =>
    exact (ih (hcx.push rfl) hσ.bump
      ⟨hw.1, fun e he => w.push rfl ((forall_mem_cons.mp hw.2).2 e he)⟩).exit hexit
  | app h₁ ih =>
    obtain ⟨hw, hops⟩ := hw
    replace hw := hw.resolve_right (by simp)
    rw [Expr.head, cons_append, forall₂_cons] at hops
    have hargs := valOk_of_yields (fun op hop => w.operand hop hw) hops.2
    have hcall := ih hcx hσ ⟨hops.1.callable hw rfl, hargs⟩
    exact hcall.whole (.inl rfl) hcall.yields
  | pipeApp h₁ ih =>
    obtain ⟨hw, hops⟩ := hw
    replace hw := hw.resolve_right (by simp)
    rw [Expr.head, cons_append, cons_append, forall₂_cons, forall₂_cons] at hops
    have hleft := hops.1.valOk (w.operand mem_cons_self hw)
    have hargs := valOk_of_yields
      (fun op hop => w.operand (e := .pipe _ (.app _ _)) (mem_cons_of_mem _ hop) hw) hops.2.2
    have hcall := ih hcx hσ ⟨hops.2.1.callable hw rfl, forall_mem_cons.mpr ⟨hleft, hargs⟩⟩
    exact hcall.whole (.inl rfl) hcall.yields
  | pipe hr h₁ ih =>
    obtain ⟨hw, hops⟩ := hw
    replace hw := hw.resolve_right (by simp)
    obtain ⟨hleft, htarget, hgiven⟩ := pipe_operands hr hw hops
    have hcall := ih (hcx.push rfl) hσ ⟨htarget, forall_mem_cons.mpr ⟨hleft, hgiven⟩⟩
    exact hcall.whole (.inl rfl) hcall.yields
  | method hm hmem h₁ h₂ ih₁ ih₂ =>
    rw [hcx.prog] at hmem
    have hops := codeWalked_method hm hw
    have hoperands := ih₁ hcx hσ (codeWalked_operands hops)
    have hvals := valOk_of_yields (fun op hop => by rw [(hops op hop).1]; exact (hops op hop).2)
      hoperands.yields
    have hbody := w.method [] hmem
    have hrun := ih₂ (hcx.push rfl) (hoperands.state.bind hvals) (.inl (w.method _ hmem))
    exact (hoperands.append hrun).whole (.inl rfl) fun v hv =>
      vals_of_walked hbody hrun.yields v (vals_called hv)
  | methodExit hm h₁ hexit ih =>
    exact (ih hcx hσ (codeWalked_operands (codeWalked_method hm hw))).exit hexit
  | callFunction hf h₁ ih =>
    rw [hcx.prog] at hf
    have hbody := callable_function hf hw.1
    have hrun := ih (hcx.push rfl) (hσ.bind hw.2) (.inl hbody)
    exact hrun.whole (.inl rfl) fun v hv => vals_of_walked hbody hrun.yields v (vals_called hv)
  | @callClosure _ _ _ _ self env params body places _ _ _ h₁ ih =>
    have hclosure : ValOk w (.closure self env params body places) := by
      rcases hw.1 with h | ⟨f, fn, hname, -⟩
      · exact h
      · cases hname
    have hself : ∀ v ∈ self.toList.map fun _ => Val.closure self env params body places,
        ValOk w v := by
      intro v hv
      obtain ⟨-, -, rfl⟩ := mem_map.mp hv
      exact hclosure
    have hvs := forall_mem_append.mpr ⟨hself, hw.2⟩
    cases hclosure with
    | closure htop hruns hbody =>
      have hrun :=
        ih (hcx.closure htop hruns) (hσ.bind hvs) (.inl (w.push rfl (w.append htop hbody)))
      exact hrun.whole (.inl rfl) fun v hv => vals_of_walked hbody hrun.yields v (vals_called hv)
  -- A host function returns what its arguments or the heap lead to, so no new closure is made.
  | callHost hhost hd hle =>
    have hcallee := isHost_callable hcx hhost hw.1
    have hv := ValOk.of_derived hd (forall_derived (forall_mem_cons.mpr ⟨hcallee, hw.2⟩) hσ)
    exact .quiet (.inl rfl) (forall_mem_singleton.mpr hv) (hσ.keep _ hw.2)
  | handle h₁ ih =>
    obtain ⟨hw, -⟩ := rest_walked hw (by simp) rfl
    have hrun := ih (hcx.handle hw) hσ.bump (.inl (w.handle _ hw))
    exact hrun.whole (.inl rfl) fun v hv =>
      vals_of_walked (w.handle 0 hw) hrun.yields v (vals_outside hv)
  | performHost hop hfind hres hle =>
    obtain ⟨hvar, htarget⟩ := plain_of_operation hop
    obtain ⟨hw, hvals⟩ := rest_walked hw hvar htarget
    have hv := ValOk.of_derived (derived_of_hostResult hres) (forall_derived hvals hσ)
    exact ⟨forall_mem_singleton.mpr (performed_operation hcx hop hw), .inl hv, hσ.keep _ hvals⟩
  | performArm hop hfind h₁ ih =>
    obtain ⟨hvar, htarget⟩ := plain_of_operation hop
    obtain ⟨hw, hvals⟩ := rest_walked hw hvar htarget
    obtain ⟨hcx', harm⟩ := hcx.arm hfind
    have hbody := ih hcx' (hσ.bump.bind hvals) (.inl harm)
    exact ⟨forall_mem_cons.mpr ⟨performed_operation hcx hop hw, hbody.events⟩,
      codeYields_of_vals (.inl rfl) fun v hv =>
        vals_of_walked harm hbody.yields v (vals_answered hv),
      hbody.state⟩
  | noElse | eachDone | retUnit | brkUnit =>
    exact .quiet (.inl rfl) unit hσ
  | resume | ret | brk | assignGlobal =>
    obtain ⟨-, hvals⟩ := rest_walked hw (by simp) rfl
    exact .quiet (.inl rfl) hvals hσ
  | assign =>
    obtain ⟨-, hvals⟩ := rest_walked hw (by simp) rfl
    exact .quiet (.inl rfl) hvals (hσ.store _ (hvals _ mem_cons_self))
  | whileLoop h₁ ih =>
    obtain ⟨hw, -⟩ := rest_walked hw (by simp) rfl
    have hloop :=
      ih hcx hσ.bump ⟨w.later mem_cons_self hw, w.later (mem_cons_of_mem _ mem_cons_self) hw⟩
    exact hloop.whole (.inl rfl) hloop.yields
  | loopDone h₁ ih =>
    exact (ih (hcx.push rfl) hσ.bump (.inl (w.push rfl hw.1))).whole (.inl rfl) unit
  | loopCond h₁ hexit ih =>
    exact (ih (hcx.push rfl) hσ.bump (.inl (w.push rfl hw.1))).exit hexit
  | loopStep h₁ h₂ h₃ ih₁ ih₂ ih₃ =>
    have hcond := ih₁ (hcx.push rfl) hσ.bump (.inl (w.push rfl hw.1))
    have hbody := ih₂ hcx hcond.state (.inl hw.2)
    exact (hcond.append hbody).append (ih₃ hcx hbody.state hw)
  | loopBreak h₁ h₂ ih₁ ih₂ =>
    have hcond := ih₁ (hcx.push rfl) hσ.bump (.inl (w.push rfl hw.1))
    have hbody := ih₂ hcx hcond.state (.inl hw.2)
    exact (hcond.append hbody).whole (.inl rfl) hbody.yields
  | loopExit h₁ h₂ hexit ih₁ ih₂ =>
    have hcond := ih₁ (hcx.push rfl) hσ.bump (.inl (w.push rfl hw.1))
    exact hcond.append ((ih₂ hcx hcond.state (.inl hw.2)).exit hexit)
  | forIn h₁ ih =>
    obtain ⟨hw, hvals⟩ := rest_walked hw (by simp) rfl
    have heach := ih hcx hσ ⟨hvals _ mem_cons_self, w.later mem_cons_self hw⟩
    exact heach.whole (.inl rfl) heach.yields
  | eachStep hd hle h₁ h₂ ih₁ ih₂ =>
    have hitem := ValOk.of_derived hd (forall_mem_cons.mpr ⟨hw.1, hσ.heap⟩)
    have hbody := ih₁ hcx ((hσ.withNext _).alloc _ hitem) (.inl hw.2)
    exact hbody.append (ih₂ hcx hbody.state hw)
  | eachBreak hd hle h₁ ih =>
    have hitem := ValOk.of_derived hd (forall_mem_cons.mpr ⟨hw.1, hσ.heap⟩)
    have hbody := ih hcx ((hσ.withNext _).alloc _ hitem) (.inl hw.2)
    exact hbody.whole (.inl rfl) hbody.yields
  | eachExit hd hle h₁ hexit ih =>
    have hitem := ValOk.of_derived hd (forall_mem_cons.mpr ⟨hw.1, hσ.heap⟩)
    exact (ih hcx ((hσ.withNext _).alloc _ hitem) (.inl hw.2)).exit hexit

end Nulang.Ast

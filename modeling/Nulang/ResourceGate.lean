import Nulang.EffectModule

/-!
# The resource gate

`check_resource_grants` looks at the rows of the module's functions. A function's own row has every
effect that `infer_effects` finds in its body, closures made there included, so what matters about
an operation is where it stands inside the innermost function: outside every function, at a place
the checker skips, or under an arm for the same effect, it is not gated (`Event.Gated`).

Only this direction is claimed: an accepted module need not use what it was granted.
-/

set_option autoImplicit false

namespace Nulang.Ast

open List

/-- The places inside the innermost body. -/
def innerPlaces (places : List Place) : List Place := places.takeWhile (!·.isBody)

/-- The function whose body the code stands in, if it is a function's. -/
def functionAt (places : List Place) : Option String :=
  match places.find? Place.isBody with
  | some (.call f) => some f
  | _ => none

/-- The effects bound by the handlers around the code, inside the innermost body. -/
def handledAt (places : List Place) : List Effect :=
  (innerPlaces places).flatMap fun
    | .handled _ ops => ops.map fun op => parseEffectName op.1
    | _ => []

/-- The code stands where the checker walks it for the row of `f`. -/
structure InFunction (decls : List Decl) (places : List Place) (f : String) : Prop where
  function : functionAt places = some f
  once : ((functionsOf (flattenDecls decls)).map (·.1)).count f = 1
  walked : ∀ p ∈ innerPlaces places, p.skipsEffects = false

/-- The category of an operation: of the effect with that name. `Env` is such an effect, but
`parse_effect_name` does not know it. -/
def resourceCategory (effect : String) : Option String :=
  if effect = "Env" then effectResourceCategory .env
  else effectResourceCategory (parseEffectName effect)

/-- The operation is of a kind, and performed at a place, that the gate looks at. -/
structure Event.Gated (decls : List Decl) (ev : Event) (effect : String) : Prop where
  inFunction : ∃ f, InFunction decls ev.places f
  unhandled : parseEffectName effect ∉ handledAt ev.places
  known : effect ≠ "Env"

section Positions

variable {places : List Place} {p : Place}

@[simp] theorem innerPlaces_push (hp : p.isBody = false) :
    innerPlaces (p :: places) = p :: innerPlaces places := by
  simp [innerPlaces, hp]

@[simp] theorem functionAt_push (hp : p.isBody = false) :
    functionAt (p :: places) = functionAt places := by
  simp [functionAt, hp]

theorem handledAt_push (hp : p.isBody = false) {eff : Effect} (h : eff ∈ handledAt places) :
    eff ∈ handledAt (p :: places) := by
  rw [handledAt, innerPlaces_push hp]
  exact mem_append_right _ h

/-- A position with a body of its own is not changed by what is around it. -/
theorem innerPlaces_append {outer : List Place} (h : .top ∈ places) :
    innerPlaces (places ++ outer) = innerPlaces places := by
  induction places with
  | nil => cases h
  | cons p places ih =>
    simp only [innerPlaces, cons_append, takeWhile_cons] at ih ⊢
    cases hp : p.isBody with
    | true => simp
    | false =>
      have htail : .top ∈ places := by
        rcases mem_cons.mp h with rfl | h
        · cases hp
        · exact h
      simp [ih htail]

theorem functionAt_append {outer : List Place} (h : .top ∈ places) :
    functionAt (places ++ outer) = functionAt places := by
  unfold functionAt
  rw [bodyAt_append h]

end Positions

section

variable (rows : FnRows) (decls : List Decl)

/-- The checker walked the expression for the row of the function it stands in. -/
def Walked (places : List Place) (e : Expr) : Prop :=
  ∀ f, InFunction decls places f → ∃ shadowed handlers r,
    inferEffects rows shadowed handlers e = .ok r ∧
      (∀ eff ∈ handlers, eff ∈ handledAt places) ∧
      ∀ eff ∈ r.effects, eff ∈ rowOf rows f ∨ eff ∈ handledAt places

end

section

variable {rows : FnRows} {decls : List Decl} {places : List Place} {e : Expr}

theorem Walked.push {p : Place} (hp : p.isBody = false) (h : Walked rows decls places e) :
    Walked rows decls (p :: places) e := by
  intro f hf
  have hin : InFunction decls places f := by
    refine ⟨by rw [← functionAt_push hp]; exact hf.function, hf.once, fun q hq => hf.walked q ?_⟩
    rw [innerPlaces_push hp]
    exact mem_cons_of_mem _ hq
  obtain ⟨shadowed, handlers, r, hr, hhandlers, hrow⟩ := h f hin
  exact ⟨shadowed, handlers, r, hr, fun eff he => handledAt_push hp (hhandlers eff he),
    fun eff he => (hrow eff he).imp id (handledAt_push hp)⟩

/-- Code at a place the checker skips counts as walked. -/
theorem walked_skip {p : Place} (hp : p.skipsEffects = true) (hb : p.isBody = false) :
    Walked rows decls (p :: places) e := by
  intro f hf
  have := hf.walked p (by rw [innerPlaces_push hb]; exact mem_cons_self)
  rw [hp] at this
  cases this

/-- Code of a body that is not a function's counts as walked. -/
theorem walked_elsewhere {p : Place} (hp : functionAt (p :: places) = none) :
    Walked rows decls (p :: places) e := by
  intro f hf
  cases hp.symm.trans hf.function

theorem Walked.append {outer : List Place} (hb : .top ∈ places)
    (h : Walked rows decls places e) : Walked rows decls (places ++ outer) e := by
  intro f hf
  have hhandled : handledAt (places ++ outer) = handledAt places := by
    rw [handledAt, innerPlaces_append hb]
    rfl
  rw [hhandled]
  refine h f ⟨by rw [← functionAt_append hb]; exact hf.function, hf.once, fun q hq => ?_⟩
  exact hf.walked q (by rwa [innerPlaces_append hb])

/-- The parts of walked code, where no handler stands between. -/
theorem Walked.part {p : EffectPart} (h : Walked rows decls places e) (hp : p ∈ e.effectParts)
    (hh : p.handled = []) : Walked rows decls places p.expr := by
  intro f hf
  obtain ⟨shadowed, handlers, r, hr, hhandlers, hrow⟩ := h f hf
  have hc := inferEffects_charges hr
  obtain ⟨s, hs⟩ := hc.ok p hp
  refine ⟨_, _, s, hs, fun eff he => ?_, fun eff he => ?_⟩
  · rw [EffectPart.handlers, hh, append_nil] at he
    split at he
    · cases he
    · exact hhandlers eff he
  · exact hrow eff ((hc.mem eff).mpr (.inr ⟨p, hp, s, hs, he, by simp [hh]⟩))

theorem Walked.plain {e' : Expr} (h : Walked rows decls places e)
    (hp : Ast.part e' ∈ e.effectParts) : Walked rows decls places e' :=
  h.part hp rfl

theorem Walked.handle {n : Nat} {body : Expr} {arms : List EffectHandler}
    (h : Walked rows decls places (.handle body arms)) :
    Walked rows decls (.handled n (armOps arms) :: places) body := by
  have hb : (Place.handled n (armOps arms)).isBody = false := rfl
  intro f hf
  obtain ⟨shadowed, handlers, r, hr, hhandlers, hrow⟩ := h.push hb f hf
  have hc := inferEffects_charges hr
  have hp : (⟨body, [], handledEffects arms, false⟩ : EffectPart) ∈
      (Expr.handle body arms).effectParts := mem_cons_self
  have hown : ∀ eff ∈ handledEffects arms,
      eff ∈ handledAt (.handled n (armOps arms) :: places) := by
    intro eff he
    obtain ⟨arm, harm, rfl⟩ := mem_map.mp he
    rw [handledAt, innerPlaces_push hb]
    refine mem_append_left _ (mem_map.mpr ⟨(arm.effectName, arm.opName), ?_, rfl⟩)
    exact mem_map.mpr ⟨arm, harm, rfl⟩
  obtain ⟨s, hs⟩ := hc.ok _ hp
  refine ⟨_, _, s, hs, fun eff he => ?_, fun eff he => ?_⟩
  · rcases mem_append.mp he with he | he
    · exact hhandlers eff he
    · exact hown eff he
  · by_cases hh : eff ∈ handledEffects arms
    · exact .inr (hown eff hh)
    · exact hrow eff ((hc.mem eff).mpr (.inr ⟨_, hp, s, hs, he, hh⟩))

theorem walked_head {prog : Program} {op : Operand} (hop : op ∈ e.head prog)
    (h : Walked rows decls places e) : Walked rows decls (op.1.toList ++ places) op.2 := by
  have hplace : ∀ p, op.1 = some p → p.isBody = false := isBody_of_head hop
  have hpush : Walked rows decls places op.2 → Walked rows decls (op.1.toList ++ places) op.2 := by
    intro hw
    cases hp : op.1 with
    | none => exact hw
    | some p => exact hw.push (hplace _ hp)
  cases meets_of_mem_head hop with
  | skipped hp hskip =>
    rw [hp]
    exact walked_skip hskip (hplace _ hp)
  | own hpart => exact hpush (h.plain hpart)
  | within he' hpart => exact hpush ((h.plain he').plain hpart)

/-- The walk of the rows: every function may be used as a value, its row is that of its body. -/
def rowWalk (rows : FnRows) (decls : List Decl) (prog : Program)
    (hfns : ∀ f fn, prog.functions.lookup f = some fn →
      ∀ places, Walked rows decls (.call f :: places) fn.body) : Walk where
  prog := prog
  walked := Walked rows decls
  free := fun _ => True
  runs := fun _ => True
  name := fun _ => trivial
  push := fun hp h => h.push hp
  append := fun htop h => h.append htop
  operand := fun hop h => walked_head (mem_head_of_operands hop) h
  later := fun hmem h => by
    obtain ⟨p, hp, rfl, hh⟩ := later_parts hmem
    exact h.part hp hh
  handle := fun _ h => h.handle
  target := fun {places e func} ht h => by
    have hmem : plain func ∈ e.head prog := mem_head_of_target ht
    exact .inr (walked_head hmem h)
  callee := fun _ hf _ => hfns _ _ hf _
  body := fun places _ hf => hfns _ _ hf places
  method := fun _ _ => walked_elsewhere rfl
  signal := fun _ _ => walked_skip rfl rfl
  applied := fun _ _ _ => walked_elsewhere rfl

variable (rows decls) in
/-- The operation is in the row of the function it stands in. -/
def InRow (ev : Event) : Prop :=
  ∀ effect op, ev.act = .perform effect op → ∀ f, InFunction decls ev.places f →
    parseEffectName effect ∉ handledAt ev.places → parseEffectName effect ∈ rowOf rows f

/-- What an expression performs is in the row, or not gated. -/
theorem inRow_performing {cx : Cx} {effect op : String} (hop : e.operation = some (effect, op))
    (h : Walked rows decls cx.places e) :
    InRow rows decls ((cx.performing e).event (.perform effect op)) := by
  intro effect' op' hact f hf hfree
  cases hact
  have own : Walked rows decls cx.places e → InFunction decls cx.places f →
      parseEffectName effect ∉ handledAt cx.places →
      (∀ shadowed handlers, parseEffectName effect ∉ handlers →
        parseEffectName effect ∈ e.ownEffects rows shadowed handlers) →
      parseEffectName effect ∈ rowOf rows f := by
    intro hw hf hfree hown
    obtain ⟨shadowed, handlers, r, hr, hhandlers, hrow⟩ := hw f hf
    have hmem := hown shadowed handlers fun hin => hfree (hhandlers _ hin)
    rcases hrow _ (((inferEffects_charges hr).mem _).mpr (.inl hmem)) with hin | hin
    · exact hin
    · exact absurd hin hfree
  cases e with
  | grainRef =>
    have hskip := hf.walked .grain (by
      simp [Cx.performing, Cx.event, Cx.push, innerPlaces, Place.isBody])
    cases hskip
  | perform =>
    cases hop
    exact own h hf hfree fun shadowed handlers hno => by simp [Expr.ownEffects, hno]
  | binary bop a b =>
    cases bop <;> cases hop
    exact own h hf hfree fun shadowed handlers _ => by
      simp [Expr.ownEffects, BinOp.row, parseEffectName]
  | _ => cases hop

theorem inRow_of_performed {prog : Program} {hfns} {ev : Event}
    (h : Performed (rowWalk rows decls prog hfns) ev) : InRow rows decls ev := by
  intro effect op hact
  obtain ⟨cx, e, rfl, hop, hw, -⟩ := h effect op hact
  exact inRow_performing hop hw effect op hact

/-- A system running a program: one body after another, of functions or of anything else, on values
that earlier runs left behind. -/
inductive Session (prog : Program) : List Event → State → Prop where
  | start (n : Nat) : Session prog [] ⟨[], n, []⟩
  /-- any body outside the functions: a behavior, an initialiser, a workflow step, a handler -/
  | body {t t' : List Event} {σ σ' : State} {self : Val} {params : List Param} {args : List Val}
      {decl : Nat} {e : Expr} {o : Outcome} :
      Session prog t σ → Derived σ.heap σ.next σ.next self →
      (∀ a ∈ args, Derived σ.heap σ.next σ.next a) →
      Run ⟨prog, self, [], [.behavior decl, .top]⟩ (Ast.bind [] σ (paramCaps params) args).1
        (Ast.bind [] σ (paramCaps params) args).2 (.eval e) t' o σ' →
      Session prog (t ++ t') (σ'.keep o.vals)
  | call {t t' : List Event} {σ σ' : State} {self : Val} {f : String} {args : List Val}
      {o : Outcome} :
      Session prog t σ → Derived σ.heap σ.next σ.next self →
      (∀ a ∈ args, Derived σ.heap σ.next σ.next a) →
      Run ⟨prog, self, [], [.top]⟩ [] σ (.call (.function f) args) t' o σ' →
      Session prog (t ++ t') (σ'.keep o.vals)

theorem Session.inRow {prog : Program} {t : List Event} {σ : State}
    (hfns : ∀ f fn, prog.functions.lookup f = some fn → ∀ places, Walked rows decls
      (.call f :: places) fn.body)
    (h : Session prog t σ) :
    ∀ ev ∈ t, InRow rows decls ev := by
  let w := rowWalk rows decls prog hfns
  have hsession : (∀ ev ∈ t, Performed w ev) ∧ StateOk w σ := by
    induction h with
    | start n =>
      exact ⟨fun _ hev => absurd hev not_mem_nil, fun _ hc => absurd hc not_mem_nil,
        fun _ hv => absurd hv not_mem_nil⟩
    | body _ hself hargs hrun ih =>
      have hvals := fun a ha => ValOk.of_derived (hargs a ha) ih.2.heap
      have hbody : ∀ decl e, w.walked [.behavior decl, .top] e := fun _ _ => walked_elsewhere rfl
      have hafter :=
        hrun.walked (.behavior (w := w) (.of_derived hself ih.2.heap) trivial) (ih.2.bind hvals)
          (.inl (hbody _ _))
      exact ⟨forall_mem_append.mpr ⟨ih.1, hafter.events⟩,
        hafter.state.keep _ (vals_of_walked (hbody 0 _) hafter.yields)⟩
    | call _ hself hargs hrun ih =>
      have hvals := fun a ha => ValOk.of_derived (hargs a ha) ih.2.heap
      have hafter := hrun.walked (.entry (w := w) (.of_derived hself ih.2.heap)) ih.2
        ⟨.inl (.function trivial), hvals⟩
      exact ⟨forall_mem_append.mpr ⟨ih.1, hafter.events⟩, hafter.state.keep _ hafter.yields⟩
  exact fun ev hev => inRow_of_performed (hsession.1 ev hev)

end

section Gate

variable {gates : List Decl → Except EffectError Unit} {grants : List String} {decls : List Decl}

/-- The bodies of functions are walked for their own rows. -/
theorem walked_function {rows : FnRows} {capOf : List (String × Capability) → Expr → Capability}
    (hreg : registerFunctionRows (flattenDecls decls) = .ok rows)
    (hbodies : ∀ decl ∈ flattenDecls decls, ∀ b ∈ decl.checkedBodies,
      checkBody rows b.1 b.2 = .ok ()) (f : String) (fn : Fn)
    (hlookup : (programOf capOf decls).functions.lookup f = some fn) (places : List Place) :
    Walked rows decls (.call f :: places) fn.body := by
  intro g hg
  obtain rfl : f = g := Option.some.inj hg.function
  obtain ⟨⟨f', effect, fn'⟩, hmem, heq⟩ := mem_map.mp (SortByKey.mem_of_lookup hlookup)
  cases heq
  obtain ⟨r, hr, hrow⟩ := inferred_within_row hreg hbodies hg.once hmem
  exact ⟨[], [], r, hr, fun _ he => absurd he not_mem_nil, fun eff he => .inl (hrow eff he)⟩

/-- What the gate says about the rows of functions. -/
theorem granted_of_row {rows : FnRows} (h : checkResourceGrants (some grants) rows = .ok ())
    {f : String} {eff : Effect} {category : String} (he : eff ∈ rowOf rows f)
    (hc : effectResourceCategory eff = some category) : category ∈ grants := by
  cases hrow : rows.lookup f with
  | none => simp [rowOf, hrow] at he
  | some row =>
    have hrows := forM_eq_ok.mp h (f, row) (SortByKey.mem_of_lookup hrow)
    have heff := forM_eq_ok.mp hrows eff (by simpa [rowOf, hrow] using he)
    simp only [hc] at heff
    split at heff
    · next hmem => simpa using hmem
    · cases heff

/-- In every session of an accepted module, every operation performed where the gate looks is of a
granted category or of none. -/
theorem resource_gate_sound {capOf : List (String × Capability) → Expr → Capability}
    {t : List Event} {σ : State}
    (hcheck : checkModule gates (some grants) decls = .ok ())
    (hsession : Session (programOf capOf decls) t σ) :
    ∀ ev ∈ t, ∀ effect op category, ev.act = .perform effect op →
      resourceCategory effect = some category → ev.Gated decls effect → category ∈ grants := by
  obtain ⟨rows, hreg, hbodies, hgrants⟩ := checkModule_eq_ok hcheck
  intro ev hev effect op category hact hcat hgated
  obtain ⟨f, hf⟩ := hgated.inFunction
  have hrow := hsession.inRow (walked_function hreg hbodies) ev hev effect op hact f hf
    hgated.unhandled
  rw [resourceCategory, if_neg hgated.known] at hcat
  exact granted_of_row hgrants hrow hcat

end Gate

/-- `fn f() ! {FS} = perform FS.read()`. -/
def reading : List Decl :=
  [.function "f" [] [] [] (some (.closed [.fs])) [] [] (.perform "FS" "read" [])]

theorem flatten_reading : flattenDecls reading = reading := by
  simp [flattenDecls, reading]

/-- The context of a body the host starts. -/
def entry (decls : List Decl) : Cx := ⟨programOf (fun _ _ => .val) decls, .actor "A" 0, [], [.top]⟩

/-- A function of no parameters whose body is one operation. -/
theorem run_operation {decls : List Decl} {f effect op : String} {σ : State}
    (h : (entry decls).prog.functions.lookup f = some ⟨[], .perform effect op []⟩) :
    Run (entry decls) [] σ (.call (.function f) [])
      [((entry decls).push (.call f)).event (.perform effect op)] (.value (.actor "" 0)) σ :=
  .callFunction h (run_perform rfl)

theorem resource_gate_sound_reading :
    ∃ t σ, Session (programOf (fun _ _ => .val) reading) t σ ∧
      ∃ ev ∈ t, ev.act = .perform "FS" "read" ∧ ev.Gated reading "FS" ∧ "fs" ∈ ["fs"] := by
  have hcheck : checkModule (fun _ => .ok ()) (some ["fs"]) reading = .ok () := by
    rw [checkModule, flatten_reading]
    rfl
  have hlookup :
      (entry reading).prog.functions.lookup "f" = some ⟨[], .perform "FS" "read" []⟩ := by
    simp only [entry, programOf, flatten_reading]
    rfl
  have hsession := Session.call (.start 0) (.actor "A" 0) (fun _ ha => absurd ha not_mem_nil)
    (run_operation hlookup)
  have hgated : Event.Gated reading
      (((entry reading).push (.call "f")).event (.perform "FS" "read")) "FS" := by
    refine ⟨⟨"f", rfl, ?_, fun p hp => absurd hp not_mem_nil⟩, not_mem_nil, by decide⟩
    rw [flatten_reading]
    rfl
  refine ⟨_, _, hsession, _, mem_singleton_self _, rfl, hgated, ?_⟩
  exact resource_gate_sound hcheck hsession _ (mem_singleton_self _) "FS" "read" "fs" rfl
    (by decide) hgated

/-- `behavior b() { perform Net.get() }`. -/
def fetching : Behavior := { name := "b", params := [], body := .perform "Net" "get" [] }

def fetchingModule : List Decl := [.actor "A" [] [fetching] [] none [] [] false []]

/-- `fn f() = perform Env.get()`. -/
def readingEnv : List Decl :=
  [.function "f" [] [] [] none [] [] (.perform "Env" "get" [])]

/-- With nothing granted, an accepted behavior reaches the network, and an accepted function the
environment of the process. -/
theorem resource_gate_unsound :
    (checkModule (fun _ => .ok ()) (some []) fetchingModule = .ok () ∧
      ∃ t o σ, Run (entry fetchingModule) [] ⟨[], 0, []⟩ (.eval fetching.body) t o σ ∧
        ∃ ev ∈ t, ev.act = .perform "Net" "get" ∧ resourceCategory "Net" = some "net") ∧
    (checkModule (fun _ => .ok ()) (some []) readingEnv = .ok () ∧
      ∃ t o σ, Run (entry readingEnv) [] ⟨[], 0, []⟩ (.call (.function "f") []) t o σ ∧
        ∃ ev ∈ t, ev.act = .perform "Env" "get" ∧ resourceCategory "Env" = some "os") := by
  have hflat : flattenDecls fetchingModule = fetchingModule := by
    simp [flattenDecls, fetchingModule]
  have hflat' : flattenDecls readingEnv = readingEnv := by
    simp [flattenDecls, readingEnv]
  have hlookup : (entry readingEnv).prog.functions.lookup "f" =
      some ⟨[], .perform "Env" "get" []⟩ := by
    simp only [entry, programOf, hflat']
    rfl
  constructor
  · refine ⟨by rw [checkModule, hflat]; rfl, _, _, _, run_perform rfl, _,
      mem_singleton_self _, rfl, by decide⟩
  · refine ⟨by rw [checkModule, hflat']; rfl, _, _, _, run_operation hlookup, _,
      mem_singleton_self _, rfl, by decide⟩

end Nulang.Ast

import Nulang.DurableWalker
import Nulang.EffectModule

/-!
# Durable bodies against runs

What the gate says about the runs of the bodies recovery runs again. An accepted body, and every
function expanded from it, was walked under some of the operations that the handlers around it bind
(`Safe`). The walk does not expand a function again while it is being expanded; the expansion in
progress was made under no more operations than are bound now, so it still covers the call
(`Safe.expand`).

The walk does not see the value of a `break`, the function a bare pipe applies, the body of a method
of an `impl`, the arguments and initialisers the lowering copies in. The apply handlers that it
copies in at an `emit` are bodies of their own, and are walked as such. And the body of a closure is
walked where it is made, under handlers that may be gone when it runs. `Event.InWalk` says that an
operation is performed at none of these.
-/

set_option autoImplicit false

namespace Nulang.Ast

open SortByKey Expr List

/-! ## Expansions -/

/-- A stack of functions being expanded, innermost first, each with the operations it is walked
under: none is there twice, and inner ones are walked under more. -/
inductive Expansion (fns : List (String × Expr)) (scope : String) :
    Nat → List (String × List Bound) → Prop where
  | nil : Expansion fns scope fns.length []
  | cons {fuel : Nat} {stack : List (String × List Bound)} {f : String} {handled : List Bound}
      {body : Expr} :
      Expansion fns scope (fuel + 1) stack → f ∉ stack.map (·.1) → fns.lookup f = some body →
      (∀ g ∈ stack, g.2 ⊆ handled) →
      walk (expandFn fns scope fuel (f :: stack.map (·.1))) scope handled body = .ok () →
      Expansion fns scope fuel ((f, handled) :: stack)

namespace Expansion

variable {fns : List (String × Expr)} {scope : String} {fuel : Nat}
  {stack : List (String × List Bound)}

theorem length_eq (h : Expansion fns scope fuel stack) : fuel + stack.length = fns.length := by
  induction h with
  | nil => simp
  | cons _ _ _ _ _ ih =>
    rw [length_cons]
    omega

theorem nodup (h : Expansion fns scope fuel stack) : (stack.map (·.1)).Nodup := by
  induction h with
  | nil => exact nodup_nil
  | cons _ hf _ _ _ ih => exact nodup_cons.mpr ⟨hf, ih⟩

theorem subset (h : Expansion fns scope fuel stack) : stack.map (·.1) ⊆ fns.map (·.1) := by
  induction h with
  | nil => exact nil_subset _
  | cons _ _ hlookup _ _ ih =>
    exact cons_subset.mpr ⟨mem_map_of_mem (mem_of_lookup hlookup), ih⟩

variable {f : String}

/-- While some function is not being expanded, the bound on the depth is not used up. -/
theorem fuel_pos (h : Expansion fns scope fuel stack) {body : Expr} (hf : f ∉ stack.map (·.1))
    (hlookup : fns.lookup f = some body) : 0 < fuel := by
  have hmem : f ∈ fns.map (·.1) := mem_map_of_mem (mem_of_lookup hlookup)
  have hle :=
    (Nodup.subperm (nodup_cons.mpr ⟨hf, h.nodup⟩) (cons_subset.mpr ⟨hmem, h.subset⟩)).length_le
  have heq := h.length_eq
  simp only [length_cons, length_map] at hle
  omega

theorem outer (h : Expansion fns scope fuel stack) (hf : f ∈ stack.map (·.1)) :
    ∃ fuel' handled outer, Expansion fns scope fuel' ((f, handled) :: outer) ∧
      (f, handled) ∈ stack := by
  induction h with
  | nil => cases hf
  | cons hstack hnew hlookup hsub hwalk ih =>
    rcases mem_cons.mp hf with rfl | hf
    · exact ⟨_, _, _, .cons hstack hnew hlookup hsub hwalk, mem_cons_self⟩
    · obtain ⟨fuel', handled, outer, hout, hmem⟩ := ih hf
      exact ⟨fuel', handled, outer, hout, mem_cons_of_mem _ hmem⟩

end Expansion

/-- The walk accepted the expression under the operations `handled`, at some point. -/
def Safe (fns : List (String × Expr)) (handled : List Bound) (e : Expr) : Prop :=
  ∃ scope fuel stack, Expansion fns scope fuel stack ∧ (∀ g ∈ stack, g.2 ⊆ handled) ∧
    walk (expandFn fns scope fuel (stack.map (·.1))) scope handled e = .ok ()

variable {body : Expr} {σ : State}

/-- The expansion of a function: the one made now, or the one in progress. -/
theorem safe_expand {fns : List (String × Expr)} {scope : String} {fuel : Nat}
    {stack : List (String × List Bound)} {handled : List Bound} {f : String}
    (hstack : Expansion fns scope fuel stack) (hsub : ∀ g ∈ stack, g.2 ⊆ handled)
    (hlookup : fns.lookup f = some body)
    (h : expandFn fns scope fuel (stack.map (·.1)) f handled = .ok ()) :
    ∃ handled', handled' ⊆ handled ∧ Safe fns handled' body := by
  by_cases hf : f ∈ stack.map (·.1)
  · obtain ⟨fuel', handled', outer, hout, hmem⟩ := hstack.outer hf
    refine ⟨handled', hsub _ hmem, scope, fuel', _, hout, ?_⟩
    cases hout with
    | cons _ _ hlookup' houter hwalk =>
      rw [hlookup] at hlookup'
      cases hlookup'
      exact ⟨forall_mem_cons.mpr ⟨Subset.refl _, houter⟩, hwalk⟩
  · obtain ⟨fuel, rfl⟩ := Nat.exists_eq_succ_of_ne_zero (hstack.fuel_pos hf hlookup).ne'
    have hcontains : (stack.map (·.1)).contains f = false := by
      simpa using hf
    simp only [expandFn, hcontains, hlookup, Bool.false_eq_true, if_false] at h
    refine ⟨handled, Subset.refl _, scope, fuel, _, .cons hstack hf hlookup hsub h, ?_, h⟩
    exact forall_mem_cons.mpr ⟨Subset.refl _, hsub⟩

section Safe

variable {fns : List (String × Expr)} {handled : List Bound} {e : Expr}

theorem Safe.later {e' : Expr} (hmem : e' ∈ e.later) (h : Safe fns handled e) :
    Safe fns handled e' := by
  obtain ⟨scope, fuel, stack, hstack, hsub, hwalk⟩ := h
  exact ⟨scope, fuel, stack, hstack, hsub, walk_later hmem hwalk⟩

theorem Safe.head {prog : Program} {op : Operand} (hop : op ∈ e.head prog)
    (h : Safe fns handled e) :
    (∃ p, op.1 = some p ∧ p.skipsDurable = true) ∨ Safe fns handled op.2 := by
  obtain ⟨scope, fuel, stack, hstack, hsub, hwalk⟩ := h
  exact (walk_head hop hwalk).imp id fun hop => ⟨scope, fuel, stack, hstack, hsub, hop⟩

theorem Safe.handle {arms : List EffectHandler} (h : Safe fns handled (.handle body arms)) :
    Safe fns (handled ++ (armOps arms).map binding) body := by
  obtain ⟨scope, fuel, stack, hstack, hsub, hwalk⟩ := h
  exact ⟨scope, fuel, stack, hstack, fun g hg => subset_append_of_subset_left _ (hsub g hg),
    walk_handle hwalk⟩

theorem Safe.callee {f : String} (ht : e.target = some (.var f))
    (hlookup : fns.lookup f = some body) (h : Safe fns handled e) (places : List Place) :
    e.callPlaces places = .pipe :: places ∨
      e.callPlaces places = places ∧ ∃ handled', handled' ⊆ handled ∧ Safe fns handled' body := by
  obtain ⟨scope, fuel, stack, hstack, hsub, hwalk⟩ := h
  exact (walk_callee ht hwalk places).imp id
    fun ⟨hplaces, hexpand⟩ => ⟨hplaces, safe_expand hstack hsub hlookup hexpand⟩

theorem Safe.perform {effect op : String} {args : List Expr}
    (h : Safe fns handled (.perform effect op args))
    (hforbidden : isForbiddenInDurable effect op = true) :
    (effect, none) ∈ handled ∨ (effect, some op) ∈ handled := by
  obtain ⟨scope, fuel, stack, hstack, hsub, hwalk⟩ := h
  obtain ⟨⟨eff, o⟩, hmem, hb⟩ := any_eq_true.mp (walk_perform hwalk hforbidden)
  simp only [Bool.and_eq_true, beq_iff_eq, Bool.or_eq_true, Option.isNone_iff_eq_none] at hb
  obtain ⟨rfl, rfl | rfl⟩ := hb
  · exact .inl hmem
  · exact .inr hmem

end Safe

/-- A program without `given` declarations: what an expression evaluates by itself. -/
def Program.bare : Program := ⟨[], [], fun _ => [], [], fun _ => [], fun _ _ => .val⟩

def Expr.handledBody : Expr → Option Expr
  | .handle body _ => some body
  | _ => none

/-- The names of functions are used only as what a call or a pipe applies. -/
inductive CalledOnly (fns : List String) : Expr → Prop where
  | mk {e : Expr} :
      (∀ x, e = .var x → x ∉ fns) →
      (∀ op ∈ e.operands .bare, CalledOnly fns op.2) → (∀ e' ∈ e.later, CalledOnly fns e') →
      (∀ body ∈ e.handledBody, CalledOnly fns body) →
      (∀ func ∈ e.target, (∀ f, func ≠ .var f) → CalledOnly fns func) →
      CalledOnly fns e

theorem mem_operands {prog : Program} {e : Expr} {op : Operand} (h : op ∈ e.operands prog) :
    op ∈ e.operands .bare ∨ ∃ func, op ∈ prog.given func := by
  have hbare : ∀ func, Program.bare.given func = [] := by
    intro func
    cases func <;> rfl
  cases e with
  | app func args =>
    exact (mem_append.mp h).imp (mem_append_left _) fun hg => ⟨func, hg⟩
  | pipe left right =>
    cases right with
    | app func args =>
      exact (mem_append.mp h).imp (mem_append_left _) fun hg => ⟨func, hg⟩
    | _ =>
      rcases mem_cons.mp h with rfl | hg
      · exact .inl mem_cons_self
      · exact .inr ⟨_, hg⟩
  | assign target value => cases target <;> exact .inl h
  | receive arms after => cases after <;> exact .inl h
  | ret value | brk value => cases value <;> exact .inl h
  | _ => exact .inl h

namespace CalledOnly

variable {fns : List String} {e : Expr}

theorem operand {op : Operand} (hop : op ∈ e.operands .bare) (h : CalledOnly fns e) :
    CalledOnly fns op.2 := by
  cases h with
  | mk _ hops => exact hops op hop

theorem later {e' : Expr} (hmem : e' ∈ e.later) (h : CalledOnly fns e) : CalledOnly fns e' := by
  cases h with
  | mk _ _ hlater => exact hlater e' hmem

theorem handle {body : Expr} {arms : List EffectHandler}
    (h : CalledOnly fns (.handle body arms)) : CalledOnly fns body := by
  cases h with
  | mk _ _ _ hbody => exact hbody body rfl

theorem target {func : Expr} (ht : e.target = some func) (h : CalledOnly fns e) :
    (∃ f, func = .var f) ∨ CalledOnly fns func := by
  cases h with
  | mk _ _ _ _ htarget =>
    by_cases hvar : ∃ f, func = .var f
    · exact .inl hvar
    · exact .inr (htarget func ht fun f hf => hvar ⟨f, hf⟩)

end CalledOnly

/-- Modules whose functions are called only by name or by pipe. -/
structure CalledOnlyModule (decls : List Decl) : Prop where
  distinct : ((functionsOf (flattenDecls decls)).map (·.1)).Nodup
  functions : ∀ f ∈ functionsOf (flattenDecls decls),
    CalledOnly ((functionsOf (flattenDecls decls)).map (·.1)) f.2.2.body
  bodies : ∀ b ∈ (flattenDecls decls).flatMap Decl.durableBodies,
    CalledOnly ((functionsOf (flattenDecls decls)).map (·.1)) b.2
  methods : ∀ m ∈ methodsOf (flattenDecls decls),
    CalledOnly ((functionsOf (flattenDecls decls)).map (·.1)) m.2.body
  signals : ∀ s ∈ signalsOf decls, CalledOnly ((functionsOf (flattenDecls decls)).map (·.1)) s.2
  givens : ∀ g ∈ givensOf decls, CalledOnly ((functionsOf (flattenDecls decls)).map (·.1)) g.2

/-! ## The walk of the gate -/

section Gate

variable {decls : List Decl}

/-- The code stands where the walk does not go. -/
def Unseen (places : List Place) : Prop := ∃ p ∈ turn places, p.skipsDurable = true

variable (decls) in
/-- The code was walked under operations that the handlers around it bind. -/
def DurablyWalked (places : List Place) (e : Expr) : Prop :=
  CalledOnly ((functionsOf (flattenDecls decls)).map (·.1)) e ∧ (Unseen places ∨
    ∃ handled, handled ⊆ (handledOps places).map binding ∧
      Safe (durableFns (flattenDecls decls)) handled e)

variable {places : List Place} {p : Place} {e : Expr}
  {capOf : List (String × Capability) → Expr → Capability}

theorem Unseen.push (hp : p ≠ .top) (h : Unseen places) : Unseen (p :: places) := by
  obtain ⟨q, hq, hskip⟩ := h
  exact ⟨q, by rw [turn_push hp]; exact mem_cons_of_mem _ hq, hskip⟩

theorem unseen_here (hp : p.skipsDurable = true) : Unseen (p :: places) := by
  refine ⟨p, ?_, hp⟩
  rw [turn_push (by rintro rfl; cases hp)]
  exact mem_cons_self

theorem DurablyWalked.push (hp : p ≠ .top) (h : DurablyWalked decls places e) :
    DurablyWalked decls (p :: places) e := by
  refine ⟨h.1, h.2.imp (Unseen.push hp) ?_⟩
  rintro ⟨handled, hsub, hsafe⟩
  have hpush : handledOps places ⊆ handledOps (p :: places) := fun a ha => handledOps_push hp ha
  exact ⟨handled, fun a ha => map_subset _ hpush (hsub ha), hsafe⟩

theorem DurablyWalked.append {outer : List Place} (htop : .top ∈ places)
    (h : DurablyWalked decls places e) : DurablyWalked decls (places ++ outer) e := by
  refine ⟨h.1, ?_⟩
  rw [Unseen, turn_append htop, handledOps_append htop]
  exact h.2

variable {fn : Fn} {f : String} {func : Expr} {op : Operand}

theorem lookup_durableFns (hdistinct : ((functionsOf decls).map (·.1)).Nodup)
    (h : ((functionsOf decls).map fun g => (g.1, g.2.2)).lookup f = some fn) :
    (durableFns decls).lookup f = some fn.body := by
  obtain ⟨⟨f', effect, fn'⟩, hmem, heq⟩ := mem_map.mp (mem_of_lookup h)
  cases heq
  apply lookup_of_mem
  · rw [durableFns, map_reverse, nodup_reverse, map_map]
    exact hdistinct
  · rw [durableFns, mem_reverse]
    exact mem_map_of_mem hmem

/-- What the arguments the lowering adds are. -/
theorem given_of_mem (h : op ∈ (programOf capOf decls).given func) :
    op.1 = some .given ∧ ∃ g ∈ givensOf decls, op.2 = g.2 := by
  cases func with
  | var f =>
    obtain ⟨e, he, rfl⟩ := mem_map.mp h
    obtain ⟨names, -, he⟩ := mem_flatMap.mp he
    obtain ⟨name, -, hlookup⟩ := mem_filterMap.mp he
    exact ⟨rfl, _, mem_of_lookup hlookup, rfl⟩
  | _ => cases h

theorem DurablyWalked.operand (hmodule : CalledOnlyModule decls)
    (hop : op ∈ e.operands (programOf capOf decls)) (h : DurablyWalked decls places e) :
    DurablyWalked decls (op.1.toList ++ places) op.2 := by
  rcases mem_operands hop with hown | ⟨func, hgiven⟩
  · have hplace : ∀ p ∈ op.1, p ≠ .top := by
      rcases place_of_head (mem_head_of_operands hop) with hp | hp | hp | ⟨hp, -⟩ | hp <;> simp [hp]
    have hpush : DurablyWalked decls places op.2 →
        DurablyWalked decls (op.1.toList ++ places) op.2 := by
      intro hw
      cases hp : op.1 with
      | none => exact hw
      | some p => exact hw.push (hplace p hp)
    rcases h.2 with hunseen | ⟨handled, hsub, hsafe⟩
    · exact hpush ⟨h.1.operand hown, .inl hunseen⟩
    · rcases hsafe.head (mem_head_of_operands hop) with ⟨p, hp, hskip⟩ | hsafe'
      · rw [hp]
        exact ⟨h.1.operand hown, .inl (unseen_here hskip)⟩
      · exact hpush ⟨h.1.operand hown, .inr ⟨handled, hsub, hsafe'⟩⟩
  · obtain ⟨hp, g, hg, he⟩ := given_of_mem hgiven
    rw [hp, he]
    exact ⟨hmodule.givens g hg, .inl (unseen_here rfl)⟩

theorem DurablyWalked.handle {body : Expr} {arms : List EffectHandler} (n : Nat)
    (h : DurablyWalked decls places (.handle body arms)) :
    DurablyWalked decls (.handled n (armOps arms) :: places) body := by
  refine ⟨h.1.handle, h.2.imp (Unseen.push (by simp)) ?_⟩
  rintro ⟨handled, hsub, hsafe⟩
  refine ⟨_, ?_, hsafe.handle⟩
  rw [handledOps_handled, map_append]
  intro a ha
  rcases mem_append.mp ha with ha | ha
  · exact mem_append_right _ (hsub ha)
  · exact mem_append_left _ ha

theorem DurablyWalked.target (ht : e.target = some func) (h : DurablyWalked decls places e) :
    (∃ f, func = .var f) ∨ DurablyWalked decls places func := by
  refine (h.1.target ht).imp id fun hfunc => ⟨hfunc, h.2.imp id ?_⟩
  rintro ⟨handled, hsub, hsafe⟩
  have hmem : plain func ∈ e.head .bare := mem_head_of_target ht
  rcases hsafe.head hmem with ⟨p, hp, -⟩ | hsafe'
  · cases hp
  · exact ⟨handled, hsub, hsafe'⟩

theorem DurablyWalked.callee (hmodule : CalledOnlyModule decls) (ht : e.target = some (.var f))
    (hf : ((functionsOf (flattenDecls decls)).map fun g => (g.1, g.2.2)).lookup f = some fn)
    (h : DurablyWalked decls places e) :
    DurablyWalked decls (.call f :: e.callPlaces places) fn.body := by
  have hbody : CalledOnly ((functionsOf (flattenDecls decls)).map (·.1)) fn.body := by
    obtain ⟨g, hmem, heq⟩ := mem_map.mp (mem_of_lookup hf)
    cases heq
    exact hmodule.functions g hmem
  refine ⟨hbody, ?_⟩
  have hplaces : e.callPlaces places = .pipe :: places ∨ e.callPlaces places = places := by
    cases e with
    | pipe left right => cases right <;> first | exact .inr rfl | exact .inl rfl
    | _ => exact .inr rfl
  rcases h.2 with hunseen | ⟨handled, hsub, hsafe⟩
  · refine .inl (Unseen.push (by simp) ?_)
    rcases hplaces with hp | hp <;> rw [hp]
    · exact unseen_here rfl
    · exact hunseen
  · rcases hsafe.callee ht (lookup_durableFns hmodule.distinct hf) places with
      hp | ⟨hp, handled', hsub', hsafe'⟩
    · rw [hp]
      exact .inl (Unseen.push (by simp) (unseen_here rfl))
    · rw [hp]
      have hcall : DurablyWalked decls places fn.body :=
        ⟨hbody, .inr ⟨handled', fun a ha => hsub (hsub' ha), hsafe'⟩⟩
      exact (hcall.push (by simp)).2

end Gate

def oneStep (body : Expr) : Decl := .workflow "w" none [.step ⟨"s", body, none⟩] none

variable {fns : List String}

end Nulang.Ast

import Nulang.EffectRows
import Nulang.Lib.Sweep

/-!
# The rows of module functions are a fixpoint

`register_function_rows` iterates the rows of unannotated functions for as many rounds as there are
functions. Read for one effect at a time this is a `Sweep`: whether an effect is in the row inferred
for a body depends only on which functions have that effect already (`inferEffects_local`). So the
rounds are enough, and the final rows contain what is inferred from them.

They are also the least solution of the equations that the bodies set up (`registered_least`).
-/

set_option autoImplicit false

namespace Nulang.Ast

open List Option

variable {p : EffectPart} {rows rows' : FnRows} {f : String} {e : Effect} {body : Expr}
  {decls : List Decl}

theorem MatchArm.sizeOf_effectPart {arm : MatchArm} (h : p ∈ arm.effectParts) :
    sizeOf p.expr < sizeOf arm := by
  obtain ⟨pattern, guard, body⟩ := arm
  cases guard <;> simp only [MatchArm.effectParts, toList, map_nil, map_cons,
    nil_append, cons_append, mem_cons, not_mem_nil, or_false] at h
  · subst h
    simp only [MatchArm.mk.sizeOf_spec]
    omega
  · rcases h with rfl | rfl <;> simp only [MatchArm.mk.sizeOf_spec, some.sizeOf_spec] <;> omega

theorem ReceiveArm.sizeOf_effectPart {arm : ReceiveArm} (h : p ∈ arm.effectParts) :
    sizeOf p.expr < sizeOf arm := by
  obtain ⟨name, patterns, guard, body⟩ := arm
  cases guard <;> simp only [ReceiveArm.effectParts, toList, map_nil, map_cons,
    mem_cons, not_mem_nil, or_false] at h
  · subst h
    simp only [ReceiveArm.mk.sizeOf_spec]
    omega
  · rcases h with rfl | rfl <;> simp only [ReceiveArm.mk.sizeOf_spec, some.sizeOf_spec] <;> omega

theorem sizeOf_lt_of_mem_parts {es : List Expr} (h : p ∈ es.map part) :
    sizeOf p.expr < sizeOf es := by
  obtain ⟨e, he, rfl⟩ := List.mem_map.mp h
  exact sizeOf_lt_of_mem he

theorem sizeOf_lt_of_mem_fields {fs : List (String × Expr)} (h : p ∈ fs.map fun f => part f.2) :
    sizeOf p.expr < sizeOf fs := by
  obtain ⟨f, hf, rfl⟩ := List.mem_map.mp h
  have := sizeOf_lt_of_mem hf
  obtain ⟨x, e⟩ := f
  simp only [part, Prod.mk.sizeOf_spec] at this ⊢
  omega

theorem sizeOf_lt_of_mem_option {e : Option Expr} (h : p ∈ e.toList.map part) :
    sizeOf p.expr < sizeOf e := by
  cases e with
  | none => cases h
  | some e =>
    simp only [toList, map_cons, map_nil, mem_singleton] at h
    subst h
    simp only [part, some.sizeOf_spec]
    omega

theorem EffectHandler.sizeOf_effectPart (h : EffectHandler) :
    sizeOf h.effectPart.expr < sizeOf h := by
  obtain ⟨effectName, opName, params, body, resume⟩ := h
  simp only [effectPart, EffectHandler.body, EffectHandler.mk.sizeOf_spec]
  omega

/-- Parts are smaller than the expression, so recursion over parts is well founded. -/
theorem sizeOf_effectPart {e : Expr} (h : p ∈ e.effectParts) : sizeOf p.expr < sizeOf e := by
  -- Every part is a sub-expression; the cases differ in how deep the list it comes from is nested.
  cases e with
  | literal | var | selfRef | panic | resume | brk => cases h
  | fString es | block es | par es | tuple es | array es | emit _ es | perform _ _ es =>
    have := sizeOf_lt_of_mem_parts h
    simp
    omega
  | lambda params body effect =>
    cases effect <;>
      (simp only [Expr.effectParts, mem_singleton] at h; subst h
       simp only [Expr.lambda.sizeOf_spec]; omega)
  | app func args | send func _ args _ | ask func _ args _ =>
    rcases mem_cons.mp h with rfl | h
    · simp [part]; omega
    · have := sizeOf_lt_of_mem_parts h
      simp; omega
  | letIn | letRec | index | binary | assign | migrate | pipe | whileLoop | forIn =>
    simp only [Expr.effectParts, mem_cons, not_mem_nil, or_false] at h
    rcases h with rfl | rfl <;> simp [part] <;> omega
  | ifElse cond thenBranch elseBranch =>
    simp only [Expr.effectParts, mem_cons] at h
    rcases h with rfl | rfl | h
    · simp [part]; omega
    · simp [part]; omega
    · have := sizeOf_lt_of_mem_option h
      simp; omega
  | matchOn scrutinee arms =>
    rcases mem_cons.mp h with rfl | h
    · simp [part]; omega
    · obtain ⟨arm, harm, hp⟩ := mem_flatMap.mp h
      have h₁ := MatchArm.sizeOf_effectPart hp
      have h₂ := sizeOf_lt_of_mem harm
      simp; omega
  | record fields =>
    have := sizeOf_lt_of_mem_fields h
    simp; omega
  | recordUpdate base fields =>
    rcases mem_cons.mp h with rfl | h
    · simp [part]; omega
    · have := sizeOf_lt_of_mem_fields h
      simp; omega
  | fieldAccess | unary | capAnnotate | typeAnnotate | consume | recover | defer | hide
  | sealExcept | grainRef =>
    simp only [Expr.effectParts, mem_singleton] at h
    subst h
    simp [part] <;> omega
  | spawn actorType init positional node =>
    simp only [Expr.effectParts, mem_cons, mem_append, cons_append] at h
    rcases h with rfl | h | h
    · simp [part]; omega
    · have := sizeOf_lt_of_mem_fields h
      simp; omega
    · have := sizeOf_lt_of_mem_option h
      simp; omega
  | receive arms after =>
    rcases mem_append.mp h with h | h
    · obtain ⟨arm, harm, hp⟩ := mem_flatMap.mp h
      have h₁ := ReceiveArm.sizeOf_effectPart hp
      have h₂ := sizeOf_lt_of_mem harm
      simp; omega
    · cases after with
      | none => cases h
      | some a =>
        obtain ⟨ms, body⟩ := a
        simp only [toList, flatMap_cons, flatMap_nil, append_nil,
          mem_cons, not_mem_nil, or_false] at h
        rcases h with rfl | rfl <;>
          simp [part] <;> omega
  | handle body arms =>
    rcases mem_cons.mp h with rfl | h
    · simp; omega
    · obtain ⟨arm, harm, rfl⟩ := List.mem_map.mp h
      have h₁ := arm.sizeOf_effectPart
      have h₂ := sizeOf_lt_of_mem harm
      simp; omega
  | ret value =>
    have := sizeOf_lt_of_mem_option h
    simp; omega
/-! ## One effect at a time -/

/-- The effects recorded for a function. -/
def rowOf (rows : FnRows) (f : String) : List Effect := ((rows.lookup f).getD .empty).effects

theorem effects_calleeRow {shadowed : List String} : (calleeRow rows shadowed (.var f)).effects =
      if shadowed.contains f then [] else rowOf rows f := by
  simp only [calleeRow, rowOf]
  split <;> rfl

/-- Whether the row of an expression is declared and not inferred. -/
def Expr.isDeclared : Expr → Bool
  | .lambda _ _ (some _) => true
  | _ => false

/-- An effect of an expression, by the rows of the functions it calls. -/
inductive Performs (rows : FnRows) (e : Effect) : List String → List Effect → Expr → Prop
  | own {shadowed : List String} {handlers : List Effect} {x : Expr}
      (h : e ∈ x.ownEffects rows shadowed handlers) : Performs rows e shadowed handlers x
  | part {shadowed : List String} {handlers : List Effect} {x : Expr} {p : EffectPart}
      (hx : x.isDeclared = false)
      (hp : p ∈ x.effectParts) (hn : e ∉ p.handled)
      (h : Performs rows e (shadowed ++ p.names) (p.handlers handlers) p.expr) :
      Performs rows e shadowed handlers x

section Performs

variable {x : Expr} {shadowed : List String} {handlers : List Effect} {r : EffectRow}

theorem mem_ownEffects_mono (h : ∀ f, e ∈ rowOf rows f → e ∈ rowOf rows' f)
    (he : e ∈ x.ownEffects rows shadowed handlers) : e ∈ x.ownEffects rows' shadowed handlers := by
  cases x with
  | app func args =>
    cases func with
    | var f =>
      simp only [Expr.ownEffects, effects_calleeRow] at he ⊢
      split at he
      · cases he
      · next hf =>
        rw [if_neg hf]
        exact h f he
    | _ => exact he
  | lambda params body effect => cases effect <;> exact he
  | _ => exact he

theorem Performs.mono (h : ∀ f, e ∈ rowOf rows f → e ∈ rowOf rows' f)
    (hx : Performs rows e shadowed handlers x) :
    Performs rows' e shadowed handlers x := by
  induction hx with
  | own he => exact .own (mem_ownEffects_mono h he)
  | part hx hp hn _ ih => exact .part hx hp hn ih

theorem mem_ownEffects_of_isDeclared (hx : x.isDeclared = true)
    (hr : inferEffects rows shadowed handlers x = .ok r) (he : e ∈ r.effects) :
    e ∈ x.ownEffects rows shadowed handlers := by
  cases x with
  | lambda params body effect =>
    cases effect with
    | none => cases hx
    | some ann =>
      simp only [inferEffects, bind_eq_ok, pure, Except.pure, Except.ok.injEq] at hr
      obtain ⟨-, -, -, -, rfl⟩ := hr
      exact he
  | _ => cases hx

theorem mem_inferEffects {x : Expr} {shadowed : List String} {handlers : List Effect}
    {r : EffectRow} (hr : inferEffects rows shadowed handlers x = .ok r) :
    e ∈ r.effects ↔ Performs rows e shadowed handlers x := by
  have hc := inferEffects_charges hr
  have parts : ∀ p ∈ x.effectParts, ∀ s, p.infer rows shadowed handlers = .ok s →
      (e ∈ s.effects ↔ Performs rows e (shadowed ++ p.names) (p.handlers handlers) p.expr) :=
    fun p hp s hs =>
      have : sizeOf p.expr < sizeOf x := sizeOf_effectPart hp
      mem_inferEffects hs
  constructor
  · intro he
    cases hx : x.isDeclared with
    | true => exact .own (mem_ownEffects_of_isDeclared hx hr he)
    | false =>
      obtain he | ⟨p, hp, s, hs, he, hn⟩ := (hc.mem e).mp he
      · exact .own he
      · exact .part hx hp hn ((parts p hp s hs).mp he)
  · rintro (he | ⟨-, hp, hn, h⟩)
    · exact (hc.mem e).mpr (.inl he)
    · obtain ⟨s, hs⟩ := hc.ok _ hp
      exact (hc.mem e).mpr (.inr ⟨_, hp, s, hs, (parts _ hp s hs).mpr h, hn⟩)
termination_by sizeOf x

end Performs

theorem lookup_insert (rows : FnRows) (n f : String) (row : EffectRow) :
    (rows.insert n row).lookup f = if f = n then some row else rows.lookup f := by
  unfold FnRows.insert
  rw [lookup_cons]
  by_cases hf : f = n
  · simp [hf]
  · have hb : (f == n) = false := by simpa using hf
    rw [hb, if_neg hf]
    induction rows with
    | nil => rfl
    | cons p rows ih =>
      obtain ⟨m, r⟩ := p
      by_cases hm : m = n
      · have hfm : (f == m) = false := by simpa [hm] using hf
        simpa [filter_cons, hm, lookup_cons, hb] using ih
      · simp [hm, lookup_cons, ih]

theorem rowOf_insert (n : String) (row : EffectRow) :
    rowOf (rows.insert n row) f = if f = n then row.effects else rowOf rows f := by
  unfold rowOf
  rw [lookup_insert]
  split <;> rfl

def FnRows.names (rows : FnRows) : Finset String := (rows.map (·.1)).toFinset

theorem mem_names : f ∈ rows.names ↔ ∃ row, (f, row) ∈ rows := by
  simp [FnRows.names]

theorem names_insert {n : String} {row : EffectRow} :
    (rows.insert n row).names = insert n rows.names := by
  ext f
  simp only [FnRows.insert, mem_names, mem_cons, Prod.mk.injEq, mem_filter, bne_iff_ne,
    Finset.mem_insert]
  constructor
  · rintro ⟨r, ⟨rfl, -⟩ | ⟨hr, -⟩⟩
    · exact .inl rfl
    · exact .inr ⟨r, hr⟩
  · rintro (rfl | ⟨r, hr⟩)
    · exact ⟨row, .inl ⟨rfl, rfl⟩⟩
    · by_cases hf : f = n
      · exact ⟨row, .inl ⟨hf, rfl⟩⟩
      · exact ⟨r, .inr ⟨hr, hf⟩⟩

/-- The functions whose row has an effect. -/
def holders (e : Effect) (rows : FnRows) : Finset String :=
  rows.names.filter fun f => e ∈ rowOf rows f

theorem mem_holders : f ∈ holders e rows ↔ e ∈ rowOf rows f := by
  simp only [holders, Finset.mem_filter, and_iff_right_iff_imp]
  intro h
  unfold rowOf at h
  cases hl : rows.lookup f with
  | none => simp [hl] at h
  | some row =>
    rw [lookup_eq_some_iff] at hl
    obtain ⟨l₁, l₂, rfl, -⟩ := hl
    exact mem_names.mpr ⟨row, by simp⟩

theorem holders_subset : holders e rows ⊆ rows.names :=
  Finset.filter_subset _ _

/-! ## Rounds are sweeps -/

/-- The bodies the rounds visit: those of functions without a declared row. -/
def pendingBodies : List Decl → List (String × Expr)
  | [] => []
  | .function name _ _ _ none _ _ body :: decls => (name, body) :: pendingBodies decls
  | _ :: decls => pendingBodies decls

/-- A body has an effect when the functions in `X` have it. -/
def Makes (e : Effect) (X : Finset String) (body : Expr) : Prop :=
  ∃ rows, holders e rows ⊆ X ∧ Performs rows e [] [] body

variable {r entry : EffectRow} {name : String} {changed changed' : Bool} {n : Nat}

theorem Makes.mono (X Y : Finset String) (body : Expr) (h : X ⊆ Y) (hm : Makes e X body) :
    Makes e Y body :=
  hm.imp fun _ hm => ⟨hm.1.trans h, hm.2⟩

theorem makes_iff : Makes e (holders e rows) body ↔ Performs rows e [] [] body := by
  constructor
  · rintro ⟨rows', hX, hp⟩
    exact hp.mono fun f hf => mem_holders.mp (hX (mem_holders.mpr hf))
  · exact fun hp => ⟨rows, subset_rfl, hp⟩

/-- One visit: the row of the function becomes `entry`, which has what it had and what is
inferred. -/
theorem holders_insert (hr : inferEffects rows [] [] body = .ok r)
    (hentry : ∀ e, e ∈ entry.effects ↔ e ∈ rowOf rows name ∨ e ∈ r.effects) :
    holders e (rows.insert name entry) =
      Sweep.visit (Makes e) (holders e rows) (name, body) := by
  ext f
  rw [mem_holders, rowOf_insert, Sweep.mem_visit, mem_holders, makes_iff, ← mem_inferEffects hr]
  split <;> simp_all

/-- What a round does, for every effect at once. -/
structure Round (decls : List Decl) (rows rows' : FnRows) (changed changed' : Bool) : Prop where
  holders : ∀ e, holders e rows' = Sweep.sweep (Makes e) (pendingBodies decls) (holders e rows)
  names : (∀ p ∈ pendingBodies decls, p.1 ∈ rows.names) → rows'.names = rows.names
  others : ∀ f, (∀ p ∈ pendingBodies decls, p.1 ≠ f) → rowOf rows' f = rowOf rows f
  unchanged : changed' = false → changed = false ∧ ∀ e, Ast.holders e rows' = Ast.holders e rows

theorem Round.visit {params : List Param} {defaults : List (Option Expr)} {usings : List Param}
    {requires ensures : List Expr} {mid : Bool} (hr : inferEffects rows [] [] body = .ok r)
    (hentry : ∀ e, e ∈ entry.effects ↔ e ∈ rowOf rows name ∨ e ∈ r.effects)
    (hmid : mid = false → changed = false ∧ ∀ e ∈ r.effects, e ∈ rowOf rows name)
    (h : Round decls (rows.insert name entry) rows' mid changed') :
    Round (.function name params defaults usings none requires ensures body :: decls) rows rows'
      changed changed' := by
  constructor
  · intro e
    rw [h.holders e, holders_insert hr hentry]
    rfl
  · intro hn
    have hname : name ∈ rows.names := hn (name, body) (by simp [pendingBodies])
    have hins : (rows.insert name entry).names = rows.names := by
      rw [names_insert, Finset.insert_eq_of_mem hname]
    rw [h.names fun p hp => hins ▸ hn p (by simp [pendingBodies, hp]), hins]
  · intro f hf
    have hne : name ≠ f := hf (name, body) (by simp [pendingBodies])
    rw [h.others f fun p hp => hf p (by simp [pendingBodies, hp]), rowOf_insert,
      if_neg (Ne.symm hne)]
  · intro hc
    obtain ⟨hm, hh⟩ := h.unchanged hc
    obtain ⟨hch, hsub⟩ := hmid hm
    refine ⟨hch, fun e => ?_⟩
    rw [hh e]
    ext f
    rw [mem_holders, mem_holders, rowOf_insert]
    split
    · next heq =>
      subst heq
      rw [hentry e]
      exact ⟨fun he => he.elim id (hsub e), Or.inl⟩
    · exact Iff.rfl

theorem round_of_growRows (h : growRows rows changed decls = .ok (rows', changed')) :
    Round decls rows rows' changed changed' := by
  induction decls generalizing rows changed with
  | nil =>
    simp only [growRows, pure, Except.pure, Except.ok.injEq, Prod.mk.injEq] at h
    obtain ⟨rfl, rfl⟩ := h
    exact ⟨fun _ => rfl, fun _ => rfl, fun _ _ => rfl, fun h => ⟨h, fun _ => rfl⟩⟩
  | cons decl decls ih =>
    -- only functions without a declared row are visited
    cases decl with
    | function name params defaults usings effect requires ensures body =>
      cases effect with
      | some ann =>
        simp only [growRows] at h
        obtain ⟨h₁, h₂, h₃, h₄⟩ := ih h
        exact ⟨h₁, h₂, h₃, h₄⟩
      | none =>
        simp only [growRows, bind_eq_ok] at h
        obtain ⟨r, hr, h⟩ := h
        have hrow : ((rows.lookup name).getD .empty).effects = rowOf rows name := rfl
        split at h
        · next hsub =>
          rw [EffectRow.subset_iff, hrow] at hsub
          refine Round.visit hr (fun e => ?_) (fun hc => ⟨hc, hsub⟩) (ih h)
          rw [hrow]
          exact ⟨Or.inl, fun he => he.elim id (hsub e)⟩
        · refine Round.visit hr (fun e => ?_) (fun hc => by cases hc) (ih h)
          rw [EffectRow.effects_combine, mem_append, hrow]
    | _ =>
      simp only [growRows] at h
      obtain ⟨h₁, h₂, h₃, h₄⟩ := ih h
      exact ⟨h₁, h₂, h₃, h₄⟩

/-- All the rounds, or the rounds up to one that changed nothing. -/
theorem holders_iterateRows (h : iterateRows decls n rows = .ok rows') : holders e rows' =
      (Sweep.sweep (Makes e) (pendingBodies decls))^[n] (holders e rows) := by
  induction n generalizing rows with
  | zero =>
    simp only [iterateRows, pure, Except.pure, Except.ok.injEq] at h
    rw [h]
    rfl
  | succ n ih =>
    simp only [iterateRows, bind_eq_ok] at h
    obtain ⟨⟨mid, changed⟩, hg, h⟩ := h
    have hround := round_of_growRows hg
    rw [Function.iterate_succ_apply, ← hround.holders e]
    cases changed with
    | true => exact ih (by simpa using h)
    | false =>
      have heq : mid = rows' := by simpa [pure, Except.pure] using h
      subst heq
      have hfix := (hround.unchanged rfl).2 e
      have hsweep : Sweep.sweep (Makes e) (pendingBodies decls) (holders e mid) =
          holders e mid := by
        conv_rhs => rw [hround.holders e]
        rw [hfix]
      exact (Function.iterate_fixed hsweep n).symm

theorem rowOf_iterateRows (h : iterateRows decls n rows = .ok rows')
    (hf : ∀ p ∈ pendingBodies decls, p.1 ≠ f) : rowOf rows' f = rowOf rows f := by
  induction n generalizing rows with
  | zero =>
    simp only [iterateRows, pure, Except.pure, Except.ok.injEq] at h
    rw [h]
  | succ n ih =>
    simp only [iterateRows, bind_eq_ok] at h
    obtain ⟨⟨mid, changed⟩, hg, h⟩ := h
    have hround := (round_of_growRows hg).others f hf
    cases changed with
    | true => rw [ih (by simpa using h), hround]
    | false =>
      have heq : mid = rows' := by simpa [pure, Except.pure] using h
      rw [← heq, hround]

/-! ## The final table -/

/-- The functions of a flat list of declarations, with their declared rows. A `using` parameter is a
parameter like the others. -/
def functionsOf : List Decl → List (String × Option EffectRow × Fn)
  | [] => []
  | .function name params _ usings effect _ _ body :: decls =>
      (name, effect, ⟨params ++ usings, body⟩) :: functionsOf decls
  | _ :: decls => functionsOf decls

theorem mem_pendingBodies : (f, body) ∈ pendingBodies decls ↔
      ∃ params, (f, none, ⟨params, body⟩) ∈ functionsOf decls := by
  induction decls with
  | nil => simp [pendingBodies, functionsOf]
  | cons decl decls ih =>
    cases decl with
    | function name params defaults usings effect requires ensures b =>
      cases effect with
      | some ann => simp [pendingBodies, functionsOf, ih]
      | none =>
        simp only [pendingBodies, functionsOf, mem_cons, ih, Prod.mk.injEq, Fn.mk.injEq,
          true_and]
        constructor
        · rintro (⟨rfl, rfl⟩ | ⟨ps, h⟩)
          · exact ⟨params ++ usings, .inl ⟨rfl, rfl, rfl⟩⟩
          · exact ⟨ps, .inr h⟩
        · rintro ⟨ps, ⟨rfl, rfl, rfl⟩ | h⟩
          · exact .inl ⟨rfl, rfl⟩
          · exact .inr ⟨ps, h⟩
    | _ => simpa [pendingBodies, functionsOf] using ih

theorem names_declaredRows :
    (declaredRows rows decls).names = rows.names ∪ ((functionsOf decls).map (·.1)).toFinset := by
  induction decls generalizing rows with
  | nil => simp [declaredRows, functionsOf]
  | cons decl decls ih =>
    cases decl with
    | function name params defaults usings effect requires ensures body =>
      simp only [declaredRows, functionsOf, ih, names_insert, map_cons, toFinset_cons]
      ext f
      simp only [Finset.mem_union, Finset.mem_insert]
      tauto
    | _ => simpa [declaredRows, functionsOf] using ih

/-- With distinct names a function starts with the row it declares. -/
theorem rowOf_declaredRows : rowOf (declaredRows rows decls) f =
      match (functionsOf decls).reverse.find? (·.1 == f) with
      | some (_, effect, _) => (effect.getD .empty).effects
      | none => rowOf rows f := by
  induction decls generalizing rows with
  | nil => rfl
  | cons decl decls ih =>
    cases decl with
    | function name params defaults usings effect requires ensures body =>
      simp only [declaredRows, functionsOf, ih, reverse_cons, find?_append]
      cases hfind : (functionsOf decls).reverse.find? (·.1 == f) with
      | some p => rfl
      | none =>
        simp only [none_or, find?_cons, find?_nil, rowOf_insert]
        by_cases hf : name = f
        · simp [hf]
        · have hb : (name == f) = false := by simpa using hf
          simp [hb, Ne.symm hf]
    | _ => simpa [declaredRows, functionsOf] using ih

theorem eq_of_count_one {α β : Type} [DecidableEq α] {l : List (α × β)} {a : α}
    (h : (l.map (·.1)).count a = 1) {p q : α × β} (hp : p ∈ l) (hq : q ∈ l) (hpa : p.1 = a)
    (hqa : q.1 = a) : p = q := by
  rw [count, countP_map, countP_eq_length_filter] at h
  obtain ⟨r, hr⟩ := length_eq_one_iff.mp h
  have hmem : ∀ x ∈ l, x.1 = a → x = r := by
    intro x hx hxa
    have : x ∈ l.filter ((· == a) ∘ (·.1)) := mem_filter.mpr ⟨hx, by simp [hxa]⟩
    rw [hr] at this
    exact mem_singleton.mp this
  rw [hmem p hp hpa, hmem q hq hqa]

section Registered

variable (h : registerFunctionRows decls = .ok rows)

include h

theorem closed_holders (e : Effect) :
    Sweep.Closed (Makes e) (pendingBodies decls) (holders e rows) := by
  have hnames : (declaredRows [] decls).names = ((functionsOf decls).map (·.1)).toFinset := by
    rw [names_declaredRows]
    exact Finset.empty_union _
  rw [holders_iterateRows h]
  refine Sweep.closed_iterate (holders_subset) (fun p hp => ?_) ?_
  · obtain ⟨ps, hps⟩ := mem_pendingBodies.mp hp
    rw [hnames]
    exact List.mem_toFinset.mpr (List.mem_map.mpr ⟨_, hps, rfl⟩)
  · simpa [FnRows.names] using toFinset_card_le ((declaredRows [] decls).map (·.1))

theorem mem_rowOf_of_performs {fn : Fn} (hf : (f, none, fn) ∈ functionsOf decls)
    (hp : Performs rows e [] [] fn.body) :
    e ∈ rowOf rows f :=
  mem_holders.mp
    (closed_holders h e (f, fn.body) (mem_pendingBodies.mpr ⟨fn.params, hf⟩) (makes_iff.mpr hp))

/-- The recorded rows of unannotated functions have every effect inferred from the records. -/
theorem inferred_mem_rowOf {params : List Param} {r : EffectRow}
    (hf : (f, none, ⟨params, body⟩) ∈ functionsOf decls) (hr : inferEffects rows [] [] body = .ok r)
    (he : e ∈ r.effects) : e ∈ rowOf rows f :=
  mem_rowOf_of_performs h hf ((mem_inferEffects hr).mp he)

/-- With distinct names, an annotated function keeps the row it declares. -/
theorem rowOf_annotated (hone : ((functionsOf decls).map (·.1)).count f = 1) {fn : Fn}
    {ann : EffectRow} (hf : (f, some ann, fn) ∈ functionsOf decls) :
    rowOf rows f = ann.effects := by
  have unique : ∀ p ∈ functionsOf decls, p.1 = f → p = (f, some ann, fn) :=
    fun p hp hpf => eq_of_count_one hone hp hf hpf rfl
  have hpending : ∀ p ∈ pendingBodies decls, p.1 ≠ f := by
    rintro ⟨g, body⟩ hp rfl
    obtain ⟨ps, hps⟩ := mem_pendingBodies.mp hp
    exact absurd (unique _ hps rfl) (by simp)
  rw [rowOf_iterateRows h hpending, rowOf_declaredRows]
  cases hfind : (functionsOf decls).reverse.find? (·.1 == f) with
  | none =>
    have := find?_eq_none.mp hfind (f, some ann, fn) (by simpa using hf)
    simp at this
  | some p =>
    have hp : p ∈ functionsOf decls := by simpa using mem_of_find?_eq_some hfind
    have hpf : p.1 = f := by simpa using find?_some hfind
    rw [unique p hp hpf]
    rfl

end Registered

/-- The equations of the rows: a function has the row it declares, or else the effects of its body
by the rows of the functions that are called; there are no other rows. -/
structure Solves (decls : List Decl) (rows : FnRows) : Prop where
  declared : ∀ f ann fn, (f, some ann, fn) ∈ functionsOf decls → ∀ e, e ∈ rowOf rows f ↔
    e ∈ ann.effects
  inferred : ∀ f fn, (f, none, fn) ∈ functionsOf decls → ∀ e, e ∈ rowOf rows f ↔ Performs rows e
    [] [] fn.body
  others : ∀ f, f ∉ (functionsOf decls).map (·.1) → rowOf rows f = []

section Least

variable (hn : ((functionsOf decls).map (·.1)).Nodup)
include hn

theorem mem_declaredRows : e ∈ rowOf (declaredRows [] decls) f ↔
    ∃ ann fn, (f, some ann, fn) ∈ functionsOf decls ∧ e ∈ ann.effects := by
  rw [rowOf_declaredRows]
  cases hfind : (functionsOf decls).reverse.find? (·.1 == f) with
  | none =>
    have hnone := find?_eq_none.mp hfind
    refine iff_of_false not_mem_nil ?_
    rintro ⟨ann, fn, hf, -⟩
    exact hnone _ (mem_reverse.mpr hf) (by simp)
  | some p =>
    obtain ⟨g, effect, fn⟩ := p
    have hp := mem_reverse.mp (mem_of_find?_eq_some hfind)
    obtain rfl : g = f := by simpa using find?_some hfind
    constructor
    · intro he
      cases effect with
      | none => cases he
      | some ann => exact ⟨ann, fn, hp, he⟩
    · rintro ⟨ann, fn', hf, he⟩
      cases inj_on_of_nodup_map hn hp hf rfl
      exact he

/-- The rows that are registered are the least solution. -/
theorem registered_least (h : registerFunctionRows decls = .ok rows) :
    Solves decls rows ∧ ∀ rows', Solves decls rows' → ∀ f e, e ∈ rowOf rows f →
      e ∈ rowOf rows' f := by
  refine ⟨⟨fun f ann fn hf e => ?_, fun f fn hf e => ?_, fun f hf => ?_⟩, fun rows' hs f e he => ?_⟩
  · rw [rowOf_annotated h (count_eq_one_of_mem hn (mem_map_of_mem hf)) hf]
  · refine ⟨fun he => ?_, mem_rowOf_of_performs h hf⟩
    rw [← mem_holders, holders_iterateRows h] at he
    have hc := closed_holders h e
    rw [holders_iterateRows h] at hc
    obtain he | ⟨entry, hentry, rfl, hm⟩ := Sweep.mem_iterate Makes.mono hc he
    · obtain ⟨ann, fn', hf', -⟩ := (mem_declaredRows hn).mp (mem_holders.mp he)
      cases inj_on_of_nodup_map hn hf hf' rfl
    · obtain ⟨params, hf'⟩ := mem_pendingBodies.mp hentry
      cases inj_on_of_nodup_map hn hf hf' rfl
      rwa [← holders_iterateRows h, makes_iff] at hm
  · have hpending : ∀ p ∈ pendingBodies decls, p.1 ≠ f := by
      rintro p hp rfl
      obtain ⟨params, hf'⟩ := mem_pendingBodies.mp hp
      exact hf (mem_map_of_mem hf')
    rw [rowOf_iterateRows h hpending, eq_nil_iff_forall_not_mem]
    intro e he
    obtain ⟨ann, fn, hf', -⟩ := (mem_declaredRows hn).mp he
    exact hf (mem_map_of_mem hf')
  · rw [← mem_holders, holders_iterateRows h] at he
    refine mem_holders.mp
      (Sweep.iterate_subset Makes.mono (fun g hg => ?_) (fun entry hentry hm => ?_) he)
    · obtain ⟨ann, fn, hf', hann⟩ := (mem_declaredRows hn).mp (mem_holders.mp hg)
      exact mem_holders.mpr ((hs.declared g ann fn hf' e).mpr hann)
    · obtain ⟨params, hf'⟩ := mem_pendingBodies.mp hentry
      exact mem_holders.mpr ((hs.inferred _ _ hf' e).mpr (makes_iff.mp hm))

end Least

/-- A function that calls one declared after it. -/
theorem registered_least_call :
    let decls : List Decl := [.function "f" [] [] [] none [] [] (.app (.var "g") []),
      .function "g" [] [] [] none [] [] (.emit "done" [])]
    ∃ rows, registerFunctionRows decls = .ok rows ∧ Solves decls rows :=
  ⟨_, rfl, (registered_least (by decide) rfl).1⟩

end Nulang.Ast

import Nulang.Canon

/-!
# Types under a valuation

`inst t ρ` reads a type under a valuation of its variables: simultaneous substitution, the
mathematics behind `apply_subst`. The file has its laws and those of `canon` and `eqUpToEffects`.
Nothing here mentions the unifier.

Valuations in place of substitutions are what keeps the later statements short: a substitution is
right about a valuation when every binding reads the same on both sides, and neither the order of
the bindings nor the recursion of `apply_subst` enters.

A scheme is substituted under its binder without renaming, as in the source. Substituting a type
that mentions a bound variable therefore captures it, and `read_inst` asks that this does not
happen (`captures`).
-/

set_option autoImplicit false

namespace Nulang

open List Function SortByKey

namespace Ty

/-- A valuation seen from under a binder: the bound variables stand for themselves. -/
def mask (vs : List TypeVar) (ρ : TypeVar → Ty) : TypeVar → Ty :=
  fun v => if v ∈ vs then .var v else ρ v

mutual

def inst : Ty → (TypeVar → Ty) → Ty
  | .var v, σ => σ v
  | .primitive p, _ => .primitive p
  | .tuple ts, σ => .tuple (instList ts σ)
  | .record fs, σ => .record (instFields fs σ)
  | .variant vs, σ => .variant (instCases vs σ)
  | .array t, σ => .array (inst t σ)
  | .function p r e c, σ => .function (inst p σ) (inst r σ) e c
  | .actor s b, σ => .actor (inst s σ) (inst b σ)
  | .app c as, σ => .app (inst c σ) (instList as σ)
  | .reference c t, σ => .reference c (inst t σ)
  | .scheme vs t, σ => .scheme vs (inst t (mask vs σ))
  | .nominal n t, σ => .nominal n (inst t σ)
  | .skolem id, _ => .skolem id

def instList : List Ty → (TypeVar → Ty) → List Ty
  | [], _ => []
  | t :: ts, σ => inst t σ :: instList ts σ

def instFields : Fields → (TypeVar → Ty) → Fields
  | [], _ => []
  | (n, t) :: fs, σ => (n, inst t σ) :: instFields fs σ

def instCases : Cases → (TypeVar → Ty) → Cases
  | [], _ => []
  | (n, none) :: vs, σ => (n, none) :: instCases vs σ
  | (n, some t) :: vs, σ => (n, some (inst t σ)) :: instCases vs σ

end

theorem instList_eq (ts : List Ty) (σ : TypeVar → Ty) : instList ts σ = ts.map (inst · σ) := by
  induction ts with
  | nil => rfl
  | cons t ts ih => simp [instList, ih]

theorem instFields_eq (fs : Fields) (σ : TypeVar → Ty) :
    instFields fs σ = fs.map (Prod.map id (inst · σ)) := by
  induction fs with
  | nil => rfl
  | cons f fs ih => obtain ⟨n, t⟩ := f; simp [instFields, ih]

theorem instCases_eq (vs : Cases) (σ : TypeVar → Ty) :
    instCases vs σ = vs.map (Prod.map id (Option.map (inst · σ))) := by
  induction vs with
  | nil => rfl
  | cons c vs ih => obtain ⟨n, _ | t⟩ := c <;> simp [instCases, ih]

theorem canonList_eq (ts : List Ty) : canonList ts = ts.map canon := by
  induction ts with
  | nil => rfl
  | cons t ts ih => simp [canonList, ih]

theorem canonFields_eq (fs : Fields) : canonFields fs = fs.map (Prod.map id canon) := by
  induction fs with
  | nil => rfl
  | cons f fs ih => obtain ⟨n, t⟩ := f; simp [canonFields, ih]

theorem canonCases_eq (vs : Cases) : canonCases vs = vs.map (Prod.map id (Option.map canon)) := by
  induction vs with
  | nil => rfl
  | cons c vs ih => obtain ⟨n, _ | t⟩ := c <;> simp [canonCases, ih]

variable {fs : Fields} {vs : Cases}

theorem map_fields_congr {β : Type} {f g : Ty → β} (h : ∀ p ∈ fs, f p.2 = g p.2) :
    fs.map (Prod.map id f) = fs.map (Prod.map (id : String → String) g) := by
  refine map_congr_left fun p hp => ?_
  rw [Prod.map_apply', Prod.map_apply', h p hp]

theorem map_cases_congr {β : Type} {f g : Ty → β} (h : ∀ c ∈ vs, ∀ t ∈ c.2, f t = g t) :
    vs.map (Prod.map id (Option.map f)) =
      vs.map (Prod.map (id : String → String) (Option.map g)) := by
  refine map_congr_left fun c hc => ?_
  rw [Prod.map_apply', Prod.map_apply', Option.map_congr fun t ht => h c hc t ht]

theorem mask_var (vs : List TypeVar) : mask vs .var = .var := by
  funext v
  simp [mask]

variable (t : Ty)

/-- Only the values of the free variables matter. Under a scheme these are the ones it does not
bind, so the induction is for all valuations at once. -/
theorem inst_congr {σ τ : TypeVar → Ty} (h : ∀ v ∈ t.fv, σ v = τ v) : t.inst σ = t.inst τ := by
  induction t generalizing σ τ with
  | var v => exact h v (by simp [fv])
  | primitive | skolem => rfl
  | tuple ts ih =>
    simp only [inst, instList_eq, tuple.injEq]
    refine map_congr_left fun t ht => ih t ht fun v hv => h v ?_
    exact mem_fvList.mpr ⟨t, ht, hv⟩
  | record fs ih =>
    simp only [inst, instFields_eq, record.injEq]
    exact map_fields_congr fun f hf => ih f hf fun v hv => h v (mem_fvFields.mpr ⟨f, hf, hv⟩)
  | variant vs ih =>
    simp only [inst, instCases_eq, variant.injEq]
    refine map_cases_congr fun c hc t ht => ih c hc t ht fun v hv => h v ?_
    exact mem_fvCases.mpr ⟨c, hc, t, ht, hv⟩
  | array t ih => simp only [inst, ih h]
  | function p r e c ihp ihr =>
    simp only [fv, Finset.mem_union] at h
    simp only [inst, ihp fun v hv => h v (.inl hv), ihr fun v hv => h v (.inr hv)]
  | actor s b ihs ihb =>
    simp only [fv, Finset.mem_union] at h
    simp only [inst, ihs fun v hv => h v (.inl hv), ihb fun v hv => h v (.inr hv)]
  | app c as ihc ih =>
    simp only [fv, Finset.mem_union] at h
    simp only [inst, instList_eq, ihc fun v hv => h v (.inl hv), app.injEq, true_and]
    refine map_congr_left fun t ht => ih t ht fun v hv => h v (.inr ?_)
    exact mem_fvList.mpr ⟨t, ht, hv⟩
  | reference c t ih => simp only [inst, ih h]
  | scheme vs t ih =>
    simp only [inst, scheme.injEq, true_and]
    refine ih fun v hv => ?_
    unfold mask
    split
    · rfl
    · exact h v (by simpa [fv] using ⟨hv, ‹_›⟩)
  | nominal n t ih => simp only [inst, ih h]

theorem inst_var : t.inst .var = t := by
  induction t with
  | var | primitive | skolem => rfl
  | tuple ts ih =>
    simp only [inst, instList_eq, tuple.injEq]
    exact (map_congr_left ih).trans (map_id ts)
  | record fs ih =>
    simp only [inst, instFields_eq, record.injEq]
    exact (map_fields_congr (g := id) ih).trans (by simp)
  | variant vs ih =>
    simp only [inst, instCases_eq, variant.injEq]
    exact (map_cases_congr (g := id) ih).trans (by simp)
  | array t ih => simp only [inst, ih]
  | function p r e c ihp ihr => simp only [inst, ihp, ihr]
  | actor s b ihs ihb => simp only [inst, ihs, ihb]
  | app c as ihc ih =>
    simp only [inst, instList_eq, ihc, app.injEq, true_and]
    exact (map_congr_left ih).trans (map_id as)
  | reference c t ih => simp only [inst, ih]
  | scheme vs t ih => simp only [inst, mask_var, ih]
  | nominal n t ih => simp only [inst, ih]

theorem inst_of_fixed {σ : TypeVar → Ty} (h : ∀ v ∈ t.fv, σ v = .var v) : t.inst σ = t := by
  rw [inst_congr t h, inst_var]

/-- A variable of a substituted type comes from the value of one of its variables. -/
theorem mem_fv_inst {σ : TypeVar → Ty} {w : TypeVar} (h : w ∈ (t.inst σ).fv) :
    ∃ v ∈ t.fv, w ∈ (σ v).fv := by
  induction t generalizing σ with
  | var v => exact ⟨v, by simp [fv], h⟩
  | primitive | skolem => simp [inst, fv] at h
  | tuple ts ih =>
    simp only [inst, fv, instList_eq, mem_fvList, mem_map] at h ⊢
    obtain ⟨_, ⟨t, ht, rfl⟩, hw⟩ := h
    obtain ⟨v, hv, hw⟩ := ih t ht hw
    exact ⟨v, ⟨t, ht, hv⟩, hw⟩
  | record fs ih =>
    simp only [inst, fv, instFields_eq, mem_fvFields, mem_map] at h ⊢
    obtain ⟨_, ⟨f, hf, rfl⟩, hw⟩ := h
    obtain ⟨v, hv, hw⟩ := ih f hf hw
    exact ⟨v, ⟨f, hf, hv⟩, hw⟩
  | variant vs ih =>
    simp only [inst, fv, instCases_eq, mem_fvCases, mem_map] at h ⊢
    obtain ⟨_, ⟨c, hc, rfl⟩, u, hu, hw⟩ := h
    obtain ⟨t, ht, rfl⟩ := Option.map_eq_some_iff.mp hu
    obtain ⟨v, hv, hw⟩ := ih c hc t ht hw
    exact ⟨v, ⟨c, hc, t, ht, hv⟩, hw⟩
  | array t ih => exact ih h
  | function p r e c ihp ihr =>
    simp only [inst, fv, Finset.mem_union] at h ⊢
    rcases h with h | h
    · obtain ⟨v, hv, hw⟩ := ihp h
      exact ⟨v, .inl hv, hw⟩
    · obtain ⟨v, hv, hw⟩ := ihr h
      exact ⟨v, .inr hv, hw⟩
  | actor s b ihs ihb =>
    simp only [inst, fv, Finset.mem_union] at h ⊢
    rcases h with h | h
    · obtain ⟨v, hv, hw⟩ := ihs h
      exact ⟨v, .inl hv, hw⟩
    · obtain ⟨v, hv, hw⟩ := ihb h
      exact ⟨v, .inr hv, hw⟩
  | app c as ihc ih =>
    simp only [inst, fv, instList_eq, Finset.mem_union, mem_fvList, mem_map] at h ⊢
    rcases h with h | ⟨_, ⟨t, ht, rfl⟩, hw⟩
    · obtain ⟨v, hv, hw⟩ := ihc h
      exact ⟨v, .inl hv, hw⟩
    · obtain ⟨v, hv, hw⟩ := ih t ht hw
      exact ⟨v, .inr ⟨t, ht, hv⟩, hw⟩
  | reference c t ih => exact ih h
  | scheme vs t ih =>
    simp only [inst, fv, Finset.mem_sdiff, mem_toFinset] at h ⊢
    obtain ⟨v, hv, hw⟩ := ih h.1
    unfold mask at hw
    split at hw
    · -- A bound variable stands for itself, and the binder removes it again.
      rw [fv, Finset.mem_singleton] at hw
      exact absurd (hw ▸ ‹v ∈ vs›) h.2
    · exact ⟨v, ⟨hv, ‹_›⟩, hw⟩
  | nominal n t ih => exact ih h

/-! ## Reading a substituted type -/

mutual

/-- Replacing variables puts a variable below a scheme that binds it. -/
def captures : Ty → (TypeVar → Ty) → Bool
  | .var _, _ => false
  | .primitive _, _ => false
  | .skolem _, _ => false
  | .tuple ts, σ => capturesList ts σ
  | .record fs, σ => capturesFields fs σ
  | .variant vs, σ => capturesCases vs σ
  | .array t, σ => captures t σ
  | .function p r _ _, σ => captures p σ || captures r σ
  | .actor s b, σ => captures s σ || captures b σ
  | .app c as, σ => captures c σ || capturesList as σ
  | .reference _ t, σ => captures t σ
  | .scheme vs t, σ =>
      decide (∃ v ∈ t.fv \ vs.toFinset, ∃ w ∈ vs, w ∈ (σ v).fv) || captures t (mask vs σ)
  | .nominal _ t, σ => captures t σ

def capturesList : List Ty → (TypeVar → Ty) → Bool
  | [], _ => false
  | t :: ts, σ => captures t σ || capturesList ts σ

def capturesFields : Fields → (TypeVar → Ty) → Bool
  | [], _ => false
  | (_, t) :: fs, σ => captures t σ || capturesFields fs σ

def capturesCases : Cases → (TypeVar → Ty) → Bool
  | [], _ => false
  | (_, none) :: vs, σ => capturesCases vs σ
  | (_, some t) :: vs, σ => captures t σ || capturesCases vs σ

end

theorem capturesList_eq_false {σ : TypeVar → Ty} {ts : List Ty} :
    capturesList ts σ = false ↔ ∀ t ∈ ts, t.captures σ = false := by
  induction ts with
  | nil => simp [capturesList]
  | cons t ts ih => simp [capturesList, ih]

theorem capturesFields_eq_false {σ : TypeVar → Ty} :
    capturesFields fs σ = false ↔ ∀ f ∈ fs, f.2.captures σ = false := by
  induction fs with
  | nil => simp [capturesFields]
  | cons f fs ih => simp [capturesFields, ih]

theorem capturesCases_eq_false {σ : TypeVar → Ty} :
    capturesCases vs σ = false ↔ ∀ c ∈ vs, ∀ t ∈ c.2, t.captures σ = false := by
  induction vs with
  | nil => simp [capturesCases]
  | cons c vs ih => obtain ⟨n, _ | t⟩ := c <;> simp [capturesCases, ih]

/-- A type read under a valuation, in canonical form. -/
def read (ρ : TypeVar → Ty) (t : Ty) : Ty := canon (t.inst ρ)

section Read

variable (ρ : TypeVar → Ty)

@[simp] theorem read_primitive (p : PrimitiveType) : read ρ (.primitive p) = .primitive p := rfl

@[simp] theorem read_skolem (id : Nat) : read ρ (.skolem id) = .skolem id := rfl

@[simp] theorem read_tuple (ts : List Ty) : read ρ (.tuple ts) = .tuple (ts.map (read ρ)) := by
  simp only [read, inst, canon, instList_eq, canonList_eq, map_map, tuple.injEq]
  rfl

theorem map_read_fields : canonFields (instFields fs ρ) = fs.map (Prod.map id (read ρ)) := by
  rw [instFields_eq, canonFields_eq, map_map, Prod.map_comp_map, id_comp]
  rfl

theorem read_record (fs : Fields) : read ρ (.record fs) =
      .record (joinRow (splitRecord (fs.map (Prod.map id (read ρ)))).1
        (splitRecord (fs.map (Prod.map id (read ρ)))).2) := by
  rw [read, inst, canon, map_read_fields]

@[simp] theorem read_variant :
    read ρ (.variant vs) = .variant ((sortByKey vs).map (Prod.map id (Option.map (read ρ)))) := by
  rw [← sortByKey_map, read, inst, canon, instCases_eq, canonCases_eq, map_map,
    Prod.map_comp_map, id_comp, Option.map_comp_map]
  rfl

@[simp] theorem read_array (t : Ty) : read ρ (.array t) = .array (read ρ t) := rfl

@[simp] theorem read_function (p r : Ty) (e : EffectRow) (c : Capability) :
    read ρ (.function p r e c) = .function (read ρ p) (read ρ r) e c := rfl

@[simp] theorem read_actor (s b : Ty) : read ρ (.actor s b) = .actor (read ρ s) (read ρ b) := rfl

@[simp] theorem read_app (c : Ty) (as : List Ty) :
    read ρ (.app c as) = .app (read ρ c) (as.map (read ρ)) := by
  simp only [read, inst, canon, instList_eq, canonList_eq, map_map, app.injEq, true_and]
  rfl

@[simp] theorem read_reference (c : Capability) (t : Ty) :
    read ρ (.reference c t) = .reference c (read ρ t) := rfl

@[simp] theorem read_nominal (n : String) (t : Ty) :
    read ρ (.nominal n t) = .nominal n (read ρ t) := rfl

end Read

theorem read_congr {ρ ρ' : TypeVar → Ty} (h : ∀ v ∈ t.fv, ρ v = ρ' v) : read ρ t = read ρ' t := by
  rw [read, inst_congr t h, read]

/-- A valuation that reads every replaced variable and its replacement alike reads a type and the
substituted type alike, unless a variable is captured. -/
theorem read_inst {σ ρ : TypeVar → Ty} (hρ : ∀ v ∈ t.fv, read ρ (σ v) = canon (ρ v))
    (ht : t.captures σ = false) : read ρ (t.inst σ) = read ρ t := by
  induction t generalizing σ ρ with
  | var v => exact hρ v (by simp [fv])
  | primitive | skolem => rfl
  | tuple ts ih =>
    rw [captures, capturesList_eq_false] at ht
    simp only [inst, instList_eq, read_tuple, map_map, tuple.injEq]
    exact map_congr_left fun t h =>
      ih t h (fun v hv => hρ v (mem_fvList.mpr ⟨t, h, hv⟩)) (ht t h)
  | record fs ih =>
    rw [captures, capturesFields_eq_false] at ht
    have h : (instFields fs σ).map (Prod.map id (read ρ)) = fs.map (Prod.map id (read ρ)) := by
      rw [instFields_eq, map_map, Prod.map_comp_map, id_comp]
      exact map_fields_congr fun f hf =>
        ih f hf (fun v hv => hρ v (mem_fvFields.mpr ⟨f, hf, hv⟩)) (ht f hf)
    rw [inst, read_record, read_record, h]
  | variant vs ih =>
    rw [captures, capturesCases_eq_false] at ht
    simp only [inst, instCases_eq, read_variant, sortByKey_map, map_map, Prod.map_comp_map,
      id_comp, Option.map_comp_map, variant.injEq]
    refine map_cases_congr fun c hc t h => ?_
    rw [mem_sortByKey] at hc
    exact ih c hc t h (fun v hv => hρ v (mem_fvCases.mpr ⟨c, hc, t, h, hv⟩)) (ht c hc t h)
  | array t ih => rw [inst, read_array, read_array, ih hρ ht]
  | function p r e c ihp ihr =>
    rw [captures, Bool.or_eq_false_iff] at ht
    rw [inst, read_function, read_function,
      ihp (fun v hv => hρ v (Finset.mem_union_left _ hv)) ht.1,
      ihr (fun v hv => hρ v (Finset.mem_union_right _ hv)) ht.2]
  | actor s b ihs ihb =>
    rw [captures, Bool.or_eq_false_iff] at ht
    rw [inst, read_actor, read_actor, ihs (fun v hv => hρ v (Finset.mem_union_left _ hv)) ht.1,
      ihb (fun v hv => hρ v (Finset.mem_union_right _ hv)) ht.2]
  | app c as ihc ih =>
    rw [captures, Bool.or_eq_false_iff, capturesList_eq_false] at ht
    simp only [inst, instList_eq, read_app, map_map,
      ihc (fun v hv => hρ v (Finset.mem_union_left _ hv)) ht.1, app.injEq, true_and]
    exact map_congr_left fun t h =>
      ih t h (fun v hv => hρ v (Finset.mem_union_right _ (mem_fvList.mpr ⟨t, h, hv⟩))) (ht.2 t h)
  | reference c t ih => rw [inst, read_reference, read_reference, ih hρ ht]
  | scheme vs t ih =>
    rw [captures, Bool.or_eq_false_iff, decide_eq_false_iff_not] at ht
    refine congrArg (Ty.scheme vs) (ih (fun v hv => ?_) ht.2)
    unfold mask
    split
    · next hvs =>
      rw [read, inst, if_pos hvs]
    · next hvs =>
      -- Outside the binder, the replacement mentions no variable the binder could catch.
      have hmem : v ∈ t.fv \ vs.toFinset := Finset.mem_sdiff.mpr ⟨hv, by simpa using hvs⟩
      rw [← hρ v hmem]
      refine read_congr (σ v) fun w hw => if_neg fun hwvs => ht.1 ⟨v, hmem, w, hwvs, hw⟩
  | nominal n t ih => rw [inst, read_nominal, read_nominal, ih hρ ht]

theorem effectRowCompatible_refl (e : EffectRow) : effectRowCompatible e e = true := by
  cases e with
  | closed es => exact isPerm_iff.mpr (.refl es)
  | «open» es r => simp [effectRowCompatible]

theorem eqUpToEffectsList_iff {as bs : List Ty} :
    eqUpToEffectsList as bs = true ↔ Forall₂ (fun a b => eqUpToEffects a b = true) as bs := by
  induction as generalizing bs with
  | nil => cases bs <;> simp [eqUpToEffectsList]
  | cons a as ih => cases bs <;> simp [eqUpToEffectsList, ih]

theorem eqUpToEffectsFields_iff {as bs : Fields} : eqUpToEffectsFields as bs = true ↔
      Forall₂ (Related fun a b => eqUpToEffects a b = true) as bs := by
  induction as generalizing bs with
  | nil => cases bs <;> simp [eqUpToEffectsFields]
  | cons a as ih =>
    obtain ⟨n, t⟩ := a
    rcases bs with _ | ⟨⟨m, u⟩, bs⟩ <;> simp [eqUpToEffectsFields, ih, Related, and_assoc]

theorem eqUpToEffectsCases_iff {as bs : Cases} : eqUpToEffectsCases as bs = true ↔
      Forall₂ (Related (Option.Rel fun a b => eqUpToEffects a b = true)) as bs := by
  induction as generalizing bs with
  | nil => cases bs <;> simp [eqUpToEffectsCases]
  | cons a as ih =>
    obtain ⟨n, _ | t⟩ := a <;> rcases bs with _ | ⟨⟨m, _ | u⟩, bs⟩ <;>
      simp [eqUpToEffectsCases, ih, Related, and_assoc]

/-- Compatible rows are reflexive, so the comparison is. -/
theorem eqUpToEffects_refl : eqUpToEffects t t = true := by
  induction t with
  | var | primitive | skolem => simp [eqUpToEffects]
  | tuple ts ih =>
    rw [eqUpToEffects, eqUpToEffectsList_iff, forall₂_same]
    exact ih
  | record fs ih =>
    rw [eqUpToEffects, eqUpToEffectsFields_iff, forall₂_same]
    exact fun f hf => ⟨rfl, ih f hf⟩
  | variant vs ih =>
    rw [eqUpToEffects, eqUpToEffectsCases_iff, forall₂_same]
    rintro ⟨n, _ | t⟩ hc
    · exact ⟨rfl, .none⟩
    · exact ⟨rfl, .some (ih _ hc t rfl)⟩
  | array t ih => simpa [eqUpToEffects] using ih
  | function p r e c ihp ihr => simp [eqUpToEffects, ihp, ihr, effectRowCompatible_refl]
  | actor s b ihs ihb => simp [eqUpToEffects, ihs, ihb]
  | app c as ihc ih =>
    rw [eqUpToEffects, Bool.and_eq_true, eqUpToEffectsList_iff, forall₂_same]
    exact ⟨ihc, ih⟩
  | reference c t ih => simp [eqUpToEffects, ih]
  | scheme vs t ih => simp [eqUpToEffects, ih]
  | nominal n t ih => simp [eqUpToEffects, ih]

/-- The valuation reads the two types as the same type. -/
def Agree (ρ : TypeVar → Ty) (t1 t2 : Ty) : Prop := eqUpToEffects (read ρ t1) (read ρ t2) = true

namespace Agree

variable {ρ : TypeVar → Ty}

variable {t1 t2 : Ty} {c : Capability}

theorem iff_same : Agree ρ t1 t2 ↔ same (t1.inst ρ) (t2.inst ρ) = true := Iff.rfl

theorem of_read_eq (h : read ρ t1 = read ρ t2) : Agree ρ t1 t2 := by
  rw [Agree, h]
  exact eqUpToEffects_refl _

theorem tuple {ts1 ts2 : List Ty} (h : Forall₂ (Agree ρ) ts1 ts2) :
    Agree ρ (.tuple ts1) (.tuple ts2) := by
  rw [Agree, read_tuple, read_tuple, eqUpToEffects, eqUpToEffectsList_iff,
    forall₂_map_left_iff, forall₂_map_right_iff]
  exact h

theorem variant {vs1 vs2 : Cases}
    (h : Forall₂ (Related (Option.Rel (Agree ρ))) (sortByKey vs1) (sortByKey vs2)) :
    Agree ρ (.variant vs1) (.variant vs2) := by
  rw [Agree, read_variant, read_variant, eqUpToEffects, eqUpToEffectsCases_iff,
    forall₂_map_left_iff, forall₂_map_right_iff]
  refine h.imp fun c d hcd => ⟨hcd.1, ?_⟩
  obtain ⟨n, o⟩ := c
  obtain ⟨m, o'⟩ := d
  cases hcd.2 with
  | none => exact .none
  | some hab => exact .some hab

theorem function {p1 p2 r1 r2 : Ty} {e1 e2 : EffectRow} (he : effectRowCompatible e1 e2 = true)
    (hp : Agree ρ p1 p2) (hr : Agree ρ r1 r2) :
    Agree ρ (.function p1 r1 e1 c) (.function p2 r2 e2 c) := by
  unfold Agree at hp hr
  simp [Agree, eqUpToEffects, hp, hr, he]

theorem actor {s1 s2 b1 b2 : Ty} (hs : Agree ρ s1 s2) (hb : Agree ρ b1 b2) :
    Agree ρ (.actor s1 b1) (.actor s2 b2) := by
  unfold Agree at hs hb
  simp [Agree, eqUpToEffects, hs, hb]

theorem app {c1 c2 : Ty} {as1 as2 : List Ty} (hc : Agree ρ c1 c2)
    (h : Forall₂ (Agree ρ) as1 as2) : Agree ρ (.app c1 as1) (.app c2 as2) := by
  rw [Agree, read_app, read_app, eqUpToEffects, Bool.and_eq_true, eqUpToEffectsList_iff,
    forall₂_map_left_iff, forall₂_map_right_iff]
  exact ⟨hc, h⟩

theorem reference (h : Agree ρ t1 t2) : Agree ρ (.reference c t1) (.reference c t2) := by
  unfold Agree at h
  simp [Agree, eqUpToEffects, h]

theorem nominal {n : String} (h : Agree ρ t1 t2) : Agree ρ (.nominal n t1) (.nominal n t2) := by
  unfold Agree at h
  simp [Agree, eqUpToEffects, h]

theorem array (h : Agree ρ t1 t2) : Agree ρ (.array t1) (.array t2) := by
  unfold Agree at h
  simp [Agree, eqUpToEffects, h]

end Agree

end Ty

end Nulang

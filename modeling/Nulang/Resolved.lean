import Nulang.Unify

/-!
# Resolved substitutions

The substitutions `mgu` builds are lists of bindings that `apply_subst` follows to a fixpoint. As
long as no binding mentions a bound variable (`Resolved`) there is nothing to follow: applying is
simultaneous substitution (`applySubst_resolved`), it terminates, and composing is appending
(`after`). The file proves this and what the two operations do to variables, to valuations and to
predicates that hold node by node.
-/

set_option autoImplicit false

namespace Nulang

open Substitution Ty List Option
open SortByKey (mem_of_lookup lookup_of_mem)

namespace Ty

/-! ## Predicates that hold at every node -/

mutual

/-- Every node of the type satisfies `p`. -/
def all (p : Ty → Bool) : Ty → Bool
  | .var v => p (.var v)
  | .primitive q => p (.primitive q)
  | .tuple ts => p (.tuple ts) && allList p ts
  | .record fs => p (.record fs) && allFields p fs
  | .variant vs => p (.variant vs) && allCases p vs
  | .array t => p (.array t) && all p t
  | .function a r e c => p (.function a r e c) && (all p a && all p r)
  | .actor s b => p (.actor s b) && (all p s && all p b)
  | .app c as => p (.app c as) && (all p c && allList p as)
  | .reference c t => p (.reference c t) && all p t
  | .scheme vs t => p (.scheme vs t) && all p t
  | .nominal n t => p (.nominal n t) && all p t
  | .skolem id => p (.skolem id)

def allList (p : Ty → Bool) : List Ty → Bool
  | [] => true
  | t :: ts => all p t && allList p ts

def allFields (p : Ty → Bool) : Fields → Bool
  | [] => true
  | (_, t) :: fs => all p t && allFields p fs

def allCases (p : Ty → Bool) : Cases → Bool
  | [] => true
  | (_, none) :: vs => allCases p vs
  | (_, some t) :: vs => all p t && allCases p vs

end

section All

variable {p : Ty → Bool}

theorem allList_iff {ts : List Ty} : allList p ts = true ↔ ∀ t ∈ ts, t.all p = true := by
  induction ts with
  | nil => simp [allList]
  | cons t ts ih => simp [allList, ih]

theorem allFields_iff {fs : Fields} : allFields p fs = true ↔ ∀ f ∈ fs, f.2.all p = true := by
  induction fs with
  | nil => simp [allFields]
  | cons f fs ih => simp [allFields, ih]

theorem allCases_iff {vs : Cases} : allCases p vs = true ↔ ∀ c ∈ vs, ∀ t ∈ c.2, t.all p = true := by
  induction vs with
  | nil => simp [allCases]
  | cons c vs ih => obtain ⟨n, _ | t⟩ := c <;> simp [allCases, ih]

theorem all_mono {q : Ty → Bool} (h : ∀ t, p t = true → q t = true) (t : Ty) (ht : t.all p = true) :
    t.all q = true := by
  induction t with
  | var | primitive | skolem => exact h _ ht
  | tuple ts ih =>
    simp only [all, Bool.and_eq_true, allList_iff] at ht ⊢
    exact ⟨h _ ht.1, fun t hmem => ih t hmem (ht.2 t hmem)⟩
  | record fs ih =>
    simp only [all, Bool.and_eq_true, allFields_iff] at ht ⊢
    exact ⟨h _ ht.1, fun f hf => ih f hf (ht.2 f hf)⟩
  | variant vs ih =>
    simp only [all, Bool.and_eq_true, allCases_iff] at ht ⊢
    exact ⟨h _ ht.1, fun c hc t hmem => ih c hc t hmem (ht.2 c hc t hmem)⟩
  | app c as ihc ih =>
    simp only [all, Bool.and_eq_true, allList_iff] at ht ⊢
    exact ⟨h _ ht.1, ihc ht.2.1, fun t hmem => ih t hmem (ht.2.2 t hmem)⟩
  | function a b e c iha ihb | actor a b iha ihb =>
    simp only [all, Bool.and_eq_true] at ht ⊢
    exact ⟨h _ ht.1, iha ht.2.1, ihb ht.2.2⟩
  | array t ih | reference c t ih | scheme vs t ih | nominal n t ih =>
    simp only [all, Bool.and_eq_true] at ht ⊢
    exact ⟨h _ ht.1, ih ht.2⟩

/-- A proper part of a type: among its variables, smaller, and of the same kinds of nodes. -/
@[mk_iff]
structure IsPart (a t : Ty) : Prop where
  fv : a.fv ⊆ t.fv
  size : a.size < t.size
  all : ∀ p, t.all p = true → a.all p = true

namespace IsPart

variable {a b t : Ty} {ts : List Ty} {e : EffectRow} {c : Capability}

theorem trans (h : IsPart a b) (h' : IsPart b t) : IsPart a t :=
  ⟨h.fv.trans h'.fv, h.size.trans h'.size, fun p hp => h.all p (h'.all p hp)⟩

theorem tuple (h : a ∈ ts) : IsPart a (.tuple ts) := by
  have := size_le_sizeList h
  simp only [isPart_iff, Ty.size, Ty.all, Bool.and_eq_true, allList_iff]
  exact ⟨fun _ hv => mem_fvList.mpr ⟨a, h, hv⟩, by omega, fun p hp => hp.2 a h⟩

theorem field {fs : Fields} {f : String × Ty} (h : f ∈ fs) : IsPart f.2 (.record fs) := by
  have := size_le_sizeFields h
  simp only [isPart_iff, Ty.size, Ty.all, Bool.and_eq_true, allFields_iff]
  exact ⟨fun _ hv => mem_fvFields.mpr ⟨f, h, hv⟩, by omega, fun p hp => hp.2 f h⟩

theorem payload {vs : Cases} {k : String × Option Ty} (hk : k ∈ vs) (h : a ∈ k.2) :
    IsPart a (.variant vs) := by
  have := size_le_sizeCases hk h
  simp only [isPart_iff, Ty.size, Ty.all, Bool.and_eq_true, allCases_iff]
  exact ⟨fun _ hv => mem_fvCases.mpr ⟨k, hk, a, h, hv⟩, by omega, fun p hp => hp.2 k hk a h⟩

/-- The inside of an array, a reference or a nominal. -/
theorem inner (hfv : t.fv = a.fv) (hsize : t.size = 1 + a.size)
    (hall : ∀ p, t.all p = (p t && a.all p)) : IsPart a t :=
  ⟨hfv.ge, by omega, fun p hp => (Bool.and_eq_true _ _ ▸ hall p ▸ hp).2⟩

theorem function : IsPart a (.function a b e c) ∧ IsPart b (.function a b e c) := by
  simp only [isPart_iff, Ty.size, Ty.all, Bool.and_eq_true]
  exact ⟨⟨Finset.subset_union_left, by omega, fun p hp => hp.2.1⟩,
    Finset.subset_union_right, by omega, fun p hp => hp.2.2⟩

theorem actor : IsPart a (.actor a b) ∧ IsPart b (.actor a b) := by
  simp only [isPart_iff, Ty.size, Ty.all, Bool.and_eq_true]
  exact ⟨⟨Finset.subset_union_left, by omega, fun p hp => hp.2.1⟩,
    Finset.subset_union_right, by omega, fun p hp => hp.2.2⟩

theorem app : IsPart a (.app a ts) ∧ ∀ b ∈ ts, IsPart b (.app a ts) := by
  simp only [isPart_iff, Ty.size, Ty.all, Bool.and_eq_true, allList_iff]
  refine ⟨⟨Finset.subset_union_left, by omega, fun p hp => hp.2.1⟩, fun b hb => ?_⟩
  have := size_le_sizeList hb
  exact ⟨fun _ hv => Finset.mem_union_right _ (mem_fvList.mpr ⟨b, hb, hv⟩), by omega, fun p hp =>
    hp.2.2 b hb⟩

end IsPart

/-- The predicate looks at one node and at nothing a substitution changes below it. -/
structure Nodewise (p : Ty → Bool) : Prop where
  var : ∀ v, p (.var v) = true
  inst : ∀ t σ, (∀ v, t ≠ .var v) → p (t.inst σ) = p t

/-- A predicate that holds node by node survives a substitution, if the values have it too. -/
theorem all_inst (hp : Nodewise p) {σ : TypeVar → Ty} (t : Ty) (ht : t.all p = true)
    (hσ : ∀ v ∈ t.fv, (σ v).all p = true) : (t.inst σ).all p = true := by
  induction t generalizing σ with
  | var v => exact hσ v (by simp [fv])
  | primitive | skolem => exact ht
  | tuple ts ih =>
    have hn := hp.inst (.tuple ts) σ (by simp)
    simp only [inst, all, Bool.and_eq_true, allList_iff, instList_eq, List.mem_map] at ht hn ⊢
    refine ⟨hn.trans ht.1, ?_⟩
    rintro _ ⟨t, h, rfl⟩
    exact ih t h (ht.2 t h) fun v hv => hσ v (mem_fvList.mpr ⟨t, h, hv⟩)
  | record fs ih =>
    have hn := hp.inst (.record fs) σ (by simp)
    simp only [inst, all, Bool.and_eq_true, allFields_iff, instFields_eq, List.mem_map] at ht hn ⊢
    refine ⟨hn.trans ht.1, ?_⟩
    rintro _ ⟨f, h, rfl⟩
    exact ih f h (ht.2 f h) fun v hv => hσ v (mem_fvFields.mpr ⟨f, h, hv⟩)
  | variant vs ih =>
    have hn := hp.inst (.variant vs) σ (by simp)
    simp only [inst, all, Bool.and_eq_true, allCases_iff, instCases_eq, List.mem_map] at ht hn ⊢
    refine ⟨hn.trans ht.1, ?_⟩
    rintro _ ⟨c, h, rfl⟩ u hu
    obtain ⟨t, hc, rfl⟩ := map_eq_some_iff.mp hu
    exact ih c h t hc (ht.2 c h t hc) fun v hv => hσ v (mem_fvCases.mpr ⟨c, h, t, hc, hv⟩)
  | array t ih =>
    have hn := hp.inst (.array t) σ (by simp)
    simp only [inst, all, Bool.and_eq_true] at ht hn ⊢
    exact ⟨hn.trans ht.1, ih ht.2 hσ⟩
  | function a r e c iha ihr =>
    have hn := hp.inst (.function a r e c) σ (by simp)
    simp only [inst, all, Bool.and_eq_true, fv, Finset.mem_union] at ht hn hσ ⊢
    exact ⟨hn.trans ht.1, iha ht.2.1 fun v hv => hσ v (.inl hv), ihr ht.2.2 fun v hv =>
      hσ v (.inr hv)⟩
  | actor s b ihs ihb =>
    have hn := hp.inst (.actor s b) σ (by simp)
    simp only [inst, all, Bool.and_eq_true, fv, Finset.mem_union] at ht hn hσ ⊢
    exact ⟨hn.trans ht.1, ihs ht.2.1 fun v hv => hσ v (.inl hv), ihb ht.2.2 fun v hv =>
      hσ v (.inr hv)⟩
  | app c as ihc ih =>
    have hn := hp.inst (.app c as) σ (by simp)
    simp only [inst, all, Bool.and_eq_true, fv, Finset.mem_union, allList_iff, instList_eq,
      List.mem_map] at ht hn hσ ⊢
    refine ⟨hn.trans ht.1, ihc ht.2.1 fun v hv => hσ v (.inl hv), ?_⟩
    rintro _ ⟨t, h, rfl⟩
    exact ih t h (ht.2.2 t h) fun v hv => hσ v (.inr (mem_fvList.mpr ⟨t, h, hv⟩))
  | reference c t ih =>
    have hn := hp.inst (.reference c t) σ (by simp)
    simp only [inst, all, Bool.and_eq_true] at ht hn ⊢
    exact ⟨hn.trans ht.1, ih ht.2 hσ⟩
  -- A variable the scheme binds is not replaced, so it needs `p` of a variable only.
  | scheme vs t ih =>
    have hn := hp.inst (.scheme vs t) σ (by simp)
    simp only [inst, all, Bool.and_eq_true] at ht hn ⊢
    refine ⟨hn.trans ht.1, ih ht.2 fun v hv => ?_⟩
    unfold mask
    split
    · exact hp.var v
    · exact hσ v (by simpa [fv] using ⟨hv, ‹_›⟩)
  | nominal n t ih =>
    have hn := hp.inst (.nominal n t) σ (by simp)
    simp only [inst, all, Bool.and_eq_true] at ht hn ⊢
    exact ⟨hn.trans ht.1, ih ht.2 hσ⟩

end All

/-- A kind of node that a type can be asked to lack. -/
inductive Excluded where
  | never
  | scheme

/-- The node is not of the excluded kind. -/
def Excluded.admits : Excluded → Ty → Bool
  | .never, .primitive .never => false
  | .scheme, .scheme _ _ => false
  | _, _ => true

/-- No node of the type is of the excluded kind. -/
def lacks (x : Excluded) (t : Ty) : Bool := t.all x.admits

theorem nodewise_admits (x : Excluded) : Nodewise x.admits where
  var := by cases x <;> exact fun _ => rfl
  inst := by
    intro t σ ht
    cases t with
    | var v => exact absurd rfl (ht v)
    | _ => cases x <;> rfl

/-- The nodes of the fragment without rows, variants, actors, applications, schemes, nominals and
skolems; functions have closed effect rows. -/
def coreNode : Ty → Bool
  | .var _ => true
  | .primitive p => p ≠ .never
  | .tuple _ => true
  | .record fs => fs.all (·.1 ≠ recordRowTailField)
  | .array _ => true
  | .function _ _ (.closed _) _ => true
  | .reference _ _ => true
  | _ => false

def core (t : Ty) : Bool := t.all coreNode

theorem lacks_never_of_core {t : Ty} (h : t.core = true) : t.lacks .never = true := by
  refine all_mono (fun t ht => ?_) t h
  cases t with
  | primitive p => cases p <;> simp_all [coreNode, Excluded.admits]
  | _ => rfl

theorem nodewise_core : Nodewise coreNode where
  var := fun _ => rfl
  inst := by
    intro t σ ht
    cases t with
    | var v => exact absurd rfl (ht v)
    | record fs =>
      simp only [inst, coreNode, instFields_eq, List.all_map]
      rfl
    | function a r e c => cases e <;> rfl
    | _ => rfl

end Ty

namespace Substitution

variable {s : Substitution}

theorem lookup_eq_none {v : TypeVar} : s.lookup v = none ↔ v ∉ s.dom := SortByKey.lookup_eq_none

theorem mem_dom {b : TypeVar × Ty} (h : b ∈ s) : b.1 ∈ s.dom := List.mem_map_of_mem h

theorem toFun_of_notMem {v : TypeVar} (h : v ∉ s.dom) : s.toFun v = .var v := by
  rw [toFun, lookup_eq_none.mpr h]
  rfl

theorem toFun_of_mem (hs : s.dom.Nodup) {b : TypeVar × Ty} (h : b ∈ s) : s.toFun b.1 = b.2 := by
  rw [toFun, lookup_of_mem hs h]
  rfl

theorem lookup_without (vs : List TypeVar) (v : TypeVar) :
    (s.without vs).lookup v = if v ∈ vs then none else s.lookup v := by
  induction s with
  | nil => simp [without]
  | cons b s ih =>
    obtain ⟨w, t⟩ := b
    unfold without at ih ⊢
    by_cases hw : w ∈ vs
    · rw [filter_cons_of_neg (by simpa using hw), ih, lookup_cons]
      by_cases hv : v ∈ vs
      · rw [if_pos hv, if_pos hv]
      · have hvw : v ≠ w := fun h => hv (h ▸ hw)
        rw [if_neg hv, if_neg hv, beq_false_of_ne hvw]
    · rw [filter_cons_of_pos (by simpa using hw), lookup_cons, lookup_cons, ih]
      by_cases hvw : v = w
      · subst hvw
        simp [hw]
      · simp [beq_false_of_ne hvw]

theorem toFun_without (vs : List TypeVar) : (s.without vs).toFun = mask vs s.toFun := by
  funext v
  unfold toFun mask
  rw [lookup_without]
  split
  · rfl
  · rfl

end Substitution

/-! ## `apply_subst` without chains -/

namespace Ty

variable {rec : Substitution → Ty → Option Ty} {s : Substitution} {g : Ty → Ty}

theorem applyWithList_eq {ts : List Ty} (h : ∀ t ∈ ts, applyWith rec t s = some (g t)) :
    applyWithList rec ts s = some (ts.map g) := by
  induction ts with
  | nil => rfl
  | cons t ts ih =>
    rw [forall_mem_cons] at h
    simp [applyWithList, h.1, ih h.2]

theorem applyWithFields_eq {fs : Fields} (h : ∀ f ∈ fs, applyWith rec f.2 s = some (g f.2)) :
    applyWithFields rec fs s = some (fs.map (Prod.map id g)) := by
  induction fs with
  | nil => rfl
  | cons f fs ih =>
    obtain ⟨n, t⟩ := f
    rw [forall_mem_cons] at h
    simp only [applyWithFields, h.1, ih h.2]
    rfl

theorem applyWithCases_eq {vs : Cases} (h : ∀ c ∈ vs, ∀ t ∈ c.2, applyWith rec t s = some (g t)) :
    applyWithCases rec vs s = some (vs.map (Prod.map id (Option.map g))) := by
  induction vs with
  | nil => rfl
  | cons c vs ih =>
    rw [forall_mem_cons] at h
    obtain ⟨n, _ | t⟩ := c
    · simp only [applyWithCases, ih h.2]
      rfl
    · simp only [applyWithCases, h.1 t rfl, ih h.2]
      rfl

/-- Where the types that variables are bound to stay as they are, one level is simultaneous
substitution. -/
theorem applyWith_eq (t : Ty) (s : Substitution)
    (h : ∀ s', s'.Sublist s → ∀ v ∈ t.fv, ∀ u, s'.lookup v = some u → rec s' u = some u) :
    applyWith rec t s = some (t.inst s.toFun) := by
  induction t generalizing s with
  | var v =>
    cases hl : s.lookup v with
    | none => simp [applyWith, inst, toFun, hl]
    | some u =>
      have := h s (Sublist.refl s) v (by simp [fv]) u hl
      simp [applyWith, inst, toFun, hl, this]
  | primitive | skolem => rfl
  | tuple ts ih =>
    rw [applyWith, applyWithList_eq fun t ht => ih t ht s fun s' hs' v hv =>
      h s' hs' v (mem_fvList.mpr ⟨t, ht, hv⟩), inst, instList_eq]
    rfl
  | record fs ih =>
    rw [applyWith, applyWithFields_eq (g := (inst · s.toFun)) fun f hf => ih f hf s
      fun s' hs' v hv => h s' hs' v (mem_fvFields.mpr ⟨f, hf, hv⟩), inst, instFields_eq]
    rfl
  | variant vs ih =>
    rw [applyWith, applyWithCases_eq fun c hc t ht => ih c hc t ht s fun s' hs' v hv =>
      h s' hs' v (mem_fvCases.mpr ⟨c, hc, t, ht, hv⟩), inst, instCases_eq]
    rfl
  | array t ih => simp only [applyWith, inst, ih s h, map_some]
  | function p r e c ihp ihr =>
    simp only [fv, Finset.mem_union] at h
    simp only [applyWith, inst, ihp s fun s' hs' v hv => h s' hs' v (.inl hv),
      ihr s fun s' hs' v hv => h s' hs' v (.inr hv), bind_some, map_some]
  | actor a b iha ihb =>
    simp only [fv, Finset.mem_union] at h
    simp only [applyWith, inst, iha s fun s' hs' v hv => h s' hs' v (.inl hv),
      ihb s fun s' hs' v hv => h s' hs' v (.inr hv), bind_some, map_some]
  | app c as ihc ih =>
    simp only [fv, Finset.mem_union] at h
    rw [applyWith, ihc s fun s' hs' v hv => h s' hs' v (.inl hv),
      applyWithList_eq fun t ht => ih t ht s fun s' hs' v hv =>
        h s' hs' v (.inr (mem_fvList.mpr ⟨t, ht, hv⟩)), inst, instList_eq]
    rfl
  | reference c t ih => simp only [applyWith, inst, ih s h, map_some]
  | scheme vs t ih =>
    rw [applyWith, ih, inst, toFun_without]
    · rfl
    · intro s' hs' v hv u hu
      -- A bound variable has no binding left, every other variable is free in the scheme.
      have hvs : v ∉ vs := by
        intro hmem
        have hnone : (s.without vs).lookup v = none := by
          rw [lookup_without, if_pos hmem]
        rw [lookup_eq_none] at hnone
        exact hnone ((hs'.map Prod.fst).subset (mem_dom (mem_of_lookup hu)))
      refine h s' (hs'.trans filter_sublist) v ?_ u hu
      simpa [fv] using ⟨hv, hvs⟩
  | nominal n t ih => simp only [applyWith, inst, ih s h, map_some]

/-- A type that mentions no bound variable is left alone. -/
theorem applySubst_of_fresh (fuel : Nat) {t : Ty} (h : ∀ v ∈ t.fv, v ∉ s.dom) :
    applySubst (fuel + 1) s t = some t := by
  have hsub : ∀ s' : Substitution, s'.Sublist s → ∀ v ∈ t.fv, s'.lookup v = none := by
    intro s' hs' v hv
    exact lookup_eq_none.mpr fun hd => h v hv ((hs'.map Prod.fst).subset hd)
  rw [applySubst, applyWith_eq, inst_of_fixed]
  · exact fun v hv => toFun_of_notMem (h v hv)
  · intro s' hs' v hv u hu
    rw [hsub s' hs' v hv] at hu
    exact absurd hu (by simp)

end Ty

namespace Substitution

/-- The variable is bound or occurs in a binding. -/
def Mentions (s : Substitution) (w : TypeVar) : Prop :=
  w ∈ s.dom ∨ ∃ b ∈ s, w ∈ b.2.fv

/-- No variable is bound twice, and no binding mentions a bound variable. -/
structure Resolved (s : Substitution) : Prop where
  nodup : s.dom.Nodup
  fresh : ∀ b ∈ s, ∀ w ∈ b.2.fv, w ∉ s.dom

variable {s : Substitution} {t : Ty}

theorem applySubst_eq_inst (hs : ∀ b ∈ s, ∀ w ∈ b.2.fv, w ∉ s.dom) (fuel : Nat) :
    applySubst (fuel + 2) s t = some (t.inst s.toFun) := by
  rw [applySubst, applyWith_eq]
  intro s' hs' v _ u hu
  refine applySubst_of_fresh fuel fun w hw hd => ?_
  exact hs _ (hs'.subset (mem_of_lookup hu)) w hw ((hs'.map Prod.fst).subset hd)

theorem applySubst_resolved (hs : s.Resolved) (fuel : Nat) :
    applySubst (fuel + 2) s t = some (t.inst s.toFun) := applySubst_eq_inst hs.fresh fuel

/-- Applying a resolved substitution removes its variables. -/
theorem mem_fv_apply (hs : s.Resolved) {w : TypeVar} (h : w ∈ (t.inst s.toFun).fv) :
    w ∉ s.dom ∧ (w ∈ t.fv ∨ s.Mentions w) := by
  obtain ⟨v, hv, hw⟩ := mem_fv_inst t h
  cases hl : s.lookup v with
  | none =>
    have hvd := lookup_eq_none.mp hl
    rw [toFun_of_notMem hvd, fv, Finset.mem_singleton] at hw
    subst hw
    exact ⟨hvd, .inl hv⟩
  | some u =>
    have hmem := mem_of_lookup hl
    rw [toFun, hl, getD_some] at hw
    exact ⟨hs.fresh _ hmem w hw, .inr (.inr ⟨_, hmem, hw⟩)⟩

theorem all_apply {p : Ty → Bool} (hp : Nodewise p) (hs : ∀ b ∈ s, b.2.all p = true)
    (ht : t.all p = true) : (t.inst s.toFun).all p = true := by
  refine all_inst hp t ht fun v _ => ?_
  cases hl : s.lookup v with
  | none =>
    rw [toFun_of_notMem (lookup_eq_none.mp hl)]
    exact hp.var v
  | some u =>
    rw [toFun, hl, getD_some]
    exact hs _ (mem_of_lookup hl)

/-- The valuation reads both sides of every binding alike. -/
def Models (ρ : TypeVar → Ty) (s : Substitution) : Prop :=
  ∀ b ∈ s, (ρ b.1).canon = b.2.read ρ

/-- A model does not notice that the substitution was applied. -/
theorem Models.read_apply {ρ : TypeVar → Ty} (hρ : Models ρ s) (ht : t.captures s.toFun = false) :
    (t.inst s.toFun).read ρ = t.read ρ := by
  refine read_inst t (fun v _ => ?_) ht
  cases hl : s.lookup v with
  | none =>
    rw [toFun, hl]
    rfl
  | some u =>
    rw [toFun, hl, getD_some]
    exact (hρ _ (mem_of_lookup hl)).symm

/-- A resolved substitution is one of its own models. -/
theorem Resolved.models (hs : s.Resolved) : Models s.toFun s := by
  intro b hb
  rw [toFun_of_mem hs.nodup hb, Ty.read, Ty.inst_of_fixed]
  exact fun w hw => toFun_of_notMem (hs.fresh b hb w hw)

/-- `s2` after `s1`, when no binding of `s2` mentions a variable that `s1` binds. -/
def after (s2 s1 : Substitution) : Substitution :=
  s1.map (fun b => (b.1, b.2.inst s2.toFun)) ++ s2

section After

variable {s1 s2 : Substitution}

theorem dom_after : (s2.after s1).dom = s1.dom ++ s2.dom := by
  simp [after, dom]

theorem length_after : (s2.after s1).length = s1.length + s2.length := by
  simp [after]

theorem resolvedAgainst_iff : s2.resolvedAgainst s1 = true ↔ ∀ w, s2.Mentions w → w ∉ s1.dom := by
  simp only [resolvedAgainst, List.all_eq_true, Bool.and_eq_true, Bool.not_eq_true',
    decide_eq_true_eq, Mentions, contains_eq_mem, decide_eq_false_iff_not]
  constructor
  · rintro h w (hw | ⟨b, hb, hw⟩) hd
    · obtain ⟨b, hb, rfl⟩ := List.mem_map.mp hw
      exact (h b hb).1 hd
    · exact (h b hb).2 w hd hw
  · intro h b hb
    exact ⟨h b.1 (.inl (mem_dom hb)), fun w hd hw => h w (.inr ⟨b, hb, hw⟩) hd⟩

theorem mem_after {b : TypeVar × Ty} (h : b ∈ s2.after s1) :
    (∃ a ∈ s1, b = (a.1, a.2.inst s2.toFun)) ∨ b ∈ s2 := by
  rcases mem_append.mp h with h | h
  · obtain ⟨a, ha, rfl⟩ := List.mem_map.mp h
    exact .inl ⟨a, ha, rfl⟩
  · exact .inr h

theorem mentions_after (h2 : s2.Resolved) {w : TypeVar} (h : (s2.after s1).Mentions w) :
    s1.Mentions w ∨ s2.Mentions w := by
  rcases h with h | ⟨b, hb, hw⟩
  · rw [dom_after, mem_append] at h
    exact h.imp .inl .inl
  · rcases mem_after hb with ⟨a, ha, rfl⟩ | hb
    · exact (mem_fv_apply h2 hw).2.imp (fun h => .inr ⟨a, ha, h⟩) id
    · exact .inr (.inr ⟨b, hb, hw⟩)

theorem resolved_after (h1 : s1.Resolved) (h2 : s2.Resolved)
    (h : ∀ w, s2.Mentions w → w ∉ s1.dom) : (s2.after s1).Resolved := by
  constructor
  · rw [dom_after, nodup_append]
    refine ⟨h1.nodup, h2.nodup, ?_⟩
    rintro v hv w hw rfl
    exact h v (.inl hw) hv
  · intro b hb w hw
    rw [dom_after, mem_append, not_or]
    rcases mem_after hb with ⟨a, ha, rfl⟩ | hb
    · obtain ⟨hw2, hw | hw⟩ := mem_fv_apply h2 hw
      · exact ⟨h1.fresh a ha w hw, hw2⟩
      · exact ⟨h w hw, hw2⟩
    · exact ⟨h w (.inr ⟨b, hb, hw⟩), h2.fresh b hb w hw⟩

/-- The models of a composition are the common models. -/
theorem models_after {ρ : TypeVar → Ty} (h1 : ∀ b ∈ s1, b.2.captures s2.toFun = false) :
    Models ρ (s2.after s1) ↔ Models ρ s1 ∧ Models ρ s2 := by
  constructor
  · intro h
    have h2 : Models ρ s2 := fun b hb => h b (mem_append_right _ hb)
    refine ⟨fun b hb => ?_, h2⟩
    have := h (b.1, b.2.inst s2.toFun)
      (mem_append_left _ (List.mem_map_of_mem (f := fun b => (b.1, b.2.inst s2.toFun)) hb))
    rw [this, h2.read_apply (h1 b hb)]
  · rintro ⟨hm1, hm2⟩ b hb
    rcases mem_after hb with ⟨a, ha, rfl⟩ | hb
    · rw [hm2.read_apply (h1 a ha)]
      exact hm1 a ha
    · exact hm2 b hb

/-- A predicate of nodes that holds throughout two substitutions holds throughout their
composition. -/
theorem all_after {p : Ty → Bool} (hp : Nodewise p) (h1 : ∀ b ∈ s1, b.2.all p = true)
    (h2 : ∀ b ∈ s2, b.2.all p = true) : ∀ b ∈ s2.after s1, b.2.all p = true := by
  intro b hb
  rcases mem_after hb with ⟨a, ha, rfl⟩ | hb
  · exact all_apply hp h2 (h1 a ha)
  · exact h2 b hb

end After

end Substitution

/-! ## Reading core types

Completeness is a statement about equality, exact or up to the order of record fields, and not
about `canon`. What the core fragment needs of a normal form is the same for both. -/

/-- A valuation, and a normal form that passes through the constructors of the core fragment and
may sort record fields. -/
structure Reading where
  val : TypeVar → Ty
  norm : Ty → Ty
  sorts : Bool
  norm_primitive : ∀ p, norm (.primitive p) = .primitive p
  norm_tuple : ∀ ts, norm (.tuple ts) = .tuple (ts.map norm)
  norm_record : ∀ fs, Plain fs →
    norm (.record fs) = .record (bif sorts then SortByKey.sortByKey (fs.map (Prod.map id norm))
      else fs.map (Prod.map id norm))
  norm_array : ∀ t, norm (.array t) = .array (norm t)
  norm_function : ∀ p r e c, norm (.function p r e c) = .function (norm p) (norm r) e c
  norm_reference : ∀ c t, norm (.reference c t) = .reference c (norm t)

namespace Reading

variable (R : Reading)

def read (t : Ty) : Ty := R.norm (t.inst R.val)

/-- The reading gives both sides of every binding alike. -/
def Models (s : Substitution) : Prop := ∀ b ∈ s, R.norm (R.val b.1) = R.read b.2

@[simp] theorem read_primitive (p : PrimitiveType) : R.read (.primitive p) = .primitive p :=
  R.norm_primitive p

@[simp] theorem read_tuple (ts : List Ty) : R.read (.tuple ts) = .tuple (ts.map R.read) := by
  simp only [read, inst, R.norm_tuple, instList_eq, List.map_map, tuple.injEq]
  rfl

/-- The fields in the order of the normal form. -/
def order (fs : Fields) : Fields := bif R.sorts then SortByKey.sortByKey fs else fs

theorem mem_order {fs : Fields} {f : String × Ty} : f ∈ R.order fs ↔ f ∈ fs := by
  unfold order
  cases R.sorts <;> simp

theorem order_map (g : Ty → Ty) (fs : Fields) :
    R.order (fs.map (Prod.map id g)) = (R.order fs).map (Prod.map id g) := by
  unfold order
  cases R.sorts
  · rfl
  · exact SortByKey.sortByKey_map g

theorem sortByKey_order (fs : Fields) :
    SortByKey.sortByKey (R.order fs) = SortByKey.sortByKey fs := by
  unfold order
  cases R.sorts <;> simp

theorem read_record {fs : Fields} (h : Plain fs) :
    R.read (.record fs) = .record ((R.order fs).map (Prod.map id R.read)) := by
  have hplain : Plain (instFields fs R.val) := by
    intro f hf
    rw [instFields_eq] at hf
    obtain ⟨g, hg, rfl⟩ := List.mem_map.mp hf
    exact h g hg
  rw [read, inst, R.norm_record _ hplain, instFields_eq, List.map_map, Prod.map_comp_map,
    Function.id_comp]
  exact congrArg _ (R.order_map R.read fs)

@[simp] theorem read_array (t : Ty) : R.read (.array t) = .array (R.read t) := R.norm_array _

@[simp] theorem read_function (p r : Ty) (e : EffectRow) (c : Capability) :
    R.read (.function p r e c) = .function (R.read p) (R.read r) e c := R.norm_function _ _ e c

@[simp] theorem read_reference (c : Capability) (t : Ty) :
    R.read (.reference c t) = .reference c (R.read t) := R.norm_reference c _

end Reading

end Nulang

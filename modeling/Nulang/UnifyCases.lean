import Nulang.UnifySpec

/-!
# The cases of `mgu`

Each arm of `mgu`, from what the calls it makes do (`Settles`), and the induction that ties them
together: on the number of variables first and on the size of the two types second. A round that
binds a variable lowers the first, a round that binds none is on strictly smaller types.

Only the structural arms are here. Rows are in `UnifyRows`, the arms outside unification proper and
the dispatch in `UnifyMgu`. On the core fragment an arm also has to show that what it refuses has no
unifier; elsewhere a refusal claims nothing.
-/

set_option autoImplicit false

namespace Nulang

open UnifyStep Ty List Run Substitution SortByKey

/-! ## The core fragment -/

namespace Ty

variable {fs : Fields}

theorem splitRecord_of_plain (h : Plain fs) : splitRecord fs = (fs, none) := by
  rw [splitRecord, splitTail_record, ownFields_of_plain h, lastTail_of_plain h]
  simp [splitOption]

theorem occursInList_iff {v : TypeVar} {ts : List Ty} :
    occursInList v ts = true ↔ ∃ t ∈ ts, t.occursIn v = true := by
  induction ts with
  | nil => simp [occursInList]
  | cons t ts ih => simp [occursInList, ih]

theorem occursInFields_iff {v : TypeVar} :
    occursInFields v fs = true ↔ ∃ f ∈ fs, f.2.occursIn v = true := by
  induction fs with
  | nil => simp [occursInFields]
  | cons f fs ih => simp [occursInFields, ih]

/-- The occurs check reports only occurrences. -/
theorem mem_fv_of_occursIn {v : TypeVar} (t : Ty) (h : t.occursIn v = true) : v ∈ t.fv := by
  induction t with
  | var w =>
    have hw : w = v := by simpa [occursIn] using h
    rw [fv, Finset.mem_singleton, hw]
  | primitive | skolem | variant => simp [occursIn] at h
  | tuple ts ih =>
    obtain ⟨t, ht, h⟩ := occursInList_iff.mp h
    exact mem_fvList.mpr ⟨t, ht, ih t ht h⟩
  | record fs ih =>
    obtain ⟨f, hf, h⟩ := occursInFields_iff.mp h
    exact mem_fvFields.mpr ⟨f, hf, ih f hf h⟩
  | array t ih | reference c t ih | nominal n t ih => exact ih h
  | function p r e c ihp ihr =>
    rw [occursIn, Bool.or_eq_true] at h
    exact Finset.mem_union.mpr (h.imp ihp ihr)
  | actor a b iha ihb =>
    rw [occursIn, Bool.or_eq_true] at h
    exact Finset.mem_union.mpr (h.imp iha ihb)
  | app c as ihc ih =>
    rw [occursIn, Bool.or_eq_true] at h
    refine Finset.mem_union.mpr (h.imp ihc fun h => ?_)
    obtain ⟨t, ht, h⟩ := occursInList_iff.mp h
    exact mem_fvList.mpr ⟨t, ht, ih t ht h⟩
  | scheme vs t ih =>
    rw [occursIn, Bool.and_eq_true] at h
    exact Finset.mem_sdiff.mpr ⟨ih h.2, by simpa using h.1⟩

/-- In the core fragment the occurs check sees every occurrence. -/
theorem occursIn_of_core {v : TypeVar} (t : Ty) (h : t.core = true) (hv : v ∈ t.fv) :
    t.occursIn v = true := by
  induction t with
  | var w =>
    rw [fv, Finset.mem_singleton] at hv
    simp [occursIn, hv]
  | primitive | skolem => simp [fv] at hv
  | tuple ts ih =>
    obtain ⟨t, ht, hv⟩ := mem_fvList.mp hv
    exact occursInList_iff.mpr ⟨t, ht, ih t ht ((IsPart.tuple ht).all _ h) hv⟩
  | record fs ih =>
    obtain ⟨f, hf, hv⟩ := mem_fvFields.mp hv
    exact occursInFields_iff.mpr ⟨f, hf, ih f hf ((IsPart.field hf).all _ h) hv⟩
  | array t ih | reference c t ih =>
    simp only [core, all, Bool.and_eq_true] at h
    exact ih h.2 hv
  | function p r e c ihp ihr =>
    simp only [fv, Finset.mem_union] at hv
    rw [occursIn, Bool.or_eq_true]
    exact hv.imp (ihp (IsPart.function.1.all _ h)) (ihr (IsPart.function.2.all _ h))
  | variant | actor | app | scheme | nominal => simp [core, all, coreNode] at h

/-- A variable of a core type is read as a part of what the type is read as. -/
theorem size_read_le {v : TypeVar} (R : Reading) (t : Ty) (h : t.core = true)
    (hv : v ∈ t.fv) : (R.norm (R.val v)).size ≤ (R.read t).size ∧
      (t ≠ .var v → (R.norm (R.val v)).size < (R.read t).size) := by
  induction t with
  | var w =>
    rw [fv, Finset.mem_singleton] at hv
    subst hv
    exact ⟨le_refl _, fun h => absurd rfl h⟩
  | primitive | skolem => simp [fv] at hv
  | tuple ts ih =>
    obtain ⟨t, ht, hv⟩ := mem_fvList.mp hv
    have h1 := (ih t ht ((IsPart.tuple ht).all _ h) hv).1
    have h2 := size_le_sizeList (mem_map_of_mem (f := R.read) ht)
    simp only [R.read_tuple, size]
    exact ⟨by omega, fun _ => by omega⟩
  | record fs ih =>
    rw [R.read_record (plain_of_core h)]
    obtain ⟨f, hf, hv⟩ := mem_fvFields.mp hv
    have h1 := (ih f hf ((IsPart.field hf).all _ h) hv).1
    have h2 := size_le_sizeFields (mem_map_of_mem (f := Prod.map id R.read) (R.mem_order.mpr hf))
    simp only [Prod.map_snd] at h2
    simp only [size]
    exact ⟨by omega, fun _ => by omega⟩
  | array t ih | reference c t ih =>
    simp only [core, all, Bool.and_eq_true] at h
    have h1 := (ih h.2 hv).1
    simp only [R.read_array, R.read_reference, size]
    exact ⟨by omega, fun _ => by omega⟩
  | function p r e c ihp ihr =>
    simp only [fv, Finset.mem_union] at hv
    simp only [R.read_function, size]
    rcases hv with hv | hv
    · have h1 := (ihp (IsPart.function.1.all _ h) hv).1
      exact ⟨by omega, fun _ => by omega⟩
    · have h1 := (ihr (IsPart.function.2.all _ h) hv).1
      exact ⟨by omega, fun _ => by omega⟩
  | variant | actor | app | scheme | nominal => simp [core, all, coreNode] at h

end Ty

variable {t1 t2 a b : Ty} {f1 f2 : String × Ty}

theorem coreSteps_singleton : CoreSteps [.unify t1 t2] ↔ t1.core = true ∧ t2.core = true := by
  simp [CoreSteps, All, Ty.core]

theorem lackSteps_singleton {x : Excluded} :
    LackSteps x [.unify t1 t2] ↔ t1.lacks x = true ∧ t2.lacks x = true := by
  simp [LackSteps, All, lacks]

theorem not_core_left (h : t1.core = false) : ¬ CoreSteps [.unify t1 t2] := by
  rw [coreSteps_singleton, h]
  simp

theorem not_core_right (h : t2.core = false) : ¬ CoreSteps [.unify t1 t2] := by
  rw [coreSteps_singleton, h]
  simp

section Round

variable {armed : Hook → Bool} {W : Finset TypeVar} {C : List UnifyStep}

theorem Solution.empty (W : Finset TypeVar) (n : Nat)
    (hs : (∀ h, armed h = true) → LackSteps .never C → ∀ ρ, ∀ c ∈ C, c.Agreed ρ) :
    Solution armed W C n [] n :=
  { (Solution.nil W n : Solution armed W [] n [] n) with
    lacks := by simp
    core := by simp
    sound := fun ha hC ρ _ => hs ha hC ρ
    general := by simp [Reading.Models] }

theorem Fits.single {v : TypeVar} {t : Ty} (hv : v ∉ t.fv) (hvW : v ∈ W) (htW : t.fv ⊆ W)
    (n : Nat) :
    Fits W n [(v, t)] n := by
  refine ⟨le_refl n, ⟨by simp [dom], ?_⟩, ?_⟩
  · simp only [mem_singleton, forall_eq, dom, map_cons, map_nil]
    rintro w hw rfl
    exact hv hw
  · rintro w (hw | ⟨b, hb, hw⟩)
    · have : w = v := by simpa [dom] using hw
      exact .inl (this ▸ hvW)
    · rw [mem_singleton] at hb
      subst hb
      exact .inl (htW hw)

end Round

section Var

variable [Blake3] {armed : Hook → Bool} {W : Finset TypeVar} {C : List UnifyStep}

/-- `var_subst` on a type that is not the variable itself: the occurs check, or one binding. -/
theorem varSubst_single (hcirc : armed .circular = true) {v : TypeVar} {t : Ty}
    (ht : t ≠ .var v) (n : Nat) :
    Yields (fun f => varSubst (calls armed f) v t) n fun
      | (.ok s, m) => n = m ∧ s = [(v, t)] ∧ v ∉ t.fv
      | (.error (.error _), _) => v ∈ t.fv
      | (.error (.assertion _), _) => t.core = false
      | (.error .fuel, _) => False := by
  have hbody : (∀ id, t ≠ .skolem id) → ∀ k : Calls, varSubst k v t =
      if t = .var v then pure []
      else if t.occursIn v then fail (.infiniteType t)
      else k.check .circular (v ∉ t.fv) >>= fun _ => pure [(v, t)] := by
    intro hsk k
    cases t with
    | skolem id => exact absurd rfl (hsk id)
    | _ => rfl
  by_cases hsk : ∃ id, t = .skolem id
  · obtain ⟨id, rfl⟩ := hsk
    exact .of_eq (fun _ => rfl) ⟨rfl, rfl, by simp [fv]⟩
  · simp only [hbody fun id h => hsk ⟨id, h⟩, if_neg ht]
    by_cases hocc : t.occursIn v = true
    · simp only [if_pos hocc]
      exact .of_eq (r := (.error (.error _), n)) (fun _ => rfl) (mem_fv_of_occursIn t hocc)
    · simp only [if_neg hocc]
      refine (check_yields .circular (v ∉ t.fv) n).bind ?_ ?_
      · rintro e m ⟨rfl, -, hb⟩
        rw [decide_eq_false_iff_not, not_not] at hb
        exact Bool.eq_false_iff.mpr fun hcore => hocc (occursIn_of_core t hcore hb)
      · rintro _ m ⟨rfl, hb⟩
        exact .of_eq (fun _ => rfl) ⟨rfl, rfl, of_decide_eq_true (hb hcirc)⟩

/-- The same as a solution, where the rounds say that the variable and the type are read alike. -/
theorem varSubst_yields (hcirc : armed .circular = true) {v : TypeVar} {t : Ty} (ht : t ≠ .var v)
    (hvW : v ∈ W) (htW : t.fv ⊆ W) (n : Nat) (hn : ∀ x, LackSteps x C → t.lacks x = true)
    (hc : CoreSteps C → t.core = true) (hs : ∀ ρ, (ρ v).canon = t.read ρ → ∀ c ∈ C, c.Agreed ρ)
    (hg : CoreSteps C → ∀ R : Reading, (∀ c ∈ C, c.Unified R) → R.norm (R.val v) = R.read t) :
    Yields (fun f => varSubst (calls armed f) v t) n (Solves armed W C n) := by
  refine (varSubst_single hcirc ht n).mono ?_
  rintro ⟨e | s, m⟩ h
  · cases e with
    | fuel => exact h
    | assertion _ => exact fun hC => absurd (hc hC) (Bool.eq_false_iff.mp h)
    | error _ =>
      intro hC R hR
      have hlt := (size_read_le R t (hc hC) h).2 ht
      rw [hg hC R hR] at hlt
      exact absurd hlt (lt_irrefl _)
  · obtain ⟨rfl, rfl, hv⟩ := h
    exact {
      Fits.single hv hvW htW n with
      fresh := .inr (by simp)
      lacks := by simpa using hn
      core := by simpa using hc
      sound := fun _ _ ρ hρ => hs ρ (hρ (v, t) (mem_singleton.mpr rfl))
      general := fun hC R hR => forall_mem_singleton.mpr (hg hC R hR) }

end Var

section Zip

variable {α β : Type} {f : α → β → UnifyStep}

variable {l : List α} {m : List β}

theorem mem_zipWith {c : UnifyStep} (h : c ∈ zipWith f l m) : ∃ a ∈ l, ∃ b ∈ m, c = f a b := by
  rw [← map_uncurry_zip_eq_zipWith] at h
  obtain ⟨⟨a, b⟩, hab, rfl⟩ := mem_map.mp h
  exact ⟨a, (of_mem_zip hab).1, b, (of_mem_zip hab).2, rfl⟩

theorem forall_mem_zipWith {P : UnifyStep → Prop} (hlen : l.length = m.length) :
    (∀ c ∈ zipWith f l m, P c) ↔ Forall₂ (fun a b => P (f a b)) l m := by
  induction l generalizing m with
  | nil =>
    cases m with
    | nil => simp
    | cons b m => simp at hlen
  | cons a l ih =>
    cases m with
    | nil => simp at hlen
    | cons b m => simp [ih (m := m) (by simpa using hlen)]

end Zip

theorem fieldStep_unify (h : fieldStep f1 f2 = .unify a b) : f1.1 = f2.1 ∧ a = f1.2 ∧ b = f2.2 := by
  unfold fieldStep at h
  split at h
  · simp at h
  · obtain ⟨rfl, rfl⟩ := unify.inj h
    exact ⟨not_not.mp ‹_›, rfl, rfl⟩

theorem fieldStep_agreed {ρ : TypeVar → Ty} :
    (fieldStep f1 f2).Agreed ρ ↔ Related (Agree ρ) f1 f2 := by
  unfold fieldStep Related
  by_cases h : f1.1 = f2.1 <;> simp [h, Agreed]

theorem fieldStep_unified {R : Reading} :
    (fieldStep f1 f2).Unified R ↔ Prod.map id R.read f1 = Prod.map id R.read f2 := by
  obtain ⟨n1, t1⟩ := f1
  obtain ⟨n2, t2⟩ := f2
  unfold fieldStep
  by_cases h : n1 = n2 <;> simp [h, Unified]

/-- What `split_record` takes from a record are parts of it. -/
theorem mem_splitTail (t : Ty) :
    (∀ f ∈ (splitTail t).1, IsPart f.2 t) ∧ ∀ u ∈ (splitTail t).2, u.fv ⊆ t.fv := by
  induction t with
  | record fs ih =>
    rw [splitTail_record]
    cases hl : lastTail fs with
    | none =>
      refine ⟨fun f hf => .field ?_, by simp [splitOption]⟩
      simp only [splitOption, append_nil] at hf
      exact mem_of_mem_filter hf
    | some u =>
      have hu := lastTail_mem hl
      refine ⟨fun f hf => ?_, fun w hw => ((ih _ hu).2 w hw).trans (IsPart.field hu).fv⟩
      rcases mem_append.mp hf with hf | hf
      · exact .field (mem_of_mem_filter hf)
      · exact ((ih _ hu).1 f hf).trans (.field hu)
  | _ => simp [splitTail]

theorem mem_splitRecord {fs : Fields} {f : String × Ty} (h : f ∈ (splitRecord fs).1) :
    IsPart f.2 (.record fs) :=
  (mem_splitTail (.record fs)).1 f h

variable {fields1 fields2 : Fields} {c1 c2 : String × Option Ty}

theorem sharedStep_unify {name : String} (h : sharedStep fields1 fields2 name = .unify a b) :
    (name, a) ∈ fields1 ∧ (name, b) ∈ fields2 := by
  unfold sharedStep at h
  split at h
  · obtain ⟨rfl, rfl⟩ := unify.inj h
    exact ⟨mem_of_lookup ‹_›, mem_of_lookup ‹_›⟩
  · simp at h

/-- The rounds of the shared names say that fields of one name agree. -/
theorem shared_agree (hn1 : (fields1.map Prod.fst).Nodup) (hn2 : (fields2.map Prod.fst).Nodup)
    {ρ : TypeVar → Ty}
    (h : ∀ c ∈ (sharedNames fields1 fields2).map (sharedStep fields1 fields2), c.Agreed ρ) :
    ∀ name a b, (name, a) ∈ fields1 → (name, b) ∈ fields2 → Agree ρ a b := by
  intro name a b ha hb
  have hname : name ∈ sharedNames fields1 fields2 := by
    unfold sharedNames
    rw [(perm_insertionSort _ _).mem_iff, mem_filter, mem_dedup]
    exact ⟨mem_map_of_mem (f := Prod.fst) ha,
      contains_iff_mem.mpr (mem_map_of_mem (f := Prod.fst) hb)⟩
  have := h _ (mem_map_of_mem hname)
  unfold sharedStep at this
  rwa [lookup_of_mem hn1 ha, lookup_of_mem hn2 hb] at this

theorem caseStep_unify (h : caseStep c1 c2 = .unify a b) : a ∈ c1.2 ∧ b ∈ c2.2 := by
  obtain ⟨n1, _ | u1⟩ := c1 <;> obtain ⟨n2, _ | u2⟩ := c2 <;> unfold caseStep at h <;>
    split at h <;> simp at h
  obtain ⟨rfl, rfl⟩ := h
  exact ⟨rfl, rfl⟩

theorem caseStep_agreed {ρ : TypeVar → Ty} (h : (caseStep c1 c2).Agreed ρ) :
    Related (Option.Rel (Agree ρ)) c1 c2 := by
  obtain ⟨n1, _ | u1⟩ := c1 <;> obtain ⟨n2, _ | u2⟩ := c2 <;> unfold caseStep at h <;>
    split at h <;> simp_all [Agreed, Related]

/-- The variables of two argument lists under a substitution. -/
def argVars (s : Substitution) (as1 as2 : List Ty) : Finset TypeVar :=
  fvList (as1.map (inst · s.toFun)) ∪ fvList (as2.map (inst · s.toFun))

theorem Fits.mem_argVars {V : Finset TypeVar} {n l : Nat} {s : Substitution} {as1 as2 : List Ty}
    (h : Fits V n s l) (h1 : ∀ t ∈ as1, t.fv ⊆ V) (h2 : ∀ t ∈ as2, t.fv ⊆ V) {w : Nat}
    (hw : w ∈ argVars s as1 as2) :
    w ∉ s.dom ∧ (w ∈ V ∨ n ≤ w ∧ w < l) := by
  rcases Finset.mem_union.mp hw with hw | hw
  · obtain ⟨_, hu, hw⟩ := mem_fvList.mp hw
    obtain ⟨t, ht, rfl⟩ := mem_map.mp hu
    exact h.mem_fv_apply (h1 t ht) hw
  · obtain ⟨_, hu, hw⟩ := mem_fvList.mp hw
    obtain ⟨t, ht, rfl⟩ := mem_map.mp hu
    exact h.mem_fv_apply (h2 t ht) hw

/-- What the arms of `mgu` may use: the checks that keep substitutions resolved are armed, fresh
variables are fresh, and the calls on smaller pairs are settled. -/
structure Ready [Blake3] (armed : Hook → Bool) (t1 t2 : Ty) (n : Nat) : Prop where
  circular : armed .circular = true
  stale : armed .stale = true
  bound : ∀ v : Nat, v ∈ t1.fv ∪ t2.fv → v < n
  fewer : ∀ a b : Ty, (a.fv ∪ b.fv).card < (t1.fv ∪ t2.fv).card → Settles armed a b
  smaller : ∀ a b : Ty, a.fv ⊆ t1.fv ∪ t2.fv → b.fv ⊆ t1.fv ∪ t2.fv →
    a.size + b.size < t1.size + t2.size → Settles armed a b

section Arms

variable [Blake3] {armed : Hook → Bool} {n : Nat}

theorem Ready.loop (h : Ready armed t1 t2 n) {steps : List UnifyStep}
    (hsteps : ∀ a b, .unify a b ∈ steps → a.fv ⊆ t1.fv ∪ t2.fv ∧ b.fv ⊆ t1.fv ∪ t2.fv ∧
      a.size + b.size < t1.size + t2.size) : Yields (fun f => unifySteps (calls armed f) steps []) n
      (Solves armed (t1.fv ∪ t2.fv) steps n) := by
  refine unifySteps_yields h.stale h.bound h.fewer ?_ (.nil _ n)
  intro a b hab
  obtain ⟨ha, hb, hsize⟩ := hsteps a b hab
  exact ⟨ha, hb, h.smaller a b ha hb hsize⟩

theorem Ready.call (h : Ready armed t1 t2 n) (ha : a.fv ⊆ t1.fv ∪ t2.fv) (hb : b.fv ⊆ t1.fv ∪ t2.fv)
    (hsize : a.size + b.size < t1.size + t2.size) : Yields (fun f => (calls armed f).mgu a b) n
      (Solves armed (t1.fv ∪ t2.fv) [.unify a b] n) := by
  have hsub : a.fv ∪ b.fv ⊆ t1.fv ∪ t2.fv := Finset.union_subset ha hb
  refine (h.smaller a b ha hb hsize n fun v hv => h.bound v (hsub hv)).mono ?_
  intro r hr
  match r with
  | (.ok s, m) => exact Solution.mono hr hsub
  | (.error .fuel, _) => exact hr
  | (.error (.assertion _), _) => exact hr
  | (.error (.error _), _) => exact hr

omit [Blake3] in
theorem Ty.IsPart.pair (ha : IsPart a t1) (hb : IsPart b t2) :
    a.fv ⊆ t1.fv ∪ t2.fv ∧ b.fv ⊆ t1.fv ∪ t2.fv ∧ a.size + b.size < t1.size + t2.size :=
  ⟨ha.fv.trans Finset.subset_union_left, hb.fv.trans Finset.subset_union_right,
    Nat.add_lt_add ha.size hb.size⟩

/-- A loop over parts of the two types that means the round on the types. -/
theorem Ready.parts (h : Ready armed t1 t2 n) {steps : List UnifyStep}
    (hsteps : ∀ a b, .unify a b ∈ steps → IsPart a t1 ∧ IsPart b t2)
    (hs : ∀ ρ, (∀ c ∈ steps, c.Agreed ρ) → Agree ρ t1 t2)
    (hg : t1.core = true → t2.core = true → ∀ R, R.read t1 = R.read t2 → ∀ c ∈ steps, c.Unified R) :
    Yields (fun f => unifySteps (calls armed f) steps []) n
      (Solves armed (t1.fv ∪ t2.fv) [.unify t1 t2] n) := by
  refine (h.loop fun a b hab => (hsteps a b hab).1.pair (hsteps a b hab).2).mono fun r hr =>
    hr.parts ?_ hs hg
  intro p h1 h2 c hc
  cases c with
  | unify a b => exact ⟨(hsteps a b hc).1.all p h1, (hsteps a b hc).2.all p h2⟩
  | skip | fail => trivial

theorem tuple_yields {ts1 ts2 : List Ty} (h : Ready armed (.tuple ts1) (.tuple ts2) n)
    (hlen : ts1.length = ts2.length) : Yields (fun f => unifyMany (calls armed f) ts1 ts2) n
      (Solves armed ((tuple ts1).fv ∪ (tuple ts2).fv) [.unify (.tuple ts1) (.tuple ts2)] n) := by
  simp only [unifyMany, if_neg (not_not.mpr hlen)]
  refine h.parts (fun a b hab => ?_) (fun ρ hA => .tuple ((forall_mem_zipWith hlen).mp hA)) ?_
  · obtain ⟨a', ha, b', hb, hab⟩ := mem_zipWith hab
    obtain ⟨rfl, rfl⟩ := unify.inj hab
    exact ⟨.tuple ha, .tuple hb⟩
  · intro _ _ R hU
    rw [R.read_tuple, R.read_tuple, tuple.injEq, ← forall₂_eq_eq_eq,
      forall₂_map_left_iff, forall₂_map_right_iff] at hU
    exact (forall_mem_zipWith hlen).mpr hU

theorem part_yields (h : Ready armed t1 t2 n) (ha : IsPart a t1) (hb : IsPart b t2)
    (hs : ∀ ρ, Agree ρ a b → Agree ρ t1 t2)
    (hg : t1.core = true → ∀ R : Reading, R.read t1 = R.read t2 → R.read a = R.read b) :
    Yields (fun f => (calls armed f).mgu a b) n
      (Solves armed (t1.fv ∪ t2.fv) [.unify t1 t2] n) := by
  obtain ⟨hfa, hfb, hsize⟩ := ha.pair hb
  refine (h.call hfa hfb hsize).mono fun r hr => hr.parts ?_ ?_ ?_
  · exact fun p h1 h2 => forall_mem_singleton.mpr ⟨ha.all p h1, hb.all p h2⟩
  · exact fun ρ hA => hs ρ (hA _ (mem_singleton.mpr rfl))
  · exact fun h1 _ R hU => forall_mem_singleton.mpr (hg h1 R hU)

/-- A call on one part of each type, then a round on another part of each: functions and actors. -/
theorem two_parts_yields {a1 a2 b1 b2 : Ty} (h : Ready armed t1 t2 n)
    (h1 : IsPart a1 t1 ∧ IsPart b1 t1) (h2 : IsPart a2 t2 ∧ IsPart b2 t2)
    (hs : ∀ ρ, Agree ρ a1 a2 → Agree ρ b1 b2 → Agree ρ t1 t2)
    (hg : t1.core = true → ∀ R : Reading, R.read t1 = R.read t2 → R.read a1 = R.read a2 ∧
      R.read b1 = R.read b2) :
    Yields (fun f => (calls armed f).mgu a1 a2 >>= fun s => do
        let b1' ← (calls armed f).apply s b1
        let b2' ← (calls armed f).apply s b2
        let s2 ← (calls armed f).mgu b1' b2'
        (calls armed f).compose s2 s) n
      (Solves armed (t1.fv ∪ t2.fv) [.unify t1 t2] n) := by
  obtain ⟨hfa1, hfa2, hza⟩ := h1.1.pair h2.1
  obtain ⟨hfb1, hfb2, hzb⟩ := h1.2.pair h2.2
  -- Both halves together are the rounds `[a1 ~ a2, b1 ~ b2]`.
  have hparts : ∀ r, Solves armed (t1.fv ∪ t2.fv) ([.unify a1 a2] ++ [.unify b1 b2]) n r →
      Solves armed (t1.fv ∪ t2.fv) [.unify t1 t2] n r := by
    intro r hr
    refine hr.parts ?_ ?_ ?_
    · intro p hp1 hp2
      simpa [All] using ⟨⟨h1.1.all p hp1, h2.1.all p hp2⟩, h1.2.all p hp1, h2.2.all p hp2⟩
    · exact fun ρ hA => hs ρ (hA (.unify a1 a2) (by simp)) (hA (.unify b1 b2) (by simp))
    · intro h1 _ R hU
      simpa [Unified] using hg h1 R hU
  refine (h.call hfa1 hfa2 hza).bind ?_ ?_
  · intro e m hr
    refine hparts _ ?_
    cases e with
    | fuel => exact hr
    | assertion _ | error _ =>
      exact fun hC R hR => hr (fun c hc => hC c (mem_append_left _ hc)) R
        fun c hc => hR c (mem_append_left _ hc)
  · intro s l hsol
    have hstep : ∀ a b, .unify a b ∈ [unify b1 b2] →
        a.fv ⊆ t1.fv ∪ t2.fv ∧ b.fv ⊆ t1.fv ∪ t2.fv ∧ Settles armed a b := by
      intro a b hab
      obtain ⟨rfl, rfl⟩ := unify.inj (mem_singleton.mp hab)
      exact ⟨hfb1, hfb2, h.smaller _ _ hfb1 hfb2 hzb⟩
    have hloop := unifySteps_yields h.stale h.bound h.fewer hstep hsol
    simp only [unifySteps, bind_pure] at hloop
    exact hloop.mono hparts

theorem closedRecord_yields {fs1 fs2 : Fields} (h : Ready armed (.record fs1) (.record fs2) n)
    (h1 : (splitRecord fs1).2 = none) (h2 : (splitRecord fs2).2 = none) :
    Yields (fun f => unifyClosedRecords (calls armed f) (splitRecord fs1).1 (splitRecord fs2).1) n
      (Solves armed ((record fs1).fv ∪ (record fs2).fv)
        [.unify (.record fs1) (.record fs2)] n) := by
  have hcore : (record fs1).core = true → (record fs2).core = true → ∀ R : Reading,
      R.read (.record fs1) = R.read (.record fs2) →
      (sortByKey (splitRecord fs1).1).map (Prod.map id R.read) =
        (sortByKey (splitRecord fs2).1).map (Prod.map id R.read) := by
    intro hc1 hc2 R hU
    rw [R.read_record (plain_of_core hc1), R.read_record (plain_of_core hc2), record.injEq] at hU
    rw [splitRecord_of_plain (plain_of_core hc1), splitRecord_of_plain (plain_of_core hc2)]
    simpa only [sortByKey_map, R.sortByKey_order] using congrArg sortByKey hU
  unfold unifyClosedRecords
  by_cases hlen : (splitRecord fs1).1.length = (splitRecord fs2).1.length
  · have hlen' : (sortByKey (splitRecord fs1).1).length =
        (sortByKey (splitRecord fs2).1).length := by simpa using hlen
    simp only [if_neg (not_not.mpr hlen)]
    refine h.parts ?_ ?_ ?_
    · intro a b hab
      obtain ⟨f1, hf1, f2, hf2, hf⟩ := mem_zipWith hab
      obtain ⟨-, rfl, rfl⟩ := fieldStep_unify hf.symm
      exact ⟨mem_splitRecord (mem_sortByKey.mp hf1), mem_splitRecord (mem_sortByKey.mp hf2)⟩
    · intro ρ hA
      rw [forall_mem_zipWith hlen'] at hA
      exact .closedRecord h1 h2 (hA.imp fun f1 f2 hf => fieldStep_agreed.mp hf)
    · intro hc1 hc2 R hU
      have := hcore hc1 hc2 R hU
      rw [← forall₂_eq_eq_eq, forall₂_map_left_iff, forall₂_map_right_iff] at this
      exact (forall_mem_zipWith hlen').mpr (this.imp fun f1 f2 hf => fieldStep_unified.mpr hf)
  · simp only [if_pos hlen]
    refine .of_eq (fun _ => rfl) fun hC R hU => hlen ?_
    obtain ⟨hc1, hc2⟩ := coreSteps_singleton.mp hC
    simpa using congrArg length (hcore hc1 hc2 R (hU _ (mem_singleton.mpr rfl)))

theorem variant_yields {vs1 vs2 : Cases} (h : Ready armed (.variant vs1) (.variant vs2) n) :
    Yields (fun f => unifyVariants (calls armed f) vs1 vs2) n
      (Solves armed ((variant vs1).fv ∪ (variant vs2).fv)
        [.unify (.variant vs1) (.variant vs2)] n) := by
  have hcore := (not_core_left rfl : ¬ CoreSteps [.unify (.variant vs1) (.variant vs2)])
  unfold unifyVariants
  by_cases hlen : vs1.length = vs2.length
  · have hlen' : (sortByKey vs1).length = (sortByKey vs2).length := by simpa using hlen
    simp only [if_neg (not_not.mpr hlen)]
    refine h.parts ?_ ?_ fun h1 => absurd h1 (by simp [Ty.core, Ty.all, Ty.coreNode])
    · intro a b hab
      obtain ⟨c1, hc1, c2, hc2, hc⟩ := mem_zipWith hab
      obtain ⟨ha, hb⟩ := caseStep_unify hc.symm
      exact ⟨.payload (mem_sortByKey.mp hc1) ha, .payload (mem_sortByKey.mp hc2) hb⟩
    · intro ρ hA
      rw [forall_mem_zipWith hlen'] at hA
      exact .variant (hA.imp fun c1 c2 hc => caseStep_agreed hc)
  · simp only [if_pos hlen]
    exact .of_eq (fun _ => rfl) (.of_not_core hcore (by simp) _)

theorem function_yields {p1 p2 r1 r2 : Ty} {e1 e2 : EffectRow} {c : Capability}
    (he : effectRowCompatible e1 e2 = true)
    (h : Ready armed (.function p1 r1 e1 c) (.function p2 r2 e2 c) n) :
    Yields (fun f => (calls armed f).mgu p1 p2 >>= fun s => do
        let r1' ← (calls armed f).apply s r1
        let r2' ← (calls armed f).apply s r2
        let s2 ← (calls armed f).mgu r1' r2'
        (calls armed f).compose s2 s) n
      (Solves armed ((function p1 r1 e1 c).fv ∪ (function p2 r2 e2 c).fv)
        [.unify (.function p1 r1 e1 c) (.function p2 r2 e2 c)] n) := by
  refine two_parts_yields h IsPart.function IsPart.function (fun ρ hp hr => .function he hp hr) ?_
  intro _ R hU
  simp only [R.read_function, function.injEq] at hU
  exact ⟨hU.1, hU.2.1⟩

theorem actor_yields {s1 s2 b1 b2 : Ty} (h : Ready armed (.actor s1 b1) (.actor s2 b2) n) :
    Yields (fun f => (calls armed f).mgu s1 s2 >>= fun s => do
        let b1' ← (calls armed f).apply s b1
        let b2' ← (calls armed f).apply s b2
        let sBeh ← (calls armed f).mgu b1' b2'
        (calls armed f).compose sBeh s) n
      (Solves armed ((actor s1 b1).fv ∪ (actor s2 b2).fv)
        [.unify (.actor s1 b1) (.actor s2 b2)] n) := by
  refine two_parts_yields h IsPart.actor IsPart.actor (fun ρ hs hb => .actor hs hb) fun hcore => ?_
  exact absurd hcore (by simp [Ty.core, Ty.all, Ty.coreNode])

/-- Composing at the end of an arm that lies outside the core fragment. -/
theorem compose_solves (hstale : armed .stale = true) {V : Finset TypeVar} {C : List UnifyStep}
    (hcore : ¬ CoreSteps C) {s1 s2 : Substitution} {m : Nat} (h2 : s2.Resolved)
    (hok : (∀ w, s2.Mentions w → w ∉ s1.dom) →
      (armed .underScheme = true → ∀ b ∈ s1, b.2.captures s2.toFun = false) →
      Solution armed V C n (s2.after s1) m) :
    Yields (fun f => (calls armed f).compose s2 s1) m (Solves armed V C n) := by
  refine (compose_yields hstale h2 m).mono ?_
  rintro ⟨e | s, m'⟩ hr
  · obtain ⟨⟨_, rfl⟩, -⟩ := hr
    exact .of_not_core hcore (by simp) m'
  · obtain ⟨hd, rfl, rfl, hclear⟩ := hr
    exact hok hd hclear

theorem mapM_apply_yields {s : Substitution} (hs : s.Resolved) (ts : List Ty) :
    Yields (fun f => ts.mapM ((calls armed f).apply s)) n fun
      | (.ok us, m) => us = ts.map (inst · s.toFun) ∧ n = m ∧
          (armed .underScheme = true → ∀ t ∈ ts, t.captures s.toFun = false)
      | (.error e, _) => ∃ h, e = .assertion h := by
  induction ts with
  | nil => exact .of_eq (fun _ => rfl) (by simp)
  | cons t ts ih =>
    simp only [mapM_cons]
    refine (apply_yields hs.fresh t n).bind (fun e m h => h.1) ?_
    rintro _ _ ⟨rfl, rfl, ht⟩
    refine ih.bind (fun e m h => h) ?_
    rintro _ _ ⟨rfl, rfl, hts⟩
    exact .of_eq (fun _ => rfl) ⟨rfl, rfl, fun ha => forall_mem_cons.mpr ⟨ht ha, hts ha⟩⟩

section Arguments

variable {V : Finset TypeVar} {C : List UnifyStep} {l : Nat} {s : Substitution}
  {as1 as2 : List Ty}

omit [Blake3] in
theorem Solution.card_argVars_le (h : Solution armed V C n s l) (h1 : ∀ t ∈ as1, t.fv ⊆ V)
    (h2 : ∀ t ∈ as2, t.fv ⊆ V) : (argVars s as1 as2).card ≤ V.card := by
  have hmem := fun w => h.mem_argVars h1 h2 (w := w)
  by_cases hs : s = []
  · subst hs
    refine Finset.card_le_card fun w hw => ?_
    rcases (hmem w hw).2 with hwV | hwn
    · exact hwV
    · rcases h.fresh with ⟨-, rfl⟩ | hf
      · omega
      · simp only [length_nil] at hf
        omega
  · exact (h.card_lt hs hmem).le

/-- `unify_many_app` on two argument lists of one length, under the substitution so far. -/
theorem args_yields (hstale : armed .stale = true) (hV : ∀ v : Nat, v ∈ V → v < n)
    (hfewer : ∀ a b : Ty, (a.fv ∪ b.fv).card < V.card → Settles armed a b)
    (hpair : ∀ a ∈ as1, ∀ b ∈ as2, Settles armed a b) (h : Solution armed V C n s l)
    (h1 : ∀ t ∈ as1, t.fv ⊆ V) (h2 : ∀ t ∈ as2, t.fv ⊆ V) (hlen : as1.length = as2.length) :
    Yields (fun f => unifyManyApp (calls armed f) (as1.map (inst · s.toFun))
      (as2.map (inst · s.toFun))) l
      (Solves armed (argVars s as1 as2) ((zipWith .unify as1 as2).map (UnifyStep.inst s)) l) := by
  have hlen' : ¬ (as1.map (inst · s.toFun)).length ≠ (as2.map (inst · s.toFun)).length := by
    simpa using hlen
  have hsteps : zipWith unify (as1.map (inst · s.toFun)) (as2.map (inst · s.toFun)) =
      (zipWith unify as1 as2).map (UnifyStep.inst s) := by
    rw [zipWith_map, map_zipWith]
    rfl
  simp only [unifyManyApp, if_neg hlen', hsteps]
  have hcard := h.card_argVars_le h1 h2
  refine unifySteps_yields hstale ?_ (fun a b hab => hfewer a b (by omega)) ?_ (.nil _ l)
  · intro w hw
    rcases (h.mem_argVars h1 h2 hw).2 with hwV | hwn
    · exact lt_of_lt_of_le (hV w hwV) h.le
    · exact hwn.2
  · intro a b hab
    obtain ⟨_, hc, hab⟩ := mem_map.mp hab
    obtain ⟨a', ha', b', hb', rfl⟩ := mem_zipWith hc
    obtain ⟨rfl, rfl⟩ := unify.inj hab
    have hfa : (a'.inst s.toFun).fv ⊆ argVars s as1 as2 := fun w hw =>
      Finset.mem_union_left _ (mem_fvList.mpr ⟨_, mem_map_of_mem ha', hw⟩)
    have hfb : (b'.inst s.toFun).fv ⊆ argVars s as1 as2 := fun w hw =>
      Finset.mem_union_right _ (mem_fvList.mpr ⟨_, mem_map_of_mem hb', hw⟩)
    refine ⟨hfa, hfb, ?_⟩
    by_cases hs : s = []
    · subst hs
      have hid : ∀ t : Ty, t.inst (toFun []) = t := fun t => inst_var t
      rw [hid, hid]
      exact hpair a' ha' b' hb'
    · have hlt := h.card_lt hs fun w => h.mem_argVars h1 h2 (w := w)
      have hle := Finset.card_le_card (Finset.union_subset hfa hfb)
      exact hfewer _ _ (by omega)

end Arguments

theorem app_yields {c1 c2 : Ty} {as1 as2 : List Ty}
    (h : Ready armed (.app c1 as1) (.app c2 as2) n) :
    Yields (fun f => (calls armed f).mgu c1 c2 >>= fun s1 => do
        let as1' ← as1.mapM ((calls armed f).apply s1)
        let as2' ← as2.mapM ((calls armed f).apply s1)
        let s2 ← unifyManyApp (calls armed f) as1' as2'
        (calls armed f).compose s2 s1) n
      (Solves armed ((app c1 as1).fv ∪ (app c2 as2).fv)
        [.unify (.app c1 as1) (.app c2 as2)] n) := by
  have hcore : ¬ CoreSteps [.unify (.app c1 as1) (.app c2 as2)] := not_core_left rfl
  set V := (app c1 as1).fv ∪ (app c2 as2).fv
  have h1 : ∀ t ∈ as1, t.fv ⊆ V := fun t ht => (IsPart.app.2 t ht).fv.trans Finset.subset_union_left
  have h2 : ∀ t ∈ as2, t.fv ⊆ V :=
    fun t ht => (IsPart.app.2 t ht).fv.trans Finset.subset_union_right
  have hpair : ∀ a ∈ as1, ∀ b ∈ as2, Settles armed a b := fun a ha b hb =>
    h.smaller a b (h1 a ha) (h2 b hb)
      (Nat.add_lt_add (IsPart.app.2 a ha).size (IsPart.app.2 b hb).size)
  have hhead : IsPart c1 (.app c1 as1) ∧ IsPart c2 (.app c2 as2) := ⟨IsPart.app.1, IsPart.app.1⟩
  obtain ⟨hf1, hf2, hsize⟩ := hhead.1.pair hhead.2
  refine (h.call hf1 hf2 hsize).bind (fun e m hr => .of_not_core hcore hr.ne_fuel m) ?_
  intro s1 l hs1
  refine (mapM_apply_yields hs1.resolved as1).bind
    (fun e m he => .of_not_core hcore (by rcases he with ⟨_, rfl⟩; simp) m) ?_
  rintro _ _ ⟨rfl, rfl, hc1⟩
  refine (mapM_apply_yields hs1.resolved as2).bind
    (fun e m he => .of_not_core hcore (by rcases he with ⟨_, rfl⟩; simp) m) ?_
  rintro _ _ ⟨rfl, rfl, hc2⟩
  by_cases hlen : as1.length = as2.length
  · refine (args_yields h.stale h.bound h.fewer hpair hs1 h1 h2 hlen).bind
      (fun e m hr => .of_not_core hcore hr.ne_fuel m) ?_
    intro s2 m hs2
    refine compose_solves h.stale hcore hs2.resolved fun hd hclear => ?_
    refine (hs1.rounds hs2 hd (fun w hw => (hs1.mem_argVars h1 h2 hw).2) hclear fun ha c hc =>
      ?_).transport ?_
      (fun hC => absurd hC hcore) ?_ fun hC => absurd hC hcore
    · obtain ⟨a, ha1, b, hb2, rfl⟩ := mem_zipWith hc
      exact ⟨hc1 ha a ha1, hc2 ha b hb2⟩
    · intro x hC c hc
      obtain ⟨hl1, hl2⟩ := lackSteps_singleton.mp hC
      rcases mem_append.mp hc with hc | hc
      · rw [mem_singleton.mp hc]
        exact ⟨IsPart.app.1.all _ hl1, IsPart.app.1.all _ hl2⟩
      · obtain ⟨a, ha, b, hb, rfl⟩ := mem_zipWith hc
        exact ⟨(IsPart.app.2 a ha).all _ hl1, (IsPart.app.2 b hb).all _ hl2⟩
    · intro _ _ ρ hA c hc
      rw [mem_singleton] at hc
      subst hc
      have hargs : ∀ c ∈ zipWith unify as1 as2, c.Agreed ρ :=
        fun c hc => hA c (mem_append_right _ hc)
      exact .app (hA (.unify c1 c2) (by simp)) ((forall_mem_zipWith hlen).mp hargs)
  · have hlen' : (as1.map (inst · s1.toFun)).length ≠ (as2.map (inst · s1.toFun)).length := by
      simpa using hlen
    simp only [unifyManyApp, if_pos hlen']
    exact .of_eq (fun _ => rfl) (.of_not_core hcore (by simp) _)

end Arms

end Nulang

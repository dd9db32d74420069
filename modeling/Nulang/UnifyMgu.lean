import Nulang.UnifyRows

/-!
# `mgu` settles

The hash shortcut, the two arms that are not unification proper (a variant against an application of
a variable, an actor against an `ActorRef`), the dispatch over all arms, and the induction: with the
checks `circular` and `stale` armed, every call of `mgu` ends, and what it ends in solves its round
(`mgu_settles`).

The shortcut compares hashes of ground types, and nothing is assumed of the hash. In the core
fragment that does no harm where it matters: ground types that some reading makes equal are the same
type (`ntirShortcut_same`), whatever their hashes are.
-/

set_option autoImplicit false

namespace Nulang

open Ty List Run Substitution SortByKey

/-! ## Ground types -/

section Ground

variable {v : TypeVar} {stack : List String} {acc : List TypeVar}

theorem mem_collectFreeVarsList {ts : List Ty}
    (h : ∀ t ∈ ts, ∀ acc, v ∈ acc ∨ v ∈ t.fv → v ∈ collectFreeVars t stack acc)
    (hv : v ∈ acc ∨ v ∈ fvList ts) : v ∈ collectFreeVarsList ts stack acc := by
  induction ts generalizing acc with
  | nil => simpa [collectFreeVarsList, fvList] using hv
  | cons t ts ih =>
    rw [fvList, Finset.mem_union, ← or_assoc] at hv
    exact ih (fun u hu => h u (mem_cons_of_mem _ hu)) (hv.imp_left (h t mem_cons_self acc))

theorem mem_collectFreeVarsFields {fs : Fields}
    (h : ∀ f ∈ fs, ∀ acc, v ∈ acc ∨ v ∈ f.2.fv → v ∈ collectFreeVars f.2 stack acc)
    (hv : v ∈ acc ∨ v ∈ fvFields fs) : v ∈ collectFreeVarsFields fs stack acc := by
  induction fs generalizing acc with
  | nil => simpa [collectFreeVarsFields, fvFields] using hv
  | cons f fs ih =>
    rw [fvFields, Finset.mem_union, ← or_assoc] at hv
    exact ih (fun g hg => h g (mem_cons_of_mem _ hg)) (hv.imp_left (h f mem_cons_self acc))

/-- In the core fragment no variable is passed over. -/
theorem mem_collectFreeVars {t : Ty} (ht : t.core = true) (hv : v ∈ acc ∨ v ∈ t.fv) :
    v ∈ collectFreeVars t stack acc := by
  induction t generalizing acc with
  | var w => simpa [collectFreeVars, fv] using hv
  | primitive => simpa [collectFreeVars, fv] using hv
  | tuple ts ih =>
    exact mem_collectFreeVarsList (fun t h _ => ih t h ((IsPart.tuple h).all _ ht)) hv
  | record fs ih =>
    exact mem_collectFreeVarsFields (fun f h _ => ih f h ((IsPart.field h).all _ ht)) hv
  | function p r e c ihp ihr =>
    simp only [core, Ty.all, Bool.and_eq_true] at ht
    rw [fv, Finset.mem_union, ← or_assoc] at hv
    exact ihr ht.2.2 (hv.imp_left (ihp ht.2.1))
  | array t ih | reference c t ih =>
    simp only [core, Ty.all, Bool.and_eq_true] at ht
    exact ih ht.2 hv
  | _ => simp [core, Ty.all, coreNode] at ht

/-- A core type without variables. -/
inductive Ty.GroundCore : Ty → Prop where
  | primitive (p : PrimitiveType) : GroundCore (.primitive p)
  | tuple {ts : List Ty} (h : ∀ t ∈ ts, GroundCore t) : GroundCore (.tuple ts)
  | record {fs : Fields} (hplain : Plain fs) (h : ∀ f ∈ fs, GroundCore f.2) :
      GroundCore (.record fs)
  | array {t : Ty} (h : GroundCore t) : GroundCore (.array t)
  | function {p r : Ty} {e : EffectRow} {c : Capability} (hp : GroundCore p) (hr : GroundCore r) :
    GroundCore (.function p r e c)
  | reference {c : Capability} {t : Ty} (h : GroundCore t) : GroundCore (.reference c t)

theorem groundCore_of_fv {t : Ty} (ht : t.core = true) (hfv : t.fv = ∅) : t.GroundCore := by
  have hclosed {a t : Ty} (h : IsPart a t) (hfv : t.fv = ∅) : a.fv = ∅ :=
    Finset.subset_empty.mp (hfv ▸ h.fv)
  induction t with
  | var v => simp [fv] at hfv
  | primitive p => exact .primitive p
  | tuple ts ih =>
    exact .tuple fun t h => ih t h ((IsPart.tuple h).all _ ht) (hclosed (.tuple h) hfv)
  | record fs ih =>
    exact .record (plain_of_core ht) fun f h =>
      ih f h ((IsPart.field h).all _ ht) (hclosed (.field h) hfv)
  | function p r e c ihp ihr =>
    exact .function (ihp (IsPart.function.1.all _ ht) (hclosed IsPart.function.1 hfv))
      (ihr (IsPart.function.2.all _ ht) (hclosed IsPart.function.2 hfv))
  | array t ih =>
    simp only [core, Ty.all, Bool.and_eq_true] at ht
    exact .array (ih ht.2 hfv)
  | reference c t ih =>
    simp only [core, Ty.all, Bool.and_eq_true] at ht
    exact .reference (ih ht.2 hfv)
  | _ => simp [core, Ty.all, coreNode] at ht

theorem fv_eq_empty_of_isGround {t : Ty} (ht : t.core = true) (hg : t.isGround = true) :
    t.fv = ∅ := by
  refine Finset.eq_empty_of_forall_notMem fun v hv => ?_
  have hmem : v ∈ collectFreeVars t [] [] := mem_collectFreeVars ht (.inr hv)
  rw [isEmpty_iff.mp hg] at hmem
  cases hmem

variable {R : Reading} {ρ : TypeVar → Ty}

theorem Ty.read_record_of_plain {fs : Fields} (h : Plain fs) :
    Ty.read ρ (.record fs) = .record (sortByKey (fs.map (Prod.map id (Ty.read ρ)))) := by
  rw [read_record_split, splitRecord_of_plain h]
  simp [splitOption, joinRow]

/-- Where the members of two lists that `f` makes equal are equal under `g`, so are the lists. -/
theorem map_eq_map_of_map_eq {α β γ : Type} {f : α → β} {g : α → γ} {as bs : List α}
    (h : ∀ a ∈ as, ∀ b ∈ bs, f a = f b → g a = g b) (heq : as.map f = bs.map f) :
    as.map g = bs.map g := by
  induction as generalizing bs with
  | nil =>
    rw [map_eq_nil_iff.mp heq.symm]
  | cons a as ih =>
    obtain ⟨b, bs, rfl, hb, hbs⟩ := map_eq_cons_iff.mp heq.symm
    rw [map_cons, map_cons, h a mem_cons_self b mem_cons_self hb.symm,
      ih (fun c hc d hd => h c (mem_cons_of_mem _ hc) d (mem_cons_of_mem _ hd)) hbs.symm]

/-- Two ground core types that some reading takes for equal are read alike by all. -/
theorem Ty.GroundCore.read_eq {t1 t2 : Ty} (h1 : t1.GroundCore) (h2 : t2.GroundCore)
    (h : R.read t1 = R.read t2) : Ty.read ρ t1 = Ty.read ρ t2 := by
  -- Induction on the first type; a second one of another shape is read as that shape.
  induction h1 generalizing t2 with
  | primitive p =>
    cases h2 with
    | primitive q => simpa using h
    | record hplain => simp [R.read_record hplain] at h
    | _ => simp at h
  | tuple hts ih =>
    cases h2 with
    | tuple hus =>
      simp only [R.read_tuple, Ty.read_tuple, Ty.tuple.injEq] at h ⊢
      exact map_eq_map_of_map_eq (fun t ht u hu => ih t ht (hus u hu)) h
    | record hplain => simp [R.read_record hplain] at h
    | _ => simp at h
  | record hfplain hfs ih =>
    rw [R.read_record hfplain] at h
    cases h2 with
    | record hgplain hgs =>
      rw [R.read_record hgplain, Ty.record.injEq] at h
      have hfields :=
        map_eq_map_of_map_eq (g := Prod.map id (Ty.read ρ)) (fun f hf g hg hfg => ?_) h
      · rw [read_record_of_plain hfplain, read_record_of_plain hgplain, sortByKey_map,
          sortByKey_map,
          ← R.sortByKey_order, ← sortByKey_map, hfields, sortByKey_map, R.sortByKey_order]
      · obtain ⟨hname, htype⟩ := Prod.mk.inj hfg
        exact Prod.ext hname (ih f (R.mem_order.mp hf) (hgs g (R.mem_order.mp hg)) htype)
    | _ => simp at h
  | array _ ih =>
    cases h2 with
    | array hu =>
      simp only [R.read_array, Ty.read_array, Ty.array.injEq] at h ⊢
      exact ih hu h
    | record hplain => simp [R.read_record hplain] at h
    | _ => simp at h
  | function _ _ ihp ihr =>
    cases h2 with
    | function hp hr =>
      simp only [R.read_function, Ty.read_function, Ty.function.injEq] at h ⊢
      exact ⟨ihp hp h.1, ihr hr h.2.1, h.2.2⟩
    | record hplain => simp [R.read_record hplain] at h
    | _ => simp at h
  | reference _ ih =>
    cases h2 with
    | reference hu =>
      simp only [R.read_reference, Ty.read_reference, Ty.reference.injEq] at h ⊢
      exact ⟨h.1, ih hu h.2⟩
    | record hplain => simp [R.read_record hplain] at h
    | _ => simp at h

/-- In the core fragment, the hash shortcut is right about types that can be unified. -/
theorem ntirShortcut_same [Blake3] {t1 t2 : Ty} (h1 : t1.core = true) (h2 : t2.core = true)
    (hshort : ntirShortcut t1 t2 = true) (h : R.read t1 = R.read t2) :
    t1.fv = ∅ ∧ t2.fv = ∅ ∧ Ty.same t1 t2 = true := by
  simp only [ntirShortcut, Bool.and_eq_true] at hshort
  have hfv1 := fv_eq_empty_of_isGround h1 hshort.1.1.2
  have hfv2 := fv_eq_empty_of_isGround h2 hshort.1.2
  have hread : Ty.read .var t1 = Ty.read .var t2 :=
    (groundCore_of_fv h1 hfv1).read_eq (groundCore_of_fv h2 hfv2) h
  have hagree : Agree .var t1 t2 := .of_read_eq hread
  rw [Agree.iff_same, inst_of_fixed t1 (by simp), inst_of_fixed t2 (by simp)] at hagree
  exact ⟨hfv1, hfv2, hagree⟩

end Ground

/-! ## Recursive references -/

theorem mem_findRecursiveAppsList {v : TypeVar} {ts : List Ty} {as : List Ty}
    (h : as ∈ findRecursiveAppsList v ts) : ∃ t ∈ ts, as ∈ findRecursiveApps v t := by
  induction ts with
  | nil => simp [findRecursiveAppsList] at h
  | cons t ts ih =>
    rw [findRecursiveAppsList, mem_append] at h
    rcases h with h | h
    · exact ⟨t, mem_cons_self, h⟩
    · obtain ⟨u, hu, h⟩ := ih h
      exact ⟨u, mem_cons_of_mem _ hu, h⟩

theorem mem_findRecursiveAppsCases {v : TypeVar} {vs : Cases} {as : List Ty}
    (h : as ∈ findRecursiveAppsCases v vs) :
    ∃ c ∈ vs, ∃ t ∈ c.2, as ∈ findRecursiveApps v t := by
  induction vs with
  | nil => simp [findRecursiveAppsCases] at h
  | cons c vs ih =>
    have hrest : as ∈ findRecursiveAppsCases v vs →
        ∃ c' ∈ c :: vs, ∃ t ∈ c'.2, as ∈ findRecursiveApps v t := by
      intro h
      obtain ⟨c', hc', h⟩ := ih h
      exact ⟨c', mem_cons_of_mem _ hc', h⟩
    obtain ⟨m, _ | t⟩ := c
    · exact hrest h
    · rw [findRecursiveAppsCases, mem_append] at h
      rcases h with h | h
      · exact ⟨_, mem_cons_self, t, rfl, h⟩
      · exact hrest h

/-- The arguments of a recursive reference are parts of the type it is found in. -/
theorem findRecursiveApps_parts {v : TypeVar} (t : Ty) {as : List Ty}
    (h : as ∈ findRecursiveApps v t) {a : Ty} (ha : a ∈ as) : IsPart a t := by
  induction t with
  | app c bs ihc ih =>
    rw [findRecursiveApps, mem_append, mem_append] at h
    rcases h with h | h | h
    · split at h
      · rw [mem_singleton.mp h] at ha
        exact IsPart.app.2 a ha
      · simp at h
    · exact (ihc h).trans IsPart.app.1
    · obtain ⟨b, hb, h⟩ := mem_findRecursiveAppsList h
      exact (ih b hb h).trans (IsPart.app.2 b hb)
  | tuple ts ih =>
    obtain ⟨t, ht, h⟩ := mem_findRecursiveAppsList h
    exact (ih t ht h).trans (.tuple ht)
  | variant vs ih =>
    obtain ⟨c, hc, t, ht, h⟩ := mem_findRecursiveAppsCases h
    exact (ih c hc t ht h).trans (.payload hc ht)
  | function q r e c ihq ihr =>
    rw [findRecursiveApps, mem_append] at h
    rcases h with h | h
    · exact (ihq h).trans IsPart.function.1
    · exact (ihr h).trans IsPart.function.2
  | _ => simp [findRecursiveApps] at h

section Recursive

variable [Blake3] {armed : Hook → Bool} {t1 t2 : Ty} {n l : Nat} {s : Substitution}

theorem Ready.mono (h : Ready armed t1 t2 n) (hnl : n ≤ l) : Ready armed t1 t2 l :=
  { h with bound := fun v hv => lt_of_lt_of_le (h.bound v hv) hnl }

/-- The loop over recursive references, with its check not armed: nothing is claimed about what the
result means. -/
theorem unifyRecursiveApps_yields (h : Ready armed t1 t2 n) {args : List Ty}
    (hrec : armed .recursiveApp = false) (hcore : ¬ CoreSteps [.unify t1 t2])
    {inner : List (List Ty)}
    (hinner : ∀ as ∈ inner, ∀ a ∈ as, ∀ b ∈ args, a.fv ⊆ t1.fv ∪ t2.fv ∧ b.fv ⊆ t1.fv ∪ t2.fv ∧
      a.size + b.size < t1.size + t2.size)
    (hlacks : ∀ x, LackSteps x [.unify t1 t2] → ∀ as ∈ inner, ∀ a ∈ as, ∀ b ∈ args,
      a.lacks x = true ∧ b.lacks x = true)
    (hs : Solution armed (t1.fv ∪ t2.fv) [.unify t1 t2] n s l) :
    Yields (fun f => unifyRecursiveApps (calls armed f) args inner s) l
      (Solves armed (t1.fv ∪ t2.fv) [.unify t1 t2] n) := by
  -- On the references that are left. The arguments of each are unified with the same `args`, from
  -- `s` so far.
  induction inner generalizing s l with
  | nil => exact .of_eq (r := (.ok s, l)) (fun _ => rfl) hs
  | cons as inner ih =>
    rw [forall_mem_cons] at hinner
    simp only [forall_mem_cons] at hlacks
    have hmany : Yields (fun f => unifyManyApp (calls armed f) as args) l (Ends fun s2 m =>
        Solution armed (t1.fv ∪ t2.fv) (zipWith .unify as args) l s2 m) := by
      unfold unifyManyApp
      by_cases hlen : as.length = args.length
      · simp only [if_neg (not_not.mpr hlen)]
        refine ((h.mono hs.le).loop ?_).mono ?_
        · intro a b hab
          obtain ⟨a', ha, b', hb, hab'⟩ := mem_zipWith hab
          obtain ⟨rfl, rfl⟩ := UnifyStep.unify.inj hab'
          exact hinner.1 a ha b hb
        · rintro ⟨e | s2, m⟩ hr
          · exact hr.ne_fuel
          · exact hr
      · simp only [if_pos hlen]
        exact .of_eq (r := (.error (.error _), l)) (fun _ => rfl) (by simp [Ends])
    refine hmany.bind (fun e m he => .of_not_core hcore he m) ?_
    intro s2 m h2
    refine (compose_solves h.stale hcore h2.resolved ?_).bind
      (fun e m hr => .of_not_core hcore hr.ne_fuel m)
      fun s' m' hs' => ih hinner.2 (fun x hC => (hlacks x hC).2) hs'
    intro hd hclear
    have hsol : Solution armed (t1.fv ∪ t2.fv) ([.unify t1 t2] ++ [.unify t1 t2]) n
        (s2.after s) m := by
      refine hs.compose h2 hd (fun w hw => .inl hw) hclear ?_ (fun hC => absurd hC hcore)
        ?_ (fun hC => absurd hC hcore)
      · intro x hC _ c hc
        obtain ⟨a, ha, b, hb, rfl⟩ := mem_zipWith hc
        exact (hlacks x hC).1 a ha b hb
      · exact fun ha => absurd (ha .recursiveApp) (by simp [hrec])
    refine hsol.transport ?_ (fun hC => absurd hC hcore) ?_ (fun hC => absurd hC hcore)
    · simp [LackSteps]
    · intro ha
      exact absurd (ha .recursiveApp) (by simp [hrec])

theorem unifyVariantApp_yields (h : Ready armed t1 t2 n) {vs : Cases} {v : TypeVar} {args : List Ty}
    (ht : t1 = .variant vs ∧ t2 = .app (.var v) args ∨ t1 = .app (.var v) args ∧ t2 = .variant vs) :
    Yields (fun f => unifyVariantApp (calls armed f) vs v args) n
      (Solves armed (t1.fv ∪ t2.fv) [.unify t1 t2] n) := by
  have hcore : ¬ CoreSteps [.unify t1 t2] := by
    rcases ht with ⟨rfl, rfl⟩ | ⟨rfl, rfl⟩ <;> exact not_core_left rfl
  refine (check_yields .recursiveApp false n).bind
    (fun e m he => .of_not_core hcore (by simp [he.1]) m) ?_
  rintro _ _ ⟨rfl, hb⟩
  have hrec : armed .recursiveApp = false := by
    cases ha : armed .recursiveApp with
    | false => rfl
    | true => exact absurd (hb ha) (by simp)
  -- The inner arguments are parts of the variant, the outer ones of the application.
  have hparts : ∀ as ∈ findRecursiveAppsCases v vs, ∀ a ∈ as, IsPart a (.variant vs) :=
    fun as has a ha => findRecursiveApps_parts (.variant vs) has ha
  have hargs : ∀ b ∈ args, IsPart b (.app (.var v) args) := IsPart.app.2
  refine unifyRecursiveApps_yields h hrec hcore ?_ ?_
    (.empty _ n fun ha => absurd (ha .recursiveApp) (by simp [hrec]))
  · intro as has a ha b hb
    rcases ht with ⟨rfl, rfl⟩ | ⟨rfl, rfl⟩
    · exact (hparts as has a ha).pair (hargs b hb)
    · obtain ⟨hb1, ha1, hsize⟩ := (hargs b hb).pair (hparts as has a ha)
      exact ⟨ha1, hb1, by omega⟩
  · intro x hC as has a ha b hb
    obtain ⟨h1, h2⟩ := lackSteps_singleton.mp hC
    rcases ht with ⟨rfl, rfl⟩ | ⟨rfl, rfl⟩
    · exact ⟨(hparts as has a ha).all _ h1, (hargs b hb).all _ h2⟩
    · exact ⟨(hparts as has a ha).all _ h2, (hargs b hb).all _ h1⟩

end Recursive

/-! ## Actor protocols -/

theorem normalize_parts (t : Ty) : t.normalizeRequiredActorBehaviorSig.fv = t.fv ∧
      t.normalizeRequiredActorBehaviorSig.size ≤ t.size + 1 ∧
      ∀ x, t.lacks x = true → t.normalizeRequiredActorBehaviorSig.lacks x = true := by
  unfold normalizeRequiredActorBehaviorSig
  split
  · exact ⟨rfl, by omega, fun _ => id⟩
  · refine ⟨by simp [fv, fvList], by simp only [Ty.size, sizeList]; omega, ?_⟩
    intro x
    cases x <;> simp [lacks, Ty.all, allList, Excluded.admits]
  · exact ⟨rfl, by omega, fun _ => id⟩

theorem actorRefProtocol_eq {t required : Ty} (h : t.actorRefProtocol = some required) :
    ∃ name u, t = .app (.nominal name u) [required] := by
  unfold actorRefProtocol at h
  split at h
  · split at h
    · rw [Option.some.inj h]
      exact ⟨_, _, rfl⟩
    · simp at h
  · simp at h

theorem actorVsRef_eq {t1 t2 behavior required : Ty}
    (h : actorVsRef t1 t2 = some (behavior, required)) :
    ∃ state name u, t1 = .actor state behavior ∧ t2 = .app (.nominal name u) [required] ∨
      t1 = .app (.nominal name u) [required] ∧ t2 = .actor state behavior := by
  unfold actorVsRef at h
  split at h
  · next state b required' hp =>
    obtain ⟨rfl, rfl⟩ := Prod.mk.inj (Option.some.inj h)
    obtain ⟨name, u, rfl⟩ := actorRefProtocol_eq hp
    exact ⟨state, name, u, .inl ⟨rfl, rfl⟩⟩
  · split at h
    · next required' state b hp _ =>
      obtain ⟨rfl, rfl⟩ := Prod.mk.inj (Option.some.inj h)
      obtain ⟨name, u, rfl⟩ := actorRefProtocol_eq hp
      exact ⟨state, name, u, .inr ⟨rfl, rfl⟩⟩
    · simp at h

theorem protocolStep_unify {advertised : Fields} {required : String × Ty} {a b : Ty}
    (h : protocolStep advertised required = .unify a b) :
    (required.1, a) ∈ advertised ∧ b = required.2.normalizeRequiredActorBehaviorSig := by
  unfold protocolStep at h
  split at h
  · simp at h
  · obtain ⟨rfl, rfl⟩ := UnifyStep.unify.inj h
    exact ⟨mem_of_lookup ‹_›, rfl⟩

section Dispatch

variable [Blake3] {armed : Hook → Bool} {t1 t2 : Ty} {n : Nat}

/-- An actor against an `ActorRef`, with its check not armed: nothing is claimed about what the
result means. -/
theorem unifyActorProtocol_yields (h : Ready armed t1 t2 n) {behavior required : Ty}
    (hact : actorVsRef t1 t2 = some (behavior, required)) (href : armed .actorRef = false)
    (hcore : ¬ CoreSteps [.unify t1 t2]) :
    Yields (fun f => unifyActorProtocol (calls armed f) behavior required) n
      (Solves armed (t1.fv ∪ t2.fv) [.unify t1 t2] n) := by
  unfold unifyActorProtocol
  split
  · next adv req =>
    obtain ⟨state, name, u, ht⟩ := actorVsRef_eq hact
    have hadv : ∀ {m : String} {a : Ty}, (m, a) ∈ adv → IsPart a (.actor state (.record adv)) :=
      fun hf => (IsPart.field hf).trans IsPart.actor.2
    have hreq : ∀ f ∈ req, IsPart f.2 (.app (.nominal name u) [.record req]) :=
      fun f hf => (IsPart.field hf).trans (IsPart.app.2 _ (mem_singleton.mpr rfl))
    refine (h.loop ?_).mono fun r hr => hr.transport ?_ (fun hC => absurd hC hcore)
      (fun ha => absurd (ha .actorRef) (by simp [href])) (fun hC => absurd hC hcore)
    · intro a b hab
      obtain ⟨f, hf, hstep⟩ := mem_map.mp hab
      obtain ⟨ha, rfl⟩ := protocolStep_unify hstep
      have hza := (hadv ha).size
      have hzf := (hreq f hf).size
      obtain ⟨hvn, hzn, -⟩ := normalize_parts f.2
      rw [hvn]
      rcases ht with ⟨rfl, rfl⟩ | ⟨rfl, rfl⟩
      · exact ⟨(hadv ha).fv.trans Finset.subset_union_left,
          (hreq f hf).fv.trans Finset.subset_union_right, by omega⟩
      · exact ⟨(hadv ha).fv.trans Finset.subset_union_right,
          (hreq f hf).fv.trans Finset.subset_union_left, by omega⟩
    · intro x hC c hc
      obtain ⟨h1, h2⟩ := lackSteps_singleton.mp hC
      obtain ⟨f, hf, rfl⟩ := mem_map.mp hc
      cases hstep : protocolStep adv f with
      | unify a b =>
        obtain ⟨ha, rfl⟩ := protocolStep_unify hstep
        rcases ht with ⟨rfl, rfl⟩ | ⟨rfl, rfl⟩
        · exact ⟨(hadv ha).all _ h1, (normalize_parts f.2).2.2 x ((hreq f hf).all _ h2)⟩
        · exact ⟨(hadv ha).all _ h2, (normalize_parts f.2).2.2 x ((hreq f hf).all _ h1)⟩
      | skip | fail => trivial
  · exact .of_eq (fun _ => rfl) (.of_not_core hcore (by simp) _)
  · exact .of_eq (fun _ => rfl) (.of_not_core hcore (by simp) _)

omit [Blake3] in
/-- Two core types that are neither variables nor of one shape are read differently. -/
theorem mismatch_not_unified (hne : t1 ≠ t2) (h1 : t1.core = true) (h2 : t2.core = true)
    (hv1 : ∀ v, t1 ≠ .var v) (hv2 : ∀ v, t2 ≠ .var v)
    (htuple : ∀ ts1 ts2, t1 = .tuple ts1 → t2 = .tuple ts2 → False)
    (hrecord : ∀ fs1 fs2, t1 = .record fs1 → t2 = .record fs2 → False)
    (harray : ∀ a b, t1 = .array a → t2 = .array b → False)
    (hfunction : ∀ p1 r1 e1 c1 p2 r2 e2 c2, t1 = .function p1 r1 e1 c1 →
      t2 = .function p2 r2 e2 c2 → False)
    (href : ∀ c1 u1 c2 u2, t1 = .reference c1 u1 → t2 = .reference c2 u2 → False) (R : Reading) :
    R.read t1 ≠ R.read t2 := by
  cases t1 with
  | var v => exact absurd rfl (hv1 v)
  | record fs =>
    cases t2 with
    | var v => exact absurd rfl (hv2 v)
    | record gs => exact (hrecord fs gs rfl rfl).elim
    | _ => simp [core, Ty.all, coreNode, R.read_record (plain_of_core h1)] at h2 ⊢
  | primitive | tuple | array | function | reference =>
    cases t2 with
    | var v => exact absurd rfl (hv2 v)
    | record fs => simp [R.read_record (plain_of_core h2)]
    | _ =>
      first
      | exact (htuple _ _ rfl rfl).elim
      | exact (harray _ _ rfl rfl).elim
      | exact (hfunction _ _ _ _ _ _ _ _ rfl rfl).elim
      | exact (href _ _ _ _ rfl rfl).elim
      | (simp [core, Ty.all, coreNode] at h2 ⊢; done)
      | simpa using hne
  | _ => simp [core, Ty.all, coreNode] at h1

omit [Blake3] in
theorem fail_yields {e : NuError}
    (h : t1.core = true → t2.core = true → ∀ R : Reading, R.read t1 ≠ R.read t2) :
    Yields (fun _ => (fail e : Check Substitution)) n
      (Solves armed (t1.fv ∪ t2.fv) [.unify t1 t2] n) := by
  refine .of_eq (r := (.error (.error e), n)) (fun _ => rfl) fun hC R hU => ?_
  obtain ⟨h1, h2⟩ := coreSteps_singleton.mp hC
  exact h h1 h2 R (hU _ (mem_singleton.mpr rfl))

/-- The dispatch of `mgu` over the shapes of its two types. An arm that unifies is settled in its
own file; an arm that refuses has to rule out every reading that makes the two types equal. -/
theorem mguShape_yields (h : Ready armed t1 t2 n) (hne : t1 ≠ t2) :
    Yields (fun f => mguShape (calls armed f) t1 t2) n
      (Solves armed (t1.fv ∪ t2.fv) [.unify t1 t2] n) := by
  -- The arms in the order of the source. Where an arm refuses, the two types have no unifier.
  unfold mguShape
  split
  · next v t =>
    refine varSubst_yields h.circular (fun ht => hne ht.symm) (by simp [fv])
      Finset.subset_union_right n (fun _ hC => (lackSteps_singleton.mp hC).2)
      (fun hC => (coreSteps_singleton.mp hC).2) ?_ ?_
    · intro ρ hρ c hc
      rw [mem_singleton.mp hc]
      exact .of_read_eq hρ
    · exact fun _ R hU => hU _ (mem_singleton.mpr rfl)
  · next t v _ =>
    refine varSubst_yields h.circular hne (by simp [fv])
      Finset.subset_union_left n (fun _ hC => (lackSteps_singleton.mp hC).1)
      (fun hC => (coreSteps_singleton.mp hC).1) ?_ ?_
    · intro ρ hρ c hc
      rw [mem_singleton.mp hc]
      exact .of_read_eq hρ.symm
    · exact fun _ R hU => (hU _ (mem_singleton.mpr rfl)).symm
  · next p1 r1 e1 c1 p2 r2 e2 c2 =>
    by_cases hc : c1 = c2
    · subst hc
      simp only [ne_eq, not_true_eq_false, if_false]
      -- Equal rows are compatible, so a refusal rules out every unifier.
      by_cases he : effectRowCompatible e1 e2 = true
      · simp only [he, Bool.not_true, Bool.false_eq_true, if_false]
        exact function_yields he h
      · simp only [he, Bool.not_false, if_true]
        refine fail_yields fun _ _ R hU => he ?_
        simp only [R.read_function, function.injEq] at hU
        rw [hU.2.2.1]
        exact effectRowCompatible_refl e2
    · simp only [ne_eq, hc, not_false_eq_true, if_true]
      refine fail_yields fun _ _ R hU => hc ?_
      simp only [R.read_function, function.injEq] at hU
      exact hU.2.2.2
  · next n1 u1 n2 u2 =>
    by_cases hn : n1 = n2
    · subst hn
      simp only [if_true]
      exact part_yields h (.inner rfl rfl fun _ => rfl) (.inner rfl rfl fun _ => rfl)
        (fun ρ hA => .nominal hA) (fun hcore => by simp [core, Ty.all, coreNode] at hcore)
    · simp only [if_neg hn]
      exact fail_yields fun h1 => by simp [core, Ty.all, coreNode] at h1
  · exact fail_yields fun h1 => by simp [core, Ty.all, coreNode] at h1
  · exact fail_yields fun _ h2 => by simp [core, Ty.all, coreNode] at h2
  · next ts1 ts2 =>
    by_cases hlen : ts1.length = ts2.length
    · simp only [ne_eq, hlen, not_true_eq_false, if_false]
      exact tuple_yields h hlen
    · simp only [ne_eq, hlen, not_false_eq_true, if_true]
      refine fail_yields fun _ _ R hU => hlen ?_
      simp only [R.read_tuple, tuple.injEq] at hU
      simpa using congrArg length hU
  · next fs1 fs2 =>
    dsimp only
    split
    · next h1 h2 => exact closedRecord_yields h h1 h2
    · next hopen => exact openRecord_yields h rfl rfl fun hnone => hopen hnone.1 hnone.2
  · next a b =>
    exact part_yields h (.inner rfl rfl fun _ => rfl) (.inner rfl rfl fun _ => rfl)
      (fun ρ hA => .array hA) (fun _ R hU => by simpa using hU)
  · exact actor_yields h
  · next c1 i1 c2 i2 =>
    by_cases hc : c1 = c2
    · subst hc
      simp only [ne_eq, not_true_eq_false, if_false]
      exact part_yields h (.inner rfl rfl fun _ => rfl) (.inner rfl rfl fun _ => rfl)
        (fun ρ hA => .reference hA) (fun _ R hU => by simpa using hU)
    · simp only [ne_eq, hc, not_false_eq_true, if_true]
      refine fail_yields fun _ _ R hU => hc ?_
      simp only [R.read_reference, reference.injEq] at hU
      exact hU.1
  · exact app_yields h
  · exact unifyVariantApp_yields h (.inl ⟨rfl, rfl⟩)
  · exact unifyVariantApp_yields h (.inr ⟨rfl, rfl⟩)
  · exact variant_yields h
  · next hv1 _ hv2 _ hfun _ htup hrec harr _ href _ _ _ _ =>
    exact fail_yields fun h1 h2 =>
      mismatch_not_unified hne h1 h2 hv1 hv2 htup hrec harr hfun href

/-- `mgu` before it looks at shapes: `never`, an actor against an `ActorRef`, equality, and the hash
shortcut, in this order. -/
theorem mguBody_yields (h : Ready armed t1 t2 n) : Yields (fun f => mguBody (calls armed f) t1 t2) n
      (Solves armed (t1.fv ∪ t2.fv) [.unify t1 t2] n) := by
  unfold mguBody
  -- `never` unifies with everything and binds nothing, so the result means nothing about such
  -- types.
  by_cases hnever : t1 = .primitive .never ∨ t2 = .primitive .never
  · simp only [if_pos hnever]
    refine .of_eq (r := (.ok [], n)) (fun _ => rfl) (Solution.empty _ n fun _ hC => ?_)
    obtain ⟨h1, h2⟩ := lackSteps_singleton.mp hC
    rcases hnever with rfl | rfl
    · exact absurd h1 (by simp [lacks, Ty.all, Excluded.admits])
    · exact absurd h2 (by simp [lacks, Ty.all, Excluded.admits])
  simp only [if_neg hnever]
  split
  · next behavior required hact =>
    have hcore : ¬ CoreSteps [.unify t1 t2] := by
      obtain ⟨state, name, u, ⟨rfl, rfl⟩ | ⟨rfl, rfl⟩⟩ := actorVsRef_eq hact
      · exact not_core_left rfl
      · exact not_core_left rfl
    refine (check_yields .actorRef false n).bind
      (fun e m he => .of_not_core hcore (by simp [he.1]) m) ?_
    rintro _ _ ⟨rfl, hb⟩
    refine unifyActorProtocol_yields h hact ?_ hcore
    cases ha : armed .actorRef with
    | false => rfl
    | true => exact absurd (hb ha) (by simp)
  · by_cases heq : t1 = t2
    · simp only [if_pos heq]
      refine .of_eq (r := (.ok [], n)) (fun _ => rfl) (Solution.empty _ n fun _ _ ρ c hc => ?_)
      rw [mem_singleton.mp hc, heq]
      exact .of_read_eq rfl
    simp only [if_neg heq]
    by_cases hshort : ntirShortcut t1 t2 = true
    · simp only [if_pos hshort]
      refine (check_yields .shortcut _ n).bind ?_ ?_
      · rintro e m ⟨rfl, _, hb⟩ hC R hU
        obtain ⟨h1, h2⟩ := coreSteps_singleton.mp hC
        have hread : R.read t1 = R.read t2 := hU _ (mem_singleton.mpr rfl)
        exact of_decide_eq_false hb (ntirShortcut_same h1 h2 hshort hread)
      · rintro _ _ ⟨rfl, hb⟩
        refine .of_eq (r := (.ok [], n)) (fun _ => rfl) (Solution.empty _ n fun ha _ ρ c hc => ?_)
        rw [mem_singleton.mp hc]
        -- An armed shortcut has checked that the types are ground and the same.
        obtain ⟨hfv1, hfv2, hsame⟩ := of_decide_eq_true (hb (ha .shortcut))
        rw [UnifyStep.Agreed, Agree.iff_same, inst_of_fixed t1 (by simp [hfv1]),
          inst_of_fixed t2 (by simp [hfv2])]
        exact hsame
    · simp only [if_neg hshort]
      exact mguShape_yields h heq

end Dispatch

/-- Every call of `mgu` ends, and what it ends in solves its round. -/
theorem mgu_settles [Blake3] {armed : Hook → Bool} (hcirc : armed .circular = true)
    (hstale : armed .stale = true) (t1 t2 : Ty) : Settles armed t1 t2 := by
  -- On the number of variables, then on the size.
  induction hN : (t1.fv ∪ t2.fv).card using Nat.strong_induction_on generalizing t1 t2 with
  | _ N ihN =>
  induction hS : t1.size + t2.size using Nat.strong_induction_on generalizing t1 t2 with
  | _ S ihS =>
  intro n hn
  refine .succ (x := fun f => mguBody (calls armed f) t1 t2) (mguBody_yields ?_) fun f => rfl
  refine ⟨hcirc, hstale, hn, fun a b hab => ihN _ (hN ▸ hab) a b rfl, ?_⟩
  intro a b ha hb hsize
  have hle := Finset.card_le_card (Finset.union_subset ha hb)
  rcases Nat.lt_or_eq_of_le hle with hlt | heq
  · exact ihN _ (hN ▸ hlt) a b rfl
  · exact ihS _ (hS ▸ hsize) a b (heq.trans hN) rfl

end Nulang

import Nulang.UnifyCases

/-!
# Open records

The arm of `mgu` with row tails. The shared fields go through the common loop; what is left are one
or two bindings of row variables to the other side's extra fields. The counter moves once, for the
row both sides then share, and two variables are bound for it.

Open records are outside the core fragment, so nothing is claimed about generality: a solution makes
the two records read the same, if the run passes the checks `duplicate` and `underScheme`.
-/

set_option autoImplicit false

namespace Nulang

open Ty List Run Substitution SortByKey

section Rows

variable {n l : Nat} {s : Substitution}

/-- What the two rows of an open unification are made of: the solution of the shared fields and
the extra fields under it. -/
structure SharedSolved (armed : Hook → Bool) (fs1 fs2 : Fields) (n : Nat) (s : Substitution)
    (l : Nat) : Prop where
  solution : Solution armed ((record fs1).fv ∪ (record fs2).fv)
    ((sharedNames (splitRecord fs1).1 (splitRecord fs2).1).map
      (sharedStep (splitRecord fs1).1 (splitRecord fs2).1)) n s l
  nodup : armed .duplicate = true → ((splitRecord fs1).1.map Prod.fst).Nodup ∧
    ((splitRecord fs2).1.map Prod.fst).Nodup
  clear1 : armed .underScheme = true →
    ∀ f ∈ extraFields (splitRecord fs1).1 (splitRecord fs2).1,
      f.2.captures s.toFun = false
  clear2 : armed .underScheme = true →
    ∀ f ∈ extraFields (splitRecord fs2).1 (splitRecord fs1).1,
      f.2.captures s.toFun = false

/-- The extra fields of one side, under the solution of the shared ones. -/
def rowFields (s : Substitution) (fields other : Fields) : Fields :=
  (extraFields fields other).map (Prod.map id (inst · s.toFun))

theorem plain_rowFields (fs : Fields) (other : Fields) :
    Plain (rowFields s (splitRecord fs).1 other) := by
  intro f hf
  obtain ⟨g, hg, rfl⟩ := mem_map.mp hf
  exact (splitTail_shape (.record fs)).1 g (mem_extraFields.mp hg).1

variable {fs other : Fields} {W : Finset TypeVar} {f : String × Ty}

theorem Fits.mem_fv_rowFields (h : Fits W n s l) (hfs : (record fs).fv ⊆ W)
    (hf : f ∈ rowFields s (splitRecord fs).1 other) {w : Nat} (hw : w ∈ f.2.fv) :
    w ∈ W ∨ n ≤ w ∧ w < l := by
  obtain ⟨g, hg, rfl⟩ := mem_map.mp hf
  have hg := (mem_splitRecord (mem_extraFields.mp hg).1).fv.trans hfs
  exact (h.mem_fv_apply hg hw).2

theorem all_rowFields {p : Ty → Bool} (hp : Nodewise p) (hs : ∀ b ∈ s, b.2.all p = true)
    (hfs : (record fs).all p = true) (hf : f ∈ rowFields s (splitRecord fs).1 other) :
    f.2.all p = true := by
  obtain ⟨g, hg, rfl⟩ := mem_map.mp hf
  exact all_apply hp hs ((mem_splitRecord (mem_extraFields.mp hg).1).all p hfs)

theorem read_rowFields {ρ : TypeVar → Ty} (hρ : Models ρ s) {fields : Fields}
    (hclear : ∀ f ∈ extraFields fields other, f.2.captures s.toFun = false) :
    (rowFields s fields other).map (Prod.map id (read ρ)) = (extraFields fields other).map
    (Prod.map id (read ρ)) := by
  unfold rowFields
  rw [map_map, Prod.map_comp_map, Function.id_comp]
  exact map_fields_congr fun f hf => hρ.read_apply (hclear f hf)

/-- The row both sides then share is the old value of the counter. -/
theorem Fits.mem_fv_openRow (h : Fits W n s l) (hfs : (record fs).fv ⊆ W) {w : Nat}
    (hw : w ∈ (recordOpen (rowFields s (splitRecord fs).1 other) l).fv) :
    w ∈ W ∨ n ≤ w ∧ w < l + 1 := by
  obtain ⟨f, hf, hw⟩ := mem_fvFields.mp hw
  rcases mem_append.mp hf with hf | hf
  · exact (h.mem_fv_rowFields hfs hf hw).imp id fun h => ⟨h.1, by omega⟩
  · rw [mem_singleton.mp hf, fv, Finset.mem_singleton] at hw
    subst hw
    exact .inr ⟨h.le, by omega⟩

section Meaning

variable {ρ : TypeVar → Ty} {fs' : Fields} {r : TypeVar}

/-- The tail is bound to the other side's extra fields. -/
theorem rowReads_bound (hρ : Models ρ s)
    (hclear : ∀ f ∈ extraFields (splitRecord fs').1 (splitRecord fs).1,
      f.2.captures s.toFun = false)
    (ht : (splitRecord fs).2 = some (.var r)) (tail : Option Ty)
    (hr : (ρ r).canon =
      read ρ (.record (rowFields s (splitRecord fs').1 (splitRecord fs).1 ++
        (tail.map fun u => (recordRowTailField, u)).toList))) :
    RowReads ρ fs fs' (splitOption (tail.map (read ρ))) := by
  have h := splitOption_read_record (plain_rowFields fs' _) tail hr
  rw [read_rowFields hρ hclear] at h
  constructor <;> rw [ht]
  · exact h.1
  · exact h.2

variable (hnone : extraFields (splitRecord fs').1 (splitRecord fs).1 = [])
include hnone

theorem rowReads_closed (ht : (splitRecord fs).2 = none) : RowReads ρ fs fs' ([], none) :=
  ⟨fun l => by simp [ht, hnone, splitOption], by simp [ht, splitOption]⟩

/-- Both sides have the tail, and neither has more fields. -/
theorem rowReads_same (ht : (splitRecord fs).2 = some (.var r)) :
    RowReads ρ fs fs' (splitTail (ρ r).canon) := by
  constructor
  · intro l
    rw [hnone, ht]
    rfl
  · rw [ht]
    rfl

end Meaning

end Rows

section Bind

variable [Blake3] {armed : Hook → Bool} {n : Nat}

theorem applyFields_yields {s : Substitution} (hs : s.Resolved) (fs : Fields) :
    Yields (fun f => applyFields (calls armed f) s fs) n fun
      | (.ok gs, m) => gs = fs.map (Prod.map id (inst · s.toFun)) ∧ n = m ∧
          (armed .underScheme = true → ∀ f ∈ fs, f.2.captures s.toFun = false)
      | (.error e, _) => ∃ h, e = .assertion h := by
  induction fs with
  | nil => exact .of_eq (fun _ => rfl) (by simp)
  | cons f fs ih =>
    obtain ⟨m, t⟩ := f
    refine (apply_yields hs.fresh t n).bind (fun e m h => h.1) ?_
    rintro _ _ ⟨rfl, rfl, ht⟩
    refine ih.bind (fun e m h => h) ?_
    rintro _ _ ⟨rfl, rfl, hfs⟩
    exact .of_eq (fun _ => rfl) ⟨rfl, rfl, fun ha => forall_mem_cons.mpr ⟨ht ha, hfs ha⟩⟩

/-- `mgu` of a variable and a record goes straight to `var_subst`. -/
theorem mguBody_var_record (k : Calls) (v : TypeVar) (fs : Fields) :
    mguBody k (.var v) (.record fs) = varSubst k v (.record fs) := by
  have hshort : ntirShortcut (.var v) (.record fs) = false := by
    simp [ntirShortcut, isGround, collectFreeVars]
  simp [mguBody, actorVsRef, actorRefProtocol, hshort, mguShape]

end Bind

/-! ## The arm -/

variable {fs E : Fields} {s : Substitution} {x : Excluded}

theorem tail_mem_fv {r : TypeVar} (h : (splitRecord fs).2 = some (.var r)) : r ∈ (record fs).fv :=
  (mem_splitTail (.record fs)).2 (.var r) h (by simp [fv])

theorem not_core_of_tail (h : (splitRecord fs).2 ≠ none) : (record fs).core = false := by
  cases hc : (record fs).core with
  | false => rfl
  | true => exact absurd (by rw [splitRecord_of_plain (plain_of_core hc)]) h

theorem Solution.of_fits {armed : Hook → Bool} {V : Finset TypeVar} {t1 t2 : Ty} {n m : Nat}
    (h : Fits V n s m) (hfresh : s = [] ∧ m = n ∨ m < n + s.length)
    (hcore : ¬ CoreSteps [.unify t1 t2])
    (hlacks : ∀ x, LackSteps x [.unify t1 t2] → ∀ b ∈ s, b.2.lacks x = true)
    (hs : (∀ h, armed h = true) → LackSteps .never [.unify t1 t2] → ∀ ρ, Models ρ s →
      Agree ρ t1 t2) :
    Solution armed V [.unify t1 t2] n s m :=
  { h with
    fresh := hfresh
    lacks := hlacks
    core := fun hC => absurd hC hcore
    sound := fun ha hC ρ hρ => forall_mem_singleton.mpr (hs ha hC ρ hρ)
    general := fun hC => absurd hC hcore }

theorem fresh_bind {v : TypeVar} {t : Ty} {n l : Nat} (h : s = [] ∧ l = n ∨ l < n + s.length) :
    l < n + (after [(v, t)] s).length := by
  rw [length_after, length_singleton]
  rcases h with ⟨rfl, rfl⟩ | h <;> omega

theorem models_bindRow {r : TypeVar} {ρ : TypeVar → Ty}
    (hclear : ∀ b ∈ s, b.2.captures (toFun [(r, .record E)]) = false)
    (hρ : Models ρ (after [(r, .record E)] s)) :
    Models ρ s ∧ (ρ r).canon = read ρ (.record E) := by
  obtain ⟨h1, h2⟩ := (models_after hclear).mp hρ
  exact ⟨h1, h2 (r, .record E) (mem_singleton.mpr rfl)⟩

theorem lacks_record (h : ∀ f ∈ fs, f.2.lacks x = true) : (record fs).lacks x = true := by
  simp only [Ty.lacks, Ty.all, Bool.and_eq_true, Ty.allFields_iff]
  exact ⟨by cases x <;> rfl, h⟩

theorem lackSteps_shared {fs1 fs2 : Fields} (h : LackSteps x [.unify (.record fs1) (.record fs2)]) :
    LackSteps x ((sharedNames (splitRecord fs1).1 (splitRecord fs2).1).map
      (sharedStep (splitRecord fs1).1 (splitRecord fs2).1)) := by
  obtain ⟨h1, h2⟩ := lackSteps_singleton.mp h
  intro c hc
  obtain ⟨name, -, rfl⟩ := mem_map.mp hc
  cases hstep : sharedStep (splitRecord fs1).1 (splitRecord fs2).1 name with
  | unify a b =>
    obtain ⟨ha, hb⟩ := sharedStep_unify hstep
    exact ⟨(mem_splitRecord ha).all _ h1, (mem_splitRecord hb).all _ h2⟩
  | skip | fail => trivial

section Arm

variable [Blake3] {armed : Hook → Bool} {fs1 fs2 : Fields} {n l : Nat} {r r1 r2 : TypeVar}

theorem bindRow_solves {V : Finset TypeVar} (hcirc : armed .circular = true)
    (hstale : armed .stale = true) (h : Fits V n s l) (hr : r ∈ V)
    (hE : ∀ w : Nat, w ∈ (record E).fv → w ∈ V ∨ n ≤ w ∧ w < l) :
    Yields (fun f => bindRow (calls armed f) r (.record E) s) l fun
      | (.ok s', m) => l = m ∧ s' = after [(r, .record E)] s ∧ Fits V n s' l ∧
          (armed .underScheme = true → ∀ b ∈ s, b.2.captures (toFun [(r, .record E)]) = false)
      | (.error e, _) => e ≠ .fuel := by
  have hvar := varSubst_single hcirc (v := r) (t := .record E) (by simp) l
  have hmgu := hvar.succ (x := fun f => varSubst (calls armed f) r (.record E))
    (y := fun f => (calls armed f).mgu (.var r) (.record E)) fun f =>
      mguBody_var_record (calls armed f) r E
  refine hmgu.bind (fun e m he => ?_) ?_
  · rintro rfl
    exact he
  rintro _ _ ⟨rfl, rfl, hfresh⟩
  have hfits := Fits.single hfresh (Finset.mem_insert_self r _) (Finset.subset_insert r _) l
  refine (compose_yields hstale hfits.resolved l).mono ?_
  rintro ⟨e | s', m⟩ hr'
  · obtain ⟨⟨_, rfl⟩, -⟩ := hr'
    simp
  · obtain ⟨hd, rfl, rfl, hclear⟩ := hr'
    refine ⟨rfl, rfl, h.compose hfits hd fun w hw => ?_, hclear⟩
    rcases Finset.mem_insert.mp hw with hw | hw
    · exact .inl (hw ▸ hr)
    · exact hE w hw

omit [Blake3] in
theorem SharedSolved.agree (hS : SharedSolved armed fs1 fs2 n s l) (ha : ∀ h, armed h = true)
    (hC : LackSteps .never [.unify (.record fs1) (.record fs2)]) {ρ : TypeVar → Ty}
    (hρ : Models ρ s) {rest : Fields × Option Ty} (h1 : RowReads ρ fs1 fs2 rest)
    (h2 : RowReads ρ fs2 fs1 rest) :
    Agree ρ (.record fs1) (.record fs2) := by
  obtain ⟨hn1, hn2⟩ := hS.nodup (ha .duplicate)
  exact .openRecord hn1 hn2
    (shared_agree hn1 hn2 (hS.solution.sound ha (lackSteps_shared hC) ρ hρ)) h1 h2

omit [Blake3] in
theorem SharedSolved.lacks (hS : SharedSolved armed fs1 fs2 n s l) {x : Excluded}
    (hC : LackSteps x [.unify (.record fs1) (.record fs2)]) : (∀ b ∈ s, b.2.lacks x = true) ∧
      (∀ f ∈ rowFields s (splitRecord fs1).1 (splitRecord fs2).1, f.2.lacks x = true) ∧
      ∀ f ∈ rowFields s (splitRecord fs2).1 (splitRecord fs1).1, f.2.lacks x = true := by
  have hs := hS.solution.lacks x (lackSteps_shared hC)
  obtain ⟨h1, h2⟩ := lackSteps_singleton.mp hC
  exact ⟨hs, fun f hf => all_rowFields (Ty.nodewise_admits x) hs h1 hf,
    fun f hf => all_rowFields (Ty.nodewise_admits x) hs h2 hf⟩

section

variable (h : Ready armed (.record fs1) (.record fs2) n)
include h

/-- Two open records with different tails: both tails are bound to the fields only the other side
has, with one new row for what neither side knows. -/
theorem openOpen_yields (hS : SharedSolved armed fs1 fs2 n s l)
    (ht1 : (splitRecord fs1).2 = some (.var r1)) (ht2 : (splitRecord fs2).2 = some (.var r2)) :
    Yields (fun f => Run.next >>= fun row =>
        bindRow (calls armed f) r1
          (recordOpen (rowFields s (splitRecord fs2).1 (splitRecord fs1).1) row) s >>=
        bindRow (calls armed f) r2
          (recordOpen (rowFields s (splitRecord fs1).1 (splitRecord fs2).1) row)) l
      (Solves armed ((record fs1).fv ∪ (record fs2).fv)
        [.unify (.record fs1) (.record fs2)] n) := by
  have hcore : ¬ CoreSteps [.unify (.record fs1) (.record fs2)] :=
    not_core_left (not_core_of_tail (by simp [ht1]))
  have hfits := hS.solution.toFits
  have hle := hfits.le
  have hr1 := Finset.mem_union_left (record fs2).fv (tail_mem_fv ht1)
  have hr2 := Finset.mem_union_right (record fs1).fv (tail_mem_fv ht2)
  have hfits' : Fits ((record fs1).fv ∪ (record fs2).fv) n s (l + 1) :=
    ⟨by omega, hfits.resolved, fun w hw => (hfits.bounded w hw).imp id fun h => ⟨h.1, by omega⟩⟩
  refine Yields.bind (P := fun r => r = (.ok l, l + 1)) (.of_eq (fun _ => rfl) rfl) (by simp) ?_
  -- The row `l` that the two sides will share is allocated here, before either tail is bound.
  rintro _ _ ⟨⟩
  refine (bindRow_solves h.circular h.stale hfits' hr1
    fun w hw => hfits.mem_fv_openRow Finset.subset_union_right hw).bind
      (fun e m he => .of_not_core hcore he m) ?_
  rintro _ _ ⟨rfl, rfl, hfits1, hclear1⟩
  refine (bindRow_solves h.circular h.stale hfits1 hr2
    fun w hw => hfits.mem_fv_openRow Finset.subset_union_left hw).mono ?_
  rintro ⟨e | s', m⟩ hr
  · exact .of_not_core hcore hr m
  obtain ⟨rfl, rfl, hfits2, hclear2⟩ := hr
  refine Solution.of_fits hfits2 ?_ hcore ?_ ?_
  · rw [length_after, length_singleton, ← Nat.add_assoc]
    exact .inr (Nat.add_lt_add_right (fresh_bind hS.solution.fresh) 1)
  · intro x hC
    obtain ⟨hs, hn1, hn2⟩ := hS.lacks hC
    have hopen : ∀ E : Fields, (∀ f ∈ E, f.2.lacks x = true) →
        (recordOpen E l).lacks x = true := by
      intro E hE
      refine lacks_record fun f hf => ?_
      rcases mem_append.mp hf with hf | hf
      · exact hE f hf
      · rw [mem_singleton.mp hf]
        simpa [Ty.lacks, Ty.all] using (Ty.nodewise_admits x).var l
    refine all_after (Ty.nodewise_admits x) (all_after (Ty.nodewise_admits x) hs ?_) ?_
    · exact forall_mem_singleton.mpr (hopen _ hn2)
    · exact forall_mem_singleton.mpr (hopen _ hn1)
  · intro ha hC ρ hρ
    obtain ⟨hρ1, h2⟩ := models_bindRow (hclear2 (ha .underScheme)) hρ
    obtain ⟨hρ, h1⟩ := models_bindRow (hclear1 (ha .underScheme)) hρ1
    exact hS.agree ha hC hρ (rowReads_bound hρ (hS.clear2 (ha .underScheme)) ht1 (some (.var l)) h1)
      (rowReads_bound hρ (hS.clear1 (ha .underScheme)) ht2 (some (.var l)) h2)

theorem bindOne_yields (hS : SharedSolved armed fs1 fs2 n s l)
    (hcore : ¬ CoreSteps [.unify (.record fs1) (.record fs2)])
    (hr : r ∈ (record fs1).fv ∪ (record fs2).fv)
    (hE : ∀ f ∈ E, ∀ w : Nat, w ∈ f.2.fv → w ∈ (record fs1).fv ∪ (record fs2).fv ∨ n ≤ w ∧ w < l)
    (hlacks : ∀ x, LackSteps x [.unify (.record fs1) (.record fs2)] → ∀ f ∈ E, f.2.lacks x = true)
    (hs : (∀ h, armed h = true) → LackSteps .never [.unify (.record fs1) (.record fs2)] →
      ∀ ρ, Models ρ s → (ρ r).canon = read ρ (.record E) → Agree ρ (.record fs1) (.record fs2)) :
    Yields (fun f => bindRow (calls armed f) r (.record E) s) l
      (Solves armed ((record fs1).fv ∪ (record fs2).fv)
        [.unify (.record fs1) (.record fs2)] n) := by
  refine (bindRow_solves h.circular h.stale hS.solution.toFits hr ?_).mono ?_
  · intro w hw
    obtain ⟨f, hf, hw⟩ := mem_fvFields.mp hw
    exact hE f hf w hw
  rintro ⟨e | s', m⟩ hr
  · exact .of_not_core hcore hr m
  obtain ⟨rfl, rfl, hfits, hclear⟩ := hr
  refine Solution.of_fits hfits (.inr (fresh_bind hS.solution.fresh)) hcore ?_ ?_
  · intro x hC
    refine all_after (Ty.nodewise_admits x) (hS.lacks hC).1 ?_
    exact forall_mem_singleton.mpr (lacks_record (hlacks x hC))
  · intro ha hC ρ hρ
    obtain ⟨hρ, h1⟩ := models_bindRow (hclear (ha .underScheme)) hρ
    exact hs ha hC ρ hρ h1

/-- All ways two records can meet when at least one of them is open. The fields they share are
unified first; then the tails take what is left, if there is anything. -/
theorem openRecord_yields {tail1 tail2 : Option Ty} (ht1 : (splitRecord fs1).2 = tail1)
    (ht2 : (splitRecord fs2).2 = tail2) (hopen : ¬ (tail1 = none ∧ tail2 = none)) :
    Yields (fun f => unifyOpenRecords (calls armed f) (splitRecord fs1).1 tail1
      (splitRecord fs2).1 tail2) n
      (Solves armed ((record fs1).fv ∪ (record fs2).fv)
        [.unify (.record fs1) (.record fs2)] n) := by
  -- A record with a row tail is not in the core, so only soundness is left to show.
  have hcore : ¬ CoreSteps [.unify (.record fs1) (.record fs2)] := by
    by_cases h1 : tail1 = none
    · exact not_core_right (not_core_of_tail (by rw [ht2]; exact fun h2 => hopen ⟨h1, h2⟩))
    · exact not_core_left (not_core_of_tail (by rw [ht1]; exact h1))
  have hassert : ∀ {e : Stop} {m : TypeVar}, (∃ h, e = .assertion h) →
      Solves armed ((record fs1).fv ∪ (record fs2).fv)
        [.unify (.record fs1) (.record fs2)] n (.error e, m) := by
    rintro _ m ⟨_, rfl⟩
    exact .of_not_core hcore (by simp) m
  unfold unifyOpenRecords
  refine (check_yields .duplicate _ n).bind (fun e m he => hassert ⟨_, he.1⟩) ?_
  rintro _ _ ⟨rfl, hdup⟩
  refine (h.loop ?_).bind (fun e m hr => .of_not_core hcore hr.ne_fuel m) ?_
  · intro a b hab
    obtain ⟨name, -, hstep⟩ := mem_map.mp hab
    obtain ⟨ha, hb⟩ := sharedStep_unify hstep
    exact (mem_splitRecord ha).pair (mem_splitRecord hb)
  intro s l hs
  refine (applyFields_yields hs.resolved _).bind (fun e m he => hassert he) ?_
  rintro _ _ ⟨rfl, rfl, hclear1⟩
  refine (applyFields_yields hs.resolved _).bind (fun e m he => hassert he) ?_
  rintro _ _ ⟨rfl, rfl, hclear2⟩
  have hS : SharedSolved armed fs1 fs2 n s l :=
    ⟨hs, fun ha => of_decide_eq_true (hdup ha), hclear1, hclear2⟩
  have hrow1 :
      (extraFields (splitRecord fs1).1 (splitRecord fs2).1).map (Prod.map id (inst · s.toFun)) =
        rowFields s (splitRecord fs1).1 (splitRecord fs2).1 := rfl
  have hrow2 :
      (extraFields (splitRecord fs2).1 (splitRecord fs1).1).map (Prod.map id (inst · s.toFun)) =
        rowFields s (splitRecord fs2).1 (splitRecord fs1).1 := rfl
  rw [hrow1, hrow2]
  have hempty : ∀ {fields other : Fields}, rowFields s fields other = [] →
      extraFields fields other = [] := fun h => map_eq_nil_iff.mp h
  split
  -- Two open records: equal tails must leave no extra field on either side.
  · next r1 r2 =>
    by_cases hr : r1 = r2
    · subst hr
      simp only [if_pos]
      by_cases hnil : (rowFields s (splitRecord fs1).1 (splitRecord fs2).1).isEmpty &&
          (rowFields s (splitRecord fs2).1 (splitRecord fs1).1).isEmpty
      · simp only [if_pos hnil]
        rw [Bool.and_eq_true, List.isEmpty_iff, List.isEmpty_iff] at hnil
        refine .of_eq (r := (.ok s, l)) (fun _ => rfl) ?_
        refine Solution.of_fits hs.toFits hs.fresh hcore (fun _ hC => (hS.lacks hC).1)
          fun ha hC ρ hρ => ?_
        exact hS.agree ha hC hρ (rowReads_same (hempty hnil.2) ht1)
          (rowReads_same (hempty hnil.1) ht2)
      · simp only [if_neg hnil]
        exact .of_eq (fun _ => rfl) (.of_not_core hcore (by simp) _)
    · simp only [if_neg hr]
      exact openOpen_yields h hS ht1 ht2
  · next r =>
    split
    · exact .of_eq (fun _ => rfl) (.of_not_core hcore (by simp) _)
    · next hnil =>
      -- The left record is open: its tail takes the extra fields of the right one.
      refine bindOne_yields h hS hcore (Finset.mem_union_left _ (tail_mem_fv ht1)) ?_ ?_ ?_
      · exact fun f hf w hw => hs.toFits.mem_fv_rowFields Finset.subset_union_right hf hw
      · exact fun _ hC => (hS.lacks hC).2.2
      · exact fun ha hC ρ hρ hcanon => hS.agree ha hC hρ
          (rowReads_bound hρ (hclear2 (ha .underScheme)) ht1 none (by simpa using hcanon))
          (rowReads_closed (hempty hnil) ht2)
  · next r =>
    split
    · exact .of_eq (fun _ => rfl) (.of_not_core hcore (by simp) _)
    · next hnil =>
      refine bindOne_yields h hS hcore (Finset.mem_union_right _ (tail_mem_fv ht2)) ?_ ?_ ?_
      · exact fun f hf w hw => hs.toFits.mem_fv_rowFields Finset.subset_union_left hf hw
      · exact fun _ hC => (hS.lacks hC).2.1
      · exact fun ha hC ρ hρ hcanon => hS.agree ha hC hρ (rowReads_closed (hempty hnil) ht1)
          (rowReads_bound hρ (hclear1 (ha .underScheme)) ht2 none (by simpa using hcanon))
  · exact .of_eq (fun _ => rfl) (.of_not_core hcore (by simp) _)

end

end Arm

end Nulang

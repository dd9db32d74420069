import Nulang.UnifyMgu

/-!
# The most general unifier

Whenever some substitution makes two types equal, `mgu` returns one that does, and every other one
is an instance of it (`mgu_most_general`). The types are those of the functional fragment:
variables, primitives, tuples, arrays, references, functions with equal closed rows and closed
records. That is where the algorithm is the textbook one. Outside the fragment it is not: the occurs
check does not look into variants, a row variable can be bound twice, and the hash shortcut takes
types for equal that are not.

The proof runs the algorithm with checks at those places (`Hook`), all of them armed. On unifiable
types of the fragment none of them can fail, so the checked run and the program are the same run
(`mgu_converges`), and the checked run is the one the solver's invariant is about. What is left is
to compare two readings of "equal up to the order of record fields": the one of the invariant, which
sorts while it reads, and the plain one of the statement, `sortFields`.
-/

set_option autoImplicit false

namespace Nulang

open Ty List Run Substitution SortByKey

/-- The run on the two types with the given checks armed does not end in a failed check. -/
def Meets [Blake3] (armed : Hook → Bool) (t1 t2 : Ty) (n : Nat) : Prop :=
  ∀ r, Converges (fun f => mguWith armed f t1 t2) n r → ∀ h, r.1 ≠ .error (.assertion h)

/-- The variables of the two types were handed out before the counter stood at `n`. -/
def Issued (t1 t2 : Ty) (n : Nat) : Prop := ∀ v : Nat, v ∈ t1.fv ∪ t2.fv → v < n

instance (t1 t2 : Ty) (n : Nat) : Decidable (Issued t1 t2 n) :=
  inferInstanceAs (Decidable (∀ v ∈ t1.fv ∪ t2.fv, v < n))

def Hook.all : Hook → Bool := fun _ => true

section Transfer

variable [Blake3] {armed : Hook → Bool} {t1 t2 : Ty} {n : Nat}

/-- With enough fuel, the program does what the checked run does. -/
theorem mgu_converges (hcirc : armed .circular = true) (hstale : armed .stale = true)
    (hn : Issued t1 t2 n) (hm : Meets armed t1 t2 n) :
    Yields (fun f => mgu f t1 t2) n (Solves armed (t1.fv ∪ t2.fv) [.unify t1 t2] n) := by
  obtain ⟨r, hr, hsolves⟩ := mgu_settles hcirc hstale t1 t2 n hn
  refine ⟨r, hr.of_below (fun f => (calls_below (fun _ h => absurd h (by simp [Hook.none]))
    (le_refl f)).mgu t1 t2) ?_, hsolves⟩
  intro e he hre
  match e, he with
  | .fuel, _ =>
    obtain ⟨x, m⟩ := r
    have hx : x = .error .fuel := hre
    rw [hx] at hsolves
    exact hsolves
  | .assertion h, _ => exact hm r hr h hre

end Transfer

/-! ## The most general unifier -/

namespace Ty

mutual

/-- The type with the fields of every record sorted by name. Fields of one name keep their
order. -/
def sortFields : Ty → Ty
  | .var v => .var v
  | .primitive p => .primitive p
  | .skolem id => .skolem id
  | .tuple ts => .tuple (sortFieldsList ts)
  | .record fs => .record (sortByKey (sortFieldsRecord fs))
  | .variant vs => .variant (sortFieldsCases vs)
  | .array t => .array (sortFields t)
  | .function p r e c => .function (sortFields p) (sortFields r) e c
  | .actor s b => .actor (sortFields s) (sortFields b)
  | .app c as => .app (sortFields c) (sortFieldsList as)
  | .reference c t => .reference c (sortFields t)
  | .scheme vs t => .scheme vs (sortFields t)
  | .nominal n t => .nominal n (sortFields t)

def sortFieldsList : List Ty → List Ty
  | [] => []
  | t :: ts => sortFields t :: sortFieldsList ts

def sortFieldsRecord : Fields → Fields
  | [] => []
  | (n, t) :: fs => (n, sortFields t) :: sortFieldsRecord fs

def sortFieldsCases : Cases → Cases
  | [] => []
  | (n, none) :: vs => (n, none) :: sortFieldsCases vs
  | (n, some t) :: vs => (n, some (sortFields t)) :: sortFieldsCases vs

end

theorem sortFieldsList_eq (ts : List Ty) : sortFieldsList ts = ts.map sortFields := by
  induction ts with
  | nil => rfl
  | cons t ts ih => rw [sortFieldsList, ih, map_cons]

theorem sortFieldsRecord_eq (fs : Fields) :
    sortFieldsRecord fs = fs.map (Prod.map id sortFields) := by
  induction fs with
  | nil => rfl
  | cons f fs ih => rw [sortFieldsRecord, ih, map_cons, Prod.map, id]

end Ty

def Reading.exact (u : TypeVar → Ty) : Reading where
  val := u
  norm := id
  sorts := false
  norm_primitive := fun _ => rfl
  norm_tuple := by simp
  norm_record := by simp
  norm_array := fun _ => rfl
  norm_function := fun _ _ _ _ => rfl
  norm_reference := fun _ _ => rfl

/-- Types up to the order of record fields. -/
def Reading.upToOrder (u : TypeVar → Ty) : Reading where
  val := u
  norm := sortFields
  sorts := true
  norm_primitive := fun _ => rfl
  norm_tuple := fun ts => by rw [sortFields, sortFieldsList_eq]
  norm_record := fun fs _ => by rw [sortFields, sortFieldsRecord_eq, cond_true]
  norm_array := fun _ => rfl
  norm_function := fun _ _ _ _ => rfl
  norm_reference := fun _ _ => rfl

/-- The two types are equal up to the order of record fields. -/
def Ty.EqUpToOrder (t1 t2 : Ty) : Prop := t1.sortFields = t2.sortFields

section General

variable [Blake3] {t1 t2 : Ty} {n : Nat}

omit [Blake3] in
/-- A reading unifies the round on two types that it takes for equal. -/
theorem unified_singleton {R : Reading} (hR : R.read t1 = R.read t2) :
    ∀ c ∈ [UnifyStep.unify t1 t2], c.Unified R := by
  intro c hc
  rw [mem_singleton.mp hc]
  exact hR

/-- No run on unifiable core types fails a check. -/
theorem Meets.of_core (h1 : t1.core = true) (h2 : t2.core = true) (hn : Issued t1 t2 n)
    {R : Reading} (hR : R.read t1 = R.read t2) : Meets Hook.all t1 t2 n := by
  intro r hr h hrh
  have hsettles : Settles Hook.all t1 t2 := mgu_settles rfl rfl t1 t2
  obtain ⟨⟨x, m⟩, hr', hsolves⟩ := hsettles n hn
  have hx : x = .error (.assertion h) := by rw [← hrh, hr.unique hr']
  rw [hx] at hsolves
  exact hsolves (coreSteps_singleton.mpr ⟨h1, h2⟩) R (unified_singleton hR)

/-- In the core fragment, a reading under which the two types are equal makes the program return a
substitution that unifies them, and every such reading goes through it. -/
theorem mgu_general (h1 : t1.core = true) (h2 : t2.core = true) (hn : Issued t1 t2 n) {R : Reading}
    (hR : R.read t1 = R.read t2) : ∃ s m, Converges (fun f => mgu f t1 t2) n (.ok s, m) ∧
      s.Resolved ∧ same (t1.inst s.toFun) (t2.inst s.toFun) = true ∧
      ∀ R' : Reading, R'.read t1 = R'.read t2 → ∀ v, R'.read (s.toFun v) = R'.norm (R'.val v) := by
  have hcore := coreSteps_singleton.mpr ⟨h1, h2⟩
  obtain ⟨⟨e | s, m⟩, hr, hsolves⟩ := mgu_converges rfl rfl hn (Meets.of_core h1 h2 hn hR)
  · match e, hsolves with
    | .assertion _, hsolves => exact absurd (unified_singleton hR) (hsolves hcore R)
    | .error _, hsolves => exact absurd (unified_singleton hR) (hsolves hcore R)
  · have hlacks : LackSteps .never [.unify t1 t2] :=
      lackSteps_singleton.mpr ⟨lacks_never_of_core h1, lacks_never_of_core h2⟩
    have hagree : Agree s.toFun t1 t2 :=
      hsolves.sound (fun _ => rfl) hlacks _ hsolves.resolved.models _ (mem_singleton.mpr rfl)
    refine ⟨s, m, hr, hsolves.resolved, hagree, fun R' hR' => ?_⟩
    exact (hsolves.general hcore R' (unified_singleton hR')).read_toFun

/-- From some fuel on `mgu` returns a substitution `s` that makes the two types the same, and
through which `u` factors: `u v` is an instance of what `apply_subst` makes of `v`, up to the order
of record fields, and exactly so when `u` makes the two types exactly equal. -/
def UnifiesGenerally (t1 t2 : Ty) (n : Nat) (u : TypeVar → Ty) : Prop :=
  ∃ F s m, (∀ fuel, F ≤ fuel → (mgu fuel t1 t2).exec n = (.ok s, m)) ∧
    (∃ u1 u2, (∀ fuel, 2 ≤ fuel → applySubst fuel s t1 = some u1 ∧ applySubst fuel s t2 = some u2) ∧
      same u1 u2 = true) ∧
    ∃ r : TypeVar → Ty, ∀ v, ∃ t, (∀ fuel, 2 ≤ fuel → applySubst fuel s (.var v) = some t) ∧
      (u v).EqUpToOrder (t.inst r) ∧ (t1.inst u = t2.inst u → u v = t.inst r)

/-- `mgu` finds a most general unifier of any two unifiable types of the core fragment. -/
theorem mgu_most_general (h1 : t1.core = true) (h2 : t2.core = true) (hn : Issued t1 t2 n)
    (u : TypeVar → Ty) (hu : (t1.inst u).EqUpToOrder (t2.inst u)) : UnifiesGenerally t1 t2 n u := by
  obtain ⟨s, m, ⟨F, hF⟩, hres, hsame, hgen⟩ := mgu_general h1 h2 hn (R := .upToOrder u) hu
  have happly (t : Ty) (fuel : Nat) (hfuel : 2 ≤ fuel) :
      applySubst fuel s t = some (t.inst s.toFun) := by
    obtain ⟨f, rfl⟩ : ∃ f, fuel = f + 2 := ⟨fuel - 2, by omega⟩
    exact applySubst_resolved hres f
  refine ⟨F, s, m, hF,
    ⟨_, _, fun fuel hfuel => ⟨happly t1 fuel hfuel, happly t2 fuel hfuel⟩, hsame⟩, u,
    fun v => ⟨s.toFun v, happly (.var v), ?_, fun heq => ?_⟩⟩
  · exact (hgen (.upToOrder u) hu v).symm
  · exact (hgen (.exact u) heq v).symm

end General

section General

local instance oneDigest : Blake3 := ⟨id⟩

theorem mgu_most_general_record :
    UnifiesGenerally (.record [("x", .var 1), ("y", .array (.var 2))])
      (.record [("y", .array (.primitive .int)), ("x", .var 2)]) 3 fun _ => .primitive .int :=
  mgu_most_general (by decide) (by decide) (by decide) _ rfl

end General

end Nulang

import Nulang.Rows
import Nulang.Lib.Run

/-!
# Substitution and unification (`typechecker.rs`)

`applySubst`, `composeSubst` and `mgu` as the source has them. `apply_subst` follows the bindings
of a variable recursively through the whole substitution and `compose_subst` may call back into
`mgu`, so none of the three is structurally terminating and all of them take fuel: a run that needs
more stops with `Stop.fuel`. The recursion is open: the bodies below call through a record `Calls`,
and `calls` ties the knot over the fuel.

The bodies also carry **ghost checks**. A check is an assertion that the program does not make; the
program's own run (`Hook.none`) ignores every one of them, and `Calls.check` is the only place where
they can be seen. Each hook marks one step that the later theorems have to speak about:

* `circular`: `var_subst` binds a variable to a type the variable occurs in;
* `stale`: `compose_subst` merges bindings that mention variables the other side already binds;
* `underScheme`: `apply_subst` puts a variable below a scheme that binds it;
* `shortcut`: the NTIR hash equates two types that are not ground or not the same;
* `recursiveApp`: a variant is accepted against an application of a variable;
* `actorRef`: an actor is related to an `ActorRef`;
* `duplicate`: rows are unified with a field name that occurs twice.
-/

set_option autoImplicit false

namespace Nulang

open SortByKey

/-- `NuError::TypeError`, without its span. -/
structure NuError where
  msg : String
  expectedType : Option String := none
  foundType : Option String := none
deriving DecidableEq

namespace NuError

/-- `NuError::type_mismatch`. -/
def typeMismatch (expected found : String) : NuError :=
  ⟨"Type mismatch: expected " ++ expected ++ ", found " ++ found, some expected, some found⟩

/-- `NuError::field_not_found` with the available fields. -/
def fieldNotFound (field : String) (available : List String) : NuError :=
  { msg := "Field '" ++ field ++ "' not found in record type. Available fields: "
      ++ ", ".intercalate available }

def infiniteType (t : Ty) : NuError :=
  { msg := "Infinite type: this expression's type references itself. "
      ++ "This often happens with self-referential definitions "
      ++ "(e.g., a record that contains itself, or `let f = f`). "
      ++ "(Type variable '_ occurs in " ++ t.display ++ ")" }

end NuError

inductive Hook where
  | circular | stale | underScheme | shortcut | recursiveApp | actorRef | duplicate
deriving DecidableEq

/-- Why a run stops: it needs more fuel, an armed check failed, or the program returned an
error. -/
inductive Stop where
  | fuel
  | assertion (h : Hook)
  | error (e : NuError)
deriving DecidableEq

/-- The stops a caller can observe and react to. -/
def Stop.isError : Stop → Bool
  | .error _ => true
  | _ => false

/-- The checker's monad: the state is the counter behind `TypeVar::fresh`. -/
abbrev Check (α : Type) : Type := Run Stop TypeVar α

def fail {α : Type} (e : NuError) : Check α := Run.stop (.error e)

/-! ## Substitutions -/

/-- Ordered list of bindings; the first binding of a variable is the one in force. -/
abbrev Substitution := List (TypeVar × Ty)

namespace Substitution

def dom (s : Substitution) : List TypeVar := s.map Prod.fst

def toFun (s : Substitution) (v : TypeVar) : Ty := (s.lookup v).getD (.var v)

/-- Remove the bindings of the variables a scheme binds. -/
def without (s : Substitution) (vars : List TypeVar) : Substitution :=
  s.filter fun b => !vars.contains b.1

/-- No binding of `s2` mentions, on either side, a variable that `s1` binds. -/
def resolvedAgainst (s2 s1 : Substitution) : Bool :=
  s2.all fun b => !s1.dom.contains b.1 && decide (∀ v ∈ s1.dom, v ∉ b.2.fv)

end Substitution

namespace Ty

mutual

/-- One level of `apply_subst`: the structure is walked here, a bound variable is handed to
`rec`. -/
def applyWith (rec : Substitution → Ty → Option Ty) : Ty → Substitution → Option Ty
  | .var v, s =>
      match s.lookup v with
      | some t => rec s t
      | none => some (.var v)
  | .primitive p, _ => some (.primitive p)
  | .skolem id, _ => some (.skolem id)
  | .tuple ts, s => (applyWithList rec ts s).map .tuple
  | .record fs, s => (applyWithFields rec fs s).map .record
  | .variant vs, s => (applyWithCases rec vs s).map .variant
  | .array t, s => (applyWith rec t s).map .array
  | .function p r e c, s =>
      (applyWith rec p s).bind fun p' => (applyWith rec r s).map fun r' => .function p' r' e c
  | .actor st b, s =>
      (applyWith rec st s).bind fun st' => (applyWith rec b s).map fun b' => .actor st' b'
  | .app c as, s =>
      (applyWith rec c s).bind fun c' => (applyWithList rec as s).map fun as' => .app c' as'
  | .reference c t, s => (applyWith rec t s).map (.reference c)
  | .scheme vs t, s => (applyWith rec t (s.without vs)).map (.scheme vs)
  | .nominal n t, s => (applyWith rec t s).map (.nominal n)

def applyWithList (rec : Substitution → Ty → Option Ty) :
    List Ty → Substitution → Option (List Ty)
  | [], _ => some []
  | t :: ts, s =>
      (applyWith rec t s).bind fun t' => (applyWithList rec ts s).map fun ts' => t' :: ts'

def applyWithFields (rec : Substitution → Ty → Option Ty) :
    Fields → Substitution → Option Fields
  | [], _ => some []
  | (n, t) :: fs, s =>
      (applyWith rec t s).bind fun t' =>
        (applyWithFields rec fs s).map fun fs' => (n, t') :: fs'

def applyWithCases (rec : Substitution → Ty → Option Ty) : Cases → Substitution → Option Cases
  | [], _ => some []
  | (n, none) :: vs, s => (applyWithCases rec vs s).map fun vs' => (n, none) :: vs'
  | (n, some t) :: vs, s =>
      (applyWith rec t s).bind fun t' =>
        (applyWithCases rec vs s).map fun vs' => (n, some t') :: vs'

end

/-- `apply_subst`. The fuel bounds how long a chain of bindings may get; `none` means that it was
not enough. -/
def applySubst : (fuel : Nat) → Substitution → Ty → Option Ty
  | 0, _, _ => none
  | fuel + 1, s, t => applyWith (applySubst fuel) t s

mutual

/-- `occurs_in`. -/
def occursIn (v : TypeVar) : Ty → Bool
  | .var v2 => v2 == v
  | .primitive _ => false
  | .skolem _ => false
  | .tuple ts => occursInList v ts
  | .record fs => occursInFields v fs
  -- Variant constructors are taken for a well-founded guard of recursive types.
  | .variant _ => false
  | .array t => occursIn v t
  | .function p r _ _ => occursIn v p || occursIn v r
  | .actor s b => occursIn v s || occursIn v b
  | .app c as => occursIn v c || occursInList v as
  | .reference _ t => occursIn v t
  | .scheme vs t => !vs.contains v && occursIn v t
  | .nominal _ t => occursIn v t

def occursInList (v : TypeVar) : List Ty → Bool
  | [] => false
  | t :: ts => occursIn v t || occursInList v ts

def occursInFields (v : TypeVar) : Fields → Bool
  | [] => false
  | (_, t) :: fs => occursIn v t || occursInFields v fs

end

mutual

/-- `find_recursive_apps_in_type`: the argument lists of every application of `target`. -/
def findRecursiveApps (target : TypeVar) : Ty → List (List Ty)
  | .app c as =>
      (if c = .var target then [as] else [])
        ++ (findRecursiveApps target c ++ findRecursiveAppsList target as)
  | .tuple ts => findRecursiveAppsList target ts
  | .variant vs => findRecursiveAppsCases target vs
  | .function p r _ _ => findRecursiveApps target p ++ findRecursiveApps target r
  | _ => []

def findRecursiveAppsList (target : TypeVar) : List Ty → List (List Ty)
  | [] => []
  | t :: ts => findRecursiveApps target t ++ findRecursiveAppsList target ts

def findRecursiveAppsCases (target : TypeVar) : Cases → List (List Ty)
  | [] => []
  | (_, none) :: vs => findRecursiveAppsCases target vs
  | (_, some t) :: vs => findRecursiveApps target t ++ findRecursiveAppsCases target vs

end

/-- `normalize_required_actor_behavior_sig`: the parameter slot becomes an argument pack. -/
def normalizeRequiredActorBehaviorSig : Ty → Ty
  | .function (.tuple items) r e c => .function (.tuple items) r e c
  | .function p r e c => .function (.tuple [p]) r e c
  | t => t

/-- An actor met by an `ActorRef`, on either side: the advertised and the required protocol. -/
def actorVsRef (t1 t2 : Ty) : Option (Ty × Ty) :=
  match t1, t2.actorRefProtocol with
  | .actor _ behavior, some required => some (behavior, required)
  | _, _ =>
    match t1.actorRefProtocol, t2 with
    | some required, .actor _ behavior => some (behavior, required)
    | _, _ => none

end Ty

/-! ## The recursive calls -/

/-- What the bodies below call. -/
structure Calls where
  mgu : Ty → Ty → Check Substitution
  compose : Substitution → Substitution → Check Substitution
  apply : Substitution → Ty → Check Ty
  check : Hook → Bool → Check Unit

section Bodies

variable [Blake3] (k : Calls)

/-- `var_subst`. -/
def varSubst (v : TypeVar) : Ty → Check Substitution
  | .skolem id => pure [(v, .skolem id)]
  | t =>
    if t = .var v then pure []
    else if t.occursIn v then fail (.infiniteType t)
    else do
      k.check .circular (v ∉ t.fv)
      pure [(v, t)]

/-- One round of a unification loop: a pair to unify, nothing, or an error to return. -/
inductive UnifyStep where
  | unify (a b : Ty)
  | skip
  | fail (e : NuError)

/-- The loop every structural case runs: unify the next pair under the substitution so far and
compose. -/
def unifySteps : List UnifyStep → Substitution → Check Substitution
  | [], subst => pure subst
  | .fail e :: _, _ => fail e
  | .skip :: rest, subst => unifySteps rest subst
  | .unify a b :: rest, subst => do
      let a' ← k.apply subst a
      let b' ← k.apply subst b
      let s ← k.mgu a' b'
      let subst' ← k.compose s subst
      unifySteps rest subst'

/-- `unify_many`. -/
def unifyMany (ts1 ts2 : List Ty) : Check Substitution :=
  if ts1.length ≠ ts2.length then
    fail (.typeMismatch ("list of " ++ toString ts1.length ++ " types")
      ("list of " ++ toString ts2.length ++ " types"))
  else unifySteps k (List.zipWith .unify ts1 ts2) []

/-- `unify_many_app`. -/
def unifyManyApp (ts1 ts2 : List Ty) : Check Substitution :=
  if ts1.length ≠ ts2.length then
    fail (.typeMismatch ("type list of length " ++ toString ts1.length)
      ("type list of length " ++ toString ts2.length))
  else unifySteps k (List.zipWith .unify ts1 ts2) []

/-- The round of two record fields in the same position of the sorted lists. -/
def fieldStep (f1 f2 : String × Ty) : UnifyStep :=
  if f1.1 ≠ f2.1 then
    .fail (.typeMismatch ("record with field '" ++ f1.1 ++ "'")
      ("record with field '" ++ f2.1 ++ "'"))
  else .unify f1.2 f2.2

/-- `unify_closed_records`. -/
def unifyClosedRecords (fs1 fs2 : Fields) : Check Substitution :=
  if fs1.length ≠ fs2.length then
    fail (.typeMismatch ("record with " ++ toString fs1.length ++ " fields")
      ("record with " ++ toString fs2.length ++ " fields"))
  else unifySteps k (List.zipWith fieldStep (sortByKey fs1) (sortByKey fs2)) []

/-- The round of two constructors in the same position of the sorted lists. -/
def caseStep (c1 c2 : String × Option Ty) : UnifyStep :=
  if c1.1 ≠ c2.1 then
    .fail (.typeMismatch ("constructor '" ++ c1.1 ++ "'") ("constructor '" ++ c2.1 ++ "'"))
  else
    match c1.2, c2.2 with
    | none, none => .skip
    | some a, some b => .unify a b
    | _, _ => .fail (.typeMismatch ("constructor '" ++ c1.1 ++ "' with payload")
        ("constructor '" ++ c1.1 ++ "' without payload"))

/-- The `(Variant, Variant)` arm of `mgu`. -/
def unifyVariants (vs1 vs2 : Cases) : Check Substitution :=
  if vs1.length ≠ vs2.length then
    fail (.typeMismatch ("variant type with " ++ toString vs1.length ++ " constructors")
      ("variant type with " ++ toString vs2.length ++ " constructors"))
  else unifySteps k (List.zipWith caseStep (sortByKey vs1) (sortByKey vs2)) []

/-- Names of the fields both sides have, sorted. -/
def sharedNames (fields1 fields2 : Fields) : List String :=
  (((fields1.map Prod.fst).dedup).filter (fields2.map Prod.fst).contains).insertionSort (· ≤ ·)

/-- The round of a shared field: the first field of that name on each side. -/
def sharedStep (fields1 fields2 : Fields) (name : String) : UnifyStep :=
  match fields1.lookup name, fields2.lookup name with
  | some a, some b => .unify a b
  | _, _ => .skip

def applyFields (subst : Substitution) : Fields → Check Fields
  | [] => pure []
  | (n, t) :: fs => do
      let t' ← k.apply subst t
      let fs' ← applyFields subst fs
      pure ((n, t') :: fs')

def recordWithFields (fields : Fields) : String :=
  "record with fields \x7b" ++ ", ".intercalate (fields.map Prod.fst) ++ "\x7d"

/-- Bind a row variable under the substitution so far. -/
def bindRow (r : TypeVar) (t : Ty) (subst : Substitution) : Check Substitution := do
  let s ← k.mgu (.var r) t
  k.compose s subst

/-- `unify_open_records`: at least one side has a row tail. -/
def unifyOpenRecords (fields1 : Fields) (tail1 : Option Ty) (fields2 : Fields)
    (tail2 : Option Ty) : Check Substitution := do
  k.check .duplicate ((fields1.map Prod.fst).Nodup ∧ (fields2.map Prod.fst).Nodup)
  let subst ← unifySteps k ((sharedNames fields1 fields2).map (sharedStep fields1 fields2)) []
  let extras1 ← applyFields k subst (Ty.extraFields fields1 fields2)
  let extras2 ← applyFields k subst (Ty.extraFields fields2 fields1)
  match tail1, tail2 with
  | some (.var r1), some (.var r2) =>
      if r1 = r2 then
        if extras1.isEmpty && extras2.isEmpty then pure subst
        else fail { msg := "Incompatible record types: both sides require additional fields "
                      ++ "that cannot be reconciled",
                    expectedType := some (recordWithFields fields1),
                    foundType := some (recordWithFields fields2) }
      else do
        let freshRow ← Run.next
        let subst ← bindRow k r1 (Ty.recordOpen extras2 freshRow) subst
        bindRow k r2 (Ty.recordOpen extras1 freshRow) subst
  | some (.var r), none =>
      match extras1 with
      | (missing, _) :: _ => fail (.fieldNotFound missing (fields2.map Prod.fst))
      | [] => bindRow k r (.record extras2) subst
  | none, some (.var r) =>
      match extras2 with
      | (missing, _) :: _ => fail (.fieldNotFound missing (fields1.map Prod.fst))
      | [] => bindRow k r (.record extras1) subst
  | _, _ => fail { msg := "Incompatible record types: the rows cannot be unified",
                   expectedType := some (recordWithFields fields1),
                   foundType := some (recordWithFields fields2) }

/-- The round of one required behavior of an `ActorRef`. -/
def protocolStep (advertised : Fields) (required : String × Ty) : UnifyStep :=
  match advertised.lookup required.1 with
  | none => .fail (.fieldNotFound required.1 (advertised.map Prod.fst))
  | some sig => .unify sig required.2.normalizeRequiredActorBehaviorSig

/-- `unify_actor_protocol`. -/
def unifyActorProtocol (advertised required : Ty) : Check Substitution :=
  match advertised, required with
  | .record adv, .record req => unifySteps k (req.map (protocolStep adv)) []
  | .record _, t =>
      fail { msg := "ActorRef protocol must be a record of behavior signatures",
             expectedType := some "record protocol", foundType := some t.display }
  | t, r =>
      fail { msg := "actor does not expose a statically checkable behavior protocol",
             expectedType := some r.display, foundType := some t.display }

/-- The loop over the recursive references of a variant. Unlike every other loop it does not apply
the substitution so far to the next round's types. -/
def unifyRecursiveApps (args : List Ty) : List (List Ty) → Substitution → Check Substitution
  | [], subst => pure subst
  | inner :: rest, subst => do
      let s ← unifyManyApp k inner args
      let subst' ← k.compose s subst
      unifyRecursiveApps args rest subst'

/-- The arm of `mgu` for a variant against `v[args]`. -/
def unifyVariantApp (vs : Cases) (v : TypeVar) (args : List Ty) : Check Substitution := do
  k.check .recursiveApp false
  unifyRecursiveApps k args (Ty.findRecursiveAppsCases v vs) []

def mismatch (t1 t2 : Ty) : Check Substitution := fail (.typeMismatch t1.display t2.display)

/-- The `match` of `mgu`. -/
def mguShape (t1 t2 : Ty) : Check Substitution :=
  match t1, t2 with
  | .var v, t => varSubst k v t
  | t, .var v => varSubst k v t
  | .function p1 r1 e1 c1, .function p2 r2 e2 c2 =>
      if c1 ≠ c2 then
        fail (.typeMismatch ("function with capability " ++ c1.display)
          ("function with capability " ++ c2.display))
      else if !effectRowCompatible e1 e2 then
        fail (.typeMismatch ("function with effects " ++ e1.display)
          ("function with effects " ++ e2.display))
      else do
        let s1 ← k.mgu p1 p2
        let r1' ← k.apply s1 r1
        let r2' ← k.apply s1 r2
        let s2 ← k.mgu r1' r2'
        k.compose s2 s1
  | .nominal n1 u1, .nominal n2 u2 =>
      if n1 = n2 then k.mgu u1 u2
      else fail (.typeMismatch ("opaque type " ++ n1) ("opaque type " ++ n2))
  | .nominal n _, other => fail (.typeMismatch ("opaque type " ++ n) other.display)
  | other, .nominal n _ => fail (.typeMismatch ("opaque type " ++ n) other.display)
  | .tuple ts1, .tuple ts2 =>
      if ts1.length ≠ ts2.length then
        fail (.typeMismatch ("tuple of " ++ toString ts1.length ++ " elements")
          ("tuple of " ++ toString ts2.length ++ " elements"))
      else unifyMany k ts1 ts2
  | .record fs1, .record fs2 =>
      let (fields1, tail1) := Ty.splitRecord fs1
      let (fields2, tail2) := Ty.splitRecord fs2
      match tail1, tail2 with
      | none, none => unifyClosedRecords k fields1 fields2
      | _, _ => unifyOpenRecords k fields1 tail1 fields2 tail2
  | .array a, .array b => k.mgu a b
  | .actor s1 b1, .actor s2 b2 => do
      let sState ← k.mgu s1 s2
      let b1' ← k.apply sState b1
      let b2' ← k.apply sState b2
      let sBeh ← k.mgu b1' b2'
      k.compose sBeh sState
  | .reference c1 i1, .reference c2 i2 =>
      if c1 ≠ c2 then
        fail (.typeMismatch ("reference with capability " ++ c1.display)
          ("reference with capability " ++ c2.display))
      else k.mgu i1 i2
  | .app c1 a1, .app c2 a2 => do
      let s1 ← k.mgu c1 c2
      let a1' ← a1.mapM (k.apply s1)
      let a2' ← a2.mapM (k.apply s1)
      let s2 ← unifyManyApp k a1' a2'
      k.compose s2 s1
  | .variant vs, .app (.var v) args => unifyVariantApp k vs v args
  | .app (.var v) args, .variant vs => unifyVariantApp k vs v args
  | .variant vs1, .variant vs2 => unifyVariants k vs1 vs2
  -- Equal primitives and equal skolems are caught before the match.
  | t1, t2 => mismatch t1 t2

/-- `mgu`. -/
def mguBody (t1 t2 : Ty) : Check Substitution :=
  if t1 = .primitive .never ∨ t2 = .primitive .never then pure []
  else
    match Ty.actorVsRef t1 t2 with
    | some (behavior, required) => do
        k.check .actorRef false
        unifyActorProtocol k behavior required
    | none =>
      if t1 = t2 then pure []
      else if ntirShortcut t1 t2 then do
        k.check .shortcut (t1.fv = ∅ ∧ t2.fv = ∅ ∧ Ty.same t1 t2)
        pure []
      else mguShape k t1 t2

def applyBindings (s2 : Substitution) : Substitution → Check Substitution
  | [] => pure []
  | (v, t) :: s1 => do
      let t' ← k.apply s2 t
      let s1' ← applyBindings s2 s1
      pure ((v, t') :: s1')

/-- The loop of `compose_subst`. A variable bound on both sides has its two types unified; when
they do not unify the binding of `s2` is dropped. -/
def composeLoop : Substitution → Substitution → Check Substitution
  | [], acc => pure acc
  | (v, t) :: rest, acc =>
    match acc.lookup v with
    | none => composeLoop rest (acc ++ [(v, t)])
    | some existing => do
        match ← (k.mgu existing t).recover Stop.isError with
        | some s => do
            let unified ← k.apply s existing
            let acc' ← k.compose s (acc.eraseP (·.1 == v) ++ [(v, unified)])
            composeLoop rest acc'
        | none => composeLoop rest acc

/-- `compose_subst`: `s2` after `s1`. -/
def composeBody (s2 s1 : Substitution) : Check Substitution := do
  k.check .stale (s2.resolvedAgainst s1)
  let s1' ← applyBindings k s2 s1
  composeLoop k s2 s1'

end Bodies

/-- A check of an armed hook stops the run when it fails. -/
def checkHook (armed : Hook → Bool) (h : Hook) (b : Bool) : Check Unit :=
  if armed h && !b then Run.stop (.assertion h) else pure ()

/-- `apply_subst` as a run. -/
def applyRun (armed : Hook → Bool) (fuel : Nat) (s : Substitution) (t : Ty) : Check Ty := do
  checkHook armed .underScheme (!t.captures s.toFun)
  match Ty.applySubst fuel s t with
  | some t' => pure t'
  | none => Run.stop .fuel

def calls [Blake3] (armed : Hook → Bool) : (fuel : Nat) → Calls
  | 0 =>
    { mgu := fun _ _ => Run.stop .fuel
      compose := fun _ _ => Run.stop .fuel
      apply := applyRun armed 0
      check := checkHook armed }
  | fuel + 1 =>
    { mgu := mguBody (calls armed fuel)
      compose := composeBody (calls armed fuel)
      apply := applyRun armed (fuel + 1)
      check := checkHook armed }

def Hook.none : Hook → Bool := fun _ => false

/-- `mgu` with the given hooks armed. -/
def mguWith [Blake3] (armed : Hook → Bool) (fuel : Nat) (t1 t2 : Ty) : Check Substitution :=
  (calls armed fuel).mgu t1 t2

/-- `mgu`. -/
def mgu [Blake3] (fuel : Nat) (t1 t2 : Ty) : Check Substitution := mguWith Hook.none fuel t1 t2

/-- `compose_subst`. -/
def composeSubst [Blake3] (fuel : Nat) (s2 s1 : Substitution) : Check Substitution :=
  (calls Hook.none fuel).compose s2 s1

end Nulang

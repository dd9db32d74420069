import Nulang.TypeIr

/-!
# Records split and flattened, and when two types are the same

`splitRecord` is the source's `split_record`. The rest of the file is the yardstick the unifier is
measured with: `canon t` normalises what the source calls irrelevant (record fields and variant
constructors are sorted by name, nested row tails are flattened), and two types are the *same* when
their canonical forms agree up to compatible effect rows (`Ty.same`).
-/

set_option autoImplicit false

namespace Nulang

open SortByKey

namespace Ty

mutual

/-- What a row tail contributes: a record its own fields and tail, anything else itself. -/
def splitTail : Ty → Fields × Option Ty
  | .record fs =>
      match splitFields fs with
      | (own, none) => (own, none)
      | (own, some (inner, residual)) => (own ++ inner, residual)
  | t => ([], some t)

/-- The real fields of one level, and what its row tail contributes. The last tail wins. -/
def splitFields : Fields → Fields × Option (Fields × Option Ty)
  | [] => ([], none)
  | (n, t) :: fs =>
      let (own, tail) := splitFields fs
      if n = recordRowTailField then (own, tail.orElse fun _ => some (splitTail t))
      else ((n, t) :: own, tail)

end

/-- `split_record`: the real fields, nested record tails flattened, and the residual tail. -/
def splitRecord (fs : Fields) : Fields × Option Ty := splitTail (.record fs)

/-- The fields of a record with the given real fields and tail, in canonical order. -/
def joinRow (fields : Fields) : Option Ty → Fields
  | none => sortByKey fields
  | some t => sortByKey fields ++ [(recordRowTailField, t)]

mutual

def canon : Ty → Ty
  | .var v => .var v
  | .primitive p => .primitive p
  | .tuple ts => .tuple (canonList ts)
  | .record fs =>
      let row := splitRecord (canonFields fs)
      .record (joinRow row.1 row.2)
  | .variant vs => .variant (sortByKey (canonCases vs))
  | .array t => .array (canon t)
  | .function p r e c => .function (canon p) (canon r) e c
  | .actor s b => .actor (canon s) (canon b)
  | .app c as => .app (canon c) (canonList as)
  | .reference c t => .reference c (canon t)
  | .scheme vs t => .scheme vs (canon t)
  | .nominal n t => .nominal n (canon t)
  | .skolem id => .skolem id

def canonList : List Ty → List Ty
  | [] => []
  | t :: ts => canon t :: canonList ts

def canonFields : Fields → Fields
  | [] => []
  | (n, t) :: fs => (n, canon t) :: canonFields fs

def canonCases : Cases → Cases
  | [] => []
  | (n, none) :: vs => (n, none) :: canonCases vs
  | (n, some t) :: vs => (n, some (canon t)) :: canonCases vs

end

end Ty

/-- `effect_row_compatible`. Sorting two lists and comparing them is asking for a permutation. -/
def effectRowCompatible : EffectRow → EffectRow → Bool
  | .closed a, .closed b => a.isPerm b
  | .open a _, .closed b => b.all (a.contains ·)
  | .closed b, .open a _ => b.all (a.contains ·)
  | .open a _, .open b _ => a.all (b.contains ·) && b.all (a.contains ·)

namespace Ty

mutual

/-- Equality of types up to compatible effect rows of corresponding functions. -/
def eqUpToEffects : Ty → Ty → Bool
  | .tuple as, .tuple bs => eqUpToEffectsList as bs
  | .record as, .record bs => eqUpToEffectsFields as bs
  | .variant as, .variant bs => eqUpToEffectsCases as bs
  | .array a, .array b => eqUpToEffects a b
  | .function p r e c, .function p' r' e' c' =>
      eqUpToEffects p p' && (eqUpToEffects r r' && (effectRowCompatible e e' && c == c'))
  | .actor s b, .actor s' b' => eqUpToEffects s s' && eqUpToEffects b b'
  | .app c as, .app c' as' => eqUpToEffects c c' && eqUpToEffectsList as as'
  | .reference c t, .reference c' t' => c == c' && eqUpToEffects t t'
  | .nominal n t, .nominal n' t' => n == n' && eqUpToEffects t t'
  | .var a, .var b => a == b
  | .primitive a, .primitive b => a == b
  | .scheme vs t, .scheme vs' t' => vs == vs' && eqUpToEffects t t'
  | .skolem a, .skolem b => a == b
  | _, _ => false

def eqUpToEffectsList : List Ty → List Ty → Bool
  | [], [] => true
  | a :: as, b :: bs => eqUpToEffects a b && eqUpToEffectsList as bs
  | _, _ => false

def eqUpToEffectsFields : Fields → Fields → Bool
  | [], [] => true
  | (n, a) :: as, (m, b) :: bs => n == m && (eqUpToEffects a b && eqUpToEffectsFields as bs)
  | _, _ => false

def eqUpToEffectsCases : Cases → Cases → Bool
  | [], [] => true
  | (n, none) :: as, (m, none) :: bs => n == m && eqUpToEffectsCases as bs
  | (n, some a) :: as, (m, some b) :: bs =>
      n == m && (eqUpToEffects a b && eqUpToEffectsCases as bs)
  | _, _ => false

end

/-- The two types are the same up to the order of record fields (row tails flattened) and of
variant constructors, and up to compatible effect rows. -/
def same (t1 t2 : Ty) : Bool := eqUpToEffects (canon t1) (canon t2)

end Ty

end Nulang

import Mathlib.Data.Finset.Basic
import Mathlib.Data.String.Basic

/-!
# The type language (`types.rs`)

`Ty` is the compiler's `Type`: inference variables, primitives, structural types, functions with
an effect row and a capability, actors, type application, references, schemes, opaque nominals and
skolems. Rows of an open record are carried by the reserved field name `".."`, exactly as in the
source, so a record with a tail is an ordinary field list and nothing in this file knows about it.

Two readings of "the variables of a type" live here. `Ty.collectFreeVars` is the source's: it
walks with one accumulator, so a scheme *also* deletes its bound variables from what was collected
before it, and it skips a nominal nested in one of the same name. `Ty.fv` is the honest one. The
unifier's hash shortcut asks the first, every statement about substitutions is about the second.
-/

set_option autoImplicit false

namespace Nulang

open List

/-- A type variable; the source's counter hands them out from 1 (`TypeVar::fresh`). -/
abbrev TypeVar := Nat

/-- A row variable of an effect row (`Region`). -/
abbrev Region := Nat

inductive PrimitiveType where
  | int | float | bool | string | nil | unit | never | address
deriving DecidableEq

inductive Capability where
  | linearIso | linear | iso | trn | ref | val | box | tag
deriving DecidableEq

/-- `Display for Capability`. -/
def Capability.display : Capability → String
  | .linearIso => "lineariso"
  | .linear => "linear"
  | .iso => "iso"
  | .trn => "trn"
  | .ref => "ref"
  | .val => "val"
  | .box => "box"
  | .tag => "tag"

inductive Effect where
  | io | net | string | fs | rand | time | spawn | send | receive | migrate | stm | async
  | inference | cost | event | array | ffi | test | db | python | env | process | system
  | render | request | respond | realtime | client | web
  | userDefined (name : String)
deriving DecidableEq

/-- `Display for Effect`. -/
def Effect.display : Effect → String
  | .io => "IO" | .net => "Net" | .string => "String" | .fs => "FS" | .rand => "Rand"
  | .time => "Time" | .spawn => "Spawn" | .send => "Send" | .receive => "Receive"
  | .migrate => "Migrate" | .stm => "STM" | .async => "Async" | .inference => "Inference"
  | .cost => "Cost" | .event => "Event" | .array => "Array" | .ffi => "FFI" | .test => "Test"
  | .db => "DB" | .python => "Python" | .env => "Env" | .process => "Process"
  | .system => "System" | .render => "Render" | .request => "Request" | .respond => "Respond"
  | .realtime => "Realtime" | .client => "Client" | .web => "Web"
  | .userDefined name => name

/-- An effect row: a fixed list, or a list with a row variable. -/
inductive EffectRow where
  | closed (effects : List Effect)
  | open (effects : List Effect) (region : Region)
deriving DecidableEq

namespace EffectRow

def empty : EffectRow := .closed []

/-- `Display for EffectRow`. -/
def display : EffectRow → String
  | .closed es => "\x7b" ++ ", ".intercalate (es.map Effect.display) ++ "\x7d"
  | .open es _ =>
      "\x7b" ++ ", ".intercalate (es.map Effect.display) ++ (if es.isEmpty then "" else ", ")
        ++ "..\x7d"

end EffectRow

/-- The compiler's `Type`. -/
inductive Ty where
  | var (v : TypeVar)
  | primitive (p : PrimitiveType)
  | tuple (ts : List Ty)
  | record (fs : List (String × Ty))
  | variant (vs : List (String × Option Ty))
  | array (t : Ty)
  | function (param ret : Ty) (effect : EffectRow) (cap : Capability)
  | actor (state behavior : Ty)
  | app (constructor : Ty) (args : List Ty)
  | reference (cap : Capability) (inner : Ty)
  | scheme (vars : List TypeVar) (body : Ty)
  | nominal (name : String) (underlying : Ty)
  | skolem (id : Nat)

abbrev Fields := List (String × Ty)

abbrev Cases := List (String × Option Ty)

namespace Ty

/-! ## Decidable equality

`derive` does not reach through the nested lists, so `beq` is written out and proved lawful. -/

mutual

def beq : Ty → Ty → Bool
  | .var a, .var b => a == b
  | .primitive a, .primitive b => a == b
  | .tuple as, .tuple bs => beqList as bs
  | .record as, .record bs => beqFields as bs
  | .variant as, .variant bs => beqCases as bs
  | .array a, .array b => beq a b
  | .function p r e c, .function p' r' e' c' => beq p p' && (beq r r' && (e == e' && c == c'))
  | .actor s b, .actor s' b' => beq s s' && beq b b'
  | .app c as, .app c' as' => beq c c' && beqList as as'
  | .reference c t, .reference c' t' => c == c' && beq t t'
  | .scheme vs t, .scheme vs' t' => vs == vs' && beq t t'
  | .nominal n t, .nominal n' t' => n == n' && beq t t'
  | .skolem a, .skolem b => a == b
  | _, _ => false

def beqList : List Ty → List Ty → Bool
  | [], [] => true
  | a :: as, b :: bs => beq a b && beqList as bs
  | _, _ => false

def beqFields : Fields → Fields → Bool
  | [], [] => true
  | (n, a) :: as, (m, b) :: bs => n == m && (beq a b && beqFields as bs)
  | _, _ => false

def beqCases : Cases → Cases → Bool
  | [], [] => true
  | (n, none) :: as, (m, none) :: bs => n == m && beqCases as bs
  | (n, some a) :: as, (m, some b) :: bs => n == m && (beq a b && beqCases as bs)
  | _, _ => false

end

mutual

theorem beq_iff : ∀ a b : Ty, beq a b = true ↔ a = b
  | .var _, b => by cases b <;> simp [beq]
  | .primitive _, b => by cases b <;> simp [beq]
  | .tuple as, b => by cases b <;> simp [beq, beqList_iff as]
  | .record as, b => by cases b <;> simp [beq, beqFields_iff as]
  | .variant as, b => by cases b <;> simp [beq, beqCases_iff as]
  | .array a, b => by cases b <;> simp [beq, beq_iff a]
  | .function p r _ _, b => by cases b <;> simp [beq, beq_iff p, beq_iff r]
  | .actor s t, b => by cases b <;> simp [beq, beq_iff s, beq_iff t]
  | .app c as, b => by cases b <;> simp [beq, beq_iff c, beqList_iff as]
  | .reference _ t, b => by cases b <;> simp [beq, beq_iff t]
  | .scheme _ t, b => by cases b <;> simp [beq, beq_iff t]
  | .nominal _ t, b => by cases b <;> simp [beq, beq_iff t]
  | .skolem _, b => by cases b <;> simp [beq]

theorem beqList_iff : ∀ as bs : List Ty, beqList as bs = true ↔ as = bs
  | [], bs => by cases bs <;> simp [beqList]
  | a :: as, bs => by cases bs <;> simp [beqList, beq_iff a, beqList_iff as]

theorem beqFields_iff : ∀ as bs : Fields, beqFields as bs = true ↔ as = bs
  | [], bs => by cases bs <;> simp [beqFields]
  | (n, a) :: as, bs => by
    cases bs with
    | nil => simp [beqFields]
    | cons p bs => obtain ⟨m, b⟩ := p; simp [beqFields, beq_iff a, beqFields_iff as, and_assoc]

theorem beqCases_iff : ∀ as bs : Cases, beqCases as bs = true ↔ as = bs
  | [], bs => by cases bs <;> simp [beqCases]
  | (n, none) :: as, bs => by
    cases bs with
    | nil => simp [beqCases]
    | cons p bs => obtain ⟨m, _ | b⟩ := p <;> simp [beqCases, beqCases_iff as]
  | (n, some a) :: as, bs => by
    cases bs with
    | nil => simp [beqCases]
    | cons p bs =>
      obtain ⟨m, _ | b⟩ := p <;> simp [beqCases, beq_iff a, beqCases_iff as, and_assoc]

end

instance : DecidableEq Ty := fun a b => decidable_of_iff _ (beq_iff a b)

/-! ## Common types and the reserved names -/

def int : Ty := .primitive .int
def unit : Ty := .primitive .unit

/-- `RECORD_ROW_TAIL_FIELD`: the pseudo-field that carries the row tail of an open record. -/
def recordRowTailField : String := ".."

/-- `ACTOR_REF_TYPE_NAME`. -/
def actorRefTypeName : String := "ActorRef"

/-- `Type::record_open`: the given fields and a row variable. -/
def recordOpen (fields : Fields) (row : TypeVar) : Ty :=
  .record (fields ++ [(recordRowTailField, .var row)])

/-- `Type::actor_ref_protocol`: the protocol `P` of `ActorRef[P]`. -/
def actorRefProtocol : Ty → Option Ty
  | .app (.nominal name _) [p] => if name = actorRefTypeName then some p else none
  | _ => none

def isNominal : Ty → Bool
  | .nominal .. => true
  | _ => false

mutual

/-- `Display for Type`. Variables print as `'_`, so that an error never shows internal ids. -/
def display : Ty → String
  | .var _ => "'_"
  | .primitive .int => "Int"
  | .primitive .float => "Float"
  | .primitive .bool => "Bool"
  | .primitive .string => "String"
  | .primitive .unit => "Unit"
  | .primitive .nil => "Nil"
  | .primitive .never => "Never"
  | .primitive .address => "Address"
  | .tuple ts => "(" ++ ", ".intercalate (displayList ts) ++ ")"
  | .record fs => "\x7b " ++ ", ".intercalate (displayFields fs) ++ " \x7d"
  | .variant vs => " | ".intercalate (displayCases vs)
  | .array t => "[" ++ display t ++ "]"
  | .function p r _ _ => display p ++ " -> " ++ display r
  | .actor s b => "Actor[" ++ display s ++ ", " ++ display b ++ "]"
  | .app c as =>
      display c ++ (if as.isEmpty then "" else "[" ++ ", ".intercalate (displayList as) ++ "]")
  | .reference c t => "&" ++ c.display ++ " " ++ display t
  | .scheme vs t =>
    "forall " ++ ", ".intercalate (vs.map fun v => "'t" ++ toString v) ++ ". " ++ display t
  | .nominal name _ => name
  | .skolem id => "'t" ++ toString id

def displayList : List Ty → List String
  | [] => []
  | t :: ts => display t :: displayList ts

def displayFields : Fields → List String
  | [] => []
  | (n, t) :: fs => (n ++ ": " ++ display t) :: displayFields fs

def displayCases : Cases → List String
  | [] => []
  | (n, some t) :: vs => (n ++ " " ++ display t) :: displayCases vs
  | (n, none) :: vs => n :: displayCases vs

end

mutual

/-- `Type::collect_free_vars`: one accumulator for the whole walk, and the stack of the nominals
being expanded. -/
def collectFreeVars : Ty → List String → List TypeVar → List TypeVar
  | .var v, _, acc => acc ++ [v]
  | .primitive _, _, acc => acc
  | .tuple ts, stack, acc => collectFreeVarsList ts stack acc
  | .record fs, stack, acc => collectFreeVarsFields fs stack acc
  | .variant vs, stack, acc => collectFreeVarsCases vs stack acc
  | .array t, stack, acc => collectFreeVars t stack acc
  | .function p r _ _, stack, acc => collectFreeVars r stack (collectFreeVars p stack acc)
  | .actor s b, stack, acc => collectFreeVars b stack (collectFreeVars s stack acc)
  | .app c as, stack, acc => collectFreeVarsList as stack (collectFreeVars c stack acc)
  | .reference _ t, stack, acc => collectFreeVars t stack acc
  -- `retain` runs over everything collected so far, not only over the body's variables.
  | .scheme vs t, stack, acc => (collectFreeVars t stack acc).filter (fun v => !vs.contains v)
  | .nominal name t, stack, acc =>
      if stack.contains name then acc else collectFreeVars t (name :: stack) acc
  | .skolem _, _, acc => acc

def collectFreeVarsList : List Ty → List String → List TypeVar → List TypeVar
  | [], _, acc => acc
  | t :: ts, stack, acc => collectFreeVarsList ts stack (collectFreeVars t stack acc)

def collectFreeVarsFields : Fields → List String → List TypeVar → List TypeVar
  | [], _, acc => acc
  | (_, t) :: fs, stack, acc => collectFreeVarsFields fs stack (collectFreeVars t stack acc)

def collectFreeVarsCases : Cases → List String → List TypeVar → List TypeVar
  | [], _, acc => acc
  | (_, none) :: vs, stack, acc => collectFreeVarsCases vs stack acc
  | (_, some t) :: vs, stack, acc => collectFreeVarsCases vs stack (collectFreeVars t stack acc)

end

/-- `Type::is_ground`. -/
def isGround (t : Ty) : Bool := (collectFreeVars t [] []).isEmpty

mutual

def fv : Ty → Finset TypeVar
  | .var v => {v}
  | .primitive _ => ∅
  | .tuple ts => fvList ts
  | .record fs => fvFields fs
  | .variant vs => fvCases vs
  | .array t => fv t
  | .function p r _ _ => fv p ∪ fv r
  | .actor s b => fv s ∪ fv b
  | .app c as => fv c ∪ fvList as
  | .reference _ t => fv t
  | .scheme vs t => fv t \ vs.toFinset
  | .nominal _ t => fv t
  | .skolem _ => ∅

def fvList : List Ty → Finset TypeVar
  | [] => ∅
  | t :: ts => fv t ∪ fvList ts

def fvFields : Fields → Finset TypeVar
  | [] => ∅
  | (_, t) :: fs => fv t ∪ fvFields fs

def fvCases : Cases → Finset TypeVar
  | [] => ∅
  | (_, none) :: vs => fvCases vs
  | (_, some t) :: vs => fv t ∪ fvCases vs

end

mutual

def size : Ty → Nat
  | .var _ => 1
  | .primitive _ => 1
  | .tuple ts => 1 + sizeList ts
  | .record fs => 1 + sizeFields fs
  | .variant vs => 1 + sizeCases vs
  | .array t => 1 + size t
  | .function p r _ _ => 1 + size p + size r
  | .actor s b => 1 + size s + size b
  | .app c as => 1 + size c + sizeList as
  | .reference _ t => 1 + size t
  | .scheme _ t => 1 + size t
  | .nominal _ t => 1 + size t
  | .skolem _ => 1

def sizeList : List Ty → Nat
  | [] => 0
  | t :: ts => size t + sizeList ts

def sizeFields : Fields → Nat
  | [] => 0
  | (_, t) :: fs => size t + sizeFields fs

def sizeCases : Cases → Nat
  | [] => 0
  | (_, none) :: vs => sizeCases vs
  | (_, some t) :: vs => size t + sizeCases vs

end

/-! ## Induction on types

The eliminator Lean derives talks about lists of types through motives of their own. This one asks
for the members instead, and the lemmas below give every list function its reading by members. -/

@[induction_eliminator]
theorem ind {P : Ty → Prop} (var : ∀ v, P (.var v)) (primitive : ∀ p, P (.primitive p))
    (tuple : ∀ ts, (∀ t ∈ ts, P t) → P (.tuple ts))
    (record : ∀ fs, (∀ f ∈ fs, P f.2) → P (.record fs))
    (variant : ∀ vs, (∀ c ∈ vs, ∀ t ∈ c.2, P t) → P (.variant vs)) (array : ∀ t, P t → P (.array t))
    (function : ∀ p r e c, P p → P r → P (.function p r e c))
    (actor : ∀ s b, P s → P b → P (.actor s b))
    (app : ∀ c as, P c → (∀ t ∈ as, P t) → P (.app c as))
    (reference : ∀ c t, P t → P (.reference c t)) (scheme : ∀ vs t, P t → P (.scheme vs t))
    (nominal : ∀ n t, P t → P (.nominal n t)) (skolem : ∀ id, P (.skolem id)) (t : Ty) : P t :=
  @Ty.rec P (fun ts => ∀ t ∈ ts, P t) (fun fs => ∀ f ∈ fs, P f.2)
    (fun vs => ∀ c ∈ vs, ∀ t ∈ c.2, P t) (fun f => P f.2) (fun c => ∀ t ∈ c.2, P t)
    (fun o => ∀ t ∈ o, P t)
    var primitive tuple record variant array
    (fun p r e c hp hr => function p r e c hp hr) actor app reference scheme nominal skolem
    (forall_mem_nil _) (fun _ _ ht hts => forall_mem_cons.mpr ⟨ht, hts⟩)
    (forall_mem_nil _) (fun _ _ hf hfs => forall_mem_cons.mpr ⟨hf, hfs⟩)
    (forall_mem_nil _) (fun _ _ hc hvs => forall_mem_cons.mpr ⟨hc, hvs⟩)
    (fun _ _ ht => ht) (fun _ _ ho => ho) (fun _ h => nomatch h)
    (fun _ ht _ h => Option.some.inj h ▸ ht) t

theorem mem_fvList {w : TypeVar} {ts : List Ty} : w ∈ fvList ts ↔ ∃ t ∈ ts, w ∈ t.fv := by
  induction ts with
  | nil => simp [fvList]
  | cons t ts ih => simp [fvList, ih]

theorem mem_fvFields {w : TypeVar} {fs : Fields} : w ∈ fvFields fs ↔ ∃ f ∈ fs, w ∈ f.2.fv := by
  induction fs with
  | nil => simp [fvFields]
  | cons f fs ih => simp [fvFields, ih]

theorem mem_fvCases {w : TypeVar} {vs : Cases} :
    w ∈ fvCases vs ↔ ∃ c ∈ vs, ∃ t ∈ c.2, w ∈ t.fv := by
  induction vs with
  | nil => simp [fvCases]
  | cons c vs ih => obtain ⟨n, _ | t⟩ := c <;> simp [fvCases, ih]

theorem size_le_sizeList {t : Ty} {ts : List Ty} (h : t ∈ ts) : t.size ≤ sizeList ts := by
  induction ts with
  | nil => simp at h
  | cons u ts ih =>
    rcases mem_cons.mp h with rfl | h
    · simp [sizeList]
    · simp only [sizeList]
      have := ih h
      omega

theorem size_le_sizeFields {f : String × Ty} {fs : Fields} (h : f ∈ fs) :
    f.2.size ≤ sizeFields fs := by
  induction fs with
  | nil => simp at h
  | cons g fs ih =>
    rcases mem_cons.mp h with rfl | h
    · simp [sizeFields]
    · simp only [sizeFields]
      have := ih h
      omega

theorem size_le_sizeCases {c : String × Option Ty} {vs : Cases} (h : c ∈ vs) {t : Ty}
    (ht : t ∈ c.2) : t.size ≤ sizeCases vs := by
  induction vs with
  | nil => simp at h
  | cons d vs ih =>
    rcases mem_cons.mp h with rfl | h
    · obtain ⟨n, _ | u⟩ := c
      · simp at ht
      · simp only [Option.mem_def, Option.some.injEq] at ht
        simp [sizeCases, ht]
    · have := ih h
      obtain ⟨n, _ | u⟩ := d
      · simpa [sizeCases] using this
      · simp only [sizeCases]
        omega

end Ty

end Nulang

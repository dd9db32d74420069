import Nulang.Types
import Nulang.Lib.SortByKey

/-!
# NTIR, the hashing form of a type (`type_ir.rs`, `Type::to_ntir`)

The unifier compares two ground types by the hash of this form before it looks at their shapes.
The translation forgets a great deal: variables and skolems become `Unit`, effect rows and nominal
names disappear, an array is a one-element tuple, and the serialiser maps `Nil`, `Never` and
`Address` to the byte of `Unit` and two pairs of capabilities to one byte each.

The hash itself is the `blake3` crate's. It is the one function of this development that is not
under the source tree, so it stays a parameter: a class with no laws.
-/

set_option autoImplicit false

namespace Nulang

open SortByKey

inductive NtirNode where
  | primitive (p : PrimitiveType)
  | capability (cap : Capability) (inner : NtirNode)
  | record (fields : List (String × NtirNode))
  | tuple (elems : List NtirNode)
  | variant (tags : List (String × NtirNode))
  | cycle (dist : Nat)

namespace Ty

mutual

/-- `Type::to_ntir_with_stack`. Only a variable is ever pushed on the stack and a variable has no
children, so every recursive call sees the stack it was given. -/
def toNtirWithStack (stack : List TypeVar) : Ty → NtirNode
  | .var v =>
      match stack.reverse.findIdx? (· == v) with
      | some pos => .cycle pos
      | none => .primitive .unit
  | .primitive p => .primitive p
  | .tuple ts => .tuple (toNtirList stack ts)
  | .record fs => .record (sortByKey (toNtirFields stack fs))
  | .variant vs => .variant (sortByKey (toNtirCases stack vs))
  | .array t => .tuple [toNtirWithStack stack t]
  | .function p r _ c =>
      .capability c (.tuple [toNtirWithStack stack p, toNtirWithStack stack r])
  | .actor s b => .tuple [toNtirWithStack stack s, toNtirWithStack stack b]
  | .app c as => .tuple (toNtirWithStack stack c :: toNtirList stack as)
  | .reference c t => .capability c (toNtirWithStack stack t)
  | .scheme _ t => toNtirWithStack stack t
  | .nominal _ t => toNtirWithStack stack t
  | .skolem _ => .primitive .unit

def toNtirList (stack : List TypeVar) : List Ty → List NtirNode
  | [] => []
  | t :: ts => toNtirWithStack stack t :: toNtirList stack ts

def toNtirFields (stack : List TypeVar) : Fields → List (String × NtirNode)
  | [] => []
  | (n, t) :: fs => (n, toNtirWithStack stack t) :: toNtirFields stack fs

def toNtirCases (stack : List TypeVar) : Cases → List (String × NtirNode)
  | [] => []
  | (n, some t) :: vs => (n, toNtirWithStack stack t) :: toNtirCases stack vs
  | (n, none) :: vs => (n, .primitive .unit) :: toNtirCases stack vs

end

/-- `Type::to_ntir`. -/
def toNtir (t : Ty) : NtirNode := toNtirWithStack [] t

end Ty

/-- `write_leb128` on a `u64`: ten groups of seven bits are enough. -/
def writeLeb128 : (groups : Nat) → Nat → List UInt8
  | 0, _ => []
  | groups + 1, val =>
      let rest := val / 128
      if rest = 0 then [UInt8.ofNat (val % 128)]
      else UInt8.ofNat (val % 128 + 128) :: writeLeb128 groups rest

/-- A name as the serialiser writes it: its length in bytes, then the bytes. -/
def writeName (name : String) : List UInt8 :=
  writeLeb128 10 name.utf8ByteSize ++ name.toUTF8.toList

namespace NtirNode

def primitiveOp : PrimitiveType → UInt8
  | .unit => 0x01
  | .bool => 0x02
  | .int => 0x03
  | .float => 0x04
  | .string => 0x05
  -- Never, Address, Nil mapping
  | .never | .address | .nil => 0x01

def capabilityOp : Capability → UInt8
  | .iso | .linearIso => 0x10
  | .trn => 0x11
  | .ref => 0x12
  | .val | .linear => 0x13
  | .box => 0x14
  | .tag => 0x15

mutual

/-- `NtirNode::serialize_into`, as the bytes it feeds to the hasher. -/
def serializeInto : NtirNode → List UInt8
  | .primitive p => [primitiveOp p]
  | .capability c n => capabilityOp c :: serializeInto n
  | .record fs => 0x20 :: (writeLeb128 10 fs.length ++ serializeNamed fs)
  | .tuple es => 0x21 :: (writeLeb128 10 es.length ++ serializeList es)
  | .variant vs => 0x22 :: (writeLeb128 10 vs.length ++ serializeNamed vs)
  | .cycle dist => 0x30 :: writeLeb128 10 dist

def serializeList : List NtirNode → List UInt8
  | [] => []
  | n :: ns => serializeInto n ++ serializeList ns

def serializeNamed : List (String × NtirNode) → List UInt8
  | [] => []
  | (name, n) :: ns => writeName name ++ (serializeInto n ++ serializeNamed ns)

end

end NtirNode

/-- The `blake3` digest of a byte string. -/
class Blake3 where
  digest : List UInt8 → List UInt8

/-- `NtirNode::hash`: magic bytes, version, then the node. -/
def NtirNode.hash [Blake3] (n : NtirNode) : List UInt8 :=
  Blake3.digest ([0x4e, 0x54, 0x49, 0x52] ++ [0x00, 0x01] ++ n.serializeInto)

/-- The unifier's shortcut: both types ground, neither an opaque nominal, equal hashes. -/
def ntirShortcut [Blake3] (t1 t2 : Ty) : Bool :=
  !t1.isNominal && !t2.isNominal && t1.isGround && t2.isGround
    && t1.toNtir.hash == t2.toNtir.hash

end Nulang

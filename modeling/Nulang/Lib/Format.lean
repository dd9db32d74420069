import Mathlib.Tactic.Common

/-!
# Formats that are read back

A format writes values as bytes and reads them from the front of a byte string, whatever follows.
Formats of pairs, lists and options are made from those of their parts.

That a format is read back is a field of it, so a format that cannot be read back is not built.
-/

set_option autoImplicit false

structure Format (α : Type) where
  put : α → List UInt8
  get : List UInt8 → Option (α × List UInt8)
  get_put : ∀ a rest, get (put a ++ rest) = some (a, rest)

namespace Format

open List Option

variable {α β : Type}

def byte : Format UInt8 where
  put b := [b]
  get
    | [] => none
    | b :: rest => some (b, rest)
  get_put _ _ := rfl

def getNat : List UInt8 → Option (Nat × List UInt8)
  | [] => none
  | b :: rest => if b = 0 then some (0, rest) else (getNat rest).map fun p => (p.1 + 1, p.2)

def nat : Format Nat where
  put n := replicate n 1 ++ [0]
  get := getNat
  get_put n rest := by
    induction n with
    | zero => rfl
    | succ n ih =>
      rw [replicate_succ, cons_append, cons_append, getNat, if_neg (by decide), ih]
      rfl

def pair (f : Format α) (g : Format β) : Format (α × β) where
  put p := f.put p.1 ++ g.put p.2
  get bytes := (f.get bytes).bind fun a => (g.get a.2).map fun b => ((a.1, b.1), b.2)
  get_put p rest := by
    rw [append_assoc, f.get_put]
    dsimp only [bind_some]
    rw [g.get_put]
    rfl

/-- The values that can be made from those of a format. -/
def map (f : Format α) (make : α → β) (parts : β → α) (h : ∀ b, make (parts b) = b) : Format β where
  put b := f.put (parts b)
  get bytes := (f.get bytes).map fun a => (make a.1, a.2)
  get_put b rest := by
    rw [f.get_put, map_some, h]

def getMany (f : Format α) : Nat → List UInt8 → Option (List α × List UInt8)
  | 0, bytes => some ([], bytes)
  | n + 1, bytes => (f.get bytes).bind fun a => (getMany f n a.2).map fun as => (a.1 :: as.1, as.2)

theorem getMany_flatMap (f : Format α) (as : List α) (rest : List UInt8) :
    getMany f as.length (as.flatMap f.put ++ rest) = some (as, rest) := by
  induction as with
  | nil => rfl
  | cons a as ih =>
    rw [flatMap_cons, append_assoc, length_cons, getMany, f.get_put]
    dsimp only [bind_some]
    rw [ih]
    rfl

def list (f : Format α) : Format (List α) where
  put as := nat.put as.length ++ as.flatMap f.put
  get bytes := (nat.get bytes).bind fun n => getMany f n.1 n.2
  get_put as rest := by
    rw [append_assoc, nat.get_put]
    exact getMany_flatMap f as rest

def option (f : Format α) : Format (Option α) := f.list.map head? toList fun o => by
  cases o with
  | none => rfl
  | some a => rfl

def parse (f : Format α) (bytes : List UInt8) : Except String α :=
  match f.get bytes with
  | some (a, []) => .ok a
  | some (_, _ :: _) => .error "trailing characters"
  | none => .error "unexpected end of input"

theorem parse_put (f : Format α) (a : α) : f.parse (f.put a) = .ok a := by
  have h := f.get_put a []
  rw [append_nil] at h
  rw [parse, h]

end Format

import Mathlib.Data.List.Forall2
import Mathlib.Algebra.Order.Group.Nat

/-!
# Self-delimiting encodings

An encoding is *delimited* on a set of values when nothing that follows can be mistaken for a part
of it: two encodings with something appended agree only if the values do and what follows does. Such
encodings can be put one after the other. Fixed-width numbers, length-prefixed byte strings and
counted lists of delimited encodings are delimited.
-/

set_option autoImplicit false

namespace Encoding

open List

variable {α β γ : Type*}

/-- The `width` low bytes of a number, least significant first. -/
def le : (width : Nat) → Nat → List UInt8
  | 0, _ => []
  | width + 1, n => UInt8.ofNat (n % 256) :: le width (n / 256)

variable (width : Nat)

@[simp] theorem length_le (n : Nat) : (le width n).length = width := by
  induction width generalizing n with
  | zero => rfl
  | succ width ih => simp [le, ih]

/-- The number with these bytes, least significant first. -/
def ofLe : List UInt8 → Nat
  | [] => 0
  | b :: bs => b.toNat + 256 * ofLe bs

theorem ofLe_le {width n : Nat} (h : n < 256 ^ width) : ofLe (le width n) = n := by
  induction width generalizing n with
  | zero =>
    rw [pow_zero] at h
    simp only [le, ofLe]
    omega
  | succ width ih =>
    rw [pow_succ] at h
    have hdiv : n / 256 < 256 ^ width := Nat.div_lt_of_lt_mul (by rwa [Nat.mul_comm])
    have hlow : (UInt8.ofNat (n % 256)).toNat = n % 256 := by simp [UInt8.toNat_ofNat']
    rw [le, ofLe, ih hdiv, hlow]
    omega

theorem le_inj {width m n : Nat} (hm : m < 256 ^ width) (hn : n < 256 ^ width)
    (h : le width m = le width n) : m = n := by
  rw [← ofLe_le hm, h, ofLe_le hn]

/-- Encodings put one after the other, each of which determines its value up to `R` and where it
ends. -/
theorem forall₂_of_flatMap {P : α → Prop} {R : α → α → Prop} {enc : α → List β} {as bs : List α}
    {r s : List β} (h : ∀ a ∈ as, ∀ ⦃b r s⦄, P a → P b → enc a ++ r = enc b ++ s → R a b ∧ r = s)
    (ha : ∀ a ∈ as, P a) (hb : ∀ b ∈ bs, P b) (hlen : as.length = bs.length)
    (heq : as.flatMap enc ++ r = bs.flatMap enc ++ s) :
    Forall₂ R as bs ∧ r = s := by
  induction as generalizing bs with
  | nil =>
    obtain rfl : bs = [] := length_eq_zero_iff.mp hlen.symm
    exact ⟨.nil, heq⟩
  | cons a as ih =>
    cases bs with
    | nil => cases hlen
    | cons b bs =>
      rw [forall_mem_cons] at h ha hb
      simp only [flatMap_cons, append_assoc] at heq
      obtain ⟨hab, heq⟩ := h.1 ha.1 hb.1 heq
      obtain ⟨htails, hrs⟩ := ih h.2 ha.2 hb.2 (Nat.succ.inj hlen) heq
      exact ⟨.cons hab htails, hrs⟩

/-- On values with `P`, an encoding determines the value and where it ends. -/
def Delimited (P : α → Prop) (enc : α → List β) : Prop :=
  ∀ ⦃a b : α⦄ ⦃r s : List β⦄, P a → P b → enc a ++ r = enc b ++ s → a = b ∧ r = s

namespace Delimited

variable {P Q : α → Prop} {enc : α → List β}

/-- Encodings of one length are delimited as soon as they are injective. -/
theorem of_length {n : Nat} (hlen : ∀ a, P a → (enc a).length = n)
    (hinj : ∀ a b, P a → P b → enc a = enc b → a = b) : Delimited P enc := by
  intro a b r s ha hb heq
  obtain ⟨h, hrs⟩ := append_inj heq ((hlen a ha).trans (hlen b hb).symm)
  exact ⟨hinj a b ha hb h, hrs⟩

theorem flatMap (h : Delimited P enc) {as bs : List α} {r s : List β} (ha : ∀ a ∈ as, P a)
    (hb : ∀ b ∈ bs, P b) (hlen : as.length = bs.length)
    (heq : as.flatMap enc ++ r = bs.flatMap enc ++ s) : as = bs ∧ r = s := by
  rw [← forall₂_eq_eq_eq]
  exact forall₂_of_flatMap (fun a _ => @h a) ha hb hlen heq

end Delimited

theorem delimited_le : Delimited (· < 256 ^ width) (le width) :=
  .of_length (fun a _ => length_le width a) fun _ _ ha hb h => le_inj ha hb h

/-- A number, a byte string of that length. -/
def sized (width : Nat) (bytes : List UInt8) : List UInt8 := le width bytes.length ++ bytes

theorem delimited_sized : Delimited (fun bytes => bytes.length < 256 ^ width) (sized width) := by
  intro a b r s ha hb heq
  simp only [sized, append_assoc] at heq
  obtain ⟨hlen, heq⟩ := delimited_le width ha hb heq
  exact append_inj heq hlen

def utf8 (s : String) : List UInt8 := s.toUTF8.data.toList

theorem utf8_inj {s t : String} (h : utf8 s = utf8 t) : s = t :=
  String.toByteArray_inj.mp (ByteArray.ext (Array.toList_inj.mp h))

def str (width : Nat) (s : String) : List UInt8 := sized width (utf8 s)

theorem delimited_str : Delimited (fun s : String => s.utf8ByteSize < 256 ^ width) (str width) := by
  intro s t r r' hs ht heq
  obtain ⟨hst, hr⟩ := delimited_sized width hs ht heq
  exact ⟨utf8_inj hst, hr⟩

end Encoding

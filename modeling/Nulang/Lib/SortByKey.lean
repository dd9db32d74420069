import Mathlib.Data.List.Sort

/-!
# Stable sorting of association lists

`sortByKey` sorts a list of key/value pairs by key and leaves pairs with equal keys in the order
they came in. Two facts carry every use of it: sorting is a left fold of insertions, so a list
that is appended may be sorted first (`sortByKey_append_sort`), and insertions at different keys
commute, so a list without repeated keys may be permuted first (`sortByKey_append_perm`). The file
starts with what looking a key up means.
-/

set_option autoImplicit false

namespace SortByKey

open List

section Lookup

variable {κ α : Type*} [BEq κ] [LawfulBEq κ] {l : List (κ × α)} {k : κ} {a : α}

theorem mem_of_lookup (h : l.lookup k = some a) : (k, a) ∈ l := by
  obtain ⟨l₁, l₂, rfl, -⟩ := lookup_eq_some_iff.mp h
  simp

theorem lookup_eq_none : l.lookup k = none ↔ k ∉ l.map Prod.fst := by
  rw [lookup_eq_none_iff, mem_map]
  constructor
  · rintro h ⟨p, hp, rfl⟩
    exact absurd (h p hp) (by simp)
  · intro h p hp
    exact bne_iff_ne.mpr fun hk => h ⟨p, hp, hk.symm⟩

theorem lookup_of_mem (hl : (l.map Prod.fst).Nodup) (h : (k, a) ∈ l) : l.lookup k = some a := by
  cases hb : l.lookup k with
  | none => exact absurd (mem_map_of_mem (f := Prod.fst) h) (lookup_eq_none.mp hb)
  | some b =>
    have hba : (k, b) = (k, a) := inj_on_of_nodup_map hl (mem_of_lookup hb) h rfl
    rw [(Prod.mk.inj hba).2]

end Lookup

variable {κ α β : Type*} [LinearOrder κ]

/-- Insert one pair in front of the first pair whose key is not smaller. -/
abbrev insertByKey (p : κ × α) (l : List (κ × α)) : List (κ × α) :=
  l.orderedInsert (fun a b => a.1 ≤ b.1) p

def sortByKey (l : List (κ × α)) : List (κ × α) :=
  l.insertionSort (fun a b => a.1 ≤ b.1)

theorem sortByKey_cons (p : κ × α) (l : List (κ × α)) :
    sortByKey (p :: l) = insertByKey p (sortByKey l) := rfl

theorem sortByKey_append (l m : List (κ × α)) :
    sortByKey (l ++ m) = l.foldr insertByKey (sortByKey m) := by
  induction l with
  | nil => rfl
  | cons p l ih => rw [cons_append, sortByKey_cons, ih, foldr_cons]

theorem sortByKey_perm (l : List (κ × α)) : (sortByKey l).Perm l := perm_insertionSort _ l

variable {l : List (κ × α)} {p q : κ × α} {R : α → β → Prop}

@[simp] theorem mem_sortByKey : p ∈ sortByKey l ↔ p ∈ l := (sortByKey_perm l).mem_iff

@[simp] theorem length_sortByKey : (sortByKey l).length = l.length := (sortByKey_perm l).length_eq

theorem sortByKey_pairwise : (sortByKey l).Pairwise (fun a b => a.1 ≤ b.1) := by
  have : Std.Total (fun a b : κ × α => a.1 ≤ b.1) := ⟨fun a b => le_total a.1 b.1⟩
  have : IsTrans (κ × α) (fun a b => a.1 ≤ b.1) := ⟨fun _ _ _ h₁ h₂ => le_trans h₁ h₂⟩
  exact pairwise_insertionSort _ l

@[simp] theorem sortByKey_sortByKey : sortByKey (sortByKey l) = sortByKey l :=
  (sortByKey_pairwise).insertionSort_eq

/-- The appended part may be sorted first. -/
@[simp] theorem sortByKey_append_sort (m : List (κ × α)) :
    sortByKey (l ++ sortByKey m) = sortByKey (l ++ m) := by
  rw [sortByKey_append, sortByKey_append, sortByKey_sortByKey]

/-- Sorting looks at keys only, so it commutes with a map of the values. -/
theorem sortByKey_map (f : α → β) :
    sortByKey (l.map (Prod.map id f)) = (sortByKey l).map (Prod.map id f) := by
  refine (map_insertionSort (fun a b => a.1 ≤ b.1) (fun a b => a.1 ≤ b.1) (Prod.map id f) l ?_).symm
  intro a _ b _
  rfl

theorem insertByKey_comm_of_lt (h : p.1 < q.1) :
    insertByKey p (insertByKey q l) = insertByKey q (insertByKey p l) := by
  induction l with
  | nil => simp [orderedInsert, h.le, not_le.mpr h]
  | cons c l ih =>
    by_cases hq : q.1 ≤ c.1
    · have hp : p.1 ≤ c.1 := h.le.trans hq
      simp [orderedInsert, hp, hq, h.le, not_le.mpr h]
    · by_cases hp : p.1 ≤ c.1
      · simp [orderedInsert, hp, hq, not_le.mpr h]
      · simpa [orderedInsert, hp, hq] using ih

theorem insertByKey_comm (hpq : p.1 ≠ q.1) :
    insertByKey p (insertByKey q l) = insertByKey q (insertByKey p l) := by
  rcases lt_or_gt_of_ne hpq with h | h
  · exact insertByKey_comm_of_lt h
  · exact (insertByKey_comm_of_lt h).symm

/-- A list without repeated keys may be permuted before it is sorted, whatever is appended. -/
theorem sortByKey_append_perm {l' : List (κ × α)} (hp : l.Perm l') (hnd : (l.map Prod.fst).Nodup)
    (m : List (κ × α)) : sortByKey (l ++ m) = sortByKey (l' ++ m) := by
  rw [sortByKey_append, sortByKey_append]
  refine hp.foldr_eq' ?_ _
  intro x hx y hy z
  by_cases h : x.1 = y.1
  · rw [inj_on_of_nodup_map hnd hx hy h]
  · exact insertByKey_comm (Ne.symm h)

/-- Pairs that agree in their keys and are related in their values. -/
def Related (R : α → β → Prop) (p : κ × α) (q : κ × β) : Prop := p.1 = q.1 ∧ R p.2 q.2

theorem forall₂_insertByKey {q : κ × β} (hpq : Related R p q) :
    ∀ {l : List (κ × α)} {m : List (κ × β)}, Forall₂ (Related R) l m →
      Forall₂ (Related R) (insertByKey p l) (insertByKey q m)
  | _, _, .nil => .cons hpq .nil
  | _, _, .cons (a := a) (b := b) hab hlm => by
    have hk : (p.1 ≤ a.1) ↔ (q.1 ≤ b.1) := by rw [hpq.1, hab.1]
    simp only [insertByKey, orderedInsert]
    by_cases h : p.1 ≤ a.1
    · rw [if_pos h, if_pos (hk.mp h)]
      exact .cons hpq (.cons hab hlm)
    · rw [if_neg h, if_neg (fun hq => h (hk.mpr hq))]
      exact .cons hab (forall₂_insertByKey hpq hlm)

theorem forall₂_sortByKey {m : List (κ × β)} (h : Forall₂ (Related R) l m) :
    Forall₂ (Related R) (sortByKey l) (sortByKey m) := by
  induction h with
  | nil => exact .nil
  | cons hab _ ih => exact forall₂_insertByKey hab ih

/-- Two lists with the same keys, none repeated, whose values at each key are related: they stay
related pair by pair when the same list is appended and both are sorted. -/
theorem forall₂_sortByKey_append {R : α → α → Prop} {m z : List (κ × α)}
    (hl : (l.map Prod.fst).Nodup) (hm : (m.map Prod.fst).Nodup)
    (hkeys : ∀ k, k ∈ l.map Prod.fst ↔ k ∈ m.map Prod.fst)
    (hR : ∀ k a b, (k, a) ∈ l → (k, b) ∈ m → R a b) (hz : ∀ p ∈ z, R p.2 p.2) :
    Forall₂ (Related R) (sortByKey (l ++ z)) (sortByKey (m ++ z)) := by
  induction l generalizing m with
  | nil =>
    have : m = [] := by
      rcases m with _ | ⟨q, m⟩
      · rfl
      · exact absurd ((hkeys q.1).mpr (by simp)) (by simp)
    subst this
    exact forall₂_sortByKey (forall₂_same.mpr fun p hp => ⟨rfl, hz p hp⟩)
  | cons p l ih =>
    -- Bring the partner of `p` to the front of `m`.
    obtain ⟨q, hq, hqp⟩ := mem_map.mp ((hkeys p.1).mp (by simp))
    obtain ⟨m₁, m₂, rfl⟩ := append_of_mem hq
    have hperm : (m₁ ++ q :: m₂).Perm (q :: (m₁ ++ m₂)) := perm_middle
    rw [sortByKey_append_perm hperm hm]
    have hm' : ((q :: (m₁ ++ m₂)).map Prod.fst).Nodup := (hperm.map Prod.fst).nodup_iff.mp hm
    have hkeys' : ∀ k, k ∈ (p :: l).map Prod.fst ↔ k ∈ (q :: (m₁ ++ m₂)).map Prod.fst :=
      fun k => (hkeys k).trans (hperm.map Prod.fst).mem_iff
    rw [map_cons, nodup_cons] at hl hm'
    refine forall₂_insertByKey ⟨hqp.symm, hR p.1 _ _ (by simp) ?_⟩ (ih hl.2 hm'.2 ?_ ?_)
    · rw [← hqp]
      exact hq
    · intro k
      have := hkeys' k
      simp only [map_cons, mem_cons, hqp] at this
      by_cases hk : k = p.1
      · subst hk
        exact iff_of_false hl.1 (hqp ▸ hm'.1)
      · simpa [hk] using this
    · intro k a b ha hb
      exact hR k a b (mem_cons_of_mem _ ha) (hperm.mem_iff.mpr (mem_cons_of_mem _ hb))

end SortByKey

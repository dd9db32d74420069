import Nulang.Lib.Circuit
import Nulang.Lib.SortByKey
import Nulang.OrcaCycle

/-!
# The search for a cycle

What the depth-first search of the cycle detector finds. Colours and weights are the detector's own
notes: the references of a graph are its keys and edges (`Graph.refs`), and the search does not
change them. Whatever cycle the search returns is a circuit of the reference relation, at the end of
a path from the suspect (`dfsFindCycle_sound`), and it returns a circuit whose edges come first
(`dfsFindCycle_circuit`).
-/

set_option autoImplicit false

namespace Nulang.OrcaCycle

open Graph List
open SortByKey (mem_of_lookup)

/-! ## References -/

/-- What a graph says about references: each source with its edges. -/
abbrev Refs := List (Obj × List ForeignEdge)

def Graph.refs (g : Graph) : Refs := g.map fun p => (p.1, p.2.foreignRefs)

namespace Refs

def Refers (r : Refs) (a b : Obj) : Prop := ∃ es, (a, es) ∈ r ∧ ∃ e ∈ es, e.target = b

/-- The references of a list of edges that go to an object. -/
def countTo (es : List ForeignEdge) (o : Obj) : Nat :=
  es.foldr (fun e n => if e.target = o then e.refCount + n else n) 0

/-- The sum of the counts of the edges into an object. -/
def incoming (r : Refs) (o : Obj) : Nat := r.foldr (fun p n => countTo p.2 o + n) 0

/-- What the graph's own documentation promises: one node for each object, and no edge without a
reference. -/
structure WellFormed (r : Refs) : Prop where
  nodup : (r.map (·.1)).Nodup
  pos : ∀ a es, (a, es) ∈ r → ∀ e ∈ es, 0 < e.refCount

variable {r : Refs} {a b o : Obj} {es : List ForeignEdge}

theorem WellFormed.filter (h : r.WellFormed) (p : Obj × List ForeignEdge → Bool) :
    WellFormed (r.filter p) where
  nodup := h.nodup.sublist (filter_sublist.map _)
  pos a es hes := h.pos a es (mem_of_mem_filter hes)

theorem Refers.of_filter {p : Obj × List ForeignEdge → Bool} (h : Refers (r.filter p) a b) :
    r.Refers a b := by
  obtain ⟨es, hes, he⟩ := h
  exact ⟨es, mem_of_mem_filter hes, he⟩

@[simp] theorem incoming_cons (p : Obj × List ForeignEdge) :
    incoming (p :: r) o = countTo p.2 o + incoming r o := rfl

theorem countTo_pos {e : ForeignEdge} (he : e ∈ es) (hpos : 0 < e.refCount) :
    0 < countTo es e.target := by
  induction es with
  | nil => simp at he
  | cons d es ih =>
    simp only [countTo, foldr_cons]
    rcases mem_cons.mp he with rfl | he
    · rw [if_pos rfl]
      omega
    · have := ih he
      simp only [countTo] at this
      split <;> omega

theorem countTo_eq_zero (h : ∀ e ∈ es, e.target ≠ o) : countTo es o = 0 := by
  induction es with
  | nil => rfl
  | cons d es ih =>
    simp only [countTo, foldr_cons, if_neg (h d (by simp))]
    exact ih fun e he => h e (mem_cons_of_mem d he)

/-- Taking sources out of the graph takes their references away. -/
theorem incoming_filter_add (r : Refs) (p : Obj × List ForeignEdge → Bool) (o : Obj) :
    incoming (r.filter p) o + incoming (r.filter (!p ·)) o = r.incoming o := by
  induction r with
  | nil => rfl
  | cons q r ih =>
    cases hq : p q <;> simp [hq] <;> omega

theorem le_incoming (h : (a, es) ∈ r) : countTo es o ≤ r.incoming o := by
  induction r with
  | nil => simp at h
  | cons q r ih =>
    rw [incoming_cons]
    rcases mem_cons.mp h with rfl | h
    · exact Nat.le_add_right _ _
    · have := ih h
      omega

theorem WellFormed.incoming_pos (hr : r.WellFormed) (h : r.Refers a b) : 0 < r.incoming b := by
  obtain ⟨es, hes, e, he, rfl⟩ := h
  exact Nat.lt_of_lt_of_le (countTo_pos he (hr.pos a es hes e he)) (le_incoming hes)

theorem incoming_eq_zero (h : ∀ a, ¬ r.Refers a o) : r.incoming o = 0 := by
  induction r with
  | nil => rfl
  | cons q r ih =>
    have htail : incoming r o = 0 := by
      refine ih fun a ⟨es, hes, he⟩ => h a ⟨es, mem_cons_of_mem q hes, he⟩
    rw [incoming_cons, htail, Nat.add_zero]
    exact countTo_eq_zero fun e he heq => h q.1 ⟨q.2, by simp, e, he, heq⟩

/-- Only one object refers to an object with one reference. -/
theorem WellFormed.referrer_unique (hr : r.WellFormed) (hone : r.incoming o ≤ 1) (ha : r.Refers a o)
    (hb : r.Refers b o) : a = b := by
  by_contra hne
  -- the referrers apart: one is in the filtered graph, the other in the rest
  have hsum := incoming_filter_add r (fun p => decide (p.1 = a)) o
  have hleft : 0 < incoming (r.filter fun p => decide (p.1 = a)) o := by
    obtain ⟨es, hes, he⟩ := ha
    exact (hr.filter _).incoming_pos ⟨es, mem_filter.mpr ⟨hes, by simp⟩, he⟩
  have hright : 0 < incoming (r.filter fun p => !decide (p.1 = a)) o := by
    obtain ⟨es, hes, he⟩ := hb
    have hba : b ≠ a := fun h => hne h.symm
    exact (hr.filter _).incoming_pos ⟨es, mem_filter.mpr ⟨hes, by simp [hba]⟩, he⟩
  omega

end Refs

/-! ## Graph updates that leave the references alone -/

namespace Graph

variable {g : Graph} {o : Obj}

variable {node : ForeignRefNode} {c : NodeColor}

@[simp] theorem keys_refs : g.refs.map (·.1) = g.keys := by
  simp [refs, keys, Function.comp_def]

theorem refs_modify {f : ForeignRefNode → ForeignRefNode}
    (hf : ∀ n, (f n).foreignRefs = n.foreignRefs) : (g.modify o f).refs = g.refs := by
  simp only [modify, refs, map_map]
  refine map_congr_left fun p _ => ?_
  by_cases h : p.1 = o <;> simp [h, hf]

@[simp] theorem refs_setColor (c : NodeColor) : (g.setColor o c).refs = g.refs :=
  refs_modify fun _ => rfl

theorem keys_eq_of_refs {g' : Graph} (h : g'.refs = g.refs) : g'.keys = g.keys := by
  rw [← keys_refs, h, keys_refs]

theorem refs_remove : (g.remove o).refs = g.refs.filter (·.1 ≠ o) := by
  simp [refs, remove, filter_map, Function.comp_def]

theorem refers_of_edge {t : Obj} (h : (o, node) ∈ g) (ht : t ∈ node.foreignRefs.map (·.target)) :
    g.refs.Refers o t := by
  obtain ⟨e, he, rfl⟩ := mem_map.mp ht
  exact ⟨node.foreignRefs, mem_map.mpr ⟨(o, node), h, rfl⟩, e, he, rfl⟩

/-- The search has been at the node. -/
def Visited (g : Graph) (o : Obj) : Prop := ∀ node, (o, node) ∈ g → node.color ≠ .white

def whites (g : Graph) : Nat := g.countP (·.2.color = .white)

/-- A stretch of the search: the references stay and no node turns white again. -/
structure Searched (g g' : Graph) : Prop where
  refs : g'.refs = g.refs
  visited : ∀ o, g.Visited o → g'.Visited o
  whites : g'.whites ≤ g.whites

theorem Searched.refl (g : Graph) : Searched g g := ⟨rfl, fun _ h => h, Nat.le_refl _⟩

theorem Searched.trans {g₁ g₂ g₃ : Graph} (h : Searched g₁ g₂) (h' : Searched g₂ g₃) :
    Searched g₁ g₃ :=
  ⟨h'.refs.trans h.refs, fun o ho => h'.visited o (h.visited o ho), h'.whites.trans h.whites⟩

theorem mem_setColor {a : Obj} (h : (a, node) ∈ g.setColor o c) :
    (a = o ∧ node.color = c) ∨ (a ≠ o ∧ (a, node) ∈ g) := by
  obtain ⟨p, hp, heq⟩ := mem_map.mp h
  by_cases hpo : p.1 = o
  · rw [if_pos hpo] at heq
    obtain ⟨rfl, rfl⟩ := Prod.mk.inj heq
    exact .inl ⟨hpo, rfl⟩
  · rw [if_neg hpo] at heq
    subst heq
    exact .inr ⟨hpo, hp⟩

theorem visited_setColor (hc : c ≠ .white) : (g.setColor o c).Visited o := by
  intro node hnode
  rcases mem_setColor hnode with ⟨-, h⟩ | ⟨h, -⟩
  · rw [h]
    exact hc
  · exact absurd rfl h

theorem searched_setColor (hc : c ≠ .white) (g : Graph) (o : Obj) :
    Searched g (g.setColor o c) := by
  refine ⟨refs_setColor c, fun a ha node hnode => ?_, ?_⟩
  · rcases mem_setColor hnode with ⟨-, h⟩ | ⟨-, h⟩
    · rw [h]
      exact hc
    · exact ha node h
  · simp only [whites, setColor, modify, countP_map]
    refine countP_mono_left fun p _ hp => ?_
    by_cases hpo : p.1 = o <;> simp_all

theorem whites_setColor_lt (hc : c ≠ .white) (h : (o, node) ∈ g) (hw : node.color = .white) :
    (g.setColor o c).whites < g.whites := by
  obtain ⟨g₁, g₂, rfl⟩ := append_of_mem h
  have h₁ := (searched_setColor hc g₁ o).whites
  have h₂ := (searched_setColor hc g₂ o).whites
  simp only [whites, setColor, modify] at h₁ h₂
  simp only [whites, setColor, modify, map_append, map_cons, countP_append,
    countP_cons, if_true, hw, hc, decide_true, decide_false]
  simp only [Bool.false_eq_true, if_false]
  omega

end Graph

/-! ## What the search returns -/

/-- The nodes on the recursion stack of the search. -/
structure Trail (isLocal : Nat → Bool) (g : Graph) (path : List Obj) : Prop where
  nodup : path.Nodup
  isNode : ∀ a ∈ path, isLocal a.actor = true ∧ a ∈ g.keys
  visited : ∀ a ∈ path, g.Visited a

/-- A circuit of nodes at the end of a walk without repetitions that passes through `walked`. -/
structure Found (isLocal : Nat → Bool) (r : Refs) (walked cycle : List Obj) : Prop where
  circuit : Circuit r.Refers cycle
  isNode : ∀ a ∈ cycle, isLocal a.actor = true ∧ a ∈ r.map (·.1)
  walk : ∃ before, (before ++ cycle).IsChain r.Refers ∧ (before ++ cycle).Nodup ∧
    ∀ a ∈ walked, a ∈ before ++ cycle

theorem Found.mono {isLocal : Nat → Bool} {r : Refs} {walked walked' cycle : List Obj}
    (h : Found isLocal r walked cycle) (hsub : ∀ a ∈ walked', a ∈ walked) :
    Found isLocal r walked' cycle := by
  obtain ⟨before, hchain, hnodup, hmem⟩ := h.walk
  exact ⟨h.circuit, h.isNode, before, hchain, hnodup, fun a ha => hmem a (hsub a ha)⟩

section Search

variable {isLocal : Nat → Bool}

variable {g : Graph} {path cycle : List Obj} {o : Obj}
  {visit : Graph → Obj → Option (List Obj) × Graph} {c : NodeColor}

theorem Trail.searched {g' : Graph} (h : Trail isLocal g path) (hg : Searched g g') :
    Trail isLocal g' path :=
  ⟨h.nodup, fun a ha => by rw [keys_eq_of_refs hg.refs]; exact h.isNode a ha,
    fun a ha => hg.visited a (h.visited a ha)⟩

theorem found_of_gray (htrail : Trail isLocal g path) (hchain : (path ++ [o]).IsChain g.refs.Refers)
    (hcycle : (path.idxOf? o).map (path.drop ·) = some cycle) :
    Found isLocal g.refs (path ++ [o]) cycle := by
  obtain ⟨i, hi, rfl⟩ := Option.map_eq_some_iff.mp hcycle
  obtain ⟨hlt, hget, -⟩ := idxOf?_eq_some_iff.mp hi
  have hdrop : path.drop i = o :: path.drop (i + 1) := by
    rw [drop_eq_getElem_cons hlt, hget]
  have hpath : path.take i ++ path.drop i = path := take_append_drop i path
  have hwhole : path.take i ++ (path.drop i ++ [o]) = path ++ [o] := by
    rw [← append_assoc, hpath]
  have hnodup : (path.drop i).Nodup := htrail.nodup.sublist (drop_sublist i path)
  refine ⟨?_, fun a ha => ?_, path.take i, ?_, ?_, fun a ha => ?_⟩
  · rw [← hwhole] at hchain
    have hright := hchain.right_of_append
    rw [hdrop] at hright hnodup ⊢
    exact Circuit.iff_chain.mpr ⟨hnodup, hright⟩
  · rw [keys_refs]
    exact htrail.isNode a (mem_of_mem_drop ha)
  · rw [hpath]
    exact hchain.left_of_append
  · rw [hpath]
    exact htrail.nodup
  · rw [hpath]
    rcases mem_append.mp ha with ha | ha
    · exact ha
    · rw [mem_singleton.mp ha, ← hget]
      exact getElem_mem hlt

theorem explore_searched (isLocal : Nat → Bool) (hvisit : ∀ g t, Searched g (visit g t).2)
    (ts : List Obj) (g : Graph) : Searched g (explore isLocal visit g ts).2 := by
  induction ts generalizing g with
  | nil => exact Searched.refl g
  | cons t ts ih =>
    rw [explore]
    split
    · have hv := hvisit g t
      split <;> rename_i heq <;> rw [heq] at hv
      · exact hv
      · exact hv.trans (ih _)
    · exact ih g

variable (depth : Nat)

theorem dfsFindCycle_searched (g : Graph) (path : List Obj) (o : Obj) :
    Searched g (dfsFindCycle isLocal depth g path o).2 := by
  induction depth generalizing g path o with
  | zero => exact Searched.refl g
  | succ depth ih =>
    rw [dfsFindCycle]
    split
    · exact Searched.refl g
    · split
      · exact Searched.refl g
      · rename_i node _
        split
        · exact Searched.refl g
        · exact Searched.refl g
        · have hg := searched_setColor (by decide : NodeColor.gray ≠ .white) g o
          have hexp := hg.trans (explore_searched isLocal (fun g t => ih g (path ++ [o]) t)
            (node.foreignRefs.map (·.target)) (g.setColor o .gray))
          split <;> rename_i heq <;> rw [heq] at hexp
          · exact hexp
          · exact hexp.trans (searched_setColor (by decide) _ o)

theorem explore_congr (isLocal : Nat → Bool) {visit' : Graph → Obj → Option (List Obj) × Graph}
    {n : Nat} (hvisit : ∀ g t, Searched g (visit g t).2)
    (heq : ∀ g t, g.whites ≤ n → visit g t = visit' g t) (ts : List Obj) (g : Graph)
    (hg : g.whites ≤ n) : explore isLocal visit g ts = explore isLocal visit' g ts := by
  induction ts generalizing g with
  | nil => rfl
  | cons t ts ih =>
    have hv := (hvisit g t).whites
    rw [explore, explore, ← heq g t hg, ih g hg]
    cases hres : visit g t with
    | mk res g' =>
      rw [hres] at hv
      cases res with
      | none => simp only [ih g' (hv.trans hg)]
      | some cycle => rfl

/-- Every level of the recursion colours a white node, so a deeper bound changes nothing. -/
theorem dfsFindCycle_depth {depth : Nat} (path : List Obj) (o : Obj) (h : g.whites < depth) :
    dfsFindCycle isLocal (depth + 1) g path o = dfsFindCycle isLocal depth g path o := by
  induction depth generalizing g path o with
  | zero => omega
  | succ depth ih =>
    rw [dfsFindCycle, dfsFindCycle]
    split
    · rfl
    · split
      · rfl
      · rename_i node hnode
        split
        · rfl
        · rfl
        · rename_i hwhite
          have hlt :=
            whites_setColor_lt (by decide : NodeColor.gray ≠ .white) (mem_of_lookup hnode) hwhite
          have hexp :=
            explore_congr isLocal (fun g t => dfsFindCycle_searched (depth + 1) g (path ++ [o]) t)
              (fun g t (hg : g.whites ≤ depth - 1) => ih (path ++ [o]) t (by omega))
              (node.foreignRefs.map (·.target)) (g.setColor o .gray) (by omega)
          rw [hexp]

/-- The bound the detector's search is given is never reached. -/
theorem dfsFindCycle_bound (k : Nat) :
    dfsFindCycle isLocal (g.length + 1 + k) g
      [] o = dfsFindCycle isLocal (g.length + 1) g [] o := by
  have hwhites : g.whites ≤ g.length := countP_le_length
  induction k with
  | zero => rfl
  | succ k ih => rw [← ih, ← Nat.add_assoc, dfsFindCycle_depth [] o (by omega)]

/-- The loop over the edges, when every visit from the path does its part. -/
theorem explore_sound (hvisit : ∀ g t, Searched g (visit g t).2)
    (hfound : ∀ g t, Trail isLocal g path → (path ++ [t]).IsChain g.refs.Refers →
      (visit g t).1 = some cycle → Found isLocal g.refs (path ++ [t]) cycle)
    (ts : List Obj) (g : Graph) (htrail : Trail isLocal g path)
    (hts : ∀ t ∈ ts, (path ++ [t]).IsChain g.refs.Refers)
    (hres : (explore isLocal visit g ts).1 = some cycle) : Found isLocal g.refs path cycle := by
  induction ts generalizing g with
  | nil => simp [explore] at hres
  | cons t ts ih =>
    have hrest : ∀ s ∈ ts, (path ++ [s]).IsChain g.refs.Refers :=
      fun s hs => hts s (mem_cons_of_mem t hs)
    rw [explore] at hres
    split at hres
    · have hf := hfound g t htrail (hts t (by simp))
      have hg := hvisit g t
      split at hres <;> rename_i heq <;> rw [heq] at hf hg
      · exact (hf hres).mono fun a ha => mem_append_left _ ha
      · rename_i g'
        have hrefs : g'.refs = g.refs := hg.refs
        rw [← hrefs]
        exact ih g' (htrail.searched hg) (hrefs ▸ hrest) hres
    · exact ih g htrail hrest hres

theorem Trail.push {node : ForeignRefNode} (h : Trail isLocal g path)
    (hloc : isLocal o.actor = true) (hmem : (o, node) ∈ g) (hwhite : node.color = .white) :
    Trail isLocal (g.setColor o .gray) (path ++ [o]) := by
  have hgray : NodeColor.gray ≠ .white := by decide
  have hg := searched_setColor hgray g o
  have hold := h.searched hg
  have hnew : o ∉ path := fun ho => h.visited o ho node hmem hwhite
  have hkey : o ∈ (g.setColor o .gray).keys := by
    rw [keys_eq_of_refs hg.refs]
    exact mem_map.mpr ⟨(o, node), hmem, rfl⟩
  refine ⟨?_, fun a ha => ?_, fun a ha => ?_⟩
  · rw [← concat_eq_append]
    exact h.nodup.concat hnew
  · rcases mem_append.mp ha with ha | ha
    · exact hold.isNode a ha
    · rw [mem_singleton.mp ha]
      exact ⟨hloc, hkey⟩
  · rcases mem_append.mp ha with ha | ha
    · exact hold.visited a ha
    · rw [mem_singleton.mp ha]
      exact visited_setColor hgray

/-- The search returns only circuits of the graph, at the end of a walk from where it started. -/
theorem dfsFindCycle_sound (g : Graph) (path : List Obj) (o : Obj)
    (htrail : Trail isLocal g path) (hchain : (path ++ [o]).IsChain g.refs.Refers)
    (cycle : List Obj) (hres : (dfsFindCycle isLocal depth g path o).1 = some cycle) :
    Found isLocal g.refs (path ++ [o]) cycle := by
  induction depth generalizing g path o with
  | zero => simp [dfsFindCycle] at hres
  | succ depth ih =>
    rw [dfsFindCycle] at hres
    split at hres
    · simp at hres
    · rename_i hloc
      split at hres
      · simp at hres
      · rename_i node hnode
        have hmem := mem_of_lookup hnode
        split at hres
        · simp at hres
        · exact found_of_gray htrail hchain hres
        · rename_i hwhite
          have htrail' := htrail.push (by simpa using hloc) hmem hwhite
          have hts : ∀ t ∈ node.foreignRefs.map (·.target),
              (path ++ [o] ++ [t]).IsChain (g.setColor o .gray).refs.Refers := by
            intro t ht
            rw [refs_setColor, append_assoc, singleton_append]
            exact isChain_split.mpr ⟨hchain, isChain_pair.mpr (refers_of_edge hmem ht)⟩
          have hexp := explore_sound (fun g t => dfsFindCycle_searched depth g (path ++ [o]) t)
            (fun g t => ih g (path ++ [o]) t) _ _ htrail' hts
          rw [refs_setColor] at hexp
          split at hres <;> rename_i heq <;> rw [heq] at hexp
          · exact hexp hres
          · simp at hres

/-! ### A circuit whose edges come first is found -/

/-- The first edge of `a` goes to `b`. -/
def Refs.Leads (r : Refs) (a b : Obj) : Prop :=
  ∃ e es, r.lookup a = some (e :: es) ∧ e.target = b

/-- The colour of a node, if there is one. -/
def Graph.Colored (g : Graph) (a : Obj) (c : NodeColor) : Prop :=
  ∀ node, g.lookup a = some node → node.color = c

theorem Graph.lookup_refs : g.refs.lookup o = (g.lookup o).map (·.foreignRefs) := by
  induction g with
  | nil => rfl
  | cons p g ih =>
    obtain ⟨k, node⟩ := p
    simp only [refs, map_cons, lookup_cons] at ih ⊢
    cases o == k
    · exact ih
    · rfl

theorem Graph.lookup_setColor (a : Obj) : (g.setColor o c).lookup a =
      (g.lookup a).map fun n => if a = o then { n with color := c } else n := by
  induction g with
  | nil => rfl
  | cons p g ih =>
    obtain ⟨k, node⟩ := p
    simp only [setColor, modify, map_cons] at ih ⊢
    by_cases hka : a = k
    · subst hka
      by_cases hao : a = o <;> simp [hao]
    · have hbeq : (a == k) = false := by simpa using hka
      by_cases hko : k = o
      · rw [if_pos hko, lookup_cons, lookup_cons, hbeq]
        exact ih
      · rw [if_neg hko, lookup_cons, lookup_cons, hbeq]
        exact ih

theorem Graph.Colored.setColor_self : (g.setColor o c).Colored o c := by
  intro node hnode
  rw [lookup_setColor] at hnode
  obtain ⟨n, -, rfl⟩ := Option.map_eq_some_iff.mp hnode
  simp

theorem Graph.Colored.setColor {a : Obj} {d : NodeColor} (h : g.Colored a d) (hne : a ≠ o) :
    (g.setColor o c).Colored a d := by
  intro node hnode
  rw [lookup_setColor] at hnode
  obtain ⟨n, hn, rfl⟩ := Option.map_eq_some_iff.mp hnode
  simpa [hne] using h n hn

theorem Graph.Colored.setColor_of_eq {a : Obj} (h : g.Colored a c) :
    (g.setColor o c).Colored a c := by
  by_cases hne : a = o
  · subst hne
    exact Colored.setColor_self
  · exact h.setColor hne

theorem Graph.exists_lookup (h : o ∈ g.keys) : ∃ node, g.lookup o = some node := by
  cases hl : g.lookup o with
  | some node => exact ⟨node, rfl⟩
  | none =>
    obtain ⟨p, hp, rfl⟩ := mem_map.mp h
    have hne := lookup_eq_none_iff.mp hl p hp
    simp at hne

theorem dfsFindCycle_gray {t : Obj} (ht : isLocal t.actor = true ∧ t ∈ g.keys)
    (hgray : g.Colored t .gray) :
    (dfsFindCycle isLocal (depth + 1) g path t).1 = (path.idxOf? t).map (path.drop ·) := by
  obtain ⟨node, hnode⟩ := exists_lookup ht.2
  simp [dfsFindCycle, ht.1, hnode, hgray node hnode]

/-- What the first edge of a white node leads to is what the node returns. -/
theorem dfsFindCycle_lead {t : Obj} {depth : Nat} (hlead : g.refs.Leads o t)
    (hloc : isLocal o.actor = true) (hwhite : g.Colored o .white)
    (ht : isLocal t.actor = true ∧ t ∈ g.keys)
    (hchild : (dfsFindCycle isLocal depth (g.setColor o .gray) (path ++ [o]) t).1 = some cycle) :
    (dfsFindCycle isLocal (depth + 1) g path o).1 = some cycle := by
  obtain ⟨e, es, hlook, rfl⟩ := hlead
  rw [lookup_refs] at hlook
  obtain ⟨node, hnode, hedges⟩ := Option.map_eq_some_iff.mp hlook
  have hkeys : e.target ∈ (g.setColor o .gray).keys := by
    rw [keys_eq_of_refs (refs_setColor .gray)]
    exact ht.2
  simp only [dfsFindCycle, hloc, hnode, hwhite node hnode, hedges, map_cons, explore, ht.1,
    Bool.not_true, Bool.false_eq_true, if_false, contains_iff_mem.mpr hkeys, Bool.and_self,
    if_true]
  cases hres : dfsFindCycle isLocal depth (g.setColor o .gray) (path ++ [o]) e.target with
  | mk res g' =>
    rw [hres] at hchild
    have hsome : res = some cycle := hchild
    subst hsome
    rfl

/-- A visit of the white nodes of a circuit in turn, each through its first edge. -/
theorem dfsFindCycle_circuit {first : Obj} (rest : List Obj) : ∀ (path : List Obj) (o : Obj)
    (g : Graph) (depth : Nat), (path ++ [o]).head? = some first → (path ++ o :: rest).Nodup →
    (∀ a ∈ path ++ o :: rest, isLocal a.actor = true ∧ a ∈ g.keys) →
    (o :: rest ++ [first]).IsChain g.refs.Leads →
    (∀ a ∈ path, g.Colored a .gray) → (∀ a ∈ o :: rest, g.Colored a .white) →
    rest.length + 2 ≤ depth →
    (dfsFindCycle isLocal depth g path o).1 = some (path ++ o :: rest) := by
  -- the induction is on the part of the circuit still to be visited
  induction rest with
  | nil =>
    intro path o g depth hhead hnodup hnode hleads hgray hwhite hdepth
    obtain ⟨d, rfl⟩ : ∃ d, depth = d + 2 := ⟨depth - 2, by simp at hdepth; omega⟩
    have hfirst : first ∈ path ++ [o] := mem_of_mem_head? hhead
    have hpath : (g.setColor o .gray).Colored first .gray := by
      rcases mem_append.mp hfirst with h | h
      · exact (hgray first h).setColor_of_eq
      · rw [mem_singleton.mp h]
        exact Colored.setColor_self
    have hnode' : isLocal first.actor = true ∧ first ∈ (g.setColor o .gray).keys := by
      rw [keys_eq_of_refs (refs_setColor .gray)]
      exact hnode first hfirst
    refine dfsFindCycle_lead (isChain_pair.mp hleads) (hnode o (by simp)).1
      (hwhite o (by simp)) (hnode first hfirst) ?_
    rw [dfsFindCycle_gray d hnode' hpath]
    obtain ⟨l, hl⟩ := head?_eq_some_iff.mp hhead
    rw [hl, idxOf?_cons]
    simp
  | cons b rest ih =>
    intro path o g depth hhead hnodup hnode hleads hgray hwhite hdepth
    obtain ⟨d, rfl⟩ : ∃ d, depth = d + 1 := ⟨depth - 1, by simp at hdepth; omega⟩
    have hassoc : path ++ o :: b :: rest = path ++ [o] ++ b :: rest := by simp
    have hrefs := refs_setColor (g := g) (o := o) .gray
    obtain ⟨hlead, hchain⟩ := isChain_cons_cons.mp hleads
    refine dfsFindCycle_lead hlead (hnode o (by simp)).1 (hwhite o (by simp)) (hnode b (by simp)) ?_
    rw [hassoc] at hnodup hnode ⊢
    refine ih (path ++ [o]) b (g.setColor o .gray) d ?_ hnodup ?_ ?_ ?_ ?_ ?_
    · rw [append_assoc, singleton_append, head?_append]
      rw [head?_append] at hhead
      simpa using hhead
    · rw [keys_eq_of_refs hrefs]
      exact hnode
    · rw [hrefs]
      exact hchain
    · intro a ha
      rcases mem_append.mp ha with ha | ha
      · exact (hgray a ha).setColor_of_eq
      · rw [mem_singleton.mp ha]
        exact Colored.setColor_self
    · intro a ha
      refine (hwhite a (mem_cons_of_mem o ha)).setColor fun h => ?_
      subst h
      exact (nodup_append.mp hnodup).2.2 a (by simp) a ha rfl
    · simp at hdepth
      omega

end Search

end Nulang.OrcaCycle

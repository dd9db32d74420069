import Nulang.OrcaReclaim

/-!
# Collection with exact counts

What a detection pass should do to a graph whose counts are exact (`Kept`): reclaim only objects
that nothing else needs, none of them twice, and leave exact counts behind. The detector does it
unless it drops a node with edges that leave what it drops, or reclaims a sticky object
(`cycle_collection_sound`).

The nodes of the graph stand in the order of a hash map, and the search takes the first circuit it
meets, so the statement is about every order of the nodes and edges.
-/

set_option autoImplicit false

namespace Nulang.OrcaCycle

open List CycleDetector Graph Refs

/-- A node, and the same node with its edges in another order. -/
structure SameNode (p q : Obj × ForeignRefNode) : Prop where
  key : q.1 = p.1
  weight : q.2.weight = p.2.weight
  color : q.2.color = p.2.color
  edges : q.2.foreignRefs.Perm p.2.foreignRefs

/-- The same detector, with the nodes of the graph and the edges of each node in another order. -/
structure CycleDetector.Reordered (D D' : CycleDetector) : Prop where
  nodes : ∃ g, Forall₂ SameNode D.graph g ∧ g.Perm D'.graph
  rest : D' = { D with graph := D'.graph }

/-- What a pass should leave behind, from the detector and the headers it started with. -/
structure Kept (D : CycleDetector) (H : Headers) (W : World) : Prop where
  nodup : W.freed.Nodup
  sticky : ∀ o ∈ W.freed, (H o).sticky = false
  refCount : ∀ o ∈ W.freed, (H o).refCount = 0
  referrers : ∀ o ∈ W.freed, ∀ a, D.graph.refs.Refers a o → a ∈ W.freed
  counts : ∀ o, o ∉ W.freed → (W.headers o).foreignCount = W.detector.graph.refs.incoming o

/-- The nodes that the sweep of this pass drops have no edges. -/
def CycleDetector.SweepsLeaves (D : CycleDetector) (H : Headers) : Prop :=
  D.scanEnds → ∀ p ∈ D.graph, D.weigh H D.scanSlice p = ForeignRefNode.deadWeight →
    p.2.foreignRefs = []

/-- The circuits of garbage that this pass may come upon have no sticky object and no edge out of
them. -/
def CycleDetector.SealedGarbage (D : CycleDetector) (H : Headers) : Prop :=
  ∀ c, Garbage D.isLocal D.graph.refs H c → (∃ s ∈ c, D.Candidate s) →
    ∀ o ∈ c, (H o).sticky = false ∧ ∀ t, D.graph.refs.Refers o t → t ∈ c

/-! ## Reordering changes no reference -/

theorem Refs.countTo_perm {es es' : List ForeignEdge} (h : es.Perm es') (o : Obj) :
    countTo es o = countTo es' o := by
  induction h with
  | nil => rfl
  | cons e _ ih =>
    simp only [countTo, foldr_cons] at ih ⊢
    rw [ih]
  | swap e e' es =>
    simp only [countTo, foldr_cons]
    split <;> split <;> omega
  | trans _ _ ih ih' => exact ih.trans ih'

variable {r r' : Refs} {g : Graph}

theorem Garbage.congr {isLocal : Nat → Bool} {H : Headers} {c : List Obj}
    (h : ∀ a b, r'.Refers a b ↔ r.Refers a b) : Garbage isLocal r' H c ↔ Garbage isLocal r H c := by
  constructor
  · exact fun hc =>
      ⟨hc.circuit.mono fun a _ b _ => (h a b).mp, hc.isLocal, hc.refCount, hc.foreignCount⟩
  · exact fun hc =>
      ⟨hc.circuit.mono fun a _ b _ => (h a b).mpr, hc.isLocal, hc.refCount, hc.foreignCount⟩

theorem Refs.incoming_perm (h : r.Perm r') (o : Obj) : r.incoming o = r'.incoming o := by
  induction h with
  | nil => rfl
  | cons p _ ih => rw [incoming_cons, incoming_cons, ih]
  | swap p p' r =>
    simp only [incoming_cons]
    omega
  | trans _ _ ih ih' => exact ih.trans ih'

theorem Refs.incoming_sameNode {g' : Graph} (h : Forall₂ SameNode g g') (o : Obj) :
    g'.refs.incoming o = g.refs.incoming o := by
  induction h with
  | nil => rfl
  | cons hp _ ih =>
    simp only [refs, map_cons, incoming_cons] at ih ⊢
    rw [ih, countTo_perm hp.edges]

namespace CycleDetector.Reordered

variable {D D' : CycleDetector}

theorem refl (D : CycleDetector) : D.Reordered D :=
  ⟨⟨D.graph, forall₂_same.mpr fun _ _ => ⟨rfl, rfl, rfl, .rfl⟩, .rfl⟩, rfl⟩

section

variable (h : D.Reordered D')
include h

theorem exists_old {q : Obj × ForeignRefNode} (hq : q ∈ D'.graph) :
    ∃ p ∈ D.graph, SameNode p q := by
  obtain ⟨g, hsame, hperm⟩ := h.nodes
  obtain ⟨i, hi, rfl⟩ := getElem_of_mem (hperm.mem_iff.mpr hq)
  have hlen := hsame.length_eq
  exact ⟨D.graph[i], getElem_mem _, hsame.get (by omega) hi⟩

theorem exists_new {p : Obj × ForeignRefNode} (hp : p ∈ D.graph) :
    ∃ q ∈ D'.graph, SameNode p q := by
  obtain ⟨g, hsame, hperm⟩ := h.nodes
  obtain ⟨i, hi, rfl⟩ := getElem_of_mem hp
  have hlen := hsame.length_eq
  have hig : i < g.length := by omega
  exact ⟨g[i], hperm.mem_iff.mp (getElem_mem hig), hsame.get hi hig⟩

theorem isLocal : D'.isLocal = D.isLocal := by
  rw [h.rest]
  rfl

theorem keys_perm : D'.graph.keys.Perm D.graph.keys := by
  obtain ⟨g, hsame, hperm⟩ := h.nodes
  have hkeys : keys g = D.graph.keys := forall₂_eq_eq_eq ▸ forall₂_map_left_iff.mpr
      (forall₂_map_right_iff.mpr (hsame.flip.imp fun _ _ hp => SameNode.key hp))
  rw [← hkeys]
  exact (hperm.map _).symm

theorem refers_iff (a b : Obj) : D'.graph.refs.Refers a b ↔ D.graph.refs.Refers a b := by
  constructor
  · rintro ⟨es, hes, e, he, rfl⟩
    obtain ⟨q, hq, heq⟩ := mem_map.mp hes
    obtain ⟨rfl, rfl⟩ := Prod.mk.inj heq
    obtain ⟨p, hp, hpq⟩ := h.exists_old hq
    exact ⟨p.2.foreignRefs, mem_map.mpr ⟨p, hp, by rw [hpq.key]⟩, e, hpq.edges.mem_iff.mp he, rfl⟩
  · rintro ⟨es, hes, e, he, rfl⟩
    obtain ⟨p, hp, heq⟩ := mem_map.mp hes
    obtain ⟨rfl, rfl⟩ := Prod.mk.inj heq
    obtain ⟨q, hq, hpq⟩ := h.exists_new hp
    exact ⟨q.2.foreignRefs, mem_map.mpr ⟨q, hq, by rw [hpq.key]⟩, e, hpq.edges.mem_iff.mpr he, rfl⟩

theorem incoming_eq (o : Obj) : D'.graph.refs.incoming o = D.graph.refs.incoming o := by
  obtain ⟨g, hsame, hperm⟩ := h.nodes
  rw [← incoming_sameNode hsame]
  exact incoming_perm (hperm.symm.map _) o

theorem wellFormed (hD : D.graph.refs.WellFormed) : D'.graph.refs.WellFormed := by
  refine ⟨?_, fun a es hes e he => ?_⟩
  · rw [keys_refs, h.keys_perm.nodup_iff, ← keys_refs]
    exact hD.nodup
  · obtain ⟨q, hq, heq⟩ := mem_map.mp hes
    obtain ⟨rfl, rfl⟩ := Prod.mk.inj heq
    obtain ⟨p, hp, hpq⟩ := h.exists_old hq
    exact hD.pos p.1 p.2.foreignRefs (mem_map.mpr ⟨p, hp, rfl⟩) e (hpq.edges.mem_iff.mp he)

theorem scanEnds_iff : D'.scanEnds ↔ D.scanEnds := by
  have hlen := h.keys_perm.length_eq
  rw [h.rest] at hlen ⊢
  unfold scanEnds
  cases hk : D.scanKeys with
  | none => simp only [hlen]
  | some keys => exact Iff.rfl

/-- The scan that ends has looked at the same nodes. -/
theorem mem_scanSlice_iff (hends : D.scanEnds) {o : Obj} (ho : o ∈ D.graph.keys) :
    o ∈ D'.scanSlice ↔ o ∈ D.scanSlice := by
  have hlen := h.keys_perm.length_eq
  have ho' : o ∈ D'.graph.keys := h.keys_perm.mem_iff.mpr ho
  rw [h.rest] at hlen ho' ⊢
  unfold scanEnds at hends
  unfold scanSlice
  cases hk : D.scanKeys with
  | none =>
    rw [hk] at hends
    rw [take_of_length_le hends, take_of_length_le (hlen ▸ hends)]
    exact iff_of_true ho' ho
  | some keys => exact Iff.rfl

theorem candidate_iff (o : Obj) : D'.Candidate o ↔ D.Candidate o := by
  rw [h.rest]
  unfold Candidate scanSlice
  cases hk : D.scanKeys with
  | none | some => exact Iff.rfl

end

theorem foldr_refCount_perm {es es' : List ForeignEdge} (h : es.Perm es') :
    es.foldr (fun e n => e.refCount + n) 0 = es'.foldr (fun e n => e.refCount + n) 0 :=
  h.foldr_eq' (fun a _ b _ n => Nat.add_left_comm b.refCount a.refCount n) 0

variable {H : Headers}

theorem sweepsLeaves (h : D.Reordered D') (hD : D.SweepsLeaves H) : D'.SweepsLeaves H := by
  intro hends q hq hdead
  have hends' := h.scanEnds_iff.mp hends
  obtain ⟨p, hp, hpq⟩ := h.exists_old hq
  have hslice := h.mem_scanSlice_iff hends' (mem_map.mpr ⟨p, hp, rfl⟩)
  have hweigh : D'.weigh H D'.scanSlice q = D.weigh H D.scanSlice p := by
    simp only [weigh, hpq.key, hslice, h.isLocal, freshWeight, ForeignRefNode.computeWeight,
      foldr_refCount_perm hpq.edges, hpq.weight]
  have hnil := hD hends' p hp (hweigh ▸ hdead)
  exact perm_nil.mp (hnil ▸ hpq.edges)

theorem garbage_iff (h : D.Reordered D') {c : List Obj} :
    Garbage D'.isLocal D'.graph.refs H c ↔ Garbage D.isLocal D.graph.refs H c := by
  rw [h.isLocal]
  exact Garbage.congr h.refers_iff

theorem sealedGarbage (h : D.Reordered D') (hD : D.SealedGarbage H) : D'.SealedGarbage H := by
  rintro c hc ⟨s, hs, hcand⟩ o ho
  obtain ⟨hsticky, hout⟩ := hD c (h.garbage_iff.mp hc) ⟨s, hs, (h.candidate_iff s).mp hcand⟩ o ho
  exact ⟨hsticky, fun t ht => hout t ((h.refers_iff o t).mp ht)⟩

end CycleDetector.Reordered

/-! ## The pass over a graph with exact counts -/

theorem Refs.WellFormed.keys (h : g.refs.WellFormed) : g.keys.Nodup := keys_refs ▸ h.nodup

theorem Refs.WellFormed.sublist (h : r.WellFormed) (hsub : r'.Sublist r) : r'.WellFormed :=
  ⟨h.nodup.sublist (hsub.map _), fun a es hes => h.pos a es (hsub.subset hes)⟩

theorem Refs.incoming_sublist (h : r'.Sublist r) (o : Obj) : r'.incoming o ≤ r.incoming o := by
  induction h with
  | slnil => exact Nat.le_refl _
  | cons p _ ih =>
    rw [incoming_cons]
    omega
  | cons_cons p _ ih =>
    rw [incoming_cons, incoming_cons]
    omega

/-- The foreign counts are those of the edges, and are in the range of a `u32`, also together with
the local ones. -/
structure ExactCounts (r : Refs) (H : Headers) : Prop where
  count : ∀ o, (H o).foreignCount = r.incoming o
  fits : ∀ o, (H o).Fits

theorem ExactCounts.covered {H : Headers} (h : ExactCounts r H) (hr : r.WellFormed) : Covered r H :=
  ⟨hr, fun o => (h.count o).ge, h.fits⟩

theorem CycleDetector.Reordered.exactCounts {D D' : CycleDetector} {H : Headers}
    (h : D.Reordered D') (hexact : ExactCounts D.graph.refs H) : ExactCounts D'.graph.refs H :=
  ⟨fun o => (hexact.count o).trans (h.incoming_eq o).symm, hexact.fits⟩

theorem Covered.sublist {H : Headers} (h : Covered r H) (hsub : r'.Sublist r) : Covered r' H :=
  ⟨h.wellFormed.sublist hsub, fun o => (incoming_sublist hsub o).trans (h.count o), h.fits⟩

/-- The detector after the scan of a pass. -/
def CycleDetector.refreshed (D : CycleDetector) (H : Headers) : CycleDetector :=
  { D with epoch := D.epoch + 1 }.refreshSuspects H

section Detect

variable {D : CycleDetector} {H : Headers}

theorem refs_refreshed_of_ends (hD : D.graph.keys.Nodup) (h : D.scanEnds) :
    (D.refreshed H).graph.refs =
      refs (D.graph.filter (D.weigh H D.scanSlice · ≠ ForeignRefNode.deadWeight)) := by
  have hscan := (scanned_spec (H := H) (D := { D with epoch := D.epoch + 1 }) hD).1
  have hends : scanEnds { D with epoch := D.epoch + 1 } := h
  rw [refreshed, refreshSuspects_of_ends hends]
  simp only [hscan, refs, weighed, filter_map, map_map]
  rfl

theorem refs_refreshed_of_not_ends (hD : D.graph.keys.Nodup) (h : ¬ D.scanEnds) :
    (D.refreshed H).graph.refs = D.graph.refs := by
  have hscan := (scanned_spec (H := H) (D := { D with epoch := D.epoch + 1 }) hD).1
  have hends : ¬ scanEnds { D with epoch := D.epoch + 1 } := h
  obtain ⟨cursor, heq⟩ := refreshSuspects_of_not_ends (H := H) hends
  rw [refreshed, heq]
  exact (congrArg refs hscan).trans (refs_weighed _)

theorem refreshed_sublist (hD : D.graph.keys.Nodup) :
    (D.refreshed H).graph.refs.Sublist D.graph.refs := by
  by_cases h : D.scanEnds
  · rw [refs_refreshed_of_ends hD h]
    exact filter_sublist.map _
  · rw [refs_refreshed_of_not_ends hD h]

/-- The suspects of a pass, and the actors it is restricted to. -/
theorem refreshed_spec (hD : D.graph.keys.Nodup) : (∀ a, a ∈ (D.refreshed H).suspects ↔
      a ∈ D.queued ∨ (a ∈ D.scanSlice ∧ D.Flagged H a)) ∧ (D.refreshed H).isLocal = D.isLocal := by
  have hscan := (scanned_spec (H := H) (D := { D with epoch := D.epoch + 1 }) hD).2
  by_cases h : scanEnds { D with epoch := D.epoch + 1 }
  · rw [refreshed, refreshSuspects_of_ends h]
    exact hscan
  · obtain ⟨cursor, heq⟩ := refreshSuspects_of_not_ends (H := H) h
    rw [refreshed, heq]
    exact hscan

variable {s : Obj} {c suspects : List Obj} {W : World}

theorem candidate_of_suspect (hD : D.graph.keys.Nodup) (hs : s ∈ (D.refreshed H).suspects) :
    D.Candidate s := by
  have hsus := ((refreshed_spec hD).1 s).mp hs
  simp only [queued, scanSlice, Candidate] at hsus ⊢
  cases hk : D.scanKeys with
  | none =>
    simp only [hk, not_mem_nil, false_or] at hsus
    exact Nat.pos_of_ne_zero fun h0 => by simp [h0] at hsus
  | some keys =>
    simp only [hk] at hsus
    exact hsus.imp_right And.left

theorem detectCycles_eq : detectCycles D H = (D.refreshed H).suspects.foldl World.processSuspect
      ⟨{ D.refreshed H with suspects := [] }, H, []⟩ := rfl

/-- A pass over a graph whose edges the counts cover. -/
theorem detectCycles_pass (hD : Covered D.graph.refs H) :
    Pass D.isLocal (D.refreshed H).graph.refs H (D.refreshed H).suspects (detectCycles D H) := by
  have hkeys := hD.wellFormed.keys
  have hsub := refreshed_sublist (H := H) hkeys
  rw [detectCycles_eq]
  refine Pass.run (hD.sublist hsub) _ (fun s hs => hs)
    ⟨(refreshed_spec hkeys).2, ?_, fun _ _ => rfl, nodup_nil, by simp⟩
  simp

theorem Graph.incoming_filter_leaves (o : Obj) {g : Graph} {keep : Obj × ForeignRefNode → Bool}
    (h : ∀ p ∈ g, keep p = false → p.2.foreignRefs = []) :
    (refs (g.filter keep)).incoming o = g.refs.incoming o := by
  induction g with
  | nil => rfl
  | cons p g ih =>
    have htail := ih fun q hq => h q (mem_cons_of_mem p hq)
    cases hp : keep p with
    | false =>
      have hnil : countTo p.2.foreignRefs o = 0 := by
        rw [h p (by simp) hp]
        rfl
      rw [filter_cons_of_neg (by simp [hp]), htail]
      simp [refs, hnil]
    | true =>
      rw [filter_cons_of_pos hp]
      simp only [refs, map_cons, incoming_cons] at htail ⊢
      rw [htail]

/-- When the sweep drops no edge, the scan leaves the references as they are. -/
theorem refreshed_of_sweepsLeaves (hD : D.graph.keys.Nodup) (hleaf : D.SweepsLeaves H) :
    (∀ a e es, e ∈ es → (a, es) ∈ D.graph.refs → (a, es) ∈ (D.refreshed H).graph.refs) ∧
    ∀ o, (D.refreshed H).graph.refs.incoming o = D.graph.refs.incoming o := by
  by_cases h : D.scanEnds
  · rw [refs_refreshed_of_ends hD h]
    refine ⟨fun a e es he hes => ?_, fun o => incoming_filter_leaves o fun p hp hdead => ?_⟩
    · obtain ⟨p, hp, heq⟩ := mem_map.mp hes
      obtain ⟨rfl, rfl⟩ := Prod.mk.inj heq
      refine mem_map.mpr ⟨p, mem_filter.mpr ⟨hp, decide_eq_true fun hdead => ?_⟩, rfl⟩
      rw [hleaf h p hp hdead] at he
      exact absurd he not_mem_nil
    · exact hleaf h p hp (by simpa using hdead)
  · rw [refs_refreshed_of_not_ends hD h]
    exact ⟨fun _ _ _ _ hes => hes, fun _ => rfl⟩

theorem refers_refreshed_iff (hD : D.graph.keys.Nodup) (hleaf : D.SweepsLeaves H) (a b : Obj) :
    (D.refreshed H).graph.refs.Refers a b ↔ D.graph.refs.Refers a b := by
  constructor
  · rintro ⟨es, hes, he⟩
    exact ⟨es, (refreshed_sublist hD).subset hes, he⟩
  · rintro ⟨es, hes, e, he, heb⟩
    exact ⟨es, (refreshed_of_sweepsLeaves hD hleaf).1 a e es he hes, e, he, heb⟩

theorem garbage_refreshed_iff (hD : D.graph.keys.Nodup) (hleaf : D.SweepsLeaves H) :
    Garbage D.isLocal (D.refreshed H).graph.refs H c ↔ Garbage D.isLocal D.graph.refs H c :=
  Garbage.congr (refers_refreshed_iff hD hleaf)

/-- What the references of the freed objects add to the counts of the others. -/
theorem Pass.incoming_eq {isLocal : Nat → Bool} (h : Pass isLocal r H suspects W) {o : Obj}
    (hout : ∀ a ∈ W.freed, ¬ r.Refers a o) : W.detector.graph.refs.incoming o = r.incoming o := by
  have hsum := incoming_filter_add r (fun p => decide (p.1 ∉ W.freed)) o
  have hzero : incoming (r.filter fun p => !decide (p.1 ∉ W.freed)) o = 0 := by
    refine incoming_eq_zero fun a ha => ?_
    have hao := ha.of_filter
    obtain ⟨es, hes, -⟩ := ha
    have hfreed : a ∈ W.freed := by simpa using (mem_filter.mp hes).2
    exact hout a hfreed hao
  rw [h.refs]
  omega

theorem kept_of_sealed (hD : D.graph.refs.WellFormed)
    (hexact : ExactCounts D.graph.refs H) (hleaf : D.SweepsLeaves H)
    (hseal : D.SealedGarbage H) : Kept D H (detectCycles D H) := by
  have hkeys := hD.keys
  have hcov : Covered D.graph.refs H := hexact.covered hD
  have hpass := detectCycles_pass hcov
  have hrefers := refers_refreshed_iff hkeys hleaf
  -- each freed object lies on a sealed circuit of freed objects
  have hring (o : Obj) (ho : o ∈ (detectCycles D H).freed) : (H o).refCount = 0 ∧
      (H o).sticky = false ∧ ∀ t, D.graph.refs.Refers o t → t ∈ (detectCycles D H).freed := by
    obtain ⟨c, hc, hoc, hsub, s, hs, hsc⟩ := hpass.rings o ho
    have hc' := (garbage_refreshed_iff hkeys hleaf).mp hc
    obtain ⟨hsticky, hout⟩ := hseal c hc' ⟨s, hsc, candidate_of_suspect hkeys hs⟩ o hoc
    exact ⟨hc.refCount o hoc, hsticky, fun t ht => hsub t (hout t ht)⟩
  have hback := hpass.closedBack (hcov.sublist (refreshed_sublist hkeys))
  refine ⟨hpass.nodup, fun o ho => (hring o ho).2.1, fun o ho => (hring o ho).1,
    fun o ho a ha => hback a o ((hrefers a o).mpr ha) ho, fun o ho => ?_⟩
  rw [hpass.headers o ho, hexact.count o, ← (refreshed_of_sweepsLeaves hkeys hleaf).2 o]
  refine (hpass.incoming_eq fun a ha hao => ?_).symm
  exact ho ((hring a ha).2.2 o ((hrefers a o).mp hao))

theorem Pass.isNode {isLocal : Nat → Bool} (h : Pass isLocal r H suspects W) {o : Obj}
    (ho : o ∈ W.freed) : o ∈ r.map (·.1) := by
  obtain ⟨c, hc, hoc, -⟩ := h.rings o ho
  obtain ⟨b, -, es, hes, -⟩ := hc.circuit.exists_next hoc
  exact mem_map.mpr ⟨(o, es), hes, rfl⟩

theorem Pass.incoming_le {isLocal : Nat → Bool} (h : Pass isLocal r H suspects W) (o : Obj) :
    W.detector.graph.refs.incoming o ≤ r.incoming o := by
  rw [h.refs]
  exact incoming_sublist filter_sublist o

theorem sweepsLeaves_of_kept (hD : D.graph.refs.WellFormed) (hexact : ExactCounts D.graph.refs H)
    (hkept : Kept D H (detectCycles D H)) : D.SweepsLeaves H := by
  have hkeys := hD.keys
  have hpass := detectCycles_pass (hexact.covered hD)
  intro hends p hp hdead
  by_contra hne
  obtain ⟨e, es, hes⟩ := exists_cons_of_ne_nil hne
  have he : e ∈ p.2.foreignRefs := by simp [hes]
  have hmem : (p.1, p.2.foreignRefs) ∈ D.graph.refs := mem_map.mpr ⟨p, hp, rfl⟩
  have hrefs := refs_refreshed_of_ends (H := H) hkeys hends
  by_cases htarget : e.target ∈ (detectCycles D H).freed
  · -- the swept node refers to a freed object, but is not freed with it
    have hfreed := hkept.referrers e.target htarget p.1 ⟨p.2.foreignRefs, hmem, e, he, rfl⟩
    have hnode := hpass.isNode hfreed
    rw [hrefs, keys_refs] at hnode
    obtain ⟨q, hq, hqp⟩ := mem_map.mp hnode
    obtain ⟨hq, hlive⟩ := mem_filter.mp hq
    have heq : q = p := inj_on_of_nodup_map hkeys hq hp hqp
    rw [heq] at hlive
    exact of_decide_eq_true hlive hdead
  · -- the count of the target still has the reference
    have hcounts := hkept.counts e.target htarget
    have hle := hpass.incoming_le e.target
    rw [hpass.headers _ htarget, hexact.count] at hcounts
    obtain ⟨g₁, g₂, hsplit⟩ := append_of_mem hp
    have hpos := countTo_pos he (hD.pos _ _ hmem e he)
    have hperm : D.graph.refs.incoming e.target =
        countTo p.2.foreignRefs e.target + (refs (g₁ ++ g₂)).incoming e.target := by
      rw [hsplit]
      exact incoming_perm (perm_middle.map _) e.target
    have hdrop : (D.refreshed H).graph.refs.incoming e.target ≤
        (refs (g₁ ++ g₂)).incoming e.target := by
      rw [hrefs, hsplit]
      refine incoming_sublist (Sublist.map _ ?_) e.target
      rw [filter_append, filter_cons_of_neg (by simp [hdead]), ← filter_append]
      exact filter_sublist
    omega

/-! ### A circuit that the search meets first -/

/-- A node with the edge along the circuit in front. -/
def leadNode (c : List Obj) (p : Obj × ForeignRefNode) : Obj × ForeignRefNode :=
  (p.1, { p.2 with foreignRefs :=
    p.2.foreignRefs.filter (fun e => decide ((p.1, e.target) ∈ c.zip (c.rotate 1))) ++
    p.2.foreignRefs.filter (fun e => !decide ((p.1, e.target) ∈ c.zip (c.rotate 1))) })

/-- The order in which the scan comes to `s` first and the search from it goes along the circuit. -/
def CycleDetector.lead (D : CycleDetector) (s : Obj) (c : List Obj) : CycleDetector :=
  { D with graph := (D.graph.map (leadNode c)).filter (fun p => decide (p.1 = s)) ++
      (D.graph.map (leadNode c)).filter (fun p => !decide (p.1 = s)) }

theorem CycleDetector.reordered_lead (D : CycleDetector) (s : Obj) (c : List Obj) :
    D.Reordered (D.lead s c) := by
  refine ⟨⟨D.graph.map (leadNode c), ?_, (filter_append_perm _ _).symm⟩, rfl⟩
  rw [forall₂_map_right_iff, forall₂_same]
  exact fun p _ => ⟨rfl, rfl, rfl, filter_append_perm _ _⟩

theorem mem_lead {p : Obj × ForeignRefNode} (hp : p ∈ D.graph) :
    leadNode c p ∈ (D.lead s c).graph :=
  (filter_append_perm _ _).mem_iff.mpr (mem_map_of_mem hp)

theorem zip_rotate_unique (hc : c.Nodup) {a b b' : Obj} (h : (a, b) ∈ c.zip (c.rotate 1))
    (h' : (a, b') ∈ c.zip (c.rotate 1)) : b' = b := by
  have hfst : ((c.zip (c.rotate 1)).map Prod.fst).Nodup := by
    rw [map_fst_zip (by simp)]
    exact hc
  exact (Prod.mk.inj (inj_on_of_nodup_map hfst h' h rfl)).2

theorem first_lead (hc : Circuit D.graph.refs.Refers c) :
    Circuit (D.lead s c).graph.refs.First c := by
  refine ⟨hc.ne_nil, hc.nodup, forall₂_iff_zip.mpr ⟨by simp, fun {a b} hab => ?_⟩⟩
  obtain ⟨es, hes, e, he, rfl⟩ := (forall₂_iff_zip.mp hc.next).2 hab
  obtain ⟨p, hp, heq⟩ := mem_map.mp hes
  obtain ⟨rfl, rfl⟩ := Prod.mk.inj heq
  have hfront :
      e ∈ p.2.foreignRefs.filter (fun e => decide ((p.1, e.target) ∈ c.zip (c.rotate 1))) :=
    mem_filter.mpr ⟨he, decide_eq_true hab⟩
  obtain ⟨e', es', hcons⟩ := exists_cons_of_ne_nil (ne_nil_of_mem hfront)
  have he' : (p.1, e'.target) ∈ c.zip (c.rotate 1) := by
    have hmem : e' ∈ p.2.foreignRefs.filter
        (fun e => decide ((p.1, e.target) ∈ c.zip (c.rotate 1))) := by simp [hcons]
    exact of_decide_eq_true (mem_filter.mp hmem).2
  refine ⟨e',
    es' ++ p.2.foreignRefs.filter (fun e => !decide ((p.1, e.target) ∈ c.zip (c.rotate 1))), ?_,
    zip_rotate_unique hc.nodup hab he'⟩
  refine mem_map.mpr ⟨leadNode c p, mem_lead hp, ?_⟩
  simp only [leadNode, hcons, cons_append]

/-- A member of a circuit of garbage has weight zero, so the scan queues it. -/
theorem flagged_of_garbage (hD : D.graph.refs.WellFormed) (hfits : ∀ o, (H o).Fits)
    (hc : Garbage D.isLocal D.graph.refs H c) (hs : s ∈ c) : D.Flagged H s := by
  obtain ⟨b, -, es, hes, e, he, -⟩ := hc.circuit.exists_next hs
  have hpos := hD.pos s es hes e he
  have hsum : e.refCount ≤ es.foldr (fun e n => e.refCount + n) 0 := by
    clear hes hpos
    induction es with
    | nil => simp at he
    | cons d es ih =>
      rw [foldr_cons]
      rcases mem_cons.mp he with rfl | he
      · omega
      · have := ih he
        omega
  refine ⟨es, lookup_of_mem hD.nodup hes, hc.isLocal s hs, ?_, ?_⟩
  · rw [Header.isAlive_iff (hfits s), hc.foreignCount s hs]
    exact Nat.succ_pos _
  · rw [hc.foreignCount s hs]
    omega

/-- The order that comes to `s` first makes it a suspect. -/
theorem suspect_lead (hD : D.graph.refs.WellFormed) (hfits : ∀ o, (H o).Fits)
    (hc : Garbage D.isLocal D.graph.refs H c) (hs : s ∈ c) (hcand : D.Candidate s) :
    s ∈ ((D.lead s c).refreshed H).suspects := by
  have hre := D.reordered_lead s c
  have hD' := hre.wellFormed hD
  have hkeys := hD'.keys
  have hflag : (D.lead s c).Flagged H s := flagged_of_garbage hD' hfits (hre.garbage_iff.mpr hc) hs
  rw [(refreshed_spec hkeys).1 s]
  simp only [Candidate, queued, scanSlice] at hcand ⊢
  have hscan : (D.lead s c).scanKeys = D.scanKeys := rfl
  rw [hscan]
  cases hk : D.scanKeys with
  | none =>
    rw [hk] at hcand
    refine .inr ⟨?_, hflag⟩
    obtain ⟨b, -, es, hes, -⟩ := hc.circuit.exists_next hs
    obtain ⟨p, hp, heq⟩ := mem_map.mp hes
    obtain ⟨rfl, -⟩ := Prod.mk.inj heq
    have hfront : leadNode c p ∈ (D.graph.map (leadNode c)).filter (fun q => decide (q.1 = p.1)) :=
      mem_filter.mpr ⟨mem_map_of_mem hp, by simp [leadNode]⟩
    obtain ⟨q, qs, hcons⟩ := exists_cons_of_ne_nil (ne_nil_of_mem hfront)
    have hq : q.1 = p.1 := by
      have hmem : q ∈ (D.graph.map (leadNode c)).filter (fun q => decide (q.1 = p.1)) := by
        simp [hcons]
      exact of_decide_eq_true (mem_filter.mp hmem).2
    obtain ⟨n, hn⟩ := Nat.exists_eq_succ_of_ne_zero (Nat.pos_iff_ne_zero.mp hcand)
    simp only [lead, hn, hcons, Graph.keys, cons_append, map_cons, take_succ_cons, hq]
    exact mem_cons_self
  | some keys =>
    rw [hk] at hcand
    rcases hcand with h | h
    · exact .inl h
    · exact .inr ⟨h, hflag⟩

theorem sealedGarbage_of_kept (hD : D.graph.refs.WellFormed)
    (hexact : ExactCounts D.graph.refs H)
    (hkept : ∀ D', D.Reordered D' → Kept D' H (detectCycles D' H)) : D.SealedGarbage H := by
  have hleaf := sweepsLeaves_of_kept hD hexact (hkept D (.refl D))
  rintro c hc ⟨s, hs, hcand⟩
  obtain ⟨l, hl, hmem⟩ := hc.circuit.exists_cons hs
  have hc' : Garbage D.isLocal D.graph.refs H (s :: l) :=
    ⟨hl, fun o ho => hc.isLocal o ((hmem o).mp ho), fun o ho => hc.refCount o ((hmem o).mp ho),
      fun o ho => hc.foreignCount o ((hmem o).mp ho)⟩
  have hre := D.reordered_lead s (s :: l)
  have hkept' := hkept _ hre
  have hD' := hre.wellFormed hD
  have hkeys := hD'.keys
  have hleaf' := hre.sweepsLeaves hleaf
  have hcov : Covered (D.lead s (s :: l)).graph.refs H := (hre.exactCounts hexact).covered hD'
  have hsub := refreshed_sublist (H := H) hkeys
  have hwf := hcov.sublist hsub
  have hpass := detectCycles_pass hcov
  -- the circuit in the graph after the scan
  have hring : Garbage (D.lead s (s :: l)).isLocal ((D.lead s (s :: l)).refreshed H).graph.refs H
      (s :: l) := (garbage_refreshed_iff hkeys hleaf').mpr (hre.garbage_iff.mpr hc')
  have hfirst : Circuit ((D.lead s (s :: l)).refreshed H).graph.refs.First (s :: l) := by
    refine (first_lead (s := s) hl).mono fun a _ b _ hab => ?_
    obtain ⟨e, es, hes, heb⟩ := hab
    exact ⟨e, es, (refreshed_of_sweepsLeaves hkeys hleaf').1 a e _ (by simp) hes, heb⟩
  have hfreed : ∀ o ∈ s :: l, o ∈ (detectCycles (D.lead s (s :: l)) H).freed := by
    rw [detectCycles_eq]
    refine Pass.run_reclaims hwf hring hfirst _ (fun a ha => ha)
      (suspect_lead hD hexact.fits hc' (by simp) hcand)
      ⟨(refreshed_spec hkeys).2, ?_, fun _ _ => rfl, nodup_nil, by simp⟩
    simp
  intro o ho
  have ho' := (hmem o).mpr ho
  refine ⟨hkept'.sticky o (hfreed o ho'), fun t ht => ?_⟩
  have ht' : ((D.lead s (s :: l)).refreshed H).graph.refs.Refers o t :=
    (refers_refreshed_iff hkeys hleaf' o t).mpr ((hre.refers_iff o t).mpr ht)
  by_cases htf : t ∈ (detectCycles (D.lead s (s :: l)) H).freed
  · -- the target lies on a circuit of its own, which is this one
    obtain ⟨c₂, hc₂, htc₂, -⟩ := hpass.rings t htf
    have hoc₂ := hc₂.closedBack hwf o t ht' htc₂
    exact (hmem t).mp ((hring.mem_iff hc₂ hwf ho' hoc₂ t).mpr htc₂)
  · -- the count of the target still has the reference
    exfalso
    have hcounts := hkept'.counts t htf
    rw [hpass.headers t htf, hexact.count, ← hre.incoming_eq,
      ← (refreshed_of_sweepsLeaves hkeys hleaf').2 t, hpass.refs] at hcounts
    have hsum := incoming_filter_add ((D.lead s (s :: l)).refreshed H).graph.refs
      (fun p => decide (p.1 ∉ (detectCycles (D.lead s (s :: l)) H).freed)) t
    have hpos : 0 < incoming (((D.lead s (s :: l)).refreshed H).graph.refs.filter
        fun p => !decide (p.1 ∉ (detectCycles (D.lead s (s :: l)) H).freed)) t := by
      obtain ⟨es, hes, he⟩ := ht'
      refine (hwf.wellFormed.filter _).incoming_pos ⟨es, mem_filter.mpr ⟨hes, ?_⟩, he⟩
      simpa using hfreed o ho'
    omega

end Detect

/-- Over a graph with exact counts, whatever the order of its nodes and edges: a pass reclaims only
objects that nothing outside refers to, none twice, and leaves exact counts, if and only if the
sweep drops no edges and the circuits of garbage it may meet hold nothing sticky and refer to
nothing else. -/
theorem cycle_collection_sound {D : CycleDetector} {H : Headers} (hD : D.graph.refs.WellFormed)
    (hexact : ExactCounts D.graph.refs H) :
    (∀ D', D.Reordered D' → Kept D' H (detectCycles D' H)) ↔
      D.SweepsLeaves H ∧ D.SealedGarbage H := by
  constructor
  · exact fun hkept => ⟨sweepsLeaves_of_kept hD hexact (hkept D (.refl D)),
      sealedGarbage_of_kept hD hexact hkept⟩
  · rintro ⟨hleaf, hseal⟩ D' hre
    exact kept_of_sealed (hre.wellFormed hD) (hre.exactCounts hexact)
      (hre.sweepsLeaves hleaf) (hre.sealedGarbage hseal)

theorem Graph.wellFormed_iff :
    g.refs.WellFormed ↔ g.keys.Nodup ∧ ∀ p ∈ g, ∀ e ∈ p.2.foreignRefs, 0 < e.refCount := by
  constructor
  · intro h
    refine ⟨h.keys, fun p hp => ?_⟩
    exact h.pos p.1 p.2.foreignRefs (mem_map.mpr ⟨p, hp, rfl⟩)
  · rintro ⟨hkeys, hpos⟩
    refine ⟨(keys_refs).symm ▸ hkeys, fun a es hes => ?_⟩
    obtain ⟨p, hp, heq⟩ := mem_map.mp hes
    obtain ⟨rfl, rfl⟩ := Prod.mk.inj heq
    exact hpos p hp

theorem Graph.keys_modify (o : Obj) (f : ForeignRefNode → ForeignRefNode) :
    (g.modify o f).keys = g.keys := by
  simp only [keys, modify, map_map]
  refine map_congr_left fun p _ => ?_
  by_cases h : p.1 = o <;> simp [h]

theorem Graph.modify_wellFormed (hg : g.refs.WellFormed) (o : Obj)
    {f : ForeignRefNode → ForeignRefNode} (hf : ∀ node, (∀ e ∈ node.foreignRefs, 0 < e.refCount) →
      ∀ e ∈ (f node).foreignRefs, 0 < e.refCount) : (g.modify o f).refs.WellFormed := by
  obtain ⟨hkeys, hpos⟩ := wellFormed_iff.mp hg
  refine wellFormed_iff.mpr ⟨(keys_modify o f).symm ▸ hkeys, fun p hp => ?_⟩
  obtain ⟨q, hq, rfl⟩ := mem_map.mp hp
  split
  · exact hf q.2 (hpos q hq)
  · exact hpos q hq

theorem CycleDetector.new_wellFormed : new.graph.refs.WellFormed :=
  ⟨nodup_nil, fun _ _ h => absurd h not_mem_nil⟩

/-- The source's node is there, or a node without edges is added for it. -/
theorem Graph.entry_wellFormed (hg : g.refs.WellFormed) (o : Obj) :
    (if g.keys.contains o then g else g ++ [(o, ⟨[], 0, .white⟩)] : Graph).refs.WellFormed := by
  obtain ⟨hkeys, hpos⟩ := wellFormed_iff.mp hg
  split
  · exact hg
  · rename_i hnew
    refine wellFormed_iff.mpr ⟨?_, fun p hp => ?_⟩
    · simp only [keys, map_append, map_cons, map_nil]
      rw [← concat_eq_append]
      exact hkeys.concat (by simpa [keys] using hnew)
    · rcases mem_append.mp hp with hp | hp
      · exact hpos p hp
      · rw [mem_singleton.mp hp]
        exact fun _ he => absurd he not_mem_nil

/-- A registered graph has one node for each object and no empty edge. -/
theorem CycleDetector.registerForeignRef_wellFormed {D : CycleDetector}
    (h : D.graph.refs.WellFormed) (source target : Obj) :
    (D.registerForeignRef source target).graph.refs.WellFormed := by
  simp only [registerForeignRef]
  split
  · exact h
  · split
    · exact h
    · split
      · exact h
      · dsimp only
        refine modify_wellFormed (entry_wellFormed h source) source ?_
        intro node hnode e he
        split at he
        · obtain ⟨d, hd, rfl⟩ := mem_map.mp he
          split
          · exact Nat.succ_pos _
          · exact hnode d hd
        · rcases mem_append.mp he with he | he
          · exact hnode e he
          · rw [mem_singleton.mp he]
            exact Nat.one_pos

/-- Two objects of different actors that refer to each other. -/
def pairDetector : CycleDetector :=
  (CycleDetector.new.registerForeignRef ⟨1, 16⟩ ⟨2, 32⟩).registerForeignRef ⟨2, 32⟩ ⟨1, 16⟩

def pairHeaders : Headers := fun o => ⟨0, pairDetector.graph.refs.incoming o, false⟩

theorem pairDetector_wellFormed : pairDetector.graph.refs.WellFormed :=
  registerForeignRef_wellFormed
    (registerForeignRef_wellFormed new_wellFormed _ _) _ _

theorem pairDetector_refs : pairDetector.graph.refs =
    [(⟨1, 16⟩, [⟨⟨2, 32⟩, 1⟩]), (⟨2, 32⟩, [⟨⟨1, 16⟩, 1⟩])] := by decide

theorem pairDetector_exact : ExactCounts pairDetector.graph.refs pairHeaders := by
  refine ⟨fun _ => rfl, fun o => ?_⟩
  simp only [Header.Fits, pairHeaders, pairDetector_refs, incoming, countTo, foldr_cons, foldr_nil]
  split <;> split <;> decide

/-- The pair is reclaimed as a whole, in whatever order the detector comes to it. -/
theorem cycle_collection_sound_pair : pairDetector.graph.refs.WellFormed ∧
    ∀ D', pairDetector.Reordered D' → Kept D' pairHeaders (detectCycles D' pairHeaders) := by
  refine ⟨pairDetector_wellFormed,
    (cycle_collection_sound pairDetector_wellFormed pairDetector_exact).mpr
    ⟨fun _ => by decide, ?_⟩⟩
  intro c hc _ o ho
  refine ⟨rfl, fun t ht => ?_⟩
  -- each of the two has one edge, so the next object of the circuit is the target
  obtain ⟨b, hb, hob⟩ := hc.circuit.exists_next ho
  have hone : t = b := by
    rw [pairDetector_refs] at ht hob
    obtain ⟨es, hes, e, he, rfl⟩ := ht
    obtain ⟨es', hes', e', he', rfl⟩ := hob
    simp only [mem_cons, Prod.mk.injEq, not_mem_nil, or_false] at hes hes'
    rcases hes with ⟨rfl, rfl⟩ | ⟨rfl, rfl⟩ <;> rcases hes' with ⟨h, rfl⟩ | ⟨h, rfl⟩ <;> simp_all
  rw [hone]
  exact hb

/-- The pair, with a sticky object in it that also refers to an object of a third actor. -/
def stickyDetector : CycleDetector := pairDetector.registerForeignRef ⟨2, 32⟩ ⟨3, 48⟩

def stickyHeaders : Headers := fun o =>
  ⟨if o = ⟨3, 48⟩ then 1 else 0, stickyDetector.graph.refs.incoming o, decide (o = ⟨2, 32⟩)⟩

/-- The sticky object is reclaimed, and the object it refers to keeps a count that no edge accounts
for. -/
theorem cycle_collection_loses_count :
    (stickyHeaders ⟨2, 32⟩).sticky = true ∧
    (⟨2, 32⟩ : Obj) ∈ (detectCycles stickyDetector stickyHeaders).freed ∧
    (⟨3, 48⟩ : Obj) ∉ (detectCycles stickyDetector stickyHeaders).freed ∧
    ((detectCycles stickyDetector stickyHeaders).headers ⟨3, 48⟩).foreignCount = 1 ∧
    (detectCycles stickyDetector stickyHeaders).detector.graph.refs.incoming ⟨3, 48⟩ = 0 := by
  decide

end Nulang.OrcaCycle

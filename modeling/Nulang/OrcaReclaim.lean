import Mathlib.Data.List.Perm.Basic
import Nulang.OrcaSearch

/-!
# What a detection pass reclaims

A pass of the cycle detector over a graph with exact counts. The scan marks dead nodes and queues
suspects; each suspect is searched from, and the circuit found is freed when the trial decrements
leave nothing of its counts. Everything freed in a pass lies on a circuit of objects that have no
local reference and one foreign reference each (`Pass.rings`), so nothing outside refers to it.

What the detector does not look at is whether an object is sticky and where the other edges of a
node it drops go. `cycle_collection_sound` says that this is all that can go wrong, whatever the
order of the graph's nodes and edges.
-/

set_option autoImplicit false

namespace Nulang.OrcaCycle

open List

theorem foldl_bumpForeign (f : Nat → Nat) : ∀ (l : List Obj) (H : Headers), l.Nodup → ∀ o,
    l.foldl (fun H o => H.bumpForeign o f) H o =
      if o ∈ l then { H o with foreignCount := f (H o).foreignCount } else H o := by
  intro l
  induction l with
  | nil => simp
  | cons a l ih =>
    intro H hl o
    obtain ⟨ha, hl⟩ := nodup_cons.mp hl
    rw [foldl_cons, ih _ hl]
    by_cases hoa : o = a
    · subst hoa
      simp [ha, Headers.bumpForeign]
    · simp [hoa, Headers.bumpForeign]

variable {H : Headers} {c : List Obj}

theorem sendTrialDecrements_apply (hc : c.Nodup) (o : Obj) : sendTrialDecrements H c o =
      if o ∈ c then { H o with foreignCount := (H o).foreignCount - 1 } else H o := by
  rw [sendTrialDecrements, foldl_bumpForeign _ _ _ (nodup_rotate.mpr hc)]
  simp only [mem_rotate]

/-- Putting the references back restores counts that were not zero. -/
theorem cancelTrialDecrements_send (hc : c.Nodup) (hpos : ∀ o ∈ c, 0 < (H o).foreignCount) :
    cancelTrialDecrements (sendTrialDecrements H c) c = H := by
  funext o
  rw [cancelTrialDecrements, foldl_bumpForeign _ _ _ (nodup_rotate.mpr hc),
    sendTrialDecrements_apply hc]
  simp only [mem_rotate]
  by_cases ho : o ∈ c
  · have := hpos o ho
    rw [if_pos ho, if_pos ho]
    simp only [Nat.sub_add_cancel this]
  · rw [if_neg ho, if_neg ho]

/-- The trial leaves nothing of a circuit with one foreign reference for each object. -/
theorem isCycleGarbage_send (hc : c.Nodup) (hfits : ∀ o ∈ c, (H o).Fits) :
    isCycleGarbage (sendTrialDecrements H c) c = true ↔
      ∀ o ∈ c, (H o).refCount = 0 ∧ (H o).foreignCount ≤ 1 := by
  rw [isCycleGarbage, all_eq_true]
  refine forall₂_congr fun o ho => ?_
  rw [sendTrialDecrements_apply hc, if_pos ho]
  have hless : Header.Fits { H o with foreignCount := (H o).foreignCount - 1 } := by
    have := hfits o ho
    unfold Header.Fits at this ⊢
    dsimp only
    omega
  rw [Bool.not_eq_true', ← Bool.not_eq_true, Header.isAlive_iff hless]
  dsimp only
  omega

/-! ## The scan -/

/-- The weight the scan gives a node it looks at. -/
def freshWeight (h : Header) (node : ForeignRefNode) : Nat :=
  if h.isAlive then node.computeWeight h else ForeignRefNode.deadWeight

namespace CycleDetector

/-- The keys this pass scans. -/
def scanSlice (D : CycleDetector) : List Obj :=
  match D.scanKeys with
  | none => D.graph.keys.take D.scanBatchSize
  | some keys => (keys.drop D.scanCursor).take D.scanBatchSize

/-- The scan is over after this pass, and the nodes marked dead are swept. -/
def scanEnds (D : CycleDetector) : Prop :=
  match D.scanKeys with
  | none => D.graph.keys.length ≤ D.scanBatchSize
  | some keys => keys.length ≤ D.scanCursor + D.scanBatchSize

/-- The weight of a node when the keys `ks` have been scanned. -/
def weigh (D : CycleDetector) (H : Headers) (ks : List Obj) (p : Obj × ForeignRefNode) : Nat :=
  if p.1 ∈ ks ∧ D.isLocal p.1.actor = true then freshWeight (H p.1) p.2 else p.2.weight

/-- An object this pass may search from. -/
def Candidate (D : CycleDetector) (o : Obj) : Prop :=
  match D.scanKeys with
  | none => 0 < D.scanBatchSize
  | some _ => o ∈ D.suspects ∨ o ∈ D.scanSlice

/-- A node that the scan queues when it comes to it. -/
def Flagged (D : CycleDetector) (H : Headers) (o : Obj) : Prop :=
  ∃ es, D.graph.refs.lookup o = some es ∧ D.isLocal o.actor = true ∧ (H o).isAlive = true ∧
    (H o).foreignCount - es.foldr (fun e n => e.refCount + n) 0 ≤ D.suspectThreshold

/-- The graph when the keys `ks` have been scanned. -/
def weighed (D : CycleDetector) (H : Headers) (ks : List Obj) : Graph :=
  D.graph.map fun p => (p.1, { p.2 with weight := D.weigh H ks p })

variable {D : CycleDetector}

theorem refs_weighed (ks : List Obj) : (D.weighed H ks).refs = D.graph.refs := by
  simp [weighed, Graph.refs, Function.comp_def]

theorem weighed_nil : D.weighed H [] = D.graph := by
  simp [weighed, weigh]

theorem lookup_eq_of_mem {g : Graph} (hg : g.keys.Nodup) {o : Obj} {node node' : ForeignRefNode}
    (h : g.lookup o = some node) (h' : (o, node') ∈ g) : node' = node := by
  have hmem := SortByKey.mem_of_lookup h
  have := inj_on_of_nodup_map hg h' hmem rfl
  exact (Prod.mk.inj this).2

theorem scanNode_graph (hg : D.graph.keys.Nodup) (o : Obj) :
    (scanNode H D o).graph = D.weighed H [o] := by
  have hunchanged (h : ∀ p ∈ D.graph, p.1 = o → D.isLocal p.1.actor = false) :
      D.graph = D.weighed H [o] := by
    refine (map_id D.graph).symm.trans (map_congr_left fun p hp => ?_)
    have : ¬ (p.1 = o ∧ D.isLocal p.1.actor = true) := fun ⟨hpo, hloc⟩ => by
      rw [h p hp hpo] at hloc
      exact Bool.noConfusion hloc
    simp [weigh, this]
  unfold scanNode
  split
  · rename_i hnone
    refine hunchanged fun p hp hpo => ?_
    have := lookup_eq_none_iff.mp hnone p hp
    simp [hpo] at this
  · rename_i node hnode
    split
    · rename_i hloc
      exact hunchanged fun p _ hpo => by simpa [hpo] using hloc
    · rename_i hloc
      have hset (w : Nat) (hw : w = freshWeight (H o) node) :
          D.graph.modify o ({ · with weight := w }) = D.weighed H [o] := by
        refine map_congr_left fun p hp => ?_
        by_cases hpo : p.1 = o
        · have hp' : (o, p.2) ∈ D.graph := hpo ▸ hp
          have heq := lookup_eq_of_mem hg hnode hp'
          have hl : D.isLocal o.actor = true := by simpa using hloc
          simp [hpo, weigh, hl, hw, heq]
        · simp [hpo, weigh]
      split
      · rename_i hdead
        exact hset _ (by simp only [freshWeight]; rw [if_neg (by simpa using hdead)])
      · rename_i halive
        exact hset _ (by simp only [freshWeight]; rw [if_pos (by simpa using halive)])

theorem scanNode_rest (o : Obj) : scanNode H D o =
    { D with graph := (scanNode H D o).graph, suspects := (scanNode H D o).suspects } := by
  unfold scanNode
  split
  · rfl
  · split
    · rfl
    · split <;> rfl

theorem mem_scanNode_suspects (o a : Obj) :
    a ∈ (scanNode H D o).suspects ↔ a ∈ D.suspects ∨ (a = o ∧ D.Flagged H o) := by
  unfold scanNode Flagged
  rw [Graph.lookup_refs]
  split
  · rename_i hnone
    simp [hnone]
  · rename_i node hnode
    split
    · rename_i hloc
      simp_all
    · rename_i hloc
      split
      · rename_i hdead
        simp_all
      · rename_i halive
        have hl : D.isLocal o.actor = true := by simpa using hloc
        have ha : (H o).isAlive = true := by simpa using halive
        have hflag : (∃ es, Option.map (·.foreignRefs) (D.graph.lookup o) = some es ∧
            D.isLocal o.actor = true ∧ (H o).isAlive = true ∧
            (H o).foreignCount - es.foldr (fun e n => e.refCount + n) 0 ≤ D.suspectThreshold) ↔
            node.computeWeight (H o) ≤ D.suspectThreshold := by
          rw [hnode]
          exact ⟨fun ⟨es, hes, _, _, h⟩ => by obtain rfl := Option.some.inj hes; exact h,
            fun h => ⟨node.foreignRefs, rfl, hl, ha, h⟩⟩
        rw [hflag]
        by_cases hw : node.computeWeight (H o) ≤ D.suspectThreshold <;> simp [hw]

theorem flagged_congr {D' : CycleDetector} (hrefs : D'.graph.refs = D.graph.refs)
    (hloc : D'.isLocal = D.isLocal) (hthr : D'.suspectThreshold = D.suspectThreshold) (o : Obj) :
    D'.Flagged H o ↔ D.Flagged H o := by
  unfold Flagged
  rw [hrefs, hloc, hthr]

theorem ite_scanned {p q r : Prop} [Decidable p] [Decidable q] [Decidable r] (fresh old : Nat) :
    (if q ∧ r then fresh else if p ∧ r then fresh else old) =
      if (p ∨ q) ∧ r then fresh else old := by
  by_cases hp : p <;> by_cases hq : q <;> by_cases hr : r <;> simp [hp, hq, hr]

theorem foldl_scanNode (ks : List Obj) : ∀ {D : CycleDetector}, D.graph.keys.Nodup →
    (ks.foldl (scanNode H) D).graph = D.weighed H ks ∧
    (∀ a, a ∈ (ks.foldl (scanNode H) D).suspects ↔
      a ∈ D.suspects ∨ (a ∈ ks ∧ D.Flagged H a)) ∧
    ks.foldl (scanNode H) D = { D with
      graph := (ks.foldl (scanNode H) D).graph, suspects :=
        (ks.foldl (scanNode H) D).suspects } := by
  induction ks with
  | nil => exact fun {D} _ => ⟨weighed_nil.symm, by simp, rfl⟩
  | cons o ks ih =>
    intro D hD
    have hgraph := scanNode_graph (H := H) hD o
    have hrest := scanNode_rest (D := D) (H := H) o
    have hrefs : (scanNode H D o).graph.refs = D.graph.refs := by rw [hgraph, refs_weighed]
    have hloc : (scanNode H D o).isLocal = D.isLocal := by rw [hrest]; rfl
    have hthr : (scanNode H D o).suspectThreshold = D.suspectThreshold := by rw [hrest]
    have hkeys : (scanNode H D o).graph.keys.Nodup := by
      rw [Graph.keys_eq_of_refs hrefs]
      exact hD
    obtain ⟨hg, hs, hr⟩ := ih hkeys
    refine ⟨?_, fun a => ?_, ?_⟩
    · rw [foldl_cons, hg, weighed, hgraph, weighed, weighed, map_map]
      refine map_congr_left fun p _ => ?_
      simp only [Function.comp_apply, weigh, hloc, mem_cons, not_mem_nil, or_false,
        freshWeight, ForeignRefNode.computeWeight, ite_scanned]
    · rw [foldl_cons, hs, mem_scanNode_suspects, flagged_congr hrefs hloc hthr, or_assoc, mem_cons]
      constructor
      · rintro (h | ⟨rfl, h⟩ | ⟨h, h'⟩)
        · exact .inl h
        · exact .inr ⟨.inl rfl, h⟩
        · exact .inr ⟨.inr h, h'⟩
      · rintro (h | ⟨rfl | h, h'⟩)
        · exact .inl h
        · exact .inr (.inl ⟨rfl, h'⟩)
        · exact .inr (.inr ⟨h, h'⟩)
    · rw [foldl_cons, hr, hrest]

theorem take_min_sub {α : Type*} (l : List α) (c b : Nat) :
    (l.drop c).take (min (c + b) l.length - c) = (l.drop c).take b := by
  rw [take_eq_take_iff, length_drop]
  omega

/-- The suspects that an unfinished scan has queued before. -/
def queued (D : CycleDetector) : List Obj :=
  match D.scanKeys with
  | none => []
  | some _ => D.suspects

theorem startScan_rest : D.startScan = { D with
    suspects := D.queued
    scanKeys := some (D.startScan.scanKeys.getD [])
    scanCursor := D.startScan.scanCursor } := by
  cases D with
  | mk graph suspects epoch localActors thr found reclaimed scanKeys cursor batch =>
    cases scanKeys <;> rfl

theorem startScan_slice :
    ((D.startScan.scanKeys.getD []).drop D.startScan.scanCursor).take D.scanBatchSize =
      D.scanSlice := by
  unfold startScan scanSlice
  cases hk : D.scanKeys <;> simp [hk]

theorem startScan_ends :
    (D.startScan.scanKeys.getD []).length ≤ D.startScan.scanCursor + D.scanBatchSize ↔
      D.scanEnds := by
  unfold startScan scanEnds
  cases hk : D.scanKeys <;> simp [hk]

/-- The detector when this pass has scanned its keys. -/
def scanned (H : Headers) (D : CycleDetector) : CycleDetector :=
  D.scanSlice.foldl (scanNode H) D.startScan

theorem scanned_spec (hD : D.graph.keys.Nodup) : (D.scanned H).graph = D.weighed H D.scanSlice ∧
    (∀ a, a ∈ (D.scanned H).suspects ↔ a ∈ D.queued ∨ (a ∈ D.scanSlice ∧ D.Flagged H a)) ∧
    (D.scanned H).isLocal = D.isLocal := by
  have hstart := startScan_rest (D := D)
  have hgraph : D.startScan.graph = D.graph := by rw [hstart]
  have hloc : D.startScan.isLocal = D.isLocal := by rw [hstart]; rfl
  have hqueue : D.startScan.suspects = D.queued := by rw [hstart]
  have hthr : D.startScan.suspectThreshold = D.suspectThreshold := by rw [hstart]
  have hweigh : D.startScan.weighed H D.scanSlice = D.weighed H D.scanSlice := by
    simp only [weighed, weigh, hgraph, hloc]
  have hkeys : D.startScan.graph.keys.Nodup := by rw [hgraph]; exact hD
  obtain ⟨hg, hs, hr⟩ := foldl_scanNode (H := H) D.scanSlice hkeys
  refine ⟨hg.trans hweigh, fun a => ?_, ?_⟩
  · rw [scanned, hs a, hqueue, flagged_congr (by rw [hgraph]) hloc hthr]
  · rw [scanned, hr, ← hloc]
    rfl

theorem refreshSuspects_of_ends (h : D.scanEnds) : D.refreshSuspects H = { D.scanned H with
    graph := (D.scanned H).graph.filter (·.2.weight ≠ ForeignRefNode.deadWeight)
    scanKeys := none
    scanCursor := 0 } := by
  have hstart := startScan_rest (D := D)
  have hbatch : D.startScan.scanBatchSize = D.scanBatchSize := by rw [hstart]
  have hends := startScan_ends.mpr h
  unfold refreshSuspects
  simp only [hbatch, take_min_sub, startScan_slice]
  rw [if_pos (by omega)]
  rfl

theorem refreshSuspects_of_not_ends (h : ¬ D.scanEnds) :
    ∃ cursor, D.refreshSuspects H = { D.scanned H with scanCursor := cursor } := by
  have hstart := startScan_rest (D := D)
  have hbatch : D.startScan.scanBatchSize = D.scanBatchSize := by rw [hstart]
  have hends := startScan_ends.not.mpr h
  unfold refreshSuspects
  simp only [hbatch, take_min_sub, startScan_slice]
  rw [if_neg (by omega)]
  exact ⟨_, rfl⟩

end CycleDetector

/-- A circuit the trial decrements leave nothing of. -/
structure Garbage (isLocal : Nat → Bool) (r : Refs) (H : Headers) (c : List Obj) : Prop where
  circuit : Circuit r.Refers c
  isLocal : ∀ o ∈ c, isLocal o.actor = true
  refCount : ∀ o ∈ c, (H o).refCount = 0
  foreignCount : ∀ o ∈ c, (H o).foreignCount = 1

/-- No node twice, no empty edge, and the counts cover the edges. -/
structure Covered (r : Refs) (H : Headers) : Prop where
  wellFormed : r.WellFormed
  count : ∀ o, r.incoming o ≤ (H o).foreignCount
  fits : ∀ o, (H o).Fits

section Circuits

variable {isLocal : Nat → Bool} {r : Refs}

/-- Nothing outside refers to such a circuit: the one reference of each object is the circuit's. -/
theorem Garbage.closedBack (hc : Garbage isLocal r H c) (hr : Covered r H) :
    ClosedBack r.Refers c := by
  intro a b hab hb
  obtain ⟨p, hp, hpb⟩ := hc.circuit.exists_prev hb
  have hone : r.incoming b ≤ 1 := (hr.count b).trans (hc.foreignCount b hb).le
  rw [hr.wellFormed.referrer_unique hone hab hpb]
  exact hp

/-- Two of them that share an object are the same. -/
theorem Garbage.mem_iff (hc : Garbage isLocal r H c) {c' : List Obj} (hc' : Garbage isLocal r H c')
    (hr : Covered r H) {o : Obj} (ho : o ∈ c)
    (ho' : o ∈ c') (a : Obj) : a ∈ c ↔ a ∈ c' :=
  ⟨fun ha => hc.circuit.subset_of_meets (hc'.closedBack hr) ho ho' a ha,
    fun ha => hc'.circuit.subset_of_meets (hc.closedBack hr) ho' ho a ha⟩

/-- A circuit of the search with one reference for each object starts at the suspect. -/
theorem Found.mem_of_garbage {s : Obj} (hf : Found isLocal r [s] c) (hc : Garbage isLocal r H c)
    (hr : Covered r H) : s ∈ c := by
  obtain ⟨before, hchain, hnodup, hmem⟩ := hf.walk
  have hs := hmem s (by simp)
  rcases eq_nil_or_concat before with rfl | ⟨before, b, rfl⟩
  · simpa using hs
  · -- the walk would come in from outside
    exfalso
    obtain ⟨a, l, rfl⟩ := exists_cons_of_ne_nil hc.circuit.ne_nil
    rw [concat_eq_append, append_assoc, singleton_append] at hchain
    have hba : r.Refers b a := (isChain_cons_cons.mp hchain.right_of_append).1
    have hb : b ∈ a :: l := hc.closedBack hr b a hba (by simp)
    exact (nodup_append.mp hnodup).2.2 b (by simp) b hb rfl

end Circuits

/-! ## The suspects in turn -/

/-- What one suspect can do: nothing but colours; a circuit put back; a circuit freed. -/
inductive Suspected (W : World) (s : Obj) (W' : World) : Prop where
  | colored (isLocal : W'.detector.isLocal = W.detector.isLocal)
      (refs : W'.detector.graph.refs = W.detector.graph.refs) (headers : W'.headers = W.headers)
      (freed : W'.freed = W.freed) : Suspected W s W'
  | cancelled (c : List Obj)
      (found : Found W.detector.isLocal W.detector.graph.refs [s] c)
      (isLocal : W'.detector.isLocal = W.detector.isLocal)
      (refs : W'.detector.graph.refs = W.detector.graph.refs)
      (headers : W'.headers = cancelTrialDecrements (sendTrialDecrements W.headers c) c)
      (freed : W'.freed = W.freed) : Suspected W s W'
  | reclaimed (c : List Obj)
      (found : Found W.detector.isLocal W.detector.graph.refs [s] c)
      (garbage : isCycleGarbage (sendTrialDecrements W.headers c) c = true)
      (isLocal : W'.detector.isLocal = W.detector.isLocal)
      (refs : W'.detector.graph.refs = W.detector.graph.refs.filter (·.1 ∉ c))
      (headers : W'.headers = sendTrialDecrements W.headers c)
      (freed : W'.freed = W.freed ++ c) : Suspected W s W'

theorem refs_foldl_remove (g : Graph) :
    (c.foldl Graph.remove g).refs = g.refs.filter (·.1 ∉ c) := by
  induction c generalizing g with
  | nil => simp
  | cons a c ih =>
    rw [foldl_cons, ih, Graph.refs_remove, filter_filter]
    refine filter_congr fun p _ => ?_
    by_cases hpa : p.1 = a <;> simp [hpa]

theorem refs_foldl_setColor (color : NodeColor) (g : Graph) :
    (c.foldl (fun g o => g.setColor o color) g).refs = g.refs := by
  induction c generalizing g with
  | nil => rfl
  | cons a c ih => rw [foldl_cons, ih, Graph.refs_setColor]

/-- The graph with every node white. -/
def Graph.whitened (g : Graph) : Graph := g.map fun p => (p.1, { p.2 with color := .white })

theorem Graph.refs_whitened (g : Graph) : g.whitened.refs = g.refs := by
  simp [Graph.whitened, Graph.refs, Function.comp_def]

theorem World.processSuspect_cases (W : World) (s : Obj) : Suspected W s (W.processSuspect s) := by
  simp only [World.processSuspect]
  split
  · exact .colored rfl rfl rfl rfl
  · split
    · exact .colored rfl rfl rfl rfl
    · split
      · exact .colored rfl rfl rfl rfl
      · have hwhite := W.detector.graph.refs_whitened
        have htrail : Trail W.detector.isLocal W.detector.graph.whitened [] :=
          ⟨by simp, by simp, by simp⟩
        have hsearch : Graph.Searched W.detector.graph.whitened (dfsFindCycle W.detector.isLocal
            (W.detector.graph.whitened.length + 1) W.detector.graph.whitened [] s).2 :=
          dfsFindCycle_searched _ _ [] s
        have hfound := dfsFindCycle_sound (W.detector.graph.whitened.length + 1)
          W.detector.graph.whitened [] s htrail (by simp)
        rw [hwhite, nil_append] at hfound
        have hrefs := hsearch.refs.trans hwhite
        simp only [Graph.whitened] at hfound hrefs
        split
        · rename_i g' heq
          rw [heq] at hrefs
          exact .colored rfl hrefs rfl rfl
        · rename_i cycle g' heq
          rw [heq] at hrefs hfound
          have hf := hfound cycle rfl
          split
          · rename_i hg
            refine .reclaimed cycle hf hg rfl ?_ rfl rfl
            exact (refs_foldl_remove g').trans (by rw [show g'.refs = _ from hrefs])
          · exact .cancelled cycle hf rfl ((refs_foldl_setColor _ g').trans hrefs) rfl rfl

/-- Where a pass stands, over the references and headers it started from: what is freed lies on
circuits of garbage through a suspect, and the rest is as it was. -/
structure Pass (isLocal : Nat → Bool) (r : Refs) (H : Headers) (suspects : List Obj) (W : World) :
    Prop where
  actors : W.detector.isLocal = isLocal
  refs : W.detector.graph.refs = r.filter (·.1 ∉ W.freed)
  headers : ∀ o, o ∉ W.freed → W.headers o = H o
  nodup : W.freed.Nodup
  rings : ∀ o ∈ W.freed, ∃ c, Garbage isLocal r H c ∧ o ∈ c ∧ (∀ a ∈ c, a ∈ W.freed) ∧
    ∃ s ∈ suspects, s ∈ c

section Pass

variable {isLocal : Nat → Bool} {r : Refs} {suspects : List Obj}

variable {W : World} {s : Obj} {l : List Obj}

/-- Everything that refers to a freed object is freed. -/
theorem Pass.closedBack (h : Pass isLocal r H suspects W) (hr : Covered r H) :
    ClosedBack r.Refers W.freed := by
  intro a b hab hb
  obtain ⟨c, hc, hbc, hsub, -⟩ := h.rings b hb
  exact hsub a (hc.closedBack hr a b hab hbc)

/-- A circuit found now is one of the graph the pass started from. -/
theorem Pass.found (h : Pass isLocal r H suspects W) {c : List Obj}
    (hf : Found W.detector.isLocal W.detector.graph.refs [s] c) :
    Found isLocal r [s] c ∧ ∀ o ∈ c, o ∉ W.freed := by
  rw [h.actors, h.refs] at hf
  obtain ⟨before, hchain, hnodup, hmem⟩ := hf.walk
  have hnode (a : Obj) (ha : a ∈ c) : a ∈ r.map (·.1) ∧ a ∉ W.freed := by
    obtain ⟨p, hp, rfl⟩ := mem_map.mp (hf.isNode a ha).2
    obtain ⟨hp, hfree⟩ := mem_filter.mp hp
    exact ⟨mem_map.mpr ⟨p, hp, rfl⟩, by simpa using hfree⟩
  refine ⟨⟨hf.circuit.mono fun a _ b _ hab => hab.of_filter, fun a ha => ?_, before, ?_,
    hnodup, hmem⟩,
    fun o ho => (hnode o ho).2⟩
  · exact ⟨(hf.isNode a ha).1, (hnode a ha).1⟩
  · exact hchain.imp fun a b hab => hab.of_filter

theorem Found.foreignCount_pos {c : List Obj} (hf : Found isLocal r [s] c) (hr : Covered r H)
    (o : Obj) (ho : o ∈ c) : 0 < (H o).foreignCount := by
  obtain ⟨p, -, hpo⟩ := hf.circuit.exists_prev ho
  exact Nat.lt_of_lt_of_le (hr.wellFormed.incoming_pos hpo) (hr.count o)

theorem Pass.unfreed {W' : World} (h : Pass isLocal r H suspects W)
    (hloc : W'.detector.isLocal = W.detector.isLocal)
    (hrefs : W'.detector.graph.refs = W.detector.graph.refs) (hheaders : W'.headers = W.headers)
    (hfreed : W'.freed = W.freed) : Pass isLocal r H suspects W' :=
  ⟨hloc.trans h.actors, by rw [hrefs, hfreed]; exact h.refs,
    fun o ho =>
      by rw [hheaders]; exact h.headers o (hfreed ▸ ho), hfreed ▸ h.nodup, hfreed ▸ h.rings⟩

theorem Pass.step (h : Pass isLocal r H suspects W) (hr : Covered r H) (hs : s ∈ suspects) :
    Pass isLocal r H suspects (W.processSuspect s) := by
  cases W.processSuspect_cases s with
  | colored hloc hrefs hheaders hfreed => exact h.unfreed hloc hrefs hheaders hfreed
  | cancelled c hfound hloc hrefs hheaders hfreed =>
    obtain ⟨hf, hout⟩ := h.found hfound
    refine h.unfreed hloc hrefs (hheaders.trans ?_) hfreed
    refine cancelTrialDecrements_send hf.circuit.nodup fun o ho => ?_
    rw [h.headers o (hout o ho)]
    exact hf.foreignCount_pos hr o ho
  | reclaimed c hfound hgarbage hloc hrefs hheaders hfreed =>
    obtain ⟨hf, hout⟩ := h.found hfound
    have hfits : ∀ o ∈ c, (W.headers o).Fits := fun o ho => h.headers o (hout o ho) ▸ hr.fits o
    have htrial := (isCycleGarbage_send hf.circuit.nodup hfits).mp hgarbage
    have hc : Garbage isLocal r H c := by
      refine ⟨hf.circuit, fun o ho => (hf.isNode o ho).1, fun o ho => ?_, fun o ho => ?_⟩
      · rw [← h.headers o (hout o ho)]
        exact (htrial o ho).1
      · have hpos := hf.foreignCount_pos hr o ho
        have hle := (htrial o ho).2
        rw [h.headers o (hout o ho)] at hle
        omega
    refine ⟨hloc.trans h.actors, ?_, fun o ho => ?_, ?_, fun o ho => ?_⟩
    · rw [hrefs, h.refs, hfreed, filter_filter]
      refine filter_congr fun p _ => ?_
      simp [mem_append, not_or, and_comm]
    · rw [hfreed, mem_append, not_or] at ho
      rw [hheaders, sendTrialDecrements_apply hf.circuit.nodup, if_neg ho.2]
      exact h.headers o ho.1
    · rw [hfreed]
      exact nodup_append.mpr ⟨h.nodup, hf.circuit.nodup,
        fun a ha b hb heq => hout b hb (heq ▸ ha)⟩
    · rw [hfreed] at ho ⊢
      rcases mem_append.mp ho with ho | ho
      · obtain ⟨c', hc', hoc', hsub, hsus⟩ := h.rings o ho
        exact ⟨c', hc', hoc', fun a ha => mem_append_left _ (hsub a ha), hsus⟩
      · exact ⟨c, hc, ho, fun a ha => mem_append_right _ ha, s, hs, hf.mem_of_garbage hc hr⟩

theorem Pass.run (hr : Covered r H)
    (ss : List Obj) (hss : ∀ s ∈ ss, s ∈ suspects) (h : Pass isLocal r H suspects W) :
    Pass isLocal r H suspects (ss.foldl World.processSuspect W) :=
  foldlRecOn (motive := Pass isLocal r H suspects) ss _ h fun _ h s hs => h.step hr (hss s hs)

/-- The first edge of the node of `a` goes to `b`. -/
def Refs.First (r : Refs) (a b : Obj) : Prop := ∃ e es, (a, e :: es) ∈ r ∧ e.target = b

theorem Refs.lookup_of_mem (hr : (r.map (·.1)).Nodup) {a : Obj} {es : List ForeignEdge}
    (h : (a, es) ∈ r) : r.lookup a = some es := by
  obtain ⟨r₁, r₂, rfl⟩ := append_of_mem h
  refine lookup_eq_some_iff.mpr ⟨r₁, r₂, rfl, fun p hp => ?_⟩
  rw [map_append, map_cons] at hr
  have hne := (nodup_append.mp hr).2.2 p.1 (mem_map_of_mem hp) a (by simp)
  simpa using fun h => hne h.symm

theorem Graph.colored_whitened (g : Graph) (a : Obj) : g.whitened.Colored a .white := by
  intro node hnode
  obtain ⟨p, -, heq⟩ := mem_map.mp (SortByKey.mem_of_lookup hnode)
  rw [← (Prod.mk.inj heq).2]

theorem World.mem_freed_processSuspect {o : Obj} (ho : o ∈ W.freed) :
    o ∈ (W.processSuspect s).freed := by
  cases W.processSuspect_cases s with
  | colored _ _ _ hfreed => exact hfreed ▸ ho
  | cancelled c _ _ _ _ hfreed => exact hfreed ▸ ho
  | reclaimed c _ _ _ _ _ hfreed => exact hfreed ▸ mem_append_left c ho

theorem World.mem_freed_run {o : Obj} (ss : List Obj) (ho : o ∈ W.freed) :
    o ∈ (ss.foldl World.processSuspect W).freed := by
  induction ss generalizing W with
  | nil => exact ho
  | cons s ss ih => exact ih (World.mem_freed_processSuspect ho)

/-- The search from a suspect whose circuit comes first returns the circuit. -/
theorem Pass.search_circuit (h : Pass isLocal r H suspects W) (hr : r.WellFormed)
    (hc : Garbage isLocal r H (s :: l)) (hfirst : Circuit r.First (s :: l))
    (hout : ∀ o ∈ s :: l, o ∉ W.freed) : (∀ o ∈ s :: l, o ∈ W.detector.graph.keys) ∧
    (dfsFindCycle isLocal (W.detector.graph.whitened.length + 1) W.detector.graph.whitened [] s).1 =
      some (s :: l) := by
  have hwhite := W.detector.graph.refs_whitened
  have hrefs := hwhite.trans h.refs
  have hkeep (a : Obj) (ha : a ∈ s :: l) (es : List ForeignEdge) (hes : (a, es) ∈ r) :
      (a, es) ∈ W.detector.graph.whitened.refs := by
    rw [hrefs]
    exact mem_filter.mpr ⟨hes, by simpa using hout a ha⟩
  have hnode (a : Obj) (ha : a ∈ s :: l) : a ∈ W.detector.graph.whitened.keys := by
    obtain ⟨b, -, e, es, hes, -⟩ := hfirst.exists_next ha
    rw [← Graph.keys_refs]
    exact mem_map.mpr ⟨_, hkeep a ha _ hes, rfl⟩
  have hnodup : (W.detector.graph.whitened.refs.map (·.1)).Nodup := by
    rw [hrefs]
    exact (hr.filter _).nodup
  have hleads : Circuit W.detector.graph.whitened.refs.Leads (s :: l) := by
    refine hfirst.mono fun a ha b _ hab => ?_
    obtain ⟨e, es, hes, heb⟩ := hab
    exact ⟨e, es, Refs.lookup_of_mem hnodup (hkeep a ha _ hes), heb⟩
  have hlen : (s :: l).length ≤ W.detector.graph.whitened.length := by
    have := (subperm_of_subset hc.circuit.nodup hnode).length_le
    simpa [Graph.keys] using this
  refine ⟨fun o ho => Graph.keys_eq_of_refs hwhite ▸ hnode o ho, ?_⟩
  refine dfsFindCycle_circuit l [] s _ _ rfl hc.circuit.nodup
    (fun a ha => ⟨hc.isLocal a ha, hnode a ha⟩) (Circuit.iff_chain.mp hleads).2 (by simp)
    (fun a _ => Graph.colored_whitened _ a) ?_
  simp only [length_cons] at hlen
  omega

theorem Pass.reclaims (h : Pass isLocal r H suspects W) (hr : Covered r H)
    (hc : Garbage isLocal r H (s :: l)) (hfirst : Circuit r.First (s :: l)) :
    ∀ o ∈ s :: l, o ∈ (W.processSuspect s).freed := by
  intro o ho
  by_cases hs : s ∈ W.freed
  · have hall := hc.circuit.subset_of_meets (h.closedBack hr) (by simp) hs
    exact World.mem_freed_processSuspect (hall o ho)
  · have hout (a : Obj) (ha : a ∈ s :: l) : a ∉ W.freed := fun hfreed =>
      hs (hc.circuit.subset_of_meets (h.closedBack hr) ha hfreed s (by simp))
    obtain ⟨hkeys, hres⟩ := h.search_circuit hr.wellFormed hc hfirst hout
    have halive : (W.headers s).isAlive = true := by
      rw [h.headers s hs, Header.isAlive_iff (hr.fits s), hc.foreignCount s (by simp)]
      exact Nat.succ_pos _
    have hgarbage : isCycleGarbage (sendTrialDecrements W.headers (s :: l)) (s :: l) = true := by
      refine (isCycleGarbage_send hc.circuit.nodup fun a ha => ?_).mpr fun a ha => ?_
      · rw [h.headers a (hout a ha)]
        exact hr.fits a
      rw [h.headers a (hout a ha)]
      exact ⟨hc.refCount a ha, (hc.foreignCount a ha).le⟩
    have hfreed : (W.processSuspect s).freed = W.freed ++ s :: l := by
      simp only [World.processSuspect, h.actors, hc.isLocal s (by simp), halive,
        contains_iff_mem.mpr (hkeys s (by simp)), Bool.not_true, Bool.false_eq_true, if_false]
      simp only [Graph.whitened] at hres
      cases hsearch : dfsFindCycle isLocal (_ + 1) _ [] s with
      | mk res g' =>
        rw [hsearch] at hres
        have hsome : res = some (s :: l) := hres
        subst hsome
        simp only [hgarbage, if_true]
        rfl
    rw [hfreed]
    exact mem_append_right _ ho

theorem Pass.run_reclaims (hr : Covered r H)
    (hc : Garbage isLocal r H (s :: l)) (hfirst : Circuit r.First (s :: l)) (ss : List Obj)
    (hss : ∀ s ∈ ss, s ∈ suspects) (hs : s ∈ ss) (h : Pass isLocal r H suspects W) :
    ∀ o ∈ s :: l, o ∈ (ss.foldl World.processSuspect W).freed := by
  intro o ho
  obtain ⟨before, after, rfl⟩ := append_of_mem hs
  rw [foldl_append, foldl_cons]
  refine World.mem_freed_run after (Pass.reclaims (Pass.run hr before ?_ h) hr hc hfirst o ho)
  exact fun a ha => hss a (mem_append_left _ ha)

end Pass

end Nulang.OrcaCycle

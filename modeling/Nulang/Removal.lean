import Nulang.Membership

/-!
# Removing failed nodes (`cluster.rs`)

The record of a failure starts a clock: a node whose record is old enough is confirmed removed, and
a while later it leaves the tables. A failed node that is heard again becomes healthy, but its
record stays, and with it the clock.

The table is the one of `Membership`, and the clock is any sequence of times. What a removal sets
off on the other nodes, the takeover of the lost node's actors, is in `Takeover`.
-/

set_option autoImplicit false

namespace Nulang.Membership.ClusterState

open List

def suspect (c : ClusterState) (now : Nat) : ClusterState :=
  c.change
    (c.watched fun info => info.status = .healthy && heartbeatTimeout < now - info.lastHeartbeat)
    fun info => { info with status := .suspicious }

/-- The nodes that a tick declares failed. -/
def overdue (c : ClusterState) (now : Nat) : List Nat :=
  (c.suspect now).watched fun info =>
    info.status = .suspicious && heartbeatTimeout + suspicionDuration < now - info.lastHeartbeat

/-- The tables when `tick` comes to the removals. -/
def detect (c : ClusterState) (now : Nat) : ClusterState :=
  let d := (c.suspect now).change (c.overdue now) fun info =>
    { info with status := .failed }.bumpIncarnation
  { d with
    failedNodes := (c.overdue now).foldl (fun failed n => failed.insert n now) d.failedNodes }

/-- The nodes whose failure a tick confirms as a removal: those whose record is old enough and that
it has not confirmed before. `quorum` is the answer of `retains_quorum`. -/
def newlyRemoved (c : ClusterState) (now timeout : Nat) (quorum : Bool) : List Nat :=
  (c.detect now).failedNodes.keys.filter fun n => n ∉ c.removedNodes &&
    ((c.detect now).failedNodes.lookup n).any fun t => 0 < timeout && timeout < now - t && quorum

/-- A whole `tick`: the nodes it reports removed, which go into `removed_nodes`, and the state it
leaves. -/
def tickRemoving (c : ClusterState) (now timeout : Nat) (quorum : Bool) (draws : Nat → Nat)
    (draw : Nat) :
    List Nat × ClusterState :=
  let removed := c.newlyRemoved now timeout quorum
  (removed, { c.tick now draws draw with removedNodes := c.removedNodes ++ removed })

variable {c : ClusterState} {n now : Nat}

theorem lookup_change {nodes : List Nat} (h : nodes.Nodup) (f : NodeInfo → NodeInfo) :
    (c.change nodes f).members.lookup n = (c.members.lookup n).map (if n ∈ nodes then f
      else id) := by
  induction nodes generalizing c with
  | nil => simp [change]
  | cons m nodes ih =>
    obtain ⟨hm, h⟩ := nodup_cons.mp h
    have hone : (c.change (m :: nodes) f) = (c.change [m] f).change nodes f := rfl
    rw [hone, ih h]
    by_cases hn : n = m
    · subst hn
      cases hl : c.members.lookup n <;> simp [change, hl, hm]
    · cases hl : c.members.lookup m <;> simp [change, hl, hn, AList.lookup_insert_ne hn]

theorem nodup_watched (p : NodeInfo → Bool) : (c.watched p).Nodup := c.members.nodupKeys.filter _

theorem repairActiveView_tables (draw : Nat) : (c.repairActiveView now draw).members = c.members ∧
    (c.repairActiveView now draw).failedNodes = c.failedNodes := by
  unfold repairActiveView
  dsimp only
  split
  · exact ⟨rfl, rfl⟩
  · split <;> exact ⟨rfl, rfl⟩

theorem mem_foldl_erase (nodes : List Nat) (m : AList fun _ : Nat => NodeInfo) :
    n ∈ nodes.foldl (fun m n => m.erase n) m ↔ n ∉ nodes ∧ n ∈ m := by
  induction nodes generalizing m with
  | nil => simp
  | cons a nodes ih =>
    rw [foldl_cons, ih, AList.mem_erase, mem_cons, not_or, and_assoc, and_left_comm]

theorem lookup_foldl_insert (nodes : List Nat) (m : AList fun _ : Nat => Nat) :
    (nodes.foldl (fun failed n => failed.insert n now) m).lookup n = if n ∈ nodes then some now
    else m.lookup n := by
  induction nodes generalizing m with
  | nil => simp
  | cons a nodes ih =>
    rw [foldl_cons, ih]
    by_cases hn : n = a
    · subst hn
      simp
    · simp [hn, AList.lookup_insert_ne hn]

theorem mem_keys_filter (m : AList fun _ : Nat => Nat) (p : Nat → Bool) :
    n ∈ m.keys.filter (fun n => (m.lookup n).any p) ↔ (m.lookup n).any p := by
  rw [mem_filter, ← AList.mem_keys, ← AList.lookup_isSome]
  cases m.lookup n <;> simp

theorem mem_newlyRemoved {timeout : Nat} {quorum : Bool} : n ∈ c.newlyRemoved now timeout quorum ↔
    n ∉ c.removedNodes ∧
      ((c.detect now).failedNodes.lookup n).any fun t =>
      0 < timeout && timeout < now - t && quorum := by
  rw [newlyRemoved, ← filter_filter, mem_filter, mem_keys_filter, decide_eq_true_iff, and_comm]

/-- The views change in between, the tables do not. -/
theorem mem_tick (draws : Nat → Nat) (draw : Nat) :
    n ∈ (c.tick now draws draw).members ↔
      ¬((c.detect now).failedNodes.lookup n).any (failedNodeRetention < now - ·) ∧
      n ∈ (c.detect now).members := by
  have hfold (dead : List Nat) (d : ClusterState) : let e := dead.foldl (fun c n => { c with
      activeView := c.activeView.filter (· ≠ n)
      probationary := c.probationary.filter (·.1 ≠ n) }.repairActiveView now (draws n)) d
      e.members = d.members ∧ e.failedNodes = d.failedNodes := by
    induction dead generalizing d with
    | nil => exact ⟨rfl, rfl⟩
    | cons m dead ih =>
      exact ⟨(ih _).1.trans (repairActiveView_tables _).1,
        (ih _).2.trans (repairActiveView_tables _).2⟩
  obtain ⟨d, hm, hf, ht⟩ : ∃ d : ClusterState, d.members = (c.detect now).members ∧
      d.failedNodes = (c.detect now).failedNodes ∧ (c.tick now draws draw).members =
        (d.failedNodes.keys.filter fun n =>
          (d.failedNodes.lookup n).any (failedNodeRetention < now - ·)).foldl
          (fun m n => m.erase n) d.members := by
    refine ⟨_, ?_, ?_, rfl⟩
    · split
      · exact (repairActiveView_tables _).1.trans (hfold _ _).1
      · exact (hfold _ _).1
    · split
      · exact (repairActiveView_tables _).2.trans (hfold _ _).2
      · exact (hfold _ _).2
  rw [ht, mem_foldl_erase, hm, hf, mem_keys_filter]

theorem known_suspect :
    ((c.suspect now).known n).map Prod.fst = some .failed ↔
    (c.known n).map Prod.fst = some .failed := by
  rw [known, known, suspect, lookup_change (nodup_watched _)]
  split
  · rename_i hn
    have hp := (mem_filter.mp hn).2
    cases hl : c.members.lookup n with
    | none => rfl
    | some info => simp_all
  · rw [Option.map_id]
    rfl

theorem lookup_failedNodes_detect : (c.detect now).failedNodes.lookup n =
    if n ∈ c.overdue now then some now else c.failedNodes.lookup n :=
  lookup_foldl_insert _ _

theorem members_detect : (c.detect now).members.lookup n = ((c.suspect now).members.lookup n).map
      (if n ∈ c.overdue now then fun info =>
        { info with status := .failed }.bumpIncarnation else id) :=
  lookup_change (nodup_watched _) _

theorem mem_detect : n ∈ (c.detect now).members ↔ n ∈ c.members := by
  rw [← AList.lookup_isSome, ← AList.lookup_isSome, members_detect, Option.isSome_map, suspect,
    lookup_change (nodup_watched _), Option.isSome_map]

/-- When the record of a failure takes effect: the node is confirmed removed, for the first time, or
dropped from the table. -/
def Due (c : ClusterState) (now timeout : Nat) (quorum : Bool) (n t : Nat) : Prop :=
  (n ∉ c.removedNodes ∧ 0 < timeout ∧ timeout < now - t ∧ quorum = true) ∨
    (n ∈ c.members ∧ failedNodeRetention < now - t)

/-- The operations on the state of a cluster, with the time at which each is called. -/
inductive Op where
  | handleHeartbeat (node address now : Nat)
  | mergeMembership (gossip : List NodeGossip) (now : Nat)
  | mergeMembershipFromSender (gossip : List NodeGossip) (sender now : Nat)
  | tick (now timeout : Nat) (quorum : Bool) (draws : Nat → Nat) (draw : Nat)

def step (c : ClusterState) : Op → ClusterState
  | .handleHeartbeat node address now => c.handleHeartbeat node address now
  | .mergeMembership gossip now => (c.mergeMembershipInner gossip none now).2
  | .mergeMembershipFromSender gossip sender now =>
    (c.mergeMembershipFromSender gossip sender now).2
  | .tick now timeout quorum draws draw => (c.tickRemoving now timeout quorum draws draw).2

/-- The operation, if it is a tick, reports removed and drops from the table only nodes that are
failed by then. -/
def RemovesFailed (c : ClusterState) : Op → Prop
  | .tick now timeout quorum draws draw =>
      ∀ n, n ∈ (c.tickRemoving now timeout quorum draws draw).1 ∨
      (n ∈ c.members ∧ n ∉ (c.tickRemoving now timeout quorum draws draw).2.members) →
        ((c.detect now).known n).map Prod.fst = some .failed
  | _ => True

/-- No record that is due is one of a node that is not failed, unless the tick declares that node
failed anew. -/
def NoneBackDue (c : ClusterState) : Op → Prop
  | .tick now timeout quorum _ _ =>
      ∀ n t, c.failedNodes.lookup n = some t → c.Due now timeout quorum n t →
      (c.known n).map Prod.fst = some .failed ∨ n ∈ c.overdue now
  | _ => True

theorem removesFailed_iff (c : ClusterState) (op : Op) : c.RemovesFailed op ↔ c.NoneBackDue op := by
  cases op with
  | handleHeartbeat | mergeMembership | mergeMembershipFromSender => exact Iff.rfl
  | tick now timeout quorum draws draw =>
    have hstatus {n : Nat} (hn : n ∉ c.overdue now) :
        ((c.detect now).known n).map Prod.fst = some .failed ↔
        (c.known n).map Prod.fst = some .failed := by
      rw [known, members_detect, if_neg hn, Option.map_id]
      exact known_suspect
    -- a node that the tick declares failed has a new record, which is not due
    have hremoved (n : Nat) : (n ∈ (c.tickRemoving now timeout quorum draws draw).1 ∨
        (n ∈ c.members ∧ n ∉ (c.tickRemoving now timeout quorum draws draw).2.members)) ↔
        n ∉ c.overdue now ∧ ∃ t, c.failedNodes.lookup n = some t ∧
        c.Due now timeout quorum n t := by
      unfold tickRemoving
      dsimp only
      rw [mem_newlyRemoved, mem_tick, mem_detect, lookup_failedNodes_detect]
      by_cases hn : n ∈ c.overdue now
      · simp [hn]
      · cases hl : c.failedNodes.lookup n with
        | none => simp [hn]
        | some t =>
          simp [hn, Due, and_assoc]
          grind
    constructor
    · intro h n t ht hdue
      by_cases hn : n ∈ c.overdue now
      · exact .inr hn
      · exact .inl ((hstatus hn).mp (h n ((hremoved n).mpr ⟨hn, t, ht, hdue⟩)))
    · intro h n hr
      obtain ⟨hn, t, ht, hdue⟩ := (hremoved n).mp hr
      exact (hstatus hn).mpr ((h n t ht hdue).resolve_right hn)

/-- Whatever happens to a node's state, its ticks remove only nodes that are failed, exactly if none
of them finds the record of a node that has come back due. -/
theorem removed_failed_iff (localNode address start : Nat) (ops : List Op) :
    (∀ before op after, ops = before ++ op :: after →
      (before.foldl step (new localNode address start)).RemovesFailed op) ↔
    ∀ before op after, ops = before ++ op :: after →
      (before.foldl step (new localNode address start)).NoneBackDue op := by
  simp only [removesFailed_iff]

/-- Node 3 is late, is declared failed, and is heard again, once at 9 s and once at 68 s. -/
def relapse : List Op :=
  [.handleHeartbeat 3 30 0, .tick 8000 30000 true (fun _ => 0) 0, .handleHeartbeat 3 30 9000,
    .handleHeartbeat 3 30 68000]

/-- It is healthy then, and the tick at 69 s reports it removed and drops it. -/
theorem healthy_removed : ((relapse.foldl step (new 1 1 0)).known 3).map Prod.fst = some .healthy ∧
    ¬ (relapse.foldl step (new 1 1 0)).RemovesFailed (.tick 69000 30000 true (fun _ => 0) 0) := by
  refine ⟨by decide, fun h => ?_⟩
  have hreported :
      3 ∈ ((relapse.foldl step (new 1 1 0)).tickRemoving 69000 30000 true (fun _ => 0) 0).1 := by
    decide
  exact absurd (h 3 (.inl hreported)) (by decide)

end Nulang.Membership.ClusterState

import Nulang.Failover

/-!
# The membership table and its gossip (`cluster.rs`)

Every node keeps a status of every other node, from the heartbeats it gets or misses, and the nodes
exchange their tables. Conflicts are settled by the incarnation of an entry, which every observer
counts up on its own when it changes a status. So two observers can arrive at one incarnation with
different statuses, and then neither takes the other's.

Each node's clock and the draws of its random choices are inputs. An exchange of tables is compared
record by record (`known`), for a node that is neither of the two that take part.
-/

set_option autoImplicit false

namespace Nulang.Membership

open List
open Failover (NodeStatus)

/-! ## The table -/

structure NodeInfo where
  address : Nat
  status : NodeStatus
  lastHeartbeat : Nat
  /-- The `_incarnation` of the metadata. -/
  incarnation : Option Nat
deriving DecidableEq

/-- A missing incarnation is sent as 1, and so counted up to 2. -/
def NodeInfo.bumpIncarnation (info : NodeInfo) : NodeInfo :=
  { info with incarnation := some ((info.incarnation.getD 1 + 1) % 2 ^ 64) }

structure NodeGossip where
  nodeId : Nat
  address : Nat
  status : NodeStatus
  incarnation : Nat
deriving DecidableEq

/-- Instants are milliseconds. -/
structure ClusterState where
  localNode : Nat
  members : AList fun _ : Nat => NodeInfo
  failedNodes : AList fun _ : Nat => Nat
  /-- The nodes that have been confirmed gone; none ever leaves this set. -/
  removedNodes : List Nat
  activeView : List Nat
  probationary : List (Nat × Nat)
  passiveView : List Nat
  lastRepairAttempt : Option Nat

def heartbeatTimeout : Nat := 2000
def suspicionDuration : Nat := 5000
def failedNodeRetention : Nat := 60000
def probeInterval : Nat := 5000
def activeViewSize : Nat := 4
def passiveViewSize : Nat := 20
def probationTimeout : Nat := heartbeatTimeout

/-- `Healthy | Joining` -/
def live (status : NodeStatus) : Bool := status = .healthy || status = .joining

/-- An entry about a member that is known; the answer says whether that changes more than its
heartbeat. -/
def NodeInfo.hear (info : NodeInfo) (entry : NodeGossip) (authoritative watched : Bool)
    (now : Nat) : Bool × NodeInfo :=
  let heard : NodeInfo := ⟨entry.address, entry.status, now, some entry.incarnation⟩
  if info.incarnation.getD 0 < entry.incarnation ∨ authoritative then
    if info.status ≠ entry.status then (true, heard)
    -- The sender corrects its own address: that is to travel on.
    else if authoritative ∧ info.address ≠ entry.address then (true, heard.bumpIncarnation)
    else (false, heard)
  else if ¬watched ∧ live info.status ∧ live entry.status then
    (false, { info with lastHeartbeat := now })
  else (false, info)

namespace ClusterState

def new (localNode address now : Nat) : ClusterState :=
  ⟨localNode, (∅ : AList fun _ : Nat => NodeInfo).insert localNode
    ⟨address, .healthy, now, none⟩, ∅,
    [], [], [], [], none⟩

def pushActive (c : ClusterState) (node : Nat) : ClusterState :=
  if c.activeView.length < activeViewSize then { c with activeView := c.activeView ++ [node] }
  else if node ∉ c.passiveView ∧ c.passiveView.length < passiveViewSize then
    { c with passiveView := c.passiveView ++ [node] }
  else c

def observeHeartbeat (c : ClusterState) (node : Nat) : ClusterState :=
  if node = c.localNode then c
  else if c.probationary.any (·.1 = node) then
    { c with probationary := c.probationary.eraseP (·.1 = node) }.pushActive node
  else if node ∈ c.activeView then c
  else { c with passiveView := c.passiveView.erase node }.pushActive node

def handleHeartbeat (c : ClusterState) (node address now : Nat) : ClusterState :=
  let info := match c.members.lookup node with
    | some info =>
      let heard := { info with lastHeartbeat := now, address }
      if info.status = .suspicious ∨ info.status = .failed ∨ info.status = .joining then
        { heard with status := .healthy }.bumpIncarnation
      else heard
    | none => ⟨address, .healthy, now, none⟩
  { c with members := c.members.insert node info }.observeHeartbeat node

def change (c : ClusterState) (nodes : List Nat) (f : NodeInfo → NodeInfo) : ClusterState :=
  { c with
    members :=
      nodes.foldl (fun m n => (m.lookup n).elim m fun info => m.insert n (f info)) c.members }

/-- The members of the active view with a property: only these are watched. -/
def watched (c : ClusterState) (p : NodeInfo → Bool) : List Nat :=
  c.members.keys.filter fun n => n ≠ c.localNode && n ∈ c.activeView && (c.members.lookup n).any p

/-- Solicit a passive member, picked by a random draw. -/
def repairActiveView (c : ClusterState) (now draw : Nat) : ClusterState :=
  let c := { c with lastRepairAttempt := some now }
  let candidates := c.passiveView.filter fun n =>
    n ≠ c.localNode && n ∉ c.activeView && !c.probationary.any (·.1 = n) &&
      (c.members.lookup n).any (live ·.status)
  if activeViewSize ≤ c.activeView.length then c
  else match candidates[draw % candidates.length]? with
    | some pick => { c with
        passiveView := c.passiveView.filter (· ≠ pick)
        probationary := c.probationary ++ [(pick, now)] }
    | none => c

/-- Members that are not failed and in no view. -/
def homeless (c : ClusterState) : List Nat :=
  c.members.keys.filter fun n => n ≠ c.localNode && (c.members.lookup n).any (·.status ≠ .failed) &&
    n ∉ c.activeView && !c.probationary.any (·.1 = n) && n ∉ c.passiveView

/-- What `tick` does to the tables and the views; `draws` are the draws of the repairs after
failures, `draw` that of the last one. The confirmed removals, which need the resolver's answer, are
`tickRemoving`. -/
def tick (c : ClusterState) (now : Nat) (draws : Nat → Nat) (draw : Nat) : ClusterState :=
  let late :=
    c.watched fun info => info.status = .healthy && heartbeatTimeout < now - info.lastHeartbeat
  let c := c.change late fun info => { info with status := .suspicious }
  let dead := c.watched fun info =>
    info.status = .suspicious && heartbeatTimeout + suspicionDuration < now - info.lastHeartbeat
  let c := c.change dead fun info => { info with status := .failed }.bumpIncarnation
  let c := { c with failedNodes := dead.foldl (fun failed n => failed.insert n now) c.failedNodes }
  let c := dead.foldl (fun c n => { c with
    activeView := c.activeView.filter (· ≠ n)
    probationary := c.probationary.filter (·.1 ≠ n) }.repairActiveView now (draws n)) c
  let c := { c with probationary := c.probationary.filter (now - ·.2 ≤ probationTimeout) }
  let c :=
    { c with
      passiveView := c.passiveView ++ c.homeless.take (passiveViewSize - c.passiveView.length) }
  let due := c.lastRepairAttempt.all fun last => decide (probeInterval ≤ now - last)
  let c := if c.activeView.length < activeViewSize && due then c.repairActiveView now draw else c
  let gone := c.failedNodes.keys.filter fun n =>
    (c.failedNodes.lookup n).any (failedNodeRetention < now - ·)
  { c with
    members := gone.foldl (fun m n => m.erase n) c.members
    failedNodes := gone.foldl (fun m n => m.erase n) c.failedNodes
    passiveView := c.passiveView.filter (· ∉ gone) }

def toGossip (e : Sigma fun _ : Nat => NodeInfo) : NodeGossip :=
  ⟨e.1, e.2.address, e.2.status, e.2.incarnation.getD 1⟩

def gossipPayload (c : ClusterState) (maxEntries : Nat) : List NodeGossip :=
  (c.members.entries.take maxEntries).map toGossip

def fullPayload (c : ClusterState) : List NodeGossip := c.gossipPayload c.members.entries.length

/-- One entry of a gossip; the answer says whether the table has changed. -/
def mergeEntry (sender : Option Nat) (now : Nat) (s : Bool × ClusterState) (entry : NodeGossip) :
    Bool × ClusterState :=
  if entry.nodeId = s.2.localNode then s
  else
    let r := match s.2.members.lookup entry.nodeId with
      | some info =>
        info.hear entry (sender = some entry.nodeId) (entry.nodeId ∈ s.2.activeView) now
      | none => (true, ⟨entry.address, entry.status, now, some entry.incarnation⟩)
    let failing :=
      (s.2.members.lookup entry.nodeId).any (·.status ≠ .failed) && r.2.status = .failed
    (s.1 || r.1, { s.2 with
      members := s.2.members.insert entry.nodeId r.2
      failedNodes := if failing then s.2.failedNodes.insert entry.nodeId now else s.2.failedNodes })

def mergeMembershipInner (c : ClusterState) (gossip : List NodeGossip) (sender : Option Nat)
    (now : Nat) :
    Bool × ClusterState :=
  gossip.foldl (mergeEntry sender now) (false, c)

def mergeMembershipFromSender (c : ClusterState) (gossip : List NodeGossip) (sender now : Nat) :
    Bool × ClusterState :=
  c.mergeMembershipInner gossip (some sender) now

end ClusterState

/-! ## What a third party's entry becomes -/

/-- A status and the incarnation stored with it, if there is one. -/
abbrev Record := NodeStatus × Option Nat

/-- The rule of a merge for a node that is not the sender. -/
def resolve (old : Option Record) (status : NodeStatus) (incarnation : Nat) : Record :=
  match old with
  | some stored => if stored.2.getD 0 < incarnation then (status, some incarnation) else stored
  | none => (status, some incarnation)

/-- What a full payload makes of a record. -/
def hear (old new : Option Record) : Option Record :=
  (new.map fun r => resolve old r.1 (r.2.getD 1)).or old

/-- Nothing is in the way of an agreement: not one incarnation for different statuses, and not an
entry of the first node without an incarnation, where the other has none or has it with 0. -/
def Comparable : Option Record → Option Record → Prop
  | some (s, some n), some (t, some m) => n = m → s = t
  | some (_, none), some (_, some m) => m ≠ 0
  | some (_, none), none => False
  | _, _ => True

theorem hear_agree_iff {r t : Option Record} (h : r.isSome ∨ t.isSome) :
    (∃ status n m, hear r t = some (status, n) ∧ hear t (hear r t) = some (status, m) ∧
      n.getD 0 = m.getD 0) ↔
      Comparable r t := by
  rcases r with _ | ⟨s, _ | n⟩ <;> rcases t with _ | ⟨t, _ | m⟩ <;>
    simp only [Comparable, hear, resolve, Option.map_some, Option.map_none, Option.some_or,
      Option.none_or,
      Option.getD_some, Option.getD_none]
  all_goals grind

namespace ClusterState

/-- What a node stores of another one. -/
def known (c : ClusterState) (x : Nat) : Option Record :=
  (c.members.lookup x).map fun info => (info.status, info.incarnation)

/-- `stored_incarnation`: a missing one is read as 0, though it is sent as 1. -/
def storedIncarnation (c : ClusterState) (x : Nat) : Nat := ((c.known x).bind (·.2)).getD 0

variable {c : ClusterState} {x sender now : Nat} {changed : Bool} {entry : NodeGossip}
  {gossip : List NodeGossip}

variable (s : Bool × ClusterState)

@[simp] theorem localNode_mergeEntry (sender : Option Nat) :
    (mergeEntry sender now s entry).2.localNode = s.2.localNode := by
  unfold mergeEntry
  split <;> rfl

theorem known_mergeEntry_of_ne (sender : Option Nat) (hx : entry.nodeId ≠ x) :
    (mergeEntry sender now s entry).2.known x = s.2.known x := by
  unfold mergeEntry
  split
  · rfl
  · exact congrArg _ (AList.lookup_insert_ne hx.symm)

theorem known_mergeEntry (hx : entry.nodeId = x) (hlocal : x ≠ s.2.localNode)
    (hsender : sender ≠ x) : (mergeEntry (some sender) now s entry).2.known x =
      some (resolve (s.2.known x) entry.status entry.incarnation) := by
  subst hx
  rw [mergeEntry, if_neg hlocal, known, known, AList.lookup_insert]
  cases s.2.members.lookup entry.nodeId with
  | none => rfl
  | some info =>
    simp only [NodeInfo.hear, Option.map_some, resolve, Option.some.injEq, hsender, decide_false]
    grind

theorem known_foldl_of_forall_ne (sender : Option Nat) (s : Bool × ClusterState)
    (h : ∀ e ∈ gossip, e.nodeId ≠ x) :
    (gossip.foldl (mergeEntry sender now) s).2.known x = s.2.known x := by
  induction gossip generalizing s with
  | nil => rfl
  | cons entry gossip ih =>
    obtain ⟨hentry, h⟩ := forall_mem_cons.mp h
    exact (ih _ h).trans (known_mergeEntry_of_ne s sender hentry)

theorem localNode_foldl (sender : Option Nat) (s : Bool × ClusterState) :
    (gossip.foldl (mergeEntry sender now) s).2.localNode = s.2.localNode := by
  induction gossip generalizing s with
  | nil => rfl
  | cons entry gossip ih => exact (ih _).trans (localNode_mergeEntry s sender)

theorem known_foldl_toGossip {l : List (Sigma fun _ : Nat => NodeInfo)} (h : x ∉ l.keys)
    (s : Bool × ClusterState) :
    ((l.map toGossip).foldl (mergeEntry (some sender) now) s).2.known x = s.2.known x := by
  refine known_foldl_of_forall_ne _ s fun e he => ?_
  obtain ⟨m, hm, rfl⟩ := mem_map.mp he
  exact fun hx => h (hx ▸ mem_keys_of_mem hm)

/-- A full payload has one entry for every member. -/
theorem known_merge_fullPayload (d : ClusterState) (hlocal : x ≠ c.localNode)
    (hsender : sender ≠ x) :
    (c.mergeMembershipFromSender d.fullPayload sender now).2.known x =
    hear (c.known x) (d.known x) := by
  rw [mergeMembershipFromSender, mergeMembershipInner, fullPayload, gossipPayload, take_length]
  cases hd : d.members.lookup x with
  | none =>
    rw [known_foldl_toGossip (AList.lookup_eq_none.mp hd), known.eq_def d, hd]
    rfl
  | some info =>
    obtain ⟨before, after, hentries⟩ := append_of_mem (AList.mem_lookup_iff.mp hd)
    have hkeys := d.members.nodupKeys
    rw [hentries, NodupKeys, keys, map_append, map_cons, nodup_middle, nodup_cons, mem_append,
      not_or] at hkeys
    obtain ⟨⟨hbefore, hafter⟩, -⟩ : (x ∉ before.keys ∧ x ∉ after.keys) ∧ _ := hkeys
    have hx : (toGossip ⟨x, info⟩).nodeId = x := rfl
    rw [hentries, map_append, foldl_append, map_cons, foldl_cons, known_foldl_toGossip hafter,
      known_mergeEntry _ hx ?_ hsender, known_foldl_toGossip hbefore, known.eq_def d, hd]
    · rfl
    · rw [localNode_foldl]
      exact hlocal

theorem storedIncarnation_le_mergeEntry (hsender : sender ≠ x) (s : Bool × ClusterState) :
    s.2.storedIncarnation x ≤ (mergeEntry (some sender) now s entry).2.storedIncarnation x := by
  by_cases hx : entry.nodeId = x
  · subst hx
    by_cases hlocal : entry.nodeId = s.2.localNode
    · rw [mergeEntry, if_pos hlocal]
    · rw [storedIncarnation, storedIncarnation, known_mergeEntry s rfl hlocal hsender]
      cases s.2.known entry.nodeId with
      | none => exact Nat.zero_le _
      | some stored =>
        rw [resolve]
        split <;> rename_i hlt
        · exact Nat.le_of_lt hlt
        · exact le_rfl
  · rw [storedIncarnation, storedIncarnation, known_mergeEntry_of_ne s _ hx]

/-- The stored incarnation of a node that is not the sender never goes down. -/
theorem storedIncarnation_le_merge (hsender : sender ≠ x) :
    c.storedIncarnation x ≤
      (c.mergeMembershipFromSender gossip sender now).2.storedIncarnation x := by
  have h (s : Bool × ClusterState) :
      s.2.storedIncarnation x ≤
      (gossip.foldl (mergeEntry (some sender) now) s).2.storedIncarnation x := by
    induction gossip generalizing s with
    | nil => exact le_rfl
    | cons entry gossip ih => exact Nat.le_trans (storedIncarnation_le_mergeEntry hsender s) (ih _)
  exact h (false, c)

/-- A merges what B has, then B what A has then. -/
def exchange (a b : ClusterState) (nowA nowB : Nat) : ClusterState × ClusterState :=
  let a := (a.mergeMembershipFromSender b.fullPayload b.localNode nowA).2
  (a, (b.mergeMembershipFromSender a.fullPayload a.localNode nowB).2)

/-- Two nodes that exchange their tables agree on a third one exactly if their entries for it are
comparable. -/
theorem gossip_agreement_iff (a b : ClusterState) (nowA nowB x : Nat) (ha : x ≠ a.localNode)
    (hb : x ≠ b.localNode) (hknown : x ∈ a.members ∨ x ∈ b.members) :
    ((∃ status n m, (exchange a b nowA nowB).1.known x = some (status, n) ∧
        (exchange a b nowA nowB).2.known x = some (status, m) ∧ n.getD 0 = m.getD 0) ∧
      ∀ (c : ClusterState) (gossip : List NodeGossip) (sender now : Nat), sender ≠ x →
        c.storedIncarnation x ≤
          (c.mergeMembershipFromSender gossip sender now).2.storedIncarnation x) ↔
      Comparable (a.known x) (b.known x) := by
  rw [and_iff_left fun c gossip sender now hsender => storedIncarnation_le_merge hsender]
  have hlocal : (exchange a b nowA nowB).1.localNode = a.localNode := localNode_foldl _ _
  have hfst : (exchange a b nowA nowB).1.known x = hear (a.known x) (b.known x) :=
    known_merge_fullPayload b ha hb.symm
  have hsnd :
      (exchange a b nowA nowB).2.known x = hear (b.known x) ((exchange a b nowA nowB).1.known x) :=
    known_merge_fullPayload _ hb (hlocal ▸ ha.symm)
  rw [hsnd, hfst]
  exact hear_agree_iff (by simpa only [known, Option.isSome_map, AList.lookup_isSome] using hknown)

def heard (n : Nat) : ClusterState := (new n n 0).handleHeartbeat 3 30 0

theorem gossip_agreement_iff_heard :
    ∃ status n m, (exchange (heard 1) (heard 2) 1 1).1.known 3 = some (status, n) ∧
      (exchange (heard 1) (heard 2) 1 1).2.known 3 = some (status, m) ∧ n.getD 0 = m.getD 0 :=
  ((gossip_agreement_iff (heard 1) (heard 2) 1 1 3 (by decide) (by decide)
    (.inl (by decide))).mpr trivial).1

/-- Both observers have counted up to 2: one when the node was late for too long, one when it was
heard again. -/
theorem gossip_disagrees :
    let a := (heard 1).tick 8000 (fun _ => 0) 0
    let b := ((heard 2).tick 3000 (fun _ => 0) 0).handleHeartbeat 3 30 4000
    (exchange a b 8000 8000).1.known 3 = some (.failed, some 2) ∧
      (exchange a b 8000 8000).2.known 3 = some (.healthy, some 2) := by
  decide

end ClusterState

end Nulang.Membership

import Nulang.Failover

/-!
# Convergence of the directory (`cluster.rs`)

Directory entries travel by gossip, in any order and more than once, and a node keeps of every actor
the first one it has heard of with the highest epoch. Nodes agree unless two entries of one actor
tie for its highest epoch: then each node keeps the one that came first.

A history is any list of what a node hears by gossip and announces itself. Entries that come again,
in any order, change nothing (`redelivery_ignored`).
-/

set_option autoImplicit false

namespace Nulang.Failover

open List

/-- Entries that reach a node: by gossip, or as an announcement of its own. -/
inductive Arrival where
  | merge (entries : List DurableDirectoryEntry)
  | announce (entry : DurableDirectoryEntry)

def Arrival.entries : Arrival → List DurableDirectoryEntry
  | .merge entries => entries
  | .announce entry => [entry]

namespace ClusterState

def receive (c : ClusterState) : Arrival → ClusterState
  | .merge entries => c.mergeDirectory entries
  | .announce entry => c.announceDirectory entry

/-- What a node without entries finds of an actor after some arrivals. -/
def found (arrivals : List Arrival) (a : Nat) : Option Home :=
  (arrivals.foldl receive ⟨[], ∅, []⟩).directory.lookup a

variable {c : ClusterState} {entries : List DurableDirectoryEntry} {a : Nat} {home : Home}

theorem foldl_receive (arrivals : List Arrival) :
    arrivals.foldl receive c = c.mergeDirectory (arrivals.flatMap (·.entries)) := by
  induction arrivals generalizing c with
  | nil => rfl
  | cons arrival arrivals ih =>
    rw [foldl_cons, ih, flatMap_cons, mergeDirectory, mergeDirectory, foldl_append]
    cases arrival <;> rfl

theorem lookup_mergeDirectory (h : (c.mergeDirectory entries).directory.lookup a = some home) :
    c.directory.lookup a = some home ∨ ⟨a, home.nodeId, home.epoch⟩ ∈ entries := by
  induction entries generalizing c with
  | nil => exact .inl h
  | cons entry entries ih =>
    rcases ih h with h | h
    · obtain heq | ⟨rfl, -, heq⟩ := lookup_claim c entry a
      · exact .inl (heq ▸ h)
      · cases heq.symm.trans h
        exact .inr mem_cons_self
    · exact .inr (mem_cons_of_mem _ h)

theorem mem_claim (entry : DurableDirectoryEntry) :
    a ∈ (c.claim entry).directory ↔ a ∈ c.directory ∨ entry.actorId = a := by
  by_cases hn : c.Newer entry
  · rw [claim_of_newer hn]
    exact (AList.mem_insert _).trans (or_comm.trans (or_congr_right eq_comm))
  · rw [claim_of_not_newer hn]
    refine (or_iff_left_of_imp ?_).symm
    rintro rfl
    by_contra hm
    exact hn fun home hl => absurd (AList.lookup_isSome.mp (Option.isSome_of_mem hl)) hm

/-- Something is found exactly of the actors with an entry. -/
theorem mem_mergeDirectory :
    a ∈ (c.mergeDirectory entries).directory ↔ a ∈ c.directory ∨ ∃ e ∈ entries, e.actorId = a := by
  induction entries generalizing c with
  | nil => simp [mergeDirectory]
  | cons entry entries ih =>
    rw [mergeDirectory, foldl_cons, ← mergeDirectory, ih, mem_claim, exists_mem_cons_iff, or_assoc]

/-- What is found stays, as long as nothing newer comes. -/
theorem lookup_mergeDirectory_of_le (h : c.directory.lookup a = some home)
    (hle : ∀ x ∈ entries, x.actorId = a → x.epoch ≤ home.epoch) :
    (c.mergeDirectory entries).directory.lookup a = some home := by
  refine foldlRecOn (motive := fun c : ClusterState => c.directory.lookup a = some home) entries _ h
    fun c h entry hmem => ?_
  obtain heq | ⟨rfl, hnew, -⟩ := lookup_claim c entry a
  · exact heq.trans h
  · exact absurd (hnew home h) (Nat.not_lt.mpr (hle entry hmem rfl))

/-- Of the entries that have come for an actor, one with the highest epoch is found. -/
theorem found_spec {arrivals : List Arrival} {S : List DurableDirectoryEntry}
    {e : DurableDirectoryEntry} (hS : ∀ x, x ∈ arrivals.flatMap (·.entries) ↔ x ∈ S) (he : e ∈ S) :
    ∃ home, found arrivals e.actorId = some home ∧ ⟨e.actorId, home.nodeId, home.epoch⟩ ∈ S ∧
      ∀ x ∈ S, x.actorId = e.actorId → x.epoch ≤ home.epoch := by
  have hle (x : DurableDirectoryEntry) (hx : x ∈ S) :=
    le_epochOf_mergeDirectory ((hS x).mpr hx) ⟨[], ∅, []⟩
  rw [found, foldl_receive]
  obtain ⟨home, hhome⟩ := Option.isSome_iff_exists.mp
    (AList.lookup_isSome.mpr
      (mem_mergeDirectory (c := ⟨[], ∅, []⟩).mpr (.inr ⟨e, (hS e).mpr he, rfl⟩)))
  refine ⟨home, hhome, (hS _).mp ((lookup_mergeDirectory hhome).resolve_left (by simp)),
    fun x hx hxe => ?_⟩
  have := hle x hx
  rw [epochOf, hxe, hhome] at this
  exact this

/-- Two nodes that hear of the same entries agree on every actor, on one of the entries with its
highest epoch, exactly if no two entries of an actor tie for that epoch. -/
theorem directory_converges_iff (S : List DurableDirectoryEntry) :
    (∀ as bs : List Arrival, (∀ e, e ∈ as.flatMap (·.entries) ↔ e ∈ S) →
      (∀ e, e ∈ bs.flatMap (·.entries) ↔ e ∈ S) → ∀ a, found as a = found bs a ∧
        ∀ e ∈ S, e.actorId = a → ∃ home, found as a = some home ∧
          ⟨a, home.nodeId, home.epoch⟩ ∈ S ∧ e.epoch ≤ home.epoch) ↔
      ∀ e ∈ S, ∀ e' ∈ S, e'.actorId = e.actorId → e'.epoch = e.epoch →
        (∀ x ∈ S, x.actorId = e.actorId → x.epoch ≤ e.epoch) → e'.nodeId = e.nodeId := by
  constructor
  · intro h e he e' he' ha hepoch hmax
    have hfirst {x : DurableDirectoryEntry} (hx : x ∈ S) (hxa : x.actorId = e.actorId)
        (hxe : x.epoch = e.epoch) :
        found [.merge (x :: S)] e.actorId = some ⟨x.nodeId, x.epoch⟩ := by
      refine lookup_mergeDirectory_of_le (c := claim ⟨[], ∅, []⟩ x) ?_ fun y hy hya =>
        hxe ▸ hmax y hy hya
      rw [← hxa]
      exact AList.lookup_insert _
    have hS {x : DurableDirectoryEntry} (hx : x ∈ S) (y : DurableDirectoryEntry) :
        y ∈ [Arrival.merge (x :: S)].flatMap (·.entries) ↔ y ∈ S := by
      simp only [flatMap_cons, Arrival.entries, flatMap_nil, append_nil, mem_cons]
      exact ⟨fun hy => hy.elim (· ▸ hx) id, .inr⟩
    have heq := (h _ _ (hS he') (hS he) e.actorId).1
    rw [hfirst he' ha hepoch, hfirst he rfl rfl] at heq
    exact congrArg Home.nodeId (Option.some.inj heq)
  · intro h as bs has hbs a
    by_cases ha : ∃ e ∈ S, e.actorId = a
    · obtain ⟨e, he, rfl⟩ := ha
      obtain ⟨x, hx, hxS, hxmax⟩ := found_spec has he
      obtain ⟨y, hy, hyS, hymax⟩ := found_spec hbs he
      have hepoch : y.epoch = x.epoch := le_antisymm (hxmax _ hyS rfl) (hymax _ hxS rfl)
      have hnode : y.nodeId = x.nodeId := h _ hxS _ hyS rfl hepoch hxmax
      refine ⟨?_, fun e' he' ha' => ⟨x, hx, hxS, hxmax e' he' ha'⟩⟩
      rw [hx, hy, show y = x from congrArg₂ Home.mk hnode hepoch]
    · have hnone {as : List Arrival} (has : ∀ e, e ∈ as.flatMap (·.entries) ↔ e ∈ S) :
          found as a = none := by
        refine Option.eq_none_iff_forall_ne_some.mpr fun home hhome => ha ?_
        rw [found, foldl_receive] at hhome
        exact ⟨_, (has _).mp ((lookup_mergeDirectory hhome).resolve_left (by simp)), rfl⟩
      refine ⟨(hnone has).trans (hnone hbs).symm, fun e he hea => absurd ⟨e, he, hea⟩ ha⟩

theorem directories_differ :
    found [.merge [⟨1, 2, 5⟩, ⟨1, 3, 5⟩]] 1 ≠ found
      [.merge [⟨1, 3, 5⟩], .announce ⟨1, 2, 5⟩] 1 := by
  decide

/-- Gossip that comes again, in any order, changes nothing. -/
theorem redelivery_ignored {arrivals : List Arrival} (h : entries ⊆ arrivals.flatMap (·.entries)) :
    (arrivals.foldl receive c).mergeDirectory entries = arrivals.foldl receive c := by
  rw [foldl_receive]
  refine foldlRecOn (motive := (· = c.mergeDirectory _)) entries _ rfl fun d hd e he => ?_
  rw [hd]
  refine claim_of_not_newer fun hnew => ?_
  obtain ⟨home, hl⟩ := Option.isSome_iff_exists.mp
    (AList.lookup_isSome.mpr (mem_mergeDirectory (c := c).mpr (.inr ⟨e, h he, rfl⟩)))
  have hle := le_epochOf_mergeDirectory (h he) c
  rw [epochOf, hl] at hle
  exact Nat.not_le.mpr (hnew home hl) hle

/-- An entry that a newer one has overtaken. -/
def overtaken : List Arrival := [.announce ⟨7, 2, 2⟩, .merge [⟨7, 1, 1⟩]]

theorem redelivery_overtaken : (overtaken.foldl receive ⟨[], ∅, []⟩).mergeDirectory [⟨7, 1, 1⟩] =
    overtaken.foldl receive ⟨[], ∅, []⟩ :=
  redelivery_ignored (by simp [overtaken, Arrival.entries])

end ClusterState

end Nulang.Failover

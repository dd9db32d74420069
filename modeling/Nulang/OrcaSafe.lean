import Mathlib.Algebra.GroupWithZero.Nat
import Nulang.OrcaInv

/-!
# What the ORCA engine reclaims

The invariant of `OrcaInv` survives every careful transition and every lawful call, so that in a run
of such steps nothing is reclaimed twice or while it is counted, the deferred list has no reclaimed
object, and `process_deferred` leaves nothing behind that it could reclaim.

Steps come first, frame by frame (`Inv.step`), then the calls of the host (`Inv.call`). Two
operations change which objects there are; `Reclaims` and `Allocates` list what they leave alone,
and the parts of the invariant are carried over from these lists. Every call returns: `Engine.work`
bounds what the frames and the objects not yet reclaimed can still cost, and each step lowers it
(`Inv.step_work`).

Care is needed: `orca_unsound` has lawful runs without it that reclaim an object twice, and that
leave one behind.
-/

set_option autoImplicit false

namespace Nulang.Orca

open Header Engine Finset Frame
open List hiding range mem_range

/-! ## Every transition keeps the invariant -/

section Step

variable {E : Engine} {p : Addr} {st : List Frame}

theorem recounts_dec : Recounts fun h => { h with refCount := h.refCount - 1 } :=
  fun _ => ⟨rfl, rfl, rfl, rfl, rfl⟩

/-- The object of a pending `drop_local_ref` has a reference to give up. -/
theorem Inv.droppable (h : Inv E) (hs : E.stack = .drop p :: st) :
    { E with stack := st }.refsTo p + 1 ≤ (E.heap p).refCount ∧ (E.heap p).live = true ∧
      p ∉ dying st := by
  have hpos : { E with stack := st }.refsTo p + 1 ≤ (E.heap p).refCount := by
    have hp := h.counts.counted p
    rw [Engine.refsTo, hs] at hp
    have hholds : ∀ c, { E with stack := st }.holds c p = E.holds c p := fun c =>
      weigh_congr rfl rfl (by rw [hs]; exact Iff.rfl)
    simp only [owed, if_pos] at hp
    simp only [Engine.refsTo, hholds]
    omega
  refine ⟨hpos, ?_, ?_⟩
  · by_contra hne
    have hz := h.counts.dead p (Bool.eq_false_of_not_eq_true hne)
    omega
  · intro hp
    have hel := eligible_iff.mp (h.counts.dyingLive p (by rw [hs]; exact hp)).2
    omega

/-- `drop_local_ref`. -/
theorem Inv.drop (h : Inv E) (hc : Careful E) (hs : E.stack = .drop p :: st) :
    Inv ({ E with stack := st }.dropLocalRef p) := by
  have hcount : ∀ q, E.refsTo q + owed q st ≤ (E.heap q).refCount + owed q E.stack := by
    intro q
    have hle : owed q st ≤ owed q E.stack := by
      rw [hs, owed]
      exact Nat.le_add_left ..
    exact Nat.add_le_add (h.counts.counted q) hle
  have hdy : dying st = dying E.stack := by
    rw [hs]
    rfl
  obtain ⟨hpos, hlive, hd'⟩ := h.droppable hs
  -- the engine after the decrement, with `p` between two operations
  have hlog :
      Log ({ E with stack := st }.modify p fun h => { h with refCount := h.refCount - 1 }) :=
    (h.log.restack st).modify recounts_dec
  have hcounts :
      Counts ({ E with stack := st }.modify p fun h => { h with refCount := h.refCount - 1 }) :=
    (h.counts.restack hdy hcount).modify recounts_dec hlive hd' (Nat.le_sub_one_of_lt hpos)
  have hqueue :
      Queue [p]
      ({ E with stack := st }.modify p fun h => { h with refCount := h.refCount - 1 }) := by
    refine (h.queue.pop hs hdy ?_).modify recounts_dec
    have hlast := h.queue.scanLast
    rw [hs] at hlast
    exact hlast
  rw [dropLocalRef]
  simp only [heap_modify_self]
  by_cases hz : (E.heap p).refCount - 1 = 0
  · rw [if_pos hz]
    by_cases hel : (E.heap p).foreignCount = 0 ∧ (E.heap p).sticky = false
    · rw [if_pos hel]
      have hlive' : (({ E with stack := st }.modify p
          fun h => { h with refCount := h.refCount - 1 }).heap p).live = true := by
        rwa [heap_modify_self]
      refine ⟨hlog.restack _, hcounts.freeObjectImpl true (h.log.below p hlive) hlive' ?_ hd',
        hqueue.freeObjectImpl true nofun⟩
      rw [heap_modify_self]
      exact eligible_iff.mpr ⟨hz, hel⟩
    · rw [if_neg hel]
      have hone : (E.heap p).refCount = 1 := by omega
      have hbusy : 0 < (E.heap p).foreignCount ∨ (E.heap p).sticky = true := by
        rw [not_and_or] at hel
        exact hel.imp Nat.pos_of_ne_zero Bool.eq_true_of_not_eq_false
      have hnew : p ∉ E.deferredDecrements := by
        rw [Careful, hs] at hc
        exact hc hone hbusy
      refine ⟨hlog.of_eq (fun _ => rfl) (fun _ => rfl) rfl rfl rfl, ?_, ?_⟩
      · exact ⟨hcounts.dead, hcounts.counted, hcounts.dyingNodup, hcounts.dyingLive⟩
      · refine hqueue.defer ?_ ?_ hnew hd'
        · rwa [heap_modify_self]
        · rcases hbusy with hb | hb
          · simp [eligible, Nat.ne_of_gt hb]
          · simp [eligible, hb]
  · rw [if_neg hz]
    have hkept : (({ E with stack := st }.modify p
        fun h => { h with refCount := h.refCount - 1 }).heap p).refCount ≠ 0 := by
      rwa [heap_modify_self]
    exact ⟨hlog, hcounts, hqueue.release (fun hz => absurd hz hkept) fun _ _ => hkept⟩

variable {r : Bool} {i : Nat}

/-- The loop of `free_object_impl` over the slots. -/
theorem Inv.nextSlot {slot : Option Addr} {rest : List (Option Addr)} (h : Inv E)
    (hs : E.stack = .free p (slot :: rest) r :: st) :
    Inv { E with stack := (slot.toList.map Frame.drop) ++ .free p rest r :: st } := by
  have hfree : ∀ q rest', free q rest' false ∈ free p rest r :: st →
      ∃ rest'', free q rest'' false ∈ E.stack := by
    intro q rest' hq
    rw [hs]
    rcases mem_cons.mp hq with he | hq
    · cases he
      exact ⟨_, mem_cons_self⟩
    · exact ⟨rest', mem_cons_of_mem _ hq⟩
  have hscan : ∀ i, scan i ∈ free p rest r :: st → scan i ∈ E.stack := by
    intro i hi
    rw [hs]
    rcases mem_cons.mp hi with he | hi
    · cases he
    · exact mem_cons_of_mem _ hi
  have hlast : ScanLast st := by
    have hl := h.queue.scanLast
    rw [hs] at hl
    exact hl
  have hdy : dying (slot.toList.map Frame.drop ++ .free p rest r :: st) = dying E.stack := by
    rw [dying_drops, hs]
    rfl
  -- What the frame still owes for the slot is owed by the new `drop` frame from now on.
  refine ⟨h.log.restack _, h.counts.shrink hdy fun q => ?_, h.queue.restack hdy ?_ ?_ ?_⟩
  · rw [hs]
    cases slot with
    | none => simp [owed]
    | some c => simp [owed, count_cons, Nat.add_left_comm, Nat.add_assoc]
  · cases slot with
    | none | some => exact hlast
  · intro i hi
    exact hscan i (mem_of_mem_drops hi fun _ he => by cases he)
  · intro q rest' hq
    exact hfree q rest' (mem_of_mem_drops hq fun _ he => by cases he)

/-- What the end of `free_object_impl` does to an object that is on no list or taken from it. -/
structure Reclaims (E : Engine) (p : Addr) (st : List Frame) (E' : Engine) : Prop where
  heap_self : E'.heap p = { E.heap p with live := false }
  heap_ne : ∀ q, q ≠ p → E'.heap q = E.heap q
  stack : E'.stack = st
  deferred : E'.deferredDecrements = E.deferredDecrements.swapErase p
  freed : E'.freed = E.freed ++ [E.heap p]
  rest : E'.top = E.top ∧ E'.allocs = E.allocs ∧ E'.actorId = E.actorId

theorem reclaims_freePayload (hr : r = false → p ∉ E.deferredDecrements) :
    Reclaims E p st ({ E with stack := st }.freePayload p r) := by
  have hne : ∀ q, q ≠ p → ({ E with stack := st }.modify p fun h => { h with live := false }).heap
      q = E.heap q := fun q hq => heap_modify_ne hq
  have hself : ({ E with stack := st }.modify p fun h => { h with live := false }).heap p =
      { E.heap p with live := false } := heap_modify_self
  cases r with
  | true => exact ⟨hself, hne, rfl, rfl, rfl, rfl, rfl, rfl⟩
  | false =>
    refine ⟨hself, hne, rfl, ?_, rfl, rfl, rfl, rfl⟩
    rw [swapErase_of_notMem (hr rfl)]
    rfl

namespace Reclaims

variable {E' : Engine}

section

variable (hR : Reclaims E p st E')
include hR

theorem live {q : Addr} (hq : (E'.heap q).live = true) :
    q ≠ p ∧ E'.heap q = E.heap q ∧ (E.heap q).live = true := by
  by_cases he : q = p
  · subst he
    rw [hR.heap_self] at hq
    cases hq
  · rw [hR.heap_ne q he] at hq
    exact ⟨he, hR.heap_ne q he, hq⟩

/-- The log grows by an object that it does not have yet. -/
theorem log (h : Log E) (hlive : (E.heap p).live = true) (hel : (E.heap p).eligible = true) :
    Log E' := by
  obtain ⟨htop, hallocs, _⟩ := hR.rest
  obtain ⟨hlt, hnew⟩ := h.serials p hlive
  -- `p` is the one object that is reclaimed, and its serial number is not in the log yet.
  constructor
  · intro q hq
    rw [htop]
    exact h.below q (hR.live hq).2.2
  · intro q hq
    obtain ⟨hqp, hheap, hql⟩ := hR.live hq
    rw [hheap, hallocs, hR.freed, map_append, mem_append]
    refine ⟨(h.serials q hql).1, ?_⟩
    intro hm
    rcases hm with hm | hm
    · exact (h.serials q hql).2 hm
    · exact hqp (h.serialInj q p hql hlive (List.mem_singleton.mp hm))
  · intro q q' hq hq' hs
    obtain ⟨-, hheap, hql⟩ := hR.live hq
    obtain ⟨-, hheap', hql'⟩ := hR.live hq'
    rw [hheap, hheap'] at hs
    exact h.serialInj q q' hql hql' hs
  · intro g hg
    rw [hR.freed] at hg
    rw [hallocs]
    rcases mem_append.mp hg with hg | hg
    · exact h.freedBelow g hg
    · rw [List.mem_singleton.mp hg]
      exact hlt
  · rw [hR.freed, map_append, nodup_append]
    refine ⟨h.freedNodup, nodup_singleton _, ?_⟩
    intro a ha b hb he
    rw [he, List.mem_singleton.mp hb] at ha
    exact hnew ha
  · intro g hg
    rw [hR.freed] at hg
    rcases mem_append.mp hg with hg | hg
    · exact h.freedEligible g hg
    · rw [List.mem_singleton.mp hg]
      exact hel

theorem weigh {w : List (Option Addr) → Nat} {c : Addr} (hdy : dying E.stack = p :: dying st) :
    E'.weigh w c = E.weigh w c := by
  by_cases hc : c = p
  · subst hc
    -- before, the slots were with the frame; now the object is gone
    have h₁ : E.weigh w c = 0 := if_neg (by rw [hdy]; simp)
    have h₂ : E'.weigh w c = 0 := if_neg (by rw [hR.heap_self]; simp)
    rw [h₁, h₂]
  · refine weigh_congr hR.rest.2.2 (hR.heap_ne c hc) ?_
    rw [hR.stack, hdy]
    simp [hc]

theorem counts (h : Counts E) (hdy : dying E.stack = p :: dying st)
    (ho : ∀ q, owed q st = owed q E.stack) :
    Counts E' := by
  have hn := h.dyingNodup
  rw [hdy] at hn
  obtain ⟨hpst, hst⟩ := nodup_cons.mp hn
  have hel := eligible_iff.mp (h.dyingLive p (by rw [hdy]; exact mem_cons_self)).2
  have hholds : ∀ c q, E'.holds c q = E.holds c q := fun _ _ => hR.weigh hdy
  have hrefs : ∀ q, E'.refsTo q = E.refsTo q := by
    intro q
    simp only [Engine.refsTo, hholds, hR.rest.1, hR.stack, ho]
  constructor
  · intro q hq
    by_cases hqp : q = p
    · rw [hqp, hR.heap_self]
      exact hel.1
    · rw [hR.heap_ne q hqp] at hq ⊢
      exact h.dead q hq
  · intro q
    rw [hrefs]
    by_cases hqp : q = p
    · rw [hqp, hR.heap_self]
      exact h.counted p
    · rw [hR.heap_ne q hqp]
      exact h.counted q
  · rw [hR.stack]
    exact hst
  · intro q hq
    rw [hR.stack] at hq
    have hqp : q ≠ p := fun he => hpst (he ▸ hq)
    rw [hR.heap_ne q hqp]
    exact h.dyingLive q (by rw [hdy]; exact mem_cons_of_mem _ hq)

theorem queue (h : Queue [] E) (hdy : dying E.stack = p :: dying st)
    (hsub : ∀ fr ∈ st, fr ∈ E.stack) (hlast : ScanLast st)
    (hc : ∀ i, .scan i ∈ st → p ∈ E.deferredDecrements → E.deferredDecrements.idxOf p < i →
      E.deferredDecrements.length ≤ i) : Queue [] E' := by
  -- `p` leaves the deferred list by a swap with the last entry, so only `p` and that entry move.
  have hmem : ∀ q, q ∈ E'.deferredDecrements ↔ q ∈ E.deferredDecrements ∧ q ≠ p := by
    intro q
    rw [hR.deferred, mem_swapErase h.nodup]
  have hdying : ∀ q, q ≠ p → q ∈ dying E.stack → q ∈ dying E'.stack := by
    intro q hqp hq
    rw [hdy] at hq
    rw [hR.stack]
    exact (mem_cons.mp hq).resolve_left hqp
  constructor
  · rw [hR.deferred]
    exact nodup_swapErase h.nodup
  · intro q hq
    obtain ⟨hq, hqp⟩ := (hmem q).mp hq
    rw [hR.heap_ne q hqp]
    exact h.queued q hq
  · intro q rest hq hm
    rw [hR.stack] at hq
    exact h.unlisted q rest (hsub _ hq) ((hmem q).mp hm).1
  · intro q hb hq hz
    obtain ⟨hqp, hheap, hql⟩ := hR.live hq
    rw [hheap] at hz
    rcases h.zero q hb hql hz with hm | hm
    · exact .inl ((hmem q).mpr ⟨hm, hqp⟩)
    · exact .inr (hdying q hqp hm)
  · rw [hR.stack]
    exact hlast
  · intro i hi q hb hq hel
    rw [hR.stack] at hi
    obtain ⟨hqp, hheap, hql⟩ := hR.live hq
    rw [hheap] at hel
    rcases h.scanned i (hsub _ hi) q hb hql hel with hm | ⟨j, hij, hj⟩
    · exact .inl (hdying q hqp hm)
    · right
      rw [hR.deferred]
      by_cases hp : p ∈ E.deferredDecrements
      · have hjlt := (List.getElem?_eq_some_iff.mp hj).1
        rcases getElem?_swapErase hp hj hqp with hk | ⟨-, hk⟩
        · exact ⟨j, hij, hk⟩
        · -- the last entry moves to the place of `p`, which the scan has not passed
          refine ⟨_, ?_, hk⟩
          by_contra hlt
          have hlen := hc i hi hp (Nat.lt_of_not_le hlt)
          omega
      · rw [swapErase_of_notMem hp]
        exact ⟨j, hij, hj⟩

end

end Reclaims

theorem Inv.finish (h : Inv E) (hc : Careful E) (hs : E.stack = .free p [] r :: st) :
    Inv ({ E with stack := st }.freePayload p r) := by
  have hmem : p ∈ dying E.stack := by
    rw [hs]
    exact mem_cons_self
  have hdy : dying E.stack = p :: dying st := by
    rw [hs]
    rfl
  have hlast : ScanLast st := by
    have hl := h.queue.scanLast
    rw [hs] at hl
    exact hl
  have hr : r = false → p ∉ E.deferredDecrements := by
    intro hr
    subst hr
    exact h.queue.unlisted p [] (by rw [hs]; exact mem_cons_self)
  have hcare : ∀ i, .scan i ∈ st → p ∈ E.deferredDecrements →
      E.deferredDecrements.idxOf p < i → E.deferredDecrements.length ≤ i := by
    intro i hi hp
    cases r with
    | true =>
      rw [Careful, hs] at hc
      exact hc i (scanning_of_mem hlast hi) hp
    | false => exact absurd hp (hr rfl)
  obtain ⟨hlive, hel⟩ := h.counts.dyingLive p hmem
  have hR : Reclaims E p st ({ E with stack := st }.freePayload p r) := reclaims_freePayload hr
  refine ⟨hR.log h.log hlive hel, hR.counts h.counts hdy ?_, hR.queue h.queue hdy ?_ hlast hcare⟩
  · intro q
    rw [hs]
    simp [owed]
  · intro fr hfr
    rw [hs]
    exact mem_cons_of_mem _ hfr

/-- A turn of `process_deferred` that reclaims the entry at `i`. -/
theorem Inv.scanFree (h : Inv E) (hs : E.stack = [.scan i]) (hi : E.deferredDecrements[i]? = some p)
    (hel : (E.heap p).eligible = true) : Inv ({ E with
      stack := [.scan i]
      deferredDecrements := E.deferredDecrements.swapRemove i }.freeObjectImpl p false) := by
  have hlive : (E.heap p).live = true := h.queue.queued p (mem_of_getElem? hi)
  have hdy : dying E.stack = [] := by
    rw [hs]
    rfl
  have hmem : ∀ q, q ∈ E.deferredDecrements.swapRemove i ↔ q ∈ E.deferredDecrements ∧ q ≠ p :=
    fun q => mem_swapRemove h.queue.nodup hi
  have hcounts : Counts { E with
      stack := [.scan i], deferredDecrements := E.deferredDecrements.swapRemove i } := by
    have hc : Counts { E with stack := [.scan i] } :=
      h.counts.shrink (by rw [hdy]; rfl) (fun q => by rw [hs])
    exact ⟨hc.dead, hc.counted, hc.dyingNodup, hc.dyingLive⟩
  have hqueue : Queue [p] { E with
      stack := [.scan i], deferredDecrements := E.deferredDecrements.swapRemove i } := by
    constructor
    · exact (nodup_swapRemove h.queue.nodup hi).1
    · intro q hq
      exact h.queue.queued q ((hmem q).mp hq).1
    · intro q rest hq
      simp at hq
    · intro q hq hl hz
      rcases h.queue.zero q not_mem_nil hl hz with hm | hm
      · exact .inl ((hmem q).mpr ⟨hm, ne_of_not_mem_cons hq⟩)
      · rw [hdy] at hm
        cases hm
    · rfl
    · intro k hk q hq hl hqe
      have hki : k = i := by simpa using hk
      subst hki
      rcases h.queue.scanned k (by rw [hs]; exact mem_cons_self) q not_mem_nil hl hqe with
        hm | ⟨j, hkj, hj⟩
      · rw [hdy] at hm
        cases hm
      · -- an entry that does not stay where it is moves to the index of the scan
        have hjk : j ≠ k := by
          intro he
          rw [he, hi] at hj
          exact ne_of_not_mem_cons hq (Option.some.inj hj).symm
        rcases List.getElem?_swapRemove hj hjk (List.getElem?_eq_some_iff.mp hi).1 with hm | ⟨-, hm⟩
        · exact .inr ⟨j, hkj, hm⟩
        · exact .inr ⟨k, Nat.le_refl k, hm⟩
  refine ⟨h.log.of_eq (fun _ => rfl) (fun _ => rfl) rfl rfl rfl,
    hcounts.freeObjectImpl false (h.log.below p hlive) hlive
    hel not_mem_nil, hqueue.freeObjectImpl false fun _ => ?_⟩
  exact (nodup_swapRemove h.queue.nodup hi).2

/-- A turn of `process_deferred` that keeps the entry at `i`. -/
theorem Inv.scanKeep (h : Inv E) (hs : E.stack = [.scan i]) (hi : E.deferredDecrements[i]? = some p)
    (hel : (E.heap p).eligible = false) : Inv { E with stack := [.scan (i + 1)] } := by
  have hdy : dying E.stack = [] := by
    rw [hs]
    rfl
  refine ⟨h.log.restack _, h.counts.shrink (by rw [hdy]; rfl) fun q =>
    by rw [hs]; exact Nat.le_refl _, ?_⟩
  constructor
  · exact h.queue.nodup
  · exact h.queue.queued
  · intro q rest hq
    simp at hq
  · intro q hq hl hz
    rcases h.queue.zero q hq hl hz with hm | hm
    · exact .inl hm
    · rw [hdy] at hm
      cases hm
  · rfl
  · intro k hk q hq hl hqe
    have hki : k = i + 1 := by simpa using hk
    subst hki
    rcases h.queue.scanned i (by rw [hs]; exact mem_cons_self) q hq hl hqe with hm | ⟨j, hij, hj⟩
    · rw [hdy] at hm
      cases hm
    · refine .inr ⟨j, Nat.lt_of_le_of_ne hij ?_, hj⟩
      intro he
      rw [← he, hi] at hj
      rw [Option.some.inj hj, hqe] at hel
      cases hel

/-- Nothing else is in progress under `process_deferred`. -/
theorem Inv.scan_alone (h : Inv E) (hs : E.stack = .scan i :: st) : st = [] := by
  have hl := h.queue.scanLast
  rw [hs] at hl
  exact hl

theorem Inv.step {E' : Engine} (h : Inv E) (hc : Careful E) (hs : E.step = some E') : Inv E' := by
  cases transition_of_step hs with
  | drop hst => exact h.drop hc hst
  | slot hst => exact h.nextSlot hst
  | free hst => exact h.finish hc hst
  | scanEnd hst hi =>
    have hnil := h.scan_alone hst
    subst hnil
    exact ⟨h.log.restack _, h.counts.shrink (by rw [hst]; rfl) fun q => Nat.zero_le _,
      h.queue.pop hst (by rw [hst]; rfl) trivial⟩
  | scanFree hst hi hel =>
    have hnil := h.scan_alone hst
    subst hnil
    exact h.scanFree hst hi hel
  | scanKeep hst hi hel =>
    have hnil := h.scan_alone hst
    subst hnil
    exact h.scanKeep hst hi hel

end Step

/-! ## Every lawful call keeps the invariant -/

section Call

variable {E : Engine} {p : Addr} {f : Header → Header}

theorem not_mem_dying (hs : E.stack = []) : p ∉ dying E.stack := by
  rw [hs]
  exact not_mem_nil

/-- The calls that change counts without taking a local reference away. -/
theorem Inv.recount (h : Inv E) (hs : E.stack = []) (hf : Recounts f)
    (hlive : (E.heap p).live = true) (hle : (E.heap p).refCount ≤ (f (E.heap p)).refCount) :
    Inv (E.modify p f) := by
  refine ⟨h.log.modify hf, h.counts.modify hf hlive (not_mem_dying hs)
    (Nat.le_trans (h.counts.counted p) hle),
    (h.queue.modify hf).release (fun hz => ?_) fun i hi => ?_⟩
  · rw [heap_modify_self] at hz
    exact h.queue.zero p not_mem_nil hlive (Nat.le_zero.mp (hz ▸ hle))
  · rw [stack_modify, hs] at hi
    cases hi

theorem Inv.callDrop (h : Inv E) (hc : E.refsTo p < (E.heap p).refCount) :
    Inv (E.push (.drop p)) := by
  have hdy : dying (Frame.drop p :: E.stack) = dying E.stack := rfl
  refine ⟨h.log.restack _, h.counts.restack hdy ?_, h.queue.restack hdy ?_ ?_ ?_⟩
  · intro q
    rw [owed]
    by_cases hq : p = q
    · subst hq
      rw [if_pos rfl]
      omega
    · rw [if_neg hq]
      have := h.counts.counted q
      omega
  · exact h.queue.scanLast
  · intro i hi
    exact (mem_cons.mp hi).resolve_left nofun
  · intro q rest hq
    exact ⟨rest, (mem_cons.mp hq).resolve_left nofun⟩

theorem Inv.callScan (h : Inv E) (hs : E.stack = []) : Inv (E.push (.scan 0)) := by
  refine ⟨h.log.restack _, h.counts.shrink rfl fun q => Nat.le_refl _, ?_⟩
  constructor
  · exact h.queue.nodup
  · exact h.queue.queued
  · intro q rest hq
    exact h.queue.unlisted q rest ((mem_cons.mp hq).resolve_left nofun)
  · exact h.queue.zero
  · exact hs
  · intro i hi q hq hl hel
    have hi0 : i = 0 := by simpa [push, hs] using hi
    rcases h.queue.zero q hq hl (eligible_iff.mp hel).1 with hm | hm
    · obtain ⟨j, hj⟩ := mem_iff_getElem?.mp hm
      exact .inr ⟨j, by rw [hi0]; exact Nat.zero_le j, hj⟩
    · exact .inl hm

theorem recounts_applyDelta (delta : Int) : Recounts (applyDelta delta) :=
  fun _ => ⟨rfl, rfl, rfl, rfl, rfl⟩

theorem Inv.callForeignOp {delta : Int} (h : Inv E) (hs : E.stack = [])
    (hlive : (E.heap p).live = true) : Inv (E.processForeignOp p delta) := by
  have hf := recounts_applyDelta delta
  have hrec := h.recount (p := p) hs hf hlive (Nat.le_refl _)
  have hlive' : ((E.modify p (applyDelta delta)).heap p).live = true := by
    rwa [live_modify hf]
  rw [processForeignOp]
  split
  · rename_i hforeign
    split
    · rename_i hlocal
      exact ⟨hrec.log.restack _, hrec.counts.freeObjectImpl true (hrec.log.below p hlive') hlive'
        (eligible_iff.mpr ⟨hlocal.1, hforeign, hlocal.2⟩) (not_mem_dying hs),
        (h.queue.modify hf).freeObjectImpl true nofun⟩
    · exact hrec
  · exact hrec

variable {c : Addr} {i : Nat}

variable {v old : Option Addr} {size : Nat}

/-- An object with a slot of its own is a container of the engine's actor. -/
theorem owns_of_getElem? (hi : (E.ownedSlots (E.heap c))[i]? = some old) :
    (E.heap c).actorId = E.actorId ∧ (E.heap c).typeTag.isContainer = true := by
  by_contra hno
  rw [ownedSlots, if_neg hno] at hi
  cases hi

/-- Writing a slot moves one reference from the old child to the new one. -/
theorem refsTo_setSlot (hl : Log E) (hs : E.stack = []) (hlive : (E.heap c).live = true)
    (hi : (E.ownedSlots (E.heap c))[i]? = some old) (q : Addr) :
    (E.modify c (setSlot i v)).refsTo q + (if old = some q then 1 else 0) =
      E.refsTo q + (if v = some q then 1 else 0) := by
  have hcond := owns_of_getElem? hi
  have hown : E.ownedSlots (E.heap c) = (E.heap c).slots := if_pos hcond
  have hown' : (E.modify c (setSlot i v)).ownedSlots ((E.modify c (setSlot i v)).heap c) =
      (E.heap c).slots.set i v := by
    rw [heap_modify_self]
    exact if_pos hcond
  rw [hown] at hi
  obtain ⟨hlt, hget⟩ := List.getElem?_eq_some_iff.mp hi
  have hd : c ∉ dying E.stack := not_mem_dying hs
  have hbefore : E.holds c q = (E.heap c).slots.count (some q) := by
    rw [holds, if_pos ⟨hlive, hd⟩, hown]
  have hafter : (E.modify c (setSlot i v)).holds c q =
      ((E.heap c).slots.set i v).count (some q) := by
    rw [holds, hown', if_pos]
    exact ⟨by rw [heap_modify_self]; exact hlive, hd⟩
  have hother : ∀ b, b ≠ c → (E.modify c (setSlot i v)).holds b q = E.holds b q := fun b hb =>
    weigh_congr rfl (heap_modify_ne hb) Iff.rfl
  have hsum := sum_range_change (hl.below c hlive) hother
  have hpos : old = some q → 0 < (E.heap c).slots.count (some q) := by
    intro he
    rw [count_pos_iff, ← he, ← hget]
    exact getElem_mem hlt
  have hset := count_set (a := v) (b := some q) hlt
  rw [hget] at hset
  simp only [Engine.refsTo, beq_iff_eq] at hset ⊢
  show (∑ b ∈ range E.top, (E.modify c (setSlot i v)).holds b q) + owed q E.stack + _ = _
  by_cases ho : old = some q
  · have := hpos ho
    simp only [ho, if_true] at hset ⊢
    omega
  · simp only [ho, if_false] at hset ⊢
    omega

/-- The write barrier of a container store: the new child has its reference before the slot holds
it, and the reference of the old child is owed to `drop_local_ref`. -/
theorem Inv.writeSlot (h : Inv E) (hs : E.stack = []) (hlive : (E.heap c).live = true)
    (hi : (E.ownedSlots (E.heap c))[i]? = some old)
    (hv : ∀ p, v = some p → E.refsTo p < (E.heap p).refCount) :
    Inv { E.modify c (setSlot i v) with stack := old.toList.map Frame.drop } := by
  have hheap : ∀ q, ((E.modify c (setSlot i v)).heap q).live = (E.heap q).live ∧
      ((E.modify c (setSlot i v)).heap q).refCount = (E.heap q).refCount ∧
      ((E.modify c (setSlot i v)).heap q).serial = (E.heap q).serial := by
    intro q
    exact ⟨field_modify live rfl, field_modify refCount rfl, field_modify serial rfl⟩
  have hroom : ∀ q, E.refsTo q + (if v = some q then 1 else 0) ≤
      ((E.modify c (setSlot i v)).heap q).refCount := by
    intro q
    rw [(hheap q).2.1]
    split
    · exact hv q ‹_›
    · exact h.counts.counted q
  have hnone : ∀ q, q ∉ dying (E.modify c (setSlot i v)).stack := fun q => not_mem_dying hs
  have hcounts : Counts (E.modify c (setSlot i v)) := by
    refine ⟨fun q hq => ?_, fun q => ?_, h.counts.dyingNodup, fun q hq => absurd hq (hnone q)⟩
    · exact (hheap q).2.1.trans (h.counts.dead q ((hheap q).1 ▸ hq))
    · exact Nat.le_trans
        (Nat.le_of_add_right_le (Nat.le_of_eq (refsTo_setSlot h.log hs hlive hi q))) (hroom q)
  have hqueue : Queue [] (E.modify c (setSlot i v)) := by
    refine ⟨h.queue.nodup, fun q hq => (hheap q).1.trans (h.queue.queued q hq), h.queue.unlisted,
      fun q hb hq hz => ?_, h.queue.scanLast, fun k hk => ?_⟩
    · exact h.queue.zero q hb ((hheap q).1 ▸ hq) ((hheap q).2.1 ▸ hz)
    · rw [stack_modify, hs] at hk
      cases hk
  -- the reference of the old child is owed to `drop_local_ref`
  have hdy : dying (old.toList.map Frame.drop) = dying (E.modify c (setSlot i v)).stack := by
    rw [stack_modify, hs, ← append_nil (old.toList.map Frame.drop), dying_drops]
  refine ⟨h.log.of_eq (fun q => (hheap q).1) (fun q => (hheap q).2.2) rfl rfl rfl,
    hcounts.restack hdy fun q => ?_, hqueue.restack hdy ?_ ?_ ?_⟩
  · have howed : owed q (old.toList.map Frame.drop) = if old = some q then 1 else 0 := by
      cases old with
      | none => rfl
      | some o => simp [owed]
    rw [howed, refsTo_setSlot h.log hs hlive hi q]
    exact Nat.le_add_right_of_le (hroom q)
  · cases old with
    | none => trivial
    | some o => trivial
  · intro k hk
    simp at hk
  · intro q rest hq
    simp at hq

theorem Inv.callStore (h : Inv E) (hs : E.stack = []) (hlive : (E.heap c).live = true)
    (hi : i < (E.ownedSlots (E.heap c)).length) (hv : ∀ p ∈ v, (E.heap p).live = true) :
    Inv (E.storeSlot c i v) := by
  -- the engine after the retain: its counts leave room for one more reference to the new child
  obtain ⟨E₁, hE₁, h₁, hs₁, hl₁, hown₁, hv₁⟩ : ∃ E₁, E.retain v = E₁ ∧ Inv E₁ ∧
      E₁.stack = [] ∧ (E₁.heap c).live = true ∧
      E₁.ownedSlots (E₁.heap c) = E.ownedSlots (E.heap c) ∧
      ∀ p, v = some p → E₁.refsTo p < (E₁.heap p).refCount := by
    cases v with
    | none => exact ⟨E, rfl, h, hs, hlive, rfl, nofun⟩
    | some p =>
      have hf : Recounts fun h : Header => { h with refCount := h.refCount + 1 } :=
        fun _ => ⟨rfl, rfl, rfl, rfl, rfl⟩
      refine ⟨E.localRef p, rfl, h.recount hs hf (hv p rfl) (Nat.le_succ _), hs, ?_,
        ownedSlots_modify hf, ?_⟩
      · exact (live_modify hf).trans hlive
      · intro q hq
        cases hq
        rw [localRef, refsTo_modify hf, heap_modify_self]
        exact Nat.lt_succ_of_le (h.counts.counted p)
  rw [storeSlot, hE₁]
  rw [← hown₁] at hi
  have hslots : E₁.ownedSlots (E₁.heap c) = (E₁.heap c).slots := by
    rw [ownedSlots] at hi ⊢
    split at hi
    · rename_i hcond
      exact if_pos hcond
    · cases hi
  have hwrite := h₁.writeSlot hs₁ hl₁ (getElem?_eq_getElem hi) hv₁
  have hget : (E₁.heap c).slots[i]? = some (E₁.ownedSlots (E₁.heap c))[i] := by
    rw [← hslots]
    exact getElem?_eq_getElem hi
  rw [hget]
  cases hold : (E₁.ownedSlots (E₁.heap c))[i] with
  | none =>
    rw [hold] at hwrite
    have hsame : { E₁.modify c (setSlot i v) with stack := [] } =
        E₁.modify c (setSlot i v) := by
      rw [← hs₁]
      rfl
    exact hsame ▸ hwrite
  | some old =>
    rw [hold] at hwrite
    have hpush : (E₁.modify c (setSlot i v)).push (.drop old) =
        { E₁.modify c (setSlot i v) with stack := [.drop old] } := by
      simp only [push, stack_modify, hs₁]
    show Inv ((E₁.modify c (setSlot i v)).push (.drop old))
    rw [hpush]
    exact hwrite

/-- What `alloc_object` does when it hands out the block `p`. -/
structure Allocates (E : Engine) (p : Addr) (E' : Engine) : Prop where
  fresh : (E'.heap p).live = true ∧ (E'.heap p).refCount = 1 ∧ (E'.heap p).serial = E.allocs
  empty : ∀ slot ∈ (E'.heap p).slots, slot = none
  heap_ne : ∀ q, q ≠ p → E'.heap q = E.heap q
  stack : E'.stack = E.stack
  deferred : E'.deferredDecrements = E.deferredDecrements
  freed : E'.freed = E.freed
  allocs : E'.allocs = E.allocs + 1
  top : E'.top = max E.top (p + 1)
  actorId : E'.actorId = E.actorId

theorem allocates_allocObject {tag : TypeTag} (hz : size ≠ 0) :
    Allocates E p (E.allocObject p size tag) := by
  rw [allocObject, if_neg hz]
  refine ⟨by simp, ?_, fun q hq => by simp [hq], rfl, rfl, rfl, rfl, rfl, rfl⟩
  intro slot hslot
  simp only [if_true] at hslot
  exact eq_of_mem_replicate hslot

namespace Allocates

variable {E' : Engine}

theorem log (hA : Allocates E p E') (h : Log E) : Log E' := by
  obtain ⟨hlive, _, hserial⟩ := hA.fresh
  have hlt : ∀ q, q ≠ p → (E'.heap q).live = true → (E.heap q).serial < E.allocs := by
    intro q hq hl
    rw [hA.heap_ne q hq] at hl
    exact (h.serials q hl).1
  constructor
  · intro q hq
    rw [hA.top]
    by_cases he : q = p
    · rw [he]
      exact Nat.lt_of_lt_of_le (Nat.lt_succ_self p) (Nat.le_max_right ..)
    · rw [hA.heap_ne q he] at hq
      exact Nat.lt_of_lt_of_le (h.below q hq) (Nat.le_max_left ..)
  · intro q hq
    rw [hA.allocs, hA.freed]
    by_cases he : q = p
    · rw [he, hserial]
      refine ⟨Nat.lt_succ_self _, ?_⟩
      intro hm
      obtain ⟨g, hg, hgs⟩ := mem_map.mp hm
      exact Nat.ne_of_lt (h.freedBelow g hg) hgs
    · rw [hA.heap_ne q he] at hq ⊢
      exact ⟨Nat.lt_succ_of_lt (h.serials q hq).1, (h.serials q hq).2⟩
  · intro q r hq hr hqr
    by_cases heq : q = p
    · by_cases her : r = p
      · rw [heq, her]
      · rw [heq, hserial, hA.heap_ne r her] at hqr
        exact absurd hqr.symm (Nat.ne_of_lt (hlt r her hr))
    · by_cases her : r = p
      · rw [her, hserial, hA.heap_ne q heq] at hqr
        exact absurd hqr (Nat.ne_of_lt (hlt q heq hq))
      · rw [hA.heap_ne q heq] at hq hqr
        rw [hA.heap_ne r her] at hr hqr
        exact h.serialInj q r hq hr hqr
  · intro g hg
    rw [hA.freed] at hg
    rw [hA.allocs]
    exact Nat.lt_succ_of_lt (h.freedBelow g hg)
  · rw [hA.freed]
    exact h.freedNodup
  · rw [hA.freed]
    exact h.freedEligible

/-- A fresh object holds nothing, and neither does unused memory. -/
theorem refsTo (hA : Allocates E p E') (h : Log E) (hp : (E.heap p).live = false) (q : Addr) :
    E'.refsTo q = E.refsTo q := by
  have hholds : ∀ c, E'.holds c q = E.holds c q := by
    intro c
    by_cases hc : c = p
    · subst hc
      have h₁ : E.holds c q = 0 := if_neg (by rw [hp]; simp)
      have hnone : (E'.ownedSlots (E'.heap c)).count (some q) = 0 := by
        rw [count_eq_zero]
        intro hm
        rw [ownedSlots] at hm
        split at hm
        · cases hA.empty _ hm
        · cases hm
      have h₂ : E'.holds c q = 0 := by
        rw [holds, hnone]
        split <;> rfl
      rw [h₁, h₂]
    · exact weigh_congr hA.actorId (hA.heap_ne c hc) (by rw [hA.stack])
  have hsub : range E.top ⊆ range (max E.top (p + 1)) := range_subset_range.mpr (Nat.le_max_left ..)
  have hsum : ∑ c ∈ range E.top, E.holds c q = ∑ c ∈ range (max E.top (p + 1)), E.holds c q := by
    refine sum_subset hsub ?_
    intro c _ hc
    refine if_neg fun hl => hc (mem_range.mpr (h.below c hl.1))
  simp only [Engine.refsTo, hholds, hA.stack, hA.top, hsum]

theorem counts (hA : Allocates E p E') (hl : Log E) (h : Counts E) (hs : E.stack = [])
    (hp : (E.heap p).live = false) : Counts E' := by
  constructor
  · intro q hq
    by_cases he : q = p
    · rw [he, hA.fresh.1] at hq
      cases hq
    · rw [hA.heap_ne q he] at hq ⊢
      exact h.dead q hq
  · intro q
    rw [hA.refsTo hl hp]
    by_cases he : q = p
    · subst he
      have hz := h.counted q
      rw [h.dead q hp] at hz
      rw [hA.fresh.2.1]
      exact Nat.le_trans hz (Nat.zero_le 1)
    · rw [hA.heap_ne q he]
      exact h.counted q
  · rw [hA.stack]
    exact h.dyingNodup
  · intro q hq
    rw [hA.stack, hs] at hq
    cases hq

theorem queue (hA : Allocates E p E') (h : Queue [] E) (hs : E.stack = [])
    (hp : (E.heap p).live = false) : Queue [] E' := by
  have hne : ∀ q ∈ E.deferredDecrements, q ≠ p := by
    intro q hq he
    have hl := h.queued q hq
    rw [he, hp] at hl
    cases hl
  constructor
  · rw [hA.deferred]
    exact h.nodup
  · intro q hq
    rw [hA.deferred] at hq
    rw [hA.heap_ne q (hne q hq)]
    exact h.queued q hq
  · intro q rest hq
    rw [hA.stack, hs] at hq
    cases hq
  · intro q hb hq hz
    rw [hA.deferred, hA.stack]
    by_cases he : q = p
    · rw [he, hA.fresh.2.1] at hz
      cases hz
    · rw [hA.heap_ne q he] at hq hz
      exact h.zero q hb hq hz
  · rw [hA.stack]
    exact h.scanLast
  · intro i hi
    rw [hA.stack, hs] at hi
    cases hi

end Allocates

/-- `alloc_object`. -/
theorem Inv.callAlloc {tag : TypeTag} (h : Inv E) (hs : E.stack = [])
    (hp : (E.heap p).live = false) :
    Inv (E.allocObject p size tag) := by
  by_cases hz : size = 0
  · rw [allocObject, if_pos hz]
    exact h
  · have hA : Allocates E p (E.allocObject p size tag) := allocates_allocObject hz
    exact ⟨hA.log h.log, hA.counts h.log h.counts hs hp, hA.queue h.queue hs hp⟩

theorem Inv.call (h : Inv E) (c : Call) (hs : E.stack = []) (hc : Lawful E c) :
    Inv (c.start E) := by
  cases c with
  | allocObject p size tag => exact h.callAlloc hs hc
  | localRef p =>
    rw [Call.start, localRef]
    exact h.recount hs (fun _ => ⟨rfl, rfl, rfl, rfl, rfl⟩) hc.1 (Nat.le_succ _)
  | dropLocalRef p => exact h.callDrop hc.2
  | receiveRef p =>
    rw [Call.start, receiveRef]
    exact h.recount hs (fun _ => ⟨rfl, rfl, rfl, rfl, rfl⟩) hc.1 (Nat.le_succ _)
  | sendRefTo p target | incForeignHold p =>
    simp only [Call.start, sendRefTo, incForeignHold]
    exact h.recount hs (fun _ => ⟨rfl, rfl, rfl, rfl, rfl⟩) hc.1 (Nat.le_refl _)
  | pinObject p | unpinObject p =>
    simp only [Call.start, pinObject, unpinObject]
    exact h.recount hs (fun _ => ⟨rfl, rfl, rfl, rfl, rfl⟩) hc (Nat.le_refl _)
  | processForeignOp p delta => exact h.callForeignOp hs hc.1
  | processDeferred => exact h.callScan hs
  | storeSlot c i v => exact h.callStore hs hc.1 hc.2.1 fun p hp => (hc.2.2 p hp).1

end Call

theorem inv_new (actorId : Nat) : Inv (.new actorId) := by
  have hdead {P : Prop} (p : Addr) (hp : ((new actorId).heap p).live = true) : P := by cases hp
  exact ⟨⟨fun p => hdead p, fun p => hdead p, fun p _ => hdead p, nofun, nodup_nil, nofun⟩,
    ⟨fun _ _ => rfl, fun _ => Nat.le_refl 0, nodup_nil, nofun⟩,
    ⟨nodup_nil, nofun, nofun, fun p _ => hdead p, trivial, nofun⟩⟩

theorem Reach.inv {E : Engine} (h : Reach Careful E) : Inv E := by
  induction h with
  | new actorId => exact inv_new actorId
  | call c _ hs hc ih => exact ih.call c hs hc
  | step _ hok hs ih => exact ih.step hok hs

/-! ## The calls return -/

/-- A bound on the transitions that a frame still makes, with `len` deferred objects. -/
def Frame.work (len : Nat) : Frame → Nat
  | .drop _ => 2
  | .free _ rest _ => 3 * rest.length + 1
  | .scan i => len - i + 1

namespace Engine

/-- A bound on the transitions that freeing `c` would make. -/
def potential (E : Engine) (c : Addr) : Nat :=
  if (E.heap c).live = true ∧ c ∉ dying E.stack then 3 * (E.ownedSlots (E.heap c)).length + 2 else 0

def framesWork (len : Nat) (st : List Frame) : Nat := (st.map (Frame.work len)).sum

def work (E : Engine) : Nat :=
  (∑ c ∈ range E.top, E.potential c) + framesWork E.deferredDecrements.length E.stack

variable {E : Engine}

@[simp] theorem framesWork_cons (len : Nat) (fr : Frame) (st : List Frame) :
    framesWork len (fr :: st) = fr.work len + framesWork len st := rfl

theorem framesWork_mono {len len' : Nat} (h : len ≤ len') (st : List Frame) :
    framesWork len st ≤ framesWork len' st := by
  induction st with
  | nil => exact Nat.le_refl _
  | cons fr st ih =>
    refine Nat.add_le_add ?_ ih
    cases fr with
    | drop | free => exact Nat.le_refl _
    | scan i => exact Nat.succ_le_succ (Nat.sub_le_sub_right h i)

variable {st : List Frame} {p : Addr}

theorem framesWork_succ (h : ScanLast st) (len : Nat) :
    framesWork (len + 1) st ≤ framesWork len st + 1 := by
  induction st with
  | nil => exact Nat.zero_le _
  | cons fr st ih =>
    rw [framesWork_cons, framesWork_cons]
    cases fr with
    | drop | free =>
      have := ih h
      simp only [Frame.work]
      omega
    | scan i =>
      rw [show st = [] from h]
      simp only [Frame.work, framesWork, map_nil, sum_nil]
      omega

/-- Starting to free an object spends its potential. -/
theorem work_freeObjectImpl (r : Bool) (hp : p < E.top) (hlive : (E.heap p).live = true)
    (hd : p ∉ dying E.stack) : (E.freeObjectImpl p r).work + 1 = E.work := by
  have hsum : (∑ c ∈ range E.top, (E.freeObjectImpl p r).potential c) +
      (3 * (E.ownedSlots (E.heap p)).length + 2) = ∑ c ∈ range E.top, E.potential c :=
    weigh_freeObjectImpl (fun l => 3 * l.length + 2) r hp hlive hd
  show (∑ c ∈ range E.top, (E.freeObjectImpl p r).potential c) +
    (3 * (E.ownedSlots (E.heap p)).length + 1 + framesWork E.deferredDecrements.length
      E.stack) + 1 = _
  rw [work]
  omega

theorem work_modify {f : Header → Header} (hf : Recounts f) : (E.modify p f).work = E.work :=
  congrArg (· + _) (sum_congr rfl fun _ _ => weigh_modify (w := fun l => 3 * l.length + 2) hf)

theorem work_restack (hd : dying st = dying E.stack) :
    { E with stack := st }.work + framesWork E.deferredDecrements.length E.stack =
      E.work + framesWork E.deferredDecrements.length st := by
  have hpot : ∀ c, { E with stack := st }.potential c = E.potential c := fun c =>
    weigh_congr (w := fun l => 3 * l.length + 2) rfl rfl (by rw [hd])
  simp only [work, hpot]
  omega

theorem work_deferred (E : Engine) (l : List Addr) :
    { E with deferredDecrements := l }.work + framesWork E.deferredDecrements.length E.stack =
      E.work + framesWork l.length E.stack := by
  have hpot : ∀ c, { E with deferredDecrements := l }.potential c = E.potential c := fun _ => rfl
  simp only [work, hpot]
  omega

end Engine

section Work

variable {E : Engine} {p : Addr} {st : List Frame}

theorem Inv.drop_work (h : Inv E) (hs : E.stack = .drop p :: st) :
    ({ E with stack := st }.dropLocalRef p).work < E.work := by
  have hdy : dying st = dying E.stack := by
    rw [hs]
    rfl
  obtain ⟨-, hlive, hd⟩ := h.droppable hs
  have hpop := work_restack (E := E) hdy
  rw [hs, framesWork_cons, Frame.work] at hpop
  rw [dropLocalRef]
  generalize hE' : ({ E with stack := st }.modify p
    fun h => { h with refCount := h.refCount - 1 }) = E'
  have hwork : E'.work + 2 = E.work := by
    rw [← hE', work_modify recounts_dec]
    omega
  have hlen : E'.deferredDecrements = E.deferredDecrements ∧ E'.stack = st := by
    rw [← hE']
    exact ⟨rfl, rfl⟩
  have hlive' : (E'.heap p).live = true ∧ p < E'.top := by
    rw [← hE', heap_modify_self]
    exact ⟨hlive, h.log.below p hlive⟩
  split
  · split
    · have hfree := work_freeObjectImpl true hlive'.2 hlive'.1 (by rw [hlen.2]; exact hd)
      rw [freeObject]
      omega
    · have hlast : ScanLast E'.stack := by
        have hl := h.queue.scanLast
        rw [hs] at hl
        rw [hlen.2]
        exact hl
      have hone := framesWork_succ hlast E'.deferredDecrements.length
      have hdefer := E'.work_deferred (E'.deferredDecrements ++ [p])
      rw [length_append, length_singleton] at hdefer
      omega
  · omega

variable {r : Bool} {E' : Engine}

theorem Inv.nextSlot_work {slot : Option Addr} {rest : List (Option Addr)}
    (hs : E.stack = .free p (slot :: rest) r :: st) :
    { E with stack := (slot.toList.map Frame.drop) ++ Frame.free p rest r :: st }.work <
    E.work := by
  have hdy : dying ((slot.toList.map Frame.drop) ++ Frame.free p rest r :: st) =
      dying E.stack := by
    rw [dying_drops, hs]
    rfl
  have hwork := work_restack hdy
  rw [hs, framesWork_cons, Frame.work, List.length_cons] at hwork
  cases slot with
  | none =>
    simp only [Option.toList, List.map_nil, List.nil_append, framesWork_cons, Frame.work] at hwork ⊢
    omega
  | some c =>
    simp only [Option.toList, List.map_cons, List.map_nil, List.cons_append, List.nil_append,
      framesWork_cons, Frame.work] at hwork ⊢
    omega

theorem Reclaims.work (hR : Reclaims E p st E') (hdy : dying E.stack = p :: dying st)
    (hs : E.stack = .free p [] r :: st) : E'.work < E.work := by
  have hpot : ∀ c, E'.potential c = E.potential c := fun _ =>
    hR.weigh (w := fun l => 3 * l.length + 2) hdy
  have hlen : E'.deferredDecrements.length ≤ E.deferredDecrements.length := by
    rw [hR.deferred]
    by_cases hp : p ∈ E.deferredDecrements
    · rw [(swapErase_of_mem hp).1, length_swapRemove]
      exact Nat.sub_le ..
    · rw [swapErase_of_notMem hp]
  have hmono := framesWork_mono hlen st
  simp only [Engine.work, hpot, hR.rest.1, hR.stack]
  rw [hs, framesWork_cons, Frame.work]
  omega

theorem Inv.scanFree_work {i : Nat} (h : Inv E) (hs : E.stack = [.scan i])
    (hi : E.deferredDecrements[i]? = some p) :
    ({ E with
      stack := [.scan i]
      deferredDecrements := E.deferredDecrements.swapRemove i }.freeObjectImpl p false).work <
      E.work := by
  have hlive : (E.heap p).live = true := h.queue.queued p (mem_of_getElem? hi)
  have hfree := work_freeObjectImpl (E := { E with
    stack := [.scan i], deferredDecrements := E.deferredDecrements.swapRemove i }) false
    (h.log.below p hlive) hlive not_mem_nil
  have hdefer := work_deferred E (E.deferredDecrements.swapRemove i)
  have hlen : (E.deferredDecrements.swapRemove i).length ≤ E.deferredDecrements.length := by
    rw [length_swapRemove]
    exact Nat.sub_le ..
  have hmono := framesWork_mono hlen E.stack
  rw [← hs] at hfree ⊢
  omega

/-- Every transition spends work, so every call returns. -/
theorem Inv.step_work (h : Inv E) (hs : E.step = some E') : E'.work < E.work := by
  cases transition_of_step hs with
  | drop hst => exact h.drop_work hst
  | slot hst => exact Inv.nextSlot_work hst
  | free hst =>
    rename_i p r st
    have hr : r = false → p ∉ E.deferredDecrements := by
      intro hr
      subst hr
      exact h.queue.unlisted p [] (by rw [hst]; exact mem_cons_self)
    exact (reclaims_freePayload hr).work (by rw [hst]; rfl) hst
  | scanEnd hst hi =>
    rename_i i st
    have hnil := h.scan_alone hst
    subst hnil
    have hdy : dying [] = dying E.stack := by
      rw [hst]
      rfl
    have hpop := work_restack hdy
    rw [hst, framesWork_cons, Frame.work] at hpop
    omega
  | scanFree hst hi hel =>
    have hnil := h.scan_alone hst
    subst hnil
    exact h.scanFree_work hst hi
  | scanKeep hst hi hel =>
    rename_i i p st
    have hnil := h.scan_alone hst
    subst hnil
    have hlt := (List.getElem?_eq_some_iff.mp hi).1
    have hdy : dying [.scan (i + 1)] = dying E.stack := by
      rw [hst]
      rfl
    have hkeep := work_restack hdy
    rw [hst, framesWork_cons, framesWork_cons, Frame.work, Frame.work] at hkeep
    omega

/-- A call whose transitions are all careful returns, with the fuel that the engine's work is. -/
theorem Inv.settles {fuel : Nat} (h : Inv E) (hfuel : E.work ≤ fuel)
    (hc : ∀ E', Relation.ReflTransGen (fun A B => A.step = some B) E E' → Careful E') :
    ∃ E', E.settle fuel = some E' ∧ E'.stack = [] ∧ Inv E' := by
  induction fuel generalizing E with
  | zero =>
    cases hs : E.step with
    | none => exact ⟨E, if_pos (stack_of_step_eq_none hs), stack_of_step_eq_none hs, h⟩
    | some E₁ =>
      have := h.step_work hs
      omega
  | succ fuel ih =>
    rw [settle]
    cases hs : E.step with
    | none => exact ⟨E, rfl, stack_of_step_eq_none hs, h⟩
    | some E₁ =>
      have hlt := h.step_work hs
      exact ih (h.step (hc E .refl) hs) (by omega) fun E' hE' => hc E' (.head hs hE')

/-- Check the call in progress to its end, which it has to reach in `fuel` transitions. -/
def Engine.carefully : Nat → Engine → Bool
  | 0, _ => false
  | fuel + 1, E => decide (Careful E) && match E.step with
      | none => true
      | some E' => carefully fuel E'

theorem careful_of_carefully {fuel : Nat} (h : E.carefully fuel = true) :
    ∀ E', Relation.ReflTransGen (fun A B => A.step = some B) E E' → Careful E' := by
  induction fuel generalizing E with
  | zero => cases h
  | succ fuel ih =>
    rw [carefully, Bool.and_eq_true, decide_eq_true_iff] at h
    intro E' hsteps
    rcases hsteps.cases_head with rfl | ⟨E₁, hs, hsteps⟩
    · exact h.1
    · have hrest := h.2
      rw [hs] at hrest
      exact ih hrest E' hsteps

/-- A container of the actor with an object in its slot, both held by nothing but a reference that
another actor has given back: the call that takes it off the container is in progress. -/
def releasing : List (Option Call) :=
  [some (.allocObject 0 8 .array), some (.allocObject 1 16 .string), some (.storeSlot 0 0 (some 1)),
    some (.dropLocalRef 1), none, some (.sendRefTo 0 7), some (.dropLocalRef 0), none,
    some (.processForeignOp 0 (-1))]

/-- The call releases the object in the slot, then the container, and is over. -/
theorem settles_releasing : ∃ E E', replay Careful releasing (.new 3) = some E ∧ E.stack ≠ [] ∧
    E.settle E.work = some E' ∧ E'.stack = [] ∧ E'.freed.map serial = [1, 0] ∧ Inv E' := by
  have hrun : ∃ E, replay Careful releasing (.new 3) = some E ∧ E.stack ≠ [] ∧
      E.carefully 9 = true ∧ ∀ E', E.settle E.work = some E' → E'.freed.map serial = [1, 0] := by
    refine ⟨_, rfl, by decide, by decide, fun E' hE' => ?_⟩
    cases hE'
    decide
  obtain ⟨E, hE, hstack, hcareful, hfreed⟩ := hrun
  obtain ⟨E', hsettle, hnil, hinv⟩ := Inv.settles ((Reach.new 3).replay hE).inv (Nat.le_refl E.work)
    (careful_of_carefully hcareful)
  exact ⟨E, E', hE, hstack, hsettle, hnil, hfreed E' hsettle, hinv⟩

end Work

/-- No object is reclaimed twice, and none while it is counted or pinned; the deferred list has
objects in use only; and when `process_deferred` returns, an object in use without references is
pinned. (Allocation hands out a local reference, so an object without one was dropped to zero.) -/
structure Sound (E : Engine) : Prop where
  once : (E.freed.map serial).Nodup
  unreferenced : ∀ h ∈ E.freed, h.refCount = 0 ∧ h.foreignCount = 0 ∧ h.sticky = false
  deferred : ∀ p ∈ E.deferredDecrements, (E.heap p).live = true
  complete : ∀ i E', E.stack = [.scan i] → E.step = some E' → E'.stack = [] →
    ∀ p, (E'.heap p).live = true → (E'.heap p).refCount = 0 → (E'.heap p).foreignCount = 0 →
      (E'.heap p).sticky = true

theorem Inv.complete {E E' : Engine} {i : Nat} (h : Inv E) (hst : E.stack = [.scan i])
    (hs : E.step = some E') (hret : E'.stack = []) (p : Addr) (hl : (E'.heap p).live = true)
    (hz : (E'.heap p).refCount = 0) (hf : (E'.heap p).foreignCount = 0) :
    (E'.heap p).sticky = true := by
  cases transition_of_step hs with
  | drop hst' | slot hst' | free hst' => cases hst.symm.trans hst'
  | scanEnd hst' hi =>
    cases hst.symm.trans hst'
    by_contra hsticky
    have hel := eligible_iff.mpr ⟨hz, hf, Bool.eq_false_of_not_eq_true hsticky⟩
    rcases h.queue.scanned i (by rw [hst]; exact mem_cons_self) p not_mem_nil hl hel with
      hm | ⟨j, hij, hj⟩
    · rw [hst] at hm
      cases hm
    · have hlen := getElem?_eq_none_iff.mp hi
      have hjlt := (List.getElem?_eq_some_iff.mp hj).1
      omega
  -- in the other two cases the loop goes on, with its frame on the stack
  | scanFree _ _ _ => cases hret
  | scanKeep _ _ _ => cases hret

/-- In every run of lawful calls whose transitions are careful, every state is sound, and every
transition brings the call in progress closer to its end. -/
theorem orca_sound {E : Engine} (h : Reach Careful E) :
    Sound E ∧ ∀ E', E.step = some E' → E'.work < E.work := by
  have hinv := h.inv
  refine ⟨⟨hinv.log.freedNodup, ?_, hinv.queue.queued, ?_⟩, fun E' hs => hinv.step_work hs⟩
  · intro g hg
    exact eligible_iff.mp (hinv.log.freedEligible g hg)
  · intro i E' hst hs hret p
    exact hinv.complete hst hs hret p

/-- An object that comes back through `receive_ref` while it is deferred, and is dropped to zero
again while one foreign reference is left: it stands on the list twice when it is reclaimed. -/
def deferredTwice : List (Option Call) :=
  [some (.allocObject 0 16 .string), some (.sendRefTo 0 7), some (.sendRefTo 0 7),
    some (.dropLocalRef 0), none, some (.receiveRef 0), some (.dropLocalRef 0), none,
    some (.processForeignOp 0 (-1)), none]

/-- A deferred object that came back and is only held by a container, behind it on the list; and
behind that one an object that can be reclaimed. Reclaiming the container takes the first entry
away, and the last entry moves to its place, below the index of the scan. -/
def movedBelow : List (Option Call) :=
  [some (.allocObject 0 16 .string), some (.sendRefTo 0 7), some (.dropLocalRef 0), none,
    some (.receiveRef 0), some (.allocObject 1 8 .array), some (.storeSlot 1 0 (some 0)),
    some (.dropLocalRef 0), none, some (.pinObject 1), some (.dropLocalRef 1), none,
    some (.unpinObject 1), some (.allocObject 2 16 .string), some (.pinObject 2),
    some (.dropLocalRef 2), none, some (.unpinObject 2), some .processDeferred,
    none, none, none, none, none, none]

/-- Lawful runs that are not careful: a reclaimed object on the deferred list, an object reclaimed
twice, and an object that `process_deferred` leaves behind. -/
theorem orca_unsound :
    (∃ E, Reach (fun _ => True) E ∧ ∃ p ∈ E.deferredDecrements, (E.heap p).live = false) ∧
    (∃ E, Reach (fun _ => True) E ∧ ¬ (E.freed.map serial).Nodup) ∧
    (∃ E E', Reach (fun _ => True) E ∧ E.stack = [.scan 1] ∧ E.step = some E' ∧ E'.stack = [] ∧
      (E'.heap 2).live = true ∧ (E'.heap 2).refCount = 0 ∧ (E'.heap 2).foreignCount = 0 ∧
      (E'.heap 2).sticky = false) := by
  refine ⟨?_, ?_, ?_⟩
  · have hrun : ∃ E, replay (fun _ => True) deferredTwice (.new 3) = some E ∧
        ∃ p ∈ E.deferredDecrements, (E.heap p).live = false := by
      exact ⟨_, rfl, 0, by decide, by decide⟩
    obtain ⟨E, hE, hp⟩ := hrun
    exact ⟨E, (Reach.new 3).replay hE, hp⟩
  · have hrun : ∃ E, replay (fun _ => True) (deferredTwice ++ [some .processDeferred, none, none])
        (.new 3) = some E ∧ ¬ (E.freed.map serial).Nodup := by
      refine ⟨_, rfl, ?_⟩
      decide
    obtain ⟨E, hE, hp⟩ := hrun
    exact ⟨E, (Reach.new 3).replay hE, hp⟩
  · have hrun : ∃ E, replay (fun _ => True) movedBelow (.new 3) = some E ∧
        ∃ E', E.stack = [.scan 1] ∧ E.step = some E' ∧ E'.stack = [] ∧
          (E'.heap 2).live = true ∧ (E'.heap 2).refCount = 0 ∧ (E'.heap 2).foreignCount = 0 ∧
          (E'.heap 2).sticky = false := by
      exact ⟨_, rfl, _, by decide, rfl, by decide, by decide, by decide, by decide, by decide⟩
    obtain ⟨E, hE, E', hp⟩ := hrun
    exact ⟨E, E', (Reach.new 3).replay hE, hp⟩

/-- The call in progress run to its end, and a pass of the deferred queue after it: the container
goes with the object in its slot, after it. -/
def releaseScript : List (Option Call) :=
  releasing ++ [none, none, none, none, some .processDeferred, none]

theorem orca_sound_release : ∃ E, Reach Careful E ∧ E.freed.map serial = [1, 0] ∧ Sound E := by
  have hrun : ∃ E, replay Careful releaseScript (.new 3) = some E ∧
      E.freed.map serial = [1, 0] := by
    refine ⟨_, rfl, ?_⟩
    decide
  obtain ⟨E, hE, hfreed⟩ := hrun
  have hreach : Reach Careful E := (Reach.new 3).replay hE
  exact ⟨E, hreach, hfreed, (orca_sound hreach).1⟩

end Nulang.Orca

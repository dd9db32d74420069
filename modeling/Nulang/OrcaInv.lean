import Mathlib.Algebra.BigOperators.Group.Finset.Basic
import Nulang.Orca

/-!
# References and counts of an ORCA engine

An engine is used lawfully when drops release references that are outstanding and foreign decrements
match foreign increments (`Lawful`). The counts then dominate the references there are: those in the
slots of live containers and those that calls in progress still have to release (`Engine.refsTo`).
That is enough for the counts, but the list of deferred objects needs more: an object can come back
to life while it stands on the list, be deferred a second time, and be reclaimed once per entry; and
a removal below the index of `process_deferred` moves an entry the scan has not seen to a place it
has passed. `Careful` is the absence of these two, step by step.

The invariant comes in three parts: what was reclaimed (`Log`), the counts (`Counts`) and the
deferred list (`Queue`). This file has what single operations do to the parts.
-/

set_option autoImplicit false

namespace Nulang.Orca

open Engine Finset
open List hiding range mem_range

/-- The objects that `free_object_impl` is working on. -/
def dying : List Frame → List Addr
  | [] => []
  | .free p _ _ :: st => p :: dying st
  | _ :: st => dying st

/-- How many references to `p` the calls in progress are going to release. -/
def owed (p : Addr) : List Frame → Nat
  | [] => 0
  | .drop q :: st => (if q = p then 1 else 0) + owed p st
  | .free _ rest _ :: st => rest.count (some p) + owed p st
  | .scan _ :: st => owed p st

theorem mem_dying_of_free {p : Addr} {rest : List (Option Addr)} {r : Bool} {st : List Frame}
    (h : .free p rest r ∈ st) : p ∈ dying st := by
  induction st with
  | nil => cases h
  | cons fr st ih =>
    rcases mem_cons.mp h with rfl | ht
    · exact mem_cons_self
    · cases fr with
      | drop | scan => exact ih ht
      | free q rest' r' => exact mem_cons_of_mem _ (ih ht)

/-- The frames that release the reference of a slot free nothing by themselves. -/
theorem dying_drops (slot : Option Addr) (st : List Frame) :
    dying (slot.toList.map Frame.drop ++ st) = dying st := by
  cases slot with
  | none => rfl
  | some p => rfl

theorem mem_of_mem_drops {slot : Option Addr} {st : List Frame} {fr : Frame}
    (h : fr ∈ slot.toList.map Frame.drop ++ st) (hfr : ∀ p, fr ≠ .drop p) : fr ∈ st := by
  refine (mem_append.mp h).resolve_left fun hd => ?_
  obtain ⟨p, _, hp⟩ := mem_map.mp hd
  exact hfr p hp.symm

namespace Engine

/-- How many slots of `c` hold `p`; an object that is being freed holds nothing any more, its
references are with the frame. -/
def holds (E : Engine) (c p : Addr) : Nat :=
  if (E.heap c).live = true ∧ c ∉ dying E.stack then (E.ownedSlots (E.heap c)).count (some p)
  else 0

/-- What `c` weighs, when the slots of an object that is not being freed are weighed with `w`. -/
def weigh (E : Engine) (w : List (Option Addr) → Nat) (c : Addr) : Nat :=
  if (E.heap c).live = true ∧ c ∉ dying E.stack then w (E.ownedSlots (E.heap c)) else 0

def refsTo (E : Engine) (p : Addr) : Nat := (∑ c ∈ range E.top, E.holds c p) + owed p E.stack

end Engine

inductive Transition (E : Engine) : Engine → Prop where
  | drop {p : Addr} {st : List Frame} (hs : E.stack = .drop p :: st) :
      Transition E ({ E with stack := st }.dropLocalRef p)
  | slot {p : Addr} {slot : Option Addr} {rest : List (Option Addr)} {r : Bool} {st : List Frame}
      (hs : E.stack = .free p (slot :: rest) r :: st) :
      Transition E { E with stack := slot.toList.map Frame.drop ++ .free p rest r :: st }
  | free {p : Addr} {r : Bool} {st : List Frame} (hs : E.stack = .free p [] r :: st) :
      Transition E ({ E with stack := st }.freePayload p r)
  | scanEnd {i : Nat} {st : List Frame} (hs : E.stack = .scan i :: st)
      (hi : E.deferredDecrements[i]? = none) : Transition E { E with stack := st }
  | scanFree {i : Nat} {p : Addr} {st : List Frame} (hs : E.stack = .scan i :: st)
      (hi : E.deferredDecrements[i]? = some p) (hel : (E.heap p).eligible = true) :
      Transition E ({ E with
        stack := .scan i :: st
        deferredDecrements := E.deferredDecrements.swapRemove i }.freeObjectImpl p false)
  | scanKeep {i : Nat} {p : Addr} {st : List Frame} (hs : E.stack = .scan i :: st)
      (hi : E.deferredDecrements[i]? = some p) (hel : (E.heap p).eligible = false) :
      Transition E { E with stack := .scan (i + 1) :: st }

theorem transition_of_step {E E' : Engine} (h : E.step = some E') : Transition E E' := by
  -- One transition for each kind of frame on top of the stack.
  unfold step at h
  split at h
  · cases h
  · next hs =>
    cases h
    exact .drop hs
  · next hs =>
    cases h
    exact .slot hs
  · next hs =>
    cases h
    exact .slot hs
  · next hs =>
    cases h
    exact .free hs
  · next i st hs =>
    simp only [scanDeferred] at h
    cases hi : E.deferredDecrements[i]? with
    | none =>
      rw [hi] at h
      cases h
      exact .scanEnd hs hi
    | some p =>
      rw [hi] at h
      by_cases hel : (E.heap p).eligible = true
      · simp only [hel, if_true] at h
        cases h
        exact .scanFree hs hi hel
      · simp only [hel] at h
        cases h
        exact .scanKeep hs hi (Bool.eq_false_of_not_eq_true hel)

theorem stack_of_step_eq_none {E : Engine} (h : E.step = none) : E.stack = [] := by
  unfold step at h
  split at h
  case h_1 hs => exact hs
  case h_6 =>
    split at h
    · cases h
    · cases h
  all_goals cases h

/-! ## Lawful and careful runs -/

/-- The contract of the calls: the object is live, a drop releases a reference that no slot holds,
a foreign decrement has its increments, the heap hands out blocks that are not in use, and no count
leaves the range of a `u32`. -/
def Lawful (E : Engine) : Call → Prop
  | .allocObject p _ _ => (E.heap p).live = false
  | .dropLocalRef p => (E.heap p).live = true ∧ E.refsTo p < (E.heap p).refCount
  | .receiveRef p => (E.heap p).live = true ∧ 0 < (E.heap p).foreignCount ∧
      (E.heap p).refCount + 1 < countLimit
  | .processForeignOp p delta => (E.heap p).live = true ∧ -delta ≤ (E.heap p).foreignCount ∧
      (E.heap p).foreignCount + delta < countLimit
  | .localRef p => (E.heap p).live = true ∧ (E.heap p).refCount + 1 < countLimit
  | .sendRefTo p _ | .incForeignHold p =>
    (E.heap p).live = true ∧ (E.heap p).foreignCount + 1 < countLimit
  | .pinObject p | .unpinObject p => (E.heap p).live = true
  | .processDeferred => True
  | .storeSlot c i v => (E.heap c).live = true ∧ i < (E.ownedSlots (E.heap c)).length ∧
      ∀ p ∈ v, (E.heap p).live = true ∧ (E.heap p).refCount + 1 < countLimit

/-- The index of the `process_deferred` in progress. -/
def scanning : List Frame → Option Nat
  | [] => none
  | .scan i :: _ => some i
  | _ :: st => scanning st

/-- The next transition defers no object that is already on the list, and takes no entry out of the
list below the index of `process_deferred` while entries from that index on are left. -/
def CarefulAt (E : Engine) : List Frame → Prop
  | .drop p :: _ => (E.heap p).refCount = 1 →
      0 < (E.heap p).foreignCount ∨ (E.heap p).sticky = true → p ∉ E.deferredDecrements
  | .free p [] true :: st => ∀ i ∈ scanning st, p ∈ E.deferredDecrements →
      E.deferredDecrements.idxOf p < i → E.deferredDecrements.length ≤ i
  | _ => True

def Careful (E : Engine) : Prop := CarefulAt E E.stack

instance (E : Engine) (c : Call) : Decidable (Lawful E c) :=
  match c with
  | .allocObject _ _ _ => inferInstanceAs (Decidable (_ = _))
  | .dropLocalRef _ => inferInstanceAs (Decidable (_ ∧ _))
  | .receiveRef _ => inferInstanceAs (Decidable (_ ∧ _ ∧ _))
  | .processForeignOp _ _ => inferInstanceAs (Decidable (_ ∧ _ ∧ _))
  | .localRef _ | .sendRefTo _ _ | .incForeignHold _ => inferInstanceAs (Decidable (_ ∧ _))
  | .pinObject _ | .unpinObject _ => inferInstanceAs (Decidable (_ = _))
  | .processDeferred => inferInstanceAs (Decidable True)
  | .storeSlot _ _ _ => inferInstanceAs (Decidable (_ ∧ _ ∧ _))

instance (E : Engine) (st : List Frame) : Decidable (CarefulAt E st) :=
  match st with
  | .drop _ :: _ => inferInstanceAs (Decidable (_ → _ → _))
  | .free _ [] true :: st => inferInstanceAs (Decidable (∀ i ∈ scanning st, _ → _ → _))
  | [] | .free _ [] false :: _ | .free _ (_ :: _) _ :: _ | .scan _ :: _ =>
    inferInstanceAs (Decidable True)

instance (E : Engine) : Decidable (Careful E) := inferInstanceAs (Decidable (CarefulAt E E.stack))

/-- Follow a script of calls (`some`) and transitions (`none`), as long as it is a lawful run that
only passes transitions with `ok`. -/
def replay (ok : Engine → Prop) [DecidablePred ok] : List (Option Call) → Engine → Option Engine
  | [], E => some E
  | some c :: script, E =>
    if E.stack = [] ∧ Lawful E c then replay ok script (c.start E) else none
  | none :: script, E => if ok E then E.step.bind (replay ok script) else none

/-- The states of the runs of one engine that only pass transitions with `ok`. -/
inductive Reach (ok : Engine → Prop) : Engine → Prop where
  | new (actorId : Nat) : Reach ok (.new actorId)
  | call {E : Engine} (c : Call) (h : Reach ok E) (hs : E.stack = []) (hc : Lawful E c) :
      Reach ok (c.start E)
  | step {E E' : Engine} (h : Reach ok E) (hok : ok E) (hs : E.step = some E') : Reach ok E'

theorem Reach.replay {ok : Engine → Prop} [DecidablePred ok] {E E' : Engine}
    {script : List (Option Call)} (h : Reach ok E) (hr : replay ok script E = some E') :
    Reach ok E' := by
  induction script generalizing E with
  | nil =>
    cases hr
    exact h
  | cons entry script ih =>
    cases entry with
    | some c =>
      rw [Orca.replay] at hr
      split at hr
      · rename_i hc
        exact ih (h.call c hc.1 hc.2) hr
      · cases hr
    | none =>
      rw [Orca.replay] at hr
      split at hr
      · rename_i hok
        obtain ⟨E₁, hs, hr⟩ := Option.bind_eq_some_iff.mp hr
        exact ih (h.step hok hs) hr
      · cases hr

/-- `process_deferred` is not called by any other call. -/
def ScanLast : List Frame → Prop
  | [] => True
  | .scan _ :: st => st = []
  | _ :: st => ScanLast st

theorem scanning_of_mem {st : List Frame} {i : Nat} (hl : ScanLast st) (h : .scan i ∈ st) :
    i ∈ scanning st := by
  induction st with
  | nil => cases h
  | cons fr st ih =>
    cases fr with
    | drop | free => exact ih hl ((mem_cons.mp h).resolve_left nofun)
    | scan j =>
      rcases mem_cons.mp h with he | ht
      · cases he
        rfl
      · rw [show st = [] from hl] at ht
        cases ht

/-- Which blocks are in use, and what was reclaimed so far. -/
structure Log (E : Engine) : Prop where
  below : ∀ p, (E.heap p).live = true → p < E.top
  serials : ∀ p, (E.heap p).live = true →
    (E.heap p).serial < E.allocs ∧ (E.heap p).serial ∉ E.freed.map Header.serial
  serialInj : ∀ p q, (E.heap p).live = true → (E.heap q).live = true →
    (E.heap p).serial = (E.heap q).serial → p = q
  freedBelow : ∀ h ∈ E.freed, h.serial < E.allocs
  freedNodup : (E.freed.map Header.serial).Nodup
  freedEligible : ∀ h ∈ E.freed, h.eligible = true

/-- The counts dominate the references, and only what has none is being freed. -/
structure Counts (E : Engine) : Prop where
  dead : ∀ p, (E.heap p).live = false → (E.heap p).refCount = 0
  counted : ∀ p, E.refsTo p ≤ (E.heap p).refCount
  dyingNodup : (dying E.stack).Nodup
  dyingLive : ∀ p ∈ dying E.stack, (E.heap p).live = true ∧ (E.heap p).eligible = true

/-- The deferred list has every object without local references that is not being freed, and the
scan has passed nothing that could be reclaimed. The objects in `busy` are left out: those between
two operations of one transition. -/
structure Queue (busy : List Addr) (E : Engine) : Prop where
  nodup : E.deferredDecrements.Nodup
  queued : ∀ p ∈ E.deferredDecrements, (E.heap p).live = true
  unlisted : ∀ p rest, .free p rest false ∈ E.stack → p ∉ E.deferredDecrements
  zero : ∀ p ∉ busy, (E.heap p).live = true → (E.heap p).refCount = 0 →
    p ∈ E.deferredDecrements ∨ p ∈ dying E.stack
  scanLast : ScanLast E.stack
  scanned : ∀ i, .scan i ∈ E.stack → ∀ p ∉ busy, (E.heap p).live = true →
    (E.heap p).eligible = true →
    p ∈ dying E.stack ∨ ∃ j, i ≤ j ∧ E.deferredDecrements[j]? = some p

structure Inv (E : Engine) : Prop where
  log : Log E
  counts : Counts E
  queue : Queue [] E

theorem Header.eligible_iff {h : Header} :
    h.eligible = true ↔ h.refCount = 0 ∧ h.foreignCount = 0 ∧ h.sticky = false := by
  simp [Header.eligible, and_assoc]

/-! ## Changes of one header -/

/-- A change of the counts and the flag only. -/
def Recounts (f : Header → Header) : Prop :=
  ∀ h, (f h).live = h.live ∧ (f h).slots = h.slots ∧ (f h).typeTag = h.typeTag ∧
    (f h).actorId = h.actorId ∧ (f h).serial = h.serial

namespace Engine

variable {E : Engine} {p q : Addr} {f : Header → Header}

@[simp] theorem heap_modify_self : (E.modify p f).heap p = f (E.heap p) := by simp [modify]

theorem heap_modify_ne (h : q ≠ p) : (E.modify p f).heap q = E.heap q := by simp [modify, h]

@[simp] theorem stack_modify : (E.modify p f).stack = E.stack := rfl

/-- What the change keeps of the one header, it keeps of every header. -/
theorem field_modify {β : Type} (g : Header → β) (hf : g (f (E.heap p)) = g (E.heap p)) :
    g ((E.modify p f).heap q) = g (E.heap q) := by
  by_cases h : q = p
  · subst h
    rw [heap_modify_self, hf]
  · rw [heap_modify_ne h]

theorem live_modify (hf : Recounts f) : ((E.modify p f).heap q).live = (E.heap q).live :=
  field_modify Header.live (hf _).1

theorem serial_modify (hf : Recounts f) : ((E.modify p f).heap q).serial = (E.heap q).serial :=
  field_modify Header.serial (hf _).2.2.2.2

theorem ownedSlots_modify (hf : Recounts f) :
    (E.modify p f).ownedSlots ((E.modify p f).heap q) = E.ownedSlots (E.heap q) := by
  by_cases h : q = p
  · subst h
    obtain ⟨_, hs, ht, ha, _⟩ := hf (E.heap q)
    simp only [heap_modify_self, ownedSlots, hs, ht, ha]
    rfl
  · rw [heap_modify_ne h]
    rfl

variable {w : List (Option Addr) → Nat} {c : Addr}

theorem weigh_congr {E' : Engine} (hid : E'.actorId = E.actorId) (hheap : E'.heap c = E.heap c)
    (hd : c ∈ dying E'.stack ↔ c ∈ dying E.stack) : E'.weigh w c = E.weigh w c := by
  simp only [weigh, ownedSlots, hheap, hid, hd]

theorem weigh_modify (hf : Recounts f) : (E.modify p f).weigh w c = E.weigh w c := by
  simp only [weigh, live_modify hf, ownedSlots_modify hf, stack_modify]

theorem refsTo_modify (hf : Recounts f) : (E.modify p f).refsTo q = E.refsTo q :=
  congrArg (· + owed q E.stack) (sum_congr rfl fun _ _ => weigh_modify hf)

end Engine

section Modify

variable {E : Engine} {p : Addr} {f : Header → Header} {busy : List Addr}

theorem Log.of_eq {E' : Engine} (h : Log E) (hlive : ∀ q, (E'.heap q).live = (E.heap q).live)
    (hserial : ∀ q, (E'.heap q).serial = (E.heap q).serial) (htop : E'.top = E.top)
    (hfreed : E'.freed = E.freed) (hallocs : E'.allocs = E.allocs) : Log E' := by
  obtain ⟨h₁, h₂, h₃, h₄, h₅, h₆⟩ := h
  constructor <;> simpa only [hlive, hserial, htop, hfreed, hallocs]

theorem Log.modify (h : Log E) (hf : Recounts f) : Log (E.modify p f) :=
  h.of_eq (fun _ => live_modify hf) (fun _ => serial_modify hf) rfl rfl rfl

theorem Counts.modify (h : Counts E) (hf : Recounts f) (hlive : (E.heap p).live = true)
    (hd : p ∉ dying E.stack) (hc : E.refsTo p ≤ (f (E.heap p)).refCount) :
    Counts (E.modify p f) where
  dead q hq := by
    rw [live_modify hf] at hq
    have hne : q ≠ p := fun he => by rw [he, hlive] at hq; cases hq
    rw [heap_modify_ne hne]
    exact h.dead q hq
  counted q := by
    rw [refsTo_modify hf]
    by_cases hq : q = p
    · subst hq
      rwa [heap_modify_self]
    · rw [heap_modify_ne hq]
      exact h.counted q
  dyingNodup := h.dyingNodup
  dyingLive q hq := by
    have hne : q ≠ p := fun he => hd (he ▸ hq)
    rw [heap_modify_ne hne]
    exact h.dyingLive q hq

theorem Queue.modify (h : Queue busy E) (hf : Recounts f) : Queue (p :: busy) (E.modify p f) where
  nodup := h.nodup
  queued q hq := by
    rw [live_modify hf]
    exact h.queued q hq
  unlisted := h.unlisted
  zero q hq hl hz := by
    rw [heap_modify_ne (ne_of_not_mem_cons hq)] at hl hz
    exact h.zero q (not_mem_of_not_mem_cons hq) hl hz
  scanLast := h.scanLast
  scanned i hi q hq hl he := by
    rw [heap_modify_ne (ne_of_not_mem_cons hq)] at hl he
    exact h.scanned i hi q (not_mem_of_not_mem_cons hq) hl he

/-- An object is no exception any more when it has its entry, or needs none. -/
theorem Queue.release (h : Queue (p :: busy) E)
    (hz : (E.heap p).refCount = 0 → p ∈ E.deferredDecrements ∨ p ∈ dying E.stack)
    (hs : ∀ i, .scan i ∈ E.stack → (E.heap p).refCount ≠ 0) : Queue busy E where
  nodup := h.nodup
  queued := h.queued
  unlisted := h.unlisted
  zero q hq hl hqz := by
    by_cases he : q = p
    · subst he
      exact hz hqz
    · exact h.zero q (not_mem_cons_of_ne_of_not_mem he hq) hl hqz
  scanLast := h.scanLast
  scanned i hi q hq hl hel := by
    by_cases he : q = p
    · subst he
      exact absurd (Header.eligible_iff.mp hel).1 (hs i hi)
    · exact h.scanned i hi q (not_mem_cons_of_ne_of_not_mem he hq) hl hel

end Modify

/-! ## Frames that come and go -/

section Frames

variable {E : Engine} {p : Addr} {st : List Frame} {busy : List Addr}

theorem sum_range_change {n a : Nat} {f g : Nat → Nat} (ha : a < n)
    (h : ∀ c, c ≠ a → f c = g c) : (∑ c ∈ range n, f c) + g a = (∑ c ∈ range n, g c) + f a := by
  have hrest : ∑ c ∈ (range n).erase a, f c = ∑ c ∈ (range n).erase a, g c :=
    sum_congr rfl fun c hc => h c (mem_erase.mp hc).1
  rw [← add_sum_erase (range n) f (mem_range.mpr ha),
    ← add_sum_erase (range n) g (mem_range.mpr ha), hrest]
  omega

theorem weigh_freeObjectImpl (w : List (Option Addr) → Nat) (r : Bool) (hp : p < E.top)
    (hlive : (E.heap p).live = true) (hd : p ∉ dying E.stack) :
    (∑ c ∈ range E.top, (E.freeObjectImpl p r).weigh w c) + w (E.ownedSlots (E.heap p)) =
      ∑ c ∈ range E.top, E.weigh w c := by
  have hother : ∀ c, c ≠ p → (E.freeObjectImpl p r).weigh w c = E.weigh w c := by
    intro c hc
    refine weigh_congr rfl rfl ?_
    show c ∈ p :: dying E.stack ↔ c ∈ dying E.stack
    simp [hc]
  have hself : (E.freeObjectImpl p r).weigh w p = 0 := if_neg fun h => h.2 mem_cons_self
  have hbefore : E.weigh w p = w (E.ownedSlots (E.heap p)) := if_pos ⟨hlive, hd⟩
  have hsum := sum_range_change hp hother
  omega

/-- Its references go from its slots to the frame. -/
theorem refsTo_freeObjectImpl (r : Bool) (q : Addr) (hp : p < E.top)
    (hlive : (E.heap p).live = true) (hd : p ∉ dying E.stack) :
    (E.freeObjectImpl p r).refsTo q = E.refsTo q := by
  have hsum := weigh_freeObjectImpl (fun l => l.count (some q)) r hp hlive hd
  show (∑ c ∈ range E.top, (E.freeObjectImpl p r).weigh (fun l => l.count (some q)) c) +
    ((E.ownedSlots (E.heap p)).count (some q) + owed q E.stack) = _
  rw [← Nat.add_assoc, hsum]
  rfl

theorem Counts.freeObjectImpl (h : Counts E) (r : Bool) (hp : p < E.top)
    (hlive : (E.heap p).live = true) (hel : (E.heap p).eligible = true)
    (hd : p ∉ dying E.stack) : Counts (E.freeObjectImpl p r) where
  dead := h.dead
  counted q := by
    rw [refsTo_freeObjectImpl r q hp hlive hd]
    exact h.counted q
  dyingNodup := nodup_cons.mpr ⟨hd, h.dyingNodup⟩
  dyingLive q hq := by
    rcases mem_cons.mp hq with rfl | hq
    · exact ⟨hlive, hel⟩
    · exact h.dyingLive q hq

theorem Queue.freeObjectImpl (h : Queue (p :: busy) E) (r : Bool)
    (hr : r = false → p ∉ E.deferredDecrements) : Queue busy (E.freeObjectImpl p r) where
  nodup := h.nodup
  queued := h.queued
  unlisted q rest hq := by
    rcases mem_cons.mp hq with he | hq
    · cases he
      exact hr rfl
    · exact h.unlisted q rest hq
  zero q hq hl hz := by
    by_cases he : q = p
    · exact .inr (he ▸ mem_cons_self)
    · rcases h.zero q (not_mem_cons_of_ne_of_not_mem he hq) hl hz with hm | hm
      · exact .inl hm
      · exact .inr (mem_cons_of_mem _ hm)
  scanLast := h.scanLast
  scanned i hi q hq hl hel := by
    have hi' : Frame.scan i ∈ E.stack := by
      rcases mem_cons.mp hi with he | hi
      · cases he
      · exact hi
    by_cases he : q = p
    · exact .inl (he ▸ mem_cons_self)
    · rcases h.scanned i hi' q (not_mem_cons_of_ne_of_not_mem he hq) hl hel with hm | hm
      · exact .inl (mem_cons_of_mem _ hm)
      · exact .inr hm

/-- Deferring an object that is not on the list. -/
theorem Queue.defer (h : Queue (p :: busy) E) (hlive : (E.heap p).live = true)
    (hel : (E.heap p).eligible = false) (hp : p ∉ E.deferredDecrements) (hd : p ∉ dying E.stack) :
    Queue busy { E with deferredDecrements := E.deferredDecrements ++ [p] } where
  nodup := by
    rw [List.nodup_append]
    refine ⟨h.nodup, List.nodup_singleton p, ?_⟩
    intro q hq r hr
    rw [List.mem_singleton.mp hr]
    intro he
    exact hp (he ▸ hq)
  queued q hq := by
    rcases List.mem_append.mp hq with hq | hq
    · exact h.queued q hq
    · rw [List.mem_singleton.mp hq]
      exact hlive
  unlisted q rest hq hmem := by
    rcases List.mem_append.mp hmem with hmem | hmem
    · exact h.unlisted q rest hq hmem
    · rw [List.mem_singleton.mp hmem] at hq
      exact hd (mem_dying_of_free hq)
  -- `p` was excused from being on the list, and now it is on it.
  zero q hq hl hz := by
    by_cases he : q = p
    · exact .inl (by rw [he]; simp)
    · rcases h.zero q (List.not_mem_cons_of_ne_of_not_mem he hq) hl hz with hm | hm
      · exact .inl (List.mem_append_left _ hm)
      · exact .inr hm
  scanLast := h.scanLast
  scanned i hi q hq hl hq' := by
    by_cases he : q = p
    · subst he
      rw [hel] at hq'
      cases hq'
    · rcases h.scanned i hi q (List.not_mem_cons_of_ne_of_not_mem he hq) hl hq' with
        hm | ⟨j, hij, hj⟩
      · exact .inl hm
      · refine .inr ⟨j, hij, ?_⟩
        show (E.deferredDecrements ++ [p])[j]? = some q
        rw [List.getElem?_append_left (List.getElem?_eq_some_iff.mp hj).1]
        exact hj

theorem Counts.restack (h : Counts E) (hd : dying st = dying E.stack)
    (ho : ∀ q, E.refsTo q + owed q st ≤ (E.heap q).refCount + owed q E.stack) :
    Counts { E with stack := st } where
  dead := h.dead
  counted q := by
    have hholds : ∀ c, { E with stack := st }.holds c q = E.holds c q := fun c =>
      weigh_congr rfl rfl (by rw [hd])
    have hq := ho q
    simp only [refsTo] at hq
    simp only [refsTo, hholds]
    omega
  dyingNodup := by
    show (dying st).Nodup
    rw [hd]
    exact h.dyingNodup
  dyingLive q hq := h.dyingLive q (by rw [← hd]; exact hq)

theorem Queue.restack (h : Queue busy E) (hd : dying st = dying E.stack) (hl : ScanLast st)
    (hs : ∀ i, .scan i ∈ st → .scan i ∈ E.stack)
    (hf : ∀ q rest, .free q rest false ∈ st → ∃ rest', .free q rest' false ∈ E.stack) :
    Queue busy { E with stack := st } where
  nodup := h.nodup
  queued := h.queued
  unlisted q rest hq := by
    obtain ⟨rest', hq'⟩ := hf q rest hq
    exact h.unlisted q rest' hq'
  zero q hq hlive hz := by
    show q ∈ E.deferredDecrements ∨ q ∈ dying st
    rw [hd]
    exact h.zero q hq hlive hz
  scanLast := hl
  scanned i hi q hq hlive hel := by
    show q ∈ dying st ∨ ∃ j, i ≤ j ∧ E.deferredDecrements[j]? = some q
    rw [hd]
    exact h.scanned i (hs i hi) q hq hlive hel

theorem Log.restack (h : Log E) (st : List Frame) : Log { E with stack := st } :=
  h.of_eq (fun _ => rfl) (fun _ => rfl) rfl rfl rfl

theorem Counts.shrink (h : Counts E) (hd : dying st = dying E.stack)
    (ho : ∀ q, owed q st ≤ owed q E.stack) : Counts { E with stack := st } :=
  h.restack hd fun q => Nat.add_le_add (h.counted q) (ho q)

theorem Queue.pop {fr : Frame} (h : Queue busy E) (hs : E.stack = fr :: st)
    (hd : dying st = dying E.stack) (hl : ScanLast st) : Queue busy { E with stack := st } := by
  refine h.restack hd hl ?_ ?_
  · intro i hi
    rw [hs]
    exact mem_cons_of_mem _ hi
  · intro q rest hq
    exact ⟨rest, by rw [hs]; exact mem_cons_of_mem _ hq⟩

end Frames

end Nulang.Orca

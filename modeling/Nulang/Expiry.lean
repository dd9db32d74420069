import Mathlib.Algebra.Group.Nat.Defs
import Mathlib.Data.List.Basic

/-!
# The expiry wheel of the cache

`CacheStore` of `runtime/cache.rs` with the wheel that its sweeps empty. The index is represented by
its answers, and the values, which no deadline depends on, are left out.

The wheel has 4096 buckets of 10 ms each. A sweep empties the buckets between the last sweep and
now, and puts back what is not due and what its limit has no room for. What goes back into a bucket
the wheel has passed is met again only when the wheel has come round. A sweep below its limit leaves
nothing that is due exactly if it visits the buckets of everything that is (`sweep_complete_iff`),
and no sweep removes anything else (`purge_spares`).
-/

namespace Nulang.Cache

open Function

def tickMs : Nat := 10

def bucketCount : Nat := 4096

structure ExpirationRef where
  slot : Nat
  generation : Nat
  expiresAt : Nat

def ExpirationRef.bucket (item : ExpirationRef) : Nat := item.expiresAt / tickMs % bucketCount

structure ExpirationWheel where
  buckets : Nat → List ExpirationRef := fun _ => []
  lastTick : Option Nat := none

namespace ExpirationWheel

variable (w : ExpirationWheel) (now : Nat)

def schedule (item : ExpirationRef) : ExpirationWheel where
  buckets := update w.buckets item.bucket (w.buckets item.bucket ++ [item])
  lastTick := some (w.lastTick.getD (now / tickMs))

/-- The buckets that a sweep empties, each of them once. -/
def swept : List Nat :=
  match w.lastTick with
  | none => []
  | some last =>
    let current := now / tickMs
    if current - last ≥ bucketCount then List.range bucketCount
    else (List.range' last (current + 1 - last)).map (· % bucketCount)

def drainCandidates : List ExpirationRef × ExpirationWheel :=
  ((w.swept now).flatMap w.buckets, ⟨fun b => if b ∈ w.swept now then []
    else w.buckets b, some (now / tickMs)⟩)

variable {w now}

theorem mem_schedule {b : Nat} {item r : ExpirationRef} :
    r ∈ (w.schedule now item).buckets b ↔ r ∈ w.buckets b ∨ r = item ∧ item.bucket = b := by
  by_cases hb : b = item.bucket
  · simp [schedule, hb]
  · simp [schedule, hb, Ne.symm hb]

theorem mem_drained {b : Nat} {r : ExpirationRef} :
    r ∈ (w.drainCandidates now).2.buckets b ↔ b ∉ w.swept now ∧ r ∈ w.buckets b := by
  by_cases hb : b ∈ w.swept now <;> simp [drainCandidates, hb]

end ExpirationWheel

/-! ## The store -/

structure Entry (K : Type) where
  key : K
  expiresAt : Option Nat

structure EntrySlot (K : Type) where
  generation : Nat := 0
  entry : Option (Entry K) := none

/-- The slots from `slotCount` on are not in the table yet and hold nothing. -/
structure CacheStore (K : Type) where
  slots : Nat → EntrySlot K := fun _ => {}
  slotCount : Nat := 0
  freeSlots : List Nat := []
  expiry : ExpirationWheel := {}

variable {K : Type}

namespace CacheStore

variable (c : CacheStore K) (i : Nat) (now : Nat)

def deadline : Option Nat := (c.slots i).entry.bind (·.expiresAt)

def removeSlot : Bool × CacheStore K :=
  if (c.slots i).entry.isSome then
    (true, { c with
      slots := update c.slots i { c.slots i with entry := none }
      freeSlots := i :: c.freeSlots })
  else (false, c)

/-- The entry comes into a new generation of its slot, and its deadline on the wheel. -/
def fill (entry : Entry K) : CacheStore K :=
  let generation := max (((c.slots i).generation + 1) % 2 ^ 32) 1
  { c with
    slots := update c.slots i ⟨generation, some entry⟩
    expiry := entry.expiresAt.elim c.expiry fun d => c.expiry.schedule now ⟨i, generation, d⟩ }

def sweepItem (max : Nat) (acc : Nat × CacheStore K) (item : ExpirationRef) : Nat × CacheStore K :=
  let (expired, c) := acc
  if expired ≥ max then (expired, { c with expiry := c.expiry.schedule now item })
  else if (c.slots item.slot).generation ≠ item.generation ∨ c.deadline item.slot ≠
    some item.expiresAt then acc
  else if item.expiresAt > now then (expired, { c with expiry := c.expiry.schedule now item })
  else
    let (removed, c) := c.removeSlot item.slot
    (expired + removed.toNat, c)

def purgeExpired (max : Nat) : Nat × CacheStore K :=
  let (candidates, expiry) := c.expiry.drainCandidates now
  candidates.foldl (sweepItem now max) (0, { c with expiry })

variable [DecidableEq K] (key : K)

def findSlot : Option Nat :=
  (List.range c.slotCount).find? fun i => (c.slots i).entry.any (·.key = key)

def liveSlotId : Option Nat × CacheStore K :=
  match c.findSlot key with
  | none => (none, c)
  | some i => if (c.deadline i).any (· ≤ now) then (none, (c.removeSlot i).2) else (some i, c)

def saturatingAdd (a b : Nat) : Nat := min (a + b) (2 ^ 64 - 1)

def setValue (ttl : Option Nat) : CacheStore K :=
  let entry := ⟨key, ttl.map (saturatingAdd now)⟩
  match c.findSlot key, c.freeSlots with
  | some i, _ => c.fill i now entry
  | none, i :: rest => { c with freeSlots := rest }.fill i now entry
  | none, [] => { c with slotCount := c.slotCount + 1 }.fill c.slotCount now entry

def delete : Bool × CacheStore K :=
  match c.findSlot key with
  | none => (false, c)
  | some i => c.removeSlot i

def deleteAt : Bool × CacheStore K :=
  let (found, c) := c.liveSlotId now key
  match found with
  | none => (false, c)
  | some i => c.removeSlot i

def expireMs (ttl : Nat) : Bool × CacheStore K :=
  let (found, c) := c.liveSlotId now key
  match found with
  | none => (false, c)
  | some i =>
    if ttl = 0 then c.removeSlot i else (true, c.fill i now ⟨key, some (saturatingAdd now ttl)⟩)

/-- What is added, and whether it overflows, makes no difference to the deadlines. -/
def increment : CacheStore K :=
  let (found, c) := c.liveSlotId now key
  match found with
  | none => c.setValue now key none
  | some _ => c

end CacheStore

/-- `get` stands for `exists` and `ttl` too, which look the key up in the same way. -/
inductive Operation (K : Type) where
  | set (key : K) (ttl : Option Nat)
  | get (key : K)
  | delete (key : K)
  | deleteAt (key : K)
  | expire (key : K) (ttl : Nat)
  | increment (key : K)
  | purge (max : Nat)

namespace CacheStore

def step [DecidableEq K] (c : CacheStore K) : Nat × Operation K → CacheStore K
  | (now, .set key ttl) => c.setValue now key ttl
  | (now, .get key) => (c.liveSlotId now key).2
  | (_, .delete key) => (c.delete key).2
  | (now, .deleteAt key) => (c.deleteAt now key).2
  | (now, .expire key ttl) => (c.expireMs now key ttl).2
  | (now, .increment key) => c.increment now key
  | (now, .purge max) => (c.purgeExpired now max).2

def after [DecidableEq K] (history : List (Nat × Operation K)) : CacheStore K :=
  history.foldl step {}

/-- The record of a deadline in the store. -/
def Holds (c : CacheStore K) (r : ExpirationRef) : Prop :=
  (c.slots r.slot).generation = r.generation ∧ c.deadline r.slot = some r.expiresAt

/-- The record of every deadline waits in its bucket or among `pending`. -/
structure Tracked (c : CacheStore K) (pending : List ExpirationRef) : Prop where
  placed : ∀ b, ∀ r ∈ c.expiry.buckets b, r.bucket = b
  recorded : ∀ r, c.Holds r → r ∈ pending ∨ r ∈ c.expiry.buckets r.bucket

variable {c c' : CacheStore K} {i now : Nat} {item r : ExpirationRef} {pending : List ExpirationRef}

theorem Tracked.shrink {pending' : List ExpirationRef} (h : c.Tracked pending')
    (hexpiry : c'.expiry = c.expiry)
    (hs : ∀ r, c'.Holds r → c.Holds r ∧ (r ∈ pending' → r ∈ pending)) : c'.Tracked pending where
  placed := hexpiry ▸ h.placed
  recorded r hr := by
    rw [hexpiry]
    exact (h.recorded r (hs r hr).1).imp_left (hs r hr).2

theorem Tracked.schedule (h : c.Tracked (item :: pending)) :
    { c with expiry := c.expiry.schedule now item }.Tracked pending where
  placed b r hr := by
    rcases ExpirationWheel.mem_schedule.mp hr with hr | ⟨rfl, hb⟩
    · exact h.placed b r hr
    · exact hb
  recorded r hr := by
    rw [ExpirationWheel.mem_schedule]
    rcases h.recorded r hr with hr | hr
    · rcases List.mem_cons.mp hr with rfl | hr
      · exact .inr (.inr ⟨rfl, rfl⟩)
      · exact .inl hr
    · exact .inr (.inl hr)

theorem expiry_removeSlot : (c.removeSlot i).2.expiry = c.expiry := by
  simp only [removeSlot]
  split <;> rfl

theorem holds_removeSlot : (c.removeSlot i).2.Holds r ↔ r.slot ≠ i ∧ c.Holds r := by
  by_cases hi : r.slot = i
  · subst hi
    cases he : (c.slots r.slot).entry <;> simp [removeSlot, he, Holds, deadline]
  · simp only [removeSlot]
    split <;> simp [hi, Holds, deadline]

theorem tracked_removeSlot (h : c.Tracked pending) : (c.removeSlot i).2.Tracked pending :=
  h.shrink expiry_removeSlot fun _ hr => ⟨(holds_removeSlot.mp hr).2, id⟩

theorem tracked_fill {entry : Entry K} (h : c.Tracked []) : (c.fill i now entry).Tracked [] := by
  let slot : EntrySlot K := ⟨max (((c.slots i).generation + 1) % 2 ^ 32) 1, some entry⟩
  have hother : ∀ r, r.slot ≠ i → ({ c with slots := update c.slots i slot }.Holds r ↔ c.Holds r) :=
    fun r hr => by
    simp [Holds, deadline, hr]
  cases he : entry.expiresAt with
  | none =>
    refine h.shrink (by simp [fill, he]) fun r hr => ⟨(hother r ?_).mp hr, id⟩
    rintro rfl
    simp [Holds, deadline, fill, he] at hr
  | some d =>
    have hfill : c.fill i now entry = { c with
        slots := update c.slots i slot
        expiry := c.expiry.schedule now ⟨i, slot.generation, d⟩ } := by
      simp [fill, he, slot]
    rw [hfill]
    refine Tracked.schedule (c := { c with slots := update c.slots i slot })
      ⟨h.placed, fun r hr => ?_⟩
    by_cases hi : r.slot = i
    · obtain ⟨_, g, d'⟩ := r
      cases hi
      obtain ⟨hg, hd⟩ : slot.generation = g ∧ some d = some d' := by
        simpa [Holds, deadline, slot, he] using hr
      cases hd
      exact .inl (List.mem_singleton.mpr (by rw [hg]))
    · exact .inr ((h.recorded r ((hother r hi).mp hr)).resolve_left List.not_mem_nil)

section Lookup

variable [DecidableEq K] {key : K}

theorem tracked_liveSlotId (h : c.Tracked []) : (c.liveSlotId now key).2.Tracked [] := by
  unfold liveSlotId
  split
  · exact h
  · split
    · exact tracked_removeSlot h
    · exact h

theorem tracked_setValue {ttl : Option Nat} (h : c.Tracked []) :
    (c.setValue now key ttl).Tracked [] := by
  unfold setValue
  split
  · exact tracked_fill h
  · exact tracked_fill ⟨h.placed, h.recorded⟩
  · exact tracked_fill ⟨h.placed, h.recorded⟩

end Lookup

/-! ## Sweeps -/

/-- A sweep under way that began at `start`, with `rest` still to visit. -/
structure Sweeping (start : CacheStore K) (swept : List Nat) (now max : Nat)
    (acc : Nat × CacheStore K) (rest : List ExpirationRef) : Prop extends acc.2.Tracked rest where
  from_start : ∀ r, acc.2.Holds r → start.Holds r
  kept : ∀ r, start.Holds r → r.bucket ∉ swept → acc.2.Holds r
  -- until the limit is reached only what is not yet due goes back
  later : acc.1 < max → ∀ b ∈ swept, ∀ r ∈ acc.2.expiry.buckets b, now < r.expiresAt

section Sweep

variable {start : CacheStore K} {swept : List Nat} {max : Nat} {acc : Nat × CacheStore K}

theorem Sweeping.step (h : start.Sweeping swept now max acc (item :: pending))
    (hitem : item.bucket ∈ swept) :
    start.Sweeping swept now max (sweepItem now max acc item) pending := by
  obtain ⟨expired, c⟩ := acc
  have hdrop : ∀ r, ¬ c.Holds item → c.Holds r → r ∈ item :: pending → r ∈ pending :=
    fun r hne hr hmem =>
    (List.mem_cons.mp hmem).resolve_left fun heq => hne (heq ▸ hr)
  simp only [sweepItem]
  split
  case isTrue hfull =>
    exact ⟨h.toTracked.schedule, h.from_start, h.kept, fun hlt => absurd hlt (Nat.not_lt.mpr hfull)⟩
  split
  case isTrue hstale =>
    have hne : ¬ c.Holds item := fun hr => hstale.elim (· hr.1) (· hr.2)
    exact ⟨h.toTracked.shrink rfl fun r hr => ⟨hr, hdrop r hne hr⟩, h.from_start, h.kept, h.later⟩
  case isFalse hmatch =>
  have hholds : c.Holds item := by simpa [Holds] using hmatch
  split
  case isTrue hlater =>
    refine ⟨h.toTracked.schedule, h.from_start, h.kept, fun hlt b hb r hr => ?_⟩
    rcases ExpirationWheel.mem_schedule.mp hr with hr | ⟨rfl, -⟩
    · exact h.later hlt b hb r hr
    · exact hlater
  case isFalse =>
    refine ⟨h.toTracked.shrink expiry_removeSlot fun r hr => ?_, fun r hr =>
      h.from_start r (holds_removeSlot.mp hr).2,
      fun r hr hb => ?_, fun hlt => ?_⟩
    · obtain ⟨hne, hr⟩ := holds_removeSlot.mp hr
      exact ⟨hr, fun hmem => (List.mem_cons.mp hmem).resolve_left fun heq => hne (heq ▸ rfl)⟩
    · have hr := h.kept r hr hb
      refine holds_removeSlot.mpr ⟨fun heq => hb ?_, hr⟩
      have : r.expiresAt = item.expiresAt := Option.some.inj (hr.2.symm.trans (heq ▸ hholds.2))
      rwa [ExpirationRef.bucket, this]
    · rw [expiry_removeSlot]
      exact h.later (by simp at hlt ⊢; omega)

theorem Sweeping.run (h : start.Sweeping swept now max acc pending)
    (hitems : ∀ item ∈ pending, item.bucket ∈ swept) :
    start.Sweeping swept now max (pending.foldl (sweepItem now max) acc) [] := by
  induction pending generalizing acc with
  | nil => exact h
  | cons item rest ih =>
    rw [List.forall_mem_cons] at hitems
    exact ih (h.step hitems.1) hitems.2

theorem sweeping_purgeExpired (h : c.Tracked []) :
    c.Sweeping (c.expiry.swept now) now max (c.purgeExpired now max) [] := by
  refine Sweeping.run ⟨⟨fun b r hr => ?_, fun r hr => ?_⟩, fun _ hr => hr, fun _ hr _ => hr,
    fun _ b hb r hr => ?_⟩ fun item hitem => ?_
  · exact h.placed b r (ExpirationWheel.mem_drained.mp hr).2
  · have hmem := (h.recorded r hr).resolve_left List.not_mem_nil
    by_cases hb : r.bucket ∈ c.expiry.swept now
    · exact .inl (List.mem_flatMap.mpr ⟨_, hb, hmem⟩)
    · exact .inr (ExpirationWheel.mem_drained.mpr ⟨hb, hmem⟩)
  · exact absurd hb (ExpirationWheel.mem_drained.mp hr).1
  · obtain ⟨b, hb, hr⟩ := List.mem_flatMap.mp hitem
    rwa [h.placed b item hr]

end Sweep

variable [DecidableEq K]

theorem tracked_step {op : Nat × Operation K} (h : c.Tracked []) : (c.step op).Tracked [] := by
  obtain ⟨now, op⟩ := op
  cases op with
  | set key ttl => exact tracked_setValue h
  | get key => exact tracked_liveSlotId h
  | delete key =>
    simp only [step, delete]
    split
    · exact h
    · exact tracked_removeSlot h
  | deleteAt key =>
    simp only [step, deleteAt]
    split
    · exact tracked_liveSlotId h
    · exact tracked_removeSlot (tracked_liveSlotId h)
  | expire key ttl =>
    simp only [step, expireMs]
    split
    · exact tracked_liveSlotId h
    · split
      · exact tracked_removeSlot (tracked_liveSlotId h)
      · exact tracked_fill (tracked_liveSlotId h)
  | increment key =>
    simp only [step, increment]
    split
    · exact tracked_setValue (tracked_liveSlotId h)
    · exact tracked_liveSlotId h
  | purge max => exact (sweeping_purgeExpired h).toTracked

/-- A purge takes away at most as many entries as it may, and none that is not due. -/
theorem purge_spares (c : CacheStore K) (now max : Nat) : (c.purgeExpired now max).1 ≤ max ∧
    ∀ i, (c.deadline i).all (now < ·) → (c.purgeExpired now max).2.slots i = c.slots i := by
  refine List.foldlRecOn (motive := fun acc : Nat × CacheStore K => acc.1 ≤ max ∧
    ∀ i, (c.deadline i).all (now < ·) →
    acc.2.slots i = c.slots i) _ _ ⟨Nat.zero_le _, fun _ _ => rfl⟩ ?_
  rintro ⟨expired, d⟩ ⟨hle, hslots⟩ item -
  simp only [sweepItem]
  split
  · exact ⟨hle, hslots⟩
  split
  · exact ⟨hle, hslots⟩
  split
  · exact ⟨hle, hslots⟩
  rename_i hroom hmatch hdue
  have hone := Bool.toNat_le (d.removeSlot item.slot).1
  refine ⟨by omega, fun i hi => ?_⟩
  have hne : i ≠ item.slot := by
    rintro rfl
    rw [deadline, ← hslots _ hi, ← deadline, Decidable.not_not.mp (not_or.mp hmatch).2] at hi
    exact hdue (decide_eq_true_iff.mp hi)
  rw [← hslots i hi, removeSlot]
  split <;> simp [hne]

theorem tracked_after (history : List (Nat × Operation K)) : (after history).Tracked [] :=
  List.foldlRecOn (motive := (Tracked · [])) history step ⟨by simp, by simp [Holds, deadline]⟩
    fun _ h _ _ => tracked_step h

/-- A sweep that stays below its limit leaves no entry with a deadline at or before `now` exactly
when it visits the buckets of all of them. -/
theorem sweep_complete_iff (history : List (Nat × Operation K)) (now max : Nat)
    (hlt : ((after history).purgeExpired now max).1 < max) :
    (∀ r, ((after history).purgeExpired now max).2.Holds r → now < r.expiresAt) ↔
      ∀ r, (after history).Holds r → r.expiresAt ≤ now →
        r.bucket ∈ (after history).expiry.swept now := by
  have hsweep : Sweeping _ _ now max _ _ := sweeping_purgeExpired (tracked_after history)
  refine ⟨fun h r hr hdue => ?_, fun h r hr => ?_⟩
  · by_contra hb
    exact absurd (h r (hsweep.kept r hr hb)) (Nat.not_lt.mpr hdue)
  · by_contra hdue
    have hb := h r (hsweep.from_start r hr) (Nat.not_lt.mp hdue)
    exact hdue (hsweep.later hlt _ hb r ((hsweep.recorded r hr).resolve_left List.not_mem_nil))

/-- Two entries that are due at 30, and one that is not. -/
def threeEntries : CacheStore Nat :=
  after [(0, .set 1 (some 10)), (0, .set 2 (some 20)), (0, .set 3 (some 500))]

/-- The first sweep of a store visits the buckets of all deadlines up to its time. -/
theorem sweep_complete_first : (threeEntries.purgeExpired 30 5).1 = 2 ∧
    ∀ r, (threeEntries.purgeExpired 30 5).2.Holds r → 30 < r.expiresAt := by
  refine ⟨by decide, (sweep_complete_iff _ 30 5 (by decide)).mpr fun r _ hdue => ?_⟩
  have hswept : threeEntries.expiry.swept 30 = [0, 1, 2, 3] := by decide
  have hbucket : r.bucket < 4 := by
    unfold ExpirationRef.bucket tickMs bucketCount
    omega
  have hmem : r.bucket ∈ List.range 4 := List.mem_range.mpr hbucket
  exact hswept ▸ hmem

/-- The second of two due entries goes back behind the wheel's tick, and no later sweep meets it. -/
theorem sweep_strands :
    ((after [(0, .set 1 (some 10)), (0, .set 2 (some 20)), (30, .purge 1)]).purgeExpired
      30 1).1 = 0 ∧
    ((after [(0, .set 1 (some 10)), (0, .set 2 (some 20)), (30, .purge 1)]).purgeExpired 30
      1).2.Holds ⟨1, 1, 20⟩ :=
  ⟨by decide, by decide, by decide⟩

end CacheStore

end Nulang.Cache

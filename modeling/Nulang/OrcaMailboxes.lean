import Mathlib.Data.List.ReduceOption
import Nulang.OrcaRuntime

/-!
# What the foreign counts cover

At all times the foreign count of an object is the number of queued decrements plus the number of
receiver holds (`Exact`). A message slot is covered as long as its decrement is queued, so that the
count falls short as soon as `process_gc_ops` runs while the message waits, and only then.

The counts are compared reference by reference. Each action of the runtime is one lemma
(`Exact.send`, `Exact.receive`, `Exact.exit` and so on); of the lawful ones only `process_gc_ops`
can break `Exact` (`Exact.perform`), and a run is an induction over them (`Exact.trace`). The calls
of a single engine leave its foreign counts alone (`Engine.Keeps`).
-/

set_option autoImplicit false

namespace Nulang.Orca

open Engine ForeignRefOp List

/-! ## Engines leave foreign counts alone -/

namespace Engine

/-- The foreign count of the object at `p`; nothing if there is none. -/
def foreign (E : Engine) (p : Addr) : Nat :=
  if (E.heap p).live = true then (E.heap p).foreignCount else 0

/-- Nothing that other actors refer to is being freed, and blocks in use lie below the top. -/
structure Quiet (E : Engine) : Prop where
  dying : ∀ p ∈ dying E.stack, (E.heap p).foreignCount = 0
  below : ∀ p, (E.heap p).live = true → p < E.top

variable {E E' : Engine} {p q : Addr}

/-- `E'` is quiet, and its foreign counts are those of `E`. -/
def Keeps (E E' : Engine) : Prop := E'.Quiet ∧ ∀ q, E'.foreign q = E.foreign q

variable {f : Header → Header}

section

variable (h : E.Quiet)
include h

theorem Quiet.modify
    (hf : (f (E.heap p)).live = (E.heap p).live ∧
      (f (E.heap p)).foreignCount = (E.heap p).foreignCount) :
    E.Keeps (E.modify p f) := by
  refine ⟨⟨fun q hq => ?_, fun q hq => ?_⟩, fun q => ?_⟩
  · rw [field_modify Header.foreignCount hf.2]
    exact h.dying q hq
  · rw [field_modify Header.live hf.1] at hq
    exact h.below q hq
  · rw [foreign, field_modify Header.live hf.1, field_modify Header.foreignCount hf.2, foreign]

theorem Quiet.restack {st : List Frame} (hs : ∀ q ∈ Orca.dying st, q ∈ Orca.dying E.stack) :
    { E with stack := st }.Quiet :=
  ⟨fun q hq => h.dying q (hs q hq), h.below⟩

omit h in
theorem Quiet.freeObjectImpl (r : Bool) (h : E.Quiet) (hp : (E.heap p).foreignCount = 0) :
    (E.freeObjectImpl p r).Quiet where
  dying q hq := by
    rcases mem_cons.mp hq with rfl | hq
    · exact hp
    · exact h.dying q hq
  below := h.below

theorem Quiet.dropLocalRef : E.Keeps (E.dropLocalRef p) := by
  obtain ⟨hq, hsame⟩ : E.Keeps (E.modify p fun h => { h with refCount := h.refCount - 1 }) :=
    h.modify ⟨rfl, rfl⟩
  rw [Engine.dropLocalRef]
  split
  · split
    · rename_i hz
      exact ⟨hq.freeObjectImpl true hz.1, hsame⟩
    · exact ⟨⟨hq.dying, hq.below⟩, hsame⟩
  · exact ⟨hq, hsame⟩

omit h in
/-- Handing a block back: nobody else refers to it. -/
theorem Quiet.freePayload (r : Bool) (h : E.Quiet) (hp : (E.heap p).foreignCount = 0) :
    E.Keeps (E.freePayload p r) := by
  have hheap : ∀ q, (E.freePayload p r).heap q =
      if q = p then { E.heap p with live := false } else E.heap q := by
    intro q
    cases r with
    | true => rfl
    | false => rfl
  have hstack : (E.freePayload p r).stack = E.stack ∧ (E.freePayload p r).top = E.top := by
    cases r with
    | true | false => exact ⟨rfl, rfl⟩
  refine ⟨⟨?_, ?_⟩, ?_⟩
  · intro q hq
    rw [hstack.1] at hq
    rw [hheap]
    split
    · exact hp
    · exact h.dying q hq
  · intro q hq
    rw [hheap] at hq
    rw [hstack.2]
    split at hq
    · cases hq
    · exact h.below q hq
  · intro q
    simp only [foreign, hheap]
    by_cases hq : q = p
    · subst hq
      simp [hp]
    · simp [hq]

theorem Quiet.step (hs : E.step = some E') : E.Keeps E' := by
  have hpop : ∀ st, (∀ q ∈ Orca.dying st, q ∈ Orca.dying E.stack) →
      E.Keeps { E with stack := st } := fun st hst => ⟨h.restack hst, fun _ => rfl⟩
  cases transition_of_step hs with
  | drop hst => exact (hpop _ (by rw [hst]; exact fun q hq => hq)).1.dropLocalRef
  | slot hst =>
    refine hpop _ ?_
    rw [dying_drops, hst]
    exact fun q hq => hq
  | free hst =>
    rename_i p r st
    have hp : (E.heap p).foreignCount = 0 := h.dying p (by rw [hst]; exact mem_cons_self)
    refine (hpop st ?_).1.freePayload r hp
    rw [hst]
    exact fun q hq => mem_cons_of_mem _ hq
  | scanEnd hst hi => exact hpop _ (by rw [hst]; exact fun q hq => hq)
  | scanFree hst hi hel =>
    rename_i i p st
    have hq : Quiet { E with
        stack := .scan i :: st, deferredDecrements := E.deferredDecrements.swapRemove i } :=
      ⟨fun q hq => h.dying q (by rw [hst]; exact hq), h.below⟩
    exact ⟨hq.freeObjectImpl false (Header.eligible_iff.mp hel).2.1, fun _ => rfl⟩
  | scanKeep hst hi hel => exact hpop _ (by rw [hst]; exact fun q hq => hq)

/-- A call that runs to its end. -/
theorem Quiet.settle {fuel : Nat} (hs : E.settle fuel = some E') : E.Keeps E' ∧ E'.stack = [] := by
  induction fuel generalizing E with
  | zero =>
    rw [settle] at hs
    split at hs
    · rename_i hnil
      cases hs
      exact ⟨⟨h, fun _ => rfl⟩, hnil⟩
    · cases hs
  | succ fuel ih =>
    rw [settle] at hs
    cases hstep : E.step with
    | none =>
      rw [hstep] at hs
      cases hs
      exact ⟨⟨h, fun _ => rfl⟩, stack_of_step_eq_none hstep⟩
    | some E₁ =>
      rw [hstep] at hs
      obtain ⟨hq, hsame⟩ := h.step hstep
      obtain ⟨⟨hq', hsame'⟩, hnil⟩ := ih hq hs
      exact ⟨⟨hq', fun q => (hsame' q).trans (hsame q)⟩, hnil⟩

theorem Quiet.push {fr : Frame} (hfr : Orca.dying [fr] = []) : (E.push fr).Quiet := by
  refine h.restack ?_
  cases fr with
  | drop | scan => exact fun q hq => hq
  | free p rest r => cases hfr

theorem Quiet.allocObject {size : Nat} {tag : TypeTag} (hs : E.stack = [])
    (hp : (E.heap p).live = false) :
    E.Keeps (E.allocObject p size tag) := by
  rw [Engine.allocObject]
  split
  · exact ⟨h, fun _ => rfl⟩
  · refine ⟨⟨?_, ?_⟩, ?_⟩
    · intro q hq
      have hq' : q ∈ Orca.dying E.stack := hq
      rw [hs] at hq'
      cases hq'
    · intro q hq
      simp only at hq ⊢
      split at hq
      · rename_i he
        rw [he]
        exact Nat.lt_of_lt_of_le (Nat.lt_succ_self p) (Nat.le_max_right ..)
      · exact Nat.lt_of_lt_of_le (h.below q hq) (Nat.le_max_left ..)
    · intro q
      simp only [foreign]
      by_cases hq : q = p
      · subst hq
        simp [hp]
      · simp [hq]

theorem Quiet.retain {v : Option Addr} : E.Keeps (E.retain v) := by
  cases v with
  | none => exact ⟨h, fun _ => rfl⟩
  | some p =>
    rw [Engine.retain, Engine.localRef]
    exact h.modify ⟨rfl, rfl⟩

theorem Quiet.storeSlot {c : Addr} {i : Nat} {v : Option Addr} : E.Keeps (E.storeSlot c i v) := by
  obtain ⟨hr, hsame⟩ := h.retain (v := v)
  obtain ⟨hset, hsame'⟩ : (E.retain v).Keeps ((E.retain v).modify c (Header.setSlot i v)) :=
    hr.modify ⟨rfl, rfl⟩
  have hboth := fun q => (hsame' q).trans (hsame q)
  rw [Engine.storeSlot]
  split
  · exact ⟨hset.push rfl, hboth⟩
  · exact ⟨hset, hboth⟩

theorem Quiet.call {c : Call} (hs : E.stack = []) (hl : c.isLocal = true) (hc : Lawful E c) :
    E.Keeps (c.start E) := by
  cases c with
  | allocObject p size tag => exact h.allocObject hs hc
  | localRef p => exact h.retain (v := some p)
  | dropLocalRef p => exact ⟨h.push rfl, fun _ => rfl⟩
  | pinObject p | unpinObject p =>
    simp only [Call.start, pinObject, unpinObject]
    exact h.modify ⟨rfl, rfl⟩
  | storeSlot c i v => exact h.storeSlot
  | sendRefTo | receiveRef | incForeignHold | processForeignOp | processDeferred => cases hl

/-- A change of the foreign count of one object that is in use. -/
theorem Quiet.shift (hs : E.stack = []) (hf : (f (E.heap p)).live = (E.heap p).live) :
    (E.modify p f).Quiet where
  dying q hq := by
    rw [stack_modify, hs] at hq
    cases hq
  below q hq := by
    rw [field_modify Header.live hf] at hq
    exact h.below q hq

omit h in
theorem foreign_shift (hlive : (E.heap p).live = true)
    (hf : (f (E.heap p)).live = (E.heap p).live) :
    (E.modify p f).foreign q = if q = p then (f (E.heap p)).foreignCount else E.foreign q := by
  by_cases hqp : q = p
  · subst hqp
    rw [foreign, heap_modify_self, hf, if_pos hlive, if_pos rfl]
  · rw [if_neg hqp, foreign, heap_modify_ne hqp, foreign]

/-- `process_foreign_op` takes one foreign reference away, and perhaps starts to free the object. -/
theorem Quiet.processForeignOp (hs : E.stack = []) (hlive : (E.heap p).live = true) :
    (E.processForeignOp p (-1)).Quiet ∧ ∀ q, (E.processForeignOp p (-1)).foreign q =
      if q = p then (E.heap p).foreignCount - 1 else E.foreign q := by
  have hq : (E.modify p (Header.applyDelta (-1))).Quiet := h.shift hs rfl
  have hsame : ∀ q, (E.modify p (Header.applyDelta (-1))).foreign q =
      if q = p then (E.heap p).foreignCount - 1 else E.foreign q := fun q => foreign_shift hlive rfl
  rw [Engine.processForeignOp]
  split
  · rename_i hz
    split
    · exact ⟨hq.freeObjectImpl true hz, hsame⟩
    · exact ⟨hq, hsame⟩
  · exact ⟨hq, hsame⟩

/-- Outstanding references are those to blocks in use. -/
theorem Quiet.foreign_eq_zero (ho : E.hasOutstandingForeignRefs = false) : E.foreign p = 0 := by
  rw [foreign]
  split
  · rename_i hlive
    have hp := any_eq_false.mp ho p (mem_range.mpr (h.below p hlive))
    simpa [hlive] using hp
  · rfl

end

end Engine

/-- The object that an operation is about. -/
def ForeignRefOp.ref (op : ForeignRefOp) : Ref := ⟨op.ownerActor, op.objectHeader⟩

namespace Runtime

/-- The foreign count of an object; nothing if the pointer dangles. -/
def foreign (R : Runtime) (r : Ref) : Nat :=
  if R.status r.owner = .alive ∨ R.status r.owner = .retired then (R.engine r.owner).foreign r.addr
  else 0

/-- How many slots of accepted messages that are not yet received refer to `r`. -/
def queued (R : Runtime) (r : Ref) : Nat := (R.mailboxes.flatMap Prod.snd).count (some r)

/-- How many receiver holds there are on `r`. -/
def held (R : Runtime) (r : Ref) : Nat := (R.heldForeignRefs.map Prod.snd).count r

def pending (R : Runtime) (r : Ref) : Nat := (R.pendingOps.map ref).count r

/-- Every queued message slot and every receiver hold is counted, and no queued message refers to an
object that was reclaimed. -/
def Counted (R : Runtime) : Prop :=
  ∀ r, R.queued r + R.held r ≤ R.foreign r ∧ (0 < R.queued r → R.Valid r)

structure Exact (R : Runtime) : Prop where
  foreign : ∀ r, R.foreign r = R.pending r + R.held r
  queued : ∀ r, R.queued r ≤ R.pending r
  releases : ∀ op ∈ R.pendingOps, op.delta = -1
  idle : ∀ a, (R.engine a).stack = []
  quiet : ∀ a, (R.engine a).Quiet

/-! ## Changes of the counts -/

/-- `R'` is `R` with engines at rest whose foreign counts are `count`. -/
structure Recounted (R : Runtime) (count : Ref → Nat) (R' : Runtime) : Prop where
  status : R'.status = R.status
  mailboxes : R'.mailboxes = R.mailboxes
  heldForeignRefs : R'.heldForeignRefs = R.heldForeignRefs
  pendingOps : R'.pendingOps = R.pendingOps
  foreign : ∀ r, R'.foreign r = count r
  idle : ∀ a, (R'.engine a).stack = []
  quiet : ∀ a, (R'.engine a).Quiet

variable {R R' : Runtime} {r : Ref} {E : Engine}

theorem valid_of_foreign_pos (h : 0 < R.foreign r) : R.Valid r := by
  rw [foreign] at h
  split at h
  · rename_i hs
    refine ⟨hs, ?_⟩
    rw [Engine.foreign] at h
    split at h
    · assumption
    · cases h
  · cases h

theorem foreign_of_valid (h : R.Valid r) :
    R.foreign r = ((R.engine r.owner).heap r.addr).foreignCount := by
  rw [foreign, if_pos h.1, Engine.foreign, if_pos h.2]

theorem Exact.counted (h : Exact R) : R.Counted := fun r => by
  have hle : R.queued r + R.held r ≤ R.foreign r := by
    rw [h.foreign r]
    exact Nat.add_le_add_right (h.queued r) _
  exact ⟨hle, fun hpos => valid_of_foreign_pos (by omega)⟩

theorem foreign_setEngine (h : ∀ p, E.foreign p = (R.engine r.owner).foreign p) (q : Ref) :
    (R.setEngine r.owner E).foreign q = R.foreign q := by
  simp only [foreign, setEngine]
  by_cases hq : q.owner = r.owner
  · simp [hq, h]
  · simp [hq]

variable {a fuel : Nat} {count : Ref → Nat}

section

variable (hi : ∀ b, (R.engine b).stack = [])
include hi

theorem recounted_setEngine (hqu : ∀ b, (R.engine b).Quiet) (hs : E.stack = []) (hq : E.Quiet)
    (hc : ∀ r, (R.setEngine a E).foreign r = count r) : Recounted R count (R.setEngine a E) := by
  refine ⟨rfl, rfl, rfl, rfl, hc, ?_, ?_⟩
  · intro b
    simp only [setEngine]
    split
    · exact hs
    · exact hi b
  · intro b
    simp only [setEngine]
    split
    · exact hq
    · exact hqu b

omit hi in
theorem Recounted.trans {count' : Ref → Nat} {R'' : Runtime} (h : Recounted R count R')
    (h' : Recounted R' count' R'') : Recounted R count' R'' :=
  ⟨h'.status.trans h.status, h'.mailboxes.trans h.mailboxes,
    h'.heldForeignRefs.trans h.heldForeignRefs, h'.pendingOps.trans h.pendingOps,
    h'.foreign, h'.idle,
    h'.quiet⟩

omit hi in
theorem Recounted.congr {count' : Ref → Nat} (h : Recounted R count R')
    (hc : ∀ r, count r = count' r) :
    Recounted R count' R' :=
  { h with foreign := fun r => (h.foreign r).trans (hc r) }

theorem recounted_setEngine_at (hqu : ∀ b, (R.engine b).Quiet) (hv : R.Valid r) (hs : E.stack = [])
    (hq : E.Quiet)
    (hE : ∀ p, E.foreign p = if p = r.addr then count r else (R.engine r.owner).foreign p)
    (hne : ∀ q, q ≠ r → count q = R.foreign q) : Recounted R count (R.setEngine r.owner E) := by
  refine recounted_setEngine hi hqu hs hq fun q => ?_
  by_cases hqr : q = r
  · subst hqr
    exact (if_pos hv.1).trans (by simp [setEngine, hE])
  · rw [hne q hqr]
    by_cases ho : q.owner = r.owner
    · have hp : q.addr ≠ r.addr := by
        intro ha
        cases q
        cases r
        cases ho
        cases ha
        exact hqr rfl
      simp [foreign, setEngine, ho, hE, hp]
    · simp [foreign, setEngine, ho]

/-- One decrement of a count that is positive. -/
theorem recounted_applyForeignOp {op : ForeignRefOp} (hqu : ∀ b, (R.engine b).Quiet)
    (hd : op.delta = -1) (hpos : 0 < R.foreign op.ref) (h : R.applyForeignOp fuel op = some R') :
    Recounted R (fun r => R.foreign r - if r = op.ref then 1 else 0) R' := by
  have hv := valid_of_foreign_pos hpos
  have hone : ((R.engine op.ownerActor).heap op.objectHeader).foreignCount - 1 =
      R.foreign op.ref - if op.ref = op.ref then 1 else 0 := by
    rw [foreign_of_valid hv, if_pos rfl]
    rfl
  have hne : ∀ r, r ≠ op.ref → R.foreign r - (if r = op.ref then 1 else 0) = R.foreign r :=
    fun r hr => by rw [if_neg hr, Nat.sub_zero]
  rw [applyForeignOp, hd] at h
  split at h
  · obtain ⟨E, hE, rfl⟩ := Option.map_eq_some_iff.mp h
    obtain ⟨hq, hcount⟩ := (hqu op.ownerActor).processForeignOp (hi op.ownerActor) hv.2
    obtain ⟨⟨hqE, hsame⟩, hnil⟩ := hq.settle hE
    exact recounted_setEngine_at hi hqu hv hnil hqE
      (fun p => ((hsame p).trans (hcount p)).trans (if_congr Iff.rfl hone rfl)) hne
  · cases h
    exact recounted_setEngine_at hi hqu hv (hi op.ownerActor) ((hqu op.ownerActor).shift (hi _) rfl)
      (fun p => (foreign_shift hv.2 rfl).trans (if_congr Iff.rfl hone rfl)) hne

/-- A batch of decrements, none more often than its object is counted. -/
theorem recounted_applyForeignOps {ops : List ForeignRefOp} (hqu : ∀ b, (R.engine b).Quiet)
    (hd : ∀ op ∈ ops, op.delta = -1) (hle : ∀ r, (ops.map ref).count r ≤ R.foreign r)
    (h : ops.foldlM (applyForeignOp fuel) R = some R') :
    Recounted R (fun r => R.foreign r - (ops.map ref).count r) R' := by
  induction ops generalizing R with
  | nil =>
    cases h
    exact ⟨rfl, rfl, rfl, rfl, fun _ => rfl, hi, hqu⟩
  | cons op ops ih =>
    obtain ⟨R₁, h₁, h₂⟩ := Option.bind_eq_some_iff.mp h
    have hcount : ∀ r, ((op :: ops).map ref).count r =
        (ops.map ref).count r + if r = op.ref then 1 else 0 := by
      intro r
      simp only [map_cons, count_cons, beq_iff_eq, eq_comm (a := r)]
    have hpos : 0 < R.foreign op.ref := by
      have := hle op.ref
      rw [hcount, if_pos rfl] at this
      omega
    have hone := recounted_applyForeignOp hi hqu (hd op mem_cons_self) hpos h₁
    have hle' : ∀ r, (ops.map ref).count r ≤ R₁.foreign r := by
      intro r
      have := hle r
      rw [hcount] at this
      rw [hone.foreign]
      omega
    have hrest := ih hone.idle hone.quiet (fun o ho => hd o (mem_cons_of_mem _ ho)) hle' h₂
    refine (hone.trans hrest).congr fun r => ?_
    rw [hone.foreign, hcount]
    omega

omit hi in
theorem foreign_reclaimRetiredHeaps (hqu : ∀ b, (R.engine b).Quiet) :
    R.reclaimRetiredHeaps.foreign r = R.foreign r := by
  by_cases hgone : R.status r.owner = .retired ∧
    (R.engine r.owner).hasOutstandingForeignRefs = false
  · have hz : R.foreign r = 0 := by
      rw [foreign, if_pos (.inr hgone.1)]
      exact (hqu r.owner).foreign_eq_zero hgone.2
    rw [hz, foreign, reclaimRetiredHeaps]
    simp [hgone]
  · simp only [foreign, reclaimRetiredHeaps, if_neg hgone]

theorem recounted_bumpForeign (hqu : ∀ b, (R.engine b).Quiet) (hv : R.Valid r) :
    Recounted R (fun q => R.foreign q + if q = r then 1 else 0) (R.bumpForeign r) := by
  have hone : ((R.engine r.owner).heap r.addr).foreignCount + 1 = R.foreign r + if r = r then 1
      else 0 := by
    rw [foreign_of_valid hv, if_pos rfl]
  exact recounted_setEngine_at hi hqu hv (hi r.owner) ((hqu r.owner).shift (hi _) rfl)
    (fun p => (foreign_shift hv.2 rfl).trans (if_congr Iff.rfl hone rfl))
    fun q hq => by rw [if_neg hq, Nat.add_zero]

omit hi in
theorem valid_bumpForeign {q : Ref} (hv : R.Valid q) : (R.bumpForeign r).Valid q := by
  refine ⟨hv.1, ?_⟩
  simp only [bumpForeign, setEngine]
  split
  · rename_i he
    rw [incForeignHold, field_modify Header.live rfl, ← he]
    exact hv.2
  · exact hv.2

/-- All the pointers of a payload are counted once. -/
theorem recounted_bumpForeigns {refs : List Ref} (hqu : ∀ b, (R.engine b).Quiet)
    (hv : ∀ r ∈ refs, R.Valid r) :
    Recounted R (fun q => R.foreign q + refs.count q) (refs.foldl bumpForeign R) := by
  induction refs generalizing R with
  | nil => exact ⟨rfl, rfl, rfl, rfl, fun _ => rfl, hi, hqu⟩
  | cons r refs ih =>
    have hone := recounted_bumpForeign hi hqu (hv r mem_cons_self)
    have hrest := ih hone.idle hone.quiet fun q hq =>
      valid_bumpForeign (hv q (mem_cons_of_mem _ hq))
    refine (hone.trans hrest).congr fun q => ?_
    rw [hone.foreign, count_cons]
    simp only [beq_iff_eq, eq_comm (a := q)]
    omega

end

/-- Counting does not look at the lists: what is added to one of them may be added at the end. -/
theorem foldl_bumpForeign {γ : Type} {get : Runtime → List γ} {s : List γ → Runtime → Runtime}
    (item : Ref → γ) (hset : ∀ l R r, (s l R).bumpForeign r = s l (R.bumpForeign r))
    (hget : ∀ l R, get (s l R) = l) (hself : ∀ R, s (get R) R = R)
    (htwice : ∀ l l' R, s l (s l' R) = s l R) (refs : List Ref) (R : Runtime) :
    refs.foldl (fun R r => s (get R ++ [item r]) (R.bumpForeign r)) R =
      s (get R ++ refs.map item) (refs.foldl bumpForeign R) := by
  have hfold (refs : List Ref) (l : List γ) (R : Runtime) :
      refs.foldl bumpForeign (s l R) = s l (refs.foldl bumpForeign R) := by
    induction refs generalizing R with
    | nil => rfl
    | cons r refs ih => rw [foldl_cons, hset, ih, foldl_cons]
  induction refs generalizing R with
  | nil => rw [foldl_nil, map_nil, append_nil, foldl_nil, hself]
  | cons r refs ih =>
    rw [foldl_cons, ih, hget, hfold, htwice, append_assoc, foldl_cons]
    rfl

theorem countSent_eq (target : Nat) (payload : List (Option Ref)) :
    R.countSent target payload = { payload.reduceOption.foldl bumpForeign R with
      pendingOps := R.pendingOps ++ payload.reduceOption.map (release target) } :=
  foldl_bumpForeign (s := fun l R => { R with pendingOps := l }) (release target) (fun _ _ _ => rfl)
    (fun _ _ => rfl) (fun _ => rfl) (fun _ _ _ => rfl) payload.reduceOption R

theorem holdPayloadRefs_eq (receiver : Nat) (payload : List (Option Ref)) :
    R.holdPayloadRefs receiver payload = { payload.reduceOption.foldl bumpForeign R with
      heldForeignRefs := R.heldForeignRefs ++ payload.reduceOption.map (receiver, ·) } :=
  foldl_bumpForeign (s := fun l R => { R with heldForeignRefs := l }) (receiver, ·)
    (fun _ _ _ => rfl)
    (fun _ _ => rfl) (fun _ => rfl) (fun _ _ _ => rfl) payload.reduceOption R

/-! ## Every action keeps the counts exact -/

theorem count_reduceOption (payload : List (Option Ref)) :
    payload.reduceOption.count r = payload.count (some r) := by
  induction payload with
  | nil => rfl
  | cons slot payload ih =>
    cases slot with
    | none =>
      rw [reduceOption_cons_of_none, ih, count_cons]
      simp
    | some q =>
      rw [reduceOption_cons_of_some, count_cons, count_cons, ih]
      simp

theorem map_ref_release (target : Nat) (refs : List Ref) :
    (refs.map (release target)).map ref = refs := by
  rw [map_map]
  exact map_id _

section

variable (h : Exact R)
include h

theorem Exact.send {target : Nat} {payload : List (Option Ref)}
    (hv : ∀ slot ∈ payload, ∀ r ∈ slot, R.Valid r) :
    Exact (R.deliverLocalMessage target payload) := by
  rw [deliverLocalMessage]
  split
  · exact h
  · split
    · exact h
    · have hv' : ∀ r ∈ payload.reduceOption, R.Valid r := fun r hr =>
        hv (some r) (reduceOption_mem_iff.mp hr) r rfl
      have hbump := recounted_bumpForeigns (R := { R with
        mailboxes := R.mailboxes ++ [(target, payload)] }) h.idle h.quiet hv'
      -- Each slot of the payload is counted once and has one decrement queued for it.
      have hpending : ∀ r, ((R.pendingOps ++ payload.reduceOption.map (release target)).map
          ref).count r = R.pending r + payload.count (some r) := by
        intro r
        rw [map_append, count_append, map_ref_release, count_reduceOption]
        rfl
      rw [countSent_eq]
      refine ⟨?_, ?_, ?_, hbump.idle, hbump.quiet⟩
      · intro r
        refine (hbump.foreign r).trans ?_
        show R.foreign r + _ = (map _ _).count r + (map _ _).count r
        rw [hbump.heldForeignRefs, hpending, count_reduceOption, h.foreign r]
        show R.pending r + R.held r + _ = R.pending r + _ + R.held r
        omega
      · intro r
        show (flatMap _ _).count _ ≤ (map _ _).count r
        rw [hbump.mailboxes, hpending, flatMap_append, count_append]
        have hq := h.queued r
        rw [Runtime.queued] at hq
        simpa using hq
      · intro op hop
        rcases mem_append.mp hop with hop | hop
        · exact h.releases op hop
        · obtain ⟨r, _, rfl⟩ := mem_map.mp hop
          rfl

theorem Exact.receive {k : Nat} : Exact (R.receive a k) := by
  rw [Runtime.receive]
  split
  · rename_i b payload hk
    split
    · -- every slot of the message is in flight, so its object is there
      have hle : ∀ r, payload.count (some r) ≤ R.queued r := by
        intro r
        have hsub : payload.Sublist (R.mailboxes.flatMap Prod.snd) := by
          obtain ⟨hlt, hget⟩ := List.getElem?_eq_some_iff.mp hk
          have hmem : (b, payload) ∈ R.mailboxes := hget ▸ getElem_mem hlt
          obtain ⟨l₁, l₂, hl⟩ := append_of_mem hmem
          rw [hl, flatMap_append, flatMap_cons]
          exact (sublist_append_left payload _).trans (sublist_append_right _ _)
        exact hsub.count_le _
      have hvalid : ∀ r ∈ payload.reduceOption, R.Valid r := by
        intro r hr
        have hpos : 0 < payload.count (some r) := count_pos_iff.mpr (reduceOption_mem_iff.mp hr)
        refine valid_of_foreign_pos ?_
        have h₁ := hle r
        have h₂ := (h.counted r).1
        omega
      -- The receiver holds each slot of the message once, and its decrements stay queued.
      have hbump := recounted_bumpForeigns (R := { R with
        mailboxes := R.mailboxes.eraseIdx k }) h.idle h.quiet hvalid
      rw [holdPayloadRefs_eq]
      refine ⟨?_, ?_, ?_, hbump.idle, hbump.quiet⟩
      · intro r
        refine (hbump.foreign r).trans ?_
        show R.foreign r + _ = (map _ _).count r + (map _ _).count r
        rw [hbump.pendingOps, map_append, count_append, map_map, h.foreign r]
        have hid : payload.reduceOption.map (Prod.snd ∘ (a, ·)) = payload.reduceOption := map_id _
        rw [hid]
        simp only [pending, held]
        omega
      · intro r
        show (flatMap _ _).count _ ≤ (map _ _).count r
        rw [hbump.mailboxes, hbump.pendingOps]
        refine Nat.le_trans ?_ (h.queued r)
        exact (Sublist.flatMap (eraseIdx_sublist _ _) _).count_le _
      · intro op hop
        rw [show (_ : List ForeignRefOp) = _ from hbump.pendingOps] at hop
        exact h.releases op hop
    · exact h
  · exact h

/-- Putting an engine back after a call that leaves the foreign counts alone. -/
theorem Exact.setEngine (hs : E.stack = []) (hq : E.Quiet)
    (hsame : ∀ p, E.foreign p = (R.engine a).foreign p) :
    Exact (R.setEngine a E) := by
  have hset :=
    recounted_setEngine (a := a) h.idle h.quiet hs hq (foreign_setEngine (r := ⟨a, 0⟩) hsame)
  exact ⟨fun r => (hset.foreign r).trans (h.foreign r), h.queued, h.releases, hset.idle, hset.quiet⟩

theorem Exact.call {c : Call} (hl : c.isLocal = true) (hc : Orca.Lawful (R.engine a) c)
    (hE : (c.start (R.engine a)).settle fuel = some E) : Exact (R.setEngine a E) := by
  obtain ⟨hq, hsame⟩ := (h.quiet a).call (h.idle a) hl hc
  obtain ⟨⟨hqE, hsame'⟩, hnil⟩ := hq.settle hE
  exact h.setEngine hnil hqE fun p => (hsame' p).trans (hsame p)

theorem Exact.processDeferred (hE : ((R.engine a).push (.scan 0)).settle fuel = some E) :
    Exact (R.setEngine a E) := by
  have hq : ((R.engine a).push (.scan 0)).Quiet := (h.quiet a).push rfl
  obtain ⟨⟨hqE, hsame⟩, hnil⟩ := hq.settle hE
  exact h.setEngine hnil hqE hsame

theorem Exact.spawn (hu : R.status a = .unborn) :
    Exact ((R.setEngine a (.new a)).setStatus a .alive) := by
  have hnew : (new a).Quiet := ⟨nofun, nofun⟩
  have hset : Recounted R (R.setEngine a (.new a)).foreign (R.setEngine a (.new a)) :=
    recounted_setEngine h.idle h.quiet rfl hnew fun _ => rfl
  refine ⟨?_, h.queued, h.releases, hset.idle, hset.quiet⟩
  intro r
  refine Eq.trans ?_ (h.foreign r)
  by_cases hr : r.owner = a
  · -- before there was no heap, now there is nothing on it
    have h₀ : R.foreign r = 0 := by simp [Runtime.foreign, hr, hu]
    rw [h₀]
    simp [Runtime.foreign, setStatus, Runtime.setEngine, hr, Engine.foreign, new, Header.blank]
  · simp [Runtime.foreign, setStatus, Runtime.setEngine, hr]

omit h in
/-- The end of a batch of decrements: the lists account for what is left. -/
theorem Exact.of_recounted (hc : Recounted R count R')
    (hforeign : ∀ r, count r = R.pending r + R.held r) (hqueued : ∀ r, R.queued r ≤ R.pending r)
    (hrel : ∀ op ∈ R.pendingOps, op.delta = -1) : Exact R'.reclaimRetiredHeaps := by
  refine ⟨?_, ?_, ?_, hc.idle, hc.quiet⟩
  · intro r
    rw [foreign_reclaimRetiredHeaps hc.quiet, hc.foreign, hforeign]
    show _ = (R'.pendingOps.map _).count r + (R'.heldForeignRefs.map _).count r
    rw [hc.pendingOps, hc.heldForeignRefs]
    rfl
  · intro r
    show (R'.mailboxes.flatMap _).count _ ≤ (R'.pendingOps.map _).count r
    rw [hc.pendingOps, hc.mailboxes]
    exact hqueued r
  · intro op hop
    exact hrel op (hc.pendingOps ▸ hop)

/-- The holds of an actor that exits are released one by one. -/
theorem Exact.releaseHeldForeignRefs (hr : R.releaseHeldForeignRefs fuel a = some R') :
    Exact R' ∧ (R.status a = .alive → R'.status a = .alive) := by
  obtain ⟨R₁, h₁, rfl⟩ := Option.map_eq_some_iff.mp hr
  have hrefs : ((R.heldForeignRefs.filter (·.1 = a)).map fun hold => release a hold.2).map
      ref = (R.heldForeignRefs.filter (·.1 = a)).map Prod.snd := by
    rw [map_map]
    rfl
  have hheld : ∀ r, R.held r = ((R.heldForeignRefs.filter (·.1 = a)).map Prod.snd).count r +
      ((R.heldForeignRefs.filter (·.1 ≠ a)).map Prod.snd).count r := by
    intro r
    simp only [Runtime.held, count_eq_countP, countP_map]
    rw [countP_eq_countP_filter_add _ _ (fun hold => decide (hold.1 = a))]
    simp
  have hcount := recounted_applyForeignOps (R := { R with
    heldForeignRefs := R.heldForeignRefs.filter (·.1 ≠ a) }) h.idle h.quiet (by
      intro op hop
      obtain ⟨hold, _, rfl⟩ := mem_map.mp hop
      rfl) (by
      intro r
      show _ ≤ R.foreign r
      rw [hrefs, h.foreign r, hheld r]
      omega) h₁
  refine ⟨Exact.of_recounted hcount ?_ h.queued h.releases, ?_⟩
  · intro r
    show R.foreign r - _ = R.pending r + ((R.heldForeignRefs.filter (·.1 ≠ a)).map Prod.snd).count r
    rw [hrefs, h.foreign r, hheld r]
    omega
  · intro ha
    have hs : R₁.status a = .alive := by
      rw [hcount.status]
      exact ha
    simp [reclaimRetiredHeaps, hs]

theorem Exact.exit (ha : R.status a = .alive) (hr : R.exit fuel a = some R') : Exact R' := by
  obtain ⟨R₁, h₁, rfl⟩ := Option.map_eq_some_iff.mp hr
  obtain ⟨he, halive⟩ := h.releaseHeldForeignRefs h₁
  refine ⟨?_, ?_, he.releases, he.idle, he.quiet⟩
  · intro r
    refine Eq.trans ?_ (he.foreign r)
    by_cases hra : r.owner = a
    · have hs : R₁.status r.owner = .alive := by
        rw [hra]
        exact halive ha
      cases ho : (R₁.engine a).hasOutstandingForeignRefs with
      | true => simp [Runtime.foreign, setStatus, hra, halive ha]
      | false =>
        have hz : (R₁.engine r.owner).foreign r.addr = 0 := by
          rw [hra]
          exact (he.quiet a).foreign_eq_zero ho
        simp [Runtime.foreign, setStatus, hra, halive ha, hra ▸ hz]
    · simp [Runtime.foreign, setStatus, hra]
  · intro r
    refine Nat.le_trans ?_ (he.queued r)
    exact (Sublist.flatMap filter_sublist _).count_le _

end

/-- No message that waits carries a pointer. -/
def NoneQueued (R : Runtime) : Prop := ∀ r, R.queued r = 0

theorem Exact.processGcOps (h : Exact R) (hr : R.processGcOps fuel = some R') :
    (∀ r, R'.foreign r = R'.held r ∧ R'.queued r = R.queued r) ∧ (R.NoneQueued → Exact R') := by
  obtain ⟨R₁, h₁, rfl⟩ := Option.map_eq_some_iff.mp hr
  have hcount :=
    recounted_applyForeignOps (R := { R with pendingOps := [] }) h.idle h.quiet h.releases
      (by
        intro r
        show _ ≤ R.foreign r
        rw [h.foreign r]
        exact Nat.le_add_right _ _) h₁
  -- All queued decrements are applied at once, so the holds of the receivers remain.
  have hforeign : ∀ r, R.foreign r - (R.pendingOps.map ref).count r = R.held r := by
    intro r
    rw [h.foreign r]
    exact Nat.add_sub_cancel_left ..
  refine ⟨?_, ?_⟩
  · intro r
    refine ⟨?_, ?_⟩
    · rw [foreign_reclaimRetiredHeaps hcount.quiet, hcount.foreign]
      refine (hforeign r).trans ?_
      show _ = (R₁.heldForeignRefs.map _).count r
      rw [hcount.heldForeignRefs]
      rfl
    · show (R₁.mailboxes.flatMap _).count _ = _
      rw [hcount.mailboxes]
      rfl
  · intro hnone
    refine Exact.of_recounted hcount ?_ ?_ nofun
    · intro r
      refine (hforeign r).trans ?_
      exact (Nat.zero_add _).symm
    · intro r
      exact Nat.le_of_eq (hnone r)

/-- Every action keeps the counts exact, `process_gc_ops` only with empty mailboxes. -/
theorem Exact.perform {a : Action} (h : Exact R) (hl : R.Lawful a) (hp : R.perform fuel a = some R')
    (hgc : a = .processGcOps → R.NoneQueued) : Exact R' := by
  cases a with
  | spawn a capacity =>
    cases hp
    obtain ⟨h₁, h₂, h₃, h₄, h₅⟩ := h.spawn hl
    exact ⟨h₁, h₂, h₃, h₄, h₅⟩
  | call a c =>
    obtain ⟨E, hE, rfl⟩ := Option.map_eq_some_iff.mp hp
    exact h.call hl.2.2.1 hl.2.2.2 hE
  | send a target payload =>
    cases hp
    exact h.send hl.2.2.1
  | receive a k =>
    cases hp
    exact h.receive
  | suspend | resume =>
    cases hp
    exact ⟨h.foreign, h.queued, h.releases, h.idle, h.quiet⟩
  | exit a => exact h.exit hl hp
  | processGcOps => exact (h.processGcOps hp).2 (hgc rfl)
  | processDeferred a =>
    obtain ⟨E, hE, rfl⟩ := Option.map_eq_some_iff.mp hp
    exact h.processDeferred hE

/-- In the run `t` from `R`, no message with a pointer waits in any mailbox whenever
`process_gc_ops` is about to run. -/
def CollectsIdle : Runtime → List (Action × Runtime) → Prop
  | _, [] => True
  | R, (a, R') :: t => (a = .processGcOps → R.NoneQueued) ∧ CollectsIdle R' t

theorem Exact.trace {t : List (Action × Runtime)} (h : Exact R) (ht : Trace R t) :
    (∀ e ∈ t, e.2.Counted) ↔ CollectsIdle R t := by
  induction ht with
  | nil R => exact ⟨fun _ => trivial, nofun⟩
  | @cons R R' a t hl fuel hp ht ih =>
    constructor
    · intro hall
      have hfirst : R'.Counted := hall (a, R') mem_cons_self
      have hgc : a = .processGcOps → R.NoneQueued := by
        intro he r
        subst he
        -- what is left after the decrements are the holds
        obtain ⟨hf, hq⟩ := (h.processGcOps hp).1 r
        have hc := (hfirst r).1
        omega
      exact ⟨hgc, (ih (h.perform hl hp hgc)).mp fun e he => hall e (mem_cons_of_mem _ he)⟩
    · intro hgc e he
      have hnext := h.perform hl hp hgc.1
      rcases mem_cons.mp he with rfl | he
      · exact hnext.counted
      · exact (ih hnext).mpr hgc.2 e he

end Runtime

end Nulang.Orca

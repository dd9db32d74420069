import Mathlib.Data.List.Induction
import Mathlib.Data.List.Nodup
import Nulang.Lib.Result

/-!
# Range tablets

The in-memory tablet of the database (`database/tablet.rs`): a range of byte keys under one owner,
with all committed versions of each key. A batch of mutations is prepared against the owner's epoch
and the committed sequence number, validated again when it is committed, and then published as one
step. A snapshot of a tablet is all its rows; restoring one checks every row again.

The writer and the checker do not agree on what a history is. A batch may touch a key twice, and
then the row has two versions with one sequence number, which `restoreSnapshot` rejects
(`restoreSnapshot_iff`).
-/

set_option autoImplicit false

namespace Nulang.Database

open List

abbrev Bytes : Type := List UInt8

structure TabletId where
  value : UInt64
  nonzero : value ≠ 0
deriving DecidableEq

inductive TabletError where
  | invalidTabletId
  | invalidKeyRange
  | invalidOwnershipEpoch
  | wrongTablet (expected presented : TabletId)
  | staleEpoch (current presented : UInt64)
  | unknownEpoch (current presented : UInt64)
  | sequenceMismatch (committed expectedPrevious : Nat)
  | sequenceOverflow
  | recoveredSequenceMismatch (expected presented : Nat)
  | snapshotAhead (committed requested : Nat)
  | invalidSnapshotHistory
  | keyOutsideTabletRange
deriving DecidableEq

def TabletError.message : TabletError → String
  | .invalidTabletId => "tablet id must be non-zero"
  | .invalidKeyRange => "tablet key range must have start < end"
  | .invalidOwnershipEpoch => "tablet ownership epoch must be non-zero"
  | .wrongTablet expected presented =>
    s!"tablet write targets tablet {presented.value}; expected {expected.value}"
  | .staleEpoch current presented =>
    s!"stale tablet ownership epoch {presented}; current epoch is {current}"
  | .unknownEpoch current presented =>
    s!"unrecognized future tablet ownership epoch {presented}; current epoch is {current}"
  | .sequenceMismatch committed expectedPrevious =>
    s!"tablet predecessor {expectedPrevious} does not match committed sequence {committed}"
  | .sequenceOverflow => "tablet sequence overflow"
  | .recoveredSequenceMismatch expected presented =>
    s!"recovered tablet sequence {presented} does not match expected sequence {expected}"
  | .snapshotAhead committed requested =>
    s!"snapshot {requested} is ahead of committed tablet sequence {committed}"
  | .invalidSnapshotHistory => "tablet snapshot contains invalid MVCC version history"
  | .keyOutsideTabletRange => "tablet mutation key falls outside the owned key range"

/-- `TabletId::new`. -/
def TabletId.new (value : UInt64) : Except TabletError TabletId :=
  if h : value = 0 then .error .invalidTabletId else .ok ⟨value, h⟩

/-- The keys from `start` up to `stop`, which is not one of them. -/
structure KeyRange where
  start : Bytes
  stop : Option Bytes
  ordered : ∀ e ∈ stop, start < e

/-- `KeyRange::new`. -/
def KeyRange.new (start : Bytes) (stop : Option Bytes) : Except TabletError KeyRange :=
  if h : ∀ e ∈ stop, start < e then .ok ⟨start, stop, h⟩ else .error .invalidKeyRange

def KeyRange.contains (range : KeyRange) (key : Bytes) : Bool :=
  decide (range.start ≤ key) && range.stop.all fun e => decide (key < e)

structure TabletDescriptor where
  id : TabletId
  range : KeyRange
  ownershipEpoch : UInt64
  epoch_ne : ownershipEpoch ≠ 0

inductive TabletMutation where
  | put (key value : Bytes)
  | delete (key : Bytes)
deriving DecidableEq

def TabletMutation.key : TabletMutation → Bytes
  | .put key _ => key
  | .delete key => key

def TabletMutation.value : TabletMutation → Option Bytes
  | .put _ value => some value
  | .delete _ => none

structure TabletWrite where
  tabletId : TabletId
  ownershipEpoch : UInt64
  sequence : Nat
  expectedPreviousSequence : Nat
  mutations : List TabletMutation

/-- `TabletWrite::prepare`. -/
def TabletWrite.prepare (descriptor : TabletDescriptor) (presentedEpoch : UInt64)
    (expectedPreviousSequence committedSequence : Nat) (mutations : List TabletMutation) :
    Except TabletError TabletWrite :=
  if presentedEpoch < descriptor.ownershipEpoch then
    .error (.staleEpoch descriptor.ownershipEpoch presentedEpoch)
  else if descriptor.ownershipEpoch < presentedEpoch then
    .error (.unknownEpoch descriptor.ownershipEpoch presentedEpoch)
  else if expectedPreviousSequence ≠ committedSequence then
    .error (.sequenceMismatch committedSequence expectedPreviousSequence)
  else if mutations.any fun m => !descriptor.range.contains m.key then .error .keyOutsideTabletRange
  else
    match checkedSucc expectedPreviousSequence with
    | none => .error .sequenceOverflow
    | some sequence =>
      .ok ⟨descriptor.id, descriptor.ownershipEpoch, sequence, expectedPreviousSequence, mutations⟩

/-- One committed version; a deletion has no value. -/
structure VersionedValue where
  sequence : Nat
  value : Option Bytes
deriving DecidableEq

/-- `TabletSnapshotRow`, and an entry of the map of rows. -/
structure Row where
  key : Bytes
  versions : List VersionedValue
deriving DecidableEq

/-- The rows of a tablet: at most one for each key. -/
structure RowMap where
  rows : List Row
  nodup : (rows.map Row.key).Nodup

namespace RowMap

def empty : RowMap := ⟨[], nodup_nil⟩

def versions (m : RowMap) (key : Bytes) : List VersionedValue :=
  ((m.rows.find? fun r => r.key = key).map Row.versions).getD []

/-- `entry(key).or_default().push(version)`. -/
def pushRow (key : Bytes) (v : VersionedValue) : List Row → List Row
  | [] => [⟨key, [v]⟩]
  | r :: rows => if r.key = key then ⟨key, r.versions ++ [v]⟩ :: rows else r :: pushRow key v rows

theorem key_pushRow (key : Bytes) (v : VersionedValue) (rows : List Row) :
    (pushRow key v rows).map Row.key =
      if key ∈ rows.map Row.key then rows.map Row.key else rows.map Row.key ++ [key] := by
  induction rows with
  | nil => rfl
  | cons r rows ih =>
    unfold pushRow
    by_cases h : r.key = key
    · simp [h]
    · have hne : key ≠ r.key := fun he => h he.symm
      rw [if_neg h, map_cons, ih]
      by_cases hm : key ∈ rows.map Row.key
      · simp [hm]
      · simp [hm, hne]

def push (m : RowMap) (key : Bytes) (v : VersionedValue) : RowMap where
  rows := pushRow key v m.rows
  nodup := by
    rw [key_pushRow]
    split_ifs with h
    · exact m.nodup
    · exact nodup_append.mpr ⟨m.nodup, nodup_singleton key, fun a ha b hb => by
        rw [mem_singleton.mp hb]
        exact fun he => h (he ▸ ha)⟩

theorem mem_keys_push {m : RowMap} {key : Bytes} {v : VersionedValue} {k : Bytes} :
    k ∈ (m.push key v).rows.map Row.key ↔ k ∈ m.rows.map Row.key ∨ k = key := by
  unfold push
  rw [key_pushRow]
  split_ifs with h
  · exact ⟨Or.inl, fun hk => hk.elim id fun he => he ▸ h⟩
  · rw [mem_append, mem_singleton]

theorem ext_rows {m m' : RowMap} (h : m.rows = m'.rows) : m = m' := by
  cases m
  cases m'
  cases h
  rfl

/-- `insert`, when the key is new. -/
def insert? (m : RowMap) (row : Row) : Option RowMap :=
  if h : row.key ∈ m.rows.map Row.key then none
  else some ⟨m.rows ++ [row], by
    rw [map_append]
    exact nodup_append.mpr ⟨m.nodup, nodup_singleton row.key, fun a ha b hb => by
      rw [mem_singleton.mp hb]
      exact fun he => h (he ▸ ha)⟩⟩

variable (m : RowMap)

theorem versions_push (key : Bytes) (v : VersionedValue) (k : Bytes) :
    (m.push key v).versions k = if k = key then m.versions k ++ [v] else m.versions k := by
  unfold versions push
  dsimp only
  induction m.rows with
  | nil => by_cases h : key = k <;> simp [pushRow, h, eq_comm]
  | cons r rows ih =>
    unfold pushRow
    by_cases hr : r.key = key
    · by_cases hk : k = key
      · simp [hr, hk]
      · have hne : ¬ key = k := fun he => hk he.symm
        simp [hr, hk, hne]
    · rw [if_neg hr]
      by_cases hk : r.key = k
      · have hne : ¬ k = key := fun he => hr (hk.trans he)
        simp [hk, hne]
      · simp only [find?_cons, hk, decide_false]
        exact ih

theorem versions_of_mem {row : Row} (h : row ∈ m.rows) : m.versions row.key = row.versions := by
  obtain ⟨rows, hnodup⟩ := m
  unfold versions
  induction rows with
  | nil => cases h
  | cons r rows ih =>
    rw [map_cons, nodup_cons] at hnodup
    rcases mem_cons.mp h with rfl | hm
    · simp
    · have hne : ¬ r.key = row.key := fun he => hnodup.1 (he ▸ mem_map_of_mem hm)
      simp only [find?_cons, hne, decide_false]
      exact ih hnodup.2 hm

theorem mem_of_versions_ne_nil {key : Bytes} (h : m.versions key ≠ []) :
    ∃ row ∈ m.rows, row.key = key := by
  unfold versions at h
  cases hf : m.rows.find? fun r => r.key = key with
  | none => simp [hf] at h
  | some row =>
    have hkey : row.key = key := by simpa using find?_some hf
    exact ⟨row, mem_of_find?_eq_some hf, hkey⟩

end RowMap

structure MemoryTablet where
  descriptor : TabletDescriptor
  currentSequence : Nat
  rows : RowMap

structure TabletSnapshotState where
  currentSequence : Nat
  rows : List Row

namespace MemoryTablet

def new (descriptor : TabletDescriptor) : MemoryTablet := ⟨descriptor, 0, RowMap.empty⟩

def snapshotState (t : MemoryTablet) : TabletSnapshotState := ⟨t.currentSequence, t.rows.rows⟩

/-- The check of one row's versions. -/
def historyValid (current previous : Nat) : List VersionedValue → Bool
  | [] => true
  | v :: versions =>
    !(v.sequence == 0 || decide (current < v.sequence) || decide (v.sequence ≤ previous)) &&
      historyValid current v.sequence versions

/-- The loop of `restore_snapshot`. -/
def restoreRows (range : KeyRange) (current : Nat) : List Row → RowMap → Except TabletError RowMap
  | [], m => .ok m
  | row :: rows, m =>
    if !range.contains row.key then .error .keyOutsideTabletRange
    else if !historyValid current 0 row.versions then .error .invalidSnapshotHistory
    else
      match m.insert? row with
      | none => .error .invalidSnapshotHistory
      | some m => restoreRows range current rows m

def restoreSnapshot (descriptor : TabletDescriptor) (state : TabletSnapshotState) :
    Except TabletError MemoryTablet :=
  (restoreRows descriptor.range state.currentSequence state.rows RowMap.empty).map fun rows =>
    ⟨descriptor, state.currentSequence, rows⟩

def prepareWrite (t : MemoryTablet) (presentedEpoch : UInt64) (expectedPreviousSequence : Nat)
    (mutations : List TabletMutation) : Except TabletError TabletWrite :=
  TabletWrite.prepare t.descriptor presentedEpoch expectedPreviousSequence
    t.currentSequence mutations

def validateWrite (t : MemoryTablet) (write : TabletWrite) : Except TabletError Unit :=
  if write.tabletId ≠ t.descriptor.id then .error (.wrongTablet t.descriptor.id write.tabletId)
  else if write.ownershipEpoch < t.descriptor.ownershipEpoch then
    .error (.staleEpoch t.descriptor.ownershipEpoch write.ownershipEpoch)
  else if t.descriptor.ownershipEpoch < write.ownershipEpoch then
    .error (.unknownEpoch t.descriptor.ownershipEpoch write.ownershipEpoch)
  else if write.expectedPreviousSequence ≠ t.currentSequence then
    .error (.sequenceMismatch t.currentSequence write.expectedPreviousSequence)
  else if write.mutations.any fun m =>
    !t.descriptor.range.contains m.key then .error .keyOutsideTabletRange
  else
    match checkedSucc t.currentSequence with
    | none => .error .sequenceOverflow
    | some next =>
      if write.sequence ≠ next then
        .error (.sequenceMismatch t.currentSequence write.expectedPreviousSequence)
      else .ok ()

def applyMutations (t : MemoryTablet) (sequence : Nat) (mutations : List TabletMutation) :
    MemoryTablet :=
  { t with rows := mutations.foldl (fun rows m => rows.push m.key ⟨sequence, m.value⟩) t.rows }

def publishValidated (t : MemoryTablet) (write : TabletWrite) : MemoryTablet :=
  { t.applyMutations write.sequence write.mutations with currentSequence := write.sequence }

def commit (t : MemoryTablet) (write : TabletWrite) : Except TabletError MemoryTablet :=
  (t.validateWrite write).map fun _ => t.publishValidated write

/-- `replay_committed`: a batch from the log. The owner may have changed since. -/
def replayCommitted (t : MemoryTablet) (sequence expectedPreviousSequence : Nat)
    (mutations : List TabletMutation) : Except TabletError MemoryTablet :=
  if expectedPreviousSequence ≠ t.currentSequence then
    .error (.sequenceMismatch t.currentSequence expectedPreviousSequence)
  else
    match checkedSucc t.currentSequence with
    | none => .error .sequenceOverflow
    | some expected =>
      if sequence ≠ expected then .error (.recoveredSequenceMismatch expected sequence)
      else if mutations.any fun m =>
        !t.descriptor.range.contains m.key then .error .keyOutsideTabletRange
      else .ok { t.applyMutations sequence mutations with currentSequence := sequence }

/-- `read_at`: the value of the newest version the snapshot sees. -/
def readAt (t : MemoryTablet) (key : Bytes) (snapshot : Nat) : Except TabletError (Option Bytes) :=
  if t.currentSequence < snapshot then .error (.snapshotAhead t.currentSequence snapshot)
  else if !t.descriptor.range.contains key then .error .keyOutsideTabletRange
  else .ok (((t.rows.versions key).reverse.find? fun v => v.sequence ≤ snapshot).bind
    VersionedValue.value)

end MemoryTablet

/-! ## What a tablet holds -/

/-- The sequence numbers of the versions the batches give a key. -/
def touched (key : Bytes) (batches : List (List TabletMutation)) : List Nat :=
  (batches.zipIdx 1).flatMap fun p => replicate (p.1.countP fun m => m.key = key) p.2

theorem touched_append (key : Bytes) (batches : List (List TabletMutation))
    (batch : List TabletMutation) :
    touched key (batches ++ [batch]) =
      touched key batches ++ replicate (batch.countP fun m => m.key = key)
        (batches.length + 1) := by
  unfold touched
  rw [zipIdx_append, flatMap_append, Nat.add_comm 1 batches.length]
  simp

theorem touched_le {key : Bytes} {batches : List (List TabletMutation)} {s : Nat}
    (h : s ∈ touched key batches) :
    0 < s ∧ s ≤ batches.length := by
  obtain ⟨p, hp, hs⟩ := mem_flatMap.mp h
  have heq : s = p.2 := eq_of_mem_replicate hs
  have hlt := snd_lt_of_mem_zipIdx hp
  have hle := le_snd_of_mem_zipIdx hp
  omega

/-- A key's versions have distinct sequence numbers when no batch touches it twice. -/
theorem pairwise_touched_iff (key : Bytes) (batches : List (List TabletMutation)) :
    (touched key batches).Pairwise (· < ·) ↔
    ∀ b ∈ batches, (b.map TabletMutation.key).count key ≤ 1 := by
  induction batches using reverseRecOn with
  | nil => simp [touched]
  | append_singleton batches batch ih =>
    have hcount :
        (batch.countP fun m => m.key = key) = (batch.map TabletMutation.key).count key := by
      rw [count, countP_map]
      exact countP_congr fun m _ => by simp
    have hcross : ∀ a ∈ touched key batches,
        ∀ b ∈ replicate (batch.countP fun m => m.key = key) (batches.length + 1), a < b := by
      intro a ha b hb
      have hle := (touched_le ha).2
      rw [eq_of_mem_replicate hb]
      omega
    have hlast :
        (replicate (batch.countP fun m => m.key = key) (batches.length + 1)).Pairwise (· < ·) ↔
        (batch.map TabletMutation.key).count key ≤ 1 := by
      rw [pairwise_replicate, hcount]
      simp
    rw [touched_append, pairwise_append, ih, hlast]
    constructor
    · rintro ⟨h, hb, _⟩ b hm
      rcases mem_append.mp hm with hm | hm
      · exact h b hm
      · rwa [mem_singleton.mp hm]
    · intro h
      exact ⟨fun b hm => h b (mem_append_left _ hm), h batch (by simp), hcross⟩

/-- No batch touches a key twice. -/
def Distinct (batches : List (List TabletMutation)) : Prop :=
  ∀ b ∈ batches, (b.map TabletMutation.key).Nodup

theorem distinct_iff (batches : List (List TabletMutation)) :
    Distinct batches ↔ ∀ key, (touched key batches).Pairwise (· < ·) := by
  simp only [pairwise_touched_iff, Distinct, nodup_iff_count_le_one]
  exact ⟨fun h key b hb => h b hb key, fun h b hb key => h key b hb⟩

namespace MemoryTablet

def extend (t : MemoryTablet) (batch : List TabletMutation) : MemoryTablet :=
  { t.applyMutations (t.currentSequence + 1) batch with currentSequence := t.currentSequence + 1 }

/-- The tablet after the batches, in order: the meaning of a history. -/
def after (descriptor : TabletDescriptor) (batches : List (List TabletMutation)) : MemoryTablet :=
  batches.foldl extend (new descriptor)

section

variable (d : TabletDescriptor) (batches : List (List TabletMutation))

theorem after_append (batch : List TabletMutation) :
    after d (batches ++ [batch]) = (after d batches).extend batch := by
  simp [after]

@[simp] theorem descriptor_after : (after d batches).descriptor = d := by
  induction batches using reverseRecOn with
  | nil => rfl
  | append_singleton batches batch ih => rw [after_append]; exact ih

theorem with_descriptor_after (d d' : TabletDescriptor) (batches : List (List TabletMutation)) :
    { after d' batches with descriptor := d } = after d batches := by
  induction batches using reverseRecOn with
  | nil => rfl
  | append_singleton batches batch ih =>
    rw [after_append, after_append, ← ih]
    rfl

@[simp] theorem currentSequence_after : (after d batches).currentSequence = batches.length := by
  induction batches using reverseRecOn with
  | nil => rfl
  | append_singleton batches batch ih =>
    rw [after_append, length_append]
    exact congrArg (· + 1) ih

theorem versions_applyMutations (t : MemoryTablet) (n : Nat) (batch : List TabletMutation)
    (key : Bytes) :
    (((t.applyMutations n batch).rows.versions key).map VersionedValue.sequence) =
      (t.rows.versions key).map VersionedValue.sequence ++
      replicate (batch.countP fun m => m.key = key) n := by
  unfold applyMutations
  induction batch using reverseRecOn with
  | nil => simp
  | append_singleton batch m ih =>
    rw [foldl_append, foldl_cons, foldl_nil, RowMap.versions_push, countP_append]
    by_cases h : key = m.key
    · subst h
      rw [if_pos rfl, map_append, ih, append_assoc]
      simp [← replicate_succ']
    · have hne : ¬ m.key = key := fun he => h he.symm
      rw [if_neg h, ih]
      simp [hne]

/-- The sequence numbers of each row are those of the batches that touch its key. -/
theorem sequences_after (key : Bytes) :
    ((after d batches).rows.versions key).map VersionedValue.sequence = touched key batches := by
  induction batches using reverseRecOn with
  | nil => rfl
  | append_singleton batches batch ih =>
    rw [after_append, touched_append, ← ih]
    have h :=
      versions_applyMutations (after d batches) ((after d batches).currentSequence + 1) batch key
    simpa [extend] using h

end

variable {batch : List TabletMutation} {t : MemoryTablet} {batches : List (List TabletMutation)}
  {d : TabletDescriptor} {range : KeyRange} {write : TabletWrite}

theorem mem_keys_applyMutations {n : Nat} {key : Bytes} :
    key ∈ (t.applyMutations n batch).rows.rows.map Row.key ↔
      key ∈ t.rows.rows.map Row.key ∨ key ∈ batch.map TabletMutation.key := by
  unfold applyMutations
  induction batch using reverseRecOn with
  | nil => simp
  | append_singleton batch m ih =>
    rw [foldl_append, foldl_cons, foldl_nil, RowMap.mem_keys_push, ih, map_append,
      mem_append, map_singleton, mem_singleton, or_assoc]

/-- The rows are those of the keys the batches touch. -/
theorem mem_keys_after {key : Bytes} :
    key ∈ (after d batches).rows.rows.map Row.key ↔
      ∃ b ∈ batches, key ∈ b.map TabletMutation.key := by
  induction batches using reverseRecOn with
  | nil => simp [after, new, RowMap.empty]
  | append_singleton batches batch ih =>
    rw [after_append]
    refine mem_keys_applyMutations.trans ?_
    rw [ih]
    simp [or_and_right, exists_or]

theorem historyValid_iff (current previous : Nat) (versions : List VersionedValue) :
    historyValid current previous versions = true ↔
      (previous :: versions.map VersionedValue.sequence).Pairwise (· < ·) ∧
        ∀ v ∈ versions, 0 < v.sequence ∧ v.sequence ≤ current := by
  induction versions generalizing previous with
  | nil => simp [historyValid]
  | cons v versions ih =>
    unfold historyValid
    rw [Bool.and_eq_true, ih, map_cons, pairwise_cons (a := previous), forall_mem_cons,
      forall_mem_cons, pairwise_cons]
    simp only [Bool.not_eq_true', Bool.or_eq_false_iff, beq_eq_false_iff_ne,
      decide_eq_false_iff_not, Nat.not_le,
      Nat.not_lt]
    constructor
    · rintro ⟨⟨⟨hpos, hle⟩, hprev⟩, ⟨hnext, hrest⟩, hall⟩
      exact ⟨⟨⟨hprev, fun s hs => Nat.lt_trans hprev (hnext s hs)⟩, hnext, hrest⟩,
        ⟨Nat.pos_of_ne_zero hpos, hle⟩, hall⟩
    · rintro ⟨⟨⟨hprev, _⟩, hnext, hrest⟩, ⟨hpos, hle⟩, hall⟩
      exact ⟨⟨⟨Nat.ne_of_gt hpos, hle⟩, hprev⟩, ⟨hnext, hrest⟩, hall⟩

theorem restoreRows_iff {current : Nat} {rows : List Row} {m : RowMap}
    (hn : ((m.rows ++ rows).map Row.key).Nodup) (m' : RowMap) :
    restoreRows range current rows m = .ok m' ↔ m'.rows = m.rows ++ rows ∧
      ∀ row ∈ rows, range.contains row.key = true ∧ historyValid current 0 row.versions = true := by
  induction rows generalizing m with
  | nil =>
    unfold restoreRows
    rw [append_nil]
    constructor
    · intro h
      cases h
      exact ⟨rfl, fun row hrow => absurd hrow not_mem_nil⟩
    · rintro ⟨h, _⟩
      rw [RowMap.ext_rows h]
  | cons row rows ih =>
    have hfresh : row.key ∉ m.rows.map Row.key := by
      rw [map_append, nodup_append] at hn
      exact fun hmem => hn.2.2 row.key hmem row.key (by simp) rfl
    unfold restoreRows RowMap.insert?
    rw [forall_mem_cons, dif_neg hfresh]
    by_cases hc : range.contains row.key = true
    · by_cases hv : historyValid current 0 row.versions = true
      · simp only [hc, hv, Bool.not_true, Bool.false_eq_true, if_false, true_and, and_self]
        have hn' : (((m.rows ++ [row]) ++ rows).map Row.key).Nodup := by simpa using hn
        rw [ih hn']
        simp
      · simp [hc, hv]
    · simp [hc]

/-- A snapshot of a tablet is restored, and then with the rows of the tablet, when its keys are in
the range and no row has two versions of one sequence number. -/
theorem restoreSnapshot_iff (t' : MemoryTablet) :
    restoreSnapshot d t.snapshotState = .ok t' ↔ t' = { t with descriptor := d } ∧
      ∀ row ∈ t.rows.rows, d.range.contains row.key = true ∧
        historyValid t.currentSequence 0 row.versions = true := by
  have hn : ((RowMap.empty.rows ++ t.rows.rows).map Row.key).Nodup := t.rows.nodup
  unfold restoreSnapshot snapshotState
  constructor
  · intro h
    cases hr : restoreRows d.range t.currentSequence t.rows.rows RowMap.empty with
    | error e => rw [hr] at h; cases h
    | ok m =>
      obtain ⟨hrows, hall⟩ := (restoreRows_iff hn m).mp hr
      have heq : m = t.rows := RowMap.ext_rows hrows
      rw [hr, heq] at h
      cases h
      exact ⟨rfl, hall⟩
  · rintro ⟨rfl, hall⟩
    rw [(restoreRows_iff hn t.rows).mpr ⟨rfl, hall⟩]
    rfl

/-- The keys the batches touch are in the range. -/
def Within (range : KeyRange) (batches : List (List TabletMutation)) : Prop :=
  ∀ b ∈ batches, ∀ m ∈ b, range.contains m.key = true

/-- The snapshot of a history is restored when no batch of it touches a key twice. -/
theorem restoreSnapshot_after (hw : Within d.range batches) (t' : MemoryTablet) :
    restoreSnapshot d (after d batches).snapshotState = .ok t' ↔
      t' = after d batches ∧ Distinct batches := by
  rw [restoreSnapshot_iff, with_descriptor_after, currentSequence_after, distinct_iff]
  refine and_congr_right fun _ => ⟨fun hall key => ?_, fun hall row hrow => ⟨?_, ?_⟩⟩
  · by_cases hne : (after d batches).rows.versions key = []
    · rw [← sequences_after d, hne]
      exact List.Pairwise.nil
    · obtain ⟨row, hrow, rfl⟩ := RowMap.mem_of_versions_ne_nil _ hne
      have hvalid := ((historyValid_iff _ _ _).mp (hall row hrow).2).1
      rw [← sequences_after d, RowMap.versions_of_mem _ hrow]
      exact (pairwise_cons.mp hvalid).2
  · obtain ⟨b, hb, hm⟩ := mem_keys_after.mp (mem_map_of_mem (f := Row.key) hrow)
    obtain ⟨m, hm, heq⟩ := mem_map.mp hm
    exact heq ▸ hw b hb m hm
  · have hseq := sequences_after d batches row.key
    rw [RowMap.versions_of_mem _ hrow] at hseq
    have hbound : ∀ s ∈ row.versions.map VersionedValue.sequence, 0 < s ∧ s ≤ batches.length :=
      fun s hs => touched_le (hseq ▸ hs)
    refine (historyValid_iff _ _ _).mpr ⟨pairwise_cons.mpr ⟨fun s hs => (hbound s hs).1, ?_⟩,
      fun v hv => hbound _ (mem_map_of_mem hv)⟩
    rw [hseq]
    exact hall row.key

theorem any_outside :
    ¬ (batch.any fun m => !range.contains m.key) = true ↔
      ∀ m ∈ batch, range.contains m.key = true := by
  simp

theorem validateWrite_ok {u : Unit} (h : t.validateWrite write = .ok u) :
    write.tabletId = t.descriptor.id ∧ write.ownershipEpoch = t.descriptor.ownershipEpoch ∧
      write.expectedPreviousSequence = t.currentSequence ∧ write.sequence = t.currentSequence + 1 ∧
      write.sequence < 2 ^ 64 ∧
        ∀ m ∈ write.mutations, t.descriptor.range.contains m.key = true := by
  unfold validateWrite at h
  split_ifs at h with hid hstale hunknown hprev hrange
  have hepoch : write.ownershipEpoch = t.descriptor.ownershipEpoch :=
    UInt64.le_antisymm (UInt64.not_lt.mp hunknown) (UInt64.not_lt.mp hstale)
  cases hn : checkedSucc t.currentSequence with
  | none => rw [hn] at h; cases h
  | some next =>
    rw [hn] at h
    dsimp only at h
    split_ifs at h with hseq
    obtain ⟨rfl, hlt⟩ := checkedSucc_eq hn
    have hsequence := not_not.mp hseq
    exact ⟨not_not.mp hid, hepoch, not_not.mp hprev, hsequence, hsequence ▸ hlt,
      any_outside.mp hrange⟩

theorem publishValidated_eq (h : write.sequence = t.currentSequence + 1) :
    t.publishValidated write = t.extend write.mutations := by
  unfold publishValidated extend
  rw [h]

theorem commit_ok {t' : MemoryTablet} (h : t.commit write = .ok t') :
    t' = t.extend write.mutations ∧ t.currentSequence + 1 < 2 ^ 64 ∧
      ∀ m ∈ write.mutations, t.descriptor.range.contains m.key = true := by
  unfold commit at h
  cases hv : t.validateWrite write with
  | error e => rw [hv] at h; cases h
  | ok u =>
    obtain ⟨_, _, _, hseq, hlt, hrange⟩ := validateWrite_ok hv
    rw [hv] at h
    cases h
    exact ⟨publishValidated_eq hseq, hseq ▸ hlt, hrange⟩

theorem replayCommitted_ok {t' : MemoryTablet} {sequence previous : Nat} :
    t.replayCommitted sequence previous batch = .ok t' ↔
      previous = t.currentSequence ∧ sequence = t.currentSequence + 1 ∧ sequence < 2 ^ 64 ∧
        (∀ m ∈ batch, t.descriptor.range.contains m.key = true) ∧ t' = t.extend batch := by
  constructor
  · intro h
    unfold replayCommitted at h
    by_cases hprev : previous = t.currentSequence
    · rw [if_neg (not_not.mpr hprev)] at h
      cases hn : checkedSucc t.currentSequence with
      | none => rw [hn] at h; cases h
      | some next =>
        obtain ⟨rfl, hlt⟩ := checkedSucc_eq hn
        rw [hn] at h
        dsimp only at h
        split_ifs at h with hseq hrange
        obtain rfl := not_not.mp hseq
        cases h
        exact ⟨hprev, rfl, hlt, any_outside.mp hrange, rfl⟩
    · rw [if_pos hprev] at h
      cases h
  · rintro ⟨rfl, rfl, hlt, hrange, rfl⟩
    unfold replayCommitted
    simp only [ne_eq, not_true_eq_false, if_false, checkedSucc_of_lt hlt, any_outside.mpr hrange]
    rfl

/-- The tablets that commits reach, with the batches committed. A write may have been prepared by
any tablet. -/
inductive Committed (d : TabletDescriptor) : MemoryTablet → List (List TabletMutation) → Prop where
  | new : Committed d (MemoryTablet.new d) []
  | commit {t t' s : MemoryTablet} {batches : List (List TabletMutation)} {epoch : UInt64}
      {previous : Nat}
      {mutations : List TabletMutation} {write : TabletWrite} :
    Committed d t batches → s.prepareWrite epoch previous mutations = .ok write →
      t.commit write = .ok t' →
      Committed d t' (batches ++ [mutations])

theorem prepareWrite_mutations {s : MemoryTablet} {epoch : UInt64} {previous : Nat}
    {mutations : List TabletMutation} (h : s.prepareWrite epoch previous mutations = .ok write) :
    write.mutations = mutations := by
  unfold prepareWrite TabletWrite.prepare at h
  split_ifs at h
  cases hn : checkedSucc previous with
  | none => rw [hn] at h; cases h
  | some next =>
    rw [hn] at h
    cases h
    rfl

theorem Within.append (h : Within range batches) (hb : ∀ m ∈ batch, range.contains m.key = true) :
    Within range (batches ++ [batch]) := by
  intro b hm
  rcases mem_append.mp hm with hm | hm
  · exact h b hm
  · rwa [mem_singleton.mp hm]

/-- A reached tablet is the meaning of its batches, all of them in its range. -/
theorem Committed.eq_after (h : Committed d t batches) :
    t = after d batches ∧ Within d.range batches := by
  induction h with
  | new => exact ⟨rfl, fun b hb => absurd hb not_mem_nil⟩
  | @commit t t' s batches epoch previous mutations write _ hprepare hcommit ih =>
    obtain ⟨rfl, hwithin⟩ := ih
    obtain ⟨rfl, _, hrange⟩ := commit_ok hcommit
    rw [prepareWrite_mutations hprepare] at hrange ⊢
    rw [descriptor_after] at hrange
    exact ⟨(after_append d batches mutations).symm, hwithin.append hrange⟩

/-! ## Reads -/

/-- The value of a key after the batches: its last mutation counts. -/
def valueAfter (key : Bytes) (batches : List (List TabletMutation)) : Option Bytes :=
  batches.flatten.foldl (fun value m => if m.key = key then m.value else value) none

/-- What can be asked of a tablet. -/
inductive Op where
  | commit (write : TabletWrite)
  | replay (sequence expectedPreviousSequence : Nat) (mutations : List TabletMutation)

def Op.mutations : Op → List TabletMutation
  | .commit write => write.mutations
  | .replay _ _ mutations => mutations

/-- The answer of a tablet, and the tablet after it: every check comes before the first row is
changed. -/
def perform (t : MemoryTablet) : Op → Except TabletError Nat × MemoryTablet
  | .commit write =>
    match t.validateWrite write with
    | .error e => (.error e, t)
    | .ok _ => (.ok write.sequence, t.publishValidated write)
  | .replay sequence previous mutations =>
    match t.replayCommitted sequence previous mutations with
    | .error e => (.error e, t)
    | .ok t' => (.ok sequence, t')

def performAll (t : MemoryTablet) (ops : List Op) : MemoryTablet :=
  ops.foldl (fun t op => (t.perform op).2) t

def accepted (t : MemoryTablet) : List Op → List (List TabletMutation)
  | [] => []
  | op :: ops =>
    match t.perform op with
    | (.error _, t') => accepted t' ops
    | (.ok _, t') => op.mutations :: accepted t' ops

theorem perform_cases (op : Op) :
    (∃ e, t.perform op = (.error e, t)) ∨ ∃ n, t.perform op = (.ok n, t.extend op.mutations) := by
  cases op with
  | commit write =>
    unfold perform
    dsimp only
    split
    · exact .inl ⟨_, rfl⟩
    · next hv =>
      obtain ⟨_, _, _, hseq, _, _⟩ := validateWrite_ok hv
      exact .inr ⟨_, by rw [publishValidated_eq hseq]; rfl⟩
  | replay sequence previous mutations =>
    unfold perform
    dsimp only
    split
    · exact .inl ⟨_, rfl⟩
    · next hr =>
      obtain ⟨_, _, _, _, rfl⟩ := replayCommitted_ok.mp hr
      exact .inr ⟨_, rfl⟩

/-- A run adds the batches it accepts to the history. -/
theorem performAll_after (ops : List Op) (batches : List (List TabletMutation)) :
    (after d batches).performAll ops = after d (batches ++ (after d batches).accepted ops) := by
  induction ops generalizing batches with
  | nil => rw [accepted, append_nil]; rfl
  | cons op ops ih =>
    unfold performAll accepted
    rw [foldl_cons]
    obtain ⟨e, h⟩ | ⟨n, h⟩ := perform_cases op
    · rw [h]
      exact ih batches
    · rw [h, ← after_append]
      exact (ih (batches ++ [op.mutations])).trans (by rw [append_assoc]; rfl)

/-- What a read finds after one more version. -/
theorem find_push (m : RowMap) (key k : Bytes) (v : VersionedValue) (s : Nat) :
    ((m.push key v).versions k).reverse.find? (fun v => v.sequence ≤ s) =
      if k = key ∧ v.sequence ≤ s then some v else (m.versions k).reverse.find? fun v =>
        v.sequence ≤ s := by
  rw [RowMap.versions_push]
  by_cases hk : k = key
  · by_cases hs : v.sequence ≤ s <;> simp [hk, hs]
  · simp [hk]

/-- A batch with a number the snapshot does not see changes nothing, another one counts mutation by
mutation. -/
theorem find_applyMutations (n s : Nat) (key : Bytes) :
    (((t.applyMutations n batch).rows.versions key).reverse.find? fun v => v.sequence ≤ s).bind
    VersionedValue.value =
      (if n ≤ s then batch else []).foldl (fun value m => if m.key = key then m.value else value)
        (((t.rows.versions key).reverse.find? fun v => v.sequence ≤ s).bind
          VersionedValue.value) := by
  unfold applyMutations
  induction batch using reverseRecOn with
  | nil => simp
  | append_singleton batch m ih =>
    rw [foldl_append, foldl_cons, foldl_nil, find_push]
    by_cases hs : n ≤ s
    · rw [if_pos hs] at ih ⊢
      rw [foldl_append, foldl_cons, foldl_nil, ← ih]
      by_cases hk : key = m.key
      · simp [hk, hs]
      · simp [hk, eq_comm]
    · simpa [hs] using ih

/-- A read at a snapshot sees the batches up to it. -/
theorem find_after (key : Bytes) (s : Nat) :
    (((after d batches).rows.versions key).reverse.find? fun v => v.sequence ≤ s).bind
    VersionedValue.value =
      valueAfter key (batches.take s) := by
  induction batches using reverseRecOn with
  | nil => simp [after, new, RowMap.empty, RowMap.versions, valueAfter]
  | append_singleton batches batch ih =>
    rw [after_append]
    refine (find_applyMutations _ _ _).trans ?_
    rw [ih, currentSequence_after]
    by_cases hs : batches.length + 1 ≤ s
    · rw [if_pos hs, take_of_length_le (Nat.le_of_succ_le hs),
        take_of_length_le (by rwa [length_append])]
      simp [valueAfter]
    · rw [if_neg hs, take_append_of_le_length (by omega)]
      rfl

theorem readAt_after (key : Bytes) {s : Nat} (hs : s ≤ batches.length) :
    (after d batches).readAt key s =
      if d.range.contains key then .ok (valueAfter key (batches.take s))
        else .error .keyOutsideTabletRange := by
  unfold readAt
  rw [currentSequence_after, descriptor_after, if_neg (Nat.not_lt.mpr hs), find_after]
  cases d.range.contains key <;> rfl

/-- At a snapshot that has been reached a read gives the value after the batches committed up to it.
Nothing that is asked of the tablet later changes that, and what is rejected changes nothing at
all. -/
theorem snapshots_stable (d : TabletDescriptor) (ops : List Op) :
    (∀ key s, s ≤ ((new d).performAll ops).currentSequence → ((new d).performAll ops).readAt key s =
      if d.range.contains key then .ok (valueAfter key (((new d).accepted ops).take s))
      else .error .keyOutsideTabletRange) ∧
    (∀ more key s, s ≤ ((new d).performAll ops).currentSequence →
      (((new d).performAll ops).performAll more).readAt key s =
      ((new d).performAll ops).readAt key s) ∧
    ∀ op e, (((new d).performAll ops).perform op).1 = .error e →
      (((new d).performAll ops).perform op).2 = (new d).performAll ops := by
  have hrun : (new d).performAll ops = after d ((new d).accepted ops) := performAll_after ops []
  rw [hrun, currentSequence_after]
  refine ⟨fun key s hs => readAt_after key hs, fun more key s hs => ?_, fun op e he => ?_⟩
  · rw [performAll_after, readAt_after key hs, readAt_after key (by rw [length_append]; omega),
      take_append_of_le_length hs]
  · obtain ⟨_, h⟩ | ⟨_, h⟩ := perform_cases op
    · rw [h]
    · rw [h] at he
      cases he

end MemoryTablet

end Nulang.Database

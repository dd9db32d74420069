import Nulang.Wal

/-!
# Checkpoints of a tablet

The checkpoint file of `database/checkpoint.rs`: the rows of a tablet with the descriptor they
belong to, framed by a magic number, a length and a checksum. Nothing may follow it.
`loadCheckpoint` accepts it only for a descriptor of the same tablet and range, and then checks all
rows again.

How rows become bytes is the matter of the `Codec`, of which only round trips and the length of its
hash are assumed; the frame is written out. A file that was written for a tablet is accepted for a
descriptor exactly if the descriptor fits and the rows pass their own check (`loadCheckpoint_ok`).
-/

set_option autoImplicit false

namespace Nulang.Database

open Encoding (le ofLe utf8)

inductive CheckpointError where
  /-- The file ends too early (`failed to fill whole buffer`). -/
  | unexpectedEof
  | invalidHeader
  | unsupportedVersion (version : UInt16)
  | tooLarge (size : Nat)
  | checksumMismatch
  | trailingBytes
  | descriptorMismatch
  | staleDescriptorEpoch (checkpoint presented : UInt64)
  | invalidState (reason : String)
  | serialization (message : String)
deriving DecidableEq

def checkpointMagic : Bytes := utf8 "NUDBCKP1"

def checkpointVersion : UInt16 := 1

def maxCheckpointBytes : Nat := 256 * 1024 * 1024

def DiskCheckpoint.ofTablet (t : MemoryTablet) : DiskCheckpoint where
  version := checkpointVersion
  tabletId := t.descriptor.id.value
  ownershipEpoch := t.descriptor.ownershipEpoch
  rangeStart := t.descriptor.range.start
  rangeEnd := t.descriptor.range.stop
  state := t.snapshotState

def checkpointBytes (codec : Codec) (payload : Bytes) : Bytes :=
  checkpointMagic ++ (le 4 payload.length ++ (payload ++ codec.hash payload))

/-- `read_exact`: that many bytes, and what follows them. -/
def readExact (n : Nat) (bytes : Bytes) : Except CheckpointError (Bytes × Bytes) :=
  if bytes.length < n then .error .unexpectedEof else .ok (bytes.take n, bytes.drop n)

def readCheckpoint (codec : Codec) (bytes : Bytes) : Except CheckpointError Bytes := do
  let magic ← readExact 8 bytes
  if magic.1 ≠ checkpointMagic then throw .invalidHeader
  let length ← readExact 4 magic.2
  if maxCheckpointBytes < ofLe length.1 then throw (.tooLarge (ofLe length.1))
  let payload ← readExact (ofLe length.1) length.2
  let checksum ← readExact 32 payload.2
  if checksum.1 ≠ codec.hash payload.1 then throw .checksumMismatch
  if checksum.2.length ≠ 0 then throw .trailingBytes
  return payload.1

def restoreCheckpoint (disk : DiskCheckpoint) (descriptor : TabletDescriptor) :
    Except CheckpointError MemoryTablet :=
  if disk.version ≠ checkpointVersion then .error (.unsupportedVersion disk.version)
  else if disk.tabletId ≠ descriptor.id.value then .error .descriptorMismatch
  else if descriptor.ownershipEpoch < disk.ownershipEpoch then
    .error (.staleDescriptorEpoch disk.ownershipEpoch descriptor.ownershipEpoch)
  else if disk.rangeStart ≠ descriptor.range.start ∨ disk.rangeEnd ≠ descriptor.range.stop then
    .error .descriptorMismatch
  else (MemoryTablet.restoreSnapshot descriptor disk.state).mapError fun e =>
    .invalidState e.message

def loadCheckpoint (codec : Codec) (file : Option Bytes) (descriptor : TabletDescriptor) :
    Except CheckpointError (Option MemoryTablet) :=
  match file with
  | none => .ok none
  | some bytes => do
    let payload ← readCheckpoint codec bytes
    match codec.parseCheckpoint payload with
    | .error message => throw (.serialization message)
    | .ok disk => some <$> restoreCheckpoint disk descriptor

theorem length_checkpointMagic : checkpointMagic.length = 8 := by decide

theorem readExact_append {a b : Bytes} {n : Nat} (h : a.length = n) :
    readExact n (a ++ b) = .ok (a, b) := by
  unfold readExact
  rw [if_neg (by rw [List.length_append]; omega), List.take_left' h, List.drop_left' h]

/-- The frame is read back, if its payload is within the limit. -/
theorem readCheckpoint_checkpointBytes (codec : Codec) {payload : Bytes}
    (h : payload.length ≤ maxCheckpointBytes) :
    readCheckpoint codec (checkpointBytes codec payload) = .ok payload := by
  have hlt : payload.length < 256 ^ 4 := by
    unfold maxCheckpointBytes at h
    omega
  have hlen : ofLe (le 4 payload.length) = payload.length := Encoding.ofLe_le hlt
  have hsum : readExact 32 (codec.hash payload) = .ok (codec.hash payload, []) := by
    have h := readExact_append (b := []) (codec.length_hash payload)
    rwa [List.append_nil] at h
  unfold readCheckpoint checkpointBytes
  simp only [readExact_append length_checkpointMagic, bind, Except.bind,
    readExact_append (Encoding.length_le 4 payload.length), hlen,
    readExact_append (rfl : payload.length = _), hsum,
    Nat.not_lt.mpr h, if_false, ne_eq, not_true_eq_false, List.length_nil]
  rfl

theorem KeyRange.ext {r s : KeyRange} (hstart : r.start = s.start) (hstop : r.stop = s.stop) :
    r = s := by
  cases r
  cases s
  cases hstart
  cases hstop
  rfl

/-- The checks of the source, as the conditions under which a checkpoint of `t` is accepted for
`d`. -/
theorem restoreCheckpoint_ok {t t' : MemoryTablet} {d : TabletDescriptor} :
    restoreCheckpoint (.ofTablet t) d = .ok t' ↔
      d.id = t.descriptor.id ∧ d.range = t.descriptor.range ∧
      ¬ d.ownershipEpoch < t.descriptor.ownershipEpoch ∧
        MemoryTablet.restoreSnapshot d t.snapshotState = .ok t' := by
  have hid : t.descriptor.id.value = d.id.value ↔ d.id = t.descriptor.id := by
    constructor
    · intro h
      rcases hd : d.id with ⟨v, hv⟩
      rcases ht : t.descriptor.id with ⟨w, hw⟩
      simp_all
    · exact fun h => h ▸ rfl
  -- The checks of the source one after the other; each is one conjunct.
  have hrange : d.range = t.descriptor.range ↔
      t.descriptor.range.start = d.range.start ∧ t.descriptor.range.stop = d.range.stop :=
    ⟨fun h => h ▸ ⟨rfl, rfl⟩, fun h => KeyRange.ext h.1.symm h.2.symm⟩
  have herror : ((MemoryTablet.restoreSnapshot d t.snapshotState).mapError
      fun e => CheckpointError.invalidState e.message) = .ok t' ↔
        MemoryTablet.restoreSnapshot d t.snapshotState = .ok t' := by
    cases MemoryTablet.restoreSnapshot d t.snapshotState with
    | error | ok => simp [Except.mapError]
  unfold restoreCheckpoint DiskCheckpoint.ofTablet
  dsimp only
  rw [if_neg (not_not.mpr rfl)]
  by_cases h1 : t.descriptor.id.value = d.id.value
  · rw [if_neg (not_not.mpr h1)]
    by_cases h2 : d.ownershipEpoch < t.descriptor.ownershipEpoch
    · rw [if_pos h2]
      exact ⟨(fun h => by cases h), fun h => absurd h2 h.2.2.1⟩
    · rw [if_neg h2]
      by_cases h3 : t.descriptor.range.start ≠ d.range.start ∨
        t.descriptor.range.stop ≠ d.range.stop
      · rw [if_pos h3]
        refine ⟨(fun h => by cases h), fun h => ?_⟩
        obtain ⟨hstart, hstop⟩ := hrange.mp h.2.1
        exact h3.elim (absurd hstart) (absurd hstop)
      · rw [if_neg h3, herror]
        simp only [ne_eq, not_or, not_not] at h3
        exact ⟨fun h => ⟨hid.mp h1, hrange.mpr h3, h2, h⟩, fun h => h.2.2.2⟩
  · rw [if_pos h1]
    exact ⟨(fun h => by cases h), fun h => absurd (hid.mpr h.1) h1⟩

theorem loadCheckpoint_ok {codec : Codec} {t : MemoryTablet} {d : TabletDescriptor}
    {loaded : Option MemoryTablet}
    (hsize : (codec.checkpoint (.ofTablet t)).length ≤ maxCheckpointBytes) :
    loadCheckpoint codec (some (checkpointBytes codec (codec.checkpoint (.ofTablet t)))) d =
      .ok loaded ↔
      ∃ t', loaded = some t' ∧ restoreCheckpoint (.ofTablet t) d = .ok t' := by
  unfold loadCheckpoint
  dsimp only
  rw [readCheckpoint_checkpointBytes codec hsize]
  simp only [bind, Except.bind, codec.parseCheckpoint_checkpoint]
  cases restoreCheckpoint (.ofTablet t) d with
  | error e =>
    constructor
    · intro h
      cases h
    · rintro ⟨t', _, h⟩
      cases h
  | ok t' =>
    constructor
    · intro h
      cases h
      exact ⟨t', rfl, rfl⟩
    · rintro ⟨_, rfl, h⟩
      cases h
      rfl

end Nulang.Database

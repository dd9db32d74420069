import Nulang.Lib.Encoding
import Nulang.Tablet

/-!
# The write-ahead log of a tablet

The file of `database/wal.rs`: a header with the sequence number the log starts at, then one frame
for each committed batch, each of them with a checksum of its own header and one of its payload.
`decode` is the reading half of `FileWal::open`. It goes through the frames, checks that each record
follows the one before it, and says where to cut the file when the last frame is not complete.

`decode_image` says what it makes of a file that the writer may have left behind: the records of all
complete frames, and the start of the torn one.
-/

set_option autoImplicit false

namespace Nulang.Database

open MemoryTablet Encoding List
open Encoding (le ofLe utf8)

/-- `DiskWalRecord`, the payload of a frame. -/
structure DiskWalRecord where
  version : UInt16
  tabletId : UInt64
  ownershipEpoch : UInt64
  sequence : Nat
  expectedPreviousSequence : Nat
  mutations : List TabletMutation
deriving DecidableEq

/-- `DiskCheckpoint`, the payload of a checkpoint file. -/
structure DiskCheckpoint where
  version : UInt16
  tabletId : UInt64
  ownershipEpoch : UInt64
  rangeStart : Bytes
  rangeEnd : Option Bytes
  state : TabletSnapshotState

/-- What the formats are built on: the hash, and a text form of the payloads that can be read
back. -/
structure Codec where
  hash : Bytes → Bytes
  length_hash : ∀ bytes, (hash bytes).length = 32
  record : DiskWalRecord → Bytes
  parseRecord : Bytes → Except String DiskWalRecord
  parseRecord_record : ∀ disk, parseRecord (record disk) = .ok disk
  checkpoint : DiskCheckpoint → Bytes
  parseCheckpoint : Bytes → Except String DiskCheckpoint
  parseCheckpoint_checkpoint : ∀ disk, parseCheckpoint (checkpoint disk) = .ok disk

structure WalRecord where
  tabletId : TabletId
  ownershipEpoch : UInt64
  sequence : Nat
  expectedPreviousSequence : Nat
  mutations : List TabletMutation
deriving DecidableEq

inductive WalError where
  | invalidHeader
  | walHeaderChecksumMismatch
  | invalidFrameHeader (offset : Nat) (reason : String)
  | unsupportedFrameVersion (offset version : Nat)
  | headerChecksumMismatch (offset : Nat)
  | unsupportedRecordVersion (offset : Nat) (version : UInt16)
  | invalidRecord (offset : Nat) (reason : String)
  | recordTooLarge (offset length : Nat)
  | checksumMismatch (offset : Nat)
  | tabletMismatch (expected presented : TabletId)
  | staleOwnershipEpoch (durable presented : UInt64)
  | sequenceMismatch (committed expectedPrevious : Nat)
  | sequenceOverflow
  | replayRejected (sequence : Nat) (reason : String)
  | checkpointRequired (baseSequence : Nat)
  | checkpointTooOld (checkpoint walBase : Nat)
  | checkpointAheadOfWal (checkpoint walTail : Nat)
  | invalidReclaimSequence (current requested : Nat)
  | poisoned
deriving DecidableEq

def walRecordVersion : UInt16 := 1

def maxWalRecordBytes : Nat := 64 * 1024 * 1024

namespace WalRecord

def fromWrite (write : TabletWrite) : WalRecord :=
  ⟨write.tabletId, write.ownershipEpoch, write.sequence, write.expectedPreviousSequence,
    write.mutations⟩

def fromDisk (disk : DiskWalRecord) (offset : Nat) : Except WalError WalRecord :=
  if disk.version ≠ walRecordVersion then .error (.unsupportedRecordVersion offset disk.version)
  else
    match TabletId.new disk.tabletId with
    | .error _ => .error (.invalidRecord offset "tablet id must be non-zero")
    | .ok tabletId =>
      if disk.ownershipEpoch = 0 then
        .error (.invalidRecord offset "ownership epoch must be non-zero")
      else .ok ⟨tabletId, disk.ownershipEpoch, disk.sequence, disk.expectedPreviousSequence,
        disk.mutations⟩

def toDisk (record : WalRecord) : DiskWalRecord :=
  ⟨walRecordVersion, record.tabletId.value, record.ownershipEpoch, record.sequence,
    record.expectedPreviousSequence, record.mutations⟩

theorem fromDisk_toDisk (record : WalRecord) (offset : Nat) (h : record.ownershipEpoch ≠ 0) :
    fromDisk record.toDisk offset = .ok record := by
  simp [fromDisk, toDisk, TabletId.new, record.tabletId.nonzero, h]

end WalRecord

/-! ## The file format -/

def walMagic : Bytes := utf8 "NUDBWAL3"

def walHeaderPrefixBytes : Nat := 8 + 8 + 8 + 8

def walHeaderBytes : Nat := walHeaderPrefixBytes + 32

def walFrameMagic : Bytes := utf8 "NREC"

def walFrameVersion : Nat := 1

def walFramePrefixBytes : Nat := 4 + 2 + 4

def walFrameHeaderBytes : Nat := walFramePrefixBytes + 32

section Format

variable (codec : Codec)

/-- The fields of the header of the file. A log that no record has been written to names no
tablet. -/
def walHeaderFields (baseSequence : Nat) (tabletId : Option TabletId)
    (ownershipEpoch : Option UInt64) : Bytes :=
  walMagic ++ (le 8 baseSequence ++ (le 8 ((tabletId.map fun id => id.value.toNat).getD 0) ++
    le 8 ((ownershipEpoch.map UInt64.toNat).getD 0)))

def encodeWalHeader (baseSequence : Nat) (tabletId : Option TabletId)
    (ownershipEpoch : Option UInt64) : Bytes :=
  walHeaderFields baseSequence tabletId ownershipEpoch ++
    codec.hash (walHeaderFields baseSequence tabletId ownershipEpoch)

def decodeWalHeader (header : Bytes) : Except WalError (Nat × Option TabletId × Option UInt64) :=
  if header.take 8 ≠ walMagic then .error .invalidHeader
  else if header.drop walHeaderPrefixBytes ≠ codec.hash (header.take walHeaderPrefixBytes) then
    .error .walHeaderChecksumMismatch
  else
    let baseSequence := ofLe ((header.drop 8).take 8)
    let tabletRaw := UInt64.ofNat (ofLe ((header.drop 16).take 8))
    let epochRaw := UInt64.ofNat (ofLe ((header.drop 24).take 8))
    let tabletId := (TabletId.new tabletRaw).toOption
    let ownershipEpoch := if epochRaw = 0 then none else some epochRaw
    if 0 < baseSequence ∧ (tabletId = none ∨ ownershipEpoch = none) then .error .invalidHeader
    else .ok (baseSequence, tabletId, ownershipEpoch)

def frameHeaderFields (payloadLen : Nat) : Bytes :=
  walFrameMagic ++ (le 2 walFrameVersion ++ le 4 payloadLen)

def encodeFrameHeader (payloadLen : Nat) : Bytes :=
  frameHeaderFields payloadLen ++ codec.hash (frameHeaderFields payloadLen)

def decodeFrameHeader (header : Bytes) (offset : Nat) : Except WalError Nat :=
  if header.take 4 ≠ walFrameMagic then .error (.invalidFrameHeader offset "record magic mismatch")
  else if ofLe ((header.drop 4).take 2) ≠ walFrameVersion then
    .error (.unsupportedFrameVersion offset (ofLe ((header.drop 4).take 2)))
  else if header.drop walFramePrefixBytes ≠ codec.hash (header.take walFramePrefixBytes) then
    .error (.headerChecksumMismatch offset)
  else
    let payloadLen := ofLe ((header.drop 6).take 4)
    if maxWalRecordBytes < payloadLen then .error (.recordTooLarge offset payloadLen)
    else .ok payloadLen

def payload (record : WalRecord) : Bytes := codec.record record.toDisk

/-- What `append_write` writes. -/
def frame (record : WalRecord) : Bytes :=
  encodeFrameHeader codec (payload codec record).length ++
    (payload codec record ++ codec.hash (payload codec record))

end Format

/-! ## The log -/

structure FileWal where
  records : List WalRecord
  baseSequence : Nat
  tabletId : Option TabletId
  latestOwnershipEpoch : Option UInt64
  poisoned : Bool

namespace FileWal

def lastSequence (wal : FileWal) : Nat :=
  (wal.records.getLast?.map WalRecord.sequence).getD wal.baseSequence

def push (wal : FileWal) (record : WalRecord) : FileWal :=
  { wal with
    records := wal.records ++ [record]
    tabletId := some record.tabletId
    latestOwnershipEpoch := some record.ownershipEpoch }

@[simp] theorem lastSequence_push (wal : FileWal) (record : WalRecord) :
    (wal.push record).lastSequence = record.sequence := by
  simp [lastSequence, push]

end FileWal

/-- The tablet a record has to be of, if the log names one. -/
def checkTablet (expected : Option TabletId) (presented : TabletId) : Except WalError Unit :=
  match expected with
  | some expected =>
    if presented ≠ expected then .error (.tabletMismatch expected presented) else .ok ()
  | none => .ok ()

def checkEpoch (durable : Option UInt64) (presented : UInt64) : Except WalError Unit :=
  match durable with
  | some durable =>
    if presented < durable then .error (.staleOwnershipEpoch durable presented) else .ok ()
  | none => .ok ()

def checkSequence (record : WalRecord) (lastSequence offset : Nat) : Except WalError Unit :=
  if record.expectedPreviousSequence ≠ lastSequence then
    .error (.sequenceMismatch lastSequence record.expectedPreviousSequence)
  else
    match checkedSucc lastSequence with
    | none => .error .sequenceOverflow
    | some expected =>
      if record.sequence ≠ expected then
        .error (.invalidRecord offset
        s!"sequence {record.sequence} does not follow predecessor {lastSequence}")
      else .ok ()

theorem checkTablet_ok {expected : Option TabletId} {presented : TabletId} :
    checkTablet expected presented = .ok () ↔ ∀ id ∈ expected, presented = id := by
  unfold checkTablet
  cases expected with
  | none => simp
  | some id =>
    by_cases h : presented = id
    · simp [h]
    · simp [h]

theorem checkEpoch_ok {durable : Option UInt64} {presented : UInt64} :
    checkEpoch durable presented = .ok () ↔ ∀ e ∈ durable, ¬ presented < e := by
  unfold checkEpoch
  cases durable with
  | none => simp
  | some e =>
    by_cases h : presented < e
    · simp [h]
    · simp [h, UInt64.not_lt.mp h]

theorem checkSequence_ok {record : WalRecord} {lastSequence offset : Nat} :
    checkSequence record lastSequence offset = .ok () ↔
      record.expectedPreviousSequence = lastSequence ∧
      record.sequence = lastSequence + 1 ∧ record.sequence < 2 ^ 64 := by
  unfold checkSequence
  by_cases hprev : record.expectedPreviousSequence = lastSequence
  · rw [if_neg (not_not.mpr hprev)]
    cases hn : checkedSucc lastSequence with
    | none =>
      refine ⟨(fun h => by cases h), fun h => ?_⟩
      rw [checkedSucc_of_lt (h.2.1 ▸ h.2.2)] at hn
      cases hn
    | some next =>
      obtain ⟨rfl, hlt⟩ := checkedSucc_eq hn
      by_cases hseq : record.sequence = lastSequence + 1
      · dsimp only
        rw [if_neg (not_not.mpr hseq)]
        exact ⟨fun _ => ⟨hprev, hseq, hseq ▸ hlt⟩, fun _ => rfl⟩
      · simp [hseq]
  · simp [hprev]

def validateRecordChain (record : WalRecord) (expectedTablet : Option TabletId)
    (latestOwnershipEpoch : Option UInt64) (lastSequence offset : Nat) : Except WalError Unit := do
  checkTablet expectedTablet record.tabletId
  checkEpoch latestOwnershipEpoch record.ownershipEpoch
  checkSequence record lastSequence offset

namespace FileWal

variable (codec : Codec)

/-- The loop of `open` over the frames, with the log read so far. When the last frame is not
complete, the file has to be cut at its start. -/
def scan (rest : Bytes) (offset : Nat) (wal : FileWal) : Except WalError (FileWal × Option Nat) :=
  if rest.length = 0 then .ok (wal, none)
  else if rest.length < walFrameHeaderBytes then .ok (wal, some offset)
  else do
    let payloadLen ← decodeFrameHeader codec (rest.take walFrameHeaderBytes) offset
    let body := rest.drop walFrameHeaderBytes
    if body.length < payloadLen then .ok (wal, some offset)
    else if (body.drop payloadLen).length < 32 then .ok (wal, some offset)
    else if (body.drop payloadLen).take 32 ≠ codec.hash (body.take payloadLen) then
      .error (.checksumMismatch offset)
    else
      match codec.parseRecord (body.take payloadLen) with
      | .error reason => .error (.invalidRecord offset reason)
      | .ok disk =>
        let record ← WalRecord.fromDisk disk offset
        validateRecordChain record wal.tabletId wal.latestOwnershipEpoch wal.lastSequence offset
        scan ((body.drop payloadLen).drop 32) (offset + (walFrameHeaderBytes + payloadLen + 32))
          (wal.push record)
termination_by rest.length
decreasing_by
  simp only [length_drop]
  unfold walFrameHeaderBytes walFramePrefixBytes at *
  omega

/-- What `open` reads from the bytes of the file: the log, and where to cut the file. -/
def decode (bytes : Bytes) : Except WalError (FileWal × Option Nat) :=
  if bytes.length < walHeaderBytes then .error .invalidHeader
  else do
    let header ← decodeWalHeader codec (bytes.take walHeaderBytes)
    scan codec (bytes.drop walHeaderBytes) walHeaderBytes
      ⟨[], header.1, header.2.1, header.2.2, false⟩

end FileWal

def replayRecords : List WalRecord → MemoryTablet → Except WalError MemoryTablet
  | [], t => .ok t
  | record :: records, t =>
    match t.replayCommitted record.sequence record.expectedPreviousSequence record.mutations with
    | .error e => .error (.replayRejected record.sequence e.message)
    | .ok t => replayRecords records t

namespace FileWal

/-- The tablet the log is of must be the one that is opened, by an owner that is not older than the
last one. -/
def checkOwner (wal : FileWal) (descriptor : TabletDescriptor) : Except WalError Unit := do
  match wal.tabletId with
  | some existing => if existing ≠ descriptor.id then throw (.tabletMismatch descriptor.id existing)
  | none => pure ()
  checkEpoch wal.latestOwnershipEpoch descriptor.ownershipEpoch

theorem checkOwner_ok {wal : FileWal} {descriptor : TabletDescriptor} :
    wal.checkOwner descriptor = .ok () ↔ (∀ id ∈ wal.tabletId, id = descriptor.id) ∧
      ∀ e ∈ wal.latestOwnershipEpoch, ¬ descriptor.ownershipEpoch < e := by
  unfold checkOwner
  rw [← checkEpoch_ok]
  cases wal.tabletId with
  | none => simp
  | some id =>
    by_cases h : id = descriptor.id
    · simp [h]
    · simp [h, bind, Except.bind, throw, throwThe, MonadExceptOf.throw]

/-- `recover_memory_tablet`: without a checkpoint, all of the log. -/
def recoverMemoryTablet (wal : FileWal) (descriptor : TabletDescriptor) :
    Except WalError MemoryTablet := do
  wal.checkOwner descriptor
  if wal.baseSequence ≠ 0 then throw (.checkpointRequired wal.baseSequence)
  replayRecords wal.records (.new descriptor)

/-- `replay_after_checkpoint`: the records newer than the tablet. -/
def replayAfterCheckpoint (wal : FileWal) (t : MemoryTablet) : Except WalError MemoryTablet := do
  if t.currentSequence < wal.baseSequence then
    throw (.checkpointTooOld t.currentSequence wal.baseSequence)
  if wal.lastSequence < t.currentSequence then
    throw (.checkpointAheadOfWal t.currentSequence wal.lastSequence)
  wal.checkOwner t.descriptor
  replayRecords (wal.records.filter fun r => t.currentSequence < r.sequence) t

end FileWal

/-! ## Reading back what was written -/

open FileWal

section Format

variable (codec : Codec)

theorem length_walMagic : walMagic.length = 8 := by decide

theorem length_walFrameMagic : walFrameMagic.length = 4 := by decide

theorem length_walHeaderFields (base : Nat) (id : Option TabletId) (epoch : Option UInt64) :
    (walHeaderFields base id epoch).length = walHeaderPrefixBytes := by
  simp [walHeaderFields, length_walMagic, length_le, walHeaderPrefixBytes]

theorem length_encodeWalHeader (base : Nat) (id : Option TabletId) (epoch : Option UInt64) :
    (encodeWalHeader codec base id epoch).length = walHeaderBytes := by
  rw [encodeWalHeader, length_append, length_walHeaderFields, codec.length_hash, walHeaderBytes]

theorem length_frameHeaderFields (len : Nat) :
    (frameHeaderFields len).length = walFramePrefixBytes := by
  simp [frameHeaderFields, length_walFrameMagic, length_le, walFramePrefixBytes]

theorem length_encodeFrameHeader (len : Nat) :
    (encodeFrameHeader codec len).length = walFrameHeaderBytes := by
  rw [encodeFrameHeader, length_append, length_frameHeaderFields, codec.length_hash,
    walFrameHeaderBytes]

theorem length_frame (record : WalRecord) :
    (frame codec record).length = walFrameHeaderBytes + ((payload codec record).length + 32) := by
  rw [frame, length_append, length_append, length_encodeFrameHeader, codec.length_hash]

/-- A header that a log can have. -/
structure HeaderOk (base : Nat) (id : Option TabletId) (epoch : Option UInt64) : Prop where
  bound : base < 2 ^ 64
  epoch_ne : epoch ≠ some 0
  named : 0 < base → id ≠ none ∧ epoch ≠ none

theorem toOption_tabletId (id : Option TabletId) :
    (TabletId.new (UInt64.ofNat ((id.map fun id => id.value.toNat).getD 0))).toOption = id := by
  cases id with
  | none => rfl
  | some id => simp [TabletId.new, id.nonzero, Except.toOption]

variable {base : Nat} {id : Option TabletId} {epoch : Option UInt64} {d : TabletDescriptor}

/-- A header that could have been written is read back as it was. The identity and the epoch are
stored as 0 when there is none, so neither may be 0. -/
theorem decodeWalHeader_encodeWalHeader (h : HeaderOk base id epoch) :
    decodeWalHeader codec (encodeWalHeader codec base id epoch) = .ok (base, id, epoch) := by
  have hfields : (encodeWalHeader codec base id epoch).take walHeaderPrefixBytes =
      walHeaderFields base id epoch :=
    take_left' (length_walHeaderFields base id epoch)
  have hhash : (encodeWalHeader codec base id epoch).drop walHeaderPrefixBytes =
      codec.hash (walHeaderFields base id epoch) :=
    drop_left' (length_walHeaderFields base id epoch)
  have hmagic : (encodeWalHeader codec base id epoch).take 8 = walMagic := by
    exact take_left' length_walMagic
  have hbase : (encodeWalHeader codec base id epoch).drop 8 = le 8 base ++
      (le 8 ((id.map fun id => id.value.toNat).getD 0) ++ (le 8 ((epoch.map UInt64.toNat).getD 0) ++
        codec.hash (walHeaderFields base id epoch))) :=
    drop_left' length_walMagic
  have hid : (encodeWalHeader codec base id epoch).drop 16 =
      le 8 ((id.map fun id => id.value.toNat).getD 0) ++ (le 8 ((epoch.map UInt64.toNat).getD 0) ++
        codec.hash (walHeaderFields base id epoch)) := by
    rw [← drop_drop (i := 8) (j := 8), hbase]
    exact drop_left' (length_le 8 _)
  have hepoch : (encodeWalHeader codec base id epoch).drop 24 =
      le 8 ((epoch.map UInt64.toNat).getD 0) ++ codec.hash (walHeaderFields base id epoch) := by
    rw [← drop_drop (i := 8) (j := 16), hid]
    exact drop_left' (length_le 8 _)
  have hraw (n : Nat) (hn : n < 2 ^ 64) (rest : Bytes) : ofLe ((le 8 n ++ rest).take 8) = n := by
    rw [take_left' (length_le 8 n)]
    exact ofLe_le hn
  have hidlt : (id.map fun id => id.value.toNat).getD 0 < 2 ^ 64 := by
    cases id with
    | none => decide
    | some id => exact id.value.toNat_lt
  have hepochlt : (epoch.map UInt64.toNat).getD 0 < 2 ^ 64 := by
    cases epoch with
    | none => decide
    | some e => exact e.toNat_lt
  -- Epoch 0 stands for none in the file, and no epoch in a header is 0.
  have hback : (if UInt64.ofNat ((epoch.map UInt64.toNat).getD 0) = 0 then none
      else some (UInt64.ofNat ((epoch.map UInt64.toNat).getD 0))) = epoch := by
    cases epoch with
    | none => rfl
    | some e =>
      have hne : e ≠ 0 := fun he => h.epoch_ne (congrArg some he)
      simp [hne]
  have hnamed : ¬ (0 < base ∧ (id = none ∨ epoch = none)) := by
    rintro ⟨hpos, hnone | hnone⟩
    · exact (h.named hpos).1 hnone
    · exact (h.named hpos).2 hnone
  unfold decodeWalHeader
  rw [if_neg (not_not.mpr hmagic), hfields, hhash, if_neg (not_not.mpr rfl), hbase, hid, hepoch,
    hraw _ h.bound, hraw _ hidlt, hraw _ hepochlt]
  dsimp only
  rw [toOption_tabletId, hback, if_neg hnamed]

theorem decodeFrameHeader_encodeFrameHeader {len : Nat} (offset : Nat)
    (h : len ≤ maxWalRecordBytes) :
    decodeFrameHeader codec (encodeFrameHeader codec len) offset = .ok len := by
  have hfields : (encodeFrameHeader codec len).take walFramePrefixBytes = frameHeaderFields len :=
    take_left' (length_frameHeaderFields len)
  have hhash : (encodeFrameHeader codec len).drop walFramePrefixBytes =
      codec.hash (frameHeaderFields len) :=
    drop_left' (length_frameHeaderFields len)
  have hmagic : (encodeFrameHeader codec len).take 4 = walFrameMagic := by
    exact take_left' length_walFrameMagic
  have hversion : (encodeFrameHeader codec len).drop 4 =
      le 2 walFrameVersion ++ (le 4 len ++ codec.hash (frameHeaderFields len)) :=
    drop_left' length_walFrameMagic
  have hlen : (encodeFrameHeader codec len).drop 6 = le 4 len ++
      codec.hash (frameHeaderFields len) := by
    rw [← drop_drop (i := 2) (j := 4), hversion]
    exact drop_left' (length_le 2 _)
  have hlt : len < 256 ^ 4 := by
    unfold maxWalRecordBytes at h
    omega
  unfold decodeFrameHeader
  rw [if_neg (not_not.mpr hmagic), hfields, hhash, hversion, hlen, take_left' (length_le 2 _),
    take_left' (length_le 4 _), ofLe_le hlt, ofLe_le (by decide)]
  rw [if_neg (not_not.mpr rfl), if_neg (not_not.mpr rfl)]
  exact if_neg (Nat.not_lt.mpr h)

/-- The record can be the next of the log. -/
structure Follows (wal : FileWal) (record : WalRecord) : Prop where
  tablet : ∀ id ∈ wal.tabletId, record.tabletId = id
  epoch : ∀ e ∈ wal.latestOwnershipEpoch, ¬ record.ownershipEpoch < e
  epoch_ne : record.ownershipEpoch ≠ 0
  previous : record.expectedPreviousSequence = wal.lastSequence
  sequence : record.sequence = wal.lastSequence + 1
  bound : record.sequence < 2 ^ 64
  size : (payload codec record).length ≤ maxWalRecordBytes

variable {codec}

variable {wal : FileWal} {record : WalRecord} {torn bytes : Bytes} {records : List WalRecord}
  {n : Nat} {t : MemoryTablet} {history : List (List TabletMutation)}

theorem Follows.validate (h : Follows codec wal record) (offset : Nat) :
    validateRecordChain record wal.tabletId wal.latestOwnershipEpoch wal.lastSequence offset =
      .ok () := by
  unfold validateRecordChain
  rw [checkTablet_ok.mpr h.tablet, checkEpoch_ok.mpr h.epoch]
  exact checkSequence_ok.mpr ⟨h.previous, h.sequence, h.bound⟩

/-- A complete frame that follows the log is read as its record, and the scan goes on behind it. -/
theorem scan_frame (h : Follows codec wal record) (rest : Bytes) (offset : Nat) :
    scan codec (frame codec record ++ rest) offset wal =
      scan codec rest (offset + (frame codec record).length) (wal.push record) := by
  have hlen : (frame codec record ++ rest).length =
      walFrameHeaderBytes + ((payload codec record).length + 32) + rest.length := by
    rw [length_append, length_frame]
  have hassoc :
      frame codec record ++ rest = encodeFrameHeader codec (payload codec record).length ++
      (payload codec record ++ (codec.hash (payload codec record) ++ rest)) := by
    simp only [frame, append_assoc]
  have hheader : (frame codec record ++ rest).take walFrameHeaderBytes =
      encodeFrameHeader codec (payload codec record).length := by
    rw [hassoc]
    exact take_left' (length_encodeFrameHeader codec _)
  have hbody : (frame codec record ++ rest).drop walFrameHeaderBytes =
      payload codec record ++ (codec.hash (payload codec record) ++ rest) := by
    rw [hassoc]
    exact drop_left' (length_encodeFrameHeader codec _)
  have hsum : (codec.hash (payload codec record) ++ rest).take 32 =
      codec.hash (payload codec record) :=
    take_left' (codec.length_hash _)
  have hrest : (codec.hash (payload codec record) ++ rest).drop 32 = rest :=
    drop_left' (codec.length_hash _)
  have hshort : ¬ (payload codec record ++ (codec.hash (payload codec record) ++ rest)).length <
      (payload codec record).length := by
    rw [length_append]
    omega
  have hsumlen : ¬ (codec.hash (payload codec record) ++ rest).length < 32 := by
    rw [length_append, codec.length_hash]
    omega
  -- Every check of the loop passes on a frame that was written as the next one.
  conv_lhs => unfold scan
  rw [if_neg (by rw [hlen]; omega), if_neg (by rw [hlen]; omega), hheader, hbody,
    decodeFrameHeader_encodeFrameHeader codec offset h.size]
  simp only [bind, Except.bind, drop_left, take_left, hshort, hsumlen, hsum, hrest, if_false, ne_eq,
    not_true_eq_false]
  rw [show codec.parseRecord (payload codec record) =
    .ok record.toDisk from codec.parseRecord_record _]
  simp only [WalRecord.fromDisk_toDisk record offset h.epoch_ne, h.validate offset, length_frame,
    Nat.add_assoc]

/-! ## Logs with a torn frame -/

variable (codec) in
/-- What a frame may have left when it was not written to its end. -/
def Torn (torn : Bytes) : Prop :=
  ∃ (record : WalRecord) (n : Nat), (payload codec record).length ≤ maxWalRecordBytes ∧
    n < (frame codec record).length ∧ torn = (frame codec record).take n

/-- Where the file has to be cut. -/
def cutAt (offset : Nat) (torn : Bytes) : Option Nat :=
  if torn.length = 0 then none else some offset

theorem scan_torn (h : torn = [] ∨ Torn codec torn) (offset : Nat) :
    scan codec torn offset wal = .ok (wal, cutAt offset torn) := by
  unfold scan cutAt
  rcases h with rfl | ⟨record, n, hsize, hn, rfl⟩
  · rfl
  · have hlen : ((frame codec record).take n).length = n := by
      rw [length_take]
      omega
    rw [length_frame] at hn
    rw [hlen]
    by_cases hzero : n = 0
    · rw [if_pos hzero, if_pos hzero]
    · rw [if_neg hzero, if_neg hzero]
      by_cases hheader : n < walFrameHeaderBytes
      · rw [if_pos hheader]
      · have htake : ((frame codec record).take n).take walFrameHeaderBytes =
            encodeFrameHeader codec (payload codec record).length := by
          rw [take_take, Nat.min_eq_left (Nat.le_of_not_lt hheader)]
          exact take_left' (length_encodeFrameHeader codec _)
        have hbody : (((frame codec record).take n).drop walFrameHeaderBytes).length =
            n - walFrameHeaderBytes := by
          rw [length_drop, hlen]
        rw [if_neg hheader, htake, decodeFrameHeader_encodeFrameHeader codec offset hsize]
        simp only [bind, Except.bind, length_drop, hlen]
        by_cases hpayload : n - walFrameHeaderBytes < (payload codec record).length
        · rw [if_pos hpayload]
        · rw [if_neg hpayload, if_pos (by omega)]

variable (codec) in
/-- Each record follows the ones before it. -/
inductive Chain : FileWal → List WalRecord → Prop where
  | nil (wal : FileWal) : Chain wal []
  | cons {wal : FileWal} {record : WalRecord} {records : List WalRecord} :
    Follows codec wal record → Chain (wal.push record) records → Chain wal (record :: records)

section

variable (h : Chain codec wal records)
include h

theorem Chain.append (hr : Follows codec (records.foldl push wal) record) :
    Chain codec wal (records ++ [record]) := by
  induction h with
  | nil wal => exact .cons hr (.nil _)
  | cons hf _ ih => exact .cons hf (ih hr)

theorem Chain.lastSequence :
    (records.foldl push wal).lastSequence = wal.lastSequence + records.length := by
  induction h with
  | nil wal => rfl
  | cons hf _ ih =>
    rw [foldl_cons, ih, lastSequence_push, hf.sequence, length_cons]
    omega

theorem Chain.lt_sequence (hr : record ∈ records) : wal.lastSequence < record.sequence := by
  induction h with
  | nil wal => cases hr
  | cons hf _ ih =>
    have hlt := hf.sequence
    rcases mem_cons.mp hr with rfl | hm
    · omega
    · have hrest := ih hm
      rw [lastSequence_push] at hrest
      omega

/-- The records after a sequence number are those that are left when as many are dropped. -/
theorem Chain.filter (hn : wal.lastSequence ≤ n) :
    records.filter (fun r => n < r.sequence) = records.drop (n - wal.lastSequence) := by
  induction h with
  | nil wal => simp
  | @cons wal record records hf hrest ih =>
    have hseq := hf.sequence
    rw [lastSequence_push] at ih
    rcases Nat.eq_or_lt_of_le hn with rfl | hlt
    · rw [Nat.sub_self, drop_zero, filter_eq_self]
      intro r hr
      exact decide_eq_true ((Chain.cons hf hrest).lt_sequence hr)
    · have hdrop : n - wal.lastSequence = (n - record.sequence) + 1 := by omega
      rw [hdrop, drop_succ_cons, filter_cons_of_neg (by simp; omega)]
      exact ih (by omega)

theorem scan_chain (ht : torn = [] ∨ Torn codec torn) (offset : Nat) :
    scan codec (records.flatMap (frame codec) ++ torn) offset wal =
      .ok (records.foldl push wal,
        cutAt (offset + (records.flatMap (frame codec)).length) torn) := by
  induction h generalizing offset with
  | nil wal => exact scan_torn ht offset
  | cons hf _ ih =>
    rw [flatMap_cons, append_assoc, scan_frame hf, ih, length_append, Nat.add_assoc]
    rfl

end

namespace FileWal

def fresh (base : Nat) (id : Option TabletId) (epoch : Option UInt64) : FileWal :=
  ⟨[], base, id, epoch, false⟩

@[simp] theorem baseSequence_foldl (wal : FileWal) :
    (records.foldl push wal).baseSequence = wal.baseSequence := by
  induction records generalizing wal with
  | nil => rfl
  | cons record records ih => exact ih (wal.push record)

@[simp] theorem poisoned_foldl (wal : FileWal) :
    (records.foldl push wal).poisoned = wal.poisoned := by
  induction records generalizing wal with
  | nil => rfl
  | cons record records ih => exact ih (wal.push record)

end FileWal

variable (codec) in
/-- The file holds the log, and then a torn frame. -/
structure Logged (bytes : Bytes) (wal : FileWal) (torn : Bytes) : Prop where
  header : ∃ id epoch, HeaderOk wal.baseSequence id epoch ∧
    Chain codec (.fresh wal.baseSequence id epoch) wal.records ∧
    wal = wal.records.foldl FileWal.push (.fresh wal.baseSequence id epoch) ∧
    bytes = encodeWalHeader codec wal.baseSequence id epoch ++
      (wal.records.flatMap (frame codec) ++ torn)
  torn : torn = [] ∨ Torn codec torn

theorem Logged.fresh (h : HeaderOk base id epoch) :
    Logged codec (encodeWalHeader codec base id epoch) (.fresh base id epoch) [] :=
  ⟨⟨id, epoch, h, .nil _, rfl, by simp [FileWal.fresh]⟩, .inl rfl⟩

section

variable (h : Logged codec bytes wal torn)
include h

theorem decode_logged :
    decode codec bytes = .ok (wal, cutAt (bytes.length - torn.length) torn) := by
  obtain ⟨⟨id, epoch, hok, hchain, hwal, rfl⟩, htorn⟩ := h
  have hlen := length_encodeWalHeader codec wal.baseSequence id epoch
  have hoffset : (encodeWalHeader codec wal.baseSequence id epoch ++
      (wal.records.flatMap (frame codec) ++ torn)).length - torn.length =
        walHeaderBytes + (wal.records.flatMap (frame codec)).length := by
    rw [length_append, length_append, hlen]
    omega
  unfold decode
  rw [if_neg (by rw [length_append, hlen]; omega), take_left' hlen, drop_left' hlen,
    decodeWalHeader_encodeWalHeader codec hok]
  change scan codec _ _ (.fresh wal.baseSequence id epoch) = _
  rw [scan_chain hchain htorn, ← hwal, hoffset]

theorem Logged.truncate : Logged codec (bytes.take (bytes.length - torn.length)) wal [] := by
  obtain ⟨⟨id, epoch, hok, hchain, hwal, hbytes⟩, _⟩ := h
  refine ⟨⟨id, epoch, hok, hchain, hwal, ?_⟩, .inl rfl⟩
  rw [hbytes, ← append_assoc, length_append, Nat.add_sub_cancel, take_left, append_nil]

omit h in
theorem Logged.append (h : Logged codec bytes wal []) (hr : Follows codec wal record) :
    Logged codec (bytes ++ frame codec record) (wal.push record) [] := by
  obtain ⟨⟨id, epoch, hok, hchain, hwal, hbytes⟩, _⟩ := h
  have hfollows :
      Follows codec (wal.records.foldl push (.fresh wal.baseSequence id epoch)) record :=
    hwal ▸ hr
  refine ⟨⟨id, epoch, hok, hchain.append hfollows, ?_, ?_⟩, .inl rfl⟩
  · change wal.push record = (wal.records ++ [record]).foldl push (.fresh wal.baseSequence id epoch)
    rw [foldl_append, ← hwal]
    rfl
  · change _ = encodeWalHeader codec wal.baseSequence id epoch ++
      ((wal.records ++ [record]).flatMap (frame codec) ++ [])
    rw [hbytes]
    simp

omit h in
theorem Logged.tear (h : Logged codec bytes wal [])
    (hsize : (payload codec record).length ≤ maxWalRecordBytes)
    (hn : n < (frame codec record).length) :
    Logged codec (bytes ++ (frame codec record).take n) wal ((frame codec record).take n) := by
  obtain ⟨⟨id, epoch, hok, hchain, hwal, hbytes⟩, _⟩ := h
  refine ⟨⟨id, epoch, hok, hchain, hwal, ?_⟩, .inr ⟨record, n, hsize, hn, rfl⟩⟩
  rw [hbytes]
  simp

omit h in
theorem Follows.headerOk (h : Follows codec wal record) :
    HeaderOk (wal.push record).lastSequence (wal.push record).tabletId
      (wal.push record).latestOwnershipEpoch where
  bound := by
    rw [lastSequence_push]
    exact h.bound
  epoch_ne he := h.epoch_ne (Option.some.inj he)
  named _ := ⟨Option.some_ne_none _, Option.some_ne_none _⟩

omit h in
theorem Chain.headerOk (h : Chain codec wal records)
    (hok : HeaderOk wal.lastSequence wal.tabletId wal.latestOwnershipEpoch) :
    HeaderOk (records.foldl push wal).lastSequence (records.foldl push wal).tabletId
      (records.foldl push wal).latestOwnershipEpoch := by
  induction h with
  | nil wal => exact hok
  | cons hf _ ih => exact ih hf.headerOk

/-- A log can be started anew where this one ends. -/
theorem Logged.headerOk : HeaderOk wal.lastSequence wal.tabletId wal.latestOwnershipEpoch := by
  obtain ⟨⟨id, epoch, hok, hchain, hwal, _⟩, _⟩ := h
  rw [hwal]
  exact hchain.headerOk hok

theorem Logged.lastSequence : wal.lastSequence = wal.baseSequence + wal.records.length := by
  obtain ⟨⟨id, epoch, hok, hchain, hwal, _⟩, _⟩ := h
  have hlast := hchain.lastSequence
  rw [← hwal] at hlast
  exact hlast

theorem Logged.unpoisoned : wal.poisoned = false := by
  obtain ⟨⟨id, epoch, hok, hchain, hwal, _⟩, _⟩ := h
  rw [hwal, poisoned_foldl]
  rfl

end

theorem replayRecords_ok {t' : MemoryTablet} (h : replayRecords records t = .ok t') :
    t' = (records.map WalRecord.mutations).foldl extend t := by
  induction records generalizing t with
  | nil =>
    cases h
    rfl
  | cons record records ih =>
    unfold replayRecords at h
    cases hr :
      t.replayCommitted record.sequence record.expectedPreviousSequence record.mutations with
    | error e => rw [hr] at h; cases h
    | ok next =>
      obtain ⟨_, _, _, _, rfl⟩ := replayCommitted_ok.mp hr
      rw [hr] at h
      exact ih h

theorem MemoryTablet.foldl_after :
    (history.drop n).foldl extend (after d (history.take n)) = after d history := by
  unfold after
  rw [← foldl_append, take_append_drop]

/-- The log holds the history from where it starts. -/
structure Covers (wal : FileWal) (history : List (List TabletMutation)) : Prop where
  le : wal.baseSequence ≤ history.length
  mutations : wal.records.map WalRecord.mutations = history.drop wal.baseSequence

theorem Covers.lastSequence (h : Covers wal history) (hl : Logged codec bytes wal torn) :
    wal.lastSequence = history.length := by
  have hle := h.le
  have hlen := congrArg length h.mutations
  rw [length_map, length_drop] at hlen
  rw [hl.lastSequence, hlen]
  omega

theorem Covers.recover (h : Covers wal history) (hr : wal.recoverMemoryTablet d = .ok t) :
    t = .after d history := by
  unfold recoverMemoryTablet at hr
  cases hc : wal.checkOwner d with
  | error e => rw [hc] at hr; cases hr
  | ok u =>
    rw [hc] at hr
    by_cases hbase : wal.baseSequence = 0
    · simp only [hbase, ne_eq, not_true_eq_false, if_false] at hr
      rw [replayRecords_ok hr, h.mutations, hbase]
      rfl
    · simp only [hbase, ne_eq, not_false_eq_true, if_true] at hr
      cases hr

theorem Covers.replay (h : Covers wal history) (hl : Logged codec bytes wal torn)
    (hn : n ≤ history.length) (hr : wal.replayAfterCheckpoint (.after d (history.take n)) = .ok t) :
    t = .after d history ∧ wal.checkOwner d = .ok () := by
  have hcurrent : (after d (history.take n)).currentSequence = n := by
    rw [currentSequence_after, length_take, Nat.min_eq_left hn]
  unfold replayAfterCheckpoint at hr
  rw [hcurrent] at hr
  by_cases hold : n < wal.baseSequence
  · simp only [hold, if_true] at hr
    cases hr
  · by_cases hahead : wal.lastSequence < n
    · simp only [hold, hahead, if_true, if_false] at hr
      cases hr
    · simp only [hold, hahead, if_false] at hr
      rw [descriptor_after] at hr
      cases hc : wal.checkOwner d with
      | error e => rw [hc] at hr; cases hr
      | ok u =>
        refine ⟨?_, rfl⟩
        rw [hc] at hr
        obtain ⟨⟨id, epoch, _, hchain, _, _⟩, _⟩ := hl
        have hfilter := hchain.filter (n := n) (Nat.le_of_not_lt hold)
        have hlast : (fresh wal.baseSequence id epoch).lastSequence = wal.baseSequence := rfl
        have hdrop : n - wal.baseSequence + wal.baseSequence = n := by omega
        rw [replayRecords_ok hr, hfilter, hlast, map_drop, h.mutations, drop_drop, Nat.add_comm,
          hdrop, foldl_after]

end Format

end Nulang.Database

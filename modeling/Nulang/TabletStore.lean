import Nulang.Lib.Files
import Nulang.Lib.Result
import Nulang.Checkpoint

/-!
# The WAL-backed tablet

`WalBackedTablet` (`database/store.rs`) keeps a tablet in memory, its log and its checkpoint in
files. A commit is validated, then written to the log, then published. A checkpoint writes all rows
to a file of its own, and then starts the log anew behind it.

The process may be killed between any two operations on the files, also in the middle of a string it
writes and while it opens the files again. `OnDisk` says what the files then hold, whichever
operation was the last one: a history of batches, as a log with a base and possibly a checkpoint in
front of it. Every operation keeps the history, except that a commit adds its batch at one point.

Opening may itself be killed, so its postcondition is the same `OnDisk`. The checkpoint is written
to a file of another name, which then takes the place of the old one: there is always one that is
whole.
-/

set_option autoImplicit false

namespace Nulang.Database

open MemoryTablet Files FileWal List Option Handler

open Files (Disk Machine Op perform writeAll replaceFile)

inductive FileName where
  | wal
  | walTemp
  | checkpoint
  | checkpointTemp
deriving DecidableEq

inductive WalBackedError where
  | tablet (e : TabletError)
  | wal (e : WalError)
  | checkpoint (e : CheckpointError)
deriving DecidableEq

structure WalBackedTablet where
  tablet : MemoryTablet
  wal : FileWal

/-- What a method does to the files and to the tablet in memory. -/
abbrev Action (α : Type) : Type :=
  Handler WalBackedError (Machine FileName (Option WalBackedTablet)) Empty α

section Methods

variable (codec : Codec)

namespace FileWal

/-- The handle in memory is poisoned from here on. -/
def poison (wal : FileWal) : Action Unit :=
  keep fun memory => memory.map fun self => { self with wal := { wal with poisoned := true } }

/-- The first half of `open`: a file that is missing or empty gets a header. -/
def create : Action Unit := do
  perform [.touch .wal]
  let m ← Handler.read
  Handler.when ((m.disk.bytes .wal).length = 0)
    (perform (writeAll .wal (encodeWalHeader codec 0 none none) ++ [.sync, .sync]))

/-- The second half of `open`: the file is read, and a torn frame is cut off. -/
def load : Action FileWal := do
  let m ← Handler.read
  let loaded ← Handler.lift ((decode codec (m.disk.bytes .wal)).mapError .wal)
  match loaded.2 with
  | some length => perform [.setLen .wal length, .sync]
  | none => pure ()
  return loaded.1

/-- `FileWal::open`. -/
def «open» : Action FileWal := do
  create codec
  load codec

/-- The checks of `append_write`. -/
def checkAppend (wal : FileWal) (record : WalRecord) (offset : Nat) : Except WalError Unit := do
  if wal.poisoned then throw .poisoned
  checkSequence record wal.lastSequence offset
  checkTablet wal.tabletId record.tabletId
  checkEpoch wal.latestOwnershipEpoch record.ownershipEpoch
  if maxWalRecordBytes < (payload codec record).length then
    throw (.recordTooLarge offset (payload codec record).length)

/-- `append_write`: the frame, then the new tail in memory. -/
def appendWrite (wal : FileWal) (write : TabletWrite) : Action FileWal := do
  let m ← Handler.read
  let record := WalRecord.fromWrite write
  Handler.lift ((wal.checkAppend codec record (m.disk.bytes .wal).length).mapError .wal)
  wal.poison
  perform (writeAll .wal (encodeFrameHeader codec (payload codec record).length) ++
    (writeAll .wal (payload codec record) ++
      writeAll .wal (codec.hash (payload codec record))) ++ [.sync])
  return wal.push record

/-- `reclaim_through`: an empty log takes the place of this one. -/
def reclaimThrough (wal : FileWal) (baseSequence : Nat) : Action FileWal := do
  Handler.require (wal.poisoned = false) (.wal .poisoned)
  Handler.require (baseSequence = wal.lastSequence)
    (.wal (.invalidReclaimSequence wal.lastSequence baseSequence))
  wal.poison
  perform (replaceFile .walTemp .wal
    (encodeWalHeader codec baseSequence wal.tabletId wal.latestOwnershipEpoch))
  FileWal.open codec

end FileWal

/-- `write_checkpoint`. -/
def writeCheckpoint (t : MemoryTablet) : Action Unit := do
  let payload := codec.checkpoint (.ofTablet t)
  Handler.require (payload.length ≤ maxCheckpointBytes) (.checkpoint (.tooLarge payload.length))
  perform (replaceFile .checkpointTemp .checkpoint (checkpointBytes codec payload))

namespace WalBackedTablet

/-- The tablet of the files: the checkpoint or a new one, and the records it does not have. -/
def recover (checkpoint : Option Bytes) (wal : FileWal) (descriptor : TabletDescriptor) :
    Except WalBackedError MemoryTablet := do
  let loaded ← (loadCheckpoint codec checkpoint descriptor).mapError .checkpoint
  let tablet ←
    match loaded with
    | some tablet => pure tablet
    | none => (wal.recoverMemoryTablet descriptor).mapError .wal
  (wal.replayAfterCheckpoint tablet).mapError .wal

def «open» (descriptor : TabletDescriptor) : Action WalBackedTablet := do
  let wal ← FileWal.open codec
  let m ← Handler.read
  let tablet ← Handler.lift (recover codec (m.disk .checkpoint) wal descriptor)
  return ⟨tablet, wal⟩

def commit (self : WalBackedTablet) (write : TabletWrite) : Action Unit := do
  Handler.lift ((self.tablet.validateWrite write).mapError .tablet)
  let wal ← self.wal.appendWrite codec write
  keep fun _ => some ⟨self.tablet.publishValidated write, wal⟩

def publishCheckpoint (self : WalBackedTablet) : Action Unit := writeCheckpoint codec self.tablet

def checkpoint (self : WalBackedTablet) : Action Unit := do
  self.publishCheckpoint codec
  let wal ← self.wal.reclaimThrough codec self.tablet.currentSequence
  keep fun _ => some { self with wal := wal }

end WalBackedTablet

end Methods

section OnDisk

variable (codec : Codec)

/-- The checkpoint the log needs: none if it starts at the beginning, and else one of a part of the
history that reaches to its base. -/
def Anchored (file : Option Bytes) (base : Nat) (history : List (List TabletMutation)) : Prop :=
  (file = none ∧ base = 0) ∨
    ∃ (d : TabletDescriptor) (n : Nat), base ≤ n ∧ n ≤ history.length ∧
      (codec.checkpoint (.ofTablet (.after d (history.take n)))).length ≤ maxCheckpointBytes ∧
      file = some (checkpointBytes codec (codec.checkpoint (.ofTablet (.after d (history.take n)))))

/-- The log and the checkpoint hold the history, and a torn frame follows. -/
structure Synced (disk : Disk FileName) (wal : FileWal) (torn : Bytes)
    (history : List (List TabletMutation)) :
    Prop where
  logged : ∃ bytes, disk .wal = some bytes ∧ Logged codec bytes wal torn
  covers : Covers wal history
  anchored : Anchored codec (disk .checkpoint) wal.baseSequence history

/-- The files hold the history. Before the header of the first log is complete, there is none. -/
inductive OnDisk (disk : Disk FileName) (history : List (List TabletMutation)) : Prop where
  | blank (n : Nat) (hn : n < walHeaderBytes)
      (hwal : disk.bytes .wal = (encodeWalHeader codec 0 none none).take n)
      (hcheckpoint : disk .checkpoint = none)
      (hhistory : history = [])
  | synced (wal : FileWal) (torn : Bytes) (h : Synced codec disk wal torn history)

/-- The open tablet is the history, and its log is the one on the disk. -/
structure Live (disk : Disk FileName) (store : WalBackedTablet)
    (history : List (List TabletMutation)) : Prop where
  synced : Synced codec disk store.wal [] history
  tablet : store.tablet = .after store.tablet.descriptor history
  owner : store.wal.checkOwner store.tablet.descriptor = .ok ()

variable {codec}

variable {torn : Bytes} {disk disk' : Disk FileName} {wal : FileWal}
  {history : List (List TabletMutation)} {store : WalBackedTablet}
  {p : Process (Machine FileName (Option WalBackedTablet)) Empty} {n : Nat}

theorem Synced.congr (h : Synced codec disk wal torn history) (hwal : disk' .wal = disk .wal)
    (hcheckpoint : disk' .checkpoint = disk .checkpoint) : Synced codec disk' wal torn history :=
  ⟨hwal ▸ h.logged, h.covers, hcheckpoint ▸ h.anchored⟩

theorem Live.onDisk (h : Live codec disk store history) : OnDisk codec disk history :=
  .synced store.wal [] h.synced

/-! ## Opening the log -/

variable {bytes : Bytes} {t : MemoryTablet} {record : WalRecord} {base : Nat} {file : Option Bytes}

theorem land_touch_of_some {file : FileName} (h : disk file = some bytes) :
    disk.land (.touch file) = disk := by
  change disk.put file (some ((disk file).getD [])) = disk
  rw [h, getD_some, ← h, Disk.put_eq]

theorem headerOk_zero : HeaderOk 0 none none where
  bound := by decide
  epoch_ne := by decide
  named h := absurd h (Nat.lt_irrefl 0)

theorem ends_create_synced (h : Synced codec p.state.disk wal torn history) :
    (create codec).Ends p (fun q => OnDisk codec q.state.disk history) (fun _ _ => False) fun _ q =>
      q.state = p.state := by
  obtain ⟨bytes, hbytes, hlogged⟩ := id h.logged
  have htouch : p.state.disk.land (.touch .wal) = p.state.disk := land_touch_of_some hbytes
  have hlong : (p.state.disk.bytes .wal).length ≠ 0 := by
    obtain ⟨⟨id, epoch, _, _, _, rfl⟩, _⟩ := hlogged
    rw [Disk.bytes, hbytes, getD_some, length_append, length_encodeWalHeader]
    unfold walHeaderBytes
    omega
  unfold create
  rw [ends_bind]
  refine ends_perform (D := fun d => OnDisk codec d history) (fun n => ?_) fun q hdisk hmemory => ?_
  · have hall : ([Op.touch FileName.wal].take n).foldl Disk.land p.state.disk = p.state.disk := by
      cases n with
      | zero => rfl
      | succ n => simpa using htouch
    rw [hall]
    exact .synced wal torn h
  · have hstate : q.state = p.state := Machine.ext (hdisk.trans htouch) hmemory
    rw [ends_bind, ends_read, ends_when, hstate, if_neg hlong]

theorem synced_fresh (hwal : disk .wal = some (encodeWalHeader codec 0 none none))
    (hcheckpoint : disk .checkpoint = none) : Synced codec disk (.fresh 0 none none) [] [] where
  logged := ⟨_, hwal, .fresh headerOk_zero⟩
  covers := ⟨Nat.le_refl 0, rfl⟩
  anchored := .inl ⟨hcheckpoint, rfl⟩

theorem onDisk_header (hwal : disk.bytes .wal = (encodeWalHeader codec 0 none none).take n)
    (hcheckpoint : disk .checkpoint = none) : OnDisk codec disk [] := by
  by_cases hn : n < walHeaderBytes
  · exact .blank n hn hwal hcheckpoint rfl
  · rw [take_of_length_le (by rw [length_encodeWalHeader]; omega)] at hwal
    refine .synced _ _ (synced_fresh ?_ hcheckpoint)
    unfold Disk.bytes at hwal
    cases hd : disk .wal with
    | none =>
      have hlen := length_encodeWalHeader codec 0 none none
      rw [hd] at hwal
      rw [← hwal] at hlen
      cases hlen
    | some bytes =>
      rw [hd] at hwal
      exact congrArg some hwal

/-- A file without a complete header holds nothing, before and after it gets one. -/
theorem ends_create_blank
    (hwal : p.state.disk.bytes .wal = (encodeWalHeader codec 0 none none).take n)
    (hcheckpoint : p.state.disk .checkpoint = none) :
    (create codec).Ends p (fun q => OnDisk codec q.state.disk []) (fun _ _ => False) fun _ q =>
      OnDisk codec q.state.disk [] := by
  unfold create
  rw [ends_bind]
  refine ends_perform (D := fun d => OnDisk codec d []) (fun k => ?_) fun q hq _ => ?_
  · cases k with
    | zero => exact onDisk_header hwal hcheckpoint
    | succ k =>
      have htake : ([Op.touch FileName.wal].take (k + 1)) = [.touch .wal] := by simp
      have hbytes : (p.state.disk.land (.touch .wal)).bytes .wal = p.state.disk.bytes .wal := rfl
      rw [htake]
      exact onDisk_header (hbytes.trans hwal) hcheckpoint
  · have hdisk : q.state.disk = p.state.disk.put .wal (some (p.state.disk.bytes .wal)) := hq
    have hcheck : q.state.disk .checkpoint = none := by
      rw [hdisk]
      exact hcheckpoint
    have hbytes : q.state.disk.bytes .wal = (encodeWalHeader codec 0 none none).take n := by
      rw [hdisk]
      exact hwal
    rw [ends_bind, ends_read, ends_when]
    -- The header is written only to an empty file: a part of one is left for `decode` to refuse.
    split_ifs with hzero
    · have hempty : q.state.disk .wal = some [] := by
        rw [length_eq_zero_iff.mp hzero] at hbytes
        rw [hdisk, Disk.put_same, hwal, ← hbytes]
      have hpart (k : Nat) : ((writeAll FileName.wal (encodeWalHeader codec 0 none none) ++
          replicate 2 Op.sync).take k).foldl Disk.land q.state.disk =
            q.state.disk.put .wal (some ((encodeWalHeader codec 0 none none).take k)) := by
        rw [foldl_take_sync, take_writeAll, foldl_writeAll _ hempty, nil_append]
      rw [show [Op.sync, Op.sync] = replicate 2 (Op.sync : Op FileName) from rfl]
      refine ends_perform (D := fun d => OnDisk codec d []) (fun k => ?_) fun r hr _ => ?_
      · rw [hpart k]
        exact onDisk_header (n := k) rfl hcheck
      · have hdone := hpart (walHeaderBytes + 2)
        rw [take_of_length_le (by simp [length_writeAll, length_encodeWalHeader]), ← hr] at hdone
        rw [hdone]
        exact onDisk_header (n := walHeaderBytes + 2) rfl hcheck
    · exact onDisk_header hbytes hcheck

/-- A log that is there is read, and a torn frame is cut off. -/
theorem ends_load_synced (h : Synced codec p.state.disk wal torn history) :
    (load codec).Ends p (fun q => OnDisk codec q.state.disk history) (fun _ _ => False)
    fun loaded q =>
      loaded = wal ∧ Synced codec q.state.disk wal [] history ∧
        q.state.disk .checkpoint = p.state.disk .checkpoint ∧ q.state.memory = p.state.memory := by
  obtain ⟨bytes, hbytes, hlogged⟩ := id h.logged
  have hread : p.state.disk.bytes .wal = bytes := by rw [Disk.bytes, hbytes, getD_some]
  have hdecode : (decode codec bytes).mapError WalBackedError.wal =
      .ok (wal, cutAt (bytes.length - torn.length) torn) := by
    rw [decode_logged hlogged]
    rfl
  unfold load
  rw [ends_bind, ends_read, ends_bind, hread, hdecode, ends_lift_ok]
  -- A log without a torn frame is left as it is, any other is cut once and synced.
  by_cases htorn : torn.length = 0
  · obtain rfl := length_eq_zero_iff.mp htorn
    exact ⟨rfl, h, rfl, rfl⟩
  · have hcut : cutAt (bytes.length - torn.length) torn = some (bytes.length - torn.length) :=
      if_neg htorn
    have hset : p.state.disk.land (.setLen .wal (bytes.length - torn.length)) =
        p.state.disk.put .wal (some (bytes.take (bytes.length - torn.length))) := by
      change p.state.disk.put .wal (some ((p.state.disk.bytes .wal).take _)) = _
      rw [hread]
    have hsynced :
        Synced codec (p.state.disk.put .wal (some (bytes.take (bytes.length - torn.length)))) wal []
        history :=
      ⟨⟨_, Disk.put_same _ _ _, hlogged.truncate⟩, h.covers, h.anchored⟩
    rw [hcut, ends_bind]
    refine ends_perform (D := fun d => OnDisk codec d history) (fun n => ?_) fun q hq hmemory => ?_
    · cases n with
      | zero => exact .synced wal torn h
      | succ n =>
        change OnDisk codec
          (((replicate 1 Op.sync).take n).foldl Disk.land (p.state.disk.land _)) history
        rw [take_replicate, foldl_sync, hset]
        exact .synced wal [] hsynced
    · have hdisk :
          q.state.disk = p.state.disk.put .wal (some (bytes.take (bytes.length - torn.length))) :=
        hq.trans hset
      refine ⟨rfl, hdisk ▸ hsynced, ?_, hmemory⟩
      rw [hdisk]
      rfl

theorem ends_load_blank (hn : n < walHeaderBytes)
    (hwal : p.state.disk.bytes .wal = (encodeWalHeader codec 0 none none).take n)
    (K : Process (Machine FileName (Option WalBackedTablet)) Empty → Prop)
    (Q : FileWal → Process (Machine FileName (Option WalBackedTablet)) Empty → Prop) :
    (load codec).Ends p K (fun _ q => q.state = p.state) Q := by
  have hshort : (p.state.disk.bytes .wal).length < walHeaderBytes := by
    rw [hwal, length_take]
    omega
  have hdecode : (decode codec (p.state.disk.bytes .wal)).mapError WalBackedError.wal =
      .error (.wal .invalidHeader) := by
    unfold decode
    rw [if_pos hshort]
    rfl
  unfold load
  rw [ends_bind, ends_read, ends_bind, hdecode, ends_lift_error]

/-- Opening the log keeps the history, whether it returns, fails or is killed. -/
theorem ends_open (h : OnDisk codec p.state.disk history) :
    (FileWal.open codec).Ends p (fun q => OnDisk codec q.state.disk history)
      (fun _ q => OnDisk codec q.state.disk history) fun opened q =>
      Synced codec q.state.disk opened [] history := by
  unfold FileWal.open
  rw [ends_bind]
  cases h with
  | synced wal torn h =>
    refine ends_mono (ends_create_synced h) (fun q hq => hq) (fun _ _ hq => hq.elim)
      fun _ q hq => ?_
    refine ends_mono (ends_load_synced (hq ▸ h)) (fun r hr => hr) (fun _ _ hr => hr.elim) ?_
    rintro opened r ⟨rfl, hr, _⟩
    exact hr
  | blank n hn hwal hcheckpoint hhistory =>
    subst hhistory
    refine ends_mono (ends_create_blank hwal hcheckpoint) (fun q hq => hq) (fun _ _ hq => hq.elim)
      fun _ q hq => ?_
    cases hq with
    | synced wal torn h =>
      refine ends_mono (ends_load_synced h) (fun r hr => hr) (fun _ _ hr => hr.elim) ?_
      rintro opened r ⟨rfl, hr, _⟩
      exact hr
    | blank k hk hw hc hh =>
      refine ends_mono (ends_load_blank hk hw (fun _ => False) fun _ _ => False)
        (fun _ hr => hr.elim)
        (fun _ r hr => ?_) fun _ _ hr => hr.elim
      exact hr ▸ .blank k hk hw hc hh

theorem Synced.recover (h : Synced codec disk wal torn history) {d : TabletDescriptor}
    (hr : WalBackedTablet.recover codec (disk .checkpoint) wal d = .ok t) :
    t = .after d history ∧ wal.checkOwner d = .ok () := by
  obtain ⟨bytes, _, hlogged⟩ := h.logged
  -- the tablet to replay on is that of a part of the history
  suffices hpart : ∃ n, n ≤ history.length ∧
      (wal.replayAfterCheckpoint (.after d (history.take n))).mapError WalBackedError.wal = .ok t by
    obtain ⟨n, hn, hreplay⟩ := hpart
    cases hrep : wal.replayAfterCheckpoint (.after d (history.take n)) with
    | error e => rw [hrep] at hreplay; cases hreplay
    | ok s =>
      rw [hrep] at hreplay
      cases hreplay
      exact h.covers.replay hlogged hn hrep
  unfold WalBackedTablet.recover at hr
  rcases h.anchored with ⟨hnone, hbase⟩ | ⟨d', n, _, hn, hsize, hfile⟩
  · rw [hnone] at hr
    cases hrec : wal.recoverMemoryTablet d with
    | error e =>
      simp only [loadCheckpoint, hrec] at hr
      cases hr
    | ok s =>
      refine ⟨history.length, Nat.le_refl _, ?_⟩
      rw [take_length, ← h.covers.recover hrec]
      simp only [loadCheckpoint, hrec] at hr
      exact hr
  · rw [hfile] at hr
    refine ⟨n, hn, ?_⟩
    cases hload : loadCheckpoint codec (some (checkpointBytes codec
        (codec.checkpoint (.ofTablet (.after d' (history.take n)))))) d with
    | error e => rw [hload] at hr; cases hr
    | ok loaded =>
      obtain ⟨s, rfl, hrestore⟩ := (loadCheckpoint_ok hsize).mp hload
      obtain ⟨_, _, _, hsnapshot⟩ := restoreCheckpoint_ok.mp hrestore
      obtain ⟨rfl, _⟩ := (restoreSnapshot_iff s).mp hsnapshot
      rw [hload, with_descriptor_after] at hr
      exact hr

/-- Opening the files keeps the history, and a tablet that is returned is the history. -/
theorem ends_openTablet (h : OnDisk codec p.state.disk history) (d : TabletDescriptor) :
    (WalBackedTablet.open codec d).Ends p (fun q => OnDisk codec q.state.disk history)
      (fun _ q => OnDisk codec q.state.disk history) fun store q =>
        Live codec q.state.disk store history ∧ store.tablet = .after d history := by
  unfold WalBackedTablet.open
  rw [ends_bind]
  refine ends_mono (ends_open h) (fun q hq => hq) (fun _ q hq => hq) fun wal q hq => ?_
  rw [ends_bind, ends_read, ends_bind]
  cases hr : WalBackedTablet.recover codec (q.state.disk .checkpoint) wal d with
  | error e =>
    exact .synced wal [] hq
  | ok t =>
    obtain ⟨rfl, howner⟩ := hq.recover hr
    have hdescriptor : (after d history).descriptor = d := descriptor_after d history
    refine ⟨⟨hq, ?_, ?_⟩, rfl⟩
    · rw [hdescriptor]
    · rw [hdescriptor]
      exact howner

/-! ## Commits -/

/-- The records that pass the checks are those that can be the next one. -/
theorem checkAppend_ok (offset : Nat) (hne : record.ownershipEpoch ≠ 0) :
    wal.checkAppend codec record offset = .ok () ↔
      wal.poisoned = false ∧ Follows codec wal record := by
  have hsize : (if maxWalRecordBytes < (payload codec record).length then
      .error (.recordTooLarge offset (payload codec record).length)
      else .ok () : Except WalError Unit) = .ok () ↔
        (payload codec record).length ≤ maxWalRecordBytes := by
    split_ifs with h
    · exact ⟨(fun hc => by cases hc), fun hc => absurd h (Nat.not_lt.mpr hc)⟩
    · exact ⟨fun _ => Nat.le_of_not_lt h, fun _ => rfl⟩
  unfold checkAppend
  cases wal.poisoned with
  | true => exact ⟨(fun h => by cases h), fun h => by cases h.1⟩
  | false =>
    refine (seq_eq_ok.trans (checkSequence_ok.and (seq_eq_ok.trans (checkTablet_ok.and
      (seq_eq_ok.trans (checkEpoch_ok.and hsize)))))).trans ?_
    constructor
    · rintro ⟨⟨hprev, hseq, hbound⟩, htablet, hepoch, hsize⟩
      exact ⟨rfl, htablet, hepoch, hne, hprev, hseq, hbound, hsize⟩
    · rintro ⟨_, h⟩
      exact ⟨⟨h.previous, h.sequence, h.bound⟩, h.tablet, h.epoch, h.size⟩

theorem Covers.push (h : Covers wal history) (record : WalRecord) :
    Covers (wal.push record) (history ++ [record.mutations]) where
  le := by
    have hle := h.le
    rw [length_append]
    exact Nat.le_add_right_of_le hle
  mutations := by
    change (wal.records ++ [record]).map WalRecord.mutations = (history ++ [record.mutations]).drop
      wal.baseSequence
    rw [map_append, h.mutations, drop_append_of_le_length h.le]
    rfl

theorem Anchored.append (h : Anchored codec file base history) (batch : List TabletMutation) :
    Anchored codec file base (history ++ [batch]) := by
  rcases h with h | ⟨d, n, hbase, hn, hsize, hfile⟩
  · exact .inl h
  · refine .inr ⟨d, n, hbase, ?_, ?_, ?_⟩
    · rw [length_append]
      exact Nat.le_add_right_of_le hn
    · rwa [take_append_of_le_length hn]
    · rwa [take_append_of_le_length hn]

/-- A part of a frame leaves the history as it is; all of it adds the batch. -/
theorem Synced.appendFrame (h : Synced codec disk wal [] history) (hbytes : disk .wal = some bytes)
    (hr : Follows codec wal record) : (∀ n < (frame codec record).length, OnDisk codec
      (disk.put .wal (some (bytes ++ (frame codec record).take n))) history) ∧
    Synced codec (disk.put .wal (some (bytes ++ frame codec record))) (wal.push record) []
      (history ++ [record.mutations]) := by
  obtain ⟨bytes', hbytes', hlogged⟩ := h.logged
  obtain rfl : bytes' = bytes := some.inj (hbytes'.symm.trans hbytes)
  constructor
  · intro n hn
    exact .synced wal _ ⟨⟨_, Disk.put_same _ _ _, hlogged.tear hr.size hn⟩, h.covers, h.anchored⟩
  · exact ⟨⟨_, Disk.put_same _ _ _, hlogged.append hr⟩, h.covers.push record,
      h.anchored.append record.mutations⟩

/-- An append that is killed may have added its batch, one that fails has changed nothing. -/
theorem ends_appendWrite (h : Synced codec p.state.disk wal [] history) {write : TabletWrite}
    (hne : write.ownershipEpoch ≠ 0) : (wal.appendWrite codec write).Ends p
      (fun q => OnDisk codec q.state.disk history ∨
        OnDisk codec q.state.disk (history ++ [write.mutations]))
      (fun _ q => q.state = p.state) fun next q => next = wal.push (.fromWrite write) ∧
        Synced codec q.state.disk next [] (history ++ [write.mutations]) := by
  obtain ⟨bytes, hbytes, _⟩ := h.logged
  unfold appendWrite
  rw [ends_bind, ends_read, ends_bind]
  cases hc : wal.checkAppend codec (.fromWrite write) (p.state.disk.bytes .wal).length with
  | error e => exact rfl
  | ok u =>
    have hops :
        writeAll FileName.wal (encodeFrameHeader codec (payload codec (.fromWrite write)).length) ++
        (writeAll .wal (payload codec (.fromWrite write)) ++
          writeAll .wal (codec.hash (payload codec (.fromWrite write)))) ++ [Op.sync] =
        writeAll .wal (frame codec (.fromWrite write)) ++ replicate 1 .sync := by
      rw [frame, writeAll_append, writeAll_append]
      rfl
    -- Killed after `n` bytes, the file has the first `n` bytes of the frame at its end.
    have hpart (n : Nat) : ((writeAll FileName.wal (frame codec (.fromWrite write)) ++
        replicate 1 Op.sync).take n).foldl Disk.land p.state.disk =
          p.state.disk.put .wal (some (bytes ++ (frame codec (.fromWrite write)).take n)) := by
      rw [foldl_take_sync, take_writeAll, foldl_writeAll _ hbytes]
    obtain ⟨htorn, hdone⟩ := h.appendFrame hbytes ((checkAppend_ok _ hne).mp hc).2
    have hall {n : Nat} (hn : (frame codec (.fromWrite write)).length ≤ n) :
        p.state.disk.put .wal (some (bytes ++ (frame codec (.fromWrite write)).take n)) =
          p.state.disk.put .wal (some (bytes ++ frame codec (.fromWrite write))) := by
      rw [take_of_length_le hn]
    change (lift (.ok u)).Ends p _ _ _
    rw [ends_lift_ok, ends_bind]
    unfold poison keep
    rw [ends_remember]
    rw [hops, ends_bind]
    refine ends_perform
      (D := fun d => OnDisk codec d history ∨ OnDisk codec d (history ++ [write.mutations]))
      (fun n => ?_)
      fun q hq _ => ?_
    · rw [Process.state_changed, hpart n]
      by_cases hn : n < (frame codec (.fromWrite write)).length
      · exact .inl (htorn n hn)
      · rw [hall (Nat.le_of_not_lt hn)]
        exact .inr (.synced _ _ hdone)
    · have hlast := hpart ((frame codec (.fromWrite write)).length + 1)
      rw [take_of_length_le (by simp [length_writeAll]), hall (Nat.le_succ _)] at hlast
      rw [Process.state_changed, hlast] at hq
      exact ⟨rfl, hq ▸ hdone⟩

theorem ends_commit (h : Live codec p.state.disk store history) (write : TabletWrite) :
    (store.commit codec write).Ends p
      (fun q => OnDisk codec q.state.disk history ∨
        OnDisk codec q.state.disk (history ++ [write.mutations]))
      (fun _ q => q.state = p.state) fun _ q => ∃ next, q.state.memory = some next ∧
        Live codec q.state.disk next (history ++ [write.mutations]) := by
  unfold WalBackedTablet.commit
  rw [ends_bind]
  cases hv : store.tablet.validateWrite write with
  | error e => exact rfl
  | ok u =>
    obtain ⟨hid, hepoch, _, hsequence, _, _⟩ := validateWrite_ok hv
    have hne : write.ownershipEpoch ≠ 0 := hepoch ▸ store.tablet.descriptor.epoch_ne
    change (lift (.ok u)).Ends p _ _ _
    rw [ends_lift_ok, ends_bind]
    refine ends_mono (ends_appendWrite h.synced hne) (fun q hq => hq) (fun _ q hq => hq) ?_
    rintro wal q ⟨rfl, hsynced⟩
    refine ⟨_, rfl, hsynced, ?_, ?_⟩
    · change store.tablet.publishValidated write = .after store.tablet.descriptor
        (history ++ [write.mutations])
      rw [publishValidated_eq hsequence, after_append, ← h.tablet]
    · refine checkOwner_ok.mpr ⟨fun id hid' => ?_, fun e he => ?_⟩
      · cases hid'
        exact hid
      · cases he
        change ¬ store.tablet.descriptor.ownershipEpoch < write.ownershipEpoch
        rw [hepoch]
        exact UInt64.lt_irrefl _

/-- A checkpoint of the whole history is one for every log of it. -/
theorem anchored_all (ht : t = .after t.descriptor history) (hbase : base ≤ history.length)
    (hsize : (codec.checkpoint (.ofTablet t)).length ≤ maxCheckpointBytes)
    (hfile : file = some (checkpointBytes codec (codec.checkpoint (.ofTablet t)))) :
    Anchored codec file base history := by
  refine .inr ⟨t.descriptor, history.length, hbase, Nat.le_refl _, ?_, ?_⟩
  · rwa [take_length, ← ht]
  · rwa [take_length, ← ht]

theorem Live.withCheckpoint (h : Live codec disk store history) (hwal : disk' .wal = disk .wal)
    (hsize : (codec.checkpoint (.ofTablet store.tablet)).length ≤ maxCheckpointBytes)
    (hfile : disk' .checkpoint =
      some (checkpointBytes codec (codec.checkpoint (.ofTablet store.tablet)))) :
    Live codec disk' store history :=
  ⟨⟨hwal ▸ h.synced.logged, h.synced.covers, anchored_all h.tablet h.synced.covers.le hsize hfile⟩,
    h.tablet, h.owner⟩

theorem Live.congr (h : Live codec disk store history) (hwal : disk' .wal = disk .wal)
    (hcheckpoint : disk' .checkpoint = disk .checkpoint) : Live codec disk' store history :=
  ⟨h.synced.congr hwal hcheckpoint, h.tablet, h.owner⟩

/-- Publishing a checkpoint keeps the history. -/
theorem ends_publishCheckpoint (h : Live codec p.state.disk store history) :
    (store.publishCheckpoint codec).Ends p (fun q => OnDisk codec q.state.disk history)
      (fun _ q => q.state = p.state) fun _ q =>
        q.state.memory = p.state.memory ∧ Live codec q.state.disk store history ∧
        (codec.checkpoint (.ofTablet store.tablet)).length ≤ maxCheckpointBytes ∧
        q.state.disk .checkpoint =
          some (checkpointBytes codec (codec.checkpoint (.ofTablet store.tablet))) := by
  unfold WalBackedTablet.publishCheckpoint writeCheckpoint
  rw [ends_bind, ends_require]
  split_ifs with hsize
  · refine ends_replaceFile (D := fun d => OnDisk codec d history) (by decide)
      (fun d hother hfile => ?_)
      fun q hother hfile hmemory => ?_
    · have hwal := hother .wal (by decide) (by decide)
      rcases hfile with hold | hnew
      · exact (h.congr hwal hold).onDisk
      · exact (h.withCheckpoint hwal hsize hnew).onDisk
    · exact ⟨hmemory, h.withCheckpoint (hother .wal (by decide) (by decide)) hsize hfile,
        hsize, hfile⟩
  · exact rfl

/-- The log that starts where this one ends. -/
def FileWal.reclaimed (wal : FileWal) : FileWal :=
  .fresh wal.lastSequence wal.tabletId wal.latestOwnershipEpoch

/-- With a checkpoint of the whole history, an empty log at its end holds it as well. -/
theorem Live.reclaim (h : Live codec disk store history)
    (hwal : disk' .wal =
      some (encodeWalHeader codec store.tablet.currentSequence store.wal.tabletId
        store.wal.latestOwnershipEpoch))
    (hsize : (codec.checkpoint (.ofTablet store.tablet)).length ≤ maxCheckpointBytes)
    (hfile : disk' .checkpoint =
      some (checkpointBytes codec (codec.checkpoint (.ofTablet store.tablet)))) :
    Live codec disk' { store with wal := store.wal.reclaimed } history := by
  obtain ⟨bytes, _, hlogged⟩ := h.synced.logged
  have hlast : store.wal.lastSequence = history.length := h.synced.covers.lastSequence hlogged
  have hcurrent : store.tablet.currentSequence = store.wal.lastSequence := by
    rw [h.tablet, currentSequence_after, hlast]
  refine ⟨⟨⟨_, hwal, ?_⟩, ⟨?_, ?_⟩, ?_⟩, h.tablet, ?_⟩
  · rw [hcurrent]
    exact .fresh hlogged.headerOk
  · exact Nat.le_of_eq hlast
  · change [] = history.drop store.wal.lastSequence
    rw [hlast, drop_length]
  · exact anchored_all h.tablet (Nat.le_of_eq hlast) hsize hfile
  · exact checkOwner_ok.mpr (checkOwner_ok.mp h.owner)

theorem ends_reclaimThrough (h : Live codec p.state.disk store history)
    (hsize : (codec.checkpoint (.ofTablet store.tablet)).length ≤ maxCheckpointBytes)
    (hfile : p.state.disk .checkpoint =
      some (checkpointBytes codec (codec.checkpoint (.ofTablet store.tablet)))) :
    (store.wal.reclaimThrough codec store.tablet.currentSequence).Ends p
      (fun q => OnDisk codec q.state.disk history) (fun _ _ => False) fun wal q =>
        wal = store.wal.reclaimed ∧ Live codec q.state.disk { store with wal := wal } history ∧
        q.state.disk .checkpoint = p.state.disk .checkpoint := by
  obtain ⟨bytes, _, hlogged⟩ := h.synced.logged
  have hcurrent : store.tablet.currentSequence = store.wal.lastSequence := by
    rw [h.tablet, currentSequence_after, h.synced.covers.lastSequence hlogged]
  unfold reclaimThrough
  rw [ends_bind, ends_require, if_pos hlogged.unpoisoned, ends_bind, ends_require,
    if_pos hcurrent, ends_bind]
  unfold poison keep
  rw [ends_remember, ends_bind]
  refine ends_replaceFile (D := fun d => OnDisk codec d history) (by decide)
    (fun d hother hwal => ?_)
    fun q hother hwal _ => ?_
  · have hckpt := hother .checkpoint (by decide) (by decide)
    rcases hwal with hold | hnew
    · exact (h.congr hold hckpt).onDisk
    · exact (h.reclaim hnew hsize (hckpt.trans hfile)).onDisk
  · have hckpt := hother .checkpoint (by decide) (by decide)
    have hlive := h.reclaim hwal hsize (hckpt.trans hfile)
    unfold FileWal.open
    rw [ends_bind]
    refine ends_mono (ends_create_synced hlive.synced) (fun r hr => hr) (fun _ _ hr => hr)
      fun _ r hr => ?_
    refine ends_mono (ends_load_synced (hr ▸ hlive.synced)) (fun r hr => hr) (fun _ _ hr => hr) ?_
    rintro wal q' ⟨rfl, hsynced, hc, _⟩
    refine ⟨rfl, ⟨hsynced, hlive.tablet, hlive.owner⟩, ?_⟩
    rw [hc, hr]
    exact hckpt

/-- Taking a checkpoint keeps the history; one that fails has changed nothing. -/
theorem ends_checkpoint (h : Live codec p.state.disk store history) :
    (store.checkpoint codec).Ends p (fun q => OnDisk codec q.state.disk history)
      (fun _ q => q.state = p.state) fun _ q =>
        q.state.memory = some { store with wal := store.wal.reclaimed } ∧
        Live codec q.state.disk { store with wal := store.wal.reclaimed } history ∧
        (codec.checkpoint (.ofTablet store.tablet)).length ≤ maxCheckpointBytes ∧
        q.state.disk .checkpoint =
          some (checkpointBytes codec (codec.checkpoint (.ofTablet store.tablet))) := by
  unfold WalBackedTablet.checkpoint
  rw [ends_bind]
  refine ends_mono (ends_publishCheckpoint h) (fun q hq => hq) (fun _ q hq => hq) ?_
  rintro _ q ⟨_, hlive, hsize, hfile⟩
  rw [ends_bind]
  refine ends_mono (ends_reclaimThrough hlive hsize hfile) (fun r hr => hr)
    (fun _ _ hr => hr.elim) ?_
  rintro _ r ⟨rfl, hlive', hckpt⟩
  exact ⟨rfl, hlive', hsize, hckpt.trans hfile⟩

end OnDisk

end Nulang.Database

import Nulang.Lib.Format
import Nulang.TabletStore

/-!
# Crashes of a WAL-backed tablet

A world is a disk, the tablet that is open if one is, the batches that have been committed, and the
batch whose commit was running when the process was killed. In every world that calls, crashes and
new attempts to open the files lead to, the files hold the committed batches and possibly the one in
flight (`Reachable.consistent`).

A batch that was in flight and is found again when the files are opened is one of the committed
batches from then on.

What a checkpoint stores can be read back only if no batch touches a key twice
(`snapshot_round_trip_iff`): the two versions such a batch leaves have one sequence number, which
the check of a restored row refuses, and the log that could have replaced the checkpoint is gone.
-/

set_option autoImplicit false

namespace Nulang.Database

open Format WalBackedTablet MemoryTablet Handler

open Files (Disk Machine)

def mutationFormat : Format TabletMutation :=
  (byte.list.pair byte.list.option).map
    (fun p => (p.2.map (TabletMutation.put p.1)).getD (.delete p.1))
    (fun m => (m.key, m.value)) fun m => by
      cases m with
      | put | delete => rfl

def uint16Format : Format UInt16 := nat.map UInt16.ofNat UInt16.toNat fun _ => UInt16.ofNat_toNat

def uint64Format : Format UInt64 := nat.map UInt64.ofNat UInt64.toNat fun _ => UInt64.ofNat_toNat

def recordFormat : Format DiskWalRecord :=
  (uint16Format.pair (uint64Format.pair (uint64Format.pair (nat.pair (nat.pair
    mutationFormat.list))))).map
    (fun p => ⟨p.1, p.2.1, p.2.2.1, p.2.2.2.1, p.2.2.2.2.1, p.2.2.2.2.2⟩)
    (fun r => (r.version, r.tabletId, r.ownershipEpoch, r.sequence, r.expectedPreviousSequence,
      r.mutations))
    fun _ => rfl

def versionFormat : Format VersionedValue :=
  (nat.pair byte.list.option).map (fun p => ⟨p.1, p.2⟩) (fun v => (v.sequence, v.value))
    fun _ => rfl

def rowFormat : Format Row :=
  (byte.list.pair versionFormat.list).map (fun p => ⟨p.1, p.2⟩) (fun r => (r.key, r.versions))
    fun _ => rfl

def checkpointFormat : Format DiskCheckpoint :=
  (uint16Format.pair (uint64Format.pair (uint64Format.pair (byte.list.pair (byte.list.option.pair
    (nat.pair rowFormat.list)))))).map
    (fun p => ⟨p.1, p.2.1, p.2.2.1, p.2.2.2.1, p.2.2.2.2.1, ⟨p.2.2.2.2.2.1, p.2.2.2.2.2.2⟩⟩)
    (fun c =>
      (c.version, c.tabletId, c.ownershipEpoch, c.rangeStart, c.rangeEnd, c.state.currentSequence,
      c.state.rows))
    fun _ => rfl

/-- The bytes as the digits of a number, cut to 256 bits: it tells any two payloads of up to thirty
bytes apart. -/
def digits (bytes : Bytes) : Nat := bytes.foldl (fun n b => (257 * n + b.toNat + 1) % 2 ^ 256) 0

/-- Payloads that are read back, with a checksum that depends on all their bytes. -/
def plainCodec : Codec where
  hash bytes := Encoding.le 32 (digits bytes)
  length_hash _ := Encoding.length_le 32 _
  record := recordFormat.put
  parseRecord := recordFormat.parse
  parseRecord_record := recordFormat.parse_put
  checkpoint := checkpointFormat.put
  parseCheckpoint := checkpointFormat.parse
  parseCheckpoint_checkpoint := checkpointFormat.parse_put

/-! ## Worlds -/

inductive Call where
  | commit (write : TabletWrite)
  | publishCheckpoint
  | checkpoint

def Call.batch : Call → Option (List TabletMutation)
  | .commit write => some write.mutations
  | .publishCheckpoint => none
  | .checkpoint => none

def Call.run (codec : Codec) (store : WalBackedTablet) : Call → Action Unit
  | .commit write => store.commit codec write
  | .publishCheckpoint => store.publishCheckpoint codec
  | .checkpoint => store.checkpoint codec

structure World where
  disk : Disk FileName
  store : Option WalBackedTablet
  acked : List (List TabletMutation)
  inFlight : Option (List TabletMutation)

namespace World

/-- Nothing has been written yet. -/
def start : World := ⟨fun _ => none, none, [], none⟩

/-- What a call leaves behind. -/
def called (w : World) (call : Call) :
    Except (Halt WalBackedError) Unit × Process (Machine FileName (Option WalBackedTablet))
      Empty → World
  | (.ok _, q) => ⟨q.state.disk, q.state.memory, w.acked ++ call.batch.toList, none⟩
  | (.error (.failed _), q) => ⟨q.state.disk, q.state.memory, w.acked, none⟩
  | (.error .killed, q) => ⟨q.state.disk, none, w.acked, call.batch⟩

/-- What an attempt to open the files leaves behind. The batch in flight counts as committed if it
is found. -/
def reopened (w : World) :
    Except (Halt WalBackedError) WalBackedTablet ×
      Process (Machine FileName (Option WalBackedTablet)) Empty → World
  | (.ok store, q) =>
    ⟨q.state.disk, some store,
      if store.tablet.currentSequence = w.acked.length then w.acked
      else w.acked ++ w.inFlight.toList, none⟩
  | (.error _, q) => ⟨q.state.disk, none, w.acked, w.inFlight⟩

/-- A call on the open tablet, by a process that makes so many writes before it is killed. -/
def call (codec : Codec) (w : World) (call : Call) (writes : Option Nat) : World :=
  match w.store with
  | none => w
  | some store => w.called call ((call.run codec store).exec ⟨⟨w.disk, some store⟩, [], writes⟩)

/-- Open the files, for the owner the descriptor names. -/
def openFiles (codec : Codec) (w : World) (descriptor : TabletDescriptor) (writes : Option Nat) :
    Except (Halt WalBackedError) WalBackedTablet ×
      Process (Machine FileName (Option WalBackedTablet)) Empty :=
  (WalBackedTablet.open codec descriptor).exec ⟨⟨w.disk, none⟩, [], writes⟩

end World

/-- The worlds that are reached: any calls, with any write as the last one before a crash, and any
descriptors. -/
inductive Reachable (codec : Codec) : World → Prop where
  | start : Reachable codec .start
  | call {w : World} (h : Reachable codec w) (call : Call) (writes : Option Nat) :
    Reachable codec (w.call codec call writes)
  | reopen {w : World} (h : Reachable codec w) (descriptor : TabletDescriptor)
      (writes : Option Nat) :
    Reachable codec (w.reopened (w.openFiles codec descriptor writes))

/-- The files hold the committed batches, possibly with the one in flight, and an open tablet is all
of them. -/
structure World.Consistent (codec : Codec) (w : World) : Prop where
  onDisk : ∃ history, OnDisk codec w.disk history ∧
    (history = w.acked ∨ ∃ batch, w.inFlight = some batch ∧ history = w.acked ++ [batch])
  live : ∀ store ∈ w.store, Live codec w.disk store w.acked

variable {codec : Codec}

theorem World.Consistent.of_live {disk : Disk FileName} {store : WalBackedTablet}
    {acked : List (List TabletMutation)} (h : Live codec disk store acked) :
    World.Consistent codec ⟨disk, some store, acked, none⟩ where
  onDisk := ⟨acked, h.onDisk, .inl rfl⟩
  live _ hs := by
    cases hs
    exact h

variable {w : World}

theorem World.Consistent.of_ends {call : Call} {x : Action Unit}
    {p : Process (Machine FileName (Option WalBackedTablet)) Empty}
    (h : x.Ends p (fun q => OnDisk codec q.state.disk w.acked ∨ ∃ batch, call.batch = some batch ∧
      OnDisk codec q.state.disk (w.acked ++ [batch]))
        (fun _ q => ∃ store, q.state.memory = some store ∧ Live codec q.state.disk store w.acked)
        fun _ q => ∃ store, q.state.memory = some store ∧
          Live codec q.state.disk store (w.acked ++ call.batch.toList)) :
    (w.called call (x.exec p)).Consistent codec := by
  unfold Handler.Ends at h
  revert h
  rcases x.exec p with ⟨(_ | e) | a, q⟩
  · rintro (hdisk | ⟨batch, hbatch, hdisk⟩)
    · exact ⟨⟨_, hdisk, .inl rfl⟩, fun _ hs => by cases hs⟩
    · exact ⟨⟨_, hdisk, .inr ⟨batch, hbatch, rfl⟩⟩, fun _ hs => by cases hs⟩
  · rintro ⟨store, hmemory, hlive⟩
    unfold World.called
    dsimp only
    rw [hmemory]
    exact .of_live hlive
  · rintro ⟨store, hmemory, hlive⟩
    unfold World.called
    dsimp only
    rw [hmemory]
    exact .of_live hlive

theorem World.Consistent.call (h : w.Consistent codec) (call : Call) (writes : Option Nat) :
    (w.call codec call writes).Consistent codec := by
  unfold World.call
  cases hs : w.store with
  | none => exact h
  | some store =>
    have hlive := h.live store hs
    have hsame {q : Process (Machine FileName (Option WalBackedTablet)) Empty}
        (hq : q.state = ⟨w.disk, some store⟩) :
        ∃ s, q.state.memory = some s ∧ Live codec q.state.disk s w.acked := by
      rw [hq]
      exact ⟨store, rfl, hlive⟩
    refine World.Consistent.of_ends ?_
    cases call with
    | commit write =>
      refine ends_mono (ends_commit hlive write) ?_ (fun _ _ hq => hsame hq) fun _ _ hq => hq
      rintro q (hq | hq)
      · exact .inl hq
      · exact .inr ⟨_, rfl, hq⟩
    | publishCheckpoint =>
      refine ends_mono (ends_publishCheckpoint hlive) (fun _ hq => .inl hq)
        (fun _ _ hq => hsame hq) ?_
      rintro _ q ⟨hmemory, hq, _⟩
      refine ⟨store, hmemory, ?_⟩
      rw [Call.batch, Option.toList_none, List.append_nil]
      exact hq
    | checkpoint =>
      refine ends_mono (ends_checkpoint hlive) (fun _ hq => .inl hq) (fun _ _ hq => hsame hq) ?_
      rintro _ q ⟨hmemory, hq, _⟩
      refine ⟨_, hmemory, ?_⟩
      rw [Call.batch, Option.toList_none, List.append_nil]
      exact hq

theorem World.Consistent.openFiles (h : w.Consistent codec) (d : TabletDescriptor)
    (writes : Option Nat) :
    ∃ history,
      (history = w.acked ∨ ∃ batch, w.inFlight = some batch ∧ history = w.acked ++ [batch]) ∧
      OnDisk codec (w.openFiles codec d writes).2.state.disk history ∧
      ∀ store, (w.openFiles codec d writes).1 = .ok store →
        Live codec (w.openFiles codec d writes).2.state.disk store history ∧
          store.tablet = .after d history := by
  obtain ⟨history, hdisk, hhistory⟩ := h.onDisk
  have hends := ends_openTablet (p := ⟨⟨w.disk, none⟩, [], writes⟩) hdisk d
  refine ⟨history, hhistory, ?_⟩
  unfold Handler.Ends at hends
  unfold World.openFiles
  revert hends
  rcases (WalBackedTablet.open codec d).exec ⟨⟨w.disk, none⟩, [], writes⟩ with ⟨(_ | e) | store, q⟩
  · exact fun hq => ⟨hq, fun _ hs => by cases hs⟩
  · exact fun hq => ⟨hq, fun _ hs => by cases hs⟩
  · intro hq
    refine ⟨hq.1.onDisk, fun s hs => ?_⟩
    cases hs
    exact hq

theorem World.Consistent.reopen (h : w.Consistent codec) (d : TabletDescriptor)
    (writes : Option Nat) : (w.reopened (w.openFiles codec d writes)).Consistent codec := by
  obtain ⟨history, hhistory, hdisk, hok⟩ := h.openFiles d writes
  revert hdisk hok
  rcases w.openFiles codec d writes with ⟨e | store, q⟩
  · intro hdisk _
    exact ⟨⟨history, hdisk, hhistory⟩, fun _ hs => by cases hs⟩
  · intro _ hok
    obtain ⟨hlive, htablet⟩ := hok store rfl
    -- the number of batches says which of the two histories was found
    have hchoice : (if store.tablet.currentSequence = w.acked.length then w.acked
        else w.acked ++ w.inFlight.toList) = history := by
      rw [htablet, currentSequence_after]
      rcases hhistory with rfl | ⟨batch, hbatch, rfl⟩
      · rw [if_pos rfl]
      · rw [if_neg (by simp), hbatch]
        rfl
    unfold World.reopened
    dsimp only
    rw [hchoice]
    exact .of_live hlive

theorem Reachable.consistent (h : Reachable codec w) : w.Consistent codec := by
  induction h with
  | start =>
    refine ⟨⟨[], ?_, .inl rfl⟩, fun _ hs => by cases hs⟩
    exact .blank 0 (by decide) rfl rfl rfl
  | call _ call writes ih => exact ih.call call writes
  | reopen _ d writes ih => exact ih.reopen d writes

/-- Whatever has happened before, a tablet that is opened is the committed batches in their order,
possibly with the one whose commit was in flight. -/
theorem recovers_acknowledged {w : World} (h : Reachable codec w) {d : TabletDescriptor}
    {writes : Option Nat} {store : WalBackedTablet}
    (hopen : (w.openFiles codec d writes).1 = .ok store) :
    ∃ history,
      (history = w.acked ∨ ∃ batch, w.inFlight = some batch ∧ history = w.acked ++ [batch]) ∧
      store.tablet.currentSequence = (after d history).currentSequence ∧
      ∀ key snapshot, store.tablet.readAt key snapshot = (after d history).readAt key snapshot := by
  obtain ⟨history, hhistory, _, hok⟩ := h.consistent.openFiles d writes
  obtain ⟨_, htablet⟩ := hok store hopen
  exact ⟨history, hhistory, by rw [htablet], fun key snapshot => by rw [htablet]⟩

section Example

/-- A tablet of all keys. -/
def allKeys : TabletDescriptor := ⟨⟨7, by decide⟩, ⟨[], none, fun _ h => by cases h⟩, 1, by decide⟩

/-- The first commit on a new disk, killed when the header of its frame and a part of the payload
are written. -/
def tornCommit : World :=
  (World.start.reopened (World.start.openFiles plainCodec allKeys none)).call plainCodec
    (.commit ⟨allKeys.id, 1, 1, 0, [.put [1] [2]]⟩) (some 50)

theorem recovers_torn_commit : tornCommit.inFlight = some [.put [1] [2]] ∧
    ∃ store, (tornCommit.openFiles plainCodec allKeys none).1 = .ok store ∧
      ∃ history, (history = tornCommit.acked ∨
          ∃ batch, tornCommit.inFlight = some batch ∧ history = tornCommit.acked ++ [batch]) ∧
        store.tablet.currentSequence = (after allKeys history).currentSequence ∧
        ∀ key snapshot, store.tablet.readAt key snapshot =
          (after allKeys history).readAt key snapshot := by
  have hok : (tornCommit.openFiles plainCodec allKeys none).1.toOption.isSome = true := by
    decide +kernel
  refine ⟨by decide +kernel, ?_⟩
  cases hopen : (tornCommit.openFiles plainCodec allKeys none).1 with
  | error e =>
    rw [hopen] at hok
    cases hok
  | ok store => exact ⟨store, rfl, recovers_acknowledged (.call (.reopen .start _ _) _ _) hopen⟩

end Example

/-! ## Checkpoints that cannot be read back -/

section Reopen

instance : Std.Refl fun _ _ : Process (Machine FileName (Option WalBackedTablet)) Empty => True :=
  ⟨fun _ => trivial⟩

instance : IsTrans (Process (Machine FileName (Option WalBackedTablet)) Empty) fun _ _ => True :=
  ⟨fun _ _ _ _ _ => trivial⟩

/-- Without a crash, the files are opened or they are refused. -/
theorem steady_openTablet (codec : Codec) (d : TabletDescriptor) :
    Steady (fun _ _ => True) True (WalBackedTablet.open codec d) := by
  have hperform (ops : List (Files.Op FileName)) :
      Steady (fun _ _ => True) True (Files.perform ops : Action Unit) :=
    Files.steady_perform (fun _ _ => trivial)
  have hcreate : Steady (fun _ _ => True) True (FileWal.create codec) :=
    (hperform _).bind fun _ => .read fun _ => .when fun _ => hperform _
  have hload : Steady (fun _ _ => True) True (FileWal.load codec) := by
    refine .read fun m => (Steady.lift trivial _).bind fun loaded => ?_
    cases loaded.2 with
    | none => exact (Steady.pure ()).bind fun _ => .pure _
    | some length => exact (hperform _).bind fun _ => .pure _
  exact (hcreate.bind fun _ => hload).bind fun wal =>
    .read fun m => (Steady.lift trivial _).bind fun t => .pure _

variable {store : WalBackedTablet}

/-- The files of an open tablet are opened again if they can be recovered. -/
theorem ends_openTablet_live {p : Process (Machine FileName (Option WalBackedTablet)) Empty}
    {history : List (List TabletMutation)} (h : Live codec p.state.disk store history)
    {d : TabletDescriptor} {t : MemoryTablet}
    (hr : recover codec (p.state.disk .checkpoint) store.wal d = .ok t) :
    (WalBackedTablet.open codec d).Ends p (fun _ => True) (fun _ _ => False) fun _ _ => True := by
  unfold WalBackedTablet.open FileWal.open
  rw [ends_bind, ends_bind]
  refine ends_mono (ends_create_synced h.synced) (fun _ _ => trivial) (fun _ _ hq => hq)
    fun _ q hq => ?_
  refine ends_mono (ends_load_synced (hq ▸ h.synced)) (fun _ _ => trivial) (fun _ _ hq => hq) ?_
  rintro wal r ⟨rfl, _, hcheckpoint, _⟩
  rw [ends_bind, ends_read, ends_bind, hcheckpoint, hq, hr, ends_lift_ok]
  trivial

/-- After a checkpoint, the tablet is what the checkpoint is restored to. -/
theorem recover_reclaimed {disk : Disk FileName} {history : List (List TabletMutation)}
    (h : Live codec disk { store with wal := store.wal.reclaimed } history)
    (hsize : (codec.checkpoint (.ofTablet store.tablet)).length ≤ maxCheckpointBytes)
    (hfile : disk .checkpoint =
      some (checkpointBytes codec (codec.checkpoint (.ofTablet store.tablet))))
    (hr : restoreSnapshot store.tablet.descriptor store.tablet.snapshotState = .ok store.tablet) :
    recover codec (disk .checkpoint) store.wal.reclaimed store.tablet.descriptor =
      .ok store.tablet := by
  have hload : loadCheckpoint codec (disk .checkpoint) store.tablet.descriptor =
      .ok (some store.tablet) := by
    rw [hfile]
    exact (loadCheckpoint_ok hsize).mpr
      ⟨_, rfl, restoreCheckpoint_ok.mpr ⟨rfl, rfl, UInt64.lt_irrefl _, hr⟩⟩
  obtain ⟨bytes, _, hlogged⟩ := h.synced.logged
  have hbase : store.wal.reclaimed.baseSequence = store.wal.reclaimed.lastSequence := rfl
  have hcurrent : store.tablet.currentSequence = store.wal.reclaimed.lastSequence := by
    rw [h.tablet, currentSequence_after]
    exact (h.synced.covers.lastSequence hlogged).symm
  have hreplay : store.wal.reclaimed.replayAfterCheckpoint store.tablet = .ok store.tablet := by
    have howner : store.wal.reclaimed.checkOwner store.tablet.descriptor = .ok () := h.owner
    unfold FileWal.replayAfterCheckpoint
    rw [hcurrent, hbase, howner]
    simp only [Nat.lt_irrefl, if_false]
    rfl
  unfold recover
  rw [hload]
  change (store.wal.reclaimed.replayAfterCheckpoint store.tablet).mapError WalBackedError.wal = _
  rw [hreplay]
  rfl

/-- After a checkpoint, the files are opened again if the snapshot of the tablet can be restored. -/
theorem opens_after_checkpoint {w : World} (h : Reachable codec w) (hstore : w.store = some store)
    (hok : ((store.checkpoint codec).exec ⟨⟨w.disk, some store⟩, [], none⟩).1 = .ok ())
    (hr : restoreSnapshot store.tablet.descriptor store.tablet.snapshotState = .ok store.tablet) :
    ∃ opened, ((w.call codec .checkpoint none).openFiles codec store.tablet.descriptor none).1 =
      .ok opened := by
  have hlive : Live codec w.disk store w.acked := h.consistent.live store hstore
  have hends := ends_checkpoint (p := ⟨⟨w.disk, some store⟩, [], none⟩) hlive
  have hcall : w.call codec .checkpoint none =
      w.called .checkpoint ((store.checkpoint codec).exec ⟨⟨w.disk, some store⟩, [], none⟩) := by
    unfold World.call
    rw [hstore]
    rfl
  unfold Handler.Ends at hends
  rw [hcall]
  revert hends hok
  rcases (store.checkpoint codec).exec ⟨⟨w.disk, some store⟩, [], none⟩ with ⟨(_ | e) | u, q⟩
  · intro hok
    cases hok
  · intro hok
    cases hok
  · rintro _ ⟨_, hlive', hsize, hfile⟩
    have hends := ends_openTablet_live (p := ⟨⟨q.state.disk, none⟩, [], none⟩) hlive'
      (recover_reclaimed hlive' hsize hfile hr)
    have hunkilled := (steady_openTablet codec store.tablet.descriptor).unkilled
      (p := ⟨⟨q.state.disk, none⟩, [], none⟩) rfl
    unfold Handler.Ends at hends
    unfold World.openFiles World.called
    revert hends hunkilled
    rcases (WalBackedTablet.open codec store.tablet.descriptor).exec
      ⟨⟨q.state.disk, none⟩, [], none⟩ with
      ⟨(_ | e) | opened, r⟩
    · exact fun _ hne => absurd rfl hne
    · exact fun hfalse _ => hfalse.elim
    · exact fun _ _ => ⟨opened, rfl⟩

end Reopen

/-- A snapshot of a reached tablet is restored, with the same sequence number and the same reads,
and the tablet can be opened after a checkpoint, exactly when no committed batch touches a key
twice. -/
theorem snapshot_round_trip_iff {d : TabletDescriptor} {t : MemoryTablet}
    {batches : List (List TabletMutation)} (h : Committed d t batches) :
    ((∃ t', restoreSnapshot d t.snapshotState = .ok t' ∧ t'.currentSequence = t.currentSequence ∧
        ∀ key snapshot, snapshot ≤ t.currentSequence →
          t'.readAt key snapshot = t.readAt key snapshot) ∧
      ∀ (codec : Codec) (w : World) (store : WalBackedTablet), Reachable codec w →
        w.store = some store →
        store.tablet = t →
        ((store.checkpoint codec).exec ⟨⟨w.disk, some store⟩, [], none⟩).1 = .ok () →
        ∃ opened, ((w.call codec .checkpoint none).openFiles codec d none).1 = .ok opened) ↔
      Distinct batches := by
  obtain ⟨rfl, hwithin⟩ := h.eq_after
  have hd : (after d batches).descriptor = d := descriptor_after d batches
  constructor
  · rintro ⟨⟨t', hrestore, _⟩, _⟩
    exact ((restoreSnapshot_after hwithin t').mp hrestore).2
  · intro hdistinct
    have hrestore := (restoreSnapshot_after hwithin _).mpr ⟨rfl, hdistinct⟩
    refine ⟨⟨_, hrestore, rfl, fun _ _ _ => rfl⟩, ?_⟩
    intro codec w store hreach hstore htablet hok
    have hopens := opens_after_checkpoint hreach hstore hok (by rw [htablet, hd]; exact hrestore)
    rwa [htablet, hd] at hopens

/-- The tablet after one batch that puts two keys. -/
theorem snapshot_round_trip_two_keys :
    Distinct [[.put [1] [2], .delete [3]]] ∧
      ∃ t', restoreSnapshot allKeys
        (after allKeys [[.put [1] [2], .delete [3]]]).snapshotState = .ok t' := by
  have hcommitted : Committed allKeys (.after allKeys [[.put [1] [2], .delete [3]]])
      [[.put [1] [2], .delete [3]]] := by
    have hprepare : (new allKeys).prepareWrite 1 0 [.put [1] [2], .delete [3]] =
      .ok ⟨allKeys.id, 1, 1, 0, [.put [1] [2], .delete [3]]⟩ := rfl
    exact .commit .new hprepare rfl
  have hdistinct : Distinct [[.put [1] [2], .delete [3]]] := by
    intro b hb
    rw [List.mem_singleton.mp hb]
    decide
  obtain ⟨⟨t', hrestore, _⟩, _⟩ := (snapshot_round_trip_iff hcommitted).mpr hdistinct
  exact ⟨hdistinct, t', hrestore⟩

/-- A batch that puts a key and deletes it again, then a checkpoint. -/
def doubledKey : World :=
  ((World.start.reopened (World.start.openFiles plainCodec allKeys none)).call plainCodec
    (.commit ⟨allKeys.id, 1, 1, 0, [.put [1] [2], .delete [1]]⟩) none).call plainCodec
    .checkpoint none

/-- The snapshot of such a tablet is refused, and so it cannot be opened again. -/
theorem snapshot_refused : Committed allKeys (.after allKeys [[.put [1] [2], .delete [1]]])
      [[.put [1] [2], .delete [1]]] ∧
    restoreSnapshot allKeys
      (after allKeys [[.put [1] [2], .delete [1]]]).snapshotState = .error .invalidSnapshotHistory ∧
    Reachable plainCodec doubledKey ∧ doubledKey.acked = [[.put [1] [2], .delete [1]]] ∧
    (doubledKey.openFiles plainCodec allKeys none).1.toOption.isSome = false := by
  have hprepare : (new allKeys).prepareWrite 1 0 [.put [1] [2], .delete [1]] =
    .ok ⟨allKeys.id, 1, 1, 0, [.put [1] [2], .delete [1]]⟩ := rfl
  refine ⟨.commit .new hprepare rfl, rfl, ?_, by decide +kernel, by decide +kernel⟩
  exact .call (.call (.reopen .start _ _) _ _) _ _

end Nulang.Database

import Nulang.NuDb

/-!
# A log that is cut anywhere

Whatever the methods of the log have made of its file, a part of the file that has the whole header
is opened as the records whose frames are whole in it (`truncated_log_recovers`), and the log can be
carried on from there.

`Produced` has the files that calls which return have made: new logs, appends, reclaims, and
openings again. What a crash in between leaves is the matter of `TabletStore`; here the file may be
cut at any byte. Files that were changed otherwise are not spoken of.
-/

set_option autoImplicit false

namespace Nulang.Database

open FileWal List Handler

open Files (Disk perform writeAll replaceFile)

/-! ## Methods that are not interrupted -/

/-- The method returns this and leaves this disk behind. -/
def Returns {α : Type} (x : Action α) (disk : Disk FileName) (a : α) (disk' : Disk FileName) :
    Prop :=
  x.exec ⟨⟨disk, none⟩, [], none⟩ = (.ok a, ⟨⟨disk', none⟩, [], none⟩)

section Returns

variable {α β : Type} {x : Action α} {f : α → Action β} {disk disk' disk'' : Disk FileName}
  {a : α} {b : β}

theorem Returns.bind_iff (h : Returns x disk a disk') :
    Returns (x >>= f) disk b disk'' ↔ Returns (f a) disk' b disk'' := by
  unfold Returns at h ⊢
  rw [Run.exec_bind, h]

variable (ops : List (Files.Op FileName))

theorem returns_perform (disk : Disk FileName) :
    Returns (perform ops) disk () (ops.foldl Disk.land disk) := by
  induction ops generalizing disk with
  | nil => rfl
  | cons op ops ih =>
    have hop : Returns (Handler.write fun m => { m with disk := m.disk.land op }) disk ()
      (disk.land op) := rfl
    exact hop.bind_iff.mpr (ih _)

theorem returns_performed {f : Unit → Action β} :
    Returns (perform ops >>= f) disk b disk'' ↔
      Returns (f ()) (ops.foldl Disk.land disk) b disk'' :=
  (returns_perform ops disk).bind_iff

theorem returns_read {f : Files.Machine FileName (Option WalBackedTablet) → Action β} :
    Returns (Handler.read >>= f) disk b disk'' ↔ Returns (f ⟨disk, none⟩) disk b disk'' := Iff.rfl

theorem returns_poison (wal : FileWal) {f : Unit → Action β} :
    Returns (wal.poison >>= f) disk b disk'' ↔ Returns (f ()) disk b disk'' :=
  Returns.bind_iff (show Returns wal.poison disk () disk from rfl)

end Returns

variable {codec : Codec} {disk disk' : Disk FileName} {wal wal' : FileWal} {bytes torn : Bytes}
  {write : TabletWrite}
  {record : WalRecord} {records : List WalRecord} {n base : Nat}

/-- A log that is there is read as it is, without the torn frame. -/
theorem Logged.returns_load (h : Logged codec bytes wal torn) (hbytes : disk .wal = some bytes) :
    Returns (load codec) disk wal
      (disk.put .wal (some (bytes.take (bytes.length - torn.length)))) := by
  have hread : disk.bytes .wal = bytes := by rw [Disk.bytes, hbytes, Option.getD_some]
  have hdecode : (decode codec (disk.bytes .wal)).mapError WalBackedError.wal =
      .ok (wal, cutAt (bytes.length - torn.length) torn) := by
    rw [hread, decode_logged h]
    rfl
  unfold cutAt at hdecode
  rw [load, returns_read, hdecode]
  split_ifs with htorn
  · rw [htorn, Nat.sub_zero, take_length, ← hbytes, Disk.put_eq]
    rfl
  · change Returns (perform [.setLen .wal _, .sync] >>= fun _ => pure wal) disk _ _
    rw [returns_performed, ← hread]
    rfl

theorem Logged.returns_open (h : Logged codec bytes wal torn) (hbytes : disk .wal = some bytes) :
    Returns (FileWal.open codec) disk wal
      (disk.put .wal (some (bytes.take (bytes.length - torn.length)))) := by
  have htouch : [Files.Op.touch FileName.wal].foldl Disk.land disk = disk :=
    land_touch_of_some hbytes
  have hlong : ¬ (disk.bytes .wal).length = 0 := by
    obtain ⟨⟨id, epoch, _, _, _, rfl⟩, _⟩ := h
    rw [Disk.bytes, hbytes, Option.getD_some, length_append, length_encodeWalHeader]
    unfold walHeaderBytes
    omega
  have hcreate : Returns (create codec) disk () disk := by
    rw [create, returns_performed, htouch, returns_read, Handler.when, if_neg hlong]
    rfl
  exact hcreate.bind_iff.mpr (h.returns_load hbytes)

/-- A log that is missing is created. -/
theorem returns_open_blank (hbytes : disk.bytes .wal = []) :
    Returns (FileWal.open codec) disk (.fresh 0 none none)
      (disk.put .wal (some (encodeWalHeader codec 0 none none))) := by
  have htouch : [Files.Op.touch FileName.wal].foldl Disk.land disk = disk.put .wal (some []) :=
    congrArg (fun b => disk.put .wal (some b)) hbytes
  have hempty : ((disk.put .wal (some [])).bytes .wal).length = 0 := by
    rw [Disk.bytes, Disk.put_same]; rfl
  have hwritten : (writeAll FileName.wal (encodeWalHeader codec 0 none none) ++
      [Files.Op.sync, .sync]).foldl Disk.land (disk.put .wal (some [])) =
        disk.put .wal (some (encodeWalHeader codec 0 none none)) := by
    rw [foldl_append, Files.foldl_writeAll _ (Disk.put_same disk .wal _), Disk.put_put]
    rfl
  have hcreate :
      Returns (create codec) disk ()
      (disk.put .wal (some (encodeWalHeader codec 0 none none))) := by
    rw [create, returns_performed, htouch, returns_read, Handler.when, if_pos hempty, ← hwritten]
    exact returns_perform _ _
  have hnew : Logged codec _ _ _ := .fresh headerOk_zero
  have hload := hnew.returns_load (Disk.put_same disk .wal _)
  rw [length_nil, Nat.sub_zero, take_length, Disk.put_put] at hload
  exact hcreate.bind_iff.mpr hload

/-- An append that returns has been given the next record, and has written its frame. -/
theorem returns_appendWrite (hbytes : disk .wal = some bytes) (hne : write.ownershipEpoch ≠ 0) :
    Returns (wal.appendWrite codec write) disk wal' disk' ↔
      (wal.poisoned = false ∧ Follows codec wal (.fromWrite write)) ∧
      wal' = wal.push (.fromWrite write) ∧
        disk' = disk.put .wal (some (bytes ++ frame codec (.fromWrite write))) := by
  have hwritten :
      (writeAll FileName.wal (encodeFrameHeader codec (payload codec (.fromWrite write)).length) ++
      (writeAll FileName.wal (payload codec (.fromWrite write)) ++
        writeAll FileName.wal (codec.hash (payload codec (.fromWrite write)))) ++
        [Files.Op.sync]).foldl Disk.land disk =
      disk.put .wal (some (bytes ++ frame codec (.fromWrite write))) := by
    rw [foldl_append, ← Files.writeAll_append, ← Files.writeAll_append,
      Files.foldl_writeAll _ hbytes]
    rfl
  rw [← checkAppend_ok (disk.bytes .wal).length hne, appendWrite, returns_read]
  dsimp only
  cases wal.checkAppend codec (.fromWrite write) (disk.bytes .wal).length with
  | error e => exact ⟨(fun h => by cases h), fun h => by cases h.1⟩
  | ok u =>
    have hlift : Handler.lift ((Except.ok u).mapError WalBackedError.wal) =
        (pure u : Action Unit) := rfl
    rw [hlift, pure_bind, returns_poison, returns_performed, hwritten]
    constructor
    · intro h
      cases h
      exact ⟨rfl, rfl, rfl⟩
    · rintro ⟨_, rfl, rfl⟩
      rfl

/-- A reclaim that returns has started the log anew where it ended. -/
theorem Returns.reclaimThrough (h : Returns (wal.reclaimThrough codec base) disk wal' disk')
    (hok : HeaderOk wal.lastSequence wal.tabletId wal.latestOwnershipEpoch) :
    ∃ bytes, disk' .wal = some bytes ∧ Logged codec bytes wal' [] := by
  unfold FileWal.reclaimThrough Handler.require at h
  by_cases hp : wal.poisoned = false
  · rw [if_pos hp, pure_bind] at h
    by_cases hbase : base = wal.lastSequence
    · subst hbase
      have hnew : Logged codec _ _ _ := .fresh hok
      rw [if_pos rfl, pure_bind, returns_poison, returns_performed] at h
      cases h.symm.trans (hnew.returns_open (Files.foldl_replaceFile disk _))
      exact ⟨_, Disk.put_same _ _ _, hnew.truncate⟩
    · rw [if_neg hbase] at h
      cases h
  · rw [if_neg hp] at h
    cases h

/-- A write is the result of `TabletWrite::prepare`. -/
def TabletWrite.Prepared (write : TabletWrite) : Prop :=
  ∃ (d : TabletDescriptor) (epoch : UInt64) (previous committed : Nat) (mutations :
    List TabletMutation),
    TabletWrite.prepare d epoch previous committed mutations = .ok write

theorem TabletWrite.Prepared.epoch_ne (h : write.Prepared) : write.ownershipEpoch ≠ 0 := by
  obtain ⟨d, epoch, previous, committed, mutations, h⟩ := h
  unfold TabletWrite.prepare at h
  split_ifs at h
  cases hn : checkedSucc previous with
  | none => rw [hn] at h; cases h
  | some next =>
    rw [hn] at h
    cases h
    exact d.epoch_ne

/-- The files the methods of the log make, with the log in memory. A write has been prepared by the
owner of some tablet. -/
inductive Produced (codec : Codec) : Disk FileName → FileWal → Prop where
  | create {disk disk' : Disk FileName} {wal : FileWal} :
    disk.bytes .wal = [] → Returns (FileWal.open codec) disk wal disk' → Produced codec disk' wal
  | reopen {disk disk' : Disk FileName} {wal wal' : FileWal} :
    Produced codec disk wal → Returns (FileWal.open codec) disk wal' disk' →
      Produced codec disk' wal'
  | append {disk disk' : Disk FileName} {wal wal' : FileWal} {write : TabletWrite} :
    Produced codec disk wal → write.Prepared →
      Returns (wal.appendWrite codec write) disk wal' disk' →
      Produced codec disk' wal'
  | reclaim {disk disk' : Disk FileName} {wal wal' : FileWal} {base : Nat} :
    Produced codec disk wal → Returns (wal.reclaimThrough codec base) disk wal' disk' →
      Produced codec disk' wal'

theorem Produced.logged (h : Produced codec disk wal) :
    ∃ bytes, disk .wal = some bytes ∧ Logged codec bytes wal [] := by
  induction h with
  | create hbytes h =>
    cases h.symm.trans (returns_open_blank hbytes)
    exact ⟨_, Disk.put_same _ _ _, .fresh headerOk_zero⟩
  | reopen _ h ih =>
    obtain ⟨bytes, hbytes, hlogged⟩ := ih
    cases h.symm.trans (hlogged.returns_open hbytes)
    exact ⟨_, Disk.put_same _ _ _, hlogged.truncate⟩
  | append _ hwrite h ih =>
    obtain ⟨bytes, hbytes, hlogged⟩ := ih
    obtain ⟨⟨_, hfollows⟩, rfl, rfl⟩ := (returns_appendWrite hbytes hwrite.epoch_ne).mp h
    exact ⟨_, Disk.put_same _ _ _, hlogged.append hfollows⟩
  | reclaim _ h ih =>
    obtain ⟨bytes, _, hlogged⟩ := ih
    exact h.reclaimThrough hlogged.headerOk

/-- Where the frame before the record `i` ends. -/
def frameEnd (codec : Codec) (wal : FileWal) (i : Nat) : Nat :=
  walHeaderBytes + ((wal.records.take i).flatMap (frame codec)).length

/-- A part of the frames is the frames that are whole in it, and then a torn one. -/
theorem take_frames (h : Chain codec wal records) (n : Nat) :
    ∃ k torn, (torn = [] ∨ Torn codec torn) ∧
      (records.flatMap (frame codec)).take n = (records.take k).flatMap (frame codec) ++ torn ∧
      Chain codec wal (records.take k) ∧
      ∀ i < records.length, i < k ↔ ((records.take (i + 1)).flatMap (frame codec)).length ≤ n := by
  induction h generalizing n with
  | nil wal => exact ⟨0, [], .inl rfl, by simp, .nil wal, fun i hi => by cases hi⟩
  | @cons wal record records hf _ ih =>
    by_cases hn : (frame codec record).length ≤ n
    · obtain ⟨k, torn, htorn, htake, hchain, hwhole⟩ := ih (n - (frame codec record).length)
      refine ⟨k + 1, torn, htorn, ?_, .cons hf hchain, fun i hi => ?_⟩
      · rw [flatMap_cons, take_append, take_of_length_le hn, htake, take_succ_cons, flatMap_cons,
          append_assoc]
      · rw [take_succ_cons, flatMap_cons, length_append]
        cases i with
        | zero => simpa using hn
        | succ i =>
          rw [Nat.add_lt_add_iff_right, hwhole i (Nat.lt_of_succ_lt_succ hi)]
          omega
    · refine ⟨0, (frame codec record).take n, .inr ⟨record, n, hf.size, Nat.lt_of_not_le hn, rfl⟩,
        ?_, .nil wal,
        fun i _ => ?_⟩
      · rw [flatMap_cons, take_append_of_le_length (Nat.le_of_not_le hn)]
        rfl
      · rw [take_succ_cons, flatMap_cons, length_append]
        omega

theorem Chain.sequences (h : Chain codec wal records) :
    records.map WalRecord.sequence = range' (wal.lastSequence + 1) records.length := by
  induction h with
  | nil wal => rfl
  | cons hf _ ih => rw [map_cons, ih, lastSequence_push, hf.sequence, length_cons, range'_succ]

theorem records_foldl (wal : FileWal) :
    (records.foldl push wal).records = wal.records ++ records := by
  induction records generalizing wal with
  | nil => exact (append_nil _).symm
  | cons record records ih => exact (ih (wal.push record)).trans (append_assoc _ _ _)

theorem Logged.cut (h : Logged codec bytes wal []) (hn : walHeaderBytes ≤ n) :
    ∃ kept torn k, Logged codec (bytes.take n) kept torn ∧
      (bytes.take n).take ((bytes.take n).length - torn.length) =
      bytes.take (frameEnd codec wal k) ∧
      kept.records = wal.records.take k ∧
        (∀ i < wal.records.length, i < k ↔ frameEnd codec wal (i + 1) ≤ n) ∧
      kept.records.map WalRecord.sequence = range' (wal.baseSequence + 1) kept.records.length := by
  obtain ⟨⟨id, epoch, hok, hchain, -, hbytes⟩, _⟩ := h
  obtain ⟨k, torn, htorn, htake, hkept, hwhole⟩ := take_frames hchain (n - walHeaderBytes)
  have hlen := length_encodeWalHeader codec wal.baseSequence id epoch
  have hrecords : ((wal.records.take k).foldl push (.fresh wal.baseSequence id epoch)).records =
      wal.records.take k :=
    records_foldl _
  have hcut : bytes.take n = encodeWalHeader codec wal.baseSequence id epoch ++
      ((wal.records.take k).flatMap (frame codec) ++ torn) := by
    rw [hbytes, append_nil, take_append, hlen, htake, take_of_length_le (by rw [hlen]; exact hn)]
  have hend : (bytes.take n).length - torn.length = frameEnd codec wal k := by
    rw [hcut, length_append, length_append, hlen, frameEnd]
    omega
  refine ⟨(wal.records.take k).foldl push (.fresh wal.baseSequence id epoch), torn, k, ⟨?_, htorn⟩,
    ?_, hrecords,
    fun i hi => ?_, ?_⟩
  · refine ⟨id, epoch, ?_⟩
    rw [baseSequence_foldl, hrecords]
    exact ⟨hok, hkept, rfl, hcut⟩
  · rw [hend, take_take, Nat.min_eq_left]
    have hle := Nat.sub_le (bytes.take n).length torn.length
    rw [hend, length_take] at hle
    omega
  · rw [hwhole i hi, frameEnd]
    omega
  · rw [hrecords]
    exact hkept.sequences

/-- A part of a log that has the whole header is opened as the records whose frames are whole in it,
and a next record is found after them. -/
theorem truncated_log_recovers (h : Produced codec disk wal) (hbytes : disk .wal = some bytes)
    (hn : walHeaderBytes ≤ n) (hcut : disk' .wal = some (bytes.take n)) :
    ∃ opened k, Returns (FileWal.open codec) disk' opened
      (disk'.put .wal (some (bytes.take (frameEnd codec wal k)))) ∧
      opened.records = wal.records.take k ∧
      (∀ i < wal.records.length, i < k ↔ frameEnd codec wal (i + 1) ≤ n) ∧
      opened.records.map WalRecord.sequence = range' (wal.baseSequence + 1) opened.records.length ∧
      ∀ write : TabletWrite, Follows codec opened (.fromWrite write) → ∃ next last,
        Returns (opened.appendWrite codec write)
          (disk'.put .wal (some (bytes.take (frameEnd codec wal k)))) next last ∧
          Returns (FileWal.open codec) last next last ∧ next.records = opened.records ++
            [.fromWrite write] := by
  obtain ⟨bytes', hbytes', hlogged⟩ := h.logged
  obtain rfl : bytes = bytes' := Option.some.inj (hbytes.symm.trans hbytes')
  obtain ⟨kept, torn, k, hkept, htake, hrecords, hwhole, hsequences⟩ := hlogged.cut hn
  have hopen := hkept.returns_open hcut
  have hclean := hkept.truncate
  rw [htake] at hopen hclean
  refine ⟨kept, k, hopen, hrecords, hwhole, hsequences, fun write hnext => ?_⟩
  have hgrown := (hclean.append hnext).returns_open (Disk.put_same
    (disk'.put .wal (some (bytes.take (frameEnd codec wal k)))) .wal _)
  rw [length_nil, Nat.sub_zero, take_length, Disk.put_put, Disk.put_put] at hgrown
  refine ⟨_, _, (returns_appendWrite (Disk.put_same _ _ _) hnext.epoch_ne).mpr
    ⟨⟨hkept.unpoisoned, hnext⟩, rfl, rfl⟩,
    ?_, rfl⟩
  rw [Disk.put_put]
  exact hgrown

/-- The first write to a tablet of all keys. -/
def firstWrite : TabletWrite := ⟨allKeys.id, 1, 1, 0, [.put [1] [2]]⟩

theorem truncated_log_recovers_torn :
    ∃ disk wal bytes, Produced plainCodec disk wal ∧ disk .wal = some bytes ∧
    wal.records = [.fromWrite firstWrite] ∧ ∃ opened k left,
      Returns (FileWal.open plainCodec) (disk.put .wal (some (bytes.take 100))) opened left ∧
        opened.records = wal.records.take k := by
  have hopen : Returns (FileWal.open plainCodec) (fun _ => none) _ _ := returns_open_blank rfl
  have hnext : Follows plainCodec (.fresh 0 none none) (.fromWrite firstWrite) :=
    ⟨(fun _ h => by cases h), (fun _ h => by cases h), by decide, rfl, rfl, by decide,
      by decide +kernel⟩
  have hfile :=
    Disk.put_same (fun _ => none) FileName.wal (some (encodeWalHeader plainCodec 0 none none))
  have happend := (returns_appendWrite hfile hnext.epoch_ne).mpr ⟨⟨rfl, hnext⟩, rfl, rfl⟩
  have hproduced :=
    Produced.append (.create rfl hopen) ⟨allKeys, 1, 0, 0, firstWrite.mutations, rfl⟩ happend
  obtain ⟨opened, k, hreturns, hrecords, _⟩ :=
    truncated_log_recovers (n := 100) hproduced (Disk.put_same _ _ _)
      (by decide) (Disk.put_same _ _ _)
  exact ⟨_, _, _, hproduced, Disk.put_same _ _ _, rfl, opened, k, _, hreturns, hrecords⟩

end Nulang.Database

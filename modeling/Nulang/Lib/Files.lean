import Nulang.Lib.Writes

/-!
# Files that survive a crash

A disk gives each file name the bytes of its file, if there is one. A process changes it by single
operations: a file is created, one more byte is appended, a file is cut, or it takes the place of
another. Writing a string is as many operations as it has bytes, so a process that is killed may
leave any part of it.

A write that is not synced may be lost in the source's file system; here it is not, so a disk is
what the operations so far have made of it. The rules for `perform` say what a process finds, killed
after any number of its operations or not at all.
-/

set_option autoImplicit false

namespace Files

open List

abbrev Disk (ν : Type) : Type := ν → Option (List UInt8)

inductive Op (ν : Type) where
  /-- Create the file, or empty it. -/
  | create (file : ν)
  /-- Create the file if it is missing. -/
  | touch (file : ν)
  | append (file : ν) (byte : UInt8)
  | setLen (file : ν) (length : Nat)
  | rename (source target : ν)
  /-- Wait for what has been written. -/
  | sync

variable {ν τ ε μ : Type}

def writeAll (file : ν) (bytes : List UInt8) : List (Op ν) := bytes.map (Op.append file)

theorem length_writeAll (file : ν) (bytes : List UInt8) :
    (writeAll file bytes).length = bytes.length := length_map _

theorem writeAll_append (file : ν) (a b : List UInt8) :
    writeAll file (a ++ b) = writeAll file a ++ writeAll file b :=
  map_append

theorem take_writeAll (file : ν) (bytes : List UInt8) (n : Nat) :
    (writeAll file bytes).take n = writeAll file (bytes.take n) := map_take.symm

variable [DecidableEq ν]

namespace Disk

/-- The bytes of a file; a file that is missing has none. -/
def bytes (d : Disk ν) (file : ν) : List UInt8 := (d file).getD []

def put (d : Disk ν) (file : ν) (bytes : Option (List UInt8)) : Disk ν :=
  fun f => if f = file then bytes else d f

def land (d : Disk ν) : Op ν → Disk ν
  | .create file => d.put file (some [])
  | .touch file => d.put file (some (d.bytes file))
  | .append file byte => d.put file (some (d.bytes file ++ [byte]))
  | .setLen file length => d.put file (some ((d.bytes file).take length))
  | .rename source target => (d.put source none).put target (d source)
  | .sync => d

@[simp] theorem put_same (d : Disk ν) (file : ν) (bytes : Option (List UInt8)) :
    d.put file bytes file = bytes :=
  if_pos rfl

@[simp] theorem put_of_ne (d : Disk ν) {file f : ν} (bytes : Option (List UInt8)) (h : f ≠ file) :
    d.put file bytes f = d f := if_neg h

@[simp] theorem put_put (d : Disk ν) (file : ν) (a b : Option (List UInt8)) :
    (d.put file a).put file b = d.put file b := by
  funext f
  unfold put
  split_ifs with h
  · rfl
  · rfl

theorem put_eq (d : Disk ν) (file : ν) : d.put file (d file) = d := by
  funext f
  unfold put
  split_ifs with h
  · rw [h]
  · rfl

end Disk

variable {file : ν} {d : Disk ν} {ops : List (Op ν)} {D : Disk ν → Prop}

theorem foldl_writeAll (d : Disk ν) {old : List UInt8} (h : d file = some old)
    (bytes : List UInt8) :
    (writeAll file bytes).foldl Disk.land d = d.put file (some (old ++ bytes)) := by
  induction bytes generalizing d old with
  | nil =>
    rw [append_nil, ← h, Disk.put_eq]
    rfl
  | cons b bytes ih =>
    have hland : d.land (.append file b) = d.put file (some (old ++ [b])) := by
      change d.put file (some ((d file).getD [] ++ [b])) = _
      rw [h, Option.getD_some]
    have hnext := ih (d.put file (some (old ++ [b]))) (Disk.put_same d file _)
    rw [Disk.put_put, append_assoc, ← hland] at hnext
    exact hnext

/-- What is done to other files does not change a file. -/
def Op.changes (file : ν) : Op ν → Bool
  | .create f => f = file
  | .touch f => f = file
  | .append f _ => f = file
  | .setLen f _ => f = file
  | .rename source target => source = file || target = file
  | .sync => false

theorem land_other {op : Op ν} (h : op.changes file = false) : d.land op file = d file := by
  cases op with
  | create | touch | append | setLen =>
    exact Disk.put_of_ne _ _ fun he => by simp [Op.changes, he] at h
  | rename s t =>
    have hs : file ≠ s := fun he => by simp [Op.changes, he] at h
    have ht : file ≠ t := fun he => by simp [Op.changes, he] at h
    exact (Disk.put_of_ne _ _ ht).trans (Disk.put_of_ne _ _ hs)
  | sync => rfl

theorem foldl_other (h : ∀ op ∈ ops, op.changes file = false) :
    ops.foldl Disk.land d file = d file := by
  induction ops generalizing d with
  | nil => rfl
  | cons op ops ih =>
    obtain ⟨hop, hops⟩ := forall_mem_cons.mp h
    rw [foldl_cons, ih hops, land_other hop]

theorem changes_writeAll {f : ν} (h : f ≠ file) (bytes : List UInt8) :
    ∀ op ∈ writeAll f bytes, op.changes file = false := by
  intro op hop
  obtain ⟨b, _, rfl⟩ := mem_map.mp hop
  simp [Op.changes, h]

theorem foldl_sync (n : Nat) : (replicate n (Op.sync : Op ν)).foldl Disk.land d = d := by
  induction n with
  | zero => rfl
  | succ n ih => exact ih

theorem foldl_take_sync (m n : Nat) :
    ((ops ++ replicate m Op.sync).take n).foldl Disk.land d = (ops.take n).foldl Disk.land d := by
  rw [take_append, foldl_append, take_replicate, foldl_sync]

/-- Write a new version of the file beside it, then let it take the place of the old one. -/
def replaceFile (temp target : ν) (bytes : List UInt8) : List (Op ν) :=
  (.create temp :: writeAll temp bytes) ++ [.sync, .rename temp target, .sync]

section Replace

variable {temp target : ν} (d : Disk ν) (bytes : List UInt8)

theorem foldl_create_writeAll :
    (.create temp :: writeAll temp bytes).foldl Disk.land d = d.put temp (some bytes) := by
  have h := foldl_writeAll (d.put temp (some [])) (Disk.put_same d temp _) bytes
  rw [Disk.put_put, nil_append] at h
  exact h

theorem foldl_replaceFile :
    (replaceFile temp target bytes).foldl Disk.land d target = some bytes := by
  rw [replaceFile, foldl_append, foldl_create_writeAll]
  change ((((d.put temp (some bytes)).put temp none).put target
    ((d.put temp (some bytes)) temp)) target) = _
  rw [Disk.put_same, Disk.put_same]

theorem replaceFile_other {file : ν} (htemp : file ≠ temp) (htarget : file ≠ target) (n : Nat) :
    ((replaceFile temp target bytes).take n).foldl Disk.land d file = d file := by
  refine foldl_other fun op hop => ?_
  rcases mem_append.mp (mem_of_mem_take hop) with hop | hop
  · rcases mem_cons.mp hop with rfl | hop
    · simp [Op.changes, htemp.symm]
    · exact changes_writeAll htemp.symm bytes op hop
  · simp only [mem_cons, not_mem_nil, or_false] at hop
    rcases hop with rfl | rfl | rfl
    · rfl
    · simp [Op.changes, htemp.symm, htarget.symm]
    · rfl

/-- Some of it done: the old version or the new one. -/
theorem replaceFile_target (h : temp ≠ target) (n : Nat) :
    ((replaceFile temp target bytes).take n).foldl Disk.land d target = d target ∨
      ((replaceFile temp target bytes).take n).foldl Disk.land d target = some bytes := by
  by_cases hn : n ≤ bytes.length + 2
  · refine .inl (foldl_other fun op hop => ?_)
    have hsplit : replaceFile temp target bytes =
        (.create temp :: writeAll temp bytes) ++ [.sync] ++ [.rename temp target, .sync] := by
      simp [replaceFile]
    rw [hsplit, take_append_of_le_length (by simpa [length_writeAll] using hn)] at hop
    rcases mem_append.mp (mem_of_mem_take hop) with hop | hop
    · rcases mem_cons.mp hop with rfl | hop
      · simp [Op.changes, h]
      · exact changes_writeAll h bytes op hop
    · rw [mem_singleton.mp hop]
      rfl
  · refine .inr ?_
    have hsplit : replaceFile temp target bytes =
        ((.create temp :: writeAll temp bytes) ++ [.sync, .rename temp target]) ++
        replicate 1 Op.sync := by
      simp [replaceFile]
    have hall : ((.create temp :: writeAll temp bytes) ++ [Op.sync, .rename temp target]).take n =
        (.create temp :: writeAll temp bytes) ++ [.sync, .rename temp target] :=
      take_of_length_le (by simp [length_writeAll]; omega)
    have hdone : (replaceFile temp target bytes).foldl Disk.land d target = some bytes :=
      foldl_replaceFile d bytes
    rw [hsplit, foldl_take_sync, hall]
    rw [hsplit, foldl_append, foldl_sync] at hdone
    exact hdone

end Replace

/-- A disk, and what a process keeps in memory. -/
@[ext] structure Machine (ν τ : Type) where
  disk : Disk ν
  memory : τ

def perform : List (Op ν) → Handler ε (Machine ν τ) μ Unit
  | [] => pure ()
  | op :: ops => do
    Handler.write fun m => { m with disk := m.disk.land op }
    perform ops

def keep (f : τ → τ) : Handler ε (Machine ν τ) μ Unit :=
  Handler.remember fun m => { m with memory := f m.memory }

theorem makes_perform (p : Process (Machine ν τ) μ) :
    Handler.Makes (ε := ε) (fun m d => m.disk = d) Disk.land (perform ops) p p.state.disk ops
      fun _ q => q.state.memory = p.state.memory ∧ q.sent = p.sent := by
  induction ops generalizing p with
  | nil => exact Handler.Makes.pure rfl ⟨rfl, rfl⟩
  | cons op ops ih =>
    exact Handler.Makes.bind (w := [op]) (Handler.Makes.write rfl rfl (ih _))

theorem steady_perform {P : Process (Machine ν τ) μ → Process (Machine ν τ) μ → Prop} [Std.Refl P]
    [IsTrans (Process (Machine ν τ) μ) P] {fails : Prop}
    (h : ∀ p op, P p (p.wrote fun m => { m with disk := m.disk.land op })) :
    Handler.Steady (ε := ε) P fails (perform ops) := by
  induction ops with
  | nil => exact Handler.Steady.pure ()
  | cons op ops ih => exact Handler.Steady.bind (Handler.Steady.write fun p => h p op) fun _ => ih

variable {p : Process (Machine ν τ) μ} {Q : Unit → Process (Machine ν τ) μ → Prop}
  {E : ε → Process (Machine ν τ) μ → Prop}

/-- Killed with a part of the operations done, or done with all of them. -/
theorem ends_perform (hD : ∀ n, D ((ops.take n).foldl Disk.land p.state.disk))
    (hQ : ∀ q : Process (Machine ν τ) μ, q.state.disk = ops.foldl Disk.land p.state.disk →
      q.state.memory = p.state.memory → Q () q) :
    (perform ops).Ends p (fun q => D q.state.disk) E Q := by
  refine Handler.ends_mono (makes_perform p) ?_ (fun _ _ h => h.elim) ?_
  · rintro q ⟨n, _, _, hdisk⟩
    rw [hdisk]
    exact hD n
  · rintro _ q ⟨_, _, hdisk, hmemory, _⟩
    exact hQ q hdisk hmemory

/-- Killed with the old version or the new one, or done with the new one. Other files are as
before. -/
theorem ends_replaceFile {temp target : ν} (h : temp ≠ target) {bytes : List UInt8}
    (hD : ∀ d : Disk ν, (∀ f, f ≠ temp → f ≠ target → d f = p.state.disk f) →
      d target = p.state.disk target ∨ d target = some bytes → D d)
    (hQ : ∀ q : Process (Machine ν τ) μ,
      (∀ f, f ≠ temp → f ≠ target → q.state.disk f = p.state.disk f) →
      q.state.disk target = some bytes → q.state.memory = p.state.memory → Q () q) :
    (perform (replaceFile temp target bytes)).Ends p (fun q => D q.state.disk) E Q := by
  refine ends_perform (fun n => ?_) fun q hq hmemory => ?_
  · exact hD _ (fun f h1 h2 => replaceFile_other p.state.disk bytes h1 h2 n)
      (replaceFile_target p.state.disk bytes h n)
  · refine hQ q (fun f h1 h2 => ?_) ?_ hmemory
    · have hother :=
        replaceFile_other p.state.disk bytes h1 h2 (replaceFile temp target bytes).length
      rw [take_length] at hother
      rw [hq, hother]
    · rw [hq, foldl_replaceFile]

end Files

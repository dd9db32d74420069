import Nulang.Lib.Run

/-!
# Handlers that can be killed between two writes

A process that keeps its state in files handles an event by reading, by atomic writes and by sending
messages. It may fail, which leaves the writes it has made, and it may be killed before any write: a
process that is given a number of writes is killed when it wants to make one more.

`Ends x p K E Q` says how the run of `x` from `p` ends: killed in `K`, failed in `E`, or returned in
`Q`. Its rules are equivalences that follow the program, so that a program is executed by rewriting
with them. `Always P x` is the special case of a preorder that every run of `x` stays within,
however it ends, and `Steady P fails x` says besides that `x` returns if it is not killed and may
not fail.
-/

set_option autoImplicit false

/-- A process: its state, the messages it has sent (the last one first), and the writes it makes
before it is killed, if it is. -/
structure Process (σ μ : Type) where
  state : σ
  sent : List μ
  writes : Option Nat

namespace Process

variable {σ μ : Type}

def changed (p : Process σ μ) (f : σ → σ) : Process σ μ := { p with state := f p.state }

def wrote (p : Process σ μ) (f : σ → σ) : Process σ μ :=
  { p with state := f p.state, writes := p.writes.map Nat.pred }

variable (p : Process σ μ) (f : σ → σ)

@[simp] theorem state_changed : (p.changed f).state = f p.state := rfl

@[simp] theorem writes_changed : (p.changed f).writes = p.writes := rfl

@[simp] theorem state_wrote : (p.wrote f).state = f p.state := rfl

@[simp] theorem writes_wrote : (p.wrote f).writes = p.writes.map Nat.pred := rfl

theorem wrote_stopped (h : p.writes ≠ some 0) :
    (p.wrote f).writes = some 0 ↔ p.writes = some 1 := by
  rcases hw : p.writes with _ | _ | _ | n
  · simp [hw]
  · exact absurd hw h
  · simp [hw]
  · simp [hw]

end Process

/-- Why a handler stops without returning. -/
inductive Halt (ε : Type) where
  | killed
  | failed (e : ε)
deriving DecidableEq

/-- A handler over states `σ` and messages `μ` that may fail with an `ε`. -/
abbrev Handler (ε σ μ α : Type) : Type := Run (Halt ε) (Process σ μ) α

namespace Handler

variable {ε σ μ α β : Type}

def read : Handler ε σ μ σ := fun p => (.ok p.state, p)

/-- An atomic change of what is kept in files. -/
def write (f : σ → σ) : Handler ε σ μ Unit := fun p =>
  if p.writes = some 0 then (.error .killed, p) else (.ok (), p.wrote f)

/-- A change of what is kept in memory only. -/
def remember (f : σ → σ) : Handler ε σ μ Unit := fun p => (.ok (), p.changed f)

def send (ms : List μ) : Handler ε σ μ Unit := fun p => (.ok (), { p with sent := ms ++ p.sent })

def fail (e : ε) : Handler ε σ μ α := Run.stop (.failed e)

/-- Go on if the condition holds. -/
def require (c : Prop) [Decidable c] (e : ε) : Handler ε σ μ Unit := if c then pure () else fail e

def when (c : Prop) [Decidable c] (x : Handler ε σ μ Unit) : Handler ε σ μ Unit :=
  if c then x else pure ()

def expect (a : Option α) (e : ε) : Handler ε σ μ α :=
  match a with
  | some a => pure a
  | none => fail e

def lift (r : Except ε α) : Handler ε σ μ α :=
  match r with
  | .ok a => pure a
  | .error e => fail e

/-- Whether it returned; a failure is observed, a killed process observes nothing. -/
def attempt (x : Handler ε σ μ α) : Handler ε σ μ Bool := fun p =>
  match x p with
  | (.ok _, q) => (.ok true, q)
  | (.error (.failed _), q) => (.ok false, q)
  | (.error .killed, q) => (.error .killed, q)

theorem exec_read_bind (f : σ → Handler ε σ μ α) (p : Process σ μ) :
    (read >>= f).exec p = (f p.state).exec p := rfl

/-! ## How a run ends -/

/-- The run of `x` from `p` is killed in `K`, fails in `E` or returns in `Q`. -/
def Ends (x : Handler ε σ μ α) (p : Process σ μ) (K : Process σ μ → Prop)
    (E : ε → Process σ μ → Prop) (Q : α → Process σ μ → Prop) : Prop :=
  match x.exec p with
  | (.error .killed, q) => K q
  | (.error (.failed e), q) => E e q
  | (.ok a, q) => Q a q

section Rules

variable {p : Process σ μ} {K : Process σ μ → Prop} {E : ε → Process σ μ → Prop}
  {Q : α → Process σ μ → Prop}

theorem ends_mono {x : Handler ε σ μ α} {K' : Process σ μ → Prop} {E' : ε → Process σ μ → Prop}
    {Q' : α → Process σ μ → Prop} (h : Ends x p K E Q) (hK : ∀ q, K q → K' q)
    (hE : ∀ e q, E e q → E' e q) (hQ : ∀ a q, Q a q → Q' a q) : Ends x p K' E' Q' := by
  unfold Ends at h ⊢
  revert h
  rcases x.exec p with ⟨(_ | e) | a, q⟩
  · exact hK q
  · exact hE e q
  · exact hQ a q

theorem ends_imp {x : Handler ε σ μ α} {Q' : α → Process σ μ → Prop} (h : Ends x p K E Q)
    (hQ : ∀ a q, Q a q → Q' a q) : Ends x p K E Q' :=
  ends_mono h (fun _ h => h) (fun _ _ h => h) hQ

theorem ends_all {x : Handler ε σ μ α} : Ends x p K (fun _ => K) (fun _ => K) ↔ K (x.exec p).2 := by
  unfold Ends
  rcases x.exec p with ⟨(_ | e) | a, q⟩
  all_goals exact Iff.rfl

variable {a : α} {g : σ → σ} {e : ε}

@[simp] theorem ends_pure : Ends (pure a) p K E Q ↔ Q a p := Iff.rfl

@[simp] theorem ends_bind {x : Handler ε σ μ β} {f : β → Handler ε σ μ α} :
    Ends (x >>= f) p K E Q ↔ Ends x p K E fun b q => Ends (f b) q K E Q := by
  unfold Ends
  rw [Run.exec_bind]
  rcases x.exec p with ⟨(_ | e) | a, q⟩
  · exact Iff.rfl
  · exact Iff.rfl
  · exact Iff.rfl

@[simp] theorem ends_read {Q : σ → Process σ μ → Prop} : Ends read p K E Q ↔ Q p.state p := Iff.rfl

theorem ends_write {Q : Unit → Process σ μ → Prop} :
    Ends (write g) p K E Q ↔ if p.writes = some 0 then K p else Q () (p.wrote g) := by
  unfold Ends Run.exec write
  split_ifs with h
  · exact Iff.rfl
  · exact Iff.rfl

theorem ends_write_of_none {Q : Unit → Process σ μ → Prop} (h : p.writes = none) :
    Ends (write g) p K E Q ↔ Q () (p.wrote g) := by
  rw [ends_write, if_neg (by simp [h])]

@[simp] theorem ends_remember {Q : Unit → Process σ μ → Prop} :
    Ends (remember g) p K E Q ↔ Q () (p.changed g) := Iff.rfl

@[simp] theorem ends_send {ms : List μ} {Q : Unit → Process σ μ → Prop} :
    Ends (send ms) p K E Q ↔ Q () { p with sent := ms ++ p.sent } := Iff.rfl

theorem ends_require {c : Prop} [Decidable c] {Q : Unit → Process σ μ → Prop} :
    Ends (require c e) p K E Q ↔ if c then Q () p else E e p := by
  unfold require
  split_ifs with h
  · exact Iff.rfl
  · exact Iff.rfl

theorem ends_when {c : Prop} [Decidable c] {x : Handler ε σ μ Unit}
    {Q : Unit → Process σ μ → Prop} :
    Ends (when c x) p K E Q ↔ if c then Ends x p K E Q else Q () p := by
  unfold when
  split_ifs with h
  · exact Iff.rfl
  · exact Iff.rfl

@[simp] theorem ends_expect_some : Ends (expect (some a) e) p K E Q ↔ Q a p := Iff.rfl

@[simp] theorem ends_lift_ok : Ends (lift (.ok a : Except ε α)) p K E Q ↔ Q a p := Iff.rfl

@[simp] theorem ends_lift_error : Ends (lift (.error e : Except ε α)) p K E Q ↔ E e p := Iff.rfl

@[simp] theorem ends_attempt {x : Handler ε σ μ β} {Q : Bool → Process σ μ → Prop} :
    Ends x.attempt p K E Q ↔ Ends x p K (fun _ q => Q false q) fun _ q => Q true q := by
  unfold Ends Run.exec attempt
  rcases x p with ⟨(_ | e) | a, q⟩
  · exact Iff.rfl
  · exact Iff.rfl
  · exact Iff.rfl

end Rules

/-- However the run of `x` ends, it ends where `P` leads. -/
def Always (P : Process σ μ → Process σ μ → Prop) (x : Handler ε σ μ α) : Prop :=
  ∀ p, Ends x p (P p) (fun _ => P p) (fun _ => P p)

namespace Always

variable {P : Process σ μ → Process σ μ → Prop}

variable {x : Handler ε σ μ α}

theorem exec (h : Always P x) (p : Process σ μ) : P p (x.exec p).2 := ends_all.mp (h p)

theorem pure [Std.Refl P] (a : α) : Always (ε := ε) P (pure a) := fun p => Std.Refl.refl p

theorem after [IsTrans (Process σ μ) P] {p q : Process σ μ} (hpq : P p q)
    (h : Ends x q (P q) (fun _ => P q) (fun _ => P q)) :
    Ends x q (P p) (fun _ => P p) (fun _ => P p) :=
  ends_mono h (fun r hr => IsTrans.trans p q r hpq hr) (fun _ r hr => IsTrans.trans p q r hpq hr)
    fun _ r hr => IsTrans.trans p q r hpq hr

theorem bind [IsTrans (Process σ μ) P] {x : Handler ε σ μ β} {f : β → Handler ε σ μ α}
    (hx : Always P x) (hf : ∀ b, Always P (f b)) : Always P (x >>= f) := by
  intro p
  rw [ends_bind]
  exact ends_mono (hx p) (fun q hq => hq) (fun e q hq => hq) fun b q hq => after hq (hf b q)

theorem mono {P' : Process σ μ → Process σ μ → Prop} (h : Always P x) (hP : ∀ p q, P p q → P' p q) :
    Always P' x := fun p =>
  ends_mono (h p) (hP p) (fun _ => hP p) fun _ => hP p

theorem read {f : σ → Handler ε σ μ α}
    (h : ∀ p, Ends (f p.state) p (P p) (fun _ => P p) (fun _ => P p)) :
    Always P (Handler.read >>= f) := fun p => by
  rw [ends_bind, ends_read]
  exact h p

theorem remember {g : σ → σ} (h : ∀ p, P p (p.changed g)) :
    Always (ε := ε) P (Handler.remember g) := h

theorem write [Std.Refl P] {g : σ → σ} (h : ∀ p, P p (p.wrote g)) :
    Always (ε := ε) P (Handler.write g) := by
  intro p
  rw [ends_write]
  split_ifs with hw
  · exact Std.Refl.refl p
  · exact h p

theorem when [Std.Refl P] {c : Prop} [Decidable c] {x : Handler ε σ μ Unit} (h : c → Always P x) :
    Always P (Handler.when c x) := by
  unfold Handler.when
  split_ifs with hc
  · exact h hc
  · exact pure ()

theorem attempt (h : Always P x) : Always P x.attempt := by
  intro p
  rw [ends_attempt]
  exact h p

end Always

/-! ## Runs that return -/

/-- Within `P`, and a process that is never killed stays so. -/
def Onward (P : Process σ μ → Process σ μ → Prop) (p q : Process σ μ) : Prop :=
  P p q ∧ (p.writes = none → q.writes = none)

instance (P : Process σ μ → Process σ μ → Prop) [Std.Refl P] : Std.Refl (Onward P) :=
  ⟨fun p => ⟨Std.Refl.refl p, id⟩⟩

instance (P : Process σ μ → Process σ μ → Prop) [IsTrans (Process σ μ) P] :
    IsTrans (Process σ μ) (Onward P) :=
  ⟨fun p q r h g => ⟨IsTrans.trans p q r h.1 g.1, fun hp => g.2 (h.2 hp)⟩⟩

/-- The run of `x` stays within `P`, is killed only if its writes are numbered, and fails only if
`fails`. -/
def Steady (P : Process σ μ → Process σ μ → Prop) (fails : Prop) (x : Handler ε σ μ α) : Prop :=
  ∀ p, Ends x p (fun q => P p q ∧ p.writes ≠ none) (fun _ q => fails ∧ Onward P p q)
    (fun _ => Onward P p)

namespace Steady

variable {P : Process σ μ → Process σ μ → Prop} {fails : Prop}

theorem unkilled {x : Handler ε σ μ α} (h : Steady P fails x) {p : Process σ μ}
    (hp : p.writes = none) :
    (x.exec p).1 ≠ .error .killed := by
  have hx := h p
  unfold Ends at hx
  revert hx
  rcases x.exec p with ⟨(_ | e) | a, q⟩
  · exact fun hq => absurd hp hq.2
  · exact fun _ hq => by cases hq
  · exact fun _ hq => by cases hq

theorem lift [Std.Refl P] (hf : fails) (r : Except ε α) :
    Steady P fails (Handler.lift r : Handler ε σ μ α) := by
  cases r with
  | error e => exact fun p => ⟨hf, Std.Refl.refl (r := Onward P) p⟩
  | ok a => exact fun p => Std.Refl.refl (r := Onward P) p

theorem pure [Std.Refl P] (a : α) : Steady (ε := ε) P fails (pure a) :=
  fun p => Std.Refl.refl (r := Onward P) p

theorem fail [Std.Refl P] (hf : fails) (e : ε) : Steady P fails (fail e : Handler ε σ μ α) :=
  fun p =>
  ⟨hf, Std.Refl.refl (r := Onward P) p⟩

theorem bind [IsTrans (Process σ μ) P] {x : Handler ε σ μ β} {f : β → Handler ε σ μ α}
    (hx : Steady P fails x) (hf : ∀ b, Steady P fails (f b)) : Steady P fails (x >>= f) := by
  intro p
  rw [ends_bind]
  refine ends_mono (hx p) (fun q hq => hq) (fun e q hq => hq) fun b q hq => ?_
  refine ends_mono (hf b q) (fun r hr => ?_) (fun e r hr => ?_) fun a r hr => ?_
  · exact ⟨IsTrans.trans p q r hq.1 hr.1, fun hp => hr.2 (hq.2 hp)⟩
  · exact ⟨hr.1, IsTrans.trans (r := Onward P) p q r hq hr.2⟩
  · exact IsTrans.trans (r := Onward P) p q r hq hr

theorem read {f : σ → Handler ε σ μ α} (h : ∀ s, Steady P fails (f s)) :
    Steady P fails (Handler.read >>= f) :=
  fun p => by
    rw [ends_bind, ends_read]
    exact h p.state p

theorem remember {g : σ → σ} (h : ∀ p, P p (p.changed g)) :
    Steady (ε := ε) P fails (Handler.remember g) :=
  fun p => ⟨h p, id⟩

theorem write [Std.Refl P] {g : σ → σ} (h : ∀ p, P p (p.wrote g)) :
    Steady (ε := ε) P fails (Handler.write g) := by
  intro p
  rw [ends_write]
  split_ifs with hw
  · exact ⟨Std.Refl.refl p, by simp [hw]⟩
  · exact ⟨h p, fun hp => by simp [hp]⟩

theorem when [Std.Refl P] {c : Prop} [Decidable c] {x : Handler ε σ μ Unit}
    (h : c → Steady P fails x) :
    Steady P fails (Handler.when c x) := by
  unfold Handler.when
  split_ifs with hc
  · exact h hc
  · exact pure ()

theorem attempt {x : Handler ε σ μ α} (h : Steady P True x) : Steady P fails x.attempt := by
  intro p
  rw [ends_attempt]
  exact ends_mono (h p) (fun _ hq => hq) (fun _ _ hq => hq.2) fun _ _ hq => hq

end Steady

/-- What holds before holds after. -/
def Keeps (I : σ → Prop) (p q : Process σ μ) : Prop := I p.state → I q.state

instance (I : σ → Prop) : Std.Refl (Keeps (μ := μ) I) := ⟨fun _ h => h⟩

instance (I : σ → Prop) : IsTrans (Process σ μ) (Keeps I) := ⟨fun _ _ _ h g i => g (h i)⟩

end Handler

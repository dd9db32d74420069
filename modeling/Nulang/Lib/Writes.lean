import Nulang.Lib.Handler

/-!
# The writes a handler makes

What the files of a process hold is described by an image: `holds s i` says that the state `s` has
files that hold `i`, and `land i w` is what a write `w` makes of the image. `Makes holds land x p i
ws Q` says that the handler `x` makes exactly the writes `ws`, one after the other: when it is
killed after some of them, the files hold what these have left, and when it is not, what all of them
have left. So a crash at any point is described by a part of one list.
-/

set_option autoImplicit false

namespace Handler

open List

variable {ε σ μ α β ι ω : Type}

/-- The handler makes these writes, over files that hold `i`, and returns in `Q`. -/
def Makes (holds : σ → ι → Prop) (land : ι → ω → ι) (x : Handler ε σ μ α) (p : Process σ μ) (i : ι)
    (ws : List ω) (Q : α → Process σ μ → Prop) : Prop :=
  x.Ends p
    (fun q => ∃ n, p.writes = some n ∧ n < ws.length ∧ holds q.state ((ws.take n).foldl land i))
    (fun _ _ => False)
    fun a q => (∀ n, p.writes = some n → ws.length ≤ n) ∧ q.writes = p.writes.map (· - ws.length) ∧
      holds q.state (ws.foldl land i) ∧ Q a q

namespace Makes

variable {holds : σ → ι → Prop} {land : ι → ω → ι} {p : Process σ μ} {i : ι}

variable {Q : α → Process σ μ → Prop} {x : Handler ε σ μ α} {w : List ω}

theorem pure {a : α} (hi : holds p.state i) (hQ : Q a p) :
    Makes (ε := ε) holds land (pure a) p i [] Q :=
  ⟨fun _ _ => Nat.zero_le _, by simp, hi, hQ⟩

theorem mono {R : α → Process σ μ → Prop} (h : Makes holds land x p i w Q)
    (hQ : ∀ a q, holds q.state (w.foldl land i) → Q a q → R a q) : Makes holds land x p i w R := by
  refine ends_imp h ?_
  rintro a q ⟨hle, hwrites, hi, hq⟩
  exact ⟨hle, hwrites, hi, hQ a q hi hq⟩

theorem read {f : σ → Handler ε σ μ α} (h : Makes holds land (f p.state) p i w Q) :
    Makes holds land (Handler.read >>= f) p i w Q := by
  unfold Makes
  rw [ends_bind, ends_read]
  exact h

theorem bind {x : Handler ε σ μ β} {f : β → Handler ε σ μ α} {v : List ω}
    (hx : Makes holds land x p i w fun b q => Makes holds land (f b) q (w.foldl land i) v Q) :
    Makes holds land (x >>= f) p i (w ++ v) Q := by
  unfold Makes
  rw [ends_bind]
  refine ends_mono hx ?_ (fun _ _ hq => hq) ?_
  · rintro q ⟨n, hn, hlt, hi⟩
    refine ⟨n, hn, by rw [length_append]; omega, ?_⟩
    rw [take_append_of_le_length (Nat.le_of_lt hlt)]
    exact hi
  · rintro b q ⟨hle, hwrites, _, hf⟩
    have hwrites' {m : Nat} (hm : q.writes = some m) : ∃ n, p.writes = some n ∧
        m = n - w.length := by
      rw [hwrites] at hm
      obtain ⟨n, hn, rfl⟩ := Option.map_eq_some_iff.mp hm
      exact ⟨n, hn, rfl⟩
    refine ends_mono hf ?_ (fun _ _ hr => hr) ?_
    · rintro r ⟨m, hm, hlt, hi⟩
      obtain ⟨n, hn, rfl⟩ := hwrites' hm
      have hn' := hle n hn
      refine ⟨n, hn, by rw [length_append]; omega, ?_⟩
      rw [take_append, take_of_length_le hn', foldl_append]
      exact hi
    · rintro a r ⟨hle', hwr, hi, hQ⟩
      refine ⟨fun n hn => ?_, ?_, ?_, hQ⟩
      · have hn' := hle n hn
        have hm := hle' (n - w.length) (by rw [hwrites, hn, Option.map_some])
        rw [length_append]
        omega
      · rw [hwr, hwrites, Option.map_map, length_append]
        congr 1
        funext n
        exact Nat.sub_sub n w.length v.length
      · rw [foldl_append]
        exact hi

theorem bind_last {x : Handler ε σ μ β} {f : β → Handler ε σ μ α}
    (hx : Makes holds land x p i w fun b q => Makes holds land (f b) q (w.foldl land i) [] Q) :
    Makes holds land (x >>= f) p i w Q := by
  have h := bind hx
  rw [append_nil] at h
  exact h

theorem remember {f : σ → σ} {Q : Unit → Process σ μ → Prop} (hi : holds (f p.state) i)
    (hQ : Q () (p.changed f)) :
    Makes (ε := ε) holds land (Handler.remember f) p i [] Q :=
  ⟨fun _ _ => Nat.zero_le _, by simp, hi, hQ⟩

/-- A handler that is one write, before which it may change what is kept in memory. -/
theorem single {o : Process σ μ} {g : σ → σ} {r : α} {w : ω}
    (hends : ∀ (K : Process σ μ → Prop) (E : ε → Process σ μ → Prop) (Q : α → Process σ μ → Prop),
      x.Ends p K E Q ↔ if p.writes = some 0 then K o else Q r (p.wrote g))
    (ho : holds o.state i) (hland : holds (g p.state) (land i w)) (hQ : Q r (p.wrote g)) :
    Makes holds land x p i [w] Q := by
  unfold Makes
  rw [hends]
  split_ifs with hw
  · exact ⟨0, hw, Nat.zero_lt_one, ho⟩
  · refine ⟨fun n hn => ?_, rfl, hland, hQ⟩
    rw [hn, Option.some.injEq] at hw
    exact Nat.one_le_iff_ne_zero.mpr hw

theorem write {g : σ → σ} {w : ω} {Q : Unit → Process σ μ → Prop} (hi : holds p.state i)
    (hland : holds (g p.state) (land i w)) (hQ : Q () (p.wrote g)) :
    Makes (ε := ε) holds land (Handler.write g) p i [w] Q :=
  single (fun _ _ _ => ends_write) hi hland hQ

/-- Killed after `k` writes, or done with all of them. -/
theorem cut {s : σ} {sent : List μ} {k : Nat} (h : Makes holds land x ⟨s, sent, some k⟩ i w Q) :
    holds (x.exec ⟨s, sent, some k⟩).2.state ((w.take k).foldl land i) := by
  unfold Makes Ends at h
  revert h
  rcases x.exec ⟨s, sent, some k⟩ with ⟨(_ | e) | a, q⟩
  · rintro ⟨n, hn, _, hi⟩
    cases hn
    exact hi
  · exact False.elim
  · rintro ⟨hle, _, hi, _⟩
    rw [take_of_length_le (hle k rfl)]
    exact hi

theorem unbroken (h : Makes holds land x p i w Q) (hn : p.writes = none) :
    x.Ends p (fun _ => False) (fun _ _ => False) fun a q =>
      q.writes = none ∧ holds q.state (w.foldl land i) ∧ Q a q := by
  refine ends_mono h ?_ (fun _ _ hq => hq) ?_
  · rintro q ⟨n, hw, _⟩
    rw [hn] at hw
    cases hw
  · rintro a q ⟨_, hw, hi, hQ⟩
    refine ⟨?_, hi, hQ⟩
    rw [hw, hn]
    rfl

theorem done {s : σ} {sent : List μ} (h : Makes holds land x ⟨s, sent, none⟩ i w Q) :
    holds (x.exec ⟨s, sent, none⟩).2.state (w.foldl land i) ∧
      ∃ a, Q a (x.exec ⟨s, sent, none⟩).2 := by
  unfold Makes Ends at h
  revert h
  rcases x.exec ⟨s, sent, none⟩ with ⟨(_ | e) | a, q⟩
  · rintro ⟨n, hn, _⟩
    cases hn
  · exact False.elim
  · rintro ⟨_, _, hi, hQ⟩
    exact ⟨hi, a, hQ⟩

end Makes

end Handler

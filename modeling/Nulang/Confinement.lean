import Nulang.Authority

/-!
# Confinement of authority

On a path that keeps the executing actor the current one, a spawn is checked against the manifest of
the actor whose bytecode spawns. `authority_confined` says that a run gains no authority as long as
all its paths into bytecode are of that kind, and that every other path can be used to gain some.

The first half is an invariant of runs: the actor on top of the stack is the current one
(`Attributed`), and a grant that is held goes back to the host through holders (`Recorded`). The
second half has a run for each kind of path that is not of that kind: a resumption that sets no
current actor, an ask or a query, which leave the caller current, and a replay inside a turn, after
which nobody is (`exists_gains`).
-/

set_option autoImplicit false

namespace Nulang.Authority

open List Option Function Runtime

variable {Grant : Type}

/-- What is held is recorded, and what is recorded comes from the host through holders. -/
structure Recorded (s : Runtime Grant) : Prop where
  manifest : ∀ id a, s.actors id = some a → ∀ m, a.authority = some m →
    ∀ g ∈ m, (a.life, g) ∈ s.held
  snapshot : ∀ id m life, s.snapshots id = some (m, life) → ∀ g ∈ m, (life, g) ∈ s.held
  inherited : ∀ life g, (life, g) ∈ s.held → Inherited s life g
  unborn : ∀ life, s.lives ≤ life → s.parent life = none

variable {s s' : Runtime Grant}

theorem Inherited.mono (hp : ∀ l p, s.parent l = some p → s'.parent l = some p)
    (hh : ∀ x ∈ s.held, x ∈ s'.held) (hi : ∀ x ∈ s.installed, x ∈ s'.installed) {life : Nat}
    {g : Grant} (h : Inherited s life g) : Inherited s' life g := by
  induction h with
  | host h => exact .host (hi _ h)
  | spawned hpar hg _ ih => exact .spawned (hp _ _ hpar) (hh _ hg) ih

theorem update_cases {β : Type} {f : Nat → Option β} {i j : Nat} {b : Option β} {c : β}
    (h : update f i b j = some c) : j = i ∧ b = some c ∨ f j = some c := by
  by_cases hj : j = i
  · subst hj
    exact .inl ⟨rfl, (update_self j b f).symm.trans h⟩
  · exact .inr ((update_of_ne hj b f).symm.trans h)

namespace Recorded

variable {manifest : List Grant}

theorem of_same (h : Recorded s)
    (hactors : ∀ id a, s'.actors id = some a → ∃ b, s.actors id = some b ∧
      b.authority = a.authority ∧ b.life = a.life)
    (hsnap : s'.snapshots = s.snapshots) (hheld : s'.held = s.held)
    (hinst : s'.installed = s.installed) (hpar : s'.parent = s.parent)
    (hlives : s'.lives = s.lives) : Recorded s' := by
  refine ⟨fun id a ha m hm g hg => ?_, fun id m life hs => ?_, fun life g hg => ?_,
    fun life hl => ?_⟩
  · obtain ⟨b, hb, hauth, hlife⟩ := hactors id a ha
    rw [hheld, ← hlife]
    exact h.manifest id b hb m (hauth.trans hm) g hg
  · rw [hsnap] at hs
    rw [hheld]
    exact h.snapshot id m life hs
  · rw [hheld] at hg
    exact (h.inherited life g hg).mono (fun _ _ hp => hpar ▸ hp) (fun _ hx => hheld ▸ hx)
      fun _ hx => hinst ▸ hx
  · rw [hlives] at hl
    rw [hpar]
    exact h.unborn life hl

variable {id : Nat} {a : Actor Grant}

/-- A new actor whose grants its parent holds, or the host installs. -/
theorem create (h : Recorded s) {persistent : Bool} {parent : Option Nat}
    {inst : List (Nat × Grant)} (hinst : ∀ x ∈ s.installed, x ∈ inst)
    (hfrom : ∀ g ∈ manifest, (s.lives, g) ∈ inst ∨ ∃ p, parent = some p ∧ (p, g) ∈ s.held)
    (spawns : List (SpawnRecord Grant)) :
    Recorded
      { s.create id manifest persistent parent with installed := inst, spawns := spawns } := by
  have hmono {life : Nat} {g : Grant} (hi : Inherited s life g) :
      Inherited { s.create id manifest persistent parent with installed := inst, spawns := spawns }
        life g := by
    refine hi.mono (fun l p hp => ?_) (fun x hx => mem_append_right _ hx) hinst
    have hne : l ≠ s.lives := fun heq => by
      rw [h.unborn l (by omega)] at hp
      cases hp
    simpa [Runtime.create, hne] using hp
  refine ⟨fun i a ha m hm g hg => ?_, fun i m life hs g hg => ?_, fun life g hg => ?_,
    fun life hl => ?_⟩
  · rcases update_cases ha with ⟨rfl, hput⟩ | ha
    · cases hput
      cases hm
      exact mem_append_left _ (List.mem_map_of_mem hg)
    · exact mem_append_right _ (h.manifest i a ha m hm g hg)
  · exact mem_append_right _ (h.snapshot i m life hs g hg)
  · rcases mem_append.mp hg with hg | hg
    · obtain ⟨g', hg', heq⟩ := List.mem_map.mp hg
      obtain ⟨rfl, rfl⟩ := Prod.mk.inj heq
      rcases hfrom g' hg' with hi | ⟨p, rfl, hp⟩
      · exact .host hi
      · exact .spawned (update_self _ _ _) (mem_append_right _ hp) (hmono (h.inherited p g' hp))
    · exact hmono (h.inherited life g hg)
  · simp only [Runtime.create] at hl ⊢
    have hne : life ≠ s.lives := by omega
    rw [update_of_ne hne]
    exact h.unborn life (by omega)

theorem restore (h : Recorded s) {snapshot : List Grant × Nat}
    (hs : s.snapshots id = some snapshot) :
    Recorded (s.restore id snapshot) := by
  refine ⟨fun i a ha m hm => ?_, h.snapshot, fun life g hg => ?_, h.unborn⟩
  · rcases update_cases ha with ⟨rfl, hput⟩ | ha
    · cases hput
      cases hm
      exact h.snapshot i snapshot.1 snapshot.2 hs
    · exact h.manifest i a ha m hm
  · refine (h.inherited life g hg).mono ?_ ?_ ?_
    exacts [fun _ _ hp => hp, fun _ hx => hx, fun _ hx => hx]

theorem of_update {b : Actor Grant} (ha : s.actors id = some a) (hauth : b.authority = a.authority)
    (hlife : b.life = a.life) (hactors : s'.actors = update s.actors id (some b)) (i : Nat)
    (c : Actor Grant) (hc : s'.actors i = some c) :
    ∃ d, s.actors i = some d ∧ d.authority = c.authority ∧ d.life = c.life := by
  rw [hactors] at hc
  rcases update_cases hc with ⟨rfl, hput⟩ | hc
  · cases hput
    exact ⟨a, ha, hauth.symm, hlife.symm⟩
  · exact ⟨c, hc, rfl, rfl⟩

/-- The host replaces a manifest. -/
theorem install (h : Recorded s) (ha : s.actors id = some a) (manifest : Option (List Grant)) :
    Recorded { s with
      actors := update s.actors id (some { a with authority := manifest })
      held := (manifest.getD []).map (a.life, ·) ++ s.held
      installed := (manifest.getD []).map (a.life, ·) ++ s.installed } := by
  refine ⟨fun i b hb m hm g hg => ?_, fun i m life hs g hg => ?_, fun life g hg => ?_, h.unborn⟩
  · rcases update_cases hb with ⟨rfl, hput⟩ | hb
    · cases hput
      cases hm
      exact mem_append_left _ (List.mem_map_of_mem hg)
    · exact mem_append_right _ (h.manifest i b hb m hm g hg)
  · exact mem_append_right _ (h.snapshot i m life hs g hg)
  · rcases mem_append.mp hg with hg | hg
    · exact .host (mem_append_left _ hg)
    · refine (h.inherited life g hg).mono ?_ ?_ ?_
      exacts [fun _ _ hp => hp, fun _ hx => mem_append_right _ hx, fun _ hx =>
      mem_append_right _ hx]

theorem checkpoint (h : Recorded s) (ha : s.actors id = some a) (hm : a.authority = some manifest) :
    Recorded { s with snapshots := update s.snapshots id (some (manifest, a.life)) } := by
  refine ⟨h.manifest, fun i m life hs => ?_, fun life g hg => ?_, h.unborn⟩
  · rcases update_cases hs with ⟨rfl, hput⟩ | hs
    · cases hput
      exact h.manifest i a ha manifest hm
    · exact h.snapshot i m life hs
  · refine (h.inherited life g hg).mono ?_ ?_ ?_
    exacts [fun _ _ hp => hp, fun _ hx => hx, fun _ hx => hx]

theorem push (h : Recorded s) {e : Entry} (ha : s.actors id = some a) : Recorded (s.push e id a) :=
  h.of_same (of_update (b := { a with suspended := none }) ha rfl rfl rfl) rfl rfl rfl rfl rfl

end Recorded

/-! ## What an event can do -/

section

variable [DecidableEq Grant]

/-- The outcomes of `Runtime.apply`, with their guards. -/
inductive Step (s : Runtime Grant) : Event Grant → Runtime Grant → Prop where
  | hostSpawn {id : Nat} {manifest : List Grant} {persistent : Bool} (hempty : s.stack = [])
      (hfresh : s.fresh id = true) :
      Step s (.hostSpawn id manifest persistent) { s.create id manifest persistent none with
        installed := manifest.map (s.lives, ·) ++ s.installed }
  | hostInstall {id : Nat} {manifest : Option (List Grant)} {a : Actor Grant}
      (hempty : s.stack = []) (ha : s.actors id = some a) :
      Step s (.hostInstall id manifest) { s with
        actors := update s.actors id (some { a with authority := manifest })
        held := (manifest.getD []).map (a.life, ·) ++ s.held
        installed := (manifest.getD []).map (a.life, ·) ++ s.installed }
  | native {current : Option Nat} (hempty : s.stack = []) :
      Step s (.native current) { s with current := current }
  | exit {id : Nat} : Step s (.exit id) { s with actors := update s.actors id none }
  | checkpoint {id : Nat} {a : Actor Grant} {manifest : List Grant} (ha : s.actors id = some a)
      (hm : a.authority = some manifest) :
      Step s (.checkpoint id)
        { s with snapshots := update s.snapshots id (some (manifest, a.life)) }
  | restart : Step s .restart
      { s with actors := fun _ => none, current := none, stack := [], wakes := [] }
  | enter {e : Entry} {id : Nat} {a : Actor Grant} (hadmits : s.admits e = true) (hne : e ≠ .replay)
      (ha : s.actors id = some a) : Step s (.enter e id) (s.push e id a)
  | replay {id : Nat} {snapshot : List Grant × Nat} (hadmits : s.admits .replay = true)
      (hfresh : s.fresh id = true) (hs : s.snapshots id = some snapshot) :
      Step s (.replay id)
        ((s.restore id snapshot).push .replay id ⟨some snapshot.1, true, none, snapshot.2⟩)
  | hydrate {id : Nat} (hfresh : s.fresh id = true) :
      Step s (.hydrate id) (s.create id [] true none)
  | spawn {id : Nat} {requested : List Grant} {persistent : Bool} {top : Activation}
      {rest : List Activation} (hstack : s.stack = top :: rest) (hfresh : s.fresh id = true)
      (hauth : s.authorizes requested = true) :
      Step s (.spawn id (some requested) persistent)
        { s.create id requested persistent (some top.life) with spawns :=
          ⟨top.life, (s.actors top.actor).bind (·.authority), requested⟩ :: s.spawns }
  | spawnRestored {id : Nat} {persistent : Bool} {snapshot : List Grant × Nat}
      (hfresh : s.fresh id = true) (hs : s.snapshots id = some snapshot) :
      Step s (.spawnPlain id persistent) (s.restore id snapshot)
  | spawnPlain {id : Nat} {persistent : Bool} {top : Activation} {rest : List Activation}
      (hstack : s.stack = top :: rest) (hfresh : s.fresh id = true) :
      Step s (.spawnPlain id persistent) (s.create id [] persistent (some top.life))
  | send {id : Nat} {wakes : List Nat} : Step s (.send id) { s with wakes := wakes }
  | suspend {reason : Suspension} {top : Activation} {rest : List Activation}
      (hstack : s.stack = top :: rest) :
      Step s (.suspend reason) { s with
        actors := update s.actors top.actor
          ((s.actors top.actor).map fun a => { a with suspended := some reason })
        stack := { top with live := false } :: rest }
  | ret {top : Activation} {rest : List Activation} (hstack : s.stack = top :: rest) :
      Step s .ret { s with stack := { top with live := false } :: rest }
  | again {top : Activation} {rest : List Activation} (hstack : s.stack = top :: rest) :
      Step s .again { s with stack := { top with live := true } :: rest }
  | wake {id : Nat} {wakes : List Nat} {a : Actor Grant} (hne : s.stack ≠ [])
      (ha : s.actors id = some a) :
      Step s .wake ({ s with wakes := wakes }.push .deferredWake id a)
  | wakeDropped {wakes : List Nat} : Step s .wake { s with wakes := wakes }
  | leave {top : Activation} {rest : List Activation} (hstack : s.stack = top :: rest) :
      Step s .leave { s with current := top.entry.leaves s.current top.saved, stack := rest }

theorem step_of_apply {s s' : Runtime Grant} {e : Event Grant} (h : s.apply e = some s') :
    Step s e s' := by
  cases e <;>
    simp only [apply, ite_none_right_eq_some, Bool.and_eq_true, List.isEmpty_iff, bne_iff_ne,
    some.injEq, bind_eq_some_iff, Option.map_eq_some_iff] at h
  case hostSpawn id manifest persistent =>
    obtain ⟨⟨hempty, hfresh⟩, rfl⟩ := h
    exact .hostSpawn hempty hfresh
  case hostInstall id manifest =>
    obtain ⟨hempty, a, ha, rfl⟩ := h
    exact .hostInstall hempty ha
  case native current =>
    obtain ⟨hempty, rfl⟩ := h
    exact .native hempty
  case exit id =>
    subst h
    exact .exit
  case checkpoint id =>
    obtain ⟨a, ha, manifest, hm, -, rfl⟩ := h
    exact .checkpoint ha hm
  case restart =>
    subst h
    exact .restart
  case enter e id =>
    obtain ⟨⟨hadmits, hne⟩, a, ha, -, rfl⟩ := h
    exact .enter hadmits hne ha
  case replay id =>
    obtain ⟨⟨hadmits, hfresh⟩, snapshot, hs, rfl⟩ := h
    exact .replay hadmits hfresh hs
  case hydrate id =>
    obtain ⟨hfresh, rfl⟩ := h
    exact .hydrate hfresh
  case spawn id site persistent =>
    split at h
    · cases h
    · simp only [ite_none_right_eq_some, bind_eq_some_iff, some.injEq] at h
      obtain ⟨⟨-, hfresh⟩, requested, rfl, hauth, rfl⟩ := h
      exact .spawn ‹_› hfresh hauth
  case spawnPlain id persistent =>
    split at h
    · cases h
    · rw [ite_none_right_eq_some] at h
      obtain ⟨⟨-, hfresh⟩, h⟩ := h
      split at h
      · split at h
        · cases h
          exact .spawnRestored hfresh ‹_›
        · cases h
          exact .spawnPlain ‹_› hfresh
      · cases h
        exact .spawnPlain ‹_› hfresh
  case send id =>
    obtain ⟨-, rfl⟩ := h
    exact .send
  case wake =>
    split at h
    · cases h
    · rw [ite_none_right_eq_some] at h
      obtain ⟨⟨-, hne⟩, h⟩ := h
      split at h
      · split at h
        · cases h
          exact .wake (by simpa using hne) ‹_›
        · cases h
          exact .wakeDropped
      · cases h
        exact .wakeDropped
  -- what the behavior on top does
  all_goals
    split at h
    · cases h
    · rw [ite_none_right_eq_some, some.injEq] at h
      obtain ⟨-, rfl⟩ := h
      first
      | exact .suspend ‹_›
      | exact .ret ‹_›
      | exact .again ‹_›
      | exact .leave ‹_›

end

/-! ## The executing actor is the current one -/

/-- Every behavior on the stack was entered on a path that keeps the current actor, and the actor on
top is the current one. -/
structure Attributed (s : Runtime Grant) : Prop where
  current : ∀ top rest, s.stack = top :: rest → s.current = some top.actor
  frames : s.stack.IsChain fun top below => top.entry.restores = true ∧ top.saved = some below.actor
  sets : ∀ f ∈ s.stack, f.entry.sets = true
  lives : ∀ f ∈ s.stack, ∀ a, s.actors f.actor = some a → a.life = f.life

namespace Attributed

theorem of_empty (h : s.stack = []) : Attributed s := by
  refine ⟨fun top rest hs => ?_, h ▸ .nil, fun f hf => ?_, fun f hf => ?_⟩
  · cases h.symm.trans hs
  · cases h ▸ hf
  · cases h ▸ hf

theorem of_same (h : Attributed s) (hstack : s'.stack = s.stack) (hcur : s'.current = s.current)
    (hlives : ∀ f ∈ s.stack, ∀ a, s'.actors f.actor = some a → a.life = f.life) :
    Attributed s' := by
  refine ⟨?_, hstack ▸ h.frames, hstack ▸ h.sets, hstack ▸ hlives⟩
  rw [hstack, hcur]
  exact h.current

variable {a : Actor Grant} {id : Nat} {top : Activation} {rest : List Activation}

theorem of_fresh (h : Attributed s) (hfresh : s.fresh id = true) (hstack : s'.stack = s.stack)
    (hcur : s'.current = s.current) (hactors : s'.actors = update s.actors id (some a)) :
    Attributed s' := by
  refine h.of_same hstack hcur fun f hf b hb => ?_
  have hne : f.actor ≠ id := by
    rw [fresh, Bool.and_eq_true, List.all_eq_true] at hfresh
    simpa using hfresh.2 f hf
  rw [hactors, update_of_ne hne] at hb
  exact h.lives f hf b hb

/-- The VM starts or stops running the behavior on top. -/
theorem of_live (h : Attributed s) {live : Bool} (hs : s.stack = top :: rest)
    (hstack : s'.stack = { top with live := live } :: rest) (hcur : s'.current = s.current)
    (hlives : ∀ f ∈ s.stack, ∀ a, s'.actors f.actor = some a → a.life = f.life) :
    Attributed s' := by
  have hframes := h.frames
  have hsets := h.sets
  rw [hs] at hframes hsets hlives
  refine ⟨fun t r ht => ?_, ?_, ?_, ?_⟩
  · rw [hstack] at ht
    cases ht
    rw [hcur]
    exact h.current top rest hs
  · rw [hstack]
    cases rest with
    | nil => exact .singleton _
    | cons below rest => exact isChain_cons_cons.mpr (isChain_cons_cons.mp hframes)
  · rw [hstack]
    exact forall_mem_cons.mpr (forall_mem_cons.mp hsets)
  · rw [hstack]
    exact forall_mem_cons.mpr (forall_mem_cons.mp hlives)

/-- A path that keeps the current actor is taken. -/
theorem push (h : Attributed s) {e : Entry} (ha : s.actors id = some a)
    (hkeeps : e.Keeps (!s.stack.isEmpty)) : Attributed (s.push e id a) := by
  have hlife (i : Nat) (b : Actor Grant) (hb : (s.push e id a).actors i = some b) :
      ∃ d, s.actors i = some d ∧ d.authority = b.authority ∧ d.life = b.life :=
    Recorded.of_update (b := { a with suspended := none }) ha rfl rfl rfl i b hb
  refine ⟨fun top rest hs => ?_, ?_, fun f hf => ?_, fun f hf b hb => ?_⟩
  · cases hs
    simp only [Runtime.push, hkeeps.1, if_true]
  · show List.IsChain _ (_ :: s.stack)
    have hframes := h.frames
    cases hs : s.stack with
    | nil => exact .singleton _
    | cons below rest =>
      rw [hs] at hframes
      refine isChain_cons_cons.mpr ⟨⟨hkeeps.2 (by simp [hs]), ?_⟩, hframes⟩
      exact h.current below rest hs
  · rcases mem_cons.mp hf with rfl | hf
    · exact hkeeps.1
    · exact h.sets f hf
  · obtain ⟨d, hd, -, hdb⟩ := hlife f.actor b hb
    rw [← hdb]
    rcases mem_cons.mp hf with rfl | hf
    · rw [ha] at hd
      cases hd
      rfl
    · exact h.lives f hf d hd

theorem leave (h : Attributed s) (hs : s.stack = top :: rest) :
    Attributed { s with current := top.entry.leaves s.current top.saved, stack := rest } := by
  have hframes := h.frames
  rw [hs] at hframes
  refine ⟨fun below rest' hr => ?_, hframes.of_cons, fun f hf => ?_, fun f hf => ?_⟩
  · subst hr
    obtain ⟨hrestores, hsaved⟩ := (isChain_cons_cons.mp hframes).1
    cases he : top.entry <;> simp_all [Entry.restores, Entry.leaves]
  · exact h.sets f (hs ▸ mem_cons_of_mem _ hf)
  · exact h.lives f (hs ▸ mem_cons_of_mem _ hf)

end Attributed

/-- The paths that a run may take all keep the current actor. -/
def KeepsAll (ok : Entry → Bool → Prop) : Prop :=
  ∀ e nested, e.Possible nested → ok e nested → e.Keeps nested

/-- Where a path can be taken, nothing but a query could have admitted an impossible one. -/
theorem possible_of_admits (h : Attributed s) {e : Entry} (hadmits : s.admits e = true) :
    e.Possible (!s.stack.isEmpty) := by
  refine ⟨fun he => ?_, fun hne => ?_⟩
  · subst he
    cases hadmits
  · have hnonempty : s.stack.isEmpty = false := by simpa using hne
    cases e <;>
      simp only [admits, hnonempty, Bool.false_or, Bool.false_eq_true] at hadmits <;> first
      | rfl
      -- a wake from inside a query: the stack has no query
      | (exfalso
         rw [Bool.and_eq_true] at hadmits
         cases hs : s.stack with
         | nil => simp [hs] at hnonempty
         | cons top rest =>
           have hquery : top.entry = .query := by simpa [hs] using hadmits.2
           have hsets := h.sets top (by simp [hs])
           rw [hquery] at hsets
           cases hsets)

theorem Attributed.step [DecidableEq Grant] {e : Event Grant} (h : Attributed s)
    {ok : Entry → Bool → Prop} (hkeeps : KeepsAll ok)
    (hok : ∀ p, e.entry = some p → ok p (!s.stack.isEmpty)) (hs : Step s e s') : Attributed s' := by
  cases hs with
  | hostSpawn hempty _ | hostInstall hempty _ => exact of_empty hempty
  | native hempty => exact of_empty hempty
  | exit =>
    rename_i id
    refine h.of_same rfl rfl fun f hf a ha => ?_
    rcases update_cases ha with ⟨-, ha⟩ | ha
    · cases ha
    · exact h.lives f hf a ha
  | checkpoint | send | wakeDropped => exact h.of_same rfl rfl h.lives
  | restart => exact of_empty rfl
  | enter hadmits _ ha =>
    exact h.push ha (hkeeps _ _ (possible_of_admits h hadmits) (hok _ rfl))
  | replay hadmits hfresh hs =>
    rename_i id snapshot
    have hk := hkeeps _ _ (possible_of_admits h hadmits) (hok _ rfl)
    have hrestored : Attributed (s.restore id snapshot) := h.of_fresh hfresh rfl rfl rfl
    exact hrestored.push (update_self _ _ _) hk
  | hydrate hfresh => exact h.of_fresh hfresh rfl rfl rfl
  | spawn hstack hfresh _ => exact h.of_fresh hfresh rfl rfl rfl
  | spawnRestored hfresh _ => exact h.of_fresh hfresh rfl rfl rfl
  | spawnPlain hstack hfresh => exact h.of_fresh hfresh rfl rfl rfl
  | suspend hstack =>
    rename_i reason top rest
    refine h.of_live hstack rfl rfl fun f hf a ha => ?_
    rcases update_cases ha with ⟨hid, ha⟩ | ha
    · obtain ⟨b, hb, rfl⟩ := map_eq_some_iff.mp ha
      exact h.lives f hf b (hid ▸ hb)
    · exact h.lives f hf a ha
  | ret hstack | again hstack => exact h.of_live hstack rfl rfl h.lives
  | wake hne ha =>
    rename_i id wakes a
    have h' : Attributed { s with wakes := wakes } := h.of_same rfl rfl h.lives
    exact h'.push ha ⟨rfl, fun _ => rfl⟩
  | leave hstack => exact h.leave hstack

section

variable [DecidableEq Grant] {e : Event Grant} {ok : Entry → Bool → Prop}

variable {g : Grant}

/-- What the check of a spawn admits, with a current actor. -/
theorem held_of_authorizes {id : Nat} {requested : List Grant} (hc : s.current = some id)
    (h : s.authorizes requested = true) (hg : g ∈ requested) :
    ∃ a manifest, s.actors id = some a ∧ a.authority = some manifest ∧ g ∈ manifest := by
  simp only [authorizes, hc] at h
  cases ha : s.actors id with
  | none =>
    simp only [ha, List.isEmpty_iff] at h
    rw [h] at hg
    cases hg
  | some a =>
    simp only [ha, Actor.delegates] at h
    cases hm : a.authority with
    | none => simp [hm] at h
    | some manifest =>
      simp only [hm, List.all_eq_true, contains_iff_mem] at h
      exact ⟨a, manifest, rfl, hm, h g hg⟩

theorem Recorded.step (h : Recorded s) (hat : Attributed s) (hs : Step s e s') : Recorded s' := by
  have hsame (id : Nat) (a : Actor Grant) (ha : s.actors id = some a) :
      ∃ b, s.actors id = some b ∧ b.authority = a.authority ∧ b.life = a.life := ⟨a, ha, rfl, rfl⟩
  cases hs with
  | hostSpawn _ _ =>
    refine h.create (fun x hx => mem_append_right _ hx) (fun g hg => ?_) s.spawns
    exact .inl (mem_append_left _ (List.mem_map_of_mem hg))
  | hostInstall _ ha => exact h.install ha _
  | native | send | ret | again | wakeDropped | leave => exact h.of_same hsame rfl rfl rfl rfl rfl
  | exit =>
    rename_i id
    refine h.of_same (fun i a ha => ?_) rfl rfl rfl rfl rfl
    rcases update_cases ha with ⟨-, ha⟩ | ha
    · cases ha
    · exact hsame i a ha
  | checkpoint ha hm => exact h.checkpoint ha hm
  | restart => exact h.of_same (fun _ _ ha => by cases ha) rfl rfl rfl rfl rfl
  | enter _ _ ha => exact h.push ha
  | replay _ _ hs => exact (h.restore hs).push (update_self _ _ _)
  | hydrate | spawnPlain => exact h.create (fun _ hx => hx) (fun _ hg => by cases hg) s.spawns
  | spawn hstack hfresh hauth =>
    rename_i id requested persistent top rest
    refine h.create (fun _ hx => hx) (fun g hg => .inr ⟨top.life, rfl, ?_⟩) _
    obtain ⟨a, manifest, ha, hm, hgm⟩ := held_of_authorizes (hat.current top rest hstack) hauth hg
    rw [← hat.lives top (by simp [hstack]) a ha]
    exact h.manifest top.actor a ha manifest hm g hgm
  | spawnRestored _ hs => exact h.restore hs
  | suspend hstack =>
    rename_i reason top rest
    refine h.of_same (fun i a ha => ?_) rfl rfl rfl rfl rfl
    rcases update_cases ha with ⟨rfl, hput⟩ | ha
    · obtain ⟨b, hb, rfl⟩ := map_eq_some_iff.mp hput
      exact ⟨b, hb, rfl, rfl⟩
    · exact hsame i a ha
  | wake hne ha =>
    rename_i id wakes a
    have h' : Recorded { s with wakes := wakes } := h.of_same hsame rfl rfl rfl rfl rfl
    exact h'.push ha

/-- Every child of bytecode got only what its spawner held. -/
def Delegated (s : Runtime Grant) : Prop :=
  ∀ r ∈ s.spawns, ∀ g ∈ r.granted, ∃ manifest, r.manifest = some manifest ∧ g ∈ manifest

theorem Delegated.step (h : Delegated s) (hat : Attributed s) (hs : Step s e s') :
    Delegated s' := by
  cases hs with
  | spawn hstack hfresh hauth =>
    rename_i id requested persistent top rest
    intro r hr g hg
    rcases mem_cons.mp hr with rfl | hr
    · obtain ⟨a, manifest, ha, hm, hgm⟩ := held_of_authorizes (hat.current top rest hstack) hauth hg
      exact ⟨manifest, by simp [ha, hm], hgm⟩
    · exact h r hr g hg
  | _ => exact h

theorem Reachable.kept (hkeeps : KeepsAll ok) (h : Reachable ok s) :
    Recorded s ∧ Attributed s ∧ Delegated s := by
  induction h with
  | new =>
    refine ⟨⟨fun id a ha => ?_, fun id m life hs => ?_, fun life g hg => ?_, fun life _ => rfl⟩,
      .of_empty rfl,
      fun r hr => ?_⟩
    · cases ha
    · cases hs
    · cases hg
    · cases hr
  | step _ hok hs ih =>
    obtain ⟨hrec, hat, hdel⟩ := ih
    have hstep := step_of_apply hs
    exact ⟨hrec.step hat hstep, hat.step hkeeps hok hstep, hdel.step hat hstep⟩

theorem Reachable.confined (hkeeps : KeepsAll ok) (h : Reachable ok s) : Confined s := by
  obtain ⟨hrec, -, hdel⟩ := h.kept hkeeps
  refine ⟨hdel, fun id a ha manifest hm g hg => ?_⟩
  exact hrec.inherited a.life g (hrec.manifest id a ha manifest hm g hg)

/-! ## Runs that gain authority -/

/-- The state after a sequence of events, if all of them can happen. -/
def Runtime.run (s : Runtime Grant) : List (Event Grant) → Option (Runtime Grant)
  | [] => some s
  | e :: events => (s.apply e).bind fun s' => s'.run events

/-- The paths into bytecode that a sequence of events takes, each with whether it is nested. -/
def Runtime.paths (s : Runtime Grant) : List (Event Grant) → List (Entry × Bool)
  | [] => []
  | e :: events =>
      (e.entry.map (·, !s.stack.isEmpty)).toList ++
        ((s.apply e).map fun s' => s'.paths events).getD []

theorem Reachable.run (h : Reachable ok s) {events : List (Event Grant)}
    (hok : ∀ p ∈ s.paths events, ok p.1 p.2) (hs : s.run events = some s') : Reachable ok s' := by
  induction events generalizing s with
  | nil =>
    cases hs
    exact h
  | cons e events ih =>
    obtain ⟨t, ht, hs⟩ := bind_eq_some_iff.mp hs
    simp only [paths, ht, map_some, getD_some, mem_append] at hok
    refine ih (h.step (fun p hp => ?_) ht) (fun p hp => hok p (.inr hp)) hs
    exact hok (p, !s.stack.isEmpty) (.inl (by simp [hp]))

/-- What an actor without grants waits for before it is entered again. -/
def Entry.reason : Entry → Suspension
  | .signal => .signal
  | .directWake => .receiveWait
  | _ => .sleep

/-- An actor without grants suspends in a message turn, is resumed on another path and spawns. -/
def resumedRun (e : Entry) (g : Grant) : List (Event Grant) :=
  [.hostSpawn 0 [] false, .enter .turn 0, .suspend e.reason, .leave, .enter e 0,
    .spawn 1 (some [g]) false]

/-- An actor without grants is entered from the bytecode of one that has some, and spawns. -/
def enteredRun (e : Entry) (g : Grant) : List (Event Grant) :=
  [.hostSpawn 0 [g] false, .hostSpawn 1 [] false, .enter .turn 0, .enter e 1,
    .spawn 2 (some [g]) false]

/-- An actor without grants sends to a grain that is replayed from its journal, and spawns. -/
def hydratingRun (g : Grant) : List (Event Grant) :=
  [.hostSpawn 0 [] true, .checkpoint 0, .exit 0, .hostSpawn 1 [] false, .enter .turn 1,
    .replay 0, .ret,
    .leave, .spawn 2 (some [g]) false]

/-- A child got a grant from an actor that held none. -/
def Gains (s : Runtime Grant) (g : Grant) : Prop :=
  ∃ r ∈ s.spawns, r.manifest = some [] ∧ r.granted = [g]

omit [DecidableEq Grant] in
theorem Gains.not_confined (h : Gains s g) : ¬ Confined s := by
  rintro ⟨hdel, -⟩
  obtain ⟨r, hr, hm, hg⟩ := h
  obtain ⟨manifest, hm', hgm⟩ := hdel r hr g (by simp [hg])
  rw [hm] at hm'
  cases hm'
  cases hgm

theorem resumedRun_gains {e : Entry} (hsets : e.sets = false) (g : Grant) :
    ∃ s, new.run (resumedRun e g) = some s ∧ Gains s g := by
  cases e with
  | turn | flush | deferredWake | replay => cases hsets
  | _ => exact ⟨_, rfl, _, .head _, rfl, rfl⟩

theorem resumedRun_paths {e : Entry} (hsets : e.sets = false) :
    new.paths (resumedRun e g) = [(.turn, false), (e, false)] := by
  cases e with
  | turn | flush | deferredWake | replay => cases hsets
  | _ => rfl

theorem enteredRun_gains {e : Entry} (he : e = .ask ∨ e = .query) (g : Grant) :
    ∃ s, new.run (enteredRun e g) = some s ∧ Gains s g := by
  -- the check compares the grant with itself, which only `simp` decides for an arbitrary type of
  -- grants
  rcases he with rfl | rfl <;>
    simp [run, enteredRun, apply, new, create, fresh,
      push, admits, running, authorizes, Actor.delegates,
      Entry.resumes, Entry.sets, Gains]

theorem enteredRun_paths {e : Entry} (he : e = .ask ∨ e = .query) :
    new.paths (enteredRun e g) = [(.turn, false), (e, true)] := by
  rcases he with rfl | rfl <;>
    simp [paths, enteredRun, apply, new, create, fresh,
      push, admits, running, authorizes, Actor.delegates,
      Entry.resumes, Entry.sets, Event.entry]

theorem hydratingRun_gains (g : Grant) : ∃ s, new.run (hydratingRun g) = some s ∧ Gains s g :=
  ⟨_, rfl, _, .head _, rfl, rfl⟩

theorem hydratingRun_paths : new.paths (hydratingRun g) = [(.turn, false), (.replay, true)] := rfl

/-- A path that does not keep the current actor is in a run that gains a grant. -/
theorem exists_gains (g : Grant) (hturn : ok .turn false) {e : Entry} {nested : Bool}
    (hpossible : e.Possible nested) (hok : ok e nested) (hbad : ¬ e.Keeps nested) :
    ∃ s : Runtime Grant, Reachable ok s ∧ Gains s g := by
  have hreach {events : List (Event Grant)} {s : Runtime Grant}
      (hpaths : new.paths events = [(.turn, false), (e, nested)])
      (hs : new.run events = some s) : Reachable ok s := by
    refine Reachable.new.run (fun p hp => ?_) hs
    rw [hpaths, mem_cons, mem_singleton] at hp
    rcases hp with rfl | rfl
    · exact hturn
    · exact hok
  cases nested with
  | false =>
    have hsets : e.sets = false := by
      cases hse : e.sets with
      | false => rfl
      | true => exact absurd ⟨hse, fun h => by cases h⟩ hbad
    obtain ⟨s, hs, hgains⟩ := resumedRun_gains hsets g
    exact ⟨s, hreach (resumedRun_paths hsets) hs, hgains⟩
  | true =>
    have hnests : e.nests = true := hpossible.2 rfl
    have hcases : e = .replay ∨ (e = .ask ∨ e = .query) := by
      cases e <;> simp_all [Entry.nests, Entry.Keeps, Entry.sets, Entry.restores]
    rcases hcases with rfl | he
    · obtain ⟨s, hs, hgains⟩ := hydratingRun_gains g
      exact ⟨s, hreach (hydratingRun_paths) hs, hgains⟩
    · obtain ⟨s, hs, hgains⟩ := enteredRun_gains he g
      exact ⟨s, hreach (enteredRun_paths he) hs, hgains⟩

/-- Runs that have message turns, and otherwise take the paths that `ok` admits, gain no authority
exactly if all these paths keep the executing actor the current one. -/
theorem authority_confined (g : Grant) (hturn : ok .turn false) :
    (∀ s : Runtime Grant, Reachable ok s → Confined s) ↔ KeepsAll ok := by
  constructor
  · intro h e nested hpossible hok
    by_contra hbad
    obtain ⟨s, hs, hgains⟩ := exists_gains g hturn hpossible hok hbad
    exact hgains.not_confined (h s hs)
  · intro hkeeps s hs
    exact hs.confined hkeeps

/-- The paths that keep the current actor are themselves such a family. -/
theorem authority_confined_keeping :
    Entry.turn.Keeps false ∧
      ((∀ s : Runtime String, Reachable Entry.Keeps s → Confined s) ↔ KeepsAll Entry.Keeps) :=
  ⟨⟨rfl, nofun⟩, authority_confined "net:example.com" ⟨rfl, nofun⟩⟩

/-- An actor without any grant sleeps in a message turn; woken by its timer, it spawns a child with
a network grant. -/
theorem sleeper_gains_grant :
    ∃ s, Runtime.new.run (resumedRun .sleepWake "net:example.com") = some s ∧
      s.spawns.map (fun r => (r.spawner, r.manifest, r.granted)) =
        [(0, some [], ["net:example.com"])] ∧
      ¬ Confined s := by
  refine ⟨_, rfl, rfl, ?_⟩
  rintro ⟨hdel, -⟩
  obtain ⟨manifest, hm, hg⟩ := hdel _ (.head _) "net:example.com" (.head _)
  cases hm
  cases hg

end

end Nulang.Authority

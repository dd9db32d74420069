import Mathlib.Data.Char
import Mathlib.Data.List.DropRight
import Mathlib.Data.List.Lex
import Mathlib.Data.Nat.Digits.Defs

/-!
# Authority tokens

The external authority of an actor is a set of grants. In bytecode, in snapshots and between nodes
it travels as text, one token for each grant, and is parsed again wherever it arrives
(`authority.rs`). A token that was accepted once is accepted again in its canonical form, and as the
same grant (`parse_print`): an authority survives the way through its tokens.

Parsing accepts more than printing produces: white space around a token, a port with a sign or with
leading zeros. What is printed has one form, so grants can be compared by their tokens.
-/

set_option autoImplicit false

namespace Nulang.AuthorityToken

open List

abbrev Text : Type := List Char

/-! ## Splitting text -/

/-- What is before the first occurrence of a character, and after it. -/
def splitFirst (c : Char) : Text → Option (Text × Text)
  | [] => none
  | x :: xs => if x = c then some ([], xs) else (splitFirst c xs).map fun p => (x :: p.1, p.2)

/-- What is before the last occurrence of a character, and after it. -/
def splitLast (c : Char) (t : Text) : Option (Text × Text) :=
  (splitFirst c t.reverse).map fun p => (p.2.reverse, p.1.reverse)

/-- What is before the first pair of colons, and after it. -/
def splitColons : Text → Option (Text × Text)
  | [] => none
  | x :: xs =>
    if x = ':' ∧ xs.head? = some ':' then some ([], xs.tail) else (splitColons xs).map fun p =>
      (x :: p.1, p.2)

variable {c : Char} {t a b : Text} {d n : Nat} {argument : Option Text} {tokens : List Text}

theorem splitFirst_eq_some : splitFirst c t = some (a, b) ↔ t = a ++ c :: b ∧ c ∉ a := by
  induction t generalizing a with
  | nil =>
    unfold splitFirst
    simp
  | cons x xs ih =>
    unfold splitFirst
    by_cases hx : x = c
    · rw [if_pos hx]
      cases a with
      | nil => simp [hx]
      | cons y a =>
        have hno : ¬ (x :: xs = y :: a ++ c :: b ∧ c ∉ y :: a) := by
          rintro ⟨heq, hmem⟩
          rw [cons_append, cons.injEq] at heq
          exact hmem (by rw [← heq.1, hx]; exact mem_cons_self ..)
        exact iff_of_false (fun heq => by cases heq) hno
    · rw [if_neg hx, Option.map_eq_some_iff]
      cases a with
      | nil =>
        have hno : ¬ (x :: xs = [] ++ c :: b ∧ c ∉ ([] : Text)) := by
          rintro ⟨heq, _⟩
          rw [nil_append, cons.injEq] at heq
          exact hx heq.1
        refine iff_of_false ?_ hno
        rintro ⟨p, _, hp⟩
        cases hp
      | cons y a =>
        constructor
        · rintro ⟨p, hp, heq⟩
          cases heq
          obtain ⟨hxs, hmem⟩ := ih.mp hp
          exact ⟨by rw [hxs]; rfl, by simp [Ne.symm hx, hmem]⟩
        · rintro ⟨heq, hmem⟩
          rw [cons_append, cons.injEq] at heq
          rw [mem_cons, not_or] at hmem
          exact ⟨(a, b), ih.mpr ⟨heq.2, hmem.2⟩, by rw [heq.1]⟩

theorem splitLast_of_not_mem (h : c ∉ b) : splitLast c (a ++ c :: b) = some (a, b) := by
  unfold splitLast
  have hsplit : splitFirst c (a ++ c :: b).reverse = some (b.reverse, a.reverse) :=
    splitFirst_eq_some.mpr ⟨by simp, by simpa using h⟩
  rw [hsplit]
  simp

theorem splitLast_eq (h : splitLast c t = some (a, b)) : t = a ++ c :: b := by
  unfold splitLast at h
  obtain ⟨p, hp, heq⟩ := Option.map_eq_some_iff.mp h
  cases heq
  obtain ⟨hrev, _⟩ := splitFirst_eq_some.mp hp
  rw [← reverse_reverse t, hrev]
  simp

theorem splitColons_eq (h : splitColons t = some (a, b)) : t = a ++ ':' :: ':' :: b := by
  induction t generalizing a with
  | nil => cases h
  | cons x xs ih =>
    unfold splitColons at h
    split_ifs at h with hx
    · cases h
      obtain ⟨rfl, hhead⟩ := hx
      cases xs with
      | nil => cases hhead
      | cons y ys =>
        cases hhead
        rfl
    · obtain ⟨p, hp, heq⟩ := Option.map_eq_some_iff.mp h
      cases heq
      rw [ih hp]
      rfl

def digitOf (c : Char) : Option Nat :=
  if '0' ≤ c ∧ c ≤ '9' then some (c.toNat - '0'.toNat) else none

/-- `u16::from_str`: a plus sign is allowed, and leading zeros are. -/
def parsePort (t : Text) : Option Nat :=
  let t := if t.head? = some '+' then t.tail else t
  if t = [] then none
  else
    match t.mapM digitOf with
    | none => none
    | some ds =>
      let n := ds.foldl (fun n d => d + 10 * n) 0
      if n < 2 ^ 16 then some n else none

def showPort (n : Nat) : Text := (Nat.digits 10 n).reverse.map Nat.digitChar

theorem digitOf_digitChar (h : d < 10) : digitOf (Nat.digitChar d) = some d := by
  revert d
  decide

theorem mapM_digitOf {ds : List Nat} (h : ∀ d ∈ ds, d < 10) :
    (ds.map Nat.digitChar).mapM digitOf = some ds := by
  induction ds with
  | nil => rfl
  | cons d ds ih =>
    rw [map_cons, mapM_cons, digitOf_digitChar (h d (mem_cons_self ..)), ih fun e he =>
      h e (mem_cons_of_mem _ he)]
    rfl

theorem digitChar_not_special (h : d < 10) :
    Nat.digitChar d ≠ '+' ∧ Nat.digitChar d ≠ ':' ∧
      Nat.digitChar d ≠ '(' ∧ Nat.digitChar d ≠ ')' := by
  revert d
  decide

theorem mem_showPort (h : c ∈ showPort n) : c ≠ '+' ∧ c ≠ ':' ∧ c ≠ '(' ∧ c ≠ ')' := by
  obtain ⟨d, hd, rfl⟩ := mem_map.mp h
  exact digitChar_not_special (Nat.digits_lt_base (by decide) (mem_reverse.mp hd))

theorem parsePort_lt (h : parsePort t = some n) : n < 2 ^ 16 := by
  unfold parsePort at h
  dsimp only at h
  generalize (if t.head? = some '+' then t.tail else t) = u at h
  by_cases hu : u = []
  · rw [if_pos hu] at h
    cases h
  · rw [if_neg hu] at h
    cases hds : u.mapM digitOf with
    | none =>
      rw [hds] at h
      cases h
    | some ds =>
      rw [hds] at h
      dsimp only at h
      split_ifs at h with hlt
      cases h
      exact hlt

theorem parsePort_showPort (h0 : n ≠ 0) (h : n < 2 ^ 16) : parsePort (showPort n) = some n := by
  have hmap : (showPort n).mapM digitOf = some (Nat.digits 10 n).reverse :=
    mapM_digitOf fun d hd => Nat.digits_lt_base (by decide) (mem_reverse.mp hd)
  have hne : showPort n ≠ [] := by
    unfold showPort
    rw [ne_eq, map_eq_nil_iff, reverse_eq_nil_iff]
    exact Nat.digits_ne_nil_iff_ne_zero.mpr h0
  have hplus : (showPort n).head? ≠ some '+' :=
    fun hhead => (mem_showPort (mem_of_mem_head? hhead)).1 rfl
  have hvalue : (Nat.digits 10 n).reverse.foldl (fun n d => d + 10 * n) 0 = n := by
    rw [foldl_reverse]
    exact (Nat.ofDigits_eq_foldr 10 (Nat.digits 10 n)).symm.trans (Nat.ofDigits_digits 10 n)
  unfold parsePort
  dsimp only
  rw [if_neg hplus, if_neg hne, hmap]
  dsimp only
  rw [hvalue, if_pos h]

inductive AuthorityGrant where
  | netTcpOut (host : Text) (port : Nat)
  | fsRead (path : Text)
  | fsWrite (path : Text)
  | envRead (name : Text)
  | secretRead (name : Text)
  | processRun (command : Text)
  | other (domain operation : Text) (argument : Option Text)
deriving DecidableEq

def bracketed : Option Text → Text
  | some argument => '(' :: argument ++ [')']
  | none => []

def token (domain operation : Text) (argument : Option Text) : Text :=
  (domain ++ ':' :: ':' :: operation) ++ bracketed argument

def AuthorityGrant.print : AuthorityGrant → Text
  | .netTcpOut host port => token "Net".toList "TcpOut".toList (some (host ++ ':' :: showPort port))
  | .fsRead path => token "Fs".toList "Read".toList (some path)
  | .fsWrite path => token "Fs".toList "Write".toList (some path)
  | .envRead name => token "Env".toList "Read".toList (some name)
  | .secretRead name => token "Secret".toList "Read".toList (some name)
  | .processRun command => token "Process".toList "Run".toList (some command)
  | .other domain operation argument => token domain operation argument

/-- The characters `str::trim` takes off. -/
def isWhiteSpace (c : Char) : Bool :=
  let n := c.toNat
  (9 ≤ n && n ≤ 13) || n = 32 || n = 0x85 || n = 0xA0 || n = 0x1680 || (0x2000 ≤ n && n ≤ 0x200A) ||
  n = 0x2028 ||
    n = 0x2029 || n = 0x202F || n = 0x205F || n = 0x3000

def trim (t : Text) : Text := (t.dropWhile isWhiteSpace).rdropWhile isWhiteSpace

/-- The head of a token and its argument; the error is the reason of an `AuthorityParseError`. -/
def splitToken (t : Text) : Except String (Text × Option Text) :=
  match splitFirst '(' t with
  | none => if ')' ∈ t then .error "unmatched ')'" else .ok (t, none)
  | some (head, rest) =>
    if rest.getLast? ≠ some ')' then .error "unclosed '('"
    else if '(' ∈ rest.dropLast ∨ ')' ∈
      rest.dropLast then .error "nested parentheses are not allowed"
    else .ok (head, some rest.dropLast)

def requireArgument (argument : Option Text) : Except String Text :=
  match argument with
  | none => .error "operation requires an argument"
  | some argument => .ok argument

def requireNonemptyArgument (argument : Option Text) : Except String Text := do
  let argument ← requireArgument argument
  if argument = [] then .error "argument must be non-empty" else .ok argument

def parseTcpOut (argument : Option Text) : Except String AuthorityGrant := do
  let endpoint ← requireArgument argument
  match splitLast ':' endpoint with
  | none => .error "TcpOut expects host:port"
  | some (host, port) =>
    if host = [] then .error "host must be non-empty"
    else
      match parsePort port with
      | none => .error "port must be a valid u16"
      | some port =>
        if port = 0 then .error "port must be in the range 1..=65535"
        else .ok (.netTcpOut host port)

def grantOf (domain operation : Text) (argument : Option Text) : Except String AuthorityGrant :=
  if domain = "Net".toList ∧ operation = "TcpOut".toList then parseTcpOut argument
  else if domain = "Fs".toList ∧ operation = "Read".toList then .fsRead <$>
    requireNonemptyArgument argument
  else if domain = "Fs".toList ∧ operation = "Write".toList then .fsWrite <$>
    requireNonemptyArgument argument
  else if domain = "Env".toList ∧ operation = "Read".toList then .envRead <$>
    requireNonemptyArgument argument
  else if domain = "Secret".toList ∧ operation = "Read".toList then .secretRead <$>
    requireNonemptyArgument argument
  else if domain = "Process".toList ∧ operation = "Run".toList then .processRun <$>
    requireNonemptyArgument argument
  else .ok (.other domain operation argument)

def parseTrimmed (t : Text) : Except String AuthorityGrant := do
  if t = [] then .error "token is empty"
  else
    let (head, argument) ← splitToken t
    match splitColons head with
    | none => .error "expected Namespace::Operation"
    | some (domain, operation) =>
      if domain = [] ∨ operation = [] then .error "namespace and operation must be non-empty"
      else grantOf domain operation argument

def parse (t : Text) : Except String AuthorityGrant := parseTrimmed (trim t)

/-! ## What is accepted is accepted again -/

theorem trim_trim : trim (trim t) = trim t := by
  unfold trim
  set u := t.dropWhile isWhiteSpace with hu
  have hstart : (u.rdropWhile isWhiteSpace).dropWhile isWhiteSpace = u.rdropWhile isWhiteSpace := by
    cases hr : u.rdropWhile isWhiteSpace with
    | nil => rfl
    | cons x xs =>
      -- what is left starts as the text without its leading blanks does
      obtain ⟨rest, hrest⟩ := rdropWhile_prefix isWhiteSpace u
      have hhead := head?_dropWhile_not isWhiteSpace t
      rw [← hu, ← hrest, hr] at hhead
      exact dropWhile_cons_of_neg (by simpa using hhead)
  rw [hstart, rdropWhile_idempotent]

theorem splitToken_eq {head : Text} (h : splitToken t = .ok (head, argument)) :
    t = head ++ bracketed argument ∧ ∀ a ∈ argument, '(' ∉ a ∧ ')' ∉ a := by
  unfold splitToken at h
  cases hs : splitFirst '(' t with
  | none =>
    rw [hs] at h
    dsimp only at h
    split_ifs at h
    cases h
    exact ⟨(append_nil t).symm, fun a ha => by cases ha⟩
  | some p =>
    obtain ⟨before, rest⟩ := p
    rw [hs] at h
    dsimp only at h
    split_ifs at h with hlast hnested
    cases h
    rw [not_not] at hlast
    rw [not_or] at hnested
    obtain ⟨heq, _⟩ := splitFirst_eq_some.mp hs
    refine ⟨?_, fun a ha => ?_⟩
    · rw [heq, ← dropLast_append_getLast? ')' hlast]
      simp [bracketed]
    · cases ha
      exact hnested

/-- A head without an opening parenthesis and an argument without any are found again. -/
theorem splitToken_bracketed {head a : Text} (hhead : '(' ∉ head) (ha : '(' ∉ a ∧ ')' ∉ a) :
    splitToken (head ++ bracketed (some a)) = .ok (head, some a) := by
  unfold splitToken
  have hs : splitFirst '(' (head ++ bracketed (some a)) = some (head, a ++ [')']) :=
    splitFirst_eq_some.mpr ⟨rfl, hhead⟩
  rw [hs]
  dsimp only
  rw [getLast?_concat, if_neg (not_not_intro rfl), dropLast_concat, if_neg (not_or.mpr ha)]

theorem requireNonemptyArgument_ok (h : requireNonemptyArgument argument = .ok a) :
    argument = some a := by
  unfold requireNonemptyArgument requireArgument at h
  cases argument with
  | none => cases h
  | some b =>
    dsimp only [bind, Except.bind] at h
    split_ifs at h
    cases h
    rfl

variable {g : AuthorityGrant}

theorem parseTcpOut_ok (h : parseTcpOut argument = .ok g) :
    ∃ host port text, argument = some (host ++ ':' :: text) ∧ host ≠ [] ∧ port ≠ 0 ∧ port < 2 ^ 16 ∧
      g = .netTcpOut host port := by
  unfold parseTcpOut requireArgument at h
  cases argument with
  | none => cases h
  | some endpoint =>
    dsimp only [bind, Except.bind] at h
    cases hs : splitLast ':' endpoint with
    | none =>
      rw [hs] at h
      cases h
    | some p =>
      obtain ⟨host, text⟩ := p
      rw [hs] at h
      dsimp only at h
      split_ifs at h with hhost
      cases hport : parsePort text with
      | none =>
        rw [hport] at h
        cases h
      | some port =>
        rw [hport] at h
        dsimp only at h
        split_ifs at h with hzero
        cases h
        exact ⟨host, port, text, by rw [splitLast_eq hs], hhost, hzero, parsePort_lt hport, rfl⟩

theorem map_requireNonemptyArgument_ok {f : Text → AuthorityGrant}
    (h : f <$> requireNonemptyArgument argument = .ok g) : ∃ a, argument = some a ∧ g = f a := by
  cases ha : requireNonemptyArgument argument with
  | error e =>
    rw [ha] at h
    cases h
  | ok a =>
    rw [ha] at h
    cases h
    exact ⟨a, requireNonemptyArgument_ok ha, rfl⟩

/-- Every grant but a network one prints as what it was parsed from. -/
theorem grantOf_ok {domain operation : Text} (h : grantOf domain operation argument = .ok g) :
    g.print = token domain operation argument ∨
      domain = "Net".toList ∧ operation = "TcpOut".toList ∧ parseTcpOut argument = .ok g := by
  unfold grantOf at h
  split_ifs at h with h1 h2 h3 h4 h5 h6
  · exact .inr ⟨h1.1, h1.2, h⟩
  · obtain ⟨a, rfl, rfl⟩ := map_requireNonemptyArgument_ok h
    exact .inl (by rw [h2.1, h2.2]; rfl)
  · obtain ⟨a, rfl, rfl⟩ := map_requireNonemptyArgument_ok h
    exact .inl (by rw [h3.1, h3.2]; rfl)
  · obtain ⟨a, rfl, rfl⟩ := map_requireNonemptyArgument_ok h
    exact .inl (by rw [h4.1, h4.2]; rfl)
  · obtain ⟨a, rfl, rfl⟩ := map_requireNonemptyArgument_ok h
    exact .inl (by rw [h5.1, h5.2]; rfl)
  · obtain ⟨a, rfl, rfl⟩ := map_requireNonemptyArgument_ok h
    exact .inl (by rw [h6.1, h6.2]; rfl)
  · cases h
    exact .inl rfl

theorem parseTrimmed_ok (h : parseTrimmed t = .ok g) :
    ∃ domain operation argument, t = token domain operation argument ∧
      (∀ a ∈ argument, '(' ∉ a ∧ ')' ∉ a) ∧
      grantOf domain operation argument = .ok g := by
  unfold parseTrimmed at h
  split_ifs at h with hempty
  cases hs : splitToken t with
  | error e =>
    rw [hs] at h
    cases h
  | ok p =>
    obtain ⟨head, argument⟩ := p
    rw [hs] at h
    dsimp only [bind, Except.bind] at h
    obtain ⟨heq, hplain⟩ := splitToken_eq hs
    cases hc : splitColons head with
    | none =>
      rw [hc] at h
      cases h
    | some p =>
      obtain ⟨domain, operation⟩ := p
      rw [hc] at h
      dsimp only at h
      split_ifs at h with hparts
      refine ⟨domain, operation, argument, ?_, hplain, h⟩
      rw [heq, splitColons_eq hc, token]

/-- The canonical token of a network grant is parsed directly: its port may have been written
otherwise. -/
theorem parse_print_netTcpOut {host : Text} {port : Nat} (hhost : host ≠ [])
    (hplain : '(' ∉ host ∧ ')' ∉ host) (h0 : port ≠ 0) (h : port < 2 ^ 16) :
    parse (AuthorityGrant.netTcpOut host port).print = .ok (.netTcpOut host port) := by
  set endpoint : Text := host ++ ':' :: showPort port with hendpoint
  have hplainEndpoint : '(' ∉ endpoint ∧ ')' ∉ endpoint := by
    have hport : ∀ c ∈ showPort port, c ≠ '(' ∧ c ≠ ')' := fun c hc => (mem_showPort hc).2.2
    rw [hendpoint]
    constructor
    · simp only [mem_append, mem_cons, not_or]
      exact ⟨hplain.1, by decide, fun hc => (hport _ hc).1 rfl⟩
    · simp only [mem_append, mem_cons, not_or]
      exact ⟨hplain.2, by decide, fun hc => (hport _ hc).2 rfl⟩
  have hprint : (AuthorityGrant.netTcpOut host port).print = "Net::TcpOut".toList ++
      bracketed (some endpoint) := rfl
  have htrim : trim ("Net::TcpOut".toList ++ bracketed (some endpoint)) = "Net::TcpOut".toList ++
      bracketed (some endpoint) := by
    unfold trim
    have hstart : ("Net::TcpOut".toList ++ bracketed (some endpoint)).dropWhile isWhiteSpace =
        "Net::TcpOut".toList ++ bracketed (some endpoint) := dropWhile_cons_of_neg (by decide)
    have hend : "Net::TcpOut".toList ++ bracketed (some endpoint) =
        ("Net::TcpOut".toList ++ '(' :: endpoint) ++ [')'] := by
      simp [bracketed]
    rw [hstart, hend, rdropWhile_concat_neg _ _ _ (by decide)]
  have hparse : parseTcpOut (some endpoint) = .ok (.netTcpOut host port) := by
    unfold parseTcpOut requireArgument
    dsimp only [bind, Except.bind]
    rw [hendpoint, splitLast_of_not_mem fun hc => (mem_showPort hc).2.1 rfl]
    dsimp only
    rw [if_neg hhost, parsePort_showPort h0 h]
    dsimp only
    rw [if_neg h0]
  unfold parse
  rw [hprint, htrim]
  unfold parseTrimmed
  rw [if_neg (by simp), splitToken_bracketed (by decide) hplainEndpoint]
  exact hparse

/-- A token that is accepted is accepted again in its canonical form, as the same grant. -/
theorem parse_print (h : parse t = .ok g) : parse g.print = .ok g := by
  obtain ⟨domain, operation, argument, ht, hplain, hgrant⟩ := parseTrimmed_ok h
  obtain hprint | ⟨_, _, htcp⟩ := grantOf_ok hgrant
  · rw [hprint, ← ht]
    unfold parse at h ⊢
    rw [trim_trim, h]
  · obtain ⟨host, port, text, rfl, hhost, h0, hport, rfl⟩ := parseTcpOut_ok htcp
    have hargument := hplain _ rfl
    refine parse_print_netTcpOut hhost ⟨fun hc => hargument.1 ?_, fun hc => hargument.2 ?_⟩ h0 hport
    · exact mem_append_left _ hc
    · exact mem_append_left _ hc

/-- A manifest as the actor holds it; it stands for the set of its grants. -/
abbrev Manifest : Type := List AuthorityGrant

def fromTokens (tokens : List Text) : Except String Manifest := tokens.mapM parse

def canonicalTokens (m : Manifest) : List Text := (m.map AuthorityGrant.print).mergeSort

theorem fromTokens_ok (h : ∀ t ∈ tokens, ∃ g, parse t = .ok g) :
    ∃ m, fromTokens tokens = .ok m ∧ ∀ g, g ∈ m ↔ ∃ t ∈ tokens, parse t = .ok g := by
  unfold fromTokens
  induction tokens with
  | nil => exact ⟨[], rfl, fun g => by simp⟩
  | cons t tokens ih =>
    obtain ⟨g, hg⟩ := h t (mem_cons_self ..)
    obtain ⟨m, hm, hmem⟩ := ih fun u hu => h u (mem_cons_of_mem _ hu)
    refine ⟨g :: m, by rw [mapM_cons, hg, hm]; rfl, fun g' => ?_⟩
    rw [mem_cons, hmem]
    constructor
    · rintro (rfl | ⟨u, hu, hparse⟩)
      · exact ⟨t, mem_cons_self .., hg⟩
      · exact ⟨u, mem_cons_of_mem _ hu, hparse⟩
    · rintro ⟨u, hu, hparse⟩
      rcases mem_cons.mp hu with rfl | hu
      · exact .inl (Except.ok.inj (hparse.symm.trans hg))
      · exact .inr ⟨u, hu, hparse⟩

theorem mem_fromTokens :
    ∀ {m : Manifest}, fromTokens tokens = .ok m → ∀ g ∈ m, ∃ t ∈ tokens, parse t = .ok g := by
  unfold fromTokens
  induction tokens with
  | nil =>
    rintro m ⟨⟩ g hg
    cases hg
  | cons t tokens ih =>
    intro m hm g hg
    rw [mapM_cons] at hm
    cases ht : parse t with
    | error e =>
      rw [ht] at hm
      cases hm
    | ok g₀ =>
      cases hrest : tokens.mapM parse with
      | error e =>
        rw [ht, hrest] at hm
        cases hm
      | ok rest =>
        rw [ht, hrest] at hm
        cases hm
        rcases mem_cons.mp hg with rfl | hg
        · exact ⟨t, mem_cons_self .., ht⟩
        · obtain ⟨u, hu, hparse⟩ := ih hrest g hg
          exact ⟨u, mem_cons_of_mem _ hu, hparse⟩

/-- A manifest that was parsed comes back from its canonical tokens with the same grants. -/
theorem fromTokens_canonicalTokens {m : Manifest} (h : fromTokens tokens = .ok m) :
    ∃ m', fromTokens (canonicalTokens m) = .ok m' ∧ ∀ g, g ∈ m' ↔ g ∈ m := by
  have hparsed : ∀ g ∈ m, parse g.print = .ok g := fun g hg => by
    obtain ⟨t, _, ht⟩ := mem_fromTokens h g hg
    exact parse_print ht
  have hmem : ∀ t, t ∈ canonicalTokens m ↔ ∃ g ∈ m, g.print = t := fun t => by
    rw [canonicalTokens, mem_mergeSort, mem_map]
  have haccepted : ∀ t ∈ canonicalTokens m, ∃ g, parse t = .ok g := fun t ht => by
    obtain ⟨g, hg, rfl⟩ := (hmem t).mp ht
    exact ⟨g, hparsed g hg⟩
  obtain ⟨m', hm', hsame⟩ := fromTokens_ok haccepted
  refine ⟨m', hm', fun g =>
    (hsame g).trans ⟨?_, fun hg => ⟨g.print, (hmem _).mpr ⟨g, hg, rfl⟩, hparsed g hg⟩⟩⟩
  rintro ⟨t, ht, hparse⟩
  obtain ⟨g', hg', rfl⟩ := (hmem t).mp ht
  have hsame' : g' = g := Except.ok.inj ((hparsed g' hg').symm.trans hparse)
  rw [← hsame']
  exact hg'

end Nulang.AuthorityToken

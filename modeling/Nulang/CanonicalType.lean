import Nulang.Types
import Nulang.Lib.Encoding
import Nulang.Lib.SortByKey
import Mathlib.Data.Prod.Lex

/-!
# The canonical encoding of types (`types.rs`)

`writeCanonicalType` is the byte string that content hashes are made of. Record fields are sorted by
name and effect rows by the declaration order of effects; everything else is written in order with a
tag in front and lengths before strings and lists.

What it is measured with is `Ty.StructEq`: equality up to the order of record fields and up to a
relation between effect rows. The comment in the source calls effect rows sets. The encoding sorts
them and does not remove repetitions, so it identifies rows that are permutations of one another
(`EffectRow.SamePerm`), and rows that are equal as sets (`EffectRow.SameSet`) only if each effect
stands in both as often.
-/

set_option autoImplicit false

namespace Nulang

open EffectRow List Encoding SortByKey

/-! ## Effects and rows -/

/-- `canonical_cap_code`. -/
def Capability.canonicalCode : Capability → UInt8
  | .linearIso => 0
  | .linear => 1
  | .iso => 2
  | .trn => 3
  | .ref => 4
  | .val => 5
  | .box => 6
  | .tag => 7

def PrimitiveType.canonicalCode : PrimitiveType → UInt8
  | .int => 0
  | .float => 1
  | .bool => 2
  | .string => 3
  | .nil => 4
  | .unit => 5
  | .never => 6
  | .address => 7

namespace Effect

/-- `effect_code`; the declaration order of `Effect` is the same. -/
def code : Effect → UInt8
  | .io => 0 | .net => 1 | .string => 2 | .fs => 3 | .rand => 4 | .time => 5 | .spawn => 6
  | .send => 7 | .receive => 8 | .migrate => 9 | .stm => 10 | .async => 11 | .inference => 12
  | .cost => 13 | .event => 14 | .array => 15 | .ffi => 16 | .test => 17 | .db => 18
  | .python => 19 | .env => 20 | .process => 21 | .system => 22 | .render => 23 | .request => 24
  | .respond => 25 | .realtime => 26 | .client => 27 | .web => 28
  | .userDefined _ => 29

def name : Effect → String
  | .userDefined name => name
  | _ => ""

/-- The derived order: by declaration, user-defined effects by name. -/
def rank (e : Effect) : Nat ×ₗ String := toLex (e.code.toNat, e.name)

def Before (a b : Effect) : Prop := a.rank ≤ b.rank

instance : DecidableRel Before := fun a b => inferInstanceAs (Decidable (a.rank ≤ b.rank))

/-- `write_effect`. -/
def write (e : Effect) : List UInt8 :=
  e.code :: match e with
    | .userDefined name => str 4 name
    | _ => []

def ofCode (c : UInt8) : Option Effect :=
  [io, net, string, fs, rand, time, spawn, send, receive, migrate, stm, async, inference, cost,
    event, array, ffi, test, db, python, env, process, system, render, request, respond, realtime,
    client, web][c.toNat]?

theorem eq_of_code {a b : Effect} (h : a.code = b.code) :
    a = b ∨ ∃ n m, a = .userDefined n ∧ b = .userDefined m := by
  have built : ∀ e : Effect, (∃ n, e = .userDefined n) ∨ ofCode e.code = some e := by
    intro e
    cases e with
    | userDefined n => exact .inl ⟨n, rfl⟩
    | _ => exact .inr rfl
  rcases built a with ⟨n, rfl⟩ | ha
  · rcases built b with ⟨m, rfl⟩ | hb
    · exact .inr ⟨n, m, rfl, rfl⟩
    · rw [← h] at hb
      cases hb
  · rcases built b with ⟨m, rfl⟩ | hb
    · rw [h] at ha
      cases ha
    · rw [h, hb] at ha
      exact .inl (Option.some.inj ha).symm

theorem before_antisymm {a b : Effect} (hab : a.Before b) (hba : b.Before a) : a = b := by
  have hrank : (a.code.toNat, a.name) = (b.code.toNat, b.name) := toLex_inj.mp (le_antisymm hab hba)
  obtain ⟨hcode, hname⟩ := Prod.mk.inj hrank
  rcases eq_of_code (UInt8.toNat_inj.mp hcode) with h | ⟨n, m, rfl, rfl⟩
  · exact h
  · rw [show n = m from hname]

instance : Std.Total Before := ⟨fun a b => le_total a.rank b.rank⟩

instance : IsTrans Effect Before := ⟨fun _ _ _ hab hbc => le_trans (α := Nat ×ₗ String) hab hbc⟩

def Fits (e : Effect) : Prop := e.name.utf8ByteSize < 256 ^ 4

theorem delimited_write : Delimited Fits write := by
  intro a b r s ha hb heq
  simp only [write, cons_append, cons.injEq] at heq
  obtain ⟨hcode, heq⟩ := heq
  rcases eq_of_code hcode with rfl | ⟨n, m, rfl, rfl⟩
  · exact ⟨rfl, append_cancel_left heq⟩
  · obtain ⟨rfl, hr⟩ := delimited_str 4 ha hb heq
    exact ⟨rfl, hr⟩

end Effect

namespace EffectRow

/-- Equal as sets of effects, with the same row variable. -/
def SameSet : EffectRow → EffectRow → Prop
  | .closed as, .closed bs => ∀ e, e ∈ as ↔ e ∈ bs
  | .open as r, .open bs r' => (∀ e, e ∈ as ↔ e ∈ bs) ∧ r = r'
  | _, _ => False

/-- Equal with repetitions. -/
def SamePerm : EffectRow → EffectRow → Prop
  | .closed as, .closed bs => as.Perm bs
  | .open as r, .open bs r' => as.Perm bs ∧ r = r'
  | _, _ => False

/-- Effects in the order they are written in. -/
def sortEffects (es : List Effect) : List Effect := es.insertionSort Effect.Before

/-- `write_canonical_effect_row`. -/
def write : EffectRow → List UInt8
  | .closed es => 0x00 :: (le 4 es.length ++ (sortEffects es).flatMap Effect.write)
  | .open es region =>
      0x01 :: (le 4 es.length ++ ((sortEffects es).flatMap Effect.write ++ le 8 region))

/-- Lengths fit in a `u32`, and row variables are `u64`. -/
def Fits : EffectRow → Prop
  | .closed es => es.length < 256 ^ 4 ∧ ∀ e ∈ es, e.Fits
  | .open es region => es.length < 256 ^ 4 ∧ (∀ e ∈ es, e.Fits) ∧ region < 256 ^ 8

theorem sortEffects_perm (es : List Effect) : (sortEffects es).Perm es := perm_insertionSort _ es

theorem sortEffects_eq_iff {as bs : List Effect} :
    sortEffects as = sortEffects bs ↔ as.Perm bs := by
  constructor
  · intro h
    exact (sortEffects_perm as).symm.trans (h ▸ sortEffects_perm bs)
  · intro h
    refine Perm.eq_of_pairwise (fun a b _ _ hab hba => Effect.before_antisymm hab hba)
      (pairwise_insertionSort _ as) (pairwise_insertionSort _ bs) ?_
    exact (sortEffects_perm as).trans (h.trans (sortEffects_perm bs).symm)

/-- A sorted list of effects, with its length in front. -/
theorem perm_of_sorted {as bs : List Effect} {r s : List UInt8}
    (ha : as.length < 256 ^ 4 ∧ ∀ e ∈ as, e.Fits) (hb : bs.length < 256 ^ 4 ∧ ∀ e ∈ bs, e.Fits)
    (h : le 4 as.length ++ ((sortEffects as).flatMap Effect.write ++ r) =
      le 4 bs.length ++ ((sortEffects bs).flatMap Effect.write ++ s)) : as.Perm bs ∧ r = s := by
  obtain ⟨hlen, h⟩ := delimited_le 4 ha.1 hb.1 h
  obtain ⟨hsort, hr⟩ :=
    Effect.delimited_write.flatMap (fun e he => ha.2 e ((sortEffects_perm as).mem_iff.mp he))
      (fun e he => hb.2 e ((sortEffects_perm bs).mem_iff.mp he))
      (by rw [(sortEffects_perm as).length_eq, (sortEffects_perm bs).length_eq, hlen]) h
  exact ⟨sortEffects_eq_iff.mp hsort, hr⟩

variable {a b : EffectRow}

theorem samePerm_of_write {r s : List UInt8} (ha : a.Fits) (hb : b.Fits)
    (h : a.write ++ r = b.write ++ s) : a.SamePerm b ∧ r = s := by
  cases a <;> cases b
  case closed.closed =>
    simp only [write, cons_append, append_assoc, cons.injEq, true_and] at h
    exact perm_of_sorted ha hb h
  case open.open =>
    simp only [write, cons_append, append_assoc, cons.injEq, true_and] at h
    obtain ⟨hperm, h⟩ := perm_of_sorted ⟨ha.1, ha.2.1⟩ ⟨hb.1, hb.2.1⟩ h
    obtain ⟨hregion, hr⟩ := delimited_le 8 ha.2.2 hb.2.2 h
    exact ⟨⟨hperm, hregion⟩, hr⟩
  all_goals exact absurd (head_eq_of_cons_eq h) (by decide)

theorem write_of_samePerm (h : a.SamePerm b) : a.write = b.write := by
  cases a <;> cases b
  case closed.closed => rw [write, write, sortEffects_eq_iff.mpr h, h.length_eq]
  case open.open =>
    obtain ⟨hperm, rfl⟩ := h
    rw [write, write, sortEffects_eq_iff.mpr hperm, hperm.length_eq]
  all_goals cases h

theorem SamePerm.sameSet (h : a.SamePerm b) : a.SameSet b := by
  cases a <;> cases b
  case closed.closed => exact fun e => h.mem_iff
  case open.open => exact ⟨fun e => h.1.mem_iff, h.2⟩
  all_goals cases h

def Nodup : EffectRow → Prop
  | .closed es | .open es _ => es.Nodup

/-- Without repetitions there is nothing between the two. -/
theorem samePerm_of_nodup (ha : a.Nodup) (hb : b.Nodup) (h : a.SameSet b) : a.SamePerm b := by
  cases a <;> cases b
  case closed.closed => exact (perm_ext_iff_of_nodup ha hb).mpr h
  case open.open => exact ⟨(perm_ext_iff_of_nodup ha hb).mpr h.1, h.2⟩
  all_goals cases h

end EffectRow

namespace Ty

mutual

/-- `write_canonical_type`. A record's fields are encoded with their names, then put in order: the
order looks at names only. -/
def writeCanonicalType : Ty → List UInt8
  | .var v => 0x00 :: le 8 v
  | .primitive p => [0x01, p.canonicalCode]
  | .tuple ts => 0x02 :: (le 4 ts.length ++ writeTypes ts)
  | .record fs =>
      0x03 :: (le 4 fs.length ++ (sortByKey (writeFields fs)).flatMap fun f => str 4 f.1 ++ f.2)
  | .variant cases => 0x04 :: (le 4 cases.length ++ writeCases cases)
  | .array t => 0x05 :: writeCanonicalType t
  | .function param ret effect cap =>
      0x06 :: (writeCanonicalType param ++ (writeCanonicalType ret ++
        (effect.write ++ [cap.canonicalCode])))
  | .actor state behavior => 0x07 :: (writeCanonicalType state ++ writeCanonicalType behavior)
  | .app constructor args =>
      0x08 :: (writeCanonicalType constructor ++ (le 4 args.length ++ writeTypes args))
  | .reference cap inner => 0x09 :: cap.canonicalCode :: writeCanonicalType inner
  | .scheme vars body =>
      0x0A :: (le 4 vars.length ++ (vars.flatMap (le 8) ++ writeCanonicalType body))
  | .nominal name underlying => 0x0B :: (str 4 name ++ writeCanonicalType underlying)
  | .skolem id => 0x0C :: le 8 id

def writeTypes : List Ty → List UInt8
  | [] => []
  | t :: ts => writeCanonicalType t ++ writeTypes ts

def writeFields : Fields → List (String × List UInt8)
  | [] => []
  | (name, t) :: fs => (name, writeCanonicalType t) :: writeFields fs

def writeCases : Cases → List UInt8
  | [] => []
  | (name, none) :: cases => str 4 name ++ 0 :: writeCases cases
  | (name, some t) :: cases => str 4 name ++ 1 :: (writeCanonicalType t ++ writeCases cases)

end

/-- `canonical_type_bytes`. -/
def canonicalTypeBytes (t : Ty) : List UInt8 := writeCanonicalType t

mutual

/-- Lengths fit in a `u32`, identifiers are `u64`, and the fields of a record have distinct
names. -/
def Fits : Ty → Prop
  | .var v | .skolem v => v < 256 ^ 8
  | .primitive _ => True
  | .tuple ts => ts.length < 256 ^ 4 ∧ FitsList ts
  | .record fs => fs.length < 256 ^ 4 ∧ (fs.map Prod.fst).Nodup ∧ FitsFields fs
  | .variant cases => cases.length < 256 ^ 4 ∧ FitsCases cases
  | .array t | .reference _ t => Fits t
  | .function param ret effect _ => Fits param ∧ Fits ret ∧ effect.Fits
  | .actor state behavior => Fits state ∧ Fits behavior
  | .app constructor args => Fits constructor ∧ args.length < 256 ^ 4 ∧ FitsList args
  | .scheme vars body => vars.length < 256 ^ 4 ∧ (∀ v ∈ vars, v < 256 ^ 8) ∧ Fits body
  | .nominal name underlying => name.utf8ByteSize < 256 ^ 4 ∧ Fits underlying

def FitsList : List Ty → Prop
  | [] => True
  | t :: ts => Fits t ∧ FitsList ts

def FitsFields : Fields → Prop
  | [] => True
  | (name, t) :: fs => name.utf8ByteSize < 256 ^ 4 ∧ Fits t ∧ FitsFields fs

def FitsCases : Cases → Prop
  | [] => True
  | (name, none) :: cases => name.utf8ByteSize < 256 ^ 4 ∧ FitsCases cases
  | (name, some t) :: cases => name.utf8ByteSize < 256 ^ 4 ∧ Fits t ∧ FitsCases cases

end

section StructEq

variable (R : EffectRow → EffectRow → Prop)

mutual

/-- Equality up to the order of record fields, with effect rows compared by `R`. -/
def StructEq : Ty → Ty → Prop
  | .var a, .var b | .skolem a, .skolem b => a = b
  | .primitive p, .primitive q => p = q
  | .tuple as, .tuple bs => StructEqList as bs
  | .record as, .record bs => ∃ bs', bs.Perm bs' ∧ StructEqFields as bs'
  | .variant as, .variant bs => StructEqCases as bs
  | .array a, .array b => StructEq a b
  | .function p r e c, .function p' r' e' c' => StructEq p p' ∧ StructEq r r' ∧ R e e' ∧ c = c'
  | .actor s b, .actor s' b' => StructEq s s' ∧ StructEq b b'
  | .app c as, .app c' as' => StructEq c c' ∧ StructEqList as as'
  | .reference c t, .reference c' t' => c = c' ∧ StructEq t t'
  | .scheme vs t, .scheme vs' t' => vs = vs' ∧ StructEq t t'
  | .nominal n t, .nominal n' t' => n = n' ∧ StructEq t t'
  | _, _ => False

def StructEqList : List Ty → List Ty → Prop
  | [], [] => True
  | a :: as, b :: bs => StructEq a b ∧ StructEqList as bs
  | _, _ => False

def StructEqFields : Fields → Fields → Prop
  | [], [] => True
  | (n, a) :: as, (m, b) :: bs => n = m ∧ StructEq a b ∧ StructEqFields as bs
  | _, _ => False

def StructEqCases : Cases → Cases → Prop
  | [], [] => True
  | (n, none) :: as, (m, none) :: bs => n = m ∧ StructEqCases as bs
  | (n, some a) :: as, (m, some b) :: bs => n = m ∧ StructEq a b ∧ StructEqCases as bs
  | _, _ => False

end

end StructEq

section Members

variable {R : EffectRow → EffectRow → Prop}

theorem writeTypes_eq (ts : List Ty) : writeTypes ts = ts.flatMap writeCanonicalType := by
  induction ts with
  | nil => rfl
  | cons t ts ih => rw [writeTypes, ih, flatMap_cons]

theorem writeFields_eq (fs : Fields) :
    writeFields fs = fs.map (Prod.map id writeCanonicalType) := by
  induction fs with
  | nil => rfl
  | cons f fs ih => rw [writeFields, ih, map_cons, Prod.map, id]

theorem fitsList_iff {ts : List Ty} : FitsList ts ↔ ∀ t ∈ ts, t.Fits := by
  induction ts with
  | nil => simp [FitsList]
  | cons t ts ih => simp [FitsList, ih]

theorem fitsFields_iff {fs : Fields} :
    FitsFields fs ↔ ∀ f ∈ fs, f.1.utf8ByteSize < 256 ^ 4 ∧ f.2.Fits := by
  induction fs with
  | nil => simp [FitsFields]
  | cons f fs ih => simp [FitsFields, ih, and_assoc]

theorem structEqList_iff {as bs : List Ty} : StructEqList R as bs ↔ Forall₂ (StructEq R) as bs := by
  induction as generalizing bs with
  | nil => cases bs <;> simp [StructEqList]
  | cons a as ih => cases bs <;> simp [StructEqList, ih]

theorem structEqFields_iff {as bs : Fields} :
    StructEqFields R as bs ↔ Forall₂ (Related (StructEq R)) as bs := by
  induction as generalizing bs with
  | nil => cases bs <;> simp [StructEqFields]
  | cons a as ih =>
    cases bs with
    | nil => simp [StructEqFields]
    | cons b bs =>
      obtain ⟨n, a⟩ := a
      obtain ⟨m, b⟩ := b
      simp [StructEqFields, ih, Related, and_assoc]

end Members

/-! ## Reading an encoding back -/

/-- The encoding of `a` is followed by the same as that of `b` only if the two are equal up to what
the encoding sorts. -/
def Reads (a : Ty) : Prop :=
  ∀ {b : Ty} {r s : List UInt8}, a.Fits → b.Fits →
    writeCanonicalType a ++ r = writeCanonicalType b ++ s →
    StructEq SamePerm a b ∧ r = s

variable {as bs : List Ty} {r s : List UInt8} {a b : Ty}

theorem reads_cases {as bs : Cases} (hreads : ∀ c ∈ as, ∀ t ∈ c.2, Reads t) (ha : FitsCases as)
    (hb : FitsCases bs) (hlen : as.length = bs.length)
    (h : writeCases as ++ r = writeCases bs ++ s) :
    StructEqCases SamePerm as bs ∧ r = s := by
  induction as generalizing bs with
  | nil =>
    obtain rfl : bs = [] := length_eq_zero_iff.mp hlen.symm
    exact ⟨by simp only [StructEqCases], h⟩
  | cons c as ih =>
    cases bs with
    | nil => cases hlen
    | cons d bs =>
      rw [forall_mem_cons] at hreads
      obtain ⟨n, _ | t⟩ := c <;> obtain ⟨m, _ | u⟩ := d <;>
        simp only [StructEqCases, writeCases, append_assoc, cons_append] at h ⊢ <;>
        obtain ⟨hname, h⟩ := delimited_str 4 ha.1 hb.1 h <;> obtain ⟨htag, h⟩ := cons.inj h
      · obtain ⟨hrest, hr⟩ := ih hreads.2 ha.2 hb.2 (Nat.succ.inj hlen) h
        exact ⟨⟨hname, hrest⟩, hr⟩
      · cases htag
      · cases htag
      · obtain ⟨htu, h⟩ := hreads.1 t rfl ha.2.1 hb.2.1 h
        obtain ⟨hrest, hr⟩ := ih hreads.2 ha.2.2 hb.2.2 (Nat.succ.inj hlen) h
        exact ⟨⟨hname, htu, hrest⟩, hr⟩

theorem write_sorted (fs : Fields) :
    (sortByKey (writeFields fs)).flatMap (fun f => str 4 f.1 ++ f.2) =
      (sortByKey fs).flatMap fun f => str 4 f.1 ++ writeCanonicalType f.2 := by
  rw [writeFields_eq, sortByKey_map, flatMap_map]
  rfl

theorem canonicalCode_inj {c d : Capability} (h : c.canonicalCode = d.canonicalCode) : c = d := by
  cases c <;> cases d <;> first | rfl | exact absurd h (by decide)

theorem primitiveCode_inj {p q : PrimitiveType} (h : p.canonicalCode = q.canonicalCode) :
    p = q := by
  cases p <;> cases q <;> first | rfl | exact absurd h (by decide)

theorem reads_record {as bs : Fields} (hreads : ∀ f ∈ as, Reads f.2) (ha : Fits (.record as))
    (hb : Fits (.record bs))
    (h : le 4 as.length ++ ((sortByKey (writeFields as)).flatMap (fun f => str 4 f.1 ++ f.2) ++ r) =
      le 4 bs.length ++ ((sortByKey (writeFields bs)).flatMap (fun f => str 4 f.1 ++ f.2) ++ s)) :
    (∃ bs', bs.Perm bs' ∧ StructEqFields SamePerm as bs') ∧ r = s := by
  obtain ⟨hlen, h⟩ := delimited_le 4 ha.1 hb.1 h
  rw [write_sorted, write_sorted] at h
  rw [Fits, fitsFields_iff] at ha hb
  refine And.imp_left (fun hfields : Forall₂ (Related (StructEq SamePerm)) _ _ => ?_)
    (forall₂_of_flatMap
    (fun f hf g r s hfits hgits h => ?_) (fun f hf => ha.2.2 f (mem_sortByKey.mp hf))
    (fun f hf => hb.2.2 f (mem_sortByKey.mp hf)) (by simpa using hlen) h)
  · -- the fields of `a` stand in their own order, those of `b` in the corresponding one
    obtain ⟨bs', hrel, hperm⟩ := perm_comp_forall₂ (sortByKey_perm as).symm hfields
    exact ⟨bs', (hperm.trans (sortByKey_perm bs)).symm, structEqFields_iff.mpr hrel⟩
  · rw [append_assoc, append_assoc] at h
    obtain ⟨hname, h⟩ := delimited_str 4 hfits.1 hgits.1 h
    obtain ⟨hfg, hr⟩ := hreads f (mem_sortByKey.mp hf) hfits.2 hgits.2 h
    exact ⟨⟨hname, hfg⟩, hr⟩

/-- An encoding determines the type up to what it sorts, and where it ends. -/
theorem reads (a : Ty) : Reads a := by
  -- the first byte tells the constructors apart
  induction a <;> intro b r s ha hb h <;> cases b <;> first
    | exact absurd (head_eq_of_cons_eq h) (by decide)
    | simp only [StructEq, writeCanonicalType, cons_append, append_assoc, nil_append,
        cons.injEq, true_and,
        writeTypes_eq] at h ⊢
  case var.var v w => exact delimited_le 8 ha hb h
  case primitive.primitive p q => exact ⟨primitiveCode_inj h.1, h.2⟩
  case tuple.tuple as ih bs =>
    obtain ⟨hlen, h⟩ := delimited_le 4 ha.1 hb.1 h
    rw [structEqList_iff]
    exact forall₂_of_flatMap ih (fitsList_iff.mp ha.2) (fitsList_iff.mp hb.2) hlen h
  case record.record as ih bs => exact reads_record ih ha hb h
  case variant.variant as ih bs =>
    obtain ⟨hlen, h⟩ := delimited_le 4 ha.1 hb.1 h
    exact reads_cases ih ha.2 hb.2 hlen h
  case array.array a ih b => exact ih ha hb h
  case function.function p q e c ihp ihq p' q' e' c' =>
    obtain ⟨hp, h⟩ := ihp ha.1 hb.1 h
    obtain ⟨hq, h⟩ := ihq ha.2.1 hb.2.1 h
    obtain ⟨he, h⟩ := samePerm_of_write ha.2.2 hb.2.2 h
    obtain ⟨hc, hr⟩ := cons.inj h
    exact ⟨⟨hp, hq, he, canonicalCode_inj hc⟩, hr⟩
  case actor.actor st bh ihs ihb st' bh' =>
    obtain ⟨hst, h⟩ := ihs ha.1 hb.1 h
    obtain ⟨hbh, hr⟩ := ihb ha.2 hb.2 h
    exact ⟨⟨hst, hbh⟩, hr⟩
  case app.app c as ihc ih c' bs =>
    obtain ⟨hc, h⟩ := ihc ha.1 hb.1 h
    obtain ⟨hlen, h⟩ := delimited_le 4 ha.2.1 hb.2.1 h
    obtain ⟨hlist, hr⟩ :=
      forall₂_of_flatMap ih (fitsList_iff.mp ha.2.2) (fitsList_iff.mp hb.2.2) hlen h
    exact ⟨⟨hc, structEqList_iff.mpr hlist⟩, hr⟩
  case reference.reference c a ih c' b =>
    obtain ⟨hab, hr⟩ := ih ha (show b.Fits from hb) h.2
    exact ⟨⟨canonicalCode_inj h.1, hab⟩, hr⟩
  case scheme.scheme vs a ih ws b =>
    obtain ⟨hlen, h⟩ := delimited_le 4 ha.1 hb.1 h
    obtain ⟨hvs, h⟩ := (delimited_le 8).flatMap ha.2.1 hb.2.1 hlen h
    obtain ⟨hab, hr⟩ := ih ha.2.2 hb.2.2 h
    exact ⟨⟨hvs, hab⟩, hr⟩
  case nominal.nominal n a ih m b =>
    obtain ⟨hname, h⟩ := delimited_str 4 ha.1 hb.1 h
    obtain ⟨hab, hr⟩ := ih ha.2 hb.2 h
    exact ⟨⟨hname, hab⟩, hr⟩
  case skolem.skolem id id' => exact delimited_le 8 ha hb h

theorem writeCases_of_structEq {as bs : Cases}
    (hwrite : ∀ c ∈ as, ∀ t ∈ c.2, ∀ u : Ty, u.Fits → StructEq SamePerm t u →
      writeCanonicalType t = writeCanonicalType u)
    (hb : FitsCases bs) (h : StructEqCases SamePerm as bs) :
    as.length = bs.length ∧ writeCases as = writeCases bs := by
  induction as generalizing bs with
  | nil =>
    cases bs <;> simp only [StructEqCases] at h
    exact ⟨rfl, rfl⟩
  | cons c as ih =>
    rw [forall_mem_cons] at hwrite
    obtain ⟨n, _ | t⟩ := c <;> obtain _ | ⟨⟨m, _ | u⟩, bs⟩ := bs <;> simp only [StructEqCases] at h
    · obtain ⟨hlen, hrest⟩ := ih hwrite.2 hb.2 h.2
      exact ⟨congrArg Nat.succ hlen, by rw [writeCases, writeCases, h.1, hrest]⟩
    · obtain ⟨hlen, hrest⟩ := ih hwrite.2 hb.2.2 h.2.2
      have htu := hwrite.1 t rfl u hb.2.1 h.2.1
      exact ⟨congrArg Nat.succ hlen, by rw [writeCases, writeCases, h.1, htu, hrest]⟩

theorem writeTypes_of_structEq (hwrite : ∀ t ∈ as, ∀ u : Ty, u.Fits → StructEq SamePerm t u →
      writeCanonicalType t = writeCanonicalType u) (hb : FitsList bs)
    (h : StructEqList SamePerm as bs) : as.length = bs.length ∧ writeTypes as = writeTypes bs := by
  rw [structEqList_iff] at h
  induction h with
  | nil => exact ⟨rfl, rfl⟩
  | cons hab _ ih =>
    rw [forall_mem_cons] at hwrite
    obtain ⟨hlen, hrest⟩ := ih hwrite.2 hb.2
    exact ⟨congrArg Nat.succ hlen, by rw [writeTypes, writeTypes, hwrite.1 _ hb.1 hab, hrest]⟩

theorem writeFields_of_related {as bs : Fields}
    (hwrite : ∀ f ∈ as, ∀ u : Ty, u.Fits → StructEq SamePerm f.2 u →
      writeCanonicalType f.2 = writeCanonicalType u)
    (hb : ∀ f ∈ bs, f.2.Fits) (h : Forall₂ (Related (StructEq SamePerm)) as bs) :
    as.map (Prod.map id writeCanonicalType) = bs.map (Prod.map id writeCanonicalType) := by
  induction h with
  | nil => rfl
  | cons hab _ ih =>
    rw [forall_mem_cons] at hwrite hb
    rw [map_cons, map_cons, ih hwrite.2 hb.2, Prod.map, Prod.map, hab.1, hwrite.1 _ hb.1 hab.2]

theorem write_of_structEq :
    ∀ b : Ty, b.Fits → StructEq SamePerm a b → writeCanonicalType a = writeCanonicalType b := by
  induction a <;> intro b hb h <;> cases b <;> simp only [StructEq] at h <;>
    rw [writeCanonicalType, writeCanonicalType]
  case record.record as ih bs =>
    obtain ⟨bs', hperm, hrel⟩ := h
    rw [structEqFields_iff] at hrel
    have hfits : ∀ f ∈ bs', f.2.Fits := fun f hf =>
      (fitsFields_iff.mp hb.2.2 f (hperm.mem_iff.mpr hf)).2
    -- distinct names, so the order of the fields does not matter
    have hsort : sortByKey bs = sortByKey bs' := by
      simpa using sortByKey_append_perm hperm hb.2.1 []
    have hlen : as.length = bs.length := hrel.length_eq.trans hperm.length_eq.symm
    have hmap := writeFields_of_related ih hfits hrel
    rw [hlen, writeFields_eq, writeFields_eq, hmap, sortByKey_map, sortByKey_map, hsort]
  case tuple.tuple as ih bs =>
    obtain ⟨hlen, hlist⟩ := writeTypes_of_structEq ih hb.2 h
    rw [hlen, hlist]
  case variant.variant as ih bs =>
    obtain ⟨hlen, hcases⟩ := writeCases_of_structEq ih hb.2 h
    rw [hlen, hcases]
  case array.array a ih b => rw [ih b hb h]
  case function.function p q e c ihp ihq p' q' e' c' =>
    obtain ⟨hp, hq, he, rfl⟩ := h
    rw [ihp p' hb.1 hp, ihq q' hb.2.1 hq, write_of_samePerm he]
  case actor.actor st bh ihs ihb st' bh' => rw [ihs st' hb.1 h.1, ihb bh' hb.2 h.2]
  case app.app c as ihc ih c' bs =>
    obtain ⟨hlen, hlist⟩ := writeTypes_of_structEq ih hb.2.2 h.2
    rw [ihc c' hb.1 h.1, hlen, hlist]
  case reference.reference c a ih c' b => rw [h.1, ih b hb h.2]
  case scheme.scheme vs a ih ws b => rw [h.1, ih b hb.2.2 h.2]
  case nominal.nominal n a ih m b => rw [h.1, ih b hb.2 h.2]
  case var.var | primitive.primitive | skolem.skolem => rw [h]

/-- What the encoding identifies. -/
theorem canonicalTypeBytes_eq_iff (ha : a.Fits) (hb : b.Fits) :
    canonicalTypeBytes a = canonicalTypeBytes b ↔ StructEq SamePerm a b :=
  ⟨fun h => (reads a (r := []) ha hb (congrArg (· ++ []) h)).1, write_of_structEq b hb⟩

/-! ## Rows as sets -/

mutual

def rows : Ty → List EffectRow
  | .var _ | .primitive _ | .skolem _ => []
  | .tuple ts => rowsList ts
  | .record fs => rowsFields fs
  | .variant cases => rowsCases cases
  | .array t | .reference _ t | .scheme _ t | .nominal _ t => rows t
  | .function param ret effect _ => effect :: (rows param ++ rows ret)
  | .actor state behavior => rows state ++ rows behavior
  | .app constructor args => rows constructor ++ rowsList args

def rowsList : List Ty → List EffectRow
  | [] => []
  | t :: ts => rows t ++ rowsList ts

def rowsFields : Fields → List EffectRow
  | [] => []
  | (_, t) :: fs => rows t ++ rowsFields fs

def rowsCases : Cases → List EffectRow
  | [] => []
  | (_, none) :: cases => rowsCases cases
  | (_, some t) :: cases => rows t ++ rowsCases cases

end

theorem mem_rowsFields {e : EffectRow} {fs : Fields} :
    e ∈ rowsFields fs ↔ ∃ f ∈ fs, e ∈ f.2.rows := by
  induction fs with
  | nil => simp [rowsFields]
  | cons f fs ih => simp [rowsFields, ih]

section Mono

variable {R R' : EffectRow → EffectRow → Prop}

/-- `R` implies `R'` on the rows of two types. -/
def RowsImp (R R' : EffectRow → EffectRow → Prop) (as bs : List EffectRow) : Prop :=
  ∀ e ∈ as, ∀ e' ∈ bs, R e e' → R' e e'

theorem RowsImp.mono {as bs as' bs' : List EffectRow} (h : RowsImp R R' as bs) (ha : as' ⊆ as)
    (hb : bs' ⊆ bs) : RowsImp R R' as' bs' := fun e he e' he' => h e (ha he) e' (hb he')

theorem RowsImp.left {as bs as' bs' : List EffectRow} (h : RowsImp R R' (as ++ as') (bs ++ bs')) :
    RowsImp R R' as bs := h.mono (subset_append_left _ _) (subset_append_left _ _)

theorem RowsImp.right {as bs as' bs' : List EffectRow} (h : RowsImp R R' (as ++ as') (bs ++ bs')) :
    RowsImp R R' as' bs' := h.mono (subset_append_right _ _) (subset_append_right _ _)

theorem StructEqList.mono {as bs : List Ty}
    (ih : ∀ t ∈ as, ∀ u, RowsImp R R' t.rows u.rows → StructEq R t u → StructEq R' t u)
    (hR : RowsImp R R' (rowsList as) (rowsList bs)) (h : StructEqList R as bs) :
    StructEqList R' as bs := by
  rw [structEqList_iff] at h ⊢
  induction h with
  | nil => exact .nil
  | cons hab _ ihl =>
    rw [forall_mem_cons] at ih
    exact .cons (ih.1 _ hR.left hab) (ihl ih.2 hR.right)

theorem related_mono {as bs : Fields}
    (ih : ∀ f ∈ as, ∀ u, RowsImp R R' f.2.rows u.rows → StructEq R f.2 u → StructEq R' f.2 u)
    (hR : RowsImp R R' (rowsFields as) (rowsFields bs)) (h : Forall₂ (Related (StructEq R)) as bs) :
    Forall₂ (Related (StructEq R')) as bs := by
  induction h with
  | nil => exact .nil
  | cons hab _ ihl =>
    rw [forall_mem_cons] at ih
    exact .cons ⟨hab.1, ih.1 _ hR.left hab.2⟩ (ihl ih.2 hR.right)

theorem StructEqCases.mono {as bs : Cases}
    (ih : ∀ c ∈ as, ∀ t ∈ c.2, ∀ u, RowsImp R R' t.rows u.rows → StructEq R t u → StructEq R' t u)
    (hR : RowsImp R R' (rowsCases as) (rowsCases bs)) (h : StructEqCases R as bs) :
    StructEqCases R' as bs := by
  induction as generalizing bs with
  | nil => cases bs <;> simp only [StructEqCases] at h ⊢
  | cons c as ihl =>
    rw [forall_mem_cons] at ih
    obtain ⟨n, _ | t⟩ := c <;> obtain _ | ⟨⟨m, _ | u⟩, bs⟩ := bs <;>
      simp only [StructEqCases] at h ⊢
    · exact ⟨h.1, ihl ih.2 hR h.2⟩
    · exact ⟨h.1, ih.1 t rfl u hR.left h.2.1, ihl ih.2 hR.right h.2.2⟩

theorem StructEq.mono {a : Ty} :
    ∀ b : Ty, RowsImp R R' a.rows b.rows → StructEq R a b → StructEq R' a b := by
  induction a <;> intro b hR h <;> cases b <;> simp only [StructEq] at h ⊢
  case record.record as ih bs =>
    obtain ⟨bs', hperm, hrel⟩ := h
    rw [structEqFields_iff] at hrel
    refine ⟨bs', hperm,
      structEqFields_iff.mpr (related_mono ih (hR.mono (Subset.refl _) fun e he => ?_) hrel)⟩
    obtain ⟨f, hf, he⟩ := mem_rowsFields.mp he
    exact mem_rowsFields.mpr ⟨f, hperm.mem_iff.mpr hf, he⟩
  case tuple.tuple as ih bs => exact StructEqList.mono ih hR h
  case variant.variant as ih bs => exact StructEqCases.mono ih hR h
  case array.array a ih b => exact ih b hR h
  case function.function p q e c ihp ihq p' q' e' c' =>
    have hrest := hR.mono (subset_cons_self _ _) (subset_cons_self _ _)
    exact ⟨ihp p' hrest.left h.1, ihq q' hrest.right h.2.1,
      hR e mem_cons_self e' mem_cons_self h.2.2.1, h.2.2.2⟩
  case actor.actor st bh ihs ihb st' bh' => exact ⟨ihs st' hR.left h.1, ihb bh' hR.right h.2⟩
  case app.app c as ihc ih c' bs => exact ⟨ihc c' hR.left h.1, StructEqList.mono ih hR.right h.2⟩
  case reference.reference c a ih c' b | scheme.scheme c a ih c' b | nominal.nominal c a ih c' b =>
    exact ⟨h.1, ih b hR h.2⟩
  case var.var | primitive.primitive | skolem.skolem => exact h

end Mono

/-- Types that are equal when rows are sets repeat effects equally often in corresponding rows. -/
def RowsAlike (a b : Ty) : Prop :=
  StructEq SameSet a b → StructEq SamePerm a b

/-- It is enough that rows repeat nothing. -/
theorem rowsAlike_of_nodup (ha : ∀ e ∈ a.rows, e.Nodup) (hb : ∀ e ∈ b.rows, e.Nodup) :
    RowsAlike a b :=
  StructEq.mono b fun e he e' he' => samePerm_of_nodup (ha e he) (hb e' he')

theorem structEq_sameSet (h : StructEq SamePerm a b) : StructEq SameSet a b :=
  StructEq.mono b (fun _ _ _ _ hrow => hrow.sameSet) h

/-- Encodings put one after the other can be taken apart again. -/
theorem forall₂_of_concat (ha : ∀ a ∈ as, a.Fits) (hb : ∀ b ∈ bs, b.Fits)
    (h : as.flatMap canonicalTypeBytes = bs.flatMap canonicalTypeBytes) :
    Forall₂ (fun a b => canonicalTypeBytes a = canonicalTypeBytes b) as bs := by
  have nonempty : ∀ t : Ty, canonicalTypeBytes t ≠ [] := by
    intro t
    cases t <;> exact cons_ne_nil _ _
  induction as generalizing bs with
  | nil =>
    cases bs with
    | nil => exact .nil
    | cons b bs => exact absurd (append_eq_nil_iff.mp h.symm).1 (nonempty b)
  | cons a as ih =>
    cases bs with
    | nil => exact absurd (append_eq_nil_iff.mp h).1 (nonempty a)
    | cons b bs =>
      rw [forall_mem_cons] at ha hb
      obtain ⟨hab, hrest⟩ := reads a ha.1 hb.1 h
      exact .cons (write_of_structEq b hb.1 hab) (ih ha.2 hb.2 hrest)

/-- Encodings are equal exactly for types that are equal up to the order of record fields and with
rows as sets, if and only if rows that are equal as sets repeat their effects equally often. No
encoding is the beginning of another one, and the encodings of a list of types determine those of
its members. -/
theorem canonical_type_identity {a b : Ty} {as bs : List Ty} (ha : a.Fits) (hb : b.Fits)
    (has : ∀ t ∈ as, t.Fits) (hbs : ∀ t ∈ bs, t.Fits) :
    ((canonicalTypeBytes a = canonicalTypeBytes b ↔ StructEq SameSet a b) ↔
      RowsAlike a b) ∧
    (∀ s, canonicalTypeBytes a ++ s = canonicalTypeBytes b → s = []) ∧
    (as.flatMap canonicalTypeBytes = bs.flatMap canonicalTypeBytes →
      Forall₂ (fun a b => canonicalTypeBytes a = canonicalTypeBytes b) as bs) := by
  refine ⟨?_, fun s h => ?_, forall₂_of_concat has hbs⟩
  · rw [canonicalTypeBytes_eq_iff ha hb]
    exact ⟨fun h => h.mpr, fun h => ⟨structEq_sameSet, h⟩⟩
  · exact (reads a (s := []) ha hb (by rw [append_nil]; exact h)).2

/-- `() -> () ! {IO}` and the row `combine` makes of `{IO}` and `{IO}`. -/
def printer : Ty := .function .unit .unit (.closed [.io]) .val

def printerTwice : Ty := .function .unit .unit (.closed [.io, .io]) .val

/-- Two orders of the fields of a record. -/
def point : Ty := .record [("x", .int), ("y", .int)]

def pointFlipped : Ty := .record [("y", .int), ("x", .int)]

theorem fits_point : point.Fits ∧ pointFlipped.Fits := by
  simp only [point, pointFlipped, Fits, FitsFields, Ty.int]
  decide

theorem canonical_type_identity_point :
    canonicalTypeBytes point = canonicalTypeBytes pointFlipped := by
  have hnone : ∀ t ∈ ([] : List Ty), t.Fits := fun _ ht => absurd ht not_mem_nil
  have h := (canonical_type_identity fits_point.1 fits_point.2 hnone hnone).1.mpr
    (rowsAlike_of_nodup (by simp [point, rows, rowsFields, Ty.int])
      (by simp [pointFlipped, rows, rowsFields, Ty.int]))
  refine h.mpr ?_
  simp only [point, pointFlipped, StructEq]
  exact ⟨[("x", .int), ("y", .int)], Perm.swap _ _ _, by simp [StructEqFields, StructEq, Ty.int]⟩

/-- One effect twice: equal as sets, and two encodings. -/
theorem canonical_type_repeats :
    printer.Fits ∧ printerTwice.Fits ∧ StructEq SameSet printer printerTwice ∧
      canonicalTypeBytes printer ≠ canonicalTypeBytes printerTwice := by
  refine ⟨?_, ?_, ?_, by decide⟩
  · simp [printer, Fits, Ty.unit, EffectRow.Fits, Effect.Fits, Effect.name]
  · simp [printerTwice, Fits, Ty.unit, EffectRow.Fits, Effect.Fits, Effect.name]
  · simp [printer, printerTwice, StructEq, Ty.unit, SameSet]

end Ty

end Nulang

import Nulang.Valuation

/-!
# Records and their rows

`split_record` walks a chain of row tails. This file describes one round of that walk
(`splitTail_record`), shows that reading a record under a valuation is reading its real fields and
its residual tail separately (`read_record_split`), and from that derives when two records read the
same: the closed case, where the sorted fields agree pairwise, and the open case, where each row
absorbs what only the other side has.
-/

set_option autoImplicit false

namespace Nulang

open List SortByKey

namespace Ty

/-! ## One round of `split_record` -/

/-- No field of the list is a row tail. -/
def Plain (fs : Fields) : Prop := ∀ f ∈ fs, f.1 ≠ recordRowTailField

/-- The fields of one level that are not the row tail. -/
def ownFields (fs : Fields) : Fields := fs.filter (·.1 ≠ recordRowTailField)

/-- The row tail of one level: the last field of that name. -/
def lastTail : Fields → Option Ty
  | [] => none
  | (n, t) :: fs =>
      (lastTail fs).orElse fun _ => if n = recordRowTailField then some t else none

/-- What an optional tail contributes. -/
def splitOption : Option Ty → Fields × Option Ty
  | none => ([], none)
  | some t => splitTail t

theorem splitFields_eq (fs : Fields) :
    splitFields fs = (ownFields fs, (lastTail fs).map splitTail) := by
  induction fs with
  | nil => rfl
  | cons f fs ih =>
    obtain ⟨n, t⟩ := f
    by_cases hn : n = recordRowTailField
    · cases h : lastTail fs <;> simp [splitFields, ih, ownFields, lastTail, hn, h]
    · cases h : lastTail fs <;> simp [splitFields, ih, ownFields, lastTail, hn, h]

/-- One round: the level's own fields, then whatever the tail contributes. -/
theorem splitTail_record (fs : Fields) :
    splitTail (.record fs) = (ownFields fs ++ (splitOption (lastTail fs)).1,
      (splitOption (lastTail fs)).2) := by
  rw [splitTail, splitFields_eq]
  cases lastTail fs with
  | none => simp [splitOption]
  | some t => rfl

theorem splitTail_of_not_record {t : Ty} (h : ∀ fs, t ≠ .record fs) :
    splitTail t = ([], some t) := by
  cases t with
  | record fs => exact absurd rfl (h fs)
  | _ => rfl

theorem plain_ownFields (fs : Fields) : Plain (ownFields fs) := by
  intro f hf
  simpa [ownFields] using (mem_filter.mp hf).2

variable {fs : Fields}

theorem ownFields_of_plain (h : Plain fs) : ownFields fs = fs := by
  refine filter_eq_self.mpr fun f hf => ?_
  simpa using h f hf

theorem lastTail_of_plain (h : Plain fs) : lastTail fs = none := by
  induction fs with
  | nil => rfl
  | cons f fs ih =>
    have hf : f.1 ≠ recordRowTailField := h f (by simp)
    have hfs : Plain fs := fun g hg => h g (mem_cons_of_mem _ hg)
    obtain ⟨n, t⟩ := f
    simp [lastTail, ih hfs, show n ≠ recordRowTailField from hf]

theorem lastTail_mem {t : Ty} (h : lastTail fs = some t) : (recordRowTailField, t) ∈ fs := by
  induction fs with
  | nil => simp [lastTail] at h
  | cons f fs ih =>
    obtain ⟨n, u⟩ := f
    cases hl : lastTail fs with
    | some w =>
      have hw : w = t := by simpa [lastTail, hl] using h
      exact mem_cons_of_mem _ (ih (by rw [hl, hw]))
    | none =>
      by_cases hn : n = recordRowTailField
      · have hu : u = t := by simpa [lastTail, hl, hn] using h
        simp [hn, hu]
      · simp [lastTail, hl, hn] at h

theorem lastTail_append_tail (t : Ty) : lastTail (fs ++ [(recordRowTailField, t)]) = some t := by
  induction fs with
  | nil => simp [lastTail]
  | cons f fs ih => simp [lastTail, ih]

theorem ownFields_append_tail (h : Plain fs) (t : Ty) :
    ownFields (fs ++ [(recordRowTailField, t)]) = fs := by
  have := ownFields_of_plain h
  unfold ownFields at this ⊢
  rw [filter_append, this]
  simp

theorem ownFields_map (g : Ty → Ty) :
    ownFields (fs.map (Prod.map id g)) = (ownFields fs).map (Prod.map id g) := by
  simp only [ownFields, filter_map]
  rfl

theorem lastTail_map (g : Ty → Ty) : lastTail (fs.map (Prod.map id g)) = (lastTail fs).map g := by
  induction fs with
  | nil => rfl
  | cons f fs ih =>
    obtain ⟨n, t⟩ := f
    by_cases hn : n = recordRowTailField
    · cases h : lastTail fs <;> simp [lastTail, ih, hn, h]
    · cases h : lastTail fs <;> simp [lastTail, ih, hn, h]

/-- The fields of a split are no tails, and its residual tail is no record. -/
theorem splitTail_shape (t : Ty) :
    Plain (splitTail t).1 ∧ ∀ fs, (splitTail t).2 ≠ some (.record fs) := by
  induction t with
  | record fs ih =>
    rw [splitTail_record]
    cases h : lastTail fs with
    | none =>
      refine ⟨?_, by simp [splitOption]⟩
      simpa [splitOption] using plain_ownFields fs
    | some t =>
      obtain ⟨hp, hr⟩ := ih _ (lastTail_mem h)
      refine ⟨fun f hf => ?_, hr⟩
      rcases mem_append.mp hf with hf | hf
      · exact plain_ownFields fs f hf
      · exact hp f hf
  | _ => simp [splitTail, Plain]

theorem plain_sortByKey : Plain (sortByKey fs) ↔ Plain fs := by
  simp [Plain]

/-- Splitting a canonical row gives its parts back. -/
theorem splitTail_joinRow {fields : Fields} {tail : Option Ty} (hf : Plain fields)
    (ht : ∀ fs, tail ≠ some (.record fs)) :
    splitTail (.record (joinRow fields tail)) = (sortByKey fields, tail) := by
  have hs := plain_sortByKey.mpr hf
  rw [splitTail_record]
  cases tail with
  | none => simp [joinRow, ownFields_of_plain hs, lastTail_of_plain hs, splitOption]
  | some t =>
    have : splitTail t = ([], some t) := splitTail_of_not_record fun fs h => ht fs (by rw [h])
    simp [joinRow, ownFields_append_tail hs, lastTail_append_tail, splitOption, this]

section Reading

variable (ρ : TypeVar → Ty)

/-- The split of a read tail is the read split, up to the order of fields. -/
theorem splitTail_read (t : Ty) (l : Fields) : sortByKey (l ++ (splitTail (read ρ t)).1) =
        sortByKey (l ++ ((splitTail t).1.map (Prod.map id (read ρ))
          ++ (splitOption ((splitTail t).2.map (read ρ))).1)) ∧
      (splitTail (read ρ t)).2 = (splitOption ((splitTail t).2.map (read ρ))).2 := by
  induction t generalizing l with
  | record fs ih =>
    have hshape := splitTail_shape (.record (fs.map (Prod.map id (read ρ))))
    rw [read_record, splitRecord, splitTail_joinRow hshape.1 hshape.2, splitTail_record,
      splitTail_record, ownFields_map, lastTail_map, sortByKey_append_sort]
    cases h : lastTail fs with
    | none => simp [splitOption]
    | some t =>
      obtain ⟨h1, h2⟩ := ih _ (lastTail_mem h) (l ++ (ownFields fs).map (Prod.map id (read ρ)))
      refine ⟨?_, h2⟩
      simp only [Option.map_some, splitOption, map_append, append_assoc] at h1 ⊢
      exact h1
  | _ => simp [splitTail, splitOption]

/-- A record is read by reading its real fields and its residual tail. -/
theorem read_record_split :
    read ρ (.record fs) = .record (joinRow ((splitRecord fs).1.map (Prod.map id (read ρ))
          ++ (splitOption ((splitRecord fs).2.map (read ρ))).1)
            (splitOption ((splitRecord fs).2.map (read ρ))).2) := by
  have hshape := splitTail_shape (.record (fs.map (Prod.map id (read ρ))))
  obtain ⟨h1, h2⟩ := splitTail_read ρ (.record fs) []
  rw [read_record, splitRecord, splitTail_joinRow hshape.1 hshape.2] at h1 h2
  simp only [nil_append, sortByKey_sortByKey] at h1
  rw [read_record]
  unfold splitRecord
  rw [h2]
  unfold joinRow
  rw [h1]

end Reading

/-! ## When two records read the same -/

section Agreement

variable {ρ : TypeVar → Ty} {fs1 fs2 : Fields}

/-- Closed records: the sorted real fields agree pairwise. -/
theorem Agree.closedRecord (h1 : (splitRecord fs1).2 = none) (h2 : (splitRecord fs2).2 = none)
    (h : Forall₂ (Related (Agree ρ)) (sortByKey (splitRecord fs1).1)
      (sortByKey (splitRecord fs2).1)) :
    Agree ρ (.record fs1) (.record fs2) := by
  rw [Agree, read_record_split, read_record_split, h1, h2, eqUpToEffects, eqUpToEffectsFields_iff]
  simp only [Option.map_none, splitOption, append_nil, joinRow, sortByKey_map]
  rw [forall₂_map_left_iff, forall₂_map_right_iff]
  exact h

/-- The fields of one side that the other side does not have. -/
def extraFields (fields other : Fields) : Fields :=
  fields.filter fun f => !(other.map Prod.fst).contains f.1

variable {fields other : Fields}

theorem mem_extraFields {f : String × Ty} :
    f ∈ extraFields fields other ↔ f ∈ fields ∧ f.1 ∉ other.map Prod.fst := by
  unfold extraFields
  rw [mem_filter]
  simp

theorem nodup_append_extraFields (h : (fields.map Prod.fst).Nodup)
    (h' : (other.map Prod.fst).Nodup) :
    ((other ++ extraFields fields other).map Prod.fst).Nodup := by
  rw [map_append, nodup_append]
  refine ⟨h', h.sublist (filter_sublist.map Prod.fst), ?_⟩
  intro n hn m hm hnm
  obtain ⟨f, hf, rfl⟩ := mem_map.mp hm
  exact (mem_extraFields.mp hf).2 (hnm ▸ hn)

theorem mem_names_append_extraFields {n : String} :
    n ∈ (other ++ extraFields fields other).map Prod.fst ↔
      n ∈ other.map Prod.fst ∨ n ∈ fields.map Prod.fst := by
  rw [map_append, mem_append]
  constructor
  · rintro (h | h)
    · exact .inl h
    · obtain ⟨f, hf, rfl⟩ := mem_map.mp h
      exact .inr (mem_map_of_mem (mem_extraFields.mp hf).1)
  · rintro (h | h)
    · exact .inl h
    · by_cases hn : n ∈ other.map Prod.fst
      · exact .inl hn
      · obtain ⟨f, hf, rfl⟩ := mem_map.mp h
        exact .inr (mem_map_of_mem (mem_extraFields.mpr ⟨hf, hn⟩))

/-- Two field lists without repeated names that agree where they share a name: each, extended by
what only the other one has and by a common rest, reads the same. -/
theorem forall₂_sortByKey_extraFields {fields1 fields2 : Fields}
    (hn1 : (fields1.map Prod.fst).Nodup) (hn2 : (fields2.map Prod.fst).Nodup)
    (hshared : ∀ n a b, (n, a) ∈ fields1 → (n, b) ∈ fields2 → Agree ρ a b) (rest : Fields) :
    Forall₂ (Related fun a b => eqUpToEffects a b = true)
      (sortByKey ((fields1 ++ extraFields fields2 fields1).map (Prod.map id (read ρ)) ++ rest))
      (sortByKey
        ((fields2 ++ extraFields fields1 fields2).map (Prod.map id (read ρ)) ++ rest)) := by
  have hfst : ∀ l : Fields, (l.map (Prod.map id (read ρ))).map Prod.fst = l.map Prod.fst := by
    intro l
    rw [map_map]
    rfl
  refine forall₂_sortByKey_append ?_ ?_ ?_ ?_ (fun p _ => eqUpToEffects_refl p.2)
  · rw [hfst]
    exact nodup_append_extraFields hn2 hn1
  · rw [hfst]
    exact nodup_append_extraFields hn1 hn2
  · intro n
    rw [hfst, hfst, mem_names_append_extraFields, mem_names_append_extraFields, or_comm]
  · intro n a b ha hb
    obtain ⟨⟨_, t⟩, ht, hta⟩ := mem_map.mp ha
    obtain ⟨⟨_, u⟩, hu, hub⟩ := mem_map.mp hb
    obtain ⟨rfl, rfl⟩ := Prod.mk.inj hta
    obtain ⟨hnn, rfl⟩ := Prod.mk.inj hub
    simp only [id_eq] at hnn
    subst hnn
    -- A name of both sides comes from the fields themselves, any other name from one list only.
    rcases mem_append.mp ht with ht | ht <;> rcases mem_append.mp hu with hu | hu
    · exact hshared _ t u ht hu
    · have : t = u := congrArg Prod.snd (inj_on_of_nodup_map hn1 ht (mem_extraFields.mp hu).1 rfl)
      rw [this]
      exact eqUpToEffects_refl _
    · have : t = u := congrArg Prod.snd (inj_on_of_nodup_map hn2 (mem_extraFields.mp ht).1 hu rfl)
      rw [this]
      exact eqUpToEffects_refl _
    · exact absurd (mem_map_of_mem (mem_extraFields.mp hu).1) (mem_extraFields.mp ht).2

/-- The row of the first record reads as the fields that only the second has, followed by `rest`. -/
structure RowReads (ρ : TypeVar → Ty) (fs fs' : Fields) (rest : Fields × Option Ty) : Prop where
  fields : ∀ l, sortByKey (l ++ (splitOption ((splitRecord fs).2.map (read ρ))).1) =
    sortByKey
      (l ++ ((extraFields (splitRecord fs').1 (splitRecord fs).1).map
        (Prod.map id (read ρ)) ++ rest.1))
  tail : (splitOption ((splitRecord fs).2.map (read ρ))).2 = rest.2

/-- Open records: the shared fields agree, and each row reads as the other side's extra fields
followed by a common rest. -/
theorem Agree.openRecord {rest : Fields × Option Ty}
    (hn1 : ((splitRecord fs1).1.map Prod.fst).Nodup)
    (hn2 : ((splitRecord fs2).1.map Prod.fst).Nodup)
    (hshared : ∀ n a b, (n, a) ∈ (splitRecord fs1).1 → (n, b) ∈ (splitRecord fs2).1 → Agree ρ a b)
    (h1 : RowReads ρ fs1 fs2 rest) (h2 : RowReads ρ fs2 fs1 rest) :
    Agree ρ (.record fs1) (.record fs2) := by
  have h := forall₂_sortByKey_extraFields hn1 hn2 hshared rest.1
  simp only [map_append, append_assoc] at h
  rw [← h1.fields, ← h2.fields] at h
  rw [Agree, read_record_split, read_record_split, h1.tail, h2.tail, eqUpToEffects,
    eqUpToEffectsFields_iff]
  cases rest.2 with
  | none => exact h
  | some t =>
    refine rel_append h ?_
    exact .cons ⟨rfl, eqUpToEffects_refl t⟩ .nil

/-- The row of a type that reads as a record with the given real fields and tail. -/
theorem splitOption_read_record (hf : Plain fields) (tail : Option Ty) {t : Ty}
    (ht : t = read ρ (.record (fields ++ (tail.map fun u => (recordRowTailField, u)).toList))) :
    (∀ l, sortByKey (l ++ (splitTail t).1) = sortByKey (l ++ (fields.map (Prod.map id (read ρ))
        ++ (splitOption (tail.map (read ρ))).1))) ∧
          (splitTail t).2 = (splitOption (tail.map (read ρ))).2 := by
  have hrow : splitTail (.record (fields ++ (tail.map fun u => (recordRowTailField, u)).toList)) =
      (fields ++ (splitOption tail).1, (splitOption tail).2) := by
    rw [splitTail_record]
    cases tail with
    | none => simp [ownFields_of_plain hf, lastTail_of_plain hf]
    | some u => simp [ownFields_append_tail hf, lastTail_append_tail]
  have hread :=
    splitTail_read ρ (.record (fields ++ (tail.map fun u => (recordRowTailField, u)).toList))
  rw [hrow, ← ht] at hread
  cases tail with
  | none =>
    simp only [splitOption, Option.map_none, append_nil] at hread ⊢
    exact ⟨fun l => (hread l).1, (hread []).2⟩
  | some u =>
    refine ⟨fun l => ?_, ?_⟩
    · rw [(hread l).1]
      simp only [Option.map_some, splitOption, map_append, append_assoc]
      have h := (splitTail_read ρ u (l ++ fields.map (Prod.map id (read ρ)))).1
      simp only [append_assoc] at h
      exact h.symm
    · rw [(hread []).2]
      exact (splitTail_read ρ u []).2.symm

end Agreement

end Ty

end Nulang

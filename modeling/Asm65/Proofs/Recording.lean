import Asm65.Diagnostics

/-!
# Errors recorded one after another

A linker records its errors without position. Of those that agree in category and message the first is kept, so
after a list of causes every message of theirs is known, and each once.
-/

namespace Asm65.Diagnostics
set_option autoImplicit false

/-- After recording the causes in order, without position. -/
def recordAll (d : Diagnostics) (causes : List Cause) : Diagnostics :=
  causes.foldl (fun d cause => d.record ⟨cause, none⟩) d

/-- The messages of a category, in the order of the report. -/
def texts (d : Diagnostics) (c : Category) : List String := (d.toList.filter (·.category == c)).map (·.message)

variable {d : Diagnostics} {c : Category} {text : String} {cause : Cause} {causes : List Cause}

theorem mem_texts : text ∈ d.texts c ↔ ∃ e ∈ d.toList, e.category = c ∧ e.message = text := by
  simp [texts, and_assoc]

@[simp] theorem texts_empty (c : Category) : ({} : Diagnostics).texts c = [] := rfl

/-- A new error without position comes last. -/
theorem toList_record_of_isNew (new : d.isNew ⟨cause, none⟩ = true) :
    (d.record ⟨cause, none⟩).toList = d.toList ++ [⟨cause, none⟩] := by
  simp [record, new, toList]

theorem isNew_eq_false : d.isNew ⟨cause, none⟩ = false ↔
    ∃ e ∈ d.others.toList, e.category = cause.category ∧ e.message = cause.message := by
  unfold isNew
  dsimp only
  rw [← Array.any_toList, Bool.not_eq_false', List.any_eq_true]
  simp [Error.category, Error.message]

/-- An error that is not new has its message known already. -/
theorem mem_texts_of_not_isNew (old : d.isNew ⟨cause, none⟩ = false) : cause.message ∈ d.texts cause.category := by
  obtain ⟨e, mem, same⟩ := isNew_eq_false.1 old
  exact mem_texts.2 ⟨e, List.mem_append_right _ mem, same⟩

theorem texts_record_of_not_isNew (old : d.isNew ⟨cause, none⟩ = false) :
    (d.record ⟨cause, none⟩).texts c = d.texts c := by
  simp [record, old, texts, toList]

theorem texts_record_of_isNew (new : d.isNew ⟨cause, none⟩ = true) :
    (d.record ⟨cause, none⟩).texts c = d.texts c ++ if cause.category = c then [cause.message] else [] := by
  simp only [texts, toList_record_of_isNew new, List.filter_append, List.map_append, List.append_cancel_left_eq]
  by_cases same : cause.category = c <;> simp [Error.category, Error.message, same]

theorem mem_texts_record :
    text ∈ (d.record ⟨cause, none⟩).texts c ↔ text ∈ d.texts c ∨ cause.category = c ∧ cause.message = text := by
  cases new : d.isNew ⟨cause, none⟩ with
  | true =>
    rw [texts_record_of_isNew new, List.mem_append]
    by_cases same : cause.category = c <;> simp [same, eq_comm]
  | false =>
    rw [texts_record_of_not_isNew new]
    constructor
    · exact .inl
    · rintro (known | ⟨rfl, rfl⟩)
      · exact known
      · exact mem_texts_of_not_isNew new

/-- What is reported after recording the causes. -/
theorem mem_texts_recordAll :
    text ∈ (d.recordAll causes).texts c ↔
      text ∈ d.texts c ∨ ∃ cause ∈ causes, cause.category = c ∧ cause.message = text := by
  induction causes generalizing d with
  | nil => simp [recordAll]
  | cons cause rest ih =>
    have step : d.recordAll (cause :: rest) = (d.record ⟨cause, none⟩).recordAll rest := rfl
    rw [step, ih, mem_texts_record]
    simp [or_assoc]

theorem texts_recordAll_ne_nil :
    (({} : Diagnostics).recordAll causes).texts c ≠ [] ↔ ∃ cause ∈ causes, cause.category = c := by
  constructor
  · intro some
    obtain ⟨text, mem⟩ := List.exists_mem_of_ne_nil _ some
    obtain old | ⟨cause, mem, category, -⟩ := mem_texts_recordAll.1 mem
    · cases old
    · exact ⟨cause, mem, category⟩
  · rintro ⟨cause, mem, category⟩
    exact List.ne_nil_of_mem (mem_texts_recordAll.2 (.inr ⟨cause, mem, category, rfl⟩))

theorem positioned_record : (d.record ⟨cause, none⟩).positioned = d.positioned := by
  unfold record
  split <;> rfl

/-- Nothing is reported twice. -/
theorem nodup_texts_record (plain : d.positioned = ∅) (once : ∀ c, (d.texts c).Nodup) (c : Category) :
    ((d.record ⟨cause, none⟩).texts c).Nodup := by
  cases new : d.isNew ⟨cause, none⟩ with
  | false =>
    rw [texts_record_of_not_isNew new]
    exact once c
  | true =>
    rw [texts_record_of_isNew new]
    by_cases same : cause.category = c
    · rw [if_pos same, List.nodup_append]
      refine ⟨once c, by simp, ?_⟩
      rintro text known other mem rfl
      obtain ⟨e, listed, category, message⟩ := mem_texts.1 known
      have unplaced : d.toList = d.others.toList := by
        rw [toList, plain]
        rfl
      have old : d.isNew ⟨cause, none⟩ = false :=
        isNew_eq_false.2 ⟨e, unplaced ▸ listed, category.trans same.symm, message.trans (List.mem_singleton.1 mem)⟩
      rw [new] at old
      cases old
    · rw [if_neg same, List.append_nil]
      exact once c

theorem nodup_texts_recordAll (plain : d.positioned = ∅) (once : ∀ c, (d.texts c).Nodup) (causes : List Cause)
    (c : Category) : ((d.recordAll causes).texts c).Nodup := by
  induction causes generalizing d with
  | nil => exact once c
  | cons cause rest ih => exact ih (positioned_record.trans plain) (nodup_texts_record plain once)

theorem recordAll_append (d : Diagnostics) (first second : List Cause) :
    d.recordAll (first ++ second) = (d.recordAll first).recordAll second := List.foldl_append

/-- Without errors there was nothing to record. -/
theorem isEmpty_recordAll : (d.recordAll causes).isEmpty = true ↔ d.isEmpty = true ∧ causes = [] := by
  obtain rfl | ⟨rest, last, rfl⟩ := List.eq_nil_or_concat causes
  · simp [recordAll]
  · rw [List.concat_eq_append, recordAll_append]
    have failed : ((d.recordAll rest).recordAll [last]).isEmpty = false := isEmpty_record _ _
    simp [failed]

end Asm65.Diagnostics

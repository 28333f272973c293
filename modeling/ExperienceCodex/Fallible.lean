import Mathlib

/-!
# Fallible computations

How a successful result of a composed computation splits into successful results of its parts.
-/

namespace ExperienceCodex

section
variable {ε α β : Type}

theorem bind_eq_ok_iff {x : Except ε α} {f : α → Except ε β} {b : β} :
    (x >>= f) = .ok b ↔ ∃ a, x = .ok a ∧ f a = .ok b := by
  cases x with
  | error e =>
    constructor
    · intro h
      cases h
    · rintro ⟨a, ha, _⟩
      cases ha
  | ok a =>
    constructor
    · intro h
      exact ⟨a, rfl, h⟩
    · rintro ⟨a', ha, hf⟩
      cases ha
      exact hf

@[simp] theorem ok_bind (a : α) (f : α → Except ε β) : (Except.ok a >>= f) = f a := rfl

@[simp] theorem error_bind (e : ε) (f : α → Except ε β) :
    (Except.error e >>= f) = .error e := rfl

theorem mapError_eq_ok_iff {ε' : Type} {f : ε → ε'} {r : Except ε α} {value : α} :
    r.mapError f = .ok value ↔ r = .ok value := by
  cases r <;> simp [Except.mapError]

/-- A reader that undoes a writer on every element undoes it on the list. -/
theorem mapM_map_of_leftInverse (read : β → Except ε α) (write : α → β) (values : List α)
    (h : ∀ value ∈ values, read (write value) = .ok value) :
    (values.map write).mapM read = .ok values := by
  induction values with
  | nil => rfl
  | cons value rest ih =>
    have hval := h value (List.mem_cons_self ..)
    have hrest := ih (List.forall_mem_of_forall_mem_cons h)
    rw [List.map_cons, List.mapM_cons, hval, ok_bind, hrest, ok_bind]
    rfl

/-- Each element of a list that was read as a whole was read. -/
theorem exists_of_mapM_ok {read : β → Except ε α} {values : List β} {results : List α}
    (h : values.mapM read = .ok results) :
    ∀ value ∈ values, ∃ result ∈ results, read value = .ok result := by
  induction values generalizing results with
  | nil => exact List.forall_mem_nil _
  | cons value rest ih =>
    rw [List.mapM_cons] at h
    obtain ⟨first, hfst, h⟩ := bind_eq_ok_iff.mp h
    obtain ⟨others, hothers, h⟩ := bind_eq_ok_iff.mp h
    cases h
    intro other hmem
    rcases List.mem_cons.mp hmem with rfl | hrest
    · exact ⟨first, List.mem_cons_self, hfst⟩
    · obtain ⟨result, hres, hread⟩ := ih hothers other hrest
      exact ⟨result, List.mem_cons_of_mem _ hres, hread⟩

/-- A list whose elements can all be read can be read as a whole. -/
theorem exists_mapM_ok {read : β → Except ε α} {values : List β}
    (h : ∀ value ∈ values, ∃ result, read value = .ok result) :
    ∃ results, values.mapM read = .ok results := by
  induction values with
  | nil => exact ⟨[], rfl⟩
  | cons value rest ih =>
    obtain ⟨first, hfst⟩ := h value (List.mem_cons_self ..)
    obtain ⟨others, hothers⟩ := ih (List.forall_mem_of_forall_mem_cons h)
    refine ⟨first :: others, ?_⟩
    rw [List.mapM_cons, hfst, ok_bind, hothers, ok_bind]
    rfl

end

end ExperienceCodex

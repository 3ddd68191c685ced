/-!
# Numbered slots

A finite map from numbers to contents: cursors, trees by their roots, accumulators by their
registers.
-/

namespace QueryMachine

/-- Contents by number. -/
structure Slots (α : Type) where
  entries : List (Int × α)
deriving Repr, Inhabited

namespace Slots

variable {α : Type}

def empty : Slots α := ⟨[]⟩

def get? (s : Slots α) (n : Int) : Option α := s.entries.lookup n

def erase (s : Slots α) (n : Int) : Slots α := ⟨s.entries.filter fun e => e.1 != n⟩

/-- Fills a slot, replacing what it held. -/
def set (s : Slots α) (n : Int) (a : α) : Slots α := ⟨(n, a) :: (s.erase n).entries⟩

@[simp]
theorem get?_empty (n : Int) : (empty : Slots α).get? n = none := rfl

@[simp]
theorem get?_erase_self (s : Slots α) (n : Int) : (s.erase n).get? n = none := by
  simp only [get?, erase]
  induction s.entries with
  | nil => rfl
  | cons e entries ih =>
    obtain ⟨k, b⟩ := e
    by_cases gone : k = n
    · rw [List.filter_cons_of_neg (by simpa using gone)]
      exact ih
    · have other : (n == k) = false := by simpa using Ne.symm gone
      rw [List.filter_cons_of_pos (by simpa using gone), List.lookup_cons, other]
      exact ih

theorem get?_erase_of_ne (s : Slots α) {m n : Int} (h : m ≠ n) : (s.erase n).get? m = s.get? m := by
  simp only [get?, erase]
  induction s.entries with
  | nil => rfl
  | cons e entries ih =>
    obtain ⟨k, b⟩ := e
    by_cases gone : k = n
    · have other : (m == k) = false := by simpa [gone] using h
      rw [List.filter_cons_of_neg (by simpa using gone), List.lookup_cons, other]
      exact ih
    · rw [List.filter_cons_of_pos (by simpa using gone), List.lookup_cons, List.lookup_cons, ih]

@[simp]
theorem get?_set_self (s : Slots α) (n : Int) (a : α) : (s.set n a).get? n = some a := by
  simp [get?, set]

theorem get?_set_of_ne (s : Slots α) (a : α) {m n : Int} (h : m ≠ n) :
    (s.set n a).get? m = s.get? m := by
  have other : (m == n) = false := by simpa using h
  rw [← get?_erase_of_ne s h]
  simp [get?, set, List.lookup_cons, other]

end Slots

end QueryMachine

/- Types with a fixed list of values. The list order is part of the type's
   meaning: a value is written on the wire as its position in that list
   (`index`), and read back from it (`ofIndex?`). `ofIndex?_index` says that
   reading undoes writing, `ofIndex?_eq_some_iff` that a position is read as
   the value that has it and as no other. -/
namespace BlockCode

/-- A type all of whose values are listed once each. -/
class Enumerated (α : Type) where
  values : List α
  complete : ∀ a, a ∈ values
  nodup : values.Nodup

namespace Enumerated
theorem find?_eq_some_iff {α : Type} [Enumerated α] {p : α → Bool}
    (hunique : ∀ a b, p a = true → p b = true → a = b) {a : α} :
    (values : List α).find? p = some a ↔ p a = true := by
  constructor
  · exact List.find?_some
  · intro ha
    cases hfind : (values : List α).find? p with
    | none => exact absurd ha (List.find?_eq_none.mp hfind a (complete a))
    | some b => rw [hunique b a (List.find?_some hfind) ha]

variable {α : Type} [DecidableEq α] [Enumerated α]

def index (a : α) : Nat := (values : List α).idxOf a

def ofIndex? (n : Nat) : Option α := (values : List α)[n]?

theorem index_lt (a : α) : index a < (values : List α).length :=
  List.idxOf_lt_length_of_mem (complete a)

theorem ofIndex?_index (a : α) : ofIndex? (index a) = some a := by
  unfold ofIndex?
  rw [List.getElem?_eq_getElem (index_lt a)]
  exact congrArg some (List.getElem_idxOf (index_lt a))

theorem ofIndex?_eq_some_iff (n : Nat) (a : α) : ofIndex? n = some a ↔ n = index a := by
  constructor
  · intro h
    obtain ⟨hn, rfl⟩ := List.getElem?_eq_some_iff.mp h
    exact (nodup.idxOf_getElem n hn).symm
  · rintro rfl
    exact ofIndex?_index a

end Enumerated

end BlockCode

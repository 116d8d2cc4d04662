/- Tables from names to values, kept in the order of the names. A name occurs at
   most once, so two tables with the same content are the same list.
   `get?_insert` and `get?_erase` say what a look-up finds after a change,
   `ordered_insert` and `ordered_erase` that a change keeps the order, and
   `eq_of_get?` that ordered tables in which every look-up agrees are equal. -/
namespace BlockCode
universe u

/-- Entries in the order of their names. -/
abbrev Table (α : Type u) := List (String × α)

namespace Table
variable {α : Type u}

def get? (table : Table α) (name : String) : Option α := List.lookup name table

/-- Puts a value under a name, in place of what was there. -/
def insert (name : String) (value : α) : Table α → Table α
  | [] => [(name, value)]
  | (other, x) :: rest =>
    if name < other then (name, value) :: (other, x) :: rest
    else if name = other then (name, value) :: rest
    else (other, x) :: insert name value rest

def erase (name : String) (table : Table α) : Table α :=
  table.filter fun entry => entry.1 != name

/-- The names increase, and so none occurs twice. -/
def Ordered (table : Table α) : Prop := table.Pairwise fun a b => a.1 < b.1

/-! Looking up. -/

@[simp] theorem get?_nil (name : String) : get? ([] : Table α) name = none := rfl

theorem get?_cons (key name : String) (value : α) (rest : Table α) :
    get? ((key, value) :: rest) name = if name = key then some value else get? rest name := by
  unfold get?
  rw [List.lookup_cons]
  by_cases h : name = key
  · simp [h]
  · rw [if_neg h, beq_false_of_ne h]

theorem get?_insert (table : Table α) (key name : String) (value : α) :
    (table.insert key value).get? name = if name = key then some value else table.get? name := by
  induction table with
  | nil => exact get?_cons key name value []
  | cons entry rest ih =>
    obtain ⟨other, x⟩ := entry
    rw [insert]
    split
    · rw [get?_cons]
    · split
      · next h =>
        subst h
        rw [get?_cons, get?_cons]
        split <;> rfl
      · next h =>
        rw [get?_cons, get?_cons, ih]
        by_cases hn : name = other
        · subst hn
          rw [if_pos rfl, if_neg (fun e => h e.symm), if_pos rfl]
        · rw [if_neg hn, if_neg hn]

theorem get?_erase (table : Table α) (key name : String) :
    (table.erase key).get? name = if name = key then none else table.get? name := by
  induction table with
  | nil => split <;> rfl
  | cons entry rest ih =>
    obtain ⟨other, x⟩ := entry
    unfold erase at ih ⊢
    by_cases h : other = key
    · subst h
      rw [List.filter_cons_of_neg (by simp), ih, get?_cons]
      split <;> rfl
    · rw [List.filter_cons_of_pos (by simpa using h), get?_cons, get?_cons, ih]
      by_cases hn : name = other
      · subst hn
        rw [if_pos rfl, if_neg h, if_pos rfl]
      · rw [if_neg hn, if_neg hn]

/-! Order. -/

theorem ordered_nil : Ordered ([] : Table α) := List.Pairwise.nil

theorem mem_insert {table : Table α} {key : String} {value : α} {entry : String × α}
    (h : entry ∈ table.insert key value) : entry = (key, value) ∨ entry ∈ table := by
  induction table with
  | nil => exact .inl (by simpa [insert] using h)
  | cons first rest ih =>
    obtain ⟨other, x⟩ := first
    rw [insert] at h
    split at h
    · exact List.mem_cons.mp h
    · split at h
      · rcases List.mem_cons.mp h with h | h
        · exact .inl h
        · exact .inr (List.mem_cons_of_mem _ h)
      · rcases List.mem_cons.mp h with rfl | h
        · exact .inr List.mem_cons_self
        · exact (ih h).imp_right (List.mem_cons_of_mem _)

theorem ordered_insert {table : Table α} (h : table.Ordered) (key : String) (value : α) :
    (table.insert key value).Ordered := by
  induction table with
  | nil => exact List.pairwise_singleton _ _
  | cons first rest ih =>
    obtain ⟨other, x⟩ := first
    obtain ⟨above, tail⟩ := List.pairwise_cons.mp h
    rw [insert]
    split
    · next hlt =>
      refine List.pairwise_cons.mpr ⟨fun entry hm => ?_, h⟩
      rcases List.mem_cons.mp hm with rfl | hm
      · exact hlt
      · exact String.lt_trans hlt (above entry hm)
    · next hge =>
      split
      · next he =>
        subst he
        exact List.pairwise_cons.mpr ⟨above, tail⟩
      · next hne =>
        refine List.pairwise_cons.mpr ⟨fun entry hm => ?_, ih tail⟩
        rcases mem_insert hm with rfl | hm
        · -- neither smaller nor equal, so the new name is larger
          exact Decidable.byContradiction fun hn =>
            hne (String.le_antisymm (String.not_lt.mp hn) (String.not_lt.mp hge))
        · exact above entry hm

theorem ordered_erase {table : Table α} (h : table.Ordered) (key : String) :
    (table.erase key).Ordered :=
  List.Pairwise.filter _ h

theorem get?_eq_none {table : Table α} {name : String} (h : ∀ entry ∈ table, name < entry.1) :
    table.get? name = none := by
  induction table with
  | nil => rfl
  | cons first rest ih =>
    obtain ⟨other, x⟩ := first
    rw [get?_cons, if_neg, ih fun entry hm => h entry (List.mem_cons_of_mem _ hm)]
    rintro rfl
    exact String.lt_irrefl _ (h _ List.mem_cons_self)

/-- The head of an ordered table has the least name that finds anything. -/
theorem head_le {key : String} {value : α} {rest : Table α}
    (h : Ordered ((key, value) :: rest)) {name : String} (found : get? ((key, value) :: rest) name ≠ none) :
    ¬name < key := by
  intro hlt
  refine found (get?_eq_none fun entry hm => ?_)
  rcases List.mem_cons.mp hm with rfl | hm
  · exact hlt
  · exact String.lt_trans hlt ((List.pairwise_cons.mp h).1 entry hm)

theorem eq_of_get? {s t : Table α} (hs : s.Ordered) (ht : t.Ordered)
    (h : ∀ name, s.get? name = t.get? name) : s = t := by
  induction s generalizing t with
  | nil =>
    cases t with
    | nil => rfl
    | cons first rest =>
      have := h first.1
      rw [get?_nil, show first = (first.1, first.2) from rfl, get?_cons, if_pos rfl] at this
      cases this
  | cons first rest ih =>
    obtain ⟨key, x⟩ := first
    cases t with
    | nil =>
      have := h key
      rw [get?_nil, get?_cons, if_pos rfl] at this
      cases this
    | cons first' rest' =>
      obtain ⟨key', x'⟩ := first'
      -- each head is found in the other table, so neither name is the smaller one
      have here : get? ((key, x) :: rest) key = some x := by rw [get?_cons, if_pos rfl]
      have here' : get? ((key', x') :: rest') key' = some x' := by rw [get?_cons, if_pos rfl]
      have le : ¬key < key' := head_le ht (by rw [← h, here]; exact Option.some_ne_none x)
      have le' : ¬key' < key := head_le hs (by rw [h, here']; exact Option.some_ne_none x')
      obtain rfl : key = key' := String.le_antisymm (String.not_lt.mp le') (String.not_lt.mp le)
      obtain rfl : x = x' := Option.some.inj (by rw [← here, h, here'])
      obtain ⟨above, tail⟩ := List.pairwise_cons.mp hs
      obtain ⟨above', tail'⟩ := List.pairwise_cons.mp ht
      rw [ih tail tail' fun name => ?_]
      by_cases hn : name = key
      · subst hn
        rw [get?_eq_none above, get?_eq_none above']
      · have := h name
        rwa [get?_cons, get?_cons, if_neg hn, if_neg hn] at this

end Table

end BlockCode

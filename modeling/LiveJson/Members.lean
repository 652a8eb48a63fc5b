/-! Members in insertion order: a list of named values in which a new name goes to the end and a
known name keeps its place. -/

namespace LiveJson.Members

variable {α : Type}

def get? (name : String) : List (String × α) → Option α
  | [] => none
  | (k, v) :: rest => if k = name then some v else get? name rest

/-- Replaces the value at a known name and appends a new one. -/
def insert (name : String) (value : α) : List (String × α) → List (String × α)
  | [] => [(name, value)]
  | (k, v) :: rest => if k = name then (k, value) :: rest else (k, v) :: insert name value rest

def erase (name : String) : List (String × α) → List (String × α)
  | [] => []
  | (k, v) :: rest => if k = name then rest else (k, v) :: erase name rest

def names (members : List (String × α)) : List String := members.map Prod.fst

theorem get?_insert_self (name : String) (value : α) (members : List (String × α)) :
    get? name (insert name value members) = some value := by
  induction members with
  | nil => simp [insert, get?]
  | cons member rest ih =>
    obtain ⟨k, v⟩ := member
    by_cases h : k = name <;> simp [insert, get?, h, ih]

theorem get?_insert_of_ne {name other : String} (value : α) (members : List (String × α))
    (h : other ≠ name) : get? other (insert name value members) = get? other members := by
  induction members with
  | nil => simp [insert, get?, Ne.symm h]
  | cons member rest ih =>
    obtain ⟨k, v⟩ := member
    by_cases hk : k = name
    · subst hk; simp [insert, get?, Ne.symm h]
    · simp [insert, get?, hk, ih]

/-- Inserting keeps the names in their places, and appends the name if it is new. -/
theorem names_insert (name : String) (value : α) (members : List (String × α)) :
    names (insert name value members) =
      if name ∈ names members then names members else names members ++ [name] := by
  induction members with
  | nil => simp [insert, names]
  | cons member rest ih =>
    obtain ⟨k, v⟩ := member
    simp only [names] at ih
    by_cases h : k = name
    · simp [insert, names, h]
    · by_cases hm : name ∈ rest.map Prod.fst
      · simp [insert, names, h, ih, hm]
      · simp [insert, names, h, ih, hm, Ne.symm h]

end LiveJson.Members

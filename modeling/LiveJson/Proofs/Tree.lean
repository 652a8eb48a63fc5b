import LiveJson.Proofs.Members
import LiveJson.Tree.Document

/-! # Trees and their members

The members of a node are its entries, by whichever key or position they are looked up. -/

namespace LiveJson.Tree

variable {ι : Type}

theorem mem_enumerate {α : Type} {key : Key} {a : α} :
    ∀ (start : Nat) (items : List α),
      (key, a) ∈ enumerate start items ↔ ∃ i, key = .index (start + i) ∧ items[i]? = some a
  | start, [] => by simp [enumerate]
  | start, b :: items => by
    simp only [enumerate, List.mem_cons, Prod.mk.injEq, mem_enumerate (start + 1) items]
    constructor
    · intro h
      rcases h with ⟨rfl, rfl⟩ | ⟨i, rfl, hi⟩
      · exact ⟨0, by simp, by simp⟩
      · exact ⟨i + 1, by rw [Nat.add_right_comm, Nat.add_assoc], by simpa using hi⟩
    · intro h
      obtain ⟨i, rfl, hi⟩ := h
      cases i with
      | zero => left; simpa [eq_comm] using hi
      | succ i => right; exact ⟨i, by rw [Nat.add_right_comm, Nat.add_assoc], by simpa using hi⟩

theorem drop_enumerate {α : Type} (start n : Nat) (items : List α) :
    (enumerate start items).drop n = enumerate (start + n) (items.drop n) := by
  induction items generalizing start n with
  | nil => simp [enumerate]
  | cons a items ih =>
    cases n with
    | zero => rfl
    | succ n => rw [enumerate, List.drop_succ_cons, List.drop_succ_cons, ih]; congr 1; omega

theorem enumerate_map {α β : Type} (f : α → β) (start : Nat) (items : List α) :
    enumerate start (items.map f) = (enumerate start items).map fun e => (e.1, f e.2) := by
  induction items generalizing start with
  | nil => rfl
  | cons a items ih => simp [enumerate, ih]

/-! ## Members -/

theorem mem_entries_array {label : ι} {items : List (Tree ι)} {key : Key} {t : Tree ι} :
    (key, t) ∈ (array label items).entries ↔ ∃ i, key = .index i ∧ items[i]? = some t := by
  simp [entries, mem_enumerate]

theorem mem_entries_object {label : ι} {members : List (String × Tree ι)} {key : Key} {t : Tree ι} :
    (key, t) ∈ (object label members).entries ↔ ∃ n, key = .name n ∧ (n, t) ∈ members := by
  simp only [entries, List.mem_map, Prod.mk.injEq, Prod.exists]
  constructor
  · rintro ⟨n, t, hm, rfl, rfl⟩; exact ⟨n, rfl, hm⟩
  · rintro ⟨n, rfl, hm⟩; exact ⟨n, t, hm, rfl, rfl⟩

theorem mem_entries_of_get? {name : String} {t child : Tree ι} {key : Key}
    (h : t.get? name = some (key, child)) : (key, child) ∈ t.entries := by
  cases t with
  | leaf value => cases h
  | array label items =>
    obtain ⟨i, -, h⟩ := Option.bind_eq_some_iff.mp h
    obtain ⟨c, hc, h⟩ := Option.bind_eq_some_iff.mp h
    cases h
    exact mem_entries_array.mpr ⟨i, rfl, hc⟩
  | object label members =>
    obtain ⟨c, hc, h⟩ := Option.map_eq_some_iff.mp h
    cases h
    exact mem_entries_object.mpr ⟨name, rfl, Members.mem_of_get? hc⟩

theorem mem_entries_of_at? {i : Nat} {t child : Tree ι} (hl : t.length?.isSome)
    (h : t.at? i = some child) : (.index i, child) ∈ t.entries := by
  cases t with
  | leaf value => cases hl
  | array label items => exact mem_entries_array.mpr ⟨i, rfl, h⟩
  | object label members => cases hl

/-! ## Height -/

mutual

/-- How many arrays and objects hold each other on the longest way down. -/
def height : Tree ι → Nat
  | leaf _ => 0
  | array _ items => heightOfItems items + 1
  | object _ members => heightOfMembers members + 1
termination_by structural t => t

def heightOfItems : List (Tree ι) → Nat
  | [] => 0
  | t :: ts => max t.height (heightOfItems ts)
termination_by structural ts => ts

def heightOfMembers : List (String × Tree ι) → Nat
  | [] => 0
  | (_, t) :: rest => max t.height (heightOfMembers rest)
termination_by structural ms => ms

end

theorem height_le_of_mem_items {t : Tree ι} {items : List (Tree ι)} (h : t ∈ items) :
    t.height ≤ heightOfItems items := by
  induction items with
  | nil => exact absurd h List.not_mem_nil
  | cons u us ih =>
    rcases List.mem_cons.mp h with rfl | h
    · exact Nat.le_max_left ..
    · exact Nat.le_trans (ih h) (Nat.le_max_right ..)

theorem height_le_of_mem_members {name : String} {t : Tree ι} {members : List (String × Tree ι)}
    (h : (name, t) ∈ members) : t.height ≤ heightOfMembers members := by
  induction members with
  | nil => exact absurd h List.not_mem_nil
  | cons m ms ih =>
    rcases List.mem_cons.mp h with rfl | h
    · exact Nat.le_max_left ..
    · exact Nat.le_trans (ih h) (Nat.le_max_right ..)

theorem height_lt_of_mem_entries {key : Key} {child t : Tree ι} (h : (key, child) ∈ t.entries) :
    child.height < t.height := by
  cases t with
  | leaf value => exact absurd h List.not_mem_nil
  | array label items =>
    obtain ⟨i, -, hi⟩ := mem_entries_array.mp h
    exact Nat.lt_succ_of_le (height_le_of_mem_items (List.mem_of_getElem? hi))
  | object label members =>
    obtain ⟨name, -, hm⟩ := mem_entries_object.mp h
    exact Nat.lt_succ_of_le (height_le_of_mem_members hm)

/-! ## Values -/

theorem itemsToJson_eq_map (ts : List (Tree ι)) : itemsToJson ts = ts.map toJson := by
  induction ts with
  | nil => rfl
  | cons t ts ih => simp [itemsToJson, ih]

theorem membersToJson_eq_map (ms : List (String × Tree ι)) :
    membersToJson ms = ms.map fun m => (m.1, m.2.toJson) := by
  induction ms with
  | nil => rfl
  | cons m ms ih => simp [membersToJson, ih]

/-! ## Plain documents -/

theorem map_snd_enumerate {α : Type} (start : Nat) (items : List α) :
    (enumerate start items).map Prod.snd = items := by
  induction items generalizing start with
  | nil => rfl
  | cons a items ih => rw [enumerate, List.map_cons, ih]

theorem ofItems_eq_map (document : Nat) (path : Path) (start : Nat) (vs : List Json) :
    ofItems document path start vs =
      (enumerate start vs).map fun e => ofJson document (path ++ [e.1]) e.2 := by
  induction vs generalizing start with
  | nil => rfl
  | cons v vs ih => rw [ofItems, ih, enumerate, List.map_cons]

theorem ofMembers_eq_map (document : Nat) (path : Path) (ms : List (String × Json)) :
    ofMembers document path ms =
      ms.map fun m => (m.1, ofJson document (path ++ [.name m.1]) m.2) := by
  induction ms with
  | nil => rfl
  | cons m ms ih => rw [ofMembers, ih, List.map_cons]

theorem ofJson_of_scalar {v : Json} (h : v.isComposite = false) (document : Nat) (path : Path) :
    ofJson document path v = .leaf v := by
  cases v with
  | array items => cases h
  | object members => cases h
  | _ => rfl

end LiveJson.Tree

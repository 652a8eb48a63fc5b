import LiveJson.Proofs.Tree
import LiveJson.Store.Basic

/-! # What a cell holds at a key

The entries of a cell carry its keys in one form: positions in an array, names in an object. A
content is well-formed if it has no name twice and no composite value in a scalar slot; then its
entries are a finite map, which writing and erasing at a key update. -/

namespace LiveJson

def Slot.WellFormed : Slot → Prop
  | .scalar v => v.isComposite = false
  | .cell _ => True

namespace Content

def WellFormed : Content → Prop
  | array items => ∀ slot ∈ items, slot.WellFormed
  | object members => (Members.names members).Nodup ∧ ∀ m ∈ members, m.2.WellFormed

/-- Whether a key has the form of the keys of the content. -/
def Fits : Content → Key → Prop
  | array _, .index _ => True
  | object _, .name _ => True
  | _, _ => False

variable {c : Content} {k key : Key} {s slot : Slot}

theorem mem_entries_array {items : List Slot} :
    (k, s) ∈ (array items).entries ↔ ∃ i, k = .index i ∧ items[i]? = some s := by
  simp [entries, Tree.mem_enumerate]

theorem mem_entries_object {members : List (String × Slot)} :
    (k, s) ∈ (object members).entries ↔ ∃ n, k = .name n ∧ (n, s) ∈ members := by
  simp only [entries, List.mem_map, Prod.mk.injEq, Prod.exists]
  constructor
  · rintro ⟨n, t, hm, rfl, rfl⟩; exact ⟨n, rfl, hm⟩
  · rintro ⟨n, rfl, hm⟩; exact ⟨n, s, hm, rfl, rfl⟩

theorem fits_of_mem_entries (h : (k, s) ∈ c.entries) : c.Fits k := by
  cases c with
  | array items => obtain ⟨i, rfl, -⟩ := mem_entries_array.mp h; trivial
  | object members => obtain ⟨n, rfl, -⟩ := mem_entries_object.mp h; trivial

theorem WellFormed.of_mem (hc : c.WellFormed) (h : (k, s) ∈ c.entries) : s.WellFormed := by
  cases c with
  | array items =>
    obtain ⟨i, -, hi⟩ := mem_entries_array.mp h
    exact hc s (List.mem_of_getElem? hi)
  | object members =>
    obtain ⟨n, -, hm⟩ := mem_entries_object.mp h
    exact hc.2 _ hm

theorem get?_eq_some_iff (hc : c.WellFormed) (hk : c.Fits k) :
    c.get? k = some s ↔ (k, s) ∈ c.entries := by
  cases c with
  | array items =>
    cases k with
    | index i => simp [get?, mem_entries_array]
    | name n => exact hk.elim
  | object members =>
    cases k with
    | index i => exact hk.elim
    | name n =>
      rw [mem_entries_object, get?, Key.toName_name, Members.get?_eq_some_iff hc.1]
      simp

/-- Entries at one key hold one slot. -/
theorem WellFormed.entry_unique (hc : c.WellFormed) {t : Slot} (hs : (k, s) ∈ c.entries)
    (ht : (k, t) ∈ c.entries) : s = t := by
  have hk := fits_of_mem_entries hs
  have hs := (get?_eq_some_iff hc hk).mpr hs
  rw [(get?_eq_some_iff hc hk).mpr ht] at hs
  exact (Option.some.inj hs).symm

theorem WellFormed.insert (hc : c.WellFormed) (hs : slot.WellFormed) :
    (c.insert key slot).WellFormed := by
  cases c with
  | array items =>
    have happ : (array (items ++ [slot])).WellFormed := by
      intro t ht
      rcases List.mem_append.mp ht with h | h
      · exact hc t h
      · rw [List.mem_singleton.mp h]; exact hs
    simp only [Content.insert]
    split
    · split
      · intro t ht
        rcases List.mem_or_eq_of_mem_set ht with h | rfl
        · exact hc t h
        · exact hs
      · exact happ
    · exact happ
  | object members =>
    refine ⟨Members.nodup_insert _ _ hc.1, ?_⟩
    intro entry hm
    obtain ⟨n, t⟩ := entry
    rcases (Members.mem_insert_iff hc.1).mp hm with ⟨-, rfl⟩ | ⟨-, h⟩
    · exact hs
    · exact hc.2 _ h

theorem WellFormed.erase (hc : c.WellFormed) : (c.erase key).WellFormed := by
  cases c with
  | array items =>
    simp only [Content.erase]
    split
    · exact fun t ht => hc t (List.mem_of_mem_eraseIdx ht)
    · exact hc
  | object members =>
    refine ⟨Members.nodup_erase _ hc.1, ?_⟩
    intro entry hm
    obtain ⟨n, t⟩ := entry
    exact hc.2 _ ((Members.mem_erase_iff hc.1).mp hm).2

/-- Writing at a key in range changes the entry at that key and no other. -/
theorem mem_entries_insert (hc : c.WellFormed) (hk : c.Fits key)
    (hi : ∀ i, key = .index i → i ≤ c.length) :
    (k, s) ∈ (c.insert key slot).entries ↔
      (k = key ∧ s = slot) ∨ (k ≠ key ∧ (k, s) ∈ c.entries) := by
  cases c with
  | array items =>
    cases key with
    | name n => exact hk.elim
    | index i =>
      have hi : i ≤ items.length := hi i rfl
      simp only [insert, Key.asIndex_index]
      split
      · next hlt =>
        simp only [mem_entries_array, List.getElem?_set]
        constructor
        · intro h
          obtain ⟨j, rfl, h⟩ := h
          split at h
          · next hj =>
            exact Or.inl ⟨congrArg Key.index hj.symm, (Option.some.inj h).symm⟩
          · next hj => exact Or.inr ⟨fun he => hj (Key.index.inj he).symm, j, rfl, h⟩
        · intro h
          rcases h with ⟨rfl, rfl⟩ | ⟨hne, j, rfl, h⟩
          · exact ⟨i, rfl, by rw [if_pos rfl, if_pos hlt]⟩
          · refine ⟨j, rfl, ?_⟩
            rw [if_neg fun he => hne (congrArg Key.index he.symm)]
            exact h
      · have hil : i = items.length := by omega
        subst hil
        simp only [mem_entries_array, List.getElem?_append]
        constructor
        · intro h
          obtain ⟨j, rfl, h⟩ := h
          by_cases hj : j < items.length
          · rw [if_pos hj] at h
            exact Or.inr ⟨fun he => Nat.ne_of_lt hj (Key.index.inj he), j, rfl, h⟩
          · rw [if_neg hj, List.getElem?_singleton] at h
            split at h
            · have hj : j = items.length := by omega
              exact Or.inl ⟨congrArg Key.index hj, (Option.some.inj h).symm⟩
            · cases h
        · intro h
          rcases h with ⟨rfl, rfl⟩ | ⟨-, j, rfl, h⟩
          · exact ⟨items.length, rfl, by rw [if_neg (Nat.lt_irrefl _), Nat.sub_self]; rfl⟩
          · have hj : j < items.length := (List.getElem?_eq_some_iff.mp h).1
            exact ⟨j, rfl, by rw [if_pos hj]; exact h⟩
  | object members =>
    cases key with
    | index i => exact hk.elim
    | name n =>
      simp only [insert, Key.toName_name, mem_entries_object, Members.mem_insert_iff hc.1]
      constructor
      · intro h
        obtain ⟨m, rfl, ⟨rfl, rfl⟩ | ⟨hne, h⟩⟩ := h
        · exact Or.inl ⟨rfl, rfl⟩
        · exact Or.inr ⟨fun he => hne (Key.name.inj he), m, rfl, h⟩
      · intro h
        rcases h with ⟨rfl, rfl⟩ | ⟨hne, m, rfl, h⟩
        · exact ⟨n, rfl, Or.inl ⟨rfl, rfl⟩⟩
        · exact ⟨m, rfl, Or.inr ⟨fun he => hne (by rw [he]), h⟩⟩

theorem mem_entries_erase_name {n : String} (hc : c.WellFormed) (hk : c.Fits (.name n)) :
    (k, s) ∈ (c.erase (.name n)).entries ↔ k ≠ .name n ∧ (k, s) ∈ c.entries := by
  cases c with
  | array items => exact hk.elim
  | object members =>
    simp only [erase, Key.toName_name, mem_entries_object, Members.mem_erase_iff hc.1]
    constructor
    · intro h
      obtain ⟨m, rfl, hne, h⟩ := h
      exact ⟨fun he => hne (Key.name.inj he), m, rfl, h⟩
    · intro h
      obtain ⟨hne, m, rfl, h⟩ := h
      exact ⟨m, rfl, fun he => hne (by rw [he]), h⟩

/-- Erasing an element moves the later ones up. -/
theorem mem_entries_erase_index {i : Nat} (hk : c.Fits (.index i)) :
    (k, s) ∈ (c.erase (.index i)).entries ↔
      ∃ j, k = .index j ∧ (.index (if j < i then j else j + 1), s) ∈ c.entries := by
  cases c with
  | object members => exact hk.elim
  | array items =>
    simp only [erase, Key.asIndex_index, mem_entries_array, List.getElem?_eraseIdx]
    constructor
    · intro h
      obtain ⟨j, rfl, h⟩ := h
      refine ⟨j, rfl, _, rfl, ?_⟩
      by_cases hj : j < i
      · rw [if_pos hj] at h ⊢
        exact h
      · rw [if_neg hj] at h ⊢
        exact h
    · intro h
      obtain ⟨j, rfl, j', he, h⟩ := h
      obtain rfl := Key.index.inj he
      refine ⟨j, rfl, ?_⟩
      by_cases hj : j < i
      · rw [if_pos hj] at h ⊢
        exact h
      · rw [if_neg hj] at h ⊢
        exact h

/-- The entries that erasing a key brings to another key: the later elements of an array. -/
def shifted (c : Content) (key : Key) : List (Key × Slot) :=
  match key with
  | .index i => (c.erase key).entries.drop i
  | .name _ => []

/-- Whether erasing `key` leaves what is at `k` where it is. -/
def Stays : Key → Key → Prop
  | .index i, k => ∃ j < i, k = .index j
  | .name n, k => k ≠ .name n

theorem mem_shifted_index {i : Nat} (hk : c.Fits (.index i)) :
    (k, s) ∈ c.shifted (.index i) ↔
      ∃ j, i ≤ j ∧ k = .index j ∧ (.index (j + 1), s) ∈ c.entries := by
  cases c with
  | object members => exact hk.elim
  | array items =>
    have hget : ∀ m, ((items.eraseIdx i).drop i)[m]? = items[i + m + 1]? := fun m => by
      rw [List.getElem?_drop, List.getElem?_eraseIdx, if_neg (by omega)]
    simp only [shifted, erase, Key.asIndex_index, mem_entries_array]
    simp only [entries, Tree.drop_enumerate, Tree.mem_enumerate, hget, Nat.zero_add]
    constructor
    · intro h
      obtain ⟨m, rfl, h⟩ := h
      exact ⟨i + m, Nat.le_add_right i m, rfl, _, rfl, h⟩
    · intro h
      obtain ⟨j, hj, rfl, _, he, h⟩ := h
      obtain ⟨m, rfl⟩ := Nat.exists_eq_add_of_le hj
      exact ⟨m, rfl, Key.index.inj he ▸ h⟩

theorem mem_erase_of_mem_shifted (h : (k, s) ∈ c.shifted key) : (k, s) ∈ (c.erase key).entries := by
  cases key with
  | index i => exact List.mem_of_mem_drop h
  | name n => cases h

/-- What is left after erasing a key has stayed or has moved up. -/
theorem mem_erase_iff (hc : c.WellFormed) (hk : c.Fits key) :
    (k, s) ∈ (c.erase key).entries ↔
      (k, s) ∈ c.shifted key ∨ (Stays key k ∧ (k, s) ∈ c.entries) := by
  cases key with
  | name n => rw [mem_entries_erase_name hc hk]; simp [shifted, Stays]
  | index i =>
    rw [mem_entries_erase_index hk, mem_shifted_index hk]
    constructor
    · intro h
      obtain ⟨j, rfl, h⟩ := h
      split at h
      · next hj => exact Or.inr ⟨⟨j, hj, rfl⟩, h⟩
      · next hj => exact Or.inl ⟨j, Nat.le_of_not_lt hj, rfl, h⟩
    · intro h
      rcases h with ⟨j, hj, rfl, h⟩ | ⟨⟨j, hj, rfl⟩, h⟩
      · exact ⟨j, rfl, by rwa [if_neg (Nat.not_lt.mpr hj)]⟩
      · exact ⟨j, rfl, by rwa [if_pos hj]⟩

/-- Each entry is at the erased key, or stays, or is one of those that moved up. -/
theorem stays_or_shifted (hk : c.Fits key) (h : (k, s) ∈ c.entries) :
    k = key ∨ Stays key k ∨ ∃ j, (j, s) ∈ c.shifted key := by
  cases key with
  | name n =>
    by_cases hn : k = .name n
    · exact Or.inl hn
    · exact Or.inr (Or.inl hn)
  | index i =>
    have hf := fits_of_mem_entries h
    cases c with
    | object members => exact hk.elim
    | array items =>
      cases k with
      | name n => exact hf.elim
      | index j =>
        rcases Nat.lt_trichotomy j i with hj | rfl | hj
        · exact Or.inr (Or.inl ⟨j, hj, rfl⟩)
        · exact Or.inl rfl
        · obtain ⟨m, rfl⟩ : ∃ m, j = m + 1 := ⟨j - 1, by omega⟩
          exact Or.inr (Or.inr ⟨_, (mem_shifted_index hk).mpr ⟨m, by omega, rfl, h⟩⟩)

/-- Where an entry was before it moved up. -/
theorem exists_of_mem_shifted (hk : c.Fits key) (h : (k, s) ∈ c.shifted key) :
    ∃ j, j ≠ key ∧ ¬ Stays key j ∧ (j, s) ∈ c.entries := by
  cases key with
  | name n => cases h
  | index i =>
    obtain ⟨j, hj, rfl, hm⟩ := (mem_shifted_index hk).mp h
    refine ⟨_, fun he => ?_, fun ⟨m, hm, he⟩ => ?_, hm⟩
    · have := Key.index.inj he; omega
    · have := Key.index.inj he; omega

theorem not_stays_self : ¬ Stays key key := by
  cases key with
  | name n => exact fun h => h rfl
  | index i => exact fun ⟨j, hj, he⟩ => Nat.lt_irrefl i (Key.index.inj he ▸ hj)

end Content

end LiveJson

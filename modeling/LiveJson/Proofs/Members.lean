import LiveJson.Members

/-! # Members with distinct names

As long as no name occurs twice, looking up, replacing and erasing a name are membership, update
and removal of a finite map, and they commute with any change of the values. -/

namespace LiveJson.Members

variable {α β : Type}

theorem names_cons (name : String) (value : α) (rest : List (String × α)) :
    names ((name, value) :: rest) = name :: names rest := rfl

theorem mem_names_of_mem {name : String} {value : α} {members : List (String × α)}
    (h : (name, value) ∈ members) : name ∈ names members :=
  List.mem_map.mpr ⟨_, h, rfl⟩

theorem mem_of_get? {name : String} {value : α} :
    ∀ {members : List (String × α)}, get? name members = some value → (name, value) ∈ members
  | (k, v) :: rest, h => by
    by_cases hk : k = name
    · simp only [get?, hk, if_true, Option.some.injEq] at h
      simp [hk, h]
    · simp only [get?, hk, if_false] at h
      exact List.mem_cons_of_mem _ (mem_of_get? h)

theorem get?_of_mem {name : String} {value : α} :
    ∀ {members : List (String × α)}, (names members).Nodup → (name, value) ∈ members →
      get? name members = some value
  | (k, v) :: rest, hn, h => by
    obtain ⟨hk, hr⟩ := List.nodup_cons.mp hn
    rcases List.mem_cons.mp h with he | hm
    · cases he; simp [get?]
    · have hne : k ≠ name := fun he => hk (he ▸ mem_names_of_mem hm)
      simp only [get?, hne, if_false]
      exact get?_of_mem hr hm

theorem get?_eq_some_iff {name : String} {value : α} {members : List (String × α)}
    (hn : (names members).Nodup) :
    get? name members = some value ↔ (name, value) ∈ members :=
  ⟨mem_of_get?, get?_of_mem hn⟩

theorem get?_map (f : α → β) (name : String) (members : List (String × α)) :
    get? name (members.map fun m => (m.1, f m.2)) = (get? name members).map f := by
  induction members with
  | nil => rfl
  | cons member rest ih =>
    obtain ⟨k, v⟩ := member
    by_cases hk : k = name
    · simp [get?, hk]
    · simpa [get?, hk] using ih

theorem names_map (f : α → β) (members : List (String × α)) :
    names (members.map fun m => (m.1, f m.2)) = names members := by
  simp [names, Function.comp_def]

theorem nodup_insert (name : String) (value : α) {members : List (String × α)}
    (hn : (names members).Nodup) : (names (insert name value members)).Nodup := by
  rw [names_insert]
  split
  · exact hn
  · next hm =>
    refine List.nodup_append.mpr ⟨hn, by simp, ?_⟩
    intro a ha b hb he
    rw [List.mem_singleton] at hb
    exact hm (hb ▸ he ▸ ha)

theorem mem_of_mem_insert {name n : String} {value v : α} :
    ∀ {members : List (String × α)}, (n, v) ∈ insert name value members →
      (n, v) ∈ members ∨ v = value
  | [], h => by
    rw [insert, List.mem_singleton] at h
    exact Or.inr (Prod.mk.inj h).2
  | (k, w) :: rest, h => by
    by_cases he : k = name
    · simp only [insert, he, if_true] at h
      rcases List.mem_cons.mp h with h | h
      · exact Or.inr (Prod.mk.inj h).2
      · exact Or.inl (List.mem_cons_of_mem _ h)
    · simp only [insert, he, if_false] at h
      rcases List.mem_cons.mp h with h | h
      · exact Or.inl (h ▸ List.mem_cons_self)
      · exact (mem_of_mem_insert h).imp_left (List.mem_cons_of_mem _)

theorem mem_insert_iff {name n : String} {value v : α} :
    ∀ {members : List (String × α)}, (names members).Nodup →
      ((n, v) ∈ insert name value members ↔
        (n = name ∧ v = value) ∨ (n ≠ name ∧ (n, v) ∈ members))
  | [], _ => by simp [insert]
  | (k, w) :: rest, hn => by
    obtain ⟨hk, hr⟩ := List.nodup_cons.mp hn
    by_cases he : k = name
    · subst he
      have hout : (n, v) ∈ rest → n ≠ k := fun hm he => hk (he ▸ mem_names_of_mem hm)
      simp only [insert, if_true, List.mem_cons, Prod.mk.injEq]
      constructor
      · intro h
        rcases h with h | h
        · exact Or.inl h
        · exact Or.inr ⟨hout h, Or.inr h⟩
      · intro h
        rcases h with h | ⟨hne, h | h⟩
        · exact Or.inl h
        · exact absurd h.1 hne
        · exact Or.inr h
    · simp only [insert, he, if_false, List.mem_cons, Prod.mk.injEq, mem_insert_iff hr]
      constructor
      · intro h
        rcases h with ⟨rfl, rfl⟩ | h | ⟨hne, h⟩
        · exact Or.inr ⟨he, Or.inl ⟨rfl, rfl⟩⟩
        · exact Or.inl h
        · exact Or.inr ⟨hne, Or.inr h⟩
      · intro h
        rcases h with h | ⟨hne, h | h⟩
        · exact Or.inr (Or.inl h)
        · exact Or.inl h
        · exact Or.inr (Or.inr ⟨hne, h⟩)

theorem map_insert (f : α → β) (name : String) (value : α) (members : List (String × α)) :
    (insert name value members).map (fun m => (m.1, f m.2)) =
      insert name (f value) (members.map fun m => (m.1, f m.2)) := by
  induction members with
  | nil => rfl
  | cons member rest ih =>
    obtain ⟨k, v⟩ := member
    by_cases hk : k = name
    · simp [insert, hk]
    · simpa [insert, hk] using ih

/-- Changing the value at one name is replacing it. -/
theorem map_eq_insert {f g : α → β} {name : String} {value : α} {members : List (String × α)}
    (hn : (names members).Nodup) (hm : (name, value) ∈ members)
    (h : ∀ n v, (n, v) ∈ members → n ≠ name → g v = f v) :
    members.map (fun m => (m.1, g m.2)) =
      insert name (g value) (members.map fun m => (m.1, f m.2)) := by
  induction members with
  | nil => cases hm
  | cons member rest ih =>
    obtain ⟨k, v⟩ := member
    obtain ⟨hk, hr⟩ := List.nodup_cons.mp hn
    simp only [List.map_cons, insert]
    split
    · next he =>
      have hv : v = value := by
        rcases List.mem_cons.mp hm with heq | hm
        · exact (Prod.mk.inj heq).2.symm
        · exact absurd (he ▸ mem_names_of_mem hm) hk
      rw [hv]
      congr 1
      apply List.map_congr_left
      intro m hm
      rw [h m.1 m.2 (List.mem_cons_of_mem _ hm) fun hmn => hk (he ▸ hmn ▸ mem_names_of_mem hm)]
    · next hne =>
      have hm : (name, value) ∈ rest := by
        rcases List.mem_cons.mp hm with heq | hm
        · exact absurd (Prod.mk.inj heq).1.symm hne
        · exact hm
      rw [h k v List.mem_cons_self hne, ih hr hm fun n v hv => h n v (List.mem_cons_of_mem _ hv)]

theorem erase_of_get?_none {name : String} :
    ∀ {members : List (String × α)}, get? name members = none → erase name members = members
  | [], _ => rfl
  | (k, v) :: rest, h => by
    by_cases hk : k = name
    · simp [get?, hk] at h
    · simp only [get?, hk, if_false] at h
      simp only [erase, hk, if_false, erase_of_get?_none h]

theorem erase_sublist (name : String) (members : List (String × α)) :
    (erase name members).Sublist members := by
  induction members with
  | nil => exact List.Sublist.refl _
  | cons member rest ih =>
    obtain ⟨k, v⟩ := member
    by_cases hk : k = name
    · simp only [erase, hk, if_true]
      exact List.sublist_cons_self _ _
    · simp only [erase, hk, if_false]
      exact ih.cons_cons _

theorem names_erase_subset (name : String) (members : List (String × α)) :
    (names (erase name members)).Sublist (names members) :=
  (erase_sublist name members).map _

theorem nodup_erase (name : String) {members : List (String × α)} (hn : (names members).Nodup) :
    (names (erase name members)).Nodup :=
  hn.sublist (names_erase_subset name members)

theorem mem_erase_iff {name n : String} {v : α} :
    ∀ {members : List (String × α)}, (names members).Nodup →
      ((n, v) ∈ erase name members ↔ n ≠ name ∧ (n, v) ∈ members)
  | [], _ => by simp [erase]
  | (k, w) :: rest, hn => by
    obtain ⟨hk, hr⟩ := List.nodup_cons.mp hn
    by_cases he : k = name
    · subst he
      have hout : (n, v) ∈ rest → n ≠ k := fun hm he => hk (he ▸ mem_names_of_mem hm)
      simp only [erase, if_true, List.mem_cons, Prod.mk.injEq]
      exact ⟨fun h => ⟨hout h, Or.inr h⟩, fun ⟨hne, h⟩ => h.resolve_left fun h => hne h.1⟩
    · simp only [erase, he, if_false, List.mem_cons, Prod.mk.injEq, mem_erase_iff hr]
      constructor
      · intro h
        rcases h with ⟨rfl, rfl⟩ | ⟨hne, h⟩
        · exact ⟨he, Or.inl ⟨rfl, rfl⟩⟩
        · exact ⟨hne, Or.inr h⟩
      · intro h
        obtain ⟨hne, h | h⟩ := h
        · exact Or.inl h
        · exact Or.inr ⟨hne, h⟩

theorem get?_erase_self (name : String) {members : List (String × α)}
    (hn : (names members).Nodup) : get? name (erase name members) = none := by
  cases h : get? name (erase name members) with
  | none => rfl
  | some v => exact absurd rfl ((mem_erase_iff hn).mp (mem_of_get? h)).1

theorem get?_erase_of_ne {name other : String} (members : List (String × α)) (h : other ≠ name) :
    get? other (erase name members) = get? other members := by
  induction members with
  | nil => rfl
  | cons member rest ih =>
    obtain ⟨k, v⟩ := member
    by_cases hk : k = name
    · subst hk
      simp [erase, get?, Ne.symm h]
    · simp [erase, get?, hk, ih]

theorem map_erase (f : α → β) (name : String) (members : List (String × α)) :
    (erase name members).map (fun m => (m.1, f m.2)) =
      erase name (members.map fun m => (m.1, f m.2)) := by
  induction members with
  | nil => rfl
  | cons member rest ih =>
    obtain ⟨k, v⟩ := member
    by_cases hk : k = name
    · simp [erase, hk]
    · simpa [erase, hk] using ih

end LiveJson.Members

import LiveJson.Proofs.Store.Unfold

/-! # New cells for a value

Wrapping a value leaves the cells that are there alone. The cells it adds hold only cells added
before them, each sits one key behind the cell that holds it, and read back they are the value. -/

namespace LiveJson.Store

variable {s t u : Store} {L L₁ L₂ : List (Path × Slot)} {place : Path} {c : Content}
  {d e : CellId} {k : Key} {slot : Slot}

/-- `t` is `s` with further cells. -/
structure Grown (s t : Store) : Prop where
  rest : t = { s with cells := t.cells }
  size_le : s.cells.size ≤ t.cells.size
  content? : ∀ {d}, d < s.cells.size → t.content? d = s.content? d
  place? : ∀ {d}, d < s.cells.size → t.place? d = s.place? d

theorem Grown.refl (s : Store) : Grown s s := ⟨rfl, Nat.le_refl _, fun _ => rfl, fun _ => rfl⟩

theorem Grown.trans (h : Grown s t) (h' : Grown t u) : Grown s u where
  rest := by rw [h'.rest, h.rest]
  size_le := Nat.le_trans h.size_le h'.size_le
  content? hd := (h'.content? (Nat.lt_of_lt_of_le hd h.size_le)).trans (h.content? hd)
  place? hd := (h'.place? (Nat.lt_of_lt_of_le hd h.size_le)).trans (h.place? hd)

theorem Grown.holds (h : Grown s t) (he : e < s.cells.size) : t.Holds e k d ↔ s.Holds e k d :=
  holds_congr (h.content? he)

theorem Grown.parent (h : Grown s t) (he : e < s.cells.size) : t.Parent e d ↔ s.Parent e d :=
  exists_congr fun _ => h.holds he

theorem Grown.place?_of_some {p : Path} (h : Grown s t) (hd : s.place? d = some p) :
    t.place? d = some p := (h.place? (lt_size_of_place? hd)).trans hd

/-! ## Installing a cell -/

theorem size_install : (s.install c place).2.cells.size = s.cells.size + 1 := by simp [install]

theorem content?_install_self : (s.install c place).2.content? s.cells.size = some c := by
  simp [install, content?]

theorem place?_install_self : (s.install c place).2.place? s.cells.size = some place := by
  simp [install, Store.place?]

theorem grown_install (s : Store) (c : Content) (place : Path) : Grown s (s.install c place).2 where
  rest := rfl
  size_le := by rw [size_install]; exact Nat.le_succ _
  content? hd := by simp [install, content?, Array.getElem?_push, Nat.ne_of_lt hd]
  place? hd := by simp [install, Store.place?, Array.getElem?_push, Nat.ne_of_lt hd]

/-! ## New cells -/

/-- `t` is `s` with new cells for the listed slots, each to be held at the location listed with
it. -/
structure Wrapped (s t : Store) (L : List (Path × Slot)) : Prop where
  grown : Grown s t
  slot : ∀ {p slot}, (p, slot) ∈ L →
    slot.WellFormed ∧ ∀ d, slot = .cell d → s.cells.size ≤ d ∧ t.place? d = some p
  wellFormed : ∀ {e c}, s.cells.size ≤ e → t.content? e = some c → c.WellFormed
  fresh : ∀ {e d}, s.cells.size ≤ e → t.Parent e d → s.cells.size ≤ d ∧ d < e
  exact : ∀ {e q k d}, s.cells.size ≤ e → t.place? e = some q → t.Holds e k d →
    t.place? d = some (q ++ [k])
  held : ∀ {d}, s.cells.size ≤ d → d < t.cells.size → (∃ p, (p, .cell d) ∈ L) ∨
    ∃ e k q, s.cells.size ≤ e ∧ t.Holds e k d ∧ t.place? e = some q ∧ t.place? d = some (q ++ [k])

theorem Wrapped.none (s : Store) : Wrapped s s [] where
  grown := .refl s
  slot h := by cases h
  wellFormed he hc := absurd (lt_size_of_content? hc) (Nat.not_lt.mpr he)
  fresh he hp := absurd hp.lt_size (Nat.not_lt.mpr he)
  exact he hq := absurd (lt_size_of_place? hq) (Nat.not_lt.mpr he)
  held he hd := absurd hd (Nat.not_lt.mpr he)

theorem Wrapped.scalar (s : Store) (place : Path) {v : Json} (hv : v.isComposite = false) :
    Wrapped s s [(place, .scalar v)] where
  grown := .refl s
  slot h := by
    simp only [List.mem_singleton, Prod.mk.injEq] at h
    rw [h.2]
    exact ⟨hv, fun d hd => by cases hd⟩
  wellFormed := (Wrapped.none s).wellFormed
  fresh := (Wrapped.none s).fresh
  exact := (Wrapped.none s).exact
  held he hd := absurd hd (Nat.not_lt.mpr he)

theorem Wrapped.append (h₁ : Wrapped s t L₁) (h₂ : Wrapped t u L₂) : Wrapped s u (L₁ ++ L₂) where
  grown := h₁.grown.trans h₂.grown
  slot h := by
    rcases List.mem_append.mp h with h | h
    · refine ⟨(h₁.slot h).1, fun d hd => ?_⟩
      obtain ⟨hs, hp⟩ := (h₁.slot h).2 d hd
      exact ⟨hs, h₂.grown.place?_of_some hp⟩
    · refine ⟨(h₂.slot h).1, fun d hd => ?_⟩
      obtain ⟨hs, hp⟩ := (h₂.slot h).2 d hd
      exact ⟨Nat.le_trans h₁.grown.size_le hs, hp⟩
  wellFormed {e c} he hc := by
    by_cases h : e < t.cells.size
    · exact h₁.wellFormed he (h₂.grown.content? h ▸ hc)
    · exact h₂.wellFormed (Nat.le_of_not_lt h) hc
  fresh {e d} he hp := by
    by_cases h : e < t.cells.size
    · exact h₁.fresh he ((h₂.grown.parent h).mp hp)
    · obtain ⟨hd, hlt⟩ := h₂.fresh (Nat.le_of_not_lt h) hp
      exact ⟨Nat.le_trans h₁.grown.size_le hd, hlt⟩
  exact {e q k d} he hq hk := by
    by_cases h : e < t.cells.size
    · rw [h₂.grown.place? h] at hq
      exact h₂.grown.place?_of_some (h₁.exact he hq ((h₂.grown.holds h).mp hk))
    · exact h₂.exact (Nat.le_of_not_lt h) hq hk
  held {d} hs hd := by
    by_cases h : d < t.cells.size
    · rcases h₁.held hs h with ⟨p, hp⟩ | ⟨e, k, q, he, hk, hq, hp⟩
      · exact Or.inl ⟨p, List.mem_append_left _ hp⟩
      · exact Or.inr ⟨e, k, q, he, (h₂.grown.holds hk.lt_size).mpr hk,
          h₂.grown.place?_of_some hq, h₂.grown.place?_of_some hp⟩
    · rcases h₂.held (Nat.le_of_not_lt h) hd with ⟨p, hp⟩ | ⟨e, k, q, he, hk⟩
      · exact Or.inl ⟨p, List.mem_append_right _ hp⟩
      · exact Or.inr ⟨e, k, q, Nat.le_trans h₁.grown.size_le he, hk⟩

/-- The slots of a content with the locations of its keys. -/
def slotsAt (place : Path) (c : Content) : List (Path × Slot) :=
  c.entries.map fun e => (place ++ [e.1], e.2)

theorem mem_slotsAt {p : Path} :
    (p, slot) ∈ slotsAt place c ↔ ∃ k, p = place ++ [k] ∧ (k, slot) ∈ c.entries := by
  simp only [slotsAt, List.mem_map, Prod.mk.injEq, Prod.exists]
  constructor
  · rintro ⟨k, slot, hm, rfl, rfl⟩; exact ⟨k, rfl, hm⟩
  · rintro ⟨k, rfl, hm⟩; exact ⟨k, slot, hm, rfl, rfl⟩

/-- With its slots wrapped, a content becomes one more cell. -/
theorem Wrapped.install (h : Wrapped s t (slotsAt place c)) (hc : c.WellFormed) :
    Wrapped s (t.install c place).2 [(place, (t.install c place).1)] := by
  have hg := grown_install t c place
  have split : ∀ {e}, e < (t.install c place).2.cells.size →
      e < t.cells.size ∨ e = t.cells.size := by
    intro e he; rw [size_install] at he; omega
  have self : ∀ {k d}, (t.install c place).2.Holds t.cells.size k d ↔ (k, .cell d) ∈ c.entries := by
    intro k d
    rw [holds_iff, content?_install_self]
    simp
  have member : ∀ {k d}, (k, .cell d) ∈ c.entries →
      s.cells.size ≤ d ∧ t.place? d = some (place ++ [k]) :=
    fun hm => (h.slot (mem_slotsAt.mpr ⟨_, rfl, hm⟩)).2 _ rfl
  refine ⟨h.grown.trans hg, ?_, ?_, ?_, ?_, ?_⟩
  · intro p slot hm
    simp only [List.mem_singleton, Prod.mk.injEq] at hm
    obtain ⟨rfl, rfl⟩ := hm
    refine ⟨trivial, fun d hd => ?_⟩
    cases hd
    exact ⟨h.grown.size_le, place?_install_self⟩
  · intro e c' he hc'
    rcases split (lt_size_of_content? hc') with hlt | rfl
    · exact h.wellFormed he (hg.content? hlt ▸ hc')
    · rw [content?_install_self] at hc'
      cases hc'
      exact hc
  · intro e d he hp
    rcases split hp.lt_size with hlt | rfl
    · exact h.fresh he ((hg.parent hlt).mp hp)
    · obtain ⟨k, hk⟩ := hp
      obtain ⟨hs, hd⟩ := member (self.mp hk)
      exact ⟨hs, lt_size_of_place? hd⟩
  · intro e q k d he hq hk
    rcases split hk.lt_size with hlt | rfl
    · rw [hg.place? hlt] at hq
      exact hg.place?_of_some (h.exact he hq ((hg.holds hlt).mp hk))
    · rw [place?_install_self] at hq
      cases hq
      exact hg.place?_of_some (member (self.mp hk)).2
  · intro d hs hd
    rcases split hd with hlt | rfl
    · right
      rcases h.held hs hlt with ⟨p, hm⟩ | ⟨e, k, q, he, hk, hq, hp⟩
      · obtain ⟨k, rfl, hk⟩ := mem_slotsAt.mp hm
        exact ⟨t.cells.size, k, place, h.grown.size_le, self.mpr hk, place?_install_self,
          hg.place?_of_some (member hk).2⟩
      · exact ⟨e, k, q, he, (hg.holds hk.lt_size).mpr hk, hg.place?_of_some hq,
          hg.place?_of_some hp⟩
    · exact Or.inl ⟨place, List.mem_singleton.mpr rfl⟩

theorem names_wrapMembers (place : Path) (ms : List (String × Json)) (s : Store) :
    Members.names (wrapMembers place ms s).1 = Members.names ms := by
  induction ms generalizing s with
  | nil => rfl
  | cons m ms ih =>
    simp only [wrapMembers, Members.names_cons, ih]
    rfl

mutual

theorem wrapped_wrap (place : Path) : ∀ (v : Json) (s : Store), v.WellFormed →
    Wrapped s (wrap place v s).2 [(place, (wrap place v s).1)]
  | .array items, s, hv => by
    have h := wrapped_wrapItems place items 0 s hv
    refine Wrapped.install (c := .array _) h fun slot hm => ?_
    obtain ⟨i, hi⟩ := List.getElem?_of_mem hm
    exact (h.slot (mem_slotsAt.mpr ⟨_, rfl, Content.mem_entries_array.mpr ⟨i, rfl, hi⟩⟩)).1
  | .object members, s, hv => by
    have h := wrapped_wrapMembers place members s hv.2
    refine Wrapped.install (c := .object _) h ⟨names_wrapMembers place members s ▸ hv.1, ?_⟩
    intro entry hm
    obtain ⟨n, slot⟩ := entry
    exact (h.slot (mem_slotsAt.mpr ⟨_, rfl, Content.mem_entries_object.mpr ⟨n, rfl, hm⟩⟩)).1
  | .null, s, _ => .scalar s place rfl
  | .bool _, s, _ => .scalar s place rfl
  | .number _, s, _ => .scalar s place rfl
  | .string _, s, _ => .scalar s place rfl

theorem wrapped_wrapItems (place : Path) : ∀ (vs : List Json) (start : Nat) (s : Store),
    Json.ItemsWellFormed vs →
    Wrapped s (wrapItems place start vs s).2
      ((Tree.enumerate start (wrapItems place start vs s).1).map fun e => (place ++ [e.1], e.2))
  | [], _, s, _ => .none s
  | v :: vs, start, s, hv =>
    (wrapped_wrap (place ++ [Key.index start]) v s hv.1).append
      (wrapped_wrapItems place vs (start + 1) _ hv.2)

theorem wrapped_wrapMembers (place : Path) : ∀ (ms : List (String × Json)) (s : Store),
    Json.MembersWellFormed ms →
    Wrapped s (wrapMembers place ms s).2 (slotsAt place (.object (wrapMembers place ms s).1))
  | [], s, _ => .none s
  | (name, v) :: ms, s, hv =>
    (wrapped_wrap (place ++ [Key.name name]) v s hv.1).append (wrapped_wrapMembers place ms _ hv.2)

end

/-! ## The new store -/

/-- Below a new cell there are only new cells. -/
theorem Wrapped.reaches_new (h : Wrapped s t L) (hd : s.cells.size ≤ d) (hr : t.Reaches d e) :
    s.cells.size ≤ e := by
  induction hr with
  | refl => exact hd
  | tail _ hp ih => exact (h.fresh ih hp).1

theorem Wrapped.formed (h : Wrapped s t L) (hs : s.Formed) : t.Formed where
  wellFormed {id c} hc := by
    by_cases hid : id < s.cells.size
    · exact hs.wellFormed (h.grown.content? hid ▸ hc)
    · exact h.wellFormed (Nat.le_of_not_lt hid) hc
  closed {e d} hp := by
    by_cases he : e < s.cells.size
    · exact Nat.lt_of_lt_of_le (hs.closed ((h.grown.parent he).mp hp)) h.grown.size_le
    · exact Nat.lt_trans (h.fresh (Nat.le_of_not_lt he) hp).2 hp.lt_size
  acyclic := by
    -- from an old cell the way down stays among the old ones, from a new cell numbers fall
    have old : ∀ {d e}, d < s.cells.size → Relation.TransGen t.Parent d e →
        e < s.cells.size ∧ Relation.TransGen s.Parent d e := by
      intro d e hd hde
      induction hde with
      | single hp =>
        have hp := (h.grown.parent hd).mp hp
        exact ⟨hs.closed hp, .single hp⟩
      | tail _ hp ih =>
        have hp := (h.grown.parent ih.1).mp hp
        exact ⟨hs.closed hp, ih.2.tail hp⟩
    have new : ∀ {d e}, s.cells.size ≤ d → Relation.TransGen t.Parent d e →
        s.cells.size ≤ e ∧ e < d := by
      intro d e hd hde
      induction hde with
      | single hp => exact h.fresh hd hp
      | tail _ hp ih =>
        obtain ⟨hs, hlt⟩ := h.fresh ih.1 hp
        exact ⟨hs, Nat.lt_trans hlt ih.2⟩
    intro d hd
    by_cases hlt : d < s.cells.size
    · exact hs.acyclic d (old hlt hd).2
    · exact Nat.lt_irrefl d (new (Nat.le_of_not_lt hlt) hd).2

theorem Grown.toJson (h : Grown s t) (hs : s.Formed) (ht : t.Formed) (hd : d < s.cells.size) :
    t.toJson (.cell d) = s.toJson (.cell d) :=
  hs.toJson_congr ht fun _ hr => h.content? (hs.reaches_lt hr hd)

/-- The slots of a wrapped list read the same in every store that has grown since. -/
theorem Wrapped.toJson (h : Wrapped s t L) (hg : Grown t u) (ht : t.Formed) (hu : u.Formed)
    {p : Path} (hm : (p, slot) ∈ L) : u.toJson slot = t.toJson slot := by
  cases slot with
  | scalar v => simp
  | cell d => exact hg.toJson ht hu (lt_size_of_place? ((h.slot hm).2 d rfl).2)

mutual

theorem toJson_wrap (place : Path) : ∀ (v : Json) (s : Store), v.WellFormed → s.Formed →
    (wrap place v s).2.toJson (wrap place v s).1 = v
  | .array items, s, hv, hs => by
    have h := wrapped_wrapItems place items 0 s hv
    have ht := h.formed hs
    have hu := (wrapped_wrap place (.array items) s hv).formed hs
    have hread := toJson_wrapItems place items 0 s hv hs
    refine (hu.toJson_cell content?_install_self).trans ?_
    refine (Content.toJson_congr fun k slot hm => ?_).trans (congrArg Json.array hread)
    exact h.toJson (grown_install _ _ _) ht hu (mem_slotsAt.mpr ⟨k, rfl, hm⟩)
  | .object members, s, hv, hs => by
    have h := wrapped_wrapMembers place members s hv.2
    have ht := h.formed hs
    have hu := (wrapped_wrap place (.object members) s hv).formed hs
    have hread := toJson_wrapMembers place members s hv.2 hs
    refine (hu.toJson_cell content?_install_self).trans ?_
    refine (Content.toJson_congr fun k slot hm => ?_).trans (congrArg Json.object hread)
    exact h.toJson (grown_install _ _ _) ht hu (mem_slotsAt.mpr ⟨k, rfl, hm⟩)
  | .null, _, _, _ => toJson_scalar _
  | .bool _, _, _, _ => toJson_scalar _
  | .number _, _, _, _ => toJson_scalar _
  | .string _, _, _, _ => toJson_scalar _

theorem toJson_wrapItems (place : Path) : ∀ (vs : List Json) (start : Nat) (s : Store),
    Json.ItemsWellFormed vs → s.Formed →
    (wrapItems place start vs s).1.map (wrapItems place start vs s).2.toJson = vs
  | [], _, _, _, _ => rfl
  | v :: vs, start, s, hv, hs => by
    have h := wrapped_wrap (place ++ [Key.index start]) v s hv.1
    have ht := h.formed hs
    have h' := wrapped_wrapItems place vs (start + 1) (wrap (place ++ [Key.index start]) v s).2 hv.2
    simp only [wrapItems, List.map_cons, List.cons.injEq]
    refine ⟨?_, toJson_wrapItems place vs (start + 1) _ hv.2 ht⟩
    rw [h.toJson h'.grown ht (h'.formed ht) (List.mem_singleton.mpr rfl)]
    exact toJson_wrap _ v s hv.1 hs

theorem toJson_wrapMembers (place : Path) : ∀ (ms : List (String × Json)) (s : Store),
    Json.MembersWellFormed ms → s.Formed →
    (wrapMembers place ms s).1.map (fun m => (m.1, (wrapMembers place ms s).2.toJson m.2)) = ms
  | [], _, _, _ => rfl
  | (name, v) :: ms, s, hv, hs => by
    have h := wrapped_wrap (place ++ [Key.name name]) v s hv.1
    have ht := h.formed hs
    have h' := wrapped_wrapMembers place ms (wrap (place ++ [Key.name name]) v s).2 hv.2
    simp only [wrapMembers, List.map_cons, List.cons.injEq, Prod.mk.injEq, true_and]
    refine ⟨?_, toJson_wrapMembers place ms _ hv.2 ht⟩
    rw [h.toJson h'.grown ht (h'.formed ht) (List.mem_singleton.mpr rfl)]
    exact toJson_wrap _ v s hv.1 hs

end

end LiveJson.Store

import LiveJson.Proofs.Store.Below

/-! # Cells that lose their places

Forgetting takes the place from a cell that is at a location or below it, and goes on below that
cell. It stops at the first cell that has its place elsewhere, or none. What it leaves behind is
still complete along the ways down on which every cell has a place at or below the location. -/

namespace LiveJson.Store

variable {s t base : Store} {location : Path} {d e id : CellId} {k : Key} {slot : Slot}

/-- The cell has a place at the location or below it. -/
def Under (s : Store) (location : Path) (d : CellId) : Prop :=
  ∃ place, s.place? d = some place ∧ location <+: place

theorem under_iff : (s.place? d).any (location.isPrefixOf ·) = true ↔ s.Under location d := by
  cases h : s.place? d <;> simp [Under, h]

/-- `s` is `base` except that some cells have lost their places. -/
structure Thinned (base s : Store) : Prop where
  unplaced : s.unplaced = base.unplaced
  place : ∀ d, s.place? d = base.place? d ∨ s.place? d = none

/-- `t` is `s` except that cells at the location or below it, from `id` down, have lost their
places. -/
structure Forgot (base s t : Store) (location : Path) (id : CellId) : Prop where
  unplaced : t.unplaced = s.unplaced
  place : ∀ d, t.place? d = s.place? d ∨
    (t.place? d = none ∧ base.Under location d ∧ base.Reaches id d)

/-- From `id` down, a cell that has lost its place has no member with a place at the location. -/
def Swept (base s : Store) (location : Path) (id : CellId) : Prop :=
  ∀ d, base.Reaches id d → base.Under location d → s.place? d = none →
    ∀ e, base.Parent d e → base.Under location e → s.place? e = none

theorem Forgot.refl (base s : Store) (location : Path) (id : CellId) :
    Forgot base s s location id := ⟨rfl, fun _ => Or.inl rfl⟩

theorem Forgot.none_of_none (h : Forgot base s t location id) (hd : s.place? d = none) :
    t.place? d = none := by
  rcases h.place d with he | he
  · rw [he, hd]
  · exact he.1

theorem Forgot.trans {u : Store} (h : Forgot base s t location id)
    (h' : Forgot base t u location id) : Forgot base s u location id where
  unplaced := h'.unplaced.trans h.unplaced
  place d := by
    rcases h'.place d with he | he
    · rw [he]; exact h.place d
    · exact Or.inr he

theorem Forgot.mono (h : Forgot base s t location d) (hd : base.Parent e d) :
    Forgot base s t location e where
  unplaced := h.unplaced
  place c := (h.place c).imp_right fun h => ⟨h.1, h.2.1, .head hd h.2.2⟩

theorem Thinned.forgot (hs : Thinned base s) (h : Forgot base s t location id) :
    Thinned base t where
  unplaced := h.unplaced.trans hs.unplaced
  place d := by
    rcases h.place d with he | he
    · rw [he]; exact hs.place d
    · exact Or.inr he.1

/-- Forgetting from one member on leaves the others swept. -/
theorem Swept.forgot {c : CellId} (hc : Swept base s location c)
    (h : Forgot base s t location id) (hid : Swept base t location id) :
    Swept base t location c := by
  intro d hcd hd hn e hp he
  rcases h.place d with hstay | ⟨-, -, hr⟩
  · exact h.none_of_none (hc d hcd hd (hstay ▸ hn) e hp he)
  · exact hid d hr hd hn e hp he

/-- What forgetting from `id` on does to a store in which nothing is forgotten by halves. -/
def Forgets (base : Store) (location : Path) (id : CellId) (forget : Store → Store) : Prop :=
  ∀ s, Thinned base s → Swept base s location id →
    Forgot base s (forget s) location id ∧ Swept base (forget s) location id ∧
      (base.Under location id → (forget s).place? id = none)

/-- What has become of `s` once the listed members of `id` are forgotten. -/
structure Visited (base s t : Store) (location : Path) (id : CellId) (L : List (Key × Slot)) :
    Prop where
  forgot : Forgot base s t location id
  swept : ∀ c, base.Parent id c → Swept base t location c
  gone : ∀ k c, (k, .cell c) ∈ L → base.Under location c → t.place? c = none

/-- Forgetting the listed members of a cell one after the other. -/
theorem Forgets.foldl (id : CellId) (visit : CellId → Store → Store) :
    ∀ (L : List (Key × Slot)) (s : Store), Thinned base s →
      (∀ k c, (k, .cell c) ∈ L → base.Parent id c ∧ Forgets base location c (visit c)) →
      (∀ c, base.Parent id c → Swept base s location c) →
      Visited base s (L.foldl (fun store entry =>
        match entry.2 with
        | .cell child => visit child store
        | .scalar _ => store) s) location id L
  | [], s, _, _, hw => ⟨.refl _ _ _ _, hw, fun _ _ hm => by cases hm⟩
  | (k, .scalar v) :: L, s, hs, h, hw => by
    have visited := Forgets.foldl id visit L s hs
      (fun k c hm => h k c (List.mem_cons_of_mem _ hm)) hw
    refine ⟨visited.forgot, visited.swept, fun j c hm => visited.gone j c ?_⟩
    simpa using hm
  | (k, .cell c) :: L, s, hs, h, hw => by
    obtain ⟨hp, hv⟩ := h k c List.mem_cons_self
    obtain ⟨hf, hswept, hnone⟩ := hv s hs (hw c hp)
    have visited := Forgets.foldl id visit L (visit c s) (hs.forgot hf)
      (fun k c hm => h k c (List.mem_cons_of_mem _ hm))
      (fun c' hc' => (hw c' hc').forgot hf hswept)
    refine ⟨(hf.mono hp).trans visited.forgot, visited.swept, fun j c' hm hu => ?_⟩
    rcases List.mem_cons.mp hm with he | hm
    · cases he
      exact visited.forgot.none_of_none (hnone hu)
    · exact visited.gone j c' hm hu

theorem place?_setPlace_none : (s.setPlace id none).place? id = none := by
  rw [place?_setPlace]
  split
  · rfl
  · next hn => exact place?_eq_none_of_size_le (Nat.le_of_not_lt fun hlt => hn ⟨rfl, hlt⟩)

theorem forgot_setPlace (hu : base.Under location id) :
    Forgot base s (s.setPlace id none) location id := by
  refine ⟨unplaced_setPlace, fun d => ?_⟩
  by_cases hd : d = id
  · rw [hd]; exact Or.inr ⟨place?_setPlace_none, hu, .refl _ _⟩
  · exact Or.inl (place?_setPlace.trans (if_neg fun h => hd h.1))

theorem Thinned.under (hs : Thinned base s) (h : s.Under location id) :
    base.Under location id := by
  obtain ⟨p, hp, hl⟩ := h
  rcases hs.place id with he | he
  · exact ⟨p, he ▸ hp, hl⟩
  · rw [he] at hp; cases hp

theorem Formed.forgets (hb : base.Formed) (location : Path) (n : Nat) :
    ∀ id, base.Shallow n id → Forgets base location id (forgetTo n id location) := by
  induction n with
  | zero =>
    intro id h s hs hw
    refine ⟨.refl _ _ _ _, hw, fun ⟨p, hp, _⟩ => ?_⟩
    exact absurd (lt_size_of_place? hp) (Nat.not_lt.mpr h)
  | succ n ih =>
    intro id h s hs hw
    rw [forgetTo]
    split
    · next hu =>
      have top : Forgot base s (s.setPlace id none) location id :=
        forgot_setPlace (hs.under (under_iff.mp hu))
      have members : ∀ c, base.Parent id c → Swept base (s.setPlace id none) location c := by
        intro c hc d hcd hd hn e he hue
        have hne : d ≠ id := fun hd => hb.acyclic.not_reaches hc (hd ▸ hcd)
        rw [place?_setPlace, if_neg fun h => hne h.1] at hn
        exact top.none_of_none (hw d (.head hc hcd) hd hn e he hue)
      have held : ∀ {k c}, (k, .cell c) ∈ s.entries id ↔ base.Holds id k c := by
        intro k c; rw [unplaced_entries hs.unplaced]; rfl
      have visited := Forgets.foldl id (fun c => forgetTo n c location) (s.entries id)
        (s.setPlace id none) (hs.forgot top)
        (fun k c hm => ⟨⟨k, held.mp hm⟩, ih c (h c ⟨k, held.mp hm⟩)⟩) members
      refine ⟨top.trans visited.forgot, fun d hd hud hn e he hue => ?_,
        fun _ => visited.forgot.none_of_none place?_setPlace_none⟩
      rcases Relation.ReflTransGen.cases_head hd with rfl | ⟨c, hc, hcd⟩
      · obtain ⟨k, hk⟩ := he
        exact visited.gone k e (held.mpr hk) hue
      · exact visited.swept c hc d hcd hud hn e he hue
    · next hu =>
      refine ⟨.refl _ _ _ _, hw, fun ⟨p, hp, hl⟩ => ?_⟩
      rcases hs.place id with he | he
      · exact absurd (under_iff.mpr ⟨p, he.trans hp, hl⟩) hu
      · exact he

/-! ## Forgetting as a whole -/

theorem Formed.forgot (hs : s.Formed) (id : CellId) (location : Path) :
    Forgot s s (s.forget id location) location id :=
  (hs.forgets location _ id (hs.shallow id) s ⟨rfl, fun _ => Or.inl rfl⟩
    fun _ _ ⟨p, hp, _⟩ hn => by rw [hp] at hn; cases hn).1

/-- A cell loses its place if from `id` down to it every cell has a place at the location or below
it. -/
theorem Formed.place?_forget (hs : s.Formed) (hid : s.Under location id)
    (h : Relation.ReflTransGen (fun e d => s.Parent e d ∧ s.Under location d) id d) :
    (s.forget id location).place? d = none := by
  obtain ⟨-, hswept, htop⟩ := hs.forgets location _ id (hs.shallow id) s ⟨rfl, fun _ => Or.inl rfl⟩
    fun _ _ ⟨p, hp, _⟩ hn => by rw [hp] at hn; cases hn
  suffices hd : s.Reaches id d ∧ s.Under location d ∧ (s.forget id location).place? d = none from
    hd.2.2
  induction h with
  | refl => exact ⟨.refl _ _, hid, htop hid⟩
  | tail _ he ih =>
    exact ⟨ih.1.tail he.1, he.2, hswept _ ih.1 ih.2.1 ih.2.2 _ he.1 he.2⟩

end LiveJson.Store

import LiveJson.Proofs.Store.Step

/-! # Cells without a place

Where no cell is ever moved, the cells form a forest: each is held by one cell at most, and the root
by none. So below a cell that is not part of the document no cell is part of it. A step does not give
such a cell a place again, and writes at none of them; so nobody sees a change in it, however the
document goes on. -/

namespace LiveJson.Store

variable {s t u v : Store} {d e e' id r root : CellId} {path p q : Path} {k key : Key} {c : Content}
  {slot : Slot} {value : Json}

/-- `t` has come from `s` by a change that moves no cell: cells without a place stay as they are, and
cells are held as before, or they are new and held by cells of the document. -/
structure Spares (s t : Store) : Prop where
  size_le : s.cells.size ≤ t.cells.size
  place? : ∀ {d}, d < s.cells.size → s.place? d = none → t.place? d = none
  content? : ∀ {d}, d < s.cells.size → s.place? d = none → t.content? d = s.content? d
  parent : ∀ {e d}, t.Parent e d → s.Parent e d ∨ (s.cells.size ≤ d ∧ ∃ p, t.place? e = some p)
  root : t.root = s.root ∨ ∃ r, t.root = some r ∧ s.cells.size ≤ r

theorem Spares.frame (hc : t.cells = s.cells) (hr : t.root = s.root) : Spares s t := by
  obtain ⟨cells, root, _⟩ := t
  cases hc
  cases hr
  exact ⟨Nat.le_refl _, fun _ h => h, fun _ _ => rfl, fun h => .inl h, .inl rfl⟩

/-- A new cell has its place in the document. -/
theorem Wrapped.exists_place? {L : List (Path × Slot)} (h : Wrapped s t L)
    (hnew : s.cells.size ≤ d) (hd : d < t.cells.size) : ∃ p, t.place? d = some p := by
  rcases h.held hnew hd with ⟨p, hm⟩ | ⟨e, k, q, -, -, -, hp⟩
  · exact ⟨p, ((h.slot hm).2 d rfl).2⟩
  · exact ⟨_, hp⟩

theorem Loaded.spares (h : Loaded s t u root) : Spares s u where
  size_le := by
    have hsize := unplaced_size h.unplaced
    exact h.wrapped.grown.size_le.trans_eq hsize.symm
  place? hd _ := h.gone hd
  content? hd _ := (unplaced_content? h.unplaced).trans (h.wrapped.grown.content? hd)
  parent {e d} hp := by
    have hp : t.Parent e d := by
      obtain ⟨k, hk⟩ := hp
      exact ⟨k, h.holds ▸ hk⟩
    by_cases he : e < s.cells.size
    · exact .inl ((h.wrapped.grown.parent he).mp hp)
    · have hnew := Nat.le_of_not_lt he
      obtain ⟨p, hplace⟩ := h.wrapped.exists_place? hnew hp.lt_size
      exact .inr ⟨(h.wrapped.fresh hnew hp).1, p, (h.kept hnew).trans hplace⟩
  root := .inr ⟨root, unplaced_root h.unplaced,
    ((h.wrapped.slot (List.mem_singleton.mpr rfl)).2 root rfl).1⟩

theorem Vacant.spares_copy (h : Vacant s t (path ++ [key])) (hs : s.Sound)
    (target : Target s id k path key c) (hr : InRange c key)
    (hw : Wrapped t u [(path ++ [key], slot)]) : Spares s (u.setContent id (c.insert key slot)) where
  size_le := by
    have hsize := unplaced_size h.unplaced
    rw [size_setContent]
    exact hsize.symm.trans_le hw.grown.size_le
  place? {d} hd hnone := by
    rw [place?_setContent, hw.grown.place? (unplaced_size h.unplaced ▸ hd)]
    refine (h.cleared.kept fun ⟨p, hp, _⟩ => ?_).trans hnone
    rw [hnone] at hp
    cases hp
  content? {d} hd hnone := by
    have hne : d ≠ id := by
      rintro rfl
      rw [target.place] at hnone
      cases hnone
    rw [content?_setContent_of_ne hne, hw.grown.content? (unplaced_size h.unplaced ▸ hd),
      unplaced_content? h.unplaced]
  parent {e d} hp := by
    have landed := h.copy hs target hw
    obtain ⟨j, hj⟩ := hp
    rw [place?_setContent, ← unplaced_size h.unplaced]
    rcases (landed.holds_iff (hs.wellFormed target.content) target hr).mp hj with
      ⟨rfl, rfl, hslot⟩ | ⟨-, hj⟩
    · exact .inr ⟨((hw.slot (List.mem_singleton.mpr rfl)).2 d hslot).1, path,
        landed.above (.refl _ _) target.place not_concat_prefix⟩
    · by_cases he : e < t.cells.size
      · rw [hw.grown.holds he, unplaced_holds h.unplaced] at hj
        exact .inl ⟨j, hj⟩
      · have hnew := Nat.le_of_not_lt he
        exact .inr ⟨(hw.fresh hnew ⟨j, hj⟩).1, hw.exists_place? hnew hj.lt_size⟩
  root := .inl (h.copy hs target hw).root

theorem Removes.spares (h : Removes s v u id path key c) (hs : s.Sound) (he : s.Exact)
    (target : Target s id k path key c) : Spares s u where
  size_le := by
    have hsize := unplaced_size h.unplaced_eq
    rw [size_setContent] at hsize
    exact hsize.symm.le
  place? {d} hd hnone := by
    have hspan : ¬ v.Spans (c.shifted key) d := by
      intro hspan
      obtain ⟨p, hp⟩ := h.placed hs he target hspan
      rw [hnone] at hp
      cases hp
    rw [h.seated.outside d hspan]
    refine (h.cleared.kept fun ⟨p, hp, _⟩ => ?_).trans hnone
    rw [hnone] at hp
    cases hp
  content? {d} hd hnone := by
    have hne : d ≠ id := by
      rintro rfl
      rw [target.place] at hnone
      cases hnone
    rw [unplaced_content? h.unplaced_eq, content?_setContent_of_ne hne]
  parent {e d} hp := by
    rw [unplaced_parent h.unplaced_eq] at hp
    exact .inl (hs.parent_erase target hp)
  root := .inl ((unplaced_root h.unplaced_eq).trans rfl)

theorem Step.spares (h : Step Policy.never s t) (hs : s.Sound) (he : s.Exact) : Spares s t := by
  cases h with
  | load hd h =>
    obtain ⟨root, u, -, loaded⟩ := hs.load_eq_ok hd h
    exact loaded.spares
  | @set id key incoming edit t legal allowed h =>
    obtain ⟨path, key, c, slot, v, t, target, hr, lands, -, rfl⟩ := hs.set_eq_ok legal h
    cases lands with
    | move vacant clear seated =>
      obtain ⟨p, hp⟩ := legal
      exact (allowed rfl hp).elim
    | copy vacant wellFormed wrap =>
      have hw := wrapped_wrap (path ++ [key]) _ v wellFormed
      rw [wrap] at hw
      exact vacant.spares_copy hs target hr hw
  | delete h =>
    obtain ⟨path, key, c, old, v, target, -, -, -, removes⟩ := hs.delete_eq_ok h
    exact removes.spares hs he target
  | promote => exact .frame rfl rfl
  | subscribe query listener =>
    obtain ⟨registry, hr⟩ := s.subscribe_frame query listener
    rw [hr]
    exact .frame rfl rfl
  | unsubscribe query listener =>
    obtain ⟨registry, hr⟩ := s.unsubscribe_frame query listener
    rw [hr]
    exact .frame rfl rfl
  | origin o => exact .frame rfl rfl
  | reported => exact .frame rfl rfl
  | fetching loading => exact .frame rfl rfl

/-! ## A forest of cells -/

/-- Each cell is held by one cell at most, and the root by none. -/
structure Forest (s : Store) : Prop where
  holder_unique : ∀ {e e' d}, s.Parent e d → s.Parent e' d → e = e'
  top : ∀ {r e}, s.root = some r → ¬ s.Parent e r

theorem Forest.empty : Forest {} where
  holder_unique h := absurd h.lt_size (Nat.not_lt_zero _)
  top h := by cases h

theorem Spares.forest (h : Spares s t) (hs : s.Sound) (ht : t.Sound) (he : t.Exact)
    (hf : s.Forest) : t.Forest where
  holder_unique {e e' d} hp hp' := by
    rcases h.parent hp with hold | ⟨hnew, p, hplace⟩
    · rcases h.parent hp' with hold' | ⟨hnew, -⟩
      · exact hf.holder_unique hold hold'
      · exact absurd (hs.closed hold) (Nat.not_lt.mpr hnew)
    · rcases h.parent hp' with hold | ⟨-, p', hplace'⟩
      · exact absurd (hs.closed hold) (Nat.not_lt.mpr hnew)
      · obtain ⟨k, hk⟩ := hp
        obtain ⟨k', hk'⟩ := hp'
        exact (he.holder_unique ht hplace hk hplace' hk').1
  top {r e} hr hp := by
    rcases h.parent hp with hold | ⟨hnew, q, hq⟩
    · rcases h.root with hroot | ⟨r', hr', hnew⟩
      · exact hf.top (hroot ▸ hr) hold
      · cases hr.symm.trans hr'
        exact absurd (hs.closed hold) (Nat.not_lt.mpr hnew)
    · obtain ⟨k, hk⟩ := hp
      have hplace := he.held hq hk
      rw [ht.rooted.mpr hr] at hplace
      simp at hplace

theorem Reachable.upward (h : s.Reachable Policy.never) : s.Reachable Policy.upward :=
  h.mono fun _ _ h => h.elim

theorem Reachable.forest (h : s.Reachable Policy.never) : s.Forest := by
  induction h with
  | empty => exact .empty
  | step hs h ih =>
    have ht := hs.step h
    exact (h.spares hs.sound hs.upward.exact).forest hs.sound ht.sound ht.upward.exact ih

/-- What a cell without a place holds has no place. -/
theorem Forest.place?_of_parent (hf : s.Forest) (hs : s.Sound) (hp : s.Parent e d)
    (he : s.place? e = none) : s.place? d = none := by
  cases hplace : s.place? d with
  | none => rfl
  | some p =>
    rcases List.eq_nil_or_concat' p with rfl | ⟨q, k, rfl⟩
    · exact absurd hp (hf.top (hs.rooted.mp hplace))
    · obtain ⟨e', he', hk⟩ := hs.anchored hplace
      rw [hf.holder_unique hp ⟨k, hk⟩, he'] at he
      cases he

theorem Forest.place?_of_reaches (hf : s.Forest) (hs : s.Sound) (hd : s.place? d = none)
    (hr : s.Reaches d e) : s.place? e = none := by
  induction hr with
  | refl => exact hd
  | tail _ hp ih => exact hf.place?_of_parent hs hp ih

/-! ## From step to step -/

/-- The steps that a store has gone through, none of which moves a cell. -/
abbrev Later (s t : Store) : Prop := Relation.ReflTransGen (Step Policy.never) s t

theorem Reachable.later (hs : s.Reachable Policy.never) (h : Later s t) :
    t.Reachable Policy.never := by
  induction h with
  | refl => exact hs
  | tail _ h ih => exact ih.step h

theorem Later.size_le (h : Later s t) (hs : s.Reachable Policy.never) :
    s.cells.size ≤ t.cells.size := by
  induction h with
  | refl => exact Nat.le_refl _
  | tail hpast h ih =>
    have ht := hs.later hpast
    exact ih.trans (h.spares ht.sound ht.upward.exact).size_le

/-- **A cell without a place never gets one again.** -/
theorem Later.place? (h : Later s t) (hs : s.Reachable Policy.never) (hd : d < s.cells.size)
    (hnone : s.place? d = none) : t.place? d = none := by
  induction h with
  | refl => exact hnone
  | tail hpast h ih =>
    have ht := hs.later hpast
    exact (h.spares ht.sound ht.upward.exact).place? (hd.trans_le (Later.size_le hpast hs)) ih

theorem Later.content? (h : Later s t) (hs : s.Reachable Policy.never) (hd : d < s.cells.size)
    (hnone : s.place? d = none) : t.content? d = s.content? d := by
  induction h with
  | refl => rfl
  | tail hpast h ih =>
    have ht := hs.later hpast
    refine ((h.spares ht.sound ht.upward.exact).content? (hd.trans_le (Later.size_le hpast hs)) ?_).trans ih
    exact Later.place? hpast hs hd hnone

/-- **A cell without a place reads the same for ever.** -/
theorem Later.toJson (h : Later s t) (hs : s.Reachable Policy.never) (hd : d < s.cells.size)
    (hnone : s.place? d = none) : t.toJson (.cell d) = s.toJson (.cell d) := by
  refine hs.sound.toFormed.toJson_congr (hs.later h).sound.toFormed fun e hr => ?_
  exact h.content? hs (hs.sound.toFormed.reaches_lt hr hd)
    (hs.forest.place?_of_reaches hs.sound hnone hr)

/-! ## Through a cell without a place -/

theorem attached_of_unplaced (h : s.place? id = none) : s.attached id = .error .detached := by
  rw [attached, h]
  split <;> rfl

theorem set_of_unplaced (h : s.place? id = none) (k : Key) (incoming : Incoming) :
    s.set id k incoming = .error .detached := by
  rw [Store.set, attached_of_unplaced h]
  rfl

theorem delete_of_unplaced (h : s.place? id = none) (k : Key) :
    s.delete id k = .error .detached := by
  rw [Store.delete, attached_of_unplaced h]
  rfl

end LiveJson.Store

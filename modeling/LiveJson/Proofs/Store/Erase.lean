import LiveJson.Proofs.Store.Write

/-! # Removing a key of a cell

The location of the key is cleared, and what an array holds behind it is seated one place further
up. The cells that have moved up take all below them along, and no other cell has a new place. -/

namespace LiveJson.Store

variable {s v u : Store} {d e id : CellId} {path : Path} {k j key : Key} {c : Content}

/-- `v` is `s` without what the cell held at `key`, and `u` is `v` with what moved up seated. -/
structure Removes (s v u : Store) (id : CellId) (path : Path) (key : Key) (c : Content) : Prop where
  unplaced : v.unplaced = (s.setContent id (c.erase key)).unplaced
  cleared : Cleared s v (path ++ [key])
  seated : Seated v u path (c.shifted key)

theorem Removes.unplaced_eq (h : Removes s v u id path key c) :
    u.unplaced = (s.setContent id (c.erase key)).unplaced := h.seated.unplaced.trans h.unplaced

/-- Every cell that is held after erasing was held by the same cell before. -/
theorem Sound.parent_erase (hs : s.Sound) (target : Target s id k path key c)
    (h : (s.setContent id (c.erase key)).Parent e d) : s.Parent e d := by
  obtain ⟨j, hj⟩ := h
  by_cases he : e = id
  · subst he
    rw [Store.holds_iff, content?_setContent_self (lt_size_of_content? target.content)] at hj
    obtain ⟨_, hc, hm⟩ := hj
    cases hc
    rcases (Content.mem_erase_iff (hs.wellFormed target.content) target.fits).mp hm with h | ⟨-, h⟩
    · obtain ⟨i, -, -, hi⟩ := Content.exists_of_mem_shifted target.fits h
      exact ⟨i, Store.holds_iff.mpr ⟨c, target.content, hi⟩⟩
    · exact ⟨j, Store.holds_iff.mpr ⟨c, target.content, h⟩⟩
  · exact ⟨j, (holds_congr (content?_setContent_of_ne he)).mp hj⟩

theorem Sound.formed_erase (hs : s.Sound) (target : Target s id k path key c) :
    (s.setContent id (c.erase key)).Formed := by
  refine hs.toFormed.setContent (hs.wellFormed target.content).erase fun {j d} hm => ?_
  have hid := lt_size_of_content? target.content
  have hp : s.Parent id d := hs.parent_erase target
    ⟨j, Store.holds_iff.mpr ⟨_, content?_setContent_self hid, hm⟩⟩
  exact ⟨hs.closed hp, hs.acyclic.not_reaches hp⟩

theorem Removes.formed (h : Removes s v u id path key c) (hs : s.Sound)
    (target : Target s id k path key c) : u.Formed :=
  (hs.formed_erase target).unplaced h.unplaced_eq

theorem Removes.holds_self (h : Removes s v u id path key c) (target : Target s id k path key c) :
    u.Holds id j d ↔ (j, .cell d) ∈ (c.erase key).entries := by
  rw [unplaced_holds h.unplaced_eq, Store.holds_iff,
    content?_setContent_self (lt_size_of_content? target.content)]
  simp

theorem Removes.holds_of_ne (h : Removes s v u id path key c) (he : e ≠ id) :
    u.Holds e j d ↔ s.Holds e j d := by
  rw [unplaced_holds h.unplaced_eq]
  exact holds_congr (content?_setContent_of_ne he)

theorem Removes.reaches (h : Removes s v u id path key c) (hs : s.Sound)
    (target : Target s id k path key c) (hr : v.Reaches e d) : s.Reaches e d := by
  rw [unplaced_reaches h.unplaced] at hr
  exact Relation.ReflTransGen.mono (fun _ _ h => hs.parent_erase target h) _ _ hr

/-- Neither the cell nor anything above it moves. -/
theorem Removes.not_spans (h : Removes s v u id path key c) (hs : s.Sound)
    (target : Target s id k path key c) (hd : s.Reaches d id) : ¬ v.Spans (c.shifted key) d := by
  intro h
  obtain ⟨j, m, hm, hr⟩ := h
  obtain ⟨i, -, -, hi⟩ := Content.exists_of_mem_shifted target.fits hm
  have hp : s.Parent id m := ⟨i, Store.holds_iff.mpr ⟨c, target.content, hi⟩⟩
  exact hs.acyclic.not_reaches hp ((h.reaches hs target hr).trans hd)

theorem Removes.place_self (h : Removes s v u id path key c) (hs : s.Sound)
    (target : Target s id k path key c) : u.place? id = some path :=
  (h.seated.outside id (h.not_spans hs target (.refl _ _))).trans
    (h.cleared.place? target.place not_concat_prefix)

/-- What holds a cell that has not moved has not moved either. -/
theorem Removes.not_spans_of_holds (h : Removes s v u id path key c) (hk : s.Holds e j d)
    (he : e ≠ id) (hd : ¬ v.Spans (c.shifted key) d) : ¬ v.Spans (c.shifted key) e := by
  refine fun hspan => hd (hspan.holds (k := j) ?_)
  rw [← unplaced_holds h.seated.unplaced]
  exact (h.holds_of_ne he).mpr hk

theorem Removes.sound (h : Removes s v u id path key c) (hs : s.Sound)
    (target : Target s id k path key c) : u.Sound := by
  have hc := hs.wellFormed target.content
  have hplace := h.place_self hs target
  have hroot : u.root = s.root := (unplaced_root h.unplaced_eq).trans rfl
  refine hs.rebuild (h.formed hs target) hroot (fun {r} hroot => ?_) (fun {d p} hd => ?_)
  · obtain ⟨r', hr', hreach⟩ := hs.reaches_root target.place
    obtain rfl := Option.some.inj ((hs.rooted.mp hroot).symm.trans hr')
    exact (h.seated.outside r (h.not_spans hs target hreach)).trans
      (h.cleared.place? hroot (by simp))
  · by_cases hspan : v.Spans (c.shifted key) d
    · refine Or.inr ?_
      rcases h.seated.inside d hspan with ⟨j, hj, hp⟩ | ⟨e, j, q, -, hk, hq, hp⟩
      · exact ⟨id, path, j, Option.some.inj (hd.symm.trans hp), hplace,
          (h.holds_self target).mpr (Content.mem_erase_of_mem_shifted hj)⟩
      · refine ⟨e, q, j, Option.some.inj (hd.symm.trans hp), hq, ?_⟩
        rwa [unplaced_holds h.seated.unplaced]
    · obtain ⟨hold, hout⟩ := h.cleared.of_some (h.seated.outside d hspan ▸ hd)
      refine Or.inl ⟨hold, ?_⟩
      intro e q j heq hq hk
      subst heq
      have hqv := h.cleared.place? hq (not_prefix_of_concat hout)
      by_cases he : e = id
      · subst he
        obtain rfl := Option.some.inj (hq.symm.trans target.place)
        refine ⟨hplace, (h.holds_self target).mpr ?_⟩
        obtain ⟨c', hc', hm⟩ := Store.holds_iff.mp hk
        cases hc'.symm.trans target.content
        rcases Content.stays_or_shifted target.fits hm with rfl | hstay | ⟨i, hi⟩
        · exact absurd (List.prefix_refl _) hout
        · exact (Content.mem_erase_iff hc target.fits).mpr (Or.inr ⟨hstay, hm⟩)
        · exact absurd ⟨i, d, hi, .refl _ _⟩ hspan
      · exact ⟨(h.seated.outside e (h.not_spans_of_holds hk he hspan)).trans hqv,
          (h.holds_of_ne he).mpr hk⟩

/-! ## What a successful removal does -/

theorem eraseAt_eq (target : Target s id k path key c) (location : Path) :
    s.eraseAt id key location =
      (s.setContent id (c.erase key)).vacate (c.get? key) location := by
  simp only [eraseAt, target.content, get?_eq target.content]
  cases c.get? key <;> rfl

/-- What is told about the elements that move up: their listened paths, for an array. -/
def Shifts (s : Store) (path : Path) (key : Key) (shifted : List (String × Option Slot)) : Prop :=
  match key with
  | .index i => s.listenedFrom path i = .ok shifted
  | .name _ => shifted = []

theorem delete_eq_ok {removal : Removal} (h : s.delete id k = .ok (some (removal, u))) :
    ∃ path key c old, Target s id k path key c ∧ c.get? key = some old ∧
      removal.edit = { op := .delete, location := path ++ [key], old := some old, new := none } ∧
      Shifts s path key removal.shifted ∧
      u = match key with
        | .index i => (s.eraseAt id key (path ++ [key])).reseat id path i
        | .name _ => s.eraseAt id key (path ++ [key]) := by
  unfold Store.delete at h
  obtain ⟨path, ha, h⟩ := bind_eq_ok.mp h
  obtain ⟨key, hk, h⟩ := bind_eq_ok.mp h
  obtain ⟨c, target⟩ := target_of_ok ha hk
  rw [get?_eq target.content] at h
  split at h
  · cases h
  · next old hold =>
    refine ⟨path, key, c, old, target, hold, ?_⟩
    cases key with
    | name n => cases h; exact ⟨rfl, rfl, rfl⟩
    | index i =>
      simp only at h
      split at h
      · cases h
      · next shifted hs => cases h; exact ⟨rfl, hs, rfl⟩

/-- A removal that finds nothing to remove does nothing. -/
theorem delete_eq_none (h : s.delete id k = .ok none) :
    ∃ path key c, Target s id k path key c ∧ c.get? key = none := by
  unfold Store.delete at h
  obtain ⟨path, ha, h⟩ := bind_eq_ok.mp h
  obtain ⟨key, hk, h⟩ := bind_eq_ok.mp h
  obtain ⟨c, target⟩ := target_of_ok ha hk
  rw [get?_eq target.content] at h
  split at h
  · next hold => exact ⟨path, key, c, target, hold⟩
  · cases key with
    | name n => cases h
    | index i =>
      simp only at h
      split at h <;> cases h

theorem Sound.delete_eq_ok (hs : s.Sound) {removal : Removal}
    (h : s.delete id k = .ok (some (removal, u))) :
    ∃ path key c old v, Target s id k path key c ∧ c.get? key = some old ∧
      removal.edit = { op := .delete, location := path ++ [key], old := some old, new := none } ∧
      Shifts s path key removal.shifted ∧ Removes s v u id path key c := by
  obtain ⟨path, key, c, old, target, hold, hedit, hshifts, hu⟩ := Store.delete_eq_ok h
  have formed := hs.formed_erase target
  have hid := lt_size_of_content? target.content
  have unplaced := formed.unplaced_vacate (c.get? key) (path ++ [key])
  have cleared := hs.cleared_vacate target formed (fun _ => place?_setContent)
    fun _ he => content?_setContent_of_ne he
  refine ⟨path, key, c, old, _, target, hold, hedit, hshifts, unplaced, cleared, ?_⟩
  rw [hu]
  simp only [eraseAt_eq target]
  cases key with
  | name n => exact .none _ path
  | index i =>
    have seated := (formed.unplaced unplaced).seated_reseat id i path
    have entries : ((s.setContent id (c.erase (.index i))).vacate (c.get? (.index i))
        (path ++ [.index i])).entries id = (c.erase (.index i)).entries := by
      rw [unplaced_entries unplaced, Store.entries, content?_setContent_self hid]
      rfl
    rw [entries] at seated
    exact seated

theorem Sound.delete (hs : s.Sound) {removal : Removal}
    (h : s.delete id k = .ok (some (removal, u))) : u.Sound := by
  obtain ⟨path, key, c, old, v, target, -, -, -, removes⟩ := hs.delete_eq_ok h
  exact removes.sound hs target

end LiveJson.Store

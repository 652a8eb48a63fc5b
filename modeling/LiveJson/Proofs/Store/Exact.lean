import LiveJson.Proofs.Store.Erase
import LiveJson.Proofs.Store.Load

/-! # One location for each cell

A store is exact if whatever a cell with a place holds has its place there. Then every cell of the
document is found at one location only, the one that is its place. Loading, removing and writing a
value keep a store exact. Moving a cell leaves it in the container that it comes from, so a move is
exact only if it clears the old place of the cell: if the cell was at the written location or below
it. -/

namespace LiveJson.Store

variable {s t u v : Store} {d d' e e' x id root : CellId} {path p q : Path} {j k key : Key}
  {c : Content} {slot : Slot} {incoming : Incoming} {edit : Edit}

structure Exact (s : Store) : Prop where
  held : ∀ {e q k d}, s.place? e = some q → s.Holds e k d → s.place? d = some (q ++ [k])

/-- The cell is found by following the keys of the path from the root. -/
inductive LiesAt (s : Store) : Path → CellId → Prop
  | root {d : CellId} (h : s.root = some d) : LiesAt s [] d
  | member {p : Path} {e d : CellId} {k : Key} (he : LiesAt s p e) (h : s.Holds e k d) :
      LiesAt s (p ++ [k]) d

theorem Exact.frame (h : s.Exact) (hc : t.cells = s.cells) : t.Exact := by
  obtain ⟨cells, _⟩ := t
  cases hc
  exact ⟨h.held⟩

/-- A cell lies at its place. -/
theorem Sound.liesAt (hs : s.Sound) : ∀ {p d}, s.place? d = some p → s.LiesAt p d := by
  intro p
  induction p using List.reverseRecOn with
  | nil => exact fun hd => .root (hs.rooted.mp hd)
  | append_singleton q k ih =>
    intro d hd
    obtain ⟨e, he, hk⟩ := hs.anchored hd
    exact .member (ih he) hk

/-- In an exact store a cell lies at its place only. -/
theorem Sound.exact_iff (hs : s.Sound) : s.Exact ↔ ∀ p d, s.LiesAt p d ↔ s.place? d = some p := by
  constructor
  · intro he p d
    refine ⟨fun h => ?_, hs.liesAt⟩
    induction h with
    | root h => exact hs.rooted.mpr h
    | member _ h ih => exact he.held ih h
  · exact fun h => ⟨fun {e q k d} hq hk => (h _ d).mp (.member (hs.liesAt hq) hk)⟩

theorem LiesAt.reaches (h : s.LiesAt p d) : ∃ r, s.root = some r ∧ s.Reaches r d := by
  induction h with
  | root h => exact ⟨_, h, .refl _ _⟩
  | member _ h ih =>
    obtain ⟨r, hr, hre⟩ := ih
    exact ⟨r, hr, hre.trans h.reaches⟩

theorem exists_liesAt (hr : s.root = some root) (h : s.Reaches root d) :
    ∃ p, s.LiesAt p d := by
  induction h with
  | refl => exact ⟨[], .root hr⟩
  | tail _ hp ih =>
    obtain ⟨p, hp'⟩ := ih
    obtain ⟨k, hk⟩ := hp
    exact ⟨p ++ [k], .member hp' hk⟩

/-- What lies below a cell of an exact store has its place below the place of the cell. -/
theorem Exact.place?_below (h : s.Exact) (hx : s.place? x = some p) (hr : s.Reaches x d) :
    ∃ r, s.place? d = some (p ++ r) := by
  induction hr with
  | refl => exact ⟨[], by simpa using hx⟩
  | tail _ hp ih =>
    obtain ⟨r, hr⟩ := ih
    obtain ⟨k, hk⟩ := hp
    exact ⟨r ++ [k], by rw [h.held hr hk, List.append_assoc]⟩

/-- Among the cells of an exact document, only one holds a given cell. -/
theorem Exact.holder_unique (h : s.Exact) (hs : s.Sound) (hp : s.place? e = some p)
    (hk : s.Holds e k d) (hq : s.place? e' = some q) (hj : s.Holds e' j d) : e = e' ∧ k = j := by
  have heq := Option.some.inj ((h.held hp hk).symm.trans (h.held hq hj))
  obtain ⟨rfl, hkj⟩ := List.append_inj' heq rfl
  exact ⟨hs.place_unique hp hq, (List.cons.inj hkj).1⟩

/-! ## Loading -/

theorem Loaded.exact (h : Loaded s t u root) : u.Exact := by
  refine ⟨fun {e q k d} hq hk => ?_⟩
  obtain ⟨hnew, hp⟩ := h.of_some hq
  rw [h.holds] at hk
  exact (h.kept (h.wrapped.fresh hnew ⟨k, hk⟩).1).trans (h.wrapped.exact hnew hp hk)

/-! ## Writing -/

theorem concat_eq_of_prefix (h : path ++ [key] <+: q ++ [k]) (hn : ¬ path ++ [key] <+: q) :
    q = path ∧ k = key := by
  rcases List.prefix_concat_iff.mp h with h | h
  · obtain ⟨rfl, hk⟩ := List.append_inj' h rfl
    exact ⟨rfl, (List.cons.inj hk).1.symm⟩
  · exact absurd h hn

/-- What is written must leave the rest of the document exact. -/
theorem Landed.exact (h : Landed s t id path key slot) (hs : s.Sound)
    (target : Target s id k path key c) (hr : InRange c key)
    (rest : ∀ {e q j d}, (e, j) ≠ (id, key) → t.place? e = some q → t.Holds e j d →
      t.place? d = some (q ++ [j])) : (t.setContent id (c.insert key slot)).Exact := by
  refine ⟨fun {e q j d} hq hj => ?_⟩
  rw [place?_setContent] at hq ⊢
  rcases (h.holds_iff (hs.wellFormed target.content) target hr).mp hj with
    ⟨rfl, rfl, hslot⟩ | ⟨hne, hj⟩
  · have hplace := h.above (.refl _ _) target.place not_concat_prefix
    obtain rfl := Option.some.inj (hq.symm.trans hplace)
    exact (h.arrived hslot).1
  · exact rest hne hq hj

/-- Away from the written key, a cell that keeps its place keeps all it holds. -/
theorem Exact.not_under (he : s.Exact) (hs : s.Sound) (hid : s.place? id = some path)
    (hne : (e, j) ≠ (id, key)) (hq : s.place? e = some q) (hj : s.Holds e j d)
    (hout : ¬ path ++ [key] <+: q) :
    s.place? d = some (q ++ [j]) ∧ ¬ path ++ [key] <+: q ++ [j] := by
  refine ⟨he.held hq hj, fun hl => hne ?_⟩
  obtain ⟨rfl, rfl⟩ := concat_eq_of_prefix hl hout
  rw [hs.place_unique hq hid]

theorem Vacant.exact_copy (h : Vacant s t (path ++ [key])) (hs : s.Sound) (he : s.Exact)
    (target : Target s id k path key c) (hw : Wrapped t u [(path ++ [key], slot)])
    (hne : (e, j) ≠ (id, key)) (hq : u.place? e = some q) (hj : u.Holds e j d) :
    u.place? d = some (q ++ [j]) := by
  by_cases hlt : e < t.cells.size
  · obtain ⟨hold, hout⟩ := h.cleared.of_some (hw.grown.place? hlt ▸ hq)
    rw [hw.grown.holds hlt, unplaced_holds h.unplaced] at hj
    obtain ⟨hd, hout⟩ := he.not_under hs target.place hne hold hj hout
    exact hw.grown.place?_of_some (h.cleared.place? hd hout)
  · exact hw.exact (Nat.le_of_not_lt hlt) hq hj

theorem Vacant.exact_move (h : Vacant s t (path ++ [key])) (hs : s.Sound) (he : s.Exact)
    (target : Target s id k path key c) (hx : s.place? x = some p) (hp : path ++ [key] <+: p)
    (hm : Seated t u path [(key, .cell x)]) (hne : (e, j) ≠ (id, key))
    (hq : u.place? e = some q) (hj : u.Holds e j d) : u.place? d = some (q ++ [j]) := by
  have below : ∀ {d}, t.Spans [(key, .cell x)] d ↔ s.Reaches x d := by
    intro d; rw [spans_singleton, unplaced_reaches h.unplaced]
  have under : ∀ {d}, t.Spans [(key, .cell x)] d → ∃ r, s.place? d = some (p ++ r) :=
    fun hd => he.place?_below hx (below.mp hd)
  rw [unplaced_holds (hm.unplaced.trans h.unplaced)] at hj
  by_cases hspan : t.Spans [(key, .cell x)] e
  · obtain ⟨r, hr⟩ := under hspan
    have hd : t.Spans [(key, .cell x)] d := below.mpr ((below.mp hspan).trans hj.reaches)
    rcases hm.inside d hd with ⟨i, hi, -⟩ | ⟨e', i, q', he', hi, hq', hp'⟩
    · obtain ⟨-, hslot⟩ := Prod.mk.inj (List.mem_singleton.mp hi)
      exact absurd (Slot.cell.inj hslot ▸ below.mp hspan) (hs.acyclic.not_reaches ⟨j, hj⟩)
    · obtain ⟨r', hr'⟩ := under he'
      rw [unplaced_holds h.unplaced] at hi
      obtain ⟨rfl, rfl⟩ := he.holder_unique hs hr hj hr' hi
      rw [hp', Option.some.inj (hq'.symm.trans hq)]
  · obtain ⟨hold, hout⟩ := h.cleared.of_some (hm.outside e hspan ▸ hq)
    obtain ⟨hd, hout⟩ := he.not_under hs target.place hne hold hj hout
    refine (hm.outside d fun hd' => hout ?_).trans (h.cleared.place? hd hout)
    obtain ⟨r, hr⟩ := under hd'
    rw [Option.some.inj (hd.symm.trans hr)]
    exact hp.trans (List.prefix_append _ _)

/-- A cell that moves from outside the written location is still held where it was. -/
theorem Vacant.stray_move (h : Vacant s t (path ++ [key])) (hs : s.Sound)
    (target : Target s id k path key c) (hr : InRange c key) (hx : s.place? x = some p)
    (hp : ¬ path ++ [key] <+: p) (hxid : ¬ s.Reaches x id)
    (hm : Seated t u path [(key, .cell x)]) :
    (u.setContent id (c.insert key (.cell x))).LiesAt p x := by
  have landed := h.move hs hxid hm
  have sound := landed.sound hs target hr
  rcases List.eq_nil_or_concat' p with rfl | ⟨q, j, rfl⟩
  · obtain ⟨r, hr, hreach⟩ := hs.reaches_root target.place
    exact absurd (Option.some.inj ((hs.rooted.mp hx).symm.trans hr) ▸ hreach) hxid
  · obtain ⟨e, hq, hj⟩ := hs.anchored hx
    have hspan : ¬ t.Spans [(key, .cell x)] e := by
      rw [spans_singleton, unplaced_reaches h.unplaced]
      exact hs.acyclic.not_reaches ⟨j, hj⟩
    have hne : (e, j) ≠ (id, key) := by
      intro heq
      obtain ⟨rfl, rfl⟩ := Prod.mk.inj heq
      obtain rfl := Option.some.inj (hq.symm.trans target.place)
      exact hp (List.prefix_refl _)
    have hqt := (hm.outside e hspan).trans (h.cleared.place? hq (not_prefix_of_concat hp))
    refine .member (sound.liesAt (place?_setContent.trans hqt)) ?_
    refine (landed.holds_iff (hs.wellFormed target.content) target hr).mpr (Or.inr ⟨hne, ?_⟩)
    rwa [unplaced_holds (hm.unplaced.trans h.unplaced)]

theorem Exact.set_copy (he : s.Exact) (hs : s.Sound) {value : Json} (hv : value.WellFormed)
    (h : s.set id k (.copy value) = .ok (edit, u)) : u.Exact := by
  have legal : s.Legal (.copy value) := hv
  obtain ⟨path, key, c, slot, v, t, target, hr, lands, -, rfl⟩ := hs.set_eq_ok legal h
  have landed := lands.landed hs target
  cases lands with
  | copy vacant wellFormed wrap =>
    have hw := wrapped_wrap (path ++ [key]) value v wellFormed
    rw [wrap] at hw
    exact landed.exact hs target hr fun hne hq hj => vacant.exact_copy hs he target hw hne hq hj

/-- **Moving a cell keeps one location for each cell exactly when the cell was at the location that
is written or below it.** -/
theorem Exact.set_move_iff (he : s.Exact) (hs : s.Sound) (hx : s.place? x = some p)
    (h : s.set id k (.move x) = .ok (edit, u)) : u.Exact ↔ edit.location <+: p := by
  have legal : s.Legal (.move x) := ⟨p, hx⟩
  have sound := hs.set legal h
  obtain ⟨path, key, c, slot, v, t, target, hr, lands, rfl, rfl⟩ := hs.set_eq_ok legal h
  have landed := lands.landed hs target
  cases lands with
  | move vacant clear seated =>
    constructor
    · intro hu
      by_contra hp
      have hstray := vacant.stray_move hs target hr hx hp clear seated
      have hplace := (sound.exact_iff.mp hu _ _).mp hstray
      rw [place?_setContent, (landed.arrived rfl).1] at hplace
      exact hp (Option.some.inj hplace ▸ List.prefix_refl _)
    · intro hp
      exact landed.exact hs target hr fun hne hq hj =>
        vacant.exact_move hs he target hx hp seated hne hq hj

/-! ## Removing -/

/-- Two keys that moved up with one cell are the same key. -/
theorem Exact.shifted_unique (he : s.Exact) (target : Target s id k path key c) {i : Key}
    (hi : (i, .cell d) ∈ c.shifted key) (hj : (j, .cell d) ∈ c.shifted key) : i = j := by
  cases key with
  | name n => cases hi
  | index start =>
    obtain ⟨m, -, rfl, hm⟩ := (Content.mem_shifted_index target.fits).mp hi
    obtain ⟨n, -, rfl, hn⟩ := (Content.mem_shifted_index target.fits).mp hj
    have hm := he.held target.place (Store.holds_iff.mpr ⟨c, target.content, hm⟩)
    have hn := he.held target.place (Store.holds_iff.mpr ⟨c, target.content, hn⟩)
    obtain ⟨-, h⟩ := List.append_inj' (Option.some.inj (hm.symm.trans hn)) rfl
    have := Key.index.inj (List.cons.inj h).1
    rw [Nat.succ.inj this]

/-- What a cell holds after a removal it held before at the same key, or it has moved up. -/
theorem Removes.held (h : Removes s v u id path key c) (hs : s.Sound)
    (target : Target s id k path key c) (hj : u.Holds e j d) :
    (s.Holds e j d ∧ (e = id → Content.Stays key j)) ∨
      (e = id ∧ (j, .cell d) ∈ c.shifted key) := by
  by_cases he : e = id
  · subst he
    rw [h.holds_self target,
      Content.mem_erase_iff (hs.wellFormed target.content) target.fits] at hj
    rcases hj with hm | ⟨hstay, hm⟩
    · exact Or.inr ⟨rfl, hm⟩
    · exact Or.inl ⟨Store.holds_iff.mpr ⟨c, target.content, hm⟩, fun _ => hstay⟩
  · exact Or.inl ⟨(h.holds_of_ne he).mp hj, fun heq => absurd heq he⟩

/-- A cell that moves up was held at a key that does not stay. -/
theorem Removes.held_shifted (target : Target s id k path key c)
    (hj : (j, .cell d) ∈ c.shifted key) : ∃ i, ¬ Content.Stays key i ∧ s.Holds id i d := by
  obtain ⟨i, -, hni, hi⟩ := Content.exists_of_mem_shifted target.fits hj
  exact ⟨i, hni, Store.holds_iff.mpr ⟨c, target.content, hi⟩⟩

theorem Removes.placed (h : Removes s v u id path key c) (hs : s.Sound) (he : s.Exact)
    (target : Target s id k path key c) (hd : v.Spans (c.shifted key) d) :
    ∃ p, s.place? d = some p := by
  obtain ⟨j, m, hm, hr⟩ := hd
  obtain ⟨i, -, hi⟩ := Removes.held_shifted target hm
  obtain ⟨r, hr⟩ := he.place?_below (he.held target.place hi) (h.reaches hs target hr)
  exact ⟨_, hr⟩

theorem Removes.exact (h : Removes s v u id path key c) (hs : s.Sound) (he : s.Exact)
    (target : Target s id k path key c) : u.Exact := by
  refine ⟨fun {e q j d} hq hj => ?_⟩
  have hep : ∃ p, s.place? e = some p := by
    by_cases hspan : v.Spans (c.shifted key) e
    · exact h.placed hs he target hspan
    · exact ⟨q, (h.cleared.of_some (h.seated.outside e hspan ▸ hq)).1⟩
  obtain ⟨p, hp⟩ := hep
  by_cases hspan : v.Spans (c.shifted key) d
  · rcases h.seated.inside d hspan with ⟨i, hi, hd⟩ | ⟨e', i, q', he', hi, hq', hd⟩
    · rcases h.held hs target hj with ⟨hold, hstay⟩ | ⟨rfl, hjs⟩
      · -- held twice, at a key that stays and at one that moves up
        obtain ⟨i, hni, hi⟩ := Removes.held_shifted target hi
        obtain ⟨rfl, rfl⟩ := he.holder_unique hs hp hold target.place hi
        exact absurd (hstay rfl) hni
      · rw [Option.some.inj (hq.symm.trans (h.place_self hs target)),
          he.shifted_unique target hjs hi]
        exact hd
    · obtain ⟨p', hp'⟩ := h.placed hs he target he'
      have hne : e' ≠ id := fun heq => h.not_spans hs target (.refl _ _) (heq ▸ he')
      rw [← unplaced_holds h.seated.unplaced, h.holds_of_ne hne] at hi
      rcases h.held hs target hj with ⟨hold, -⟩ | ⟨rfl, hjs⟩
      · obtain ⟨rfl, rfl⟩ := he.holder_unique hs hp hold hp' hi
        rw [hd, Option.some.inj (hq.symm.trans hq')]
      · obtain ⟨i', -, hi'⟩ := Removes.held_shifted target hjs
        exact absurd (he.holder_unique hs hp' hi hp hi').1 hne
  · rcases h.held hs target hj with ⟨hold, hstay⟩ | ⟨rfl, hjs⟩
    · have hne : (e, j) ≠ (id, key) := by
        intro heq
        obtain ⟨rfl, rfl⟩ := Prod.mk.inj heq
        exact Content.not_stays_self (hstay rfl)
      have hespan : ¬ v.Spans (c.shifted key) e := by
        by_cases heq : e = id
        · exact heq ▸ h.not_spans hs target (.refl _ _)
        · exact h.not_spans_of_holds hold heq hspan
      obtain ⟨hqs, hout⟩ := h.cleared.of_some (h.seated.outside e hespan ▸ hq)
      obtain ⟨hds, hout⟩ := he.not_under hs target.place hne hqs hold hout
      exact (h.seated.outside d hspan).trans (h.cleared.place? hds hout)
    · exact absurd ⟨j, d, hjs, .refl _ _⟩ hspan

end LiveJson.Store

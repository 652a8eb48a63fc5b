import LiveJson.Proofs.Store.Clear
import LiveJson.Proofs.Store.Relocate
import LiveJson.Proofs.Store.Wrap

/-! # Writing at a key of a cell

What is written lands at a cleared location: a value as new cells, a cell that moves with all that
lies below it. Either way the places that are left are sound, and the only cell whose content
changes is the one that is written to. -/

namespace LiveJson.Store

variable {s t u : Store} {d e x id : CellId} {path : Path} {k key : Key} {c : Content}
  {slot : Slot} {incoming : Incoming} {edit : Edit}

/-! ## What a successful write does -/

/-- The cell is part of the document at `path`, and `key` is `k` in the form of its keys. -/
structure Target (s : Store) (id : CellId) (k : Key) (path : Path) (key : Key) (c : Content) :
    Prop where
  alive : s.alive = true
  place : s.place? id = some path
  content : s.content? id = some c
  normal : s.normalize id k = .ok key
  fits : c.Fits key

theorem isArray_eq (h : s.content? id = some c) : s.isArray id = c.isArray := by
  simp [isArray, h]

theorem length_eq (h : s.content? id = some c) : s.length id = c.length := by
  simp [length, h]

theorem get?_eq (h : s.content? id = some c) : s.get? id k = c.get? k := by
  simp [Store.get?, h]

theorem attached_eq_ok (h : s.attached id = .ok path) :
    s.alive = true ∧ s.place? id = some path := by
  unfold attached at h
  split at h
  · next ha =>
    split at h
    · next hp => cases h; exact ⟨ha, hp⟩
    · cases h
  · cases h

theorem fits_of_normalize (hc : s.content? id = some c) (h : s.normalize id k = .ok key) :
    c.Fits key := by
  unfold normalize at h
  rw [isArray_eq hc] at h
  split at h
  · next ha =>
    cases c with
    | object members => cases ha
    | array items =>
      split at h
      · cases h; trivial
      · cases h
  · next ha =>
    cases h
    cases c with
    | object members => trivial
    | array items => exact absurd rfl ha

theorem content?_of_place? (h : s.place? id = some path) : ∃ c, s.content? id = some c := by
  cases hc : s.content? id with
  | some c => exact ⟨c, rfl⟩
  | none => exact absurd (lt_size_of_place? h) (Nat.not_lt.mpr (content?_eq_none_iff.mp hc))

/-- The location that a key of a cell has, in the form of the keys of the cell. -/
def keyAt (s : Store) (id : CellId) (k : Key) : Except StoreError Path := do
  let path ← s.attached id
  let key ← s.normalize id k
  return path ++ [key]

theorem attached_of_place? (ha : s.alive = true) (h : s.place? id = some path) :
    s.attached id = .ok path := by
  simp [attached, ha, h]

theorem Target.keyAt (target : Target s id k path key c) : s.keyAt id k = .ok (path ++ [key]) := by
  rw [Store.keyAt, attached_of_place? target.alive target.place, target.normal]
  rfl

theorem Target.key_eq_name (target : Target s id k path key c) (h : s.isArray id = false) :
    key = .name k.toName := by
  have hnormal := target.normal
  rw [normalize, h] at hnormal
  cases hnormal
  rfl

theorem target_of_ok (ha : s.attached id = .ok path) (hk : s.normalize id k = .ok key) :
    ∃ c, Target s id k path key c := by
  obtain ⟨halive, hplace⟩ := attached_eq_ok ha
  obtain ⟨c, hc⟩ := content?_of_place? hplace
  exact ⟨c, halive, hplace, hc, hk, fits_of_normalize hc hk⟩

/-- The store with the location of `old` cleared. -/
def vacate (s : Store) (old : Option Slot) (location : Path) : Store :=
  match old with
  | some slot => s.forgetSlot slot location
  | none => s

/-- The key is a name or at most one past the end. -/
def InRange (c : Content) (key : Key) : Prop := ∀ i, key = .index i → i ≤ c.length

theorem set_eq_ok (h : s.set id k incoming = .ok (edit, u)) :
    ∃ path key c, Target s id k path key c ∧ InRange c key ∧ s.isCyclic id incoming = false ∧
      ∃ slot t, (s.vacate (c.get? key) (path ++ [key])).place (path ++ [key]) incoming = (slot, t) ∧
        edit = { op := .set, location := path ++ [key], old := c.get? key, new := some slot } ∧
        (t.content? id = some c → u = t.setContent id (c.insert key slot)) := by
  unfold Store.set at h
  obtain ⟨path, ha, h⟩ := bind_eq_ok.mp h
  obtain ⟨key, hk, h⟩ := bind_eq_ok.mp h
  obtain ⟨c, target⟩ := target_of_ok ha hk
  split at h
  · cases h
  next hb =>
  split at h
  · cases h
  next hcyc =>
  refine ⟨path, key, c, target, ?_, by simpa using hcyc, ?_⟩
  · intro i heq
    subst heq
    simp only [isBeyond, length_eq target.content, decide_eq_true_eq, Nat.not_lt] at hb
    exact hb
  · rw [get?_eq target.content] at h
    cases h
    refine ⟨_, _, rfl, rfl, fun hc => ?_⟩
    split
    · next hc' => cases hc'.symm.trans hc; rfl
    · next hc' => cases hc'.symm.trans hc

theorem Target.isBeyond_eq (target : Target s id k path key c) (hr : InRange c key) :
    s.isBeyond id key = false := by
  cases key with
  | name n => rfl
  | index i =>
    rw [isBeyond, length_eq target.content]
    exact decide_eq_false (Nat.not_lt.mpr (hr i rfl))

/-- At a key that can be written, only a cycle keeps a write from happening. -/
theorem Target.set_of_cyclic (target : Target s id k path key c) (hr : InRange c key)
    (h : s.isCyclic id incoming = true) :
    s.set id k incoming = .error (.cycle (path ++ [key]).toText) := by
  rw [Store.set, attached_of_place? target.alive target.place]
  dsimp only [bind, Except.bind]
  rw [target.normal]
  dsimp only
  rw [target.isBeyond_eq hr, h]
  rfl

theorem Target.exists_set (target : Target s id k path key c) (hr : InRange c key)
    (h : s.isCyclic id incoming = false) : ∃ edit t, s.set id k incoming = .ok (edit, t) := by
  rw [Store.set, attached_of_place? target.alive target.place]
  dsimp only [bind, Except.bind]
  rw [target.normal]
  dsimp only
  rw [target.isBeyond_eq hr, h]
  exact ⟨_, _, rfl⟩

/-! ## What is written lands -/

theorem Formed.unplaced_vacate (hs : s.Formed) (old : Option Slot) (location : Path) :
    (s.vacate old location).unplaced = s.unplaced := by
  match old with
  | none => rfl
  | some (.scalar _) => rfl
  | some (.cell x) => exact (hs.forgot x location).unplaced

/-- Forgetting what a key held clears the location of the key, also when the key is gone from the
content by then. -/
theorem Sound.cleared_vacate (hs : s.Sound) (target : Target s id k path key c) (ht : t.Formed)
    (hplace : ∀ d, t.place? d = s.place? d) (hcontent : ∀ e, e ≠ id → t.content? e = s.content? e) :
    Cleared s (t.vacate (c.get? key) (path ++ [key])) (path ++ [key]) := by
  by_cases hx : ∃ x, s.place? x = some (path ++ [key])
  · obtain ⟨x, hx⟩ := hx
    obtain ⟨e, he, hk⟩ := hs.anchored hx
    obtain rfl := hs.place_unique he target.place
    have hget := hs.get?_of_holds hk
    rw [get?_eq target.content] at hget
    rw [hget]
    refine hs.cleared_forget ht hplace hx fun b hb => hcontent b ?_
    intro heq
    subst heq
    exact hs.acyclic.not_reaches ⟨key, hk⟩ hb
  · have hv : ∀ d, ¬ s.Under (path ++ [key]) d := fun d hd =>
      hx ((hs.chain_of_under hd).imp fun _ h => h.1)
    refine .of_vacant (fun d => ?_) hv
    match c.get? key with
    | none => exact hplace d
    | some (.scalar _) => exact hplace d
    | some (.cell x) =>
      rcases (ht.forgot x (path ++ [key])).place d with h | ⟨-, ⟨p, hp, hl⟩, -⟩
      · exact h.trans (hplace d)
      · exact absurd ⟨p, hplace d ▸ hp, hl⟩ (hv d)

/-- What is written to `key` of the cell at `path` is in its place, and the cell is still to take
it up: each cell with a place has kept it, with the cell that holds it there, or is what is written,
or is held by another cell where it now is. -/
structure Landed (s t : Store) (id : CellId) (path : Path) (key : Key) (slot : Slot) : Prop where
  formed : t.Formed
  root : t.root = s.root
  content? : ∀ {d}, d < s.cells.size → t.content? d = s.content? d
  wellFormed : slot.WellFormed
  arrived : ∀ {x}, slot = .cell x → t.place? x = some (path ++ [key]) ∧ ¬ t.Reaches x id
  above : ∀ {d p}, s.Reaches d id → s.place? d = some p → ¬ path ++ [key] <+: p →
    t.place? d = some p
  cells : ∀ {d p}, t.place? d = some p →
    (s.place? d = some p ∧ ¬ path ++ [key] <+: p ∧ ∀ {e q k}, p = q ++ [k] → s.place? e = some q →
      s.Holds e k d → t.place? e = some q) ∨
    (p = path ++ [key] ∧ slot = .cell d) ∨
    ∃ e q k, e ≠ id ∧ p = q ++ [k] ∧ t.place? e = some q ∧ t.Holds e k d

theorem not_prefix_of_concat {p q : Path} (h : ¬ p <+: q ++ [k]) : ¬ p <+: q :=
  fun hp => h (hp.trans (List.prefix_append _ _))

theorem not_concat_prefix : ¬ path ++ [key] <+: path := by
  intro h
  have hl := h.length_le
  rw [List.length_append, List.length_singleton] at hl
  omega

/-- What the written cell holds in the end. -/
theorem Landed.holds_iff (h : Landed s t id path key slot) (hc : c.WellFormed)
    (target : Target s id k path key c) (hr : InRange c key) {j : Key} :
    (t.setContent id (c.insert key slot)).Holds e j d ↔
      (e = id ∧ j = key ∧ slot = .cell d) ∨ ((e, j) ≠ (id, key) ∧ t.Holds e j d) := by
  have hid := lt_size_of_content? target.content
  have hct := (h.content? hid).trans target.content
  by_cases he : e = id
  · subst he
    rw [Store.holds_iff, content?_setContent_self (lt_size_of_content? hct), Store.holds_iff, hct]
    simp only [Option.some.injEq, exists_eq_left', Content.mem_entries_insert hc target.fits hr]
    simp [eq_comm]
  · rw [holds_congr (content?_setContent_of_ne he)]
    simp [he]

theorem Landed.sound (h : Landed s t id path key slot) (hs : s.Sound)
    (target : Target s id k path key c) (hr : InRange c key) :
    (t.setContent id (c.insert key slot)).Sound := by
  have hc := hs.wellFormed target.content
  have hid := lt_size_of_content? target.content
  have hct := (h.content? hid).trans target.content
  have formed : (t.setContent id (c.insert key slot)).Formed := by
    refine h.formed.setContent (hc.insert h.wellFormed) fun {j d} hm => ?_
    rcases (Content.mem_entries_insert hc target.fits hr).mp hm with ⟨-, hslot⟩ | ⟨-, hold⟩
    · obtain ⟨hp, hn⟩ := h.arrived hslot.symm
      exact ⟨lt_size_of_place? hp, hn⟩
    · have hp : t.Parent id d := ⟨j, Store.holds_iff.mpr ⟨c, hct, hold⟩⟩
      exact ⟨h.formed.closed hp, h.formed.acyclic.not_reaches hp⟩
  have hplace := h.above (.refl _ _) target.place not_concat_prefix
  refine hs.rebuild formed h.root (fun {r} hroot => ?_) (fun {d p} hd => ?_)
  · obtain ⟨r', hr', hreach⟩ := hs.reaches_root target.place
    obtain rfl := Option.some.inj ((hs.rooted.mp hroot).symm.trans hr')
    rw [place?_setContent]
    exact h.above hreach hroot (by simp)
  · simp only [place?_setContent, h.holds_iff hc target hr] at hd ⊢
    rcases h.cells hd with ⟨hold, hout, keep⟩ | ⟨rfl, hslot⟩ | ⟨e, q, j, he, rfl, hq, hk⟩
    · refine Or.inl ⟨hold, ?_⟩
      intro e q j heq hq hk
      subst heq
      refine ⟨keep rfl hq hk, Or.inr ⟨?_, (holds_congr (h.content? hk.lt_size)).mpr hk⟩⟩
      intro h
      obtain ⟨rfl, rfl⟩ := h
      obtain rfl := Option.some.inj (hq.symm.trans target.place)
      exact hout (List.prefix_refl _)
    · exact Or.inr ⟨id, path, key, rfl, hplace, Or.inl ⟨rfl, rfl, hslot⟩⟩
    · exact Or.inr ⟨e, q, j, rfl, hq, Or.inr ⟨by simp [he], hk⟩⟩

/-- The store that a write starts from: `s` with the location cleared. -/
structure Vacant (s v : Store) (location : Path) : Prop where
  unplaced : v.unplaced = s.unplaced
  cleared : Cleared s v location

theorem Sound.vacant (hs : s.Sound) (target : Target s id k path key c) :
    Vacant s (s.vacate (c.get? key) (path ++ [key])) (path ++ [key]) where
  unplaced := hs.unplaced_vacate _ _
  cleared := hs.cleared_vacate target hs.toFormed (fun _ => rfl) fun _ _ => rfl

theorem Vacant.copy (h : Vacant s t (path ++ [key])) (hs : s.Sound)
    (target : Target s id k path key c) (hw : Wrapped t u [(path ++ [key], slot)]) :
    Landed s u id path key slot where
  formed := hw.formed (hs.toFormed.unplaced h.unplaced)
  root := (show u.root = t.root by rw [hw.grown.rest]).trans (unplaced_root h.unplaced)
  content? hd := (hw.grown.content? (unplaced_size h.unplaced ▸ hd)).trans
    (unplaced_content? h.unplaced)
  wellFormed := (hw.slot (List.mem_singleton.mpr rfl)).1
  arrived {x} hx := by
    obtain ⟨hnew, hp⟩ := (hw.slot (List.mem_singleton.mpr rfl)).2 x hx
    refine ⟨hp, fun hr => ?_⟩
    exact absurd (lt_size_of_place? target.place)
      (Nat.not_lt.mpr (unplaced_size h.unplaced ▸ hw.reaches_new hnew hr))
  above _ hd hp := hw.grown.place?_of_some (h.cleared.place? hd hp)
  cells {d p} hd := by
    by_cases hlt : d < t.cells.size
    · obtain ⟨hold, hout⟩ := h.cleared.of_some (hw.grown.place? hlt ▸ hd)
      refine Or.inl ⟨hold, hout, ?_⟩
      intro e q j heq hq _
      subst heq
      exact hw.grown.place?_of_some (h.cleared.place? hq (not_prefix_of_concat hout))
    · refine Or.inr ?_
      rcases hw.held (Nat.le_of_not_lt hlt) (lt_size_of_place? hd) with
        ⟨p', hm⟩ | ⟨e, j, q, he, hk, hq, hp⟩
      · obtain ⟨rfl, hslot⟩ := Prod.mk.inj (List.mem_singleton.mp hm)
        obtain ⟨-, hp⟩ := (hw.slot hm).2 d rfl
        exact Or.inl ⟨Option.some.inj (hd.symm.trans hp), hslot.symm⟩
      · refine Or.inr ⟨e, q, j, ?_, Option.some.inj (hd.symm.trans hp), hq, hk⟩
        intro heq
        subst heq
        exact absurd (lt_size_of_place? target.place)
          (Nat.not_lt.mpr (unplaced_size h.unplaced ▸ he))

theorem spans_singleton : s.Spans [(k, .cell x)] d ↔ s.Reaches x d := by
  constructor
  · intro h
    obtain ⟨j, y, hm, hr⟩ := h
    obtain ⟨-, he⟩ := Prod.mk.inj (List.mem_singleton.mp hm)
    exact Slot.cell.inj he ▸ hr
  · exact fun hr => ⟨k, x, List.mem_singleton.mpr rfl, hr⟩

theorem Vacant.move (h : Vacant s t (path ++ [key])) (hs : s.Sound) (hx : ¬ s.Reaches x id)
    (hm : Seated t u path [(key, .cell x)]) : Landed s u id path key (.cell x) where
  formed := hs.toFormed.unplaced (hm.unplaced.trans h.unplaced)
  root := unplaced_root (hm.unplaced.trans h.unplaced)
  content? _ := unplaced_content? (hm.unplaced.trans h.unplaced)
  wellFormed := trivial
  arrived {y} hy := by
    cases hy
    rw [unplaced_reaches (hm.unplaced.trans h.unplaced)]
    refine ⟨?_, hx⟩
    rcases hm.inside x (spans_singleton.mpr (.refl _ _)) with ⟨j, hj, hp⟩ | ⟨e, j, q, he, hk, -, -⟩
    · obtain ⟨rfl, -⟩ := Prod.mk.inj (List.mem_singleton.mp hj)
      exact hp
    · rw [spans_singleton, unplaced_reaches h.unplaced] at he
      rw [unplaced_holds h.unplaced] at hk
      exact absurd he (hs.acyclic.not_reaches ⟨j, hk⟩)
  above {d p} hd hdp hp := by
    refine (hm.outside d fun hspan => ?_).trans (h.cleared.place? hdp hp)
    rw [spans_singleton, unplaced_reaches h.unplaced] at hspan
    exact hx (hspan.trans hd)
  cells {d p} hd := by
    by_cases hspan : t.Spans [(key, .cell x)] d
    · refine Or.inr ?_
      rcases hm.inside d hspan with ⟨j, hj, hp⟩ | ⟨e, j, q, he, hk, hq, hp⟩
      · obtain ⟨rfl, hslot⟩ := Prod.mk.inj (List.mem_singleton.mp hj)
        exact Or.inl ⟨Option.some.inj (hd.symm.trans hp), hslot.symm⟩
      · rw [spans_singleton, unplaced_reaches h.unplaced] at he
        refine Or.inr ⟨e, q, j, fun h => hx (h ▸ he), Option.some.inj (hd.symm.trans hp), hq, ?_⟩
        rwa [unplaced_holds hm.unplaced]
    · obtain ⟨hold, hout⟩ := h.cleared.of_some (hm.outside d hspan ▸ hd)
      refine Or.inl ⟨hold, hout, ?_⟩
      intro e q j heq hq hk
      subst heq
      rw [← unplaced_holds h.unplaced] at hk
      exact (hm.outside e fun he => hspan (he.holds hk)).trans
        (h.cleared.place? hq (not_prefix_of_concat hout))

/-! ## Writing keeps the places sound -/

/-- A cell that moves is part of the document, and a value that is copied has no name twice. -/
def Legal (s : Store) : Incoming → Prop
  | .move x => ∃ p, s.place? x = some p
  | .copy v => v.WellFormed

/-- How what is written comes to its cleared location: `v` is `s` with the location cleared, and `t`
is `v` with `slot` in its place. -/
inductive Lands (s v t : Store) (id : CellId) (path : Path) (key : Key) : Incoming → Slot → Prop
  | move {x : CellId} (vacant : Vacant s v (path ++ [key])) (clear : ¬ s.Reaches x id)
      (seated : Seated v t path [(key, .cell x)]) : Lands s v t id path key (.move x) (.cell x)
  | copy {value : Json} {slot : Slot} (vacant : Vacant s v (path ++ [key]))
      (wellFormed : value.WellFormed) (wrap : v.wrap (path ++ [key]) value = (slot, t)) :
      Lands s v t id path key (.copy value) slot

theorem Lands.landed {v : Store} (h : Lands s v t id path key incoming slot) (hs : s.Sound)
    (target : Target s id k path key c) : Landed s t id path key slot := by
  cases h with
  | move vacant clear seated => exact vacant.move hs clear seated
  | @copy value _ vacant wellFormed wrap =>
    have hw := wrapped_wrap (path ++ [key]) value v wellFormed
    rw [wrap] at hw
    exact vacant.copy hs target hw

theorem Sound.set_eq_ok (hs : s.Sound) (hl : s.Legal incoming)
    (h : s.set id k incoming = .ok (edit, u)) :
    ∃ path key c slot v t, Target s id k path key c ∧ InRange c key ∧
      Lands s v t id path key incoming slot ∧
      edit = { op := .set, location := path ++ [key], old := c.get? key, new := some slot } ∧
      u = t.setContent id (c.insert key slot) := by
  obtain ⟨path, key, c, target, hr, hcyc, slot, t, hplace, hedit, hu⟩ := Store.set_eq_ok h
  have vacant := hs.vacant target
  have lands : Lands s (s.vacate (c.get? key) (path ++ [key])) t id path key incoming slot := by
    cases incoming with
    | move x =>
      obtain ⟨p, hp⟩ := hl
      have hx : ¬ s.Reaches x id := by
        rw [← hs.contains_iff]
        simpa [isCyclic] using hcyc
      have hlt : x < (s.vacate (c.get? key) (path ++ [key])).cells.size :=
        unplaced_size vacant.unplaced ▸ lt_size_of_place? hp
      have hseated := (hs.toFormed.unplaced vacant.unplaced).seated_relocate hlt path key
      obtain ⟨rfl, rfl⟩ := Prod.mk.inj hplace
      exact .move vacant hx hseated
    | copy v => exact .copy vacant hl hplace
  have hct := ((lands.landed hs target).content? (lt_size_of_content? target.content)).trans
    target.content
  exact ⟨path, key, c, slot, _, t, target, hr, lands, hedit, hu hct⟩

theorem Sound.set (hs : s.Sound) (hl : s.Legal incoming)
    (h : s.set id k incoming = .ok (edit, u)) : u.Sound := by
  obtain ⟨path, key, c, slot, v, t, target, hr, lands, -, rfl⟩ := hs.set_eq_ok hl h
  exact (lands.landed hs target).sound hs target hr

end LiveJson.Store

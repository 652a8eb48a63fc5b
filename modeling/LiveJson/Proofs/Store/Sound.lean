import LiveJson.Proofs.Store.Forget
import Mathlib.Data.List.Induction

/-! # Places that lead to their cells

A place is sound when following it from the root arrives at its cell and each stop on the way has
the place walked so far. This comes down to the last key: the cell at the empty place is the root,
and a cell one key behind a place is held there by a cell that has that place. -/

namespace LiveJson.Store

variable {s t : Store} {d e id : CellId} {p q location : Path} {k : Key}

structure Sound (s : Store) : Prop extends Formed s where
  rooted : ∀ {d}, s.place? d = some [] ↔ s.root = some d
  anchored : ∀ {d q k}, s.place? d = some (q ++ [k]) → ∃ e, s.place? e = some q ∧ s.Holds e k d

/-- No two cells have one place. -/
theorem Sound.place_unique (hs : s.Sound) : ∀ {p d e}, s.place? d = some p → s.place? e = some p →
    d = e := by
  intro p
  induction p using List.reverseRecOn with
  | nil =>
    intro d e hd he
    have hd := hs.rooted.mp hd
    rw [hs.rooted.mp he] at hd
    exact (Option.some.inj hd).symm
  | append_singleton q k ih =>
    intro d e hd he
    obtain ⟨c, hc, hcd⟩ := hs.anchored hd
    obtain ⟨c', hc', hce⟩ := hs.anchored he
    rw [ih hc' hc] at hce
    exact hs.holds_unique hcd hce

theorem Sound.reaches_root (hs : s.Sound) : ∀ {p d}, s.place? d = some p →
    ∃ r, s.root = some r ∧ s.Reaches r d := by
  intro p
  induction p using List.reverseRecOn with
  | nil => exact fun hd => ⟨_, hs.rooted.mp hd, .refl _ _⟩
  | append_singleton q k ih =>
    intro d hd
    obtain ⟨e, he, hk⟩ := hs.anchored hd
    obtain ⟨r, hr, hre⟩ := ih he
    exact ⟨r, hr, hre.trans hk.reaches⟩

/-- A cell at a location or below it hangs from the cell at the location, by cells that are all at
the location or below it. -/
theorem Sound.chain (hs : s.Sound) (r : Path) : ∀ {d}, s.place? d = some (location ++ r) →
    ∃ x, s.place? x = some location ∧
      Relation.ReflTransGen (fun e d => s.Parent e d ∧ s.Under location d) x d := by
  induction r using List.reverseRecOn with
  | nil => exact fun {d} hd => ⟨d, by simpa using hd, .refl⟩
  | append_singleton r k ih =>
    intro d hd
    rw [← List.append_assoc] at hd
    obtain ⟨e, he, hk⟩ := hs.anchored hd
    obtain ⟨x, hx, hxe⟩ := ih he
    exact ⟨x, hx, hxe.tail ⟨⟨k, hk⟩, _, hd, by simp [List.append_assoc]⟩⟩

theorem Sound.chain_of_under (hs : s.Sound) (hd : s.Under location d) :
    ∃ x, s.place? x = some location ∧
      Relation.ReflTransGen (fun e d => s.Parent e d ∧ s.Under location d) x d := by
  obtain ⟨_, hp, r, rfl⟩ := hd
  exact hs.chain r hp

theorem Formed.frame (hs : s.Formed) (hc : t.cells = s.cells) : t.Formed := by
  obtain ⟨cells, _⟩ := t
  cases hc
  exact ⟨hs.wellFormed, hs.closed, hs.acyclic⟩

/-- Places depend on the cells and on which of them is the root. -/
theorem Sound.frame (hs : s.Sound) (hc : t.cells = s.cells) (hr : t.root = s.root) : t.Sound := by
  obtain ⟨cells, root, _⟩ := t
  cases hc
  cases hr
  exact ⟨hs.toFormed.frame rfl, hs.rooted, hs.anchored⟩

/-- Every place is sound if each cell with a place has kept it, together with the cell that holds it
there, or is held where it now is. -/
theorem Sound.rebuild (hs : s.Sound) (ht : t.Formed) (hroot : t.root = s.root)
    (top : ∀ {r}, s.place? r = some [] → t.place? r = some [])
    (cells : ∀ {d p}, t.place? d = some p →
      (s.place? d = some p ∧ ∀ {e q k}, p = q ++ [k] → s.place? e = some q → s.Holds e k d →
        t.place? e = some q ∧ t.Holds e k d) ∨
      ∃ e q k, p = q ++ [k] ∧ t.place? e = some q ∧ t.Holds e k d) : t.Sound where
  toFormed := ht
  rooted {d} := by
    rw [hroot, ← hs.rooted]
    refine ⟨fun hd => ?_, top⟩
    rcases cells hd with ⟨h, -⟩ | ⟨e, q, k, h, -⟩
    · exact h
    · simp at h
  anchored {d q k} hd := by
    rcases cells hd with ⟨h, keep⟩ | ⟨e, q', k', h, he⟩
    · obtain ⟨e, he, hk⟩ := hs.anchored h
      exact ⟨e, keep rfl he hk⟩
    · obtain ⟨rfl, hkk⟩ := List.append_inj' h rfl
      cases hkk
      exact ⟨e, he⟩

/-! ## Following a path -/

/-- What a slot holds at a key. -/
def member (s : Store) (slot : Slot) (k : Key) : Option Slot :=
  match slot with
  | .cell id => s.get? id k
  | .scalar _ => none

/-- Follows a path key by key from the root. -/
def at? (s : Store) (p : Path) : Option Slot :=
  (s.root.map Slot.cell).bind fun root => p.foldlM s.member root

theorem at?_append (p q : Path) :
    s.at? (p ++ q) = (s.at? p).bind fun slot => q.foldlM s.member slot := by
  simp [at?, List.foldlM_append, Option.bind_assoc]

theorem at?_concat (p : Path) (k : Key) :
    s.at? (p ++ [k]) = (s.at? p).bind fun slot => s.member slot k := by
  simp [at?_append]

theorem Formed.get?_of_mem (hs : s.Formed) {slot : Slot} (h : (k, slot) ∈ s.entries e) :
    s.get? e k = some slot := by
  obtain ⟨c, hc, hm⟩ := mem_entries_iff.mp h
  rw [Store.get?, hc]
  exact (Content.get?_eq_some_iff (hs.wellFormed hc) (Content.fits_of_mem_entries hm)).mpr hm

theorem Formed.get?_of_holds (hs : s.Formed) (h : s.Holds e k d) : s.get? e k = some (.cell d) :=
  hs.get?_of_mem h

/-- Following the place of a cell arrives at the cell. -/
theorem Sound.at?_place (hs : s.Sound) :
    ∀ {p d}, s.place? d = some p → s.at? p = some (.cell d) := by
  intro p
  induction p using List.reverseRecOn with
  | nil => intro d hd; simp [at?, hs.rooted.mp hd]
  | append_singleton q k ih =>
    intro d hd
    obtain ⟨e, he, hk⟩ := hs.anchored hd
    rw [at?_concat, ih he]
    exact hs.get?_of_holds hk

/-- Each stop on the way along a place is a cell with the place walked so far. -/
theorem Sound.place?_prefix (hs : s.Sound) (r : Path) : ∀ {d}, s.place? d = some (q ++ r) →
    ∃ e, s.place? e = some q := by
  intro d hd
  obtain ⟨x, hx, -⟩ := hs.chain r hd
  exact ⟨x, hx⟩

end LiveJson.Store

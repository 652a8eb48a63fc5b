import LiveJson.Proofs.Store.Surroundings
import LiveJson.Proofs.Store.Unfold

/-! # Every walk below a cell ends

The walks below a cell are bounded by a number of levels. Where no cell lies below itself that bound
is never met: going from a cell to its members comes to an end, and a walk that may go deeper than
there are cells does what the walk does that may not. -/

namespace LiveJson.Store

variable {s t : Store} {id target : CellId} {n m : Nat}

theorem entries_of_size_le (h : s.cells.size ≤ id) : s.entries id = [] := by
  rw [entries, content?_eq_none_iff.mpr h]
  rfl

theorem setPlace_of_size_le (h : s.cells.size ≤ id) (place : Option Path) :
    s.setPlace id place = s := by
  have same : (s.cells.modify id fun cell => { cell with place }) = s.cells := by
    apply Array.ext'
    apply List.ext_getElem?
    intro i
    simp only [Array.getElem?_toList, Array.getElem?_modify]
    split
    · next hi => subst hi; rw [Array.getElem?_eq_none h]; rfl
    · rfl
  rw [setPlace, same]

/-- Folds that differ only in what they do to a store with other contents agree. -/
theorem foldl_congr_unplaced {α : Type} {f g : Store → α → Store} :
    ∀ (l : List α) (s : Store), (∀ t a, (f t a).unplaced = t.unplaced) →
      (∀ t a, t.unplaced = s.unplaced → a ∈ l → g t a = f t a) → l.foldl g s = l.foldl f s
  | [], _, _, _ => rfl
  | a :: l, s, keep, same => by
    rw [List.foldl_cons, List.foldl_cons, same s a rfl List.mem_cons_self]
    exact foldl_congr_unplaced l (f s a) keep fun t b ht hb =>
      same t b (ht.trans (keep s a)) (List.mem_cons_of_mem _ hb)

theorem unplaced_relocateTo (n : Nat) (id : CellId) (place : Path) (s : Store) :
    (relocateTo n id place s).unplaced = s.unplaced :=
  relocateTo_view (fun _ _ _ => unplaced_setPlace) n id place s

theorem unplaced_forgetTo (n : Nat) (id : CellId) (location : Path) (s : Store) :
    (forgetTo n id location s).unplaced = s.unplaced :=
  forgetTo_view (fun _ _ _ => unplaced_setPlace) n id location s

/-! ## More levels than there are -/

theorem Shallow.reaches_eq (h : s.Shallow n id) (hm : n ≤ m) :
    s.reaches target m id = s.reaches target n id :=
  Bool.eq_iff_iff.mpr ((h.mono hm).reaches_iff.trans h.reaches_iff.symm)

theorem Shallow.relocateTo_eq :
    ∀ {n : Nat} {s : Store} {id : CellId}, s.Shallow n id → ∀ {m : Nat}, n ≤ m → ∀ place,
      relocateTo m id place s = relocateTo n id place s
  | 0, s, id, h, m, _, place => by
    cases m with
    | zero => rfl
    | succ m =>
      unfold relocateTo
      rw [entries_of_size_le h]
      exact setPlace_of_size_le h _
  | n + 1, s, id, h, m, hm, place => by
    obtain ⟨m, rfl⟩ : ∃ j, m = j + 1 := ⟨m - 1, by omega⟩
    refine congrArg (fun t => t.setPlace id (some place)) (foldl_congr_unplaced _ s ?_ ?_)
    · rintro t ⟨key, slot⟩
      cases slot with
      | scalar v => rfl
      | cell child => exact unplaced_relocateTo n child _ t
    · rintro t ⟨key, slot⟩ ht hmem
      cases slot with
      | scalar v => rfl
      | cell child =>
        have shallow : t.Shallow n child := unplaced_shallow ht n ▸ h child ⟨key, hmem⟩
        exact shallow.relocateTo_eq (Nat.le_of_succ_le_succ hm) _

theorem Shallow.forgetTo_eq :
    ∀ {n : Nat} {s : Store} {id : CellId}, s.Shallow n id → ∀ {m : Nat}, n ≤ m → ∀ location,
      forgetTo m id location s = forgetTo n id location s
  | 0, s, id, h, m, _, location => by
    cases m with
    | zero => rfl
    | succ m =>
      unfold forgetTo
      rw [place?_eq_none_of_size_le h]
      rfl
  | n + 1, s, id, h, m, hm, location => by
    obtain ⟨m, rfl⟩ : ∃ j, m = j + 1 := ⟨m - 1, by omega⟩
    unfold forgetTo
    split
    · refine foldl_congr_unplaced _ (s.setPlace id none) ?_ ?_
      · rintro t ⟨key, slot⟩
        cases slot with
        | scalar v => rfl
        | cell child => exact unplaced_forgetTo n child _ t
      · rintro t ⟨key, slot⟩ ht hmem
        cases slot with
        | scalar v => rfl
        | cell child =>
          have shallow : t.Shallow n child :=
            unplaced_shallow (ht.trans unplaced_setPlace) n ▸ h child ⟨key, hmem⟩
          exact shallow.forgetTo_eq (Nat.le_of_succ_le_succ hm) _
    · rfl

/-! ## All walks -/

/-- Going from cells to their members always comes to an end, after fewer steps than there are
cells, and so does every walk that does: with as many levels as there are cells it does the same as
with more. -/
structure WalksEnd (s : Store) : Prop where
  acyclic : ∀ d, ¬ Relation.TransGen s.Parent d d
  wellFounded : WellFounded fun d e => s.Parent e d
  shallow : ∀ id, s.Shallow s.cells.size id
  tree : ∀ {n}, s.cells.size ≤ n → ∀ slot, s.treeTo n slot = s.tree slot
  contains : ∀ {n}, s.cells.size ≤ n → ∀ id target, s.reaches target n id = s.contains id target
  relocate : ∀ {n}, s.cells.size ≤ n → ∀ id place, relocateTo n id place s = s.relocate id place
  forget : ∀ {n}, s.cells.size ≤ n → ∀ id location, forgetTo n id location s = s.forget id location

theorem Formed.walksEnd (hs : s.Formed) : s.WalksEnd where
  acyclic := hs.acyclic
  wellFounded := ⟨hs.induction fun _ ih => ⟨_, ih⟩⟩
  shallow := hs.shallow
  tree hn slot := hs.treeTo_eq hn slot
  contains hn id _ := (hs.shallow id).reaches_eq hn
  relocate hn id place := (hs.shallow id).relocateTo_eq hn place
  forget hn id location := (hs.shallow id).forgetTo_eq hn location

end LiveJson.Store

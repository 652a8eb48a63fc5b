import LiveJson.Proofs.Store.Cells
import LiveJson.Store.Graph
import Mathlib.Data.Finset.Card
import Mathlib.Data.Finset.Range

/-! # Walks below a cell come to an end

The contents of a store are formed when they are well-formed one by one, name no cell that is not
there, and have no cell below itself. Then a way down from a cell meets fewer cells than there are,
so the number of cells is fuel enough for the walks below a cell, and what they compute obeys the
equations of a recursion on the cells. -/

namespace LiveJson.Store

variable {s t : Store} {d e id : CellId}

structure Formed (s : Store) : Prop where
  wellFormed : ∀ {id c}, s.content? id = some c → c.WellFormed
  closed : ∀ {e d}, s.Parent e d → d < s.cells.size
  acyclic : s.Acyclic

theorem Formed.unplaced (hs : s.Formed) (h : t.unplaced = s.unplaced) : t.Formed where
  wellFormed hc := hs.wellFormed (unplaced_content? h ▸ hc)
  closed hp := unplaced_size h ▸ hs.closed (unplaced_parent h ▸ hp)
  acyclic := by unfold Acyclic; rw [unplaced_parent h]; exact hs.acyclic

theorem Formed.holds_unique (hs : s.Formed) {k : Key} {d' : CellId} (h : s.Holds e k d)
    (h' : s.Holds e k d') : d = d' := by
  obtain ⟨c, hc, hm⟩ := holds_iff.mp h
  obtain ⟨c', hc', hm'⟩ := holds_iff.mp h'
  rw [hc] at hc'
  cases hc'
  exact Slot.cell.inj ((hs.wellFormed hc).entry_unique hm hm')

theorem Formed.reaches_lt (hs : s.Formed) (h : s.Reaches e d) (he : e < s.cells.size) :
    d < s.cells.size := by
  cases Relation.ReflTransGen.cases_tail h with
  | inl heq => exact heq ▸ he
  | inr h => obtain ⟨c, -, hp⟩ := h; exact hs.closed hp

/-- A cell may take any content whose cells do not lead back to it. -/
theorem Formed.setContent (hs : s.Formed) {c : Content} (hc : c.WellFormed)
    (hnew : ∀ {k d}, (k, .cell d) ∈ c.entries → d < s.cells.size ∧ ¬ s.Reaches d id) :
    (s.setContent id c).Formed := by
  have old : ∀ {e d}, e ≠ id → (s.setContent id c).Parent e d → s.Parent e d :=
    fun he ⟨k, hk⟩ => ⟨k, (holds_congr (content?_setContent_of_ne he)).mp hk⟩
  have new : ∀ {d}, (s.setContent id c).Parent id d → d < s.cells.size ∧ ¬ s.Reaches d id := by
    intro d h
    obtain ⟨k, hk⟩ := h
    have hid : id < s.cells.size := by simpa using hk.lt_size
    obtain ⟨c', hc', hm⟩ := holds_iff.mp hk
    rw [content?_setContent_self hid] at hc'
    cases hc'
    exact hnew hm
  -- below a new member no way leads through `id`, so nothing has changed there
  have below : ∀ {d e}, (s.setContent id c).Parent id d → (s.setContent id c).Reaches d e →
      s.Reaches d e := by
    intro d e hd hde
    induction hde with
    | refl => exact .refl _ _
    | tail _ hp ih => exact ih.tail (old (fun he => (new hd).2 (he ▸ ih)) hp)
  have split : ∀ {d e}, Relation.TransGen (s.setContent id c).Parent d e →
      Relation.TransGen s.Parent d e ∨ ∃ m, (s.setContent id c).Reaches d id ∧
        (s.setContent id c).Parent id m ∧ (s.setContent id c).Reaches m e := by
    intro d e hde
    induction hde with
    | @single e hp =>
      by_cases hd : d = id
      · exact Or.inr ⟨e, hd ▸ .refl _ _, hd ▸ hp, .refl _ _⟩
      · exact Or.inl (.single (old hd hp))
    | @tail b e hdb hp ih =>
      by_cases hb : b = id
      · exact Or.inr ⟨e, hb ▸ hdb.to_reflTransGen, hb ▸ hp, .refl _ _⟩
      · rcases ih with h | ⟨m, hm, hp', hr⟩
        · exact Or.inl (h.tail (old hb hp))
        · exact Or.inr ⟨m, hm, hp', hr.tail hp⟩
  refine ⟨fun {e c'} he => ?_, fun {e d} hp => ?_, fun d hd => ?_⟩
  · rw [content?_setContent] at he
    split at he
    · cases he; exact hc
    · exact hs.wellFormed he
  · rw [size_setContent]
    by_cases he : e = id
    · exact (new (he ▸ hp)).1
    · exact hs.closed (old he hp)
  · rcases split hd with h | ⟨m, hm, hp, hr⟩
    · exact hs.acyclic d h
    · exact (new hp).2 (below hp (hr.trans hm))

/-! ## The depth of a cell -/

/-- Every way down from the cell meets at most `n` cells. -/
def Shallow (s : Store) : Nat → CellId → Prop
  | 0, id => s.cells.size ≤ id
  | n + 1, id => ∀ d, s.Parent id d → Shallow s n d

open Classical in
/-- The number of cells below a cell. -/
noncomputable def weight (s : Store) (id : CellId) : Nat :=
  ((Finset.range s.cells.size).filter fun d => Relation.TransGen s.Parent id d).card

theorem Formed.weight_lt (hs : s.Formed) (h : s.Parent e d) : s.weight d < s.weight e := by
  classical
  apply Finset.card_lt_card
  refine ⟨fun c hc => ?_, fun hsub => ?_⟩
  · simp only [Finset.mem_filter] at hc ⊢
    exact ⟨hc.1, hc.2.head h⟩
  · have hd := hsub (Finset.mem_filter.mpr ⟨Finset.mem_range.mpr (hs.closed h), .single h⟩)
    exact hs.acyclic d (Finset.mem_filter.mp hd).2

theorem Formed.weight_lt_size (hs : s.Formed) (h : id < s.cells.size) :
    s.weight id < s.cells.size := by
  classical
  conv => rhs; rw [← Finset.card_range s.cells.size]
  apply Finset.card_lt_card
  refine ⟨Finset.filter_subset _ _, fun hsub => ?_⟩
  exact hs.acyclic id (Finset.mem_filter.mp (hsub (Finset.mem_range.mpr h))).2

theorem Formed.shallow_of_weight_lt (hs : s.Formed) :
    ∀ (n : Nat) (id : CellId), s.weight id < n → s.Shallow n id
  | n + 1, _, h => fun d hd => hs.shallow_of_weight_lt n d (by have := hs.weight_lt hd; omega)

theorem shallow_of_size_le (h : s.cells.size ≤ id) : ∀ n, s.Shallow n id
  | 0 => h
  | _ + 1 => fun _ hd => absurd hd.lt_size (Nat.not_lt.mpr h)

/-- The number of cells bounds every way down. -/
theorem Formed.shallow (hs : s.Formed) (id : CellId) : s.Shallow s.cells.size id := by
  by_cases h : id < s.cells.size
  · exact hs.shallow_of_weight_lt _ id (hs.weight_lt_size h)
  · exact shallow_of_size_le (Nat.le_of_not_lt h) _

theorem Shallow.mono {n m : Nat} (h : s.Shallow n id) (hnm : n ≤ m) : s.Shallow m id := by
  induction n generalizing id m with
  | zero => exact shallow_of_size_le h m
  | succ n ih =>
    obtain ⟨m, rfl⟩ : ∃ j, m = j + 1 := ⟨m - 1, by omega⟩
    exact fun d hd => ih (h d hd) (by omega)

theorem unplaced_shallow (h : t.unplaced = s.unplaced) : ∀ n, t.Shallow n = s.Shallow n
  | 0 => by funext id; simp only [Shallow, unplaced_size h]
  | n + 1 => by funext id; simp only [Shallow, unplaced_parent h, unplaced_shallow h n]

/-- What holds of a cell whenever it holds of its members holds of every cell. -/
theorem Formed.induction (hs : s.Formed) {P : CellId → Prop}
    (step : ∀ id, (∀ d, s.Parent id d → P d) → P id) (id : CellId) : P id := by
  suffices h : ∀ n id, s.Shallow n id → P id from h _ id (hs.shallow id)
  intro n
  induction n with
  | zero => exact fun id h => step id fun d hd => absurd hd.lt_size (Nat.not_lt.mpr h)
  | succ n ih => exact fun id h => step id fun d hd => ih d (h d hd)

/-! ## The walk for a cell -/

theorem Shallow.reaches_iff {target : CellId} :
    ∀ {n : Nat} {id : CellId}, s.Shallow n id →
      (s.reaches target n id = true ↔ s.Reaches id target)
  | 0, id, h => by
    simp only [reaches, beq_iff_eq]
    constructor
    · rintro rfl; exact .refl _ _
    · intro hr
      rcases Relation.ReflTransGen.cases_head hr with he | ⟨d, hd, -⟩
      · exact he
      · exact absurd hd.lt_size (Nat.not_lt.mpr h)
  | n + 1, id, h => by
    simp only [reaches, Bool.or_eq_true, beq_iff_eq, List.any_eq_true]
    constructor
    · intro h
      rcases h with rfl | ⟨⟨k, slot⟩, hm, hslot⟩
      · exact .refl _ _
      · cases slot with
        | scalar v => exact absurd hslot (by simp)
        | cell d =>
          have hd : s.Parent id d := ⟨k, hm⟩
          exact Relation.ReflTransGen.head hd (((h d hd).reaches_iff).mp hslot)
    · intro hr
      rcases Relation.ReflTransGen.cases_head hr with he | ⟨d, hd, hr⟩
      · exact Or.inl he
      · obtain ⟨k, hm⟩ := hd
        exact Or.inr ⟨(k, .cell d), hm, (h d ⟨k, hm⟩).reaches_iff.mpr hr⟩

theorem Formed.contains_iff (hs : s.Formed) {target : CellId} :
    s.contains id target = true ↔ s.Reaches id target :=
  (hs.shallow id).reaches_iff

end LiveJson.Store

import LiveJson.Proofs.Store.Below
import LiveJson.Store.Edit

/-! # Cells that take new places

Relocating gives a cell its place and every cell below it a place one key behind that of a cell
that holds it. A cell that lies below another in several ways gets the place of the way walked
last, and so does all that lies below it: this is why every new place still leads through cells
with new places. -/

namespace LiveJson.Store

variable {s t u : Store} {path : Path} {L L₁ L₂ : List (Key × Slot)} {d e id : CellId} {k : Key}

/-- The cell is one of the listed cells or lies below one. -/
def Spans (s : Store) (L : List (Key × Slot)) (d : CellId) : Prop :=
  ∃ k c, (k, .cell c) ∈ L ∧ s.Reaches c d

theorem Spans.holds (h : s.Spans L e) (hd : s.Holds e k d) : s.Spans L d := by
  obtain ⟨j, c, hm, hr⟩ := h
  exact ⟨j, c, hm, hr.trans hd.reaches⟩

theorem spans_append : s.Spans (L₁ ++ L₂) d ↔ s.Spans L₁ d ∨ s.Spans L₂ d := by
  simp only [Spans, List.mem_append]
  constructor
  · intro h
    obtain ⟨k, c, h | h, hr⟩ := h
    · exact Or.inl ⟨k, c, h, hr⟩
    · exact Or.inr ⟨k, c, h, hr⟩
  · intro h
    rcases h with ⟨k, c, h, hr⟩ | ⟨k, c, h, hr⟩
    · exact ⟨k, c, Or.inl h, hr⟩
    · exact ⟨k, c, Or.inr h, hr⟩

/-- `t` is `s` except that the listed cells sit at their keys below `path`, and the cells below
them at a key of a cell that moved along. -/
structure Seated (s t : Store) (path : Path) (L : List (Key × Slot)) : Prop where
  unplaced : t.unplaced = s.unplaced
  outside : ∀ d, ¬ s.Spans L d → t.place? d = s.place? d
  inside : ∀ d, s.Spans L d →
    (∃ k, (k, .cell d) ∈ L ∧ t.place? d = some (path ++ [k])) ∨
      ∃ e k q, s.Spans L e ∧ s.Holds e k d ∧ t.place? e = some q ∧ t.place? d = some (q ++ [k])

theorem Seated.none (s : Store) (path : Path) : Seated s s path [] where
  unplaced := rfl
  outside _ _ := rfl
  inside := by rintro d ⟨k, c, hm, -⟩; cases hm

theorem Seated.scalar (s : Store) (path : Path) (k : Key) (v : Json) :
    Seated s s path [(k, .scalar v)] where
  unplaced := rfl
  outside _ _ := rfl
  inside := by rintro d ⟨j, c, hm, -⟩; simp at hm

/-- What is seated last keeps its place, with all that lies below it. -/
theorem Seated.append (h₁ : Seated s t path L₁) (h₂ : Seated t u path L₂) :
    Seated s u path (L₁ ++ L₂) := by
  have hspans : t.Spans = s.Spans := by unfold Spans; rw [unplaced_reaches h₁.unplaced]
  have hholds := unplaced_holds h₁.unplaced
  refine ⟨h₂.unplaced.trans h₁.unplaced, ?_, ?_⟩
  · intro d hd
    rw [spans_append, not_or] at hd
    rw [h₂.outside d (hspans ▸ hd.2), h₁.outside d hd.1]
  · intro d hd
    by_cases hd₂ : s.Spans L₂ d
    · rcases h₂.inside d (hspans ▸ hd₂) with ⟨k, hm, hp⟩ | ⟨e, k, q, he, hk, hq, hp⟩
      · exact Or.inl ⟨k, List.mem_append_right _ hm, hp⟩
      · rw [hspans] at he
        rw [hholds] at hk
        exact Or.inr ⟨e, k, q, spans_append.mpr (Or.inr he), hk, hq, hp⟩
    · have hstay := h₂.outside d (hspans ▸ hd₂)
      have hd₁ := (spans_append.mp hd).resolve_right hd₂
      rcases h₁.inside d hd₁ with ⟨k, hm, hp⟩ | ⟨e, k, q, he, hk, hq, hp⟩
      · exact Or.inl ⟨k, List.mem_append_left _ hm, hstay.trans hp⟩
      · -- a container that moved again would have taken its member along
        have he₂ : ¬ t.Spans L₂ e := fun h => hd₂ (Spans.holds (hspans ▸ h) hk)
        exact Or.inr ⟨e, k, q, spans_append.mpr (Or.inl he), hk, (h₂.outside e he₂).trans hq,
          hstay.trans hp⟩

/-- Seating a list of slots one after the other. -/
theorem Seated.foldl (visit : CellId → Path → Store → Store) :
    ∀ (L : List (Key × Slot)) (s : Store),
      (∀ s' k c, s'.unplaced = s.unplaced → (k, .cell c) ∈ L →
        Seated s' (visit c (path ++ [k]) s') path [(k, .cell c)]) →
      Seated s (L.foldl (fun store entry =>
        match entry.2 with
        | .cell child => visit child (path ++ [entry.1]) store
        | .scalar _ => store) s) path L
  | [], s, _ => Seated.none s path
  | (k, .scalar v) :: L, s, h =>
    (Seated.scalar s path k v).append
      (Seated.foldl visit L s fun s' k c hs' hm => h s' k c hs' (List.mem_cons_of_mem _ hm))
  | (k, .cell c) :: L, s, h => by
    have first := h s k c rfl List.mem_cons_self
    exact first.append (Seated.foldl visit L _ fun s' k c hs' hm =>
      h s' k c (hs'.trans first.unplaced) (List.mem_cons_of_mem _ hm))

/-- With its members seated, a cell takes its own place. -/
theorem Formed.seated_top (hs : s.Formed) (hid : id < s.cells.size)
    (members : Seated s t (path ++ [k]) (s.entries id)) :
    Seated s (t.setPlace id (some (path ++ [k]))) path [(k, .cell id)] := by
  have below : ∀ {d}, s.Spans (s.entries id) d → d ≠ id ∧ s.Reaches id d := by
    intro d h
    obtain ⟨j, c, hm, hr⟩ := h
    have hp : s.Parent id c := ⟨j, hm⟩
    exact ⟨fun he => hs.acyclic.not_reaches hp (he ▸ hr), .head hp hr⟩
  have spans : ∀ {d}, s.Spans [(k, .cell id)] d ↔ s.Reaches id d := by
    intro d
    constructor
    · intro h
      obtain ⟨j, c, hm, hr⟩ := h
      simp only [List.mem_singleton, Prod.mk.injEq, Slot.cell.injEq] at hm
      exact hm.2 ▸ hr
    · exact fun hr => ⟨k, id, List.mem_singleton.mpr rfl, hr⟩
  have top : (t.setPlace id (some (path ++ [k]))).place? id = some (path ++ [k]) := by
    rw [place?_setPlace, if_pos ⟨rfl, unplaced_size members.unplaced ▸ hid⟩]
  have stay : ∀ {d}, d ≠ id → (t.setPlace id (some (path ++ [k]))).place? d = t.place? d :=
    fun hne => place?_setPlace.trans (if_neg fun h => hne h.1)
  refine ⟨unplaced_setPlace.trans members.unplaced, ?_, ?_⟩
  · intro d hd
    have hne : d ≠ id := fun he => hd (spans.mpr (he ▸ .refl _ _))
    rw [stay hne]
    exact members.outside d fun h => hd (spans.mpr (below h).2)
  · intro d hd
    rcases Relation.ReflTransGen.cases_head (spans.mp hd) with rfl | ⟨c, ⟨j, hm⟩, hr⟩
    · exact Or.inl ⟨k, List.mem_singleton.mpr rfl, top⟩
    · have hspan : s.Spans (s.entries id) d := ⟨j, c, hm, hr⟩
      refine Or.inr ?_
      rcases members.inside d hspan with ⟨i, hi, hp⟩ | ⟨e, i, q, he, hi, hq, hp⟩
      · exact ⟨id, i, path ++ [k], spans.mpr (.refl _ _), hi, top,
          (stay (below hspan).1).trans hp⟩
      · exact ⟨e, i, q, spans.mpr (below he).2, hi, (stay (below he).1).trans hq,
          (stay (below hspan).1).trans hp⟩

theorem Formed.seated_relocateTo (n : Nat) :
    ∀ {s : Store} (_ : s.Formed) {id : CellId} (_ : id < s.cells.size) (_ : s.Shallow n id)
      (path : Path) (k : Key),
      Seated s (relocateTo n id (path ++ [k]) s) path [(k, .cell id)] := by
  induction n with
  | zero => intro s _ id hid h; exact absurd hid (Nat.not_lt.mpr h)
  | succ n ih =>
    intro s hs id hid h path k
    refine hs.seated_top hid (Seated.foldl (relocateTo n) (s.entries id) s ?_)
    intro s' j c hs' hm
    exact ih (hs.unplaced hs') (unplaced_size hs' ▸ hs.closed ⟨j, hm⟩)
      (unplaced_shallow hs' n ▸ h c ⟨j, hm⟩) _ j

theorem Formed.seated_relocate (hs : s.Formed) (hid : id < s.cells.size) (path : Path) (k : Key) :
    Seated s (s.relocate id (path ++ [k])) path [(k, .cell id)] :=
  hs.seated_relocateTo _ hid (hs.shallow id) path k

/-- Reseating an array puts its elements from `start` on where they are. -/
theorem Formed.seated_reseat (hs : s.Formed) (id : CellId) (start : Nat) (path : Path) :
    Seated s (s.reseat id path start) path ((s.entries id).drop start) :=
  Seated.foldl (fun c place store => store.relocate c place) _ s fun _ _ _ hs' hm =>
    (hs.unplaced hs').seated_relocate
      (unplaced_size hs' ▸ hs.closed ⟨_, List.mem_of_mem_drop hm⟩) path _

end LiveJson.Store

import LiveJson.Proofs.Store.Content
import Mathlib.Logic.Relation

/-! # Cells, their content and their places

How the elementary updates of a store show in what is read from it. Much of a store does not depend
on the places of its cells: stores that agree once their places are taken away agree on all
contents, and so on everything that lies below a cell. -/

namespace LiveJson.Store

variable {s t : Store} {d e : CellId} {k : Key} {slot : Slot} {place : Option Path}
  {content : Content}

theorem lt_size_of_content? (h : s.content? d = some content) : d < s.cells.size := by
  simp only [content?, Option.map_eq_some_iff] at h
  obtain ⟨cell, hc, -⟩ := h
  exact (Array.getElem?_eq_some_iff.mp hc).1

theorem lt_size_of_place? {p : Path} (h : s.place? d = some p) : d < s.cells.size := by
  simp only [place?, Option.bind_eq_some_iff] at h
  obtain ⟨cell, hc, -⟩ := h
  exact (Array.getElem?_eq_some_iff.mp hc).1

theorem content?_eq_none_iff : s.content? d = none ↔ s.cells.size ≤ d := by
  simp [content?]

theorem place?_eq_none_of_size_le (h : s.cells.size ≤ d) : s.place? d = none := by
  simp [place?, Array.getElem?_eq_none h]

/-! ## Elementary updates -/

theorem place?_setPlace :
    (s.setPlace e place).place? d =
      if d = e ∧ e < s.cells.size then place else s.place? d := by
  simp only [setPlace, place?, Array.getElem?_modify]
  by_cases h : e = d
  · subst h
    by_cases hs : e < s.cells.size
    · simp [hs]
    · simp [hs]
  · simp [h, Ne.symm h]

@[simp] theorem size_setContent : (s.setContent e content).cells.size = s.cells.size := by
  simp [setContent]

@[simp] theorem place?_setContent : (s.setContent e content).place? d = s.place? d := by
  simp only [setContent, place?, Array.getElem?_modify]
  split
  · rw [Option.bind_map]
    rfl
  · rfl

theorem content?_setContent :
    (s.setContent e content).content? d =
      if d = e ∧ e < s.cells.size then some content else s.content? d := by
  simp only [setContent, content?, Array.getElem?_modify]
  by_cases h : e = d
  · subst h
    by_cases hs : e < s.cells.size
    · simp [hs]
    · simp [hs]
  · simp [h, Ne.symm h]

theorem content?_setContent_of_ne (h : d ≠ e) :
    (s.setContent e content).content? d = s.content? d := by
  rw [content?_setContent, if_neg fun hd => h hd.1]

theorem content?_setContent_self (h : e < s.cells.size) :
    (s.setContent e content).content? e = some content := by
  rw [content?_setContent, if_pos ⟨rfl, h⟩]

/-! ## Stores without their places -/

/-- The same store where no cell has a place. -/
def unplaced (s : Store) : Store :=
  { s with cells := s.cells.map fun cell => { cell with place := none } }

@[simp] theorem size_unplaced : s.unplaced.cells.size = s.cells.size := by simp [unplaced]

@[simp] theorem content?_unplaced : s.unplaced.content? d = s.content? d := by
  simp [unplaced, content?, Function.comp_def]

@[simp] theorem unplaced_setPlace : (s.setPlace e place).unplaced = s.unplaced := by
  simp only [unplaced, setPlace, Store.mk.injEq, and_self, and_true]
  apply Array.ext'
  apply List.ext_getElem?
  intro i
  simp only [Array.getElem?_toList, Array.getElem?_map, Array.getElem?_modify]
  split <;> simp [Function.comp_def]

theorem unplaced_size (h : t.unplaced = s.unplaced) : t.cells.size = s.cells.size := by
  rw [← size_unplaced, h, size_unplaced]

theorem unplaced_content? (h : t.unplaced = s.unplaced) : t.content? d = s.content? d := by
  rw [← content?_unplaced, h, content?_unplaced]

theorem unplaced_root (h : t.unplaced = s.unplaced) : t.root = s.root :=
  show t.unplaced.root = s.unplaced.root by rw [h]

theorem unplaced_entries (h : t.unplaced = s.unplaced) : t.entries d = s.entries d := by
  simp only [entries, unplaced_content? h]

/-- What belongs to a store beside its document. -/
def surroundings (s : Store) : Registry × Option ListenerId × Bool × Bool :=
  (s.registry, s.origin, s.loading, s.alive)

/-! ## Cells that hold cells -/

/-- Cell `e` holds cell `d` at the key. -/
def Holds (s : Store) (e : CellId) (k : Key) (d : CellId) : Prop := (k, .cell d) ∈ s.entries e

/-- Cell `d` is a member of cell `e`. -/
def Parent (s : Store) (e d : CellId) : Prop := ∃ k, s.Holds e k d

/-- Cell `d` is cell `e` or lies below it. -/
def Reaches (s : Store) : CellId → CellId → Prop := Relation.ReflTransGen s.Parent

/-- No cell lies below itself. -/
def Acyclic (s : Store) : Prop := ∀ d, ¬ Relation.TransGen s.Parent d d

theorem mem_entries_iff :
    (k, slot) ∈ s.entries e ↔ ∃ c, s.content? e = some c ∧ (k, slot) ∈ c.entries := by
  cases h : s.content? e <;> simp [entries, h]

theorem holds_iff : s.Holds e k d ↔ ∃ c, s.content? e = some c ∧ (k, .cell d) ∈ c.entries :=
  mem_entries_iff

theorem holds_congr (h : t.content? e = s.content? e) : t.Holds e k d ↔ s.Holds e k d := by
  rw [holds_iff, holds_iff, h]

theorem Holds.lt_size (h : s.Holds e k d) : e < s.cells.size := by
  obtain ⟨c, hc, -⟩ := holds_iff.mp h
  exact lt_size_of_content? hc

theorem Parent.lt_size (h : s.Parent e d) : e < s.cells.size := h.choose_spec.lt_size

theorem unplaced_holds (h : t.unplaced = s.unplaced) : t.Holds = s.Holds := by
  funext e k d; exact propext (holds_congr (unplaced_content? h))

theorem unplaced_parent (h : t.unplaced = s.unplaced) : t.Parent = s.Parent := by
  unfold Parent; rw [unplaced_holds h]

theorem unplaced_reaches (h : t.unplaced = s.unplaced) : t.Reaches = s.Reaches := by
  unfold Reaches; rw [unplaced_parent h]

theorem Reaches.refl (s : Store) (d : CellId) : s.Reaches d d := Relation.ReflTransGen.refl

theorem Holds.reaches (h : s.Holds e k d) : s.Reaches e d := .single ⟨k, h⟩

theorem Reaches.trans {c : CellId} (h : s.Reaches c e) (h' : s.Reaches e d) : s.Reaches c d :=
  Relation.ReflTransGen.trans h h'

theorem Acyclic.not_reaches (hs : s.Acyclic) (h : s.Parent e d) : ¬ s.Reaches d e :=
  fun hr => hs e (.head' h hr)

/-- What lies below a cell is the same in two stores with the same contents there. -/
theorem reaches_congr {c : CellId} (h : ∀ e, s.Reaches c e → t.content? e = s.content? e) :
    t.Reaches c d ↔ s.Reaches c d := by
  constructor
  · intro hd
    induction hd with
    | refl => exact .refl _ _
    | tail _ hp ih =>
      obtain ⟨k, hk⟩ := hp
      exact ih.tail ⟨k, (holds_congr (h _ ih)).mp hk⟩
  · intro hd
    induction hd with
    | refl => exact .refl _ _
    | tail hce hp ih =>
      obtain ⟨k, hk⟩ := hp
      exact ih.tail ⟨k, (holds_congr (h _ hce)).mpr hk⟩

/-! Contents depend on the cells only. -/

theorem content?_frame (hc : t.cells = s.cells) : t.content? d = s.content? d := by
  rw [content?, content?, hc]

theorem reaches_frame (hc : t.cells = s.cells) : t.Reaches e d ↔ s.Reaches e d :=
  reaches_congr fun _ _ => content?_frame hc

end LiveJson.Store

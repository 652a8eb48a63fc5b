import LiveJson.Proofs.Store.Below

/-! # The tree below a cell

In a formed store the tree and the value of a cell are those of its content with every slot
unfolded, and they depend on nothing but the contents of the cells below. -/

namespace LiveJson

namespace Json

theorem itemsWellFormed_iff {vs : List Json} : ItemsWellFormed vs ↔ ∀ v ∈ vs, v.WellFormed := by
  induction vs with
  | nil => simp [ItemsWellFormed]
  | cons v vs ih => simp [ItemsWellFormed, ih]

theorem membersWellFormed_iff {ms : List (String × Json)} :
    MembersWellFormed ms ↔ ∀ m ∈ ms, m.2.WellFormed := by
  induction ms with
  | nil => simp [MembersWellFormed]
  | cons m ms ih => simp [MembersWellFormed, ih]

theorem wellFormed_of_scalar {v : Json} (h : v.isComposite = false) : v.WellFormed := by
  cases v with
  | array items => cases h
  | object members => cases h
  | _ => trivial

end Json

namespace Content

/-- The content with its slots unfolded into trees, under a label. -/
def toTree (label : CellId) (f : Slot → Tree CellId) : Content → Tree CellId
  | array items => .array label (items.map f)
  | object members => .object label (members.map fun m => (m.1, f m.2))

/-- The content with its slots unfolded into values. -/
def toJson (f : Slot → Json) : Content → Json
  | array items => .array (items.map f)
  | object members => .object (members.map fun m => (m.1, f m.2))

variable {c : Content}

theorem toTree_congr (label : CellId) {f g : Slot → Tree CellId}
    (h : ∀ k slot, (k, slot) ∈ c.entries → f slot = g slot) :
    c.toTree label f = c.toTree label g := by
  cases c with
  | array items =>
    simp only [toTree, Tree.array.injEq, true_and]
    apply List.map_congr_left
    intro slot hm
    obtain ⟨i, hi⟩ := List.getElem?_of_mem hm
    exact h (.index i) slot (mem_entries_array.mpr ⟨i, rfl, hi⟩)
  | object members =>
    simp only [toTree, Tree.object.injEq, true_and]
    apply List.map_congr_left
    intro entry hm
    obtain ⟨n, slot⟩ := entry
    rw [h (.name n) slot (mem_entries_object.mpr ⟨n, rfl, hm⟩)]

theorem toJson_toTree (label : CellId) (f : Slot → Tree CellId) :
    (c.toTree label f).toJson = c.toJson fun slot => (f slot).toJson := by
  cases c with
  | array items => simp [toTree, toJson, Tree.toJson, Tree.itemsToJson_eq_map]
  | object members => simp [toTree, toJson, Tree.toJson, Tree.membersToJson_eq_map]

theorem entries_toTree (label : CellId) (f : Slot → Tree CellId) :
    (c.toTree label f).entries = c.entries.map fun e => (e.1, f e.2) := by
  cases c with
  | array items => simp [toTree, Tree.entries, entries, Tree.enumerate_map]
  | object members => simp [toTree, Tree.entries, entries]

theorem toJson_congr {f g : Slot → Json} (h : ∀ k slot, (k, slot) ∈ c.entries → f slot = g slot) :
    c.toJson f = c.toJson g := by
  have := congrArg Tree.toJson
    (toTree_congr (c := c) 0 (f := fun slot => .leaf (f slot))
      (g := fun slot => .leaf (g slot)) fun k slot hm => by rw [h k slot hm])
  simpa [toJson_toTree, Tree.toJson] using this

theorem WellFormed.toJson (hc : c.WellFormed) {f : Slot → Json}
    (h : ∀ k slot, (k, slot) ∈ c.entries → (f slot).WellFormed) : (c.toJson f).WellFormed := by
  cases c with
  | array items =>
    refine Json.itemsWellFormed_iff.mpr fun v hv => ?_
    obtain ⟨slot, hm, rfl⟩ := List.mem_map.mp hv
    obtain ⟨i, hi⟩ := List.getElem?_of_mem hm
    exact h (.index i) slot (mem_entries_array.mpr ⟨i, rfl, hi⟩)
  | object members =>
    refine ⟨by rw [Members.names_map]; exact hc.1, Json.membersWellFormed_iff.mpr fun m hm => ?_⟩
    obtain ⟨⟨n, slot⟩, hn, rfl⟩ := List.mem_map.mp hm
    exact h (.name n) slot (mem_entries_object.mpr ⟨n, rfl, hn⟩)

end Content

namespace Store

variable {s t : Store} {id : CellId}

@[simp] theorem treeTo_scalar (n : Nat) (v : Json) : s.treeTo n (.scalar v) = .leaf v := by
  cases n <;> rfl

theorem treeTo_succ (n : Nat) :
    s.treeTo (n + 1) (.cell id) =
      match s.content? id with
      | none => .leaf .null
      | some c => c.toTree id (s.treeTo n) := by
  rw [treeTo]
  cases s.content? id with
  | none => rfl
  | some c => cases c <;> rfl

theorem treeTo_of_none (n : Nat) (h : s.content? id = none) :
    s.treeTo n (.cell id) = .leaf .null := by
  cases n with
  | zero => rfl
  | succ n => rw [treeTo_succ, h]

/-- More fuel than the depth of a cell does not change its tree. -/
theorem Shallow.treeTo_eq {n : Nat} :
    ∀ {id : CellId}, s.Shallow n id → ∀ m, n ≤ m →
      s.treeTo m (.cell id) = s.treeTo n (.cell id) := by
  induction n with
  | zero =>
    intro id h m _
    have hnone := content?_eq_none_iff.mpr h
    rw [treeTo_of_none m hnone, treeTo_of_none 0 hnone]
  | succ n ih =>
    intro id h m hm
    obtain ⟨m, rfl⟩ : ∃ j, m = j + 1 := ⟨m - 1, by omega⟩
    rw [treeTo_succ, treeTo_succ]
    cases hc : s.content? id with
    | none => rfl
    | some c =>
      apply Content.toTree_congr
      intro k slot hk
      cases slot with
      | scalar v => simp
      | cell d => exact ih (h d ⟨k, holds_iff.mpr ⟨c, hc, hk⟩⟩) m (by omega)

theorem Formed.treeTo_eq (hs : s.Formed) {m : Nat} (h : s.cells.size ≤ m) (slot : Slot) :
    s.treeTo m slot = s.tree slot := by
  cases slot with
  | scalar v => simp [tree]
  | cell d => exact (hs.shallow d).treeTo_eq m h

@[simp] theorem tree_scalar (v : Json) : s.tree (.scalar v) = .leaf v := treeTo_scalar _ _

@[simp] theorem toJson_scalar (v : Json) : s.toJson (.scalar v) = v := by
  simp [toJson, Tree.toJson]

theorem Formed.tree_cell (hs : s.Formed) {c : Content} (hc : s.content? id = some c) :
    s.tree (.cell id) = c.toTree id s.tree := by
  rw [← hs.treeTo_eq (Nat.le_succ _) (.cell id), treeTo_succ, hc]
  apply Content.toTree_congr
  intro k slot _
  exact hs.treeTo_eq (Nat.le_refl _) slot

theorem Formed.toJson_cell (hs : s.Formed) {c : Content} (hc : s.content? id = some c) :
    s.toJson (.cell id) = c.toJson s.toJson := by
  rw [toJson, hs.tree_cell hc, Content.toJson_toTree]
  rfl

theorem toJson_of_none (h : s.content? id = none) : s.toJson (.cell id) = .null := by
  rw [toJson, tree, treeTo_of_none _ h, Tree.toJson]

/-- The value of a cell has no name twice. -/
theorem Formed.toJson_wellFormed (hs : s.Formed) : ∀ id, (s.toJson (.cell id)).WellFormed := by
  refine hs.induction fun id ih => ?_
  cases hc : s.content? id with
  | none => rw [toJson_of_none hc]; trivial
  | some c =>
    rw [hs.toJson_cell hc]
    refine (hs.wellFormed hc).toJson fun k slot hk => ?_
    cases slot with
    | scalar v =>
      rw [toJson_scalar]
      exact Json.wellFormed_of_scalar ((hs.wellFormed hc).of_mem hk)
    | cell d => exact ih d ⟨k, holds_iff.mpr ⟨c, hc, hk⟩⟩

/-- Two stores with the same contents below a cell have the same tree there. -/
theorem Formed.tree_congr (hs : s.Formed) (ht : t.Formed) :
    ∀ id, (∀ d, s.Reaches id d → t.content? d = s.content? d) →
      t.tree (.cell id) = s.tree (.cell id) := by
  refine hs.induction fun id ih h => ?_
  have hid := h id (.refl _ _)
  cases hc : s.content? id with
  | none =>
    rw [hc] at hid
    rw [tree, tree, treeTo_of_none _ hid, treeTo_of_none _ hc]
  | some c =>
    rw [hc] at hid
    rw [ht.tree_cell hid, hs.tree_cell hc]
    apply Content.toTree_congr
    intro k slot hk
    cases slot with
    | scalar v => simp
    | cell d =>
      have hd : s.Parent id d := ⟨k, holds_iff.mpr ⟨c, hc, hk⟩⟩
      exact ih d hd fun e he => h e (.head hd he)

theorem Formed.toJson_congr (hs : s.Formed) (ht : t.Formed)
    (h : ∀ d, s.Reaches id d → t.content? d = s.content? d) :
    t.toJson (.cell id) = s.toJson (.cell id) := by
  rw [toJson, toJson, hs.tree_congr ht id h]

theorem treeTo_congr (h : ∀ d, t.content? d = s.content? d) (n : Nat) :
    ∀ slot, t.treeTo n slot = s.treeTo n slot := by
  induction n with
  | zero => intro slot; cases slot <;> rfl
  | succ n ih =>
    intro slot
    cases slot with
    | scalar v => simp
    | cell d =>
      have ih : t.treeTo n = s.treeTo n := funext ih
      rw [treeTo_succ, treeTo_succ, h, ih]

theorem tree_unplaced (h : t.unplaced = s.unplaced) : t.tree = s.tree := by
  funext slot
  rw [tree, tree, unplaced_size h, treeTo_congr fun _ => unplaced_content? h]

/-- Trees depend on the cells only. -/
theorem tree_frame (hc : t.cells = s.cells) : t.tree = s.tree := by
  funext slot
  rw [tree, tree, hc, treeTo_congr fun _ => content?_frame hc]

theorem toJson_frame (hc : t.cells = s.cells) : t.toJson = s.toJson := by
  funext slot
  rw [toJson, toJson, tree_frame hc]

theorem toJson_unplaced (h : t.unplaced = s.unplaced) : t.toJson = s.toJson := by
  funext slot
  rw [toJson, toJson, tree_unplaced h]

end Store

end LiveJson

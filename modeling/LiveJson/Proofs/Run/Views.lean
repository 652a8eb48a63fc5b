import LiveJson.Proofs.Match.Relabel
import LiveJson.Proofs.Run.Documents

/-! # Live documents are searched like plain ones

As long as no cell of a document moves, the tree of its cells is the tree of its value, with the place
of a cell for its label. So a path finds the same in both, or fails with the same error in both. -/

namespace LiveJson

namespace Content

/-- The tree of a content under other labels is that of its value, if this holds of every slot. -/
theorem relabel_toTree {f : CellId → Spot} {id : CellId} {p : Path} {tree : Slot → Tree CellId}
    {value : Slot → Json} {c : Content} (hid : f id = ⟨0, p⟩)
    (h : ∀ k slot, (k, slot) ∈ c.entries →
      (tree slot).relabel f = Tree.ofJson 0 (p ++ [k]) (value slot)) :
    (c.toTree id tree).relabel f = Tree.ofJson 0 p (c.toJson value) := by
  cases c with
  | array items =>
    have hitems : items.map (fun slot => (tree slot).relabel f) =
        (Tree.enumerate 0 items).map fun e => Tree.ofJson 0 (p ++ [e.1]) (value e.2) := by
      conv_lhs => rw [← Tree.map_snd_enumerate 0 items, List.map_map]
      exact List.map_congr_left fun e he => h e.1 e.2 he
    rw [toTree, toJson, Tree.relabel, Tree.ofJson, hid, Tree.relabelItems_eq_map,
      Tree.ofItems_eq_map, Tree.enumerate_map, List.map_map, List.map_map]
    exact congrArg _ hitems
  | object members =>
    rw [toTree, toJson, Tree.relabel, Tree.ofJson, hid, Tree.relabelMembers_eq_map,
      Tree.ofMembers_eq_map, List.map_map, List.map_map]
    refine congrArg _ (List.map_congr_left fun m hm => ?_)
    exact congrArg (Prod.mk m.1) (h (.name m.1) m.2 (mem_entries_object.mpr ⟨m.1, rfl, hm⟩))

end Content

namespace Store

variable {s : Store} {root d : CellId} {p : Path}

/-- The label that a cell has in the plain document, if it is part of it; all others have one of
their own. -/
def spotOf (s : Store) (id : CellId) : Spot :=
  match s.place? id with
  | some p => ⟨0, p⟩
  | none => ⟨id + 1, []⟩

theorem spotOf_of_place? (h : s.place? d = some p) : s.spotOf d = ⟨0, p⟩ := by
  rw [spotOf, h]

theorem Sound.spotOf_injective (hs : s.Sound) : Function.Injective s.spotOf := by
  intro d e h
  unfold spotOf at h
  cases hd : s.place? d with
  | none =>
    cases he : s.place? e with
    | none => rw [hd, he] at h; exact Nat.succ.inj (congrArg Spot.document h)
    | some q => rw [hd, he] at h; cases congrArg Spot.document h
  | some p =>
    cases he : s.place? e with
    | none => rw [hd, he] at h; cases congrArg Spot.document h
    | some q =>
      rw [hd, he] at h
      cases congrArg Spot.path h
      exact hs.place_unique hd he

theorem Exact.relabel_tree (he : s.Exact) (hs : s.Formed) : ∀ d p, s.place? d = some p →
    (s.tree (.cell d)).relabel s.spotOf = Tree.ofJson 0 p (s.toJson (.cell d)) := by
  refine hs.induction fun d ih p hp => ?_
  obtain ⟨c, hc⟩ := content?_of_place? hp
  rw [hs.tree_cell hc, hs.toJson_cell hc]
  refine Content.relabel_toTree (spotOf_of_place? hp) fun k slot hk => ?_
  cases slot with
  | scalar v =>
    rw [tree_scalar, toJson_scalar,
      Tree.ofJson_of_scalar (show v.isComposite = false from (hs.wellFormed hc).of_mem hk)]
    rfl
  | cell e =>
    have hholds : s.Holds d k e := holds_iff.mpr ⟨c, hc, hk⟩
    exact ih e ⟨k, hholds⟩ (p ++ [k]) (he.held hp hholds)

/-- A node of the document at its place. -/
def Placed (s : Store) (frame : Frame CellId) : Prop :=
  ∃ slot, frame.value = s.tree slot ∧ ∀ d, slot = .cell d → s.place? d = some frame.path

theorem Exact.inherited_placed (he : s.Exact) (hs : s.Formed) : Frame.Inherited s.Placed where
  enter {frame key child} h hm := by
    obtain ⟨slot, hvalue, hplace⟩ := h
    rw [hvalue] at hm
    cases slot with
    | scalar v => rw [tree_scalar] at hm; cases hm
    | cell d =>
      obtain ⟨c, hc⟩ := content?_of_place? (hplace d rfl)
      rw [hs.tree_cell hc, Content.entries_toTree] at hm
      obtain ⟨⟨k, slot⟩, hk, heq⟩ := List.mem_map.mp hm
      cases heq
      refine ⟨slot, rfl, fun e hslot => ?_⟩
      exact he.held (hplace d rfl) (holds_iff.mpr ⟨c, hc, hslot ▸ hk⟩)
  anchor h := h

/-- The node stands for the match: it has its value, and if it is a cell, it has the location of the
match for its place. -/
structure Shows (s : Store) (t : Tree CellId) (m : Match Spot) : Prop where
  value : t.toJson = m.matched.toJson
  place : ∀ {d}, slotOf t = .cell d → s.place? d = some m.path

theorem shows_of_placed {m : Match CellId} (h : m.From s.Placed) :
    s.Shows m.matched.toTree (m.relabel s.spotOf) := by
  refine ⟨?_, fun {d} hd => ?_⟩
  · rw [Match.relabel]
    cases m.matched with
    | node t => exact (t.toJson_relabel s.spotOf).symm
    | key k => rfl
  · obtain ⟨frame, ⟨slot, hvalue, hplace⟩, rfl | rfl⟩ := h
    · change slotOf frame.value = .cell d at hd
      rw [hvalue] at hd
      exact hplace d (slotOf_tree hd)
    · cases hd

theorem Sound.find_document (hs : s.Sound) (he : s.Exact) (hroot : s.root = some root)
    (path : String) : find path (s.toJson (.cell root)) =
      ((s.tree (.cell root)).search path).map (List.map (Match.relabel s.spotOf)) := by
  rw [find, ← he.relabel_tree hs.toFormed root [] (hs.rooted.mpr hroot),
    Tree.search_relabel hs.spotOf_injective]

end Store

namespace Universe

/-- **While no cell of a document moves, a path fails on it exactly if it fails on its value, with the
same error, and otherwise its nodes stand for the matches in the value one by one.** -/
theorem Reached.selectAll_shows_find {u : Universe Journal}
    {react : ListenerId → Change → Client} {reach depth : Nat}
    (h : u.Reached (Client.reacting react reach depth)) {k : StoreId}
    (hJ : Journal.CompliesBy (Store.Policy.never.onlyIn k) u.memory) {stores : Array Store}
    (hs : u.Passed stores) {document : Json}
    (hdocument : ((seen stores).store k).document = some document) (path : String) :
    (∀ e, ((seen stores).store k).selectAll path none = .error e ↔
      find path document = .error e) ∧
    ∀ ts, ((seen stores).store k).selectAll path none = .ok ts →
      ∃ ms, find path document = .ok ms ∧
        List.Forall₂ ((seen stores).store k).Shows ts ms := by
  have sound := (h.stepwiseBy hJ stores hs k).sound
  have exact := (h.stepwiseBy hJ).exact hs
  generalize (seen stores).store k = s at hdocument sound exact ⊢
  obtain ⟨root, hroot, rfl⟩ := Option.map_eq_some_iff.mp hdocument
  have hselect : s.selectAll path none =
      (s.tree (.cell root)).search path >>= fun ms => .ok (ms.map fun m => m.matched.toTree) := by
    rw [Store.selectAll, Store.rootTree?, hroot]
    rfl
  rw [hselect, sound.find_document exact hroot]
  cases hsearch : (s.tree (.cell root)).search path with
  | error e =>
    exact ⟨fun _ => ⟨fun h => congrArg _ (Except.error.inj h),
      fun h => congrArg _ (Except.error.inj h)⟩, fun ts h => by cases h⟩
  | ok ms =>
    refine ⟨fun e => ⟨fun h => (by cases h), fun h => (by cases h)⟩, fun ts hts => ⟨_, rfl, ?_⟩⟩
    cases hts
    refine List.forall₂_map_left_iff.mpr (List.forall₂_map_right_iff.mpr ?_)
    refine List.forall₂_same.mpr fun m hm => Store.shows_of_placed ?_
    refine Tree.from_of_mem_search (exact.inherited_placed sound.toFormed) ?_ hsearch hm
    exact ⟨.cell root, rfl, fun d hd => Slot.cell.inj hd ▸ sound.rooted.mpr hroot⟩

theorem selectAll_after_load : ∃ ts ms, (afterLoad.store 0).selectAll "$.a.b" none = .ok ts ∧
    find "$.a.b" nested.json = .ok ms ∧ List.Forall₂ (afterLoad.store 0).Shows ts ms ∧
    ts.map Store.slotOf = [.cell 0] := by
  have hdocument : ((seen afterLoad.stores).store 0).document = some nested.json := rfl
  have shown := reached_afterLoad.selectAll_shows_find (complies_afterLoad _) (.inl rfl) hdocument "$.a.b"
  obtain ⟨ms, hms, hall⟩ := shown.2 [.object 0 []] rfl
  exact ⟨_, ms, rfl, hms, hall, rfl⟩

end Universe

end LiveJson

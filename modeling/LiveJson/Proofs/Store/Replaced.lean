import LiveJson.Proofs.Json.Replaced
import LiveJson.Proofs.Store.Named

/-! # Replacing a member of a cell

A member that is there can always be written. In an exact store this replaces the value at its
location, and every other cell keeps what it holds. -/

namespace LiveJson.Store

variable {s t : Store} {d id : CellId} {path location : Path} {k key : Key} {c : Content}
  {slot : Slot} {edit : Edit} {x : Json} {name : String}

/-- From `s` to `t`, the value at a location has been replaced by `x`. Only the cell `id`, which holds
it, has changed. -/
structure Replaced (s t : Store) (id : CellId) (location : Path) (x : Json) : Prop where
  document : ∃ v w, s.document = some v ∧ t.document = some w ∧ v.Replaced w location x
  content? : ∀ {d}, d < s.cells.size → d ≠ id → t.content? d = s.content? d

theorem Replaced.frame {s' t' : Store} (h : s.Replaced t id location x) (hs : s'.cells = s.cells)
    (hs' : s'.root = s.root) (ht : t'.cells = t.cells) (ht' : t'.root = t.root) :
    s'.Replaced t' id location x where
  document := by
    rw [document_frame hs hs', document_frame ht ht']
    exact h.document
  content? hd hne := by
    simp only [Store.content?, hs, ht] at hd ⊢
    exact h.content? hd hne

/-! ## Members in the tree -/

theorem Target.get?_tree (target : Target s id (.name name) path key c) (hs : s.Formed) :
    (s.tree (.cell id)).get? name = (c.get? key).map fun slot => (key, s.tree slot) := by
  rw [hs.tree_cell target.content]
  rcases target.key_cases with ⟨i, items, rfl, rfl, hi⟩ | ⟨members, rfl, rfl⟩
  · simp only [Content.toTree, Tree.get?, Content.get?, hi, Key.asIndex_index, List.getElem?_map,
      Option.bind_eq_bind, Option.bind_some]
    cases items[i]? <;> rfl
  · simp only [Content.toTree, Tree.get?, Content.get?, Key.toName_name, Members.get?_map,
      Option.map_map]
    rfl

/-- A member that is found in the tree of an attached cell can be aimed at. -/
theorem exists_target (hs : s.Formed) (ha : s.alive = true) (hp : s.place? id = some path)
    {child : Key × Tree CellId} (h : (s.tree (.cell id)).get? name = some child) :
    ∃ key c slot, Target s id (.name name) path key c ∧ c.get? key = some slot ∧
      child = (key, s.tree slot) := by
  obtain ⟨c, hc⟩ := content?_of_place? hp
  have hnormal : ∃ key, s.normalize id (.name name) = .ok key := by
    rw [normalize, isArray_eq hc]
    cases c with
    | object members => exact ⟨_, rfl⟩
    | array items =>
      rw [hs.tree_cell hc] at h
      obtain ⟨i, hi, -⟩ := Option.bind_eq_some_iff.mp h
      rw [hi]
      exact ⟨_, rfl⟩
  obtain ⟨key, hkey⟩ := hnormal
  obtain ⟨c', target⟩ := target_of_ok (attached_of_place? ha hp) hkey
  rw [target.get?_tree hs] at h
  obtain ⟨slot, hslot, rfl⟩ := Option.map_eq_some_iff.mp h
  exact ⟨key, c', slot, target, hslot, rfl⟩

theorem isSome_get?_tree (hs : s.Formed) (id : CellId) (name : String) :
    ((s.tree (.cell id)).get? name).isSome = (s.get? id (.name name)).isSome := by
  cases hc : s.content? id with
  | none => rw [tree, treeTo_of_none _ hc, Store.get?, hc]; rfl
  | some c =>
    rw [hs.tree_cell hc, get?_eq hc]
    cases c with
    | array items =>
      simp only [Content.toTree, Tree.get?, Content.get?]
      cases hi : (Key.name name).asIndex with
      | none => rfl
      | some i =>
        simp only [Option.bind_eq_bind, Option.bind_some, List.getElem?_map]
        cases items[i]? <;> rfl
    | object members =>
      simp only [Content.toTree, Tree.get?, Content.get?, Members.get?_map, Option.isSome_map,
        Key.toName_name]

/-! ## Writing a member that is there -/

theorem Target.set_copy (target : Target s id k path key c) (h : c.get? key = some slot)
    (value : Json) : ∃ edit t, s.set id k (.copy value) = .ok (edit, t) := by
  refine target.exists_set (fun i heq => ?_) rfl
  subst heq
  rcases target.key_cases with ⟨j, items, hj, rfl, -⟩ | ⟨members, hname, -⟩
  · cases hj
    obtain ⟨hlt, -⟩ := List.getElem?_eq_some_iff.mp h
    exact Nat.le_of_lt hlt
  · cases hname

theorem Target.replaced_set (target : Target s id k path key c) (hs : s.Sound) (he : s.Exact)
    (hslot : c.get? key = some slot) (hx : x.WellFormed)
    (h : s.set id k (.copy x) = .ok (edit, t)) : s.Replaced t id (path ++ [key]) x := by
  have hlies := hs.liesAt target.place
  obtain ⟨v, hv, hfollow⟩ := Option.bind_eq_some_iff.mp (hs.toFormed.follow_document hlies)
  rw [hs.toFormed.toJson_cell target.content] at hfollow
  refine ⟨⟨v, v.edit (Json.put key x) path, hv, ?_, ?_⟩, ?_⟩
  · obtain ⟨p, hp, hedited⟩ := hs.document_set he hx h
    cases hp.symm.trans target.place
    rw [hedited, hv, Option.map_some, Json.edit_congr hfollow (target.put_eq x s.toJson).symm]
  · refine Json.replaced_edit ⟨hs.toFormed.spells hv hlies, hfollow⟩
      (Content.takes_toJson target.fits s.toJson) (y := s.toJson slot) ?_
    rw [Content.toJson_member, hslot]
    rfl
  · intro d hd hne
    have legal : s.Legal (.copy x) := hx
    obtain ⟨path', key', c', slot', w, u, target', -, lands, -, rfl⟩ := hs.set_eq_ok legal h
    exact (content?_setContent_of_ne hne).trans ((lands.landed hs target').content? hd)

end LiveJson.Store

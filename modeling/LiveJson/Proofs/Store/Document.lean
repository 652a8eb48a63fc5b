import LiveJson.Proofs.Json.Edit
import LiveJson.Proofs.Store.Exact

/-! # The document as a value

In an exact store each change of a cell is an edit of the plain value of the document, at the place
of the cell: what the cell holds is read as before, except at the written key, and on the way up
from the cell each container is read with one member changed. -/

namespace LiveJson

namespace Content

variable {c : Content} {k key : Key} {slot : Slot} {f g : Slot → Json}

theorem toJson_member (c : Content) (k : Key) (f : Slot → Json) :
    (c.toJson f).member k = (c.get? k).map f := by
  cases c with
  | array items =>
    simp only [toJson, Json.member, get?]
    cases k.asIndex with
    | none => rfl
    | some i => simp
  | object members => exact Members.get?_map f k.toName members

theorem toJson_insert (hk : c.Fits key) (hr : ∀ i, key = .index i → i ≤ c.length) :
    (c.insert key slot).toJson f = Json.put key (f slot) (c.toJson f) := by
  cases c with
  | array items =>
    cases key with
    | name n => exact hk.elim
    | index i =>
      by_cases hi : i < items.length
      · simp [insert, toJson, Json.put, hi, List.map_set]
      · have hend : i = items.length := Nat.le_antisymm (hr i rfl) (Nat.le_of_not_lt hi)
        simp [insert, toJson, Json.put, hend]
  | object members =>
    show Json.object _ = Json.object _
    rw [Members.map_insert]

theorem toJson_erase : (c.erase key).toJson f = (c.toJson f).drop key := by
  cases c with
  | array items =>
    simp only [erase, toJson, Json.drop]
    cases key.asIndex with
    | none => rfl
    | some i => simp [List.eraseIdx_map]
  | object members =>
    show Json.object _ = Json.object _
    rw [Members.map_erase]

/-- Reading one entry differently is writing at its key. -/
theorem toJson_eq_put (hc : c.WellFormed) (hslot : (key, slot) ∈ c.entries)
    (h : ∀ k s, (k, s) ∈ c.entries → k ≠ key → g s = f s) :
    c.toJson g = Json.put key (g slot) (c.toJson f) := by
  cases c with
  | array items =>
    obtain ⟨i, rfl, hi⟩ := mem_entries_array.mp hslot
    obtain ⟨hlt, hget⟩ := List.getElem?_eq_some_iff.mp hi
    simp only [toJson, Json.put, Key.asIndex_index, List.length_map, if_pos hlt, Json.array.injEq]
    apply List.ext_getElem?
    intro j
    rw [List.getElem?_set, List.length_map, List.getElem?_map]
    split
    · next hij => rw [← hij, hi]; rfl
    · next hij =>
      rw [List.getElem?_map]
      cases hj : items[j]? with
      | none => rfl
      | some s =>
        have hne : Key.index j ≠ .index i := fun he => hij (Key.index.inj he).symm
        exact congrArg some (h _ s (mem_entries_array.mpr ⟨j, rfl, hj⟩) hne)
  | object members =>
    obtain ⟨n, rfl, hn⟩ := mem_entries_object.mp hslot
    simp only [toJson, Json.put, Key.toName_name, Json.object.injEq]
    have other : ∀ m s, (m, s) ∈ members → m ≠ n → g s = f s := fun m s hm hne =>
      h (.name m) s (mem_entries_object.mpr ⟨m, rfl, hm⟩) fun he => hne (Key.name.inj he)
    exact Members.map_eq_insert hc.1 hn other

end Content

namespace Store

variable {s t u v : Store} {d e id root : CellId} {path p q : Path} {k key : Key} {c : Content}
  {slot : Slot} {f : Json → Json} {incoming : Incoming} {edit : Edit}

/-- The value of the document, if one is loaded. -/
def document (s : Store) : Option Json := s.root.map fun id => s.toJson (.cell id)

theorem document_frame (hc : t.cells = s.cells) (hr : t.root = s.root) :
    t.document = s.document := by
  rw [document, document, hr, toJson_frame hc]

/-! ## Keys -/

theorem Target.key_cases (target : Target s id k path key c) :
    (∃ i items, key = .index i ∧ c = .array items ∧ k.asIndex = some i) ∨
      ∃ members, key = .name k.toName ∧ c = .object members := by
  have hnormal := target.normal
  unfold normalize at hnormal
  rw [isArray_eq target.content] at hnormal
  cases c with
  | array items =>
    left
    simp only [Content.isArray, if_true] at hnormal
    split at hnormal
    · next i hi => cases hnormal; exact ⟨i, items, rfl, rfl, hi⟩
    · cases hnormal
  | object members => cases hnormal; exact Or.inr ⟨members, rfl, rfl⟩

/-- In a value it makes no difference in which form a key is. -/
theorem Target.put_eq (target : Target s id k path key c) (w : Json) (g : Slot → Json) :
    Json.put key w (c.toJson g) = Json.put k w (c.toJson g) := by
  rcases target.key_cases with ⟨i, items, rfl, rfl, hi⟩ | ⟨members, rfl, rfl⟩
  · simp only [Content.toJson, Json.put, hi, Key.asIndex_index]
  · rfl

theorem Target.drop_eq (target : Target s id k path key c) (g : Slot → Json) :
    (c.toJson g).drop key = (c.toJson g).drop k := by
  rcases target.key_cases with ⟨i, items, rfl, rfl, hi⟩ | ⟨members, rfl, rfl⟩
  · simp only [Content.toJson, Json.drop, hi, Key.asIndex_index]
  · rfl

/-! ## One changed cell -/

/-- `t` is `s` with another content of one cell of the document, and perhaps with further cells. -/
structure Changed (s t : Store) (id : CellId) : Prop where
  formed : t.Formed
  root : t.root = s.root
  content? : ∀ {d}, d < s.cells.size → d ≠ id → t.content? d = s.content? d

theorem Changed.toJson_apart (h : Changed s t id) (hs : s.Formed) (hd : d < s.cells.size)
    (hn : ¬ s.Reaches d id) : t.toJson (.cell d) = s.toJson (.cell d) :=
  hs.toJson_congr h.formed fun _ hr => h.content? (hs.reaches_lt hr hd) fun he => hn (he ▸ hr)

/-- What the changed cell held reads as before. -/
theorem Changed.toJson_members (h : Changed s t id) (hs : s.Formed)
    (hc : s.content? id = some c) : c.toJson t.toJson = s.toJson (.cell id) := by
  rw [hs.toJson_cell hc]
  apply Content.toJson_congr
  intro k slot hk
  cases slot with
  | scalar v => rw [toJson_scalar, toJson_scalar]
  | cell d =>
    have hp : s.Parent id d := ⟨k, holds_iff.mpr ⟨c, hc, hk⟩⟩
    exact h.toJson_apart hs (hs.closed hp) (hs.acyclic.not_reaches hp)

/-- From the changed cell upward, each container reads as before except at the key on the way. -/
theorem Changed.toJson_edit (h : Changed s t id) (hs : s.Sound) (he : s.Exact)
    (hid : s.place? id = some path)
    (hf : t.toJson (.cell id) = f (s.toJson (.cell id))) :
    ∀ (p : Path) {e q}, s.place? e = some q → path = q ++ p →
      t.toJson (.cell e) = Json.edit f p (s.toJson (.cell e)) := by
  intro p
  induction p with
  | nil =>
    intro e q hq hpath
    rw [List.append_nil] at hpath
    rw [hs.place_unique hq (hpath ▸ hid)]
    exact hf
  | cons k p ih =>
    intro e q hq hpath
    have hpath' : path = q ++ [k] ++ p := by rw [hpath, List.append_assoc]; rfl
    obtain ⟨x, hx⟩ := hs.place?_prefix p (hpath' ▸ hid)
    obtain ⟨e', hq', hk⟩ := hs.anchored hx
    obtain rfl := hs.place_unique hq' hq
    obtain ⟨c, hc, hm⟩ := holds_iff.mp hk
    have hne : e' ≠ id := by
      intro heq
      subst heq
      have hlen := congrArg List.length (Option.some.inj (hid.symm.trans hq))
      rw [hpath, List.length_append, List.length_cons] at hlen
      omega
    have hct : t.content? e' = some c := (h.content? (lt_size_of_content? hc) hne).trans hc
    have other : ∀ j slot, (j, slot) ∈ c.entries → j ≠ k → t.toJson slot = s.toJson slot := by
      intro j slot hj hjk
      cases slot with
      | scalar v => rw [toJson_scalar, toJson_scalar]
      | cell d =>
        have hheld := holds_iff.mpr ⟨c, hc, hj⟩
        refine h.toJson_apart hs.toFormed (hs.closed ⟨j, hheld⟩) fun hr => hjk ?_
        obtain ⟨r, hr⟩ := he.place?_below (he.held hq hheld) hr
        rw [hid, hpath, Option.some.injEq, List.append_assoc, List.append_cancel_left_eq] at hr
        exact (List.cons.inj hr).1.symm
    have hwf := hs.wellFormed hc
    have hmember : (s.toJson (.cell e')).member k = some (s.toJson (.cell x)) := by
      rw [hs.toJson_cell hc, Content.toJson_member,
        (Content.get?_eq_some_iff hwf (Content.fits_of_mem_entries hm)).mpr hm]
      rfl
    rw [Json.edit, hmember, h.formed.toJson_cell hct, Content.toJson_eq_put hwf hm other,
      ih hx hpath', hs.toJson_cell hc]

theorem Changed.document (h : Changed s t id) (hs : s.Sound) (he : s.Exact)
    (hid : s.place? id = some path) (hf : t.toJson (.cell id) = f (s.toJson (.cell id))) :
    t.document = s.document.map (Json.edit f path) := by
  obtain ⟨root, hroot, -⟩ := hs.reaches_root hid
  unfold Store.document
  rw [h.root, hroot]
  exact congrArg some (h.toJson_edit hs he hid hf path (hs.rooted.mpr hroot) rfl)

/-! ## Operations on the document -/

/-- Where a cell lies, the document has its value. -/
theorem Formed.follow_document (hs : s.Formed) (h : s.LiesAt p d) :
    s.document.bind (Json.follow p) = some (s.toJson (.cell d)) := by
  induction h with
  | root hroot =>
    unfold Store.document
    rw [hroot]
    rfl
  | @member p e d k _ hk ih =>
    obtain ⟨c, hc, hm⟩ := holds_iff.mp hk
    have hget := (Content.get?_eq_some_iff (hs.wellFormed hc)
      (Content.fits_of_mem_entries hm)).mpr hm
    obtain ⟨v, hv, hp⟩ := Option.bind_eq_some_iff.mp ih
    rw [hv, Option.bind_some, Json.follow_concat, hp, Option.bind_some, hs.toJson_cell hc,
      Content.toJson_member, hget]
    rfl

theorem Sound.document_load (hs : s.Sound) {v : Json} (hv : v.WellFormed)
    (h : s.load v = .ok t) : t.document = some v := by
  obtain ⟨root, u, hwrap, loaded⟩ := hs.load_eq_ok hv h
  have formed := loaded.wrapped.formed hs.toFormed
  have hread := toJson_wrap [] v s hv hs.toFormed
  rw [hwrap] at hread
  have hroot : t.root = some root := unplaced_root loaded.unplaced
  unfold Store.document
  rw [hroot, Option.map_some, toJson_unplaced loaded.unplaced]
  rw [toJson_frame (s := u) (t := u.rootedAt root) rfl, hread]

/-- A value that was written reads as itself. -/
theorem Lands.toJson_copy {w : Store} {value : Json}
    (lands : Lands s w u id path key (.copy value) slot) (hs : s.Sound)
    (target : Target s id k path key c) (hr : InRange c key) :
    (u.setContent id (c.insert key slot)).toJson slot = value := by
  have landed := lands.landed hs target
  have sound := landed.sound hs target hr
  cases lands with
  | copy vacant wellFormed wrap =>
    have hread := toJson_wrap (path ++ [key]) value w wellFormed
      (hs.toFormed.unplaced vacant.unplaced)
    rw [wrap] at hread
    refine Eq.trans ?_ hread
    cases slot with
    | scalar x => rw [toJson_scalar, toJson_scalar]
    | cell x =>
      refine landed.formed.toJson_congr sound.toFormed fun d hd => ?_
      exact content?_setContent_of_ne fun heq => (landed.arrived rfl).2 (heq ▸ hd)

theorem Sound.document_set (hs : s.Sound) (he : s.Exact) {v : Json} (hv : v.WellFormed)
    (h : s.set id k (.copy v) = .ok (edit, t)) :
    ∃ path, s.place? id = some path ∧
      t.document = s.document.map (Json.edit (Json.put k v) path) := by
  have legal : s.Legal (.copy v) := hv
  obtain ⟨path, key, c, slot, w, u, target, hr, lands, -, rfl⟩ := hs.set_eq_ok legal h
  have landed := lands.landed hs target
  have sound := landed.sound hs target hr
  have hid := lt_size_of_content? target.content
  have hcu := (landed.content? hid).trans target.content
  have changed : Changed s (u.setContent id (c.insert key slot)) id :=
    ⟨sound.toFormed, landed.root, fun hd hne =>
      (content?_setContent_of_ne hne).trans (landed.content? hd)⟩
  refine ⟨path, target.place, changed.document hs he target.place ?_⟩
  rw [sound.toJson_cell (content?_setContent_self (lt_size_of_content? hcu)),
    Content.toJson_insert target.fits hr, lands.toJson_copy hs target hr, target.put_eq,
    changed.toJson_members hs.toFormed target.content]

theorem Sound.document_delete (hs : s.Sound) (he : s.Exact) {removal : Removal}
    (h : s.delete id k = .ok (some (removal, t))) :
    ∃ path, s.place? id = some path ∧
      t.document = s.document.map (Json.edit (Json.drop k) path) := by
  obtain ⟨path, key, c, old, v, target, -, -, -, removes⟩ := hs.delete_eq_ok h
  have sound := removes.sound hs target
  have hid := lt_size_of_content? target.content
  have changed : Changed s t id :=
    ⟨sound.toFormed, (unplaced_root removes.unplaced_eq).trans rfl, fun _ hne =>
      (unplaced_content? removes.unplaced_eq).trans (content?_setContent_of_ne hne)⟩
  have hct : t.content? id = some (c.erase key) :=
    (unplaced_content? removes.unplaced_eq).trans (content?_setContent_self hid)
  refine ⟨path, target.place, changed.document hs he target.place ?_⟩
  rw [sound.toJson_cell hct, Content.toJson_erase, target.drop_eq,
    changed.toJson_members hs.toFormed target.content]

/-- Removing a key that is not there leaves the value as it is. -/
theorem Sound.document_delete_none (hs : s.Sound) (he : s.Exact) (h : s.delete id k = .ok none) :
    ∃ path, s.place? id = some path ∧
      s.document = s.document.map (Json.edit (Json.drop k) path) := by
  obtain ⟨path, key, c, target, hget⟩ := Store.delete_eq_none h
  have changed : Changed s s id := ⟨hs.toFormed, rfl, fun _ _ => rfl⟩
  refine ⟨path, target.place, changed.document hs he target.place ?_⟩
  have hmember : (s.toJson (.cell id)).member key = none := by
    rw [hs.toJson_cell target.content, Content.toJson_member, hget]
    rfl
  rw [hs.toJson_cell target.content] at hmember ⊢
  rw [← target.drop_eq, Json.drop_of_member_none hmember]

end Store

end LiveJson

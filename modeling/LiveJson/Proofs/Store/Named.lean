import LiveJson.Proofs.Json.Named
import LiveJson.Proofs.Store.Document

/-! # Edits of the document by names

The location of an edit has the form of the keys on the way to it, so its text tells how to make the
same edit in a copy of the document. -/

namespace LiveJson

theorem Content.takes_toJson {c : Content} {key : Key} (h : c.Fits key) (f : Slot → Json) :
    (c.toJson f).Takes key := by
  cases c with
  | array items => cases key with
    | index i => trivial
    | name n => exact h.elim
  | object members => cases key with
    | index i => exact h.elim
    | name n => trivial

namespace Store

variable {s t : Store} {d id : CellId} {path p : Path} {k key : Key} {c : Content}
  {document : Json} {edit : Edit}

/-- Behind a path to a cell of the document, a key that fits the cell has the right form. -/
theorem Formed.spells_concat (hs : s.Formed) (hdocument : s.document = some document)
    (hspells : document.Spells p) (hlies : s.LiesAt p d) (hc : s.content? d = some c)
    (hkey : c.Fits key) : document.Spells (p ++ [key]) := by
  have hfollow := hs.follow_document hlies
  rw [hdocument, Option.bind_some] at hfollow
  refine Json.spells_append.mpr ⟨hspells, fun w hw => ⟨?_, fun _ _ => trivial⟩⟩
  cases hfollow.symm.trans hw
  rw [hs.toJson_cell hc]
  exact Content.takes_toJson hkey s.toJson

theorem Formed.spells (hs : s.Formed) (hdocument : s.document = some document)
    (h : s.LiesAt p d) : document.Spells p := by
  induction h with
  | root _ => trivial
  | member hlies hholds ih =>
    obtain ⟨c, hc, hm⟩ := holds_iff.mp hholds
    exact hs.spells_concat hdocument ih hlies hc (Content.fits_of_mem_entries hm)

/-- An edit at a key of a cell can be made from the text of its location. -/
theorem Target.editAt_eq (target : Target s id k path key c) (hs : s.Sound)
    (hdocument : s.document = some document) {f : Key → Json → Json}
    (hf : f key (c.toJson s.toJson) = f k (c.toJson s.toJson)) :
    document.editAt f (Path.names (path ++ [key]).toText) = Json.edit (f k) path document := by
  have hlies := hs.liesAt target.place
  have hspells := hs.toFormed.spells_concat hdocument (hs.toFormed.spells hdocument hlies) hlies
    target.content target.fits
  have hfollow := hs.toFormed.follow_document hlies
  rw [hdocument, Option.bind_some, hs.toFormed.toJson_cell target.content] at hfollow
  rw [Path.names_toText, Json.editAt_toName hspells]
  exact Json.edit_congr hfollow hf

/-- What a write of a value says is enough to make it in a copy of the document. -/
theorem Sound.replay_set (hs : s.Sound) (he : s.Exact) {v : Json} (hv : v.WellFormed)
    (h : s.set id k (.copy v) = .ok (edit, t)) (hdocument : s.document = some document) :
    edit.op = .set ∧ (∃ slot, edit.new = some slot ∧ t.toJson slot = v) ∧
      t.document =
        some (document.editAt (fun key => Json.put key v) (Path.names edit.location.toText)) := by
  obtain ⟨p, hp, hedited⟩ := hs.document_set he hv h
  have legal : s.Legal (.copy v) := hv
  obtain ⟨path, key, c, slot, w, u, target, hr, lands, rfl, rfl⟩ := hs.set_eq_ok legal h
  cases hp.symm.trans target.place
  refine ⟨rfl, ⟨slot, rfl, lands.toJson_copy hs target hr⟩, ?_⟩
  rw [hedited, hdocument, Option.map_some,
    target.editAt_eq hs hdocument (f := fun key => Json.put key v) (target.put_eq v s.toJson)]

theorem Sound.replay_delete (hs : s.Sound) (he : s.Exact) {removal : Removal}
    (h : s.delete id k = .ok (some (removal, t))) (hdocument : s.document = some document) :
    removal.edit.op = .delete ∧
      t.document = some (document.editAt Json.drop (Path.names removal.edit.location.toText)) := by
  obtain ⟨p, hp, hedited⟩ := hs.document_delete he h
  obtain ⟨path, key, c, old, target, -, hedit, -, -⟩ := Store.delete_eq_ok h
  cases hp.symm.trans target.place
  rw [hedit]
  refine ⟨rfl, ?_⟩
  rw [hedited, hdocument, Option.map_some,
    target.editAt_eq hs hdocument (f := Json.drop) (target.drop_eq s.toJson)]

end Store

end LiveJson

import LiveJson.Proofs.Store.Document

/-! # Copies

An array or object that is copied into a document becomes a new cell, with new cells below it. It
reads as what was copied and shares no cell with it, nor with anything that was there before. -/

namespace LiveJson.Store

variable {s t : Store} {d x id : CellId} {k : Key} {value : Json} {location : Path} {edit : Edit}

/-- Cell `x` of `t` is a copy of the value, at the location and in cells that are not in `s`. -/
structure Copied (s t : Store) (location : Path) (value : Json) (x : CellId) : Prop where
  reads : t.toJson (.cell x) = value
  place : t.place? x = some location
  fresh : ∀ {d}, t.Reaches x d → s.cells.size ≤ d

theorem Copied.frame {s' t' : Store} (h : Copied s t location value x) (hs : s'.cells = s.cells)
    (ht : t'.cells = t.cells) : Copied s' t' location value x where
  reads := by rw [toJson_frame ht]; exact h.reads
  place := by rw [place?, ht]; exact h.place
  fresh hd := by rw [hs]; exact h.fresh ((reaches_frame ht).mp hd)

/-- A cell reads as an array or object. -/
theorem Formed.isComposite_toJson (hs : s.Formed) (hd : d < s.cells.size) :
    (s.toJson (.cell d)).isComposite = true := by
  cases hc : s.content? d with
  | none => exact absurd (content?_eq_none_iff.mp hc) (Nat.not_le.mpr hd)
  | some c =>
    rw [hs.toJson_cell hc]
    cases c <;> rfl

theorem Sound.copied_set (hs : s.Sound) (hv : value.WellFormed) (hcomposite : value.isComposite = true)
    (h : s.set id k (.copy value) = .ok (edit, t)) :
    ∃ x, edit.new = some (.cell x) ∧ Copied s t edit.location value x := by
  have legal : s.Legal (.copy value) := hv
  obtain ⟨path, key, c, slot, v, u, target, hr, lands, rfl, rfl⟩ := hs.set_eq_ok legal h
  have landed := lands.landed hs target
  have reads := lands.toJson_copy hs target hr
  cases slot with
  | scalar w =>
    -- a scalar slot would read as a scalar
    rw [toJson_scalar] at reads
    have hscalar : w.isComposite = false := landed.wellFormed
    rw [reads, hcomposite] at hscalar
    cases hscalar
  | cell x =>
    obtain ⟨hplace, hclear⟩ := landed.arrived rfl
    refine ⟨x, rfl, reads, place?_setContent.trans hplace, fun {d} hd => ?_⟩
    have same : ∀ e, u.Reaches x e →
        (u.setContent id (c.insert key (.cell x))).content? e = u.content? e :=
      fun e he => content?_setContent_of_ne fun heq => hclear (heq ▸ he)
    rw [reaches_congr same] at hd
    cases lands with
    | copy vacant wellFormed wrap =>
      have hw := wrapped_wrap (path ++ [key]) value v wellFormed
      rw [wrap] at hw
      have hnew := ((hw.slot (List.mem_singleton.mpr rfl)).2 x rfl).1
      exact (unplaced_size vacant.unplaced).symm.trans_le (hw.reaches_new hnew hd)

end LiveJson.Store

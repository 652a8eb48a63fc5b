import LiveJson.Proofs.Store.Erase

/-! # What an edit says

An edit names a location with what it held and what it holds. Both are there when the location is
followed in the store before and after, and what the location held still reads as it did. -/

namespace LiveJson.Store

variable {s t : Store} {id x d : CellId} {path : Path} {k key : Key} {c : Content} {edit : Edit}
  {incoming : Incoming}

structure Accounts (s t : Store) (edit : Edit) : Prop where
  old : s.at? edit.location = edit.old
  new : t.at? edit.location = edit.new
  wellFormed : ∀ {slot}, edit.new = some slot → slot.WellFormed
  deleted : edit.op = .delete → edit.new = none
  kept : ∀ {x d}, edit.old = some (.cell x) → s.Reaches x d → t.tree (.cell d) = s.tree (.cell d)

theorem at?_frame (hc : t.cells = s.cells) (hr : t.root = s.root) : t.at? = s.at? := by
  obtain ⟨cells, root, _⟩ := t
  cases hc
  cases hr
  rfl

theorem Accounts.frame {s' t' : Store} (h : Accounts s t edit) (hs : s'.cells = s.cells)
    (hs' : s'.root = s.root) (ht : t'.cells = t.cells) (ht' : t'.root = t.root) :
    Accounts s' t' edit where
  old := by rw [at?_frame hs hs']; exact h.old
  new := by rw [at?_frame ht ht']; exact h.new
  wellFormed := h.wellFormed
  deleted := h.deleted
  kept hx hd := by
    rw [tree_frame hs, tree_frame ht]
    exact h.kept hx ((reaches_frame hs).mp hd)

theorem Sound.at?_key (hs : s.Sound) (hp : s.place? id = some path) (hc : s.content? id = some c)
    (key : Key) : s.at? (path ++ [key]) = c.get? key := by
  rw [at?_concat, hs.at?_place hp]
  exact get?_eq hc

/-- Changing a cell changes nothing below what it holds. -/
theorem Target.tree_kept (target : Target s id k path key c) (hs : s.Sound) (ht : t.Formed)
    (h : ∀ {d}, d < s.cells.size → d ≠ id → t.content? d = s.content? d)
    (hx : c.get? key = some (.cell x)) (hd : s.Reaches x d) :
    t.tree (.cell d) = s.tree (.cell d) := by
  have hm := (Content.get?_eq_some_iff (hs.wellFormed target.content) target.fits).mp hx
  have hp : s.Parent id x := ⟨key, holds_iff.mpr ⟨c, target.content, hm⟩⟩
  refine hs.toFormed.tree_congr ht d fun e he => ?_
  refine h (hs.toFormed.reaches_lt (hd.trans he) (hs.closed hp)) fun heq => ?_
  exact hs.acyclic.not_reaches hp (heq ▸ hd.trans he)

theorem Sound.accounts_set (hs : s.Sound) (legal : s.Legal incoming)
    (h : s.set id k incoming = .ok (edit, t)) : Accounts s t edit := by
  obtain ⟨path, key, c, slot, v, u, target, hr, lands, rfl, rfl⟩ := hs.set_eq_ok legal h
  have landed := lands.landed hs target
  have sound := landed.sound hs target hr
  have hid := lt_size_of_content? ((landed.content? (lt_size_of_content? target.content)).trans
    target.content)
  have hplace : (u.setContent id (c.insert key slot)).place? id = some path :=
    place?_setContent.trans (landed.above (.refl _ _) target.place not_concat_prefix)
  refine ⟨hs.at?_key target.place target.content key, ?_, ?_, fun h => (by cases h),
    fun {x d} hx hd => ?_⟩
  · have hwf := hs.wellFormed target.content
    have hm : (key, slot) ∈ (c.insert key slot).entries :=
      (Content.mem_entries_insert hwf target.fits hr).mpr (Or.inl ⟨rfl, rfl⟩)
    refine (sound.at?_key hplace (content?_setContent_self hid) key).trans ?_
    exact (Content.get?_eq_some_iff (hwf.insert landed.wellFormed)
      (Content.fits_of_mem_entries hm)).mpr hm
  · intro _ heq
    cases heq
    exact landed.wellFormed
  · exact target.tree_kept hs sound.toFormed (fun hd hne =>
      (content?_setContent_of_ne hne).trans (landed.content? hd)) hx hd

theorem Sound.accounts_delete (hs : s.Sound) {removal : Removal} {name : String}
    (hname : removal.edit.location = path ++ [Key.name name])
    (h : s.delete id k = .ok (some (removal, t))) : Accounts s t removal.edit := by
  obtain ⟨p, key, c, old, v, target, hold, hedit, -, removes⟩ := hs.delete_eq_ok h
  have sound := removes.sound hs target
  have hid := lt_size_of_content? target.content
  rw [hedit] at hname ⊢
  obtain ⟨rfl, hkey⟩ := List.append_inj' hname rfl
  cases hkey
  have hct : t.content? id = some (c.erase (.name name)) :=
    (unplaced_content? removes.unplaced_eq).trans (content?_setContent_self hid)
  refine ⟨(hs.at?_key target.place target.content _).trans hold, ?_, ?_, fun _ => rfl,
    fun {x d} hx hd => ?_⟩
  · refine (sound.at?_key (removes.place_self hs target) hct _).trans ?_
    cases hget : (c.erase (.name name)).get? (.name name) with
    | none => rfl
    | some slot =>
      have hwf := hs.wellFormed target.content
      have hfits : (c.erase (.name name)).Fits (.name name) := by
        have hfits := target.fits
        cases c with
        | array items => exact hfits.elim
        | object members => trivial
      have hm := (Content.get?_eq_some_iff hwf.erase hfits).mp hget
      exact absurd rfl ((Content.mem_entries_erase_name hwf target.fits).mp hm).1
  · intro _ heq
    cases heq
  · refine target.tree_kept hs sound.toFormed (fun _ hne => ?_) (hold.trans hx) hd
    exact (unplaced_content? removes.unplaced_eq).trans (content?_setContent_of_ne hne)

end LiveJson.Store

import LiveJson.Proofs.Store.Clear
import LiveJson.Proofs.Store.Wrap
import LiveJson.Store.Edit

/-! # Loading a document

The new document comes as new cells, and all cells of the previous one lose their places. -/

namespace LiveJson.Store

variable {s t u : Store} {d root : CellId} {document : Json}

/-- The store with a new document that is still to be reported. -/
def rootedAt (t : Store) (root : CellId) : Store := { t with root := some root, reloadDue := true }

/-- `u` holds the new cells of `t` at their places, under a new root, and of the cells of `s` none
has a place. -/
structure Loaded (s t u : Store) (root : CellId) : Prop where
  wrapped : Wrapped s t [([], .cell root)]
  unplaced : u.unplaced = (t.rootedAt root).unplaced
  gone : ∀ {d}, d < s.cells.size → u.place? d = none
  kept : ∀ {d}, s.cells.size ≤ d → u.place? d = t.place? d

theorem Loaded.formed (h : Loaded s t u root) (hs : s.Sound) : u.Formed :=
  ((h.wrapped.formed hs.toFormed).frame (t := t.rootedAt root) rfl).unplaced h.unplaced

theorem Loaded.holds (h : Loaded s t u root) : u.Holds = t.Holds :=
  (unplaced_holds h.unplaced).trans rfl

theorem Loaded.of_some (h : Loaded s t u root) {p : Path} (hd : u.place? d = some p) :
    s.cells.size ≤ d ∧ t.place? d = some p := by
  by_cases hlt : d < s.cells.size
  · rw [h.gone hlt] at hd; cases hd
  · exact ⟨Nat.le_of_not_lt hlt, h.kept (Nat.le_of_not_lt hlt) ▸ hd⟩

theorem Loaded.place?_root (h : Loaded s t u root) : u.place? root = some [] := by
  obtain ⟨hnew, hp⟩ := (h.wrapped.slot (List.mem_singleton.mpr rfl)).2 root rfl
  exact (h.kept hnew).trans hp

theorem Loaded.sound (h : Loaded s t u root) (hs : s.Sound) : u.Sound where
  toFormed := h.formed hs
  rooted {d} := by
    rw [unplaced_root h.unplaced, rootedAt, Option.some.injEq]
    constructor
    · intro hd
      obtain ⟨hnew, hp⟩ := h.of_some hd
      rcases h.wrapped.held hnew (lt_size_of_place? hp) with ⟨p, hm⟩ | ⟨e, k, q, -, -, -, hp'⟩
      · obtain ⟨-, hslot⟩ := Prod.mk.inj (List.mem_singleton.mp hm)
        exact (Slot.cell.inj hslot).symm
      · simp [hp] at hp'
    · intro heq
      subst heq
      exact h.place?_root
  anchored {d q k} hd := by
    obtain ⟨hnew, hp⟩ := h.of_some hd
    rcases h.wrapped.held hnew (lt_size_of_place? hp) with ⟨p, hm⟩ | ⟨e, j, q', he, hk, hq, hp'⟩
    · have hp' := ((h.wrapped.slot hm).2 d rfl).2
      obtain ⟨rfl, -⟩ := Prod.mk.inj (List.mem_singleton.mp hm)
      simp [hp] at hp'
    · obtain ⟨rfl, hkk⟩ := List.append_inj' (Option.some.inj (hp.symm.trans hp')) rfl
      cases hkk
      exact ⟨e, (h.kept he).trans hq, h.holds ▸ hk⟩

/-! ## What a successful load does -/

theorem Sound.load_eq_ok (hs : s.Sound) (hd : document.WellFormed) (h : s.load document = .ok u) :
    ∃ root t, wrap [] document s = (.cell root, t) ∧ Loaded s t u root := by
  unfold Store.load at h
  split at h
  · cases h
  · next root t hwrap =>
    have hw := wrapped_wrap [] document s hd
    rw [hwrap] at hw
    refine ⟨root, t, hwrap, ?_⟩
    have formed : (t.rootedAt root).Formed := (hw.formed hs.toFormed).frame rfl
    split at h
    · next previous hprev =>
      obtain rfl := Except.ok.inj h
      have hprev := hs.rooted.mpr hprev
      have hbelow : ∀ e, s.Reaches previous e → (t.rootedAt root).content? e = s.content? e ∧
          (t.rootedAt root).place? e = s.place? e := fun e he =>
        have hlt := hs.toFormed.reaches_lt he (lt_size_of_place? hprev)
        ⟨hw.grown.content? hlt, hw.grown.place? hlt⟩
      refine ⟨hw, (formed.forgot previous []).unplaced, fun {d} hd => ?_, fun {d} hd => ?_⟩
      · by_cases hu : s.Under [] d
        · exact hs.gone_forget formed hprev hbelow hu
        · refine (formed.kept_forget hbelow hu).trans ((hw.grown.place? hd).trans ?_)
          cases hp : s.place? d with
          | none => rfl
          | some p => exact absurd ⟨p, hp, List.nil_prefix⟩ hu
      · refine formed.kept_forget hbelow fun ⟨p, hp, _⟩ => ?_
        exact absurd (lt_size_of_place? hp) (Nat.not_lt.mpr hd)
    · next hnone =>
      obtain rfl := Except.ok.inj h
      refine ⟨hw, rfl, fun {d} hd => (hw.grown.place? hd).trans ?_, fun _ => rfl⟩
      cases hp : s.place? d with
      | none => rfl
      | some p =>
        obtain ⟨r, hr, -⟩ := hs.reaches_root hp
        cases hnone.symm.trans hr

theorem Sound.load (hs : s.Sound) (hd : document.WellFormed) (h : s.load document = .ok u) :
    u.Sound := by
  obtain ⟨root, t, -, loaded⟩ := hs.load_eq_ok hd h
  exact loaded.sound hs

end LiveJson.Store

import LiveJson.Proofs.Path.Read

/-! # Canonical texts that begin alike

The scan that reads a key ends at the bracket that the key was written with, whatever comes behind
it. So two canonical texts that begin with the same key go on behind the same bracket, and one text
begins with the other exactly if its location begins with the other's, but for how keys are written:
a position and its digits are one name. -/

namespace LiveJson.Path

/-- The keys of a location, if its text begins with that of another, begin with those of the other,
but for how they are written. -/
theorem exists_below_of_prefix : ∀ {p q : Path}, p.flatMap Key.render <+: q.flatMap Key.render →
    ∃ below : Path, q.flatMap Key.render = (p ++ below).flatMap Key.render
  | [], q, _ => ⟨q, rfl⟩
  | key :: p, [], h => by
    rw [render_cons] at h
    simp at h
  | key :: p, other :: q, h => by
    rw [render_cons, render_cons] at h
    obtain ⟨more, hmore⟩ := (List.cons_prefix_cons.mp h).2
    rw [List.append_assoc, List.cons_append] at hmore
    -- The scan that reads a key ends at the same bracket for both texts.
    have hkey := (Segment.balanced_body key).enclosed_eq 0 0 0 (p.flatMap Key.render ++ more)
    rw [hmore, (Segment.balanced_body other).enclosed_eq] at hkey
    obtain ⟨hbody, hrest⟩ := Prod.mk.inj (Except.ok.inj hkey)
    obtain ⟨below, hbelow⟩ := exists_below_of_prefix ⟨more, hrest.symm⟩
    refine ⟨below, ?_⟩
    rw [List.cons_append, render_cons, render_cons, hbody, hbelow]

variable {p q : Path}

theorem canonical_prefix_iff : canonical p <+: canonical q ↔ p.map Key.toName <+: q.map Key.toName := by
  constructor
  · intro h
    obtain ⟨below, hbelow⟩ := exists_below_of_prefix (List.cons_prefix_cons.mp h).2
    have htext : q.toText = (p ++ below).toText := by
      rw [toText, toText, canonical, canonical, hbelow]
    rw [toText_eq_iff.mp htext, List.map_append]
    exact List.prefix_append _ _
  · rintro ⟨names, hnames⟩
    have htext : q.toText = (p ++ names.map Key.name).toText := by
      rw [toText_eq_iff, ← hnames, List.map_append, List.map_map]
      simp [Function.comp_def]
    rw [toText, toText, String.ofList_inj] at htext
    rw [htext, canonical_append]
    exact List.prefix_append _ _

/-- **A canonical path is a faithful key: its text begins with that of another exactly if the names of
its keys begin with those of the other, so the texts are equal exactly if the names are; and it is read
back as one segment for each key, a wildcard for a star and the name for any other, or as the root if
there is no key.** -/
theorem toText_faithful (p q : Path) :
    (p.toText.toList <+: q.toText.toList ↔ p.map Key.toName <+: q.map Key.toName) ∧
      (p.toText = q.toText ↔ p.map Key.toName = q.map Key.toName) ∧
      Segment.read p.toText = .ok (if p = [] then [.root] else p.map fun key =>
        if key.toName = "*" then .wildcard else .name key.toName) := by
  refine ⟨?_, toText_eq_iff, ?_⟩
  · rw [toText, toText, String.toList_ofList, String.toList_ofList, canonical_prefix_iff]
  · split
    · next h => rw [h, Segment.read_root]
    · next h => exact Segment.read_toText h

end LiveJson.Path

import LiveJson.Proofs.Path.Prefix
import LiveJson.Proofs.Store.Listening

/-! # Which paths run through an element of an array

The listened paths that a removal concerns are told apart by their text alone: the text of the
array, then a bracketed number. No canonical text goes on as another one does unless its location
does, since each bracket closes where its key ends, and what is quoted begins with a quote and not
with a digit. So these are the texts of the locations that run through an element of the array. -/

namespace LiveJson

namespace Key

/-- What is quoted is no number. -/
theorem position?_quoted (cs more : List Char) :
    position? ((Text.quoted cs ++ more).takeWhile (· != ']')) = none := by
  rfl

theorem isBare_of_position? {cs : List Char} {i : Nat} (h : position? cs = some i) :
    isBare cs = true := by
  unfold position? at h
  split at h
  · next hdigits =>
    rw [Bool.and_eq_true, List.all_eq_true] at hdigits
    rw [isBare, Bool.and_eq_true, List.all_eq_true]
    exact ⟨hdigits.1, fun c hc => Bool.or_eq_true_iff.mpr (.inl (hdigits.2 c hc))⟩
  · cases h

/-- Up to the next bracket a key is the number that its name is. -/
theorem position?_body (key : Key) (more : List Char) :
    position? ((key.body ++ ']' :: more).takeWhile (· != ']')) = position? key.toName.toList := by
  unfold body
  split
  · next hbare =>
    have plain : ∀ c ∈ key.toName.toList, (c != ']') = true := by
      intro c hc
      have hchar := (Segment.bareChar_of_isBare hbare).2 c hc
      rw [bne_iff_ne]
      rintro rfl
      exact absurd hchar (by decide)
    rw [List.takeWhile_append_of_pos plain, List.takeWhile_cons_of_neg (by simp), List.append_nil]
  · next hbare =>
    rw [position?_quoted]
    exact (Option.eq_none_iff_forall_ne_some.mpr fun i h => hbare (isBare_of_position? h)).symm

end Key

namespace Store

variable {s : Store} {array : Path} {start : Nat} {path : String}

theorem elementIndex?_below (array : Path) (key : Key) (below : Path) :
    elementIndex? array.toText (array ++ key :: below).toText =
      Key.position? key.toName.toList := by
  have text : (array ++ key :: below).toText.toList =
      array.toText.toList ++ '[' :: (key.body ++ ']' :: below.flatMap Key.render) := by
    simp only [Path.toText, String.toList_ofList, Path.canonical_append, Path.render_cons]
  unfold elementIndex?
  dsimp only
  rw [text, if_pos (List.isPrefixOf_iff_prefix.mpr (List.prefix_append _ _)), List.drop_left]
  exact (if_pos (by simp)).trans (key.position?_body _)

theorem elementIndex?_eq_some {p : Path} {i : Nat} :
    elementIndex? array.toText p.toText = some i ↔ ∃ (key : Key) (below : Path),
      p.toText = (array ++ key :: below).toText ∧ Key.position? key.toName.toList = some i := by
  constructor
  · intro h
    have hfront : array.toText.toList <+: p.toText.toList := by
      unfold elementIndex? at h
      dsimp only at h
      split at h
      · next hfront => exact List.isPrefixOf_iff_prefix.mp hfront
      · cases h
    simp only [Path.toText, String.toList_ofList, Path.canonical] at hfront
    obtain ⟨below, hbelow⟩ := Path.exists_below_of_prefix (List.cons_prefix_cons.mp hfront).2
    have htext : p.toText = (array ++ below).toText := by
      rw [Path.toText, Path.toText, Path.canonical, Path.canonical, hbelow]
    rw [htext] at h
    cases below with
    | nil =>
      rw [List.append_nil] at h
      unfold elementIndex? at h
      dsimp only at h
      rw [List.drop_length] at h
      split at h <;> cases h
    | cons key below =>
      rw [elementIndex?_below] at h
      exact ⟨key, below, htext, h⟩
  · rintro ⟨key, below, htext, h⟩
    rw [htext, elementIndex?_below, h]

/-- The path is the text of a location that runs through an element of the array, at position
`start` or behind it. A name of digits is a position, too. -/
def RunsThrough (array : Path) (start : Nat) (path : String) : Prop :=
  ∃ (key : Key) (below : Path) (i : Nat), path = (array ++ key :: below).toText ∧
    Key.position? key.toName.toList = some i ∧ start ≤ i

theorem runsThrough_iff (h : ∃ p : Path, path = p.toText) : RunsThrough array start path ↔
    (elementIndex? array.toText path).any (start ≤ ·) = true := by
  obtain ⟨p, rfl⟩ := h
  rw [Option.any_eq_true]
  constructor
  · rintro ⟨key, below, i, htext, hposition, hstart⟩
    exact ⟨i, elementIndex?_eq_some.mpr ⟨key, below, htext, hposition⟩, decide_eq_true hstart⟩
  · rintro ⟨i, hi, hstart⟩
    obtain ⟨key, below, htext, hposition⟩ := elementIndex?_eq_some.mp hi
    exact ⟨key, below, i, htext, hposition, of_decide_eq_true hstart⟩

end Store

end LiveJson

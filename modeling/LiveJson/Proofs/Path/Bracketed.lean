import LiveJson.Proofs.Path.Printed

/-! # Segments in brackets, by themselves

A path of one segment in brackets is read back as this segment, if the segment could have been read
from brackets at all: as any name, whatever it looks like, as the star, as a slice, or as what has
been read from some other path, alone or as an alternative. -/

namespace LiveJson.Segment

variable {s : Segment} {segs items : List Segment} {cs text : List Char} {offset : Nat}

/-- Whether the segment holds an expression, or alternatives. -/
def compound : Segment → Bool
  | filter .. | computed .. | union _ => true
  | _ => false

/-- The segment is one of the list, or an alternative of a union in it. -/
inductive Occurs (s : Segment) : List Segment → Prop
  | here {segs : List Segment} (h : s ∈ segs) : Occurs s segs
  | alternative {segs items : List Segment} (hunion : union items ∈ segs) (h : Occurs s items) :
      Occurs s segs

/-- The segments that can be read from brackets. Bounds are signed 64-bit numbers. -/
inductive Readable : Segment → Prop
  | name (text : String) : Readable (name text)
  | wildcard : Readable wildcard
  | slice {start stop step : Option Int} (hstart : InRange start) (hstop : InRange stop)
      (hstep : InRange step) (hneg : step.any (· < 0) = false) : Readable (slice start stop step)
  | compound {s : Segment} {path : String} {segs : List Segment} (hs : s.compound = true)
      (hread : read path = .ok segs) (hoccurs : Occurs s segs) : Readable s

/-! ## Alternatives -/

/-- No alternative is a union of its own. -/
theorem not_union_of_readItem : readItem offset text ≠ .ok (union items) := by
  intro h
  unfold readItem at h
  dsimp only at h
  split at h
  · cases h
  · split at h
    · cases h
    · obtain ⟨e, -, h⟩ := bind_eq_ok.mp h
      cases h
  · split at h
    · cases h
    · obtain ⟨e, -, h⟩ := bind_eq_ok.mp h
      cases h
  · split at h
    · cases h
    · split at h
      · cases h
      · split at h
        · obtain ⟨start, stop, step, heq, -⟩ := readSlice_eq_ok h
          cases heq
        · cases h

theorem not_union_of_readItems {texts : List (List Char)} (h : readItems offset texts = .ok segs) :
    union items ∉ segs := by
  induction texts generalizing offset segs with
  | nil =>
    cases h
    exact List.not_mem_nil
  | cons text texts ih =>
    obtain ⟨first, hfirst, h⟩ := bind_eq_ok.mp h
    obtain ⟨others, hothers, h⟩ := bind_eq_ok.mp h
    cases h
    rintro hm
    rcases List.mem_cons.mp hm with rfl | hm
    · exact not_union_of_readItem hfirst
    · exact ih hothers hm

theorem alternatives_of_readBracketed (hcs : Balanced cs)
    (h : readBracketed offset cs = .ok (union items)) :
    ∀ item ∈ items, item.Rereads ∧ ∀ others, item ≠ union others := by
  obtain ⟨hfirst, hothers⟩ := hcs.whole_splitTop
  unfold readBracketed at h
  split at h
  · exact absurd h not_union_of_readItem
  · next text texts hne hsplit =>
    rw [hsplit] at hfirst hothers
    obtain ⟨items', hitems, heq⟩ := map_eq_ok.mp h
    cases heq
    intro item hitem
    refine ⟨(rereads_of_readItems (List.forall_mem_cons.mpr ⟨hfirst, hothers⟩) hitems).2 item hitem,
      fun others h => ?_⟩
    exact not_union_of_readItems hitems (h ▸ hitem)

theorem Sourced.alternatives (h : Sourced (union items)) :
    ∀ item ∈ items, item.Rereads ∧ ∀ others, item ≠ union others := by
  cases h with
  | dotted h =>
    cases written_of_readDotted h with
    | bracketed hs =>
      unfold readDotted at h
      split at h
      · cases h
      · split at h <;> cases h
  | bracketed hcs h => exact alternatives_of_readBracketed hcs h

/-- Alternatives are written like the segments that hold them. -/
theorem Occurs.written (h : Occurs s segs) (hsegs : ∀ t ∈ segs, Sourced t) : Written s := by
  cases h with
  | here hs => exact (hsegs s hs).written
  | alternative hunion h =>
    have halternatives := (hsegs _ hunion).alternatives
    cases h with
    | here hs => exact .bracketed (halternatives s hs).1.bracketed
    | alternative hinner _ => exact absurd rfl ((halternatives _ hinner).2 _)

/-! ## A path of one segment -/

theorem Readable.bracketed (h : s.Readable) : s.Bracketed := by
  cases h with
  | name text => exact (rereads_name text).bracketed
  | wildcard => exact rereads_wildcard.bracketed
  | slice hstart hstop hstep hneg => exact (rereads_slice hstart hstop hstep hneg).bracketed
  | compound hs hread hoccurs =>
    cases hoccurs.written (sourced_of_ofChars hread) with
    | bracketed hbracketed => exact hbracketed
    | _ => cases hs

theorem Bracketed.ofChars (h : s.Bracketed) :
    ∃ s', Segment.ofChars ('$' :: s.print) = .ok [s'] ∧ s'.unspanned = s.unspanned := by
  obtain ⟨s', hs', hspans⟩ := h.again 2
  refine ⟨s', ?_, hspans⟩
  rw [h.print, ofChars_dollar (not_atEnd (by decide) _),
    readFrom_bracket h.balanced hs' _ _ [], List.length_cons, readFrom_nil]
  rfl

theorem compound_unspanned (s : Segment) : s.unspanned.compound = s.compound := by
  cases s <;> rfl

/-- Only expressions have spans in them. -/
theorem unspanned_eq_self (h : s.compound = false) : s.unspanned = s := by
  cases s with
  | union items => cases h
  | filter condition source span => cases h
  | computed key source span => cases h
  | _ => rfl

theorem eq_of_unspanned {s' : Segment} (h : s'.unspanned = s.unspanned) (hs : s.compound = false) :
    s' = s := by
  have hs' : s'.compound = false := by
    rw [← compound_unspanned, h, compound_unspanned, hs]
  rw [← unspanned_eq_self hs', h, unspanned_eq_self hs]

/-- **What can be read from brackets is read back from its own text behind a `$`: as this one
segment, but for the spans of expressions.** -/
theorem Readable.read_print (h : s.Readable) :
    ∃ s', read (String.ofList ('$' :: s.print)) = .ok [s'] ∧ s'.unspanned = s.unspanned ∧
      (s.compound = false → s' = s) := by
  obtain ⟨s', hs', hspans⟩ := h.bracketed.ofChars
  rw [read, String.toList_ofList]
  exact ⟨s', hs', hspans, eq_of_unspanned hspans⟩

/-- A filter beside a name that looks like a star. -/
theorem union_read_back : ∃ condition again,
    read "$.[?( @.b), \"*\"]" = .ok [union [filter condition " @.b" ⟨3, 10⟩, name "*"]] ∧
    read "$[?( @.b),'*']" = .ok [again] ∧
    again.unspanned = union [filter condition.unspanned " @.b" ⟨0, 0⟩, name "*"] := by
  have hparse : ∃ e, Expr.parse [' ', '@', '.', 'b'] 5 = .ok e := ⟨_, rfl⟩
  obtain ⟨e, hparse⟩ := hparse
  have hfilter : readItem 3 ['?', '(', ' ', '@', '.', 'b', ')'] = .ok (filter e " @.b" ⟨3, 10⟩) :=
    Clause.readItem_written (c := ⟨.filter, " @.b"⟩) hparse
  have hitems : readBracketed 3 ['?', '(', ' ', '@', '.', 'b', ')', ',', ' ', '"', '*', '"'] =
      .ok (union [filter e " @.b" ⟨3, 10⟩, name "*"]) := by
    change (readItems 3 [['?', '(', ' ', '@', '.', 'b', ')'], [' ', '"', '*', '"']]).map union = _
    rw [readItems, hfilter]
    rfl
  have hgroup : Balanced ('(' :: ([' ', '@', '.', 'b'] ++ [')', ',', ' ', '"', '*', '"'])) :=
    .bracketed rfl (.plain rfl (.plain rfl (.plain rfl (.plain rfl .nil))))
      (.plain rfl (.plain rfl (.quoted rfl (.plain (by decide) (by decide) .nil) .nil)))
  have hread : read "$.[?( @.b), \"*\"]" = .ok [union [filter e " @.b" ⟨3, 10⟩, name "*"]] :=
    readFrom_bracket (.plain rfl hgroup) hitems 16 15 []
  obtain ⟨again, hagain, hspans, -⟩ :=
    (Readable.compound rfl hread (.here List.mem_cons_self)).read_print
  exact ⟨e, again, hread, hagain, hspans⟩

end LiveJson.Segment

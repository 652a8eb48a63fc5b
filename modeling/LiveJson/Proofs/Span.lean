import LiveJson.Text.Basic

/-! # Spans in a text

A span counts bytes, a text consists of characters. What a span cuts out of a text is a piece of it,
with a beginning and an end between characters; and wherever two such places are in order, there is a
piece between them. The first byte of the text itself has a number of its own, so that pieces of pieces
are pieces of the whole. -/

namespace LiveJson

open Text (byteLength)

theorem Text.byteLength_eq_zero {cs : List Char} (h : byteLength cs = 0) : cs = [] := by
  cases cs with
  | nil => rfl
  | cons c cs =>
    rw [byteLength_cons] at h
    have := c.utf8Size_pos
    omega

/-- Byte `n` is the first of a character of the text, or the one behind its last. -/
def Text.Boundary (offset : Nat) (text : List Char) (n : Nat) : Prop :=
  ∃ before after, text = before ++ after ∧ n = offset + byteLength before

namespace Span

variable {span : Span} {offset : Nat} {text piece : List Char}

/-- The bytes of the text at the span are those of the piece. -/
def Cuts (span : Span) (offset : Nat) (text piece : List Char) : Prop :=
  ∃ before after, text = before ++ piece ++ after ∧
    span.start = offset + byteLength before ∧ span.stop = span.start + byteLength piece

/-- The span is in order, and both of its ends are between characters of the text. -/
structure Within (span : Span) (offset : Nat) (text : List Char) : Prop where
  ordered : span.start ≤ span.stop
  start : Text.Boundary offset text span.start
  stop : Text.Boundary offset text span.stop

theorem Cuts.within (h : span.Cuts offset text piece) : span.Within offset text := by
  obtain ⟨before, after, htext, hstart, hstop⟩ := h
  refine ⟨by omega, ⟨before, piece ++ after, by rw [htext, List.append_assoc], hstart⟩,
    ⟨before ++ piece, after, htext, ?_⟩⟩
  rw [hstop, hstart, Text.byteLength_append, Nat.add_assoc]

/-- Two boundaries in order have a piece of the text between them. -/
theorem Within.exists_cuts (h : span.Within offset text) : ∃ piece, span.Cuts offset text piece := by
  obtain ⟨hordered, ⟨before, rest, htext, hstart⟩, ⟨upto, after, htext', hstop⟩⟩ := h
  rcases List.append_eq_append_iff.mp (htext.symm.trans htext') with
    ⟨piece, rfl, -⟩ | ⟨piece, rfl, -⟩
  · refine ⟨piece, before, after, htext', hstart, ?_⟩
    rw [hstop, hstart, Text.byteLength_append, Nat.add_assoc]
  · -- the start is not behind the stop, so nothing is between them
    rw [Text.byteLength_append] at hstart
    obtain rfl : piece = [] := Text.byteLength_eq_zero (by omega)
    refine ⟨[], upto, after, by simpa using htext', by simpa using hstart, ?_⟩
    simp only [Text.byteLength_nil] at hstart ⊢
    omega

/-- A piece of a piece is a piece of the whole. -/
theorem Cuts.inside {front inner back : List Char}
    (h : span.Cuts (offset + byteLength front) inner piece) :
    span.Cuts offset (front ++ inner ++ back) piece := by
  obtain ⟨before, after, rfl, hstart, hstop⟩ := h
  refine ⟨front ++ before, after ++ back, by simp, ?_, hstop⟩
  rw [hstart, Text.byteLength_append, Nat.add_assoc]

theorem Within.inside {front inner back : List Char}
    (h : span.Within (offset + byteLength front) inner) :
    span.Within offset (front ++ inner ++ back) :=
  let ⟨_, hcuts⟩ := h.exists_cuts
  hcuts.inside.within

/-- A span with the ends of two others. -/
theorem within_of_ends {first last : Span} (hfirst : first.Within offset text)
    (hlast : last.Within offset text) (hstart : span.start = first.start)
    (hstop : span.stop = last.stop) (hordered : span.start ≤ span.stop) :
    span.Within offset text :=
  ⟨hordered, hstart ▸ hfirst.start, hstop ▸ hlast.stop⟩

end Span

/-! ## Text at a position -/

namespace Text

variable {path text front back piece : List Char} {pos : Nat} {span : Span}

/-- The text stands in the path from byte `pos` on. -/
def At (path : List Char) (pos : Nat) (text : List Char) : Prop :=
  ∃ before after, path = before ++ text ++ after ∧ pos = byteLength before

theorem at_self (path : List Char) : At path 0 path := ⟨[], [], by simp, rfl⟩

namespace At

theorem left (h : At path pos (front ++ back)) : At path pos front := by
  obtain ⟨before, after, hpath, hpos⟩ := h
  exact ⟨before, back ++ after, by simpa using hpath, hpos⟩

theorem right (h : At path pos (front ++ back)) : At path (pos + byteLength front) back := by
  obtain ⟨before, after, hpath, rfl⟩ := h
  exact ⟨before ++ front, after, by simpa using hpath, (byteLength_append ..).symm⟩

theorem behind {c : Char} (h : At path pos (c :: text)) : At path (pos + c.utf8Size) text :=
  (show At path pos ([c] ++ text) from h).right

/-- What stands in the text stands in the path. -/
theorem cuts_inside (h : At path pos text) (hspan : span.Cuts pos text piece) :
    span.Cuts 0 path piece := by
  obtain ⟨before, after, rfl, rfl⟩ := h
  exact Span.Cuts.inside (by rwa [Nat.zero_add])

theorem within_inside (h : At path pos text) (hspan : span.Within pos text) :
    span.Within 0 path := by
  obtain ⟨before, after, rfl, rfl⟩ := h
  exact Span.Within.inside (by rwa [Nat.zero_add])

theorem cuts (h : At path pos text) : Span.Cuts ⟨pos, pos + byteLength text⟩ 0 path text := by
  obtain ⟨before, after, hpath, rfl⟩ := h
  exact ⟨before, after, hpath, (Nat.zero_add _).symm, rfl⟩

theorem boundary (h : At path pos text) : Boundary 0 path pos := h.cuts.within.start

theorem boundary_behind (h : At path pos text) : Boundary 0 path (pos + byteLength text) :=
  h.cuts.within.stop

/-- The one byte of the first character. -/
theorem within_byte {c : Char} (h : At path pos (c :: text)) (hc : c.utf8Size = 1) :
    Span.Within ⟨pos, pos + 1⟩ 0 path := by
  have hcuts := (show At path pos ([c] ++ text) from h).left.cuts
  rw [byteLength_cons, byteLength_nil, hc] at hcuts
  exact hcuts.within

/-- From the text to the end of the path. -/
theorem within_to_end (h : At path pos text) :
    Span.Within ⟨pos, byteLength path⟩ 0 path := by
  refine ⟨?_, h.boundary, path, [], (List.append_nil path).symm, (Nat.zero_add _).symm⟩
  obtain ⟨before, after, rfl, rfl⟩ := h
  rw [byteLength_append, byteLength_append, Nat.add_assoc]
  exact Nat.le_add_right _ _

end At

end Text

end LiveJson

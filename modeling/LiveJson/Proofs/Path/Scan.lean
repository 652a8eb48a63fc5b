import LiveJson.Proofs.Path.Read
import Mathlib.Data.List.Induction

/-! # What the scans of bracketed text find

The scan for the end of bracketed text finds balanced text, and nothing but balanced text. The scan
for commas cuts such text into pieces that are balanced too, and have no comma outside quotes and
delimiters. -/

namespace LiveJson.Segment

variable {c opener closer last quote : Char} {cs ds content rest text more : List Char}
  {closers : List Char} {mode : ScanMode} {opened stop start pos : Nat}

/-! ## The scan for the end of bracketed text -/

theorem ahead_eq_ok {found : Except PathError (List Char × List Char)} :
    ahead cs found = .ok (content, rest) ↔ ∃ ds, found = .ok (ds, rest) ∧ content = cs ++ ds := by
  cases found with
  | error e => simp [ahead, Except.map]
  | ok p =>
    obtain ⟨ds, rest'⟩ := p
    simp only [ahead, Except.map, Except.ok.injEq, Prod.mk.injEq]
    constructor
    · rintro ⟨rfl, rfl⟩
      exact ⟨ds, ⟨rfl, rfl⟩, rfl⟩
    · rintro ⟨ds', ⟨rfl, rfl⟩, rfl⟩
      exact ⟨rfl, rfl⟩

/-- Text that closes the brackets of a stack, except that it ends before the last closer. -/
inductive Closes : List Char → List Char → Prop
  | last {cs : List Char} (last : Char) (h : Balanced cs) : Closes [last] cs
  | more {cs ds : List Char} (closer : Char) {closers : List Char} (h : Balanced cs)
      (hmore : Closes closers ds) : Closes (closer :: closers) (cs ++ closer :: ds)

theorem Closes.prepend (hcs : Balanced cs) (h : Closes closers ds) : Closes closers (cs ++ ds) := by
  cases h with
  | last last h => exact .last last (hcs.append h)
  | more closer h hmore =>
    rw [← List.append_assoc]
    exact .more closer (hcs.append h) hmore

theorem Closes.bracketed (hopener : closerOf? opener = some closer) (hne : closers ≠ [])
    (h : Closes (closer :: closers) cs) : Closes closers (opener :: cs) := by
  cases h with
  | last => exact absurd rfl hne
  | @more cs ds closer closers h hmore =>
    have hgroup : Balanced (opener :: (cs ++ [closer])) := .bracketed hopener h .nil
    have := hmore.prepend hgroup
    rwa [List.cons_append, List.append_assoc, List.singleton_append] at this

theorem Closes.quoted (hquote : isQuote quote = true) (htext : Quotable quote text)
    (h : Closes closers more) : Closes closers (quote :: (text ++ quote :: more)) := by
  have hgroup : Balanced (quote :: (text ++ [quote])) := .quoted hquote htext .nil
  have := h.prepend hgroup
  rwa [List.cons_append, List.append_assoc, List.singleton_append] at this

theorem delimiter_cases (h : isDelimiter c = true) :
    isQuote c = true ∨ (∃ closer, closerOf? c = some closer) ∨
      (isQuote c = false ∧ closerOf? c = none ∧ isCloser c = true) := by
  cases hquote : isQuote c with
  | true => exact .inl rfl
  | false =>
    cases hopener : closerOf? c with
    | some closer => exact .inr (.inl ⟨closer, rfl⟩)
    | none => exact .inr (.inr ⟨rfl, rfl, by simpa [isDelimiter, hquote, hopener] using h⟩)

/-- How one character takes the scan for the end of bracketed text on, from one mode and stack to the
next. -/
inductive ScanStep (pos : Nat) : Char → ScanMode → List Char → ScanMode → List Char → Prop
  | plain {c : Char} (hc : isDelimiter c = false) (closers : List Char) :
      ScanStep pos c .plain closers .plain closers
  | quote {c : Char} (hquote : isQuote c = true) (closers : List Char) :
      ScanStep pos c .plain closers (.quoted c pos) closers
  | opener {c closer : Char} (hopener : closerOf? c = some closer) (closers : List Char) :
      ScanStep pos c .plain closers .plain (closer :: closers)
  | closer {c : Char} (hc : isQuote c = false ∧ closerOf? c = none ∧ isCloser c = true)
      {outer : List Char} (hne : outer ≠ []) : ScanStep pos c .plain (c :: outer) .plain outer
  | slash (quote : Char) (start : Nat) (closers : List Char) :
      ScanStep pos '\\' (.quoted quote start) closers (.escaped quote start) closers
  | unquote {c : Char} (hslash : c ≠ '\\') (start : Nat) (closers : List Char) :
      ScanStep pos c (.quoted c start) closers .plain closers
  | inside {c quote : Char} (hquote : c ≠ quote) (hslash : c ≠ '\\') (start : Nat)
      (closers : List Char) :
      ScanStep pos c (.quoted quote start) closers (.quoted quote start) closers
  | escaped (c quote : Char) (start : Nat) (closers : List Char) :
      ScanStep pos c (.escaped quote start) closers (.quoted quote start) closers

/-- No step takes the closer at the bottom of the stack. -/
theorem ScanStep.getLast? {mode' : ScanMode} {closers' : List Char}
    (hstep : ScanStep pos c mode closers mode' closers') (h : closers.getLast? = some last) :
    closers'.getLast? = some last := by
  cases hstep with
  | opener _ _ =>
    have hne : closers ≠ [] := by rintro rfl; cases h
    rwa [List.getLast?_cons_of_ne_nil hne]
  | closer _ hne => rwa [List.getLast?_cons_of_ne_nil hne] at h
  | _ => exact h

/-- At a closer a scan that succeeds ends, or goes on with the brackets around it. -/
theorem enclosed_isCloser (hc : isQuote c = false ∧ closerOf? c = none ∧ isCloser c = true)
    (hlast : closers.getLast? = some last)
    (h : enclosed opened stop .plain closers pos (c :: cs) = .ok (content, rest)) :
    (c = last ∧ content = [] ∧ rest = cs ∧ closers = [c]) ∨
      ∃ outer, closers = c :: outer ∧ outer ≠ [] ∧
        enclosed opened stop .plain closers pos (c :: cs) =
          ahead [c] (enclosed opened stop .plain outer (pos + c.utf8Size) cs) := by
  rw [enclosed.eq_def] at h ⊢
  simp only [hc.1, hc.2.1, hc.2.2, Bool.false_eq_true, if_false, if_true] at h ⊢
  cases closers with
  | nil => cases hlast
  | cons expected outer =>
    by_cases hexpected : c = expected
    · subst hexpected
      cases outer with
      | nil =>
        cases hlast
        simp only [ne_eq, not_true, if_false, List.isEmpty_nil, if_true] at h
        cases h
        exact .inl ⟨rfl, rfl, rfl, rfl⟩
      | cons closer outer =>
        simp only [ne_eq, not_true, if_false, List.isEmpty_cons, Bool.false_eq_true]
        exact .inr ⟨_, rfl, List.cons_ne_nil _ _, rfl⟩
    · simp only [ne_eq, hexpected, not_false_eq_true, if_true, reduceCtorEq] at h

/-- A scan that succeeds either is at the last closer, or takes a step and goes on. -/
theorem enclosed_cons (hlast : closers.getLast? = some last)
    (h : enclosed opened stop mode closers pos (c :: cs) = .ok (content, rest)) :
    (c = last ∧ content = [] ∧ rest = cs ∧ mode = .plain ∧ closers = [c]) ∨
      ∃ mode' closers', ScanStep pos c mode closers mode' closers' ∧
        enclosed opened stop mode closers pos (c :: cs) =
          ahead [c] (enclosed opened stop mode' closers' (pos + c.utf8Size) cs) := by
  cases mode with
  | escaped quote start => exact .inr ⟨_, _, .escaped c quote start closers, enclosed_escaped c pos⟩
  | quoted quote start =>
    by_cases hslash : c = '\\'
    · subst hslash
      exact .inr ⟨_, _, .slash quote start closers, enclosed_slash pos⟩
    · by_cases hquote : c = quote
      · subst hquote
        exact .inr ⟨_, _, .unquote hslash start closers, enclosed_unquote hslash pos⟩
      · exact .inr ⟨_, _, .inside hquote hslash start closers, enclosed_inside hquote hslash pos⟩
  | plain =>
    by_cases hc : isDelimiter c = true
    · rcases delimiter_cases hc with hquote | ⟨closer, hopener⟩ | hcloser
      · exact .inr ⟨_, _, .quote hquote closers, enclosed_quote hquote pos⟩
      · exact .inr ⟨_, _, .opener hopener closers, enclosed_opener hopener pos⟩
      · rcases enclosed_isCloser hcloser hlast h with
          ⟨hc, hcontent, hrest, hclosers⟩ | ⟨outer, rfl, hne, hstep⟩
        · exact .inl ⟨hc, hcontent, hrest, rfl, hclosers⟩
        · exact .inr ⟨_, _, .closer hcloser hne, hstep⟩
    · have hc := Bool.eq_false_iff.mpr hc
      exact .inr ⟨_, _, .plain hc closers, enclosed_plain hc pos⟩

/-- What a scan that stands in a mode and has a stack has still to find. -/
def Scanned : ScanMode → List Char → List Char → Prop
  | .plain, closers, cs => Closes closers cs
  | .quoted quote _, closers, cs =>
    ∃ text more, cs = text ++ quote :: more ∧ Quotable quote text ∧ Closes closers more
  | .escaped quote _, closers, cs =>
    ∃ c text more, cs = c :: (text ++ quote :: more) ∧ Quotable quote text ∧ Closes closers more

/-- What is found behind a character that has been taken is found with it. -/
theorem ScanStep.scanned {mode' : ScanMode} {closers' : List Char}
    (hstep : ScanStep pos c mode closers mode' closers') (hne : closers ≠ [])
    (h : Scanned mode' closers' ds) : Scanned mode closers (c :: ds) := by
  cases hstep with
  | plain hc => exact h.prepend (.plain hc .nil)
  | quote hquote =>
    obtain ⟨text, more, rfl, htext, hmore⟩ := h
    exact hmore.quoted hquote htext
  | opener hopener => exact Closes.bracketed hopener hne h
  | closer _ _ => exact .more c .nil h
  | slash quote start =>
    obtain ⟨d, text, more, rfl, htext, hmore⟩ := h
    exact ⟨'\\' :: d :: text, more, rfl, .escaped d htext, hmore⟩
  | unquote hslash start => exact ⟨[], ds, rfl, .nil, h⟩
  | inside hquote hslash start =>
    obtain ⟨text, more, rfl, htext, hmore⟩ := h
    exact ⟨c :: text, more, rfl, .plain hquote hslash htext, hmore⟩
  | escaped quote start =>
    obtain ⟨text, more, rfl, htext, hmore⟩ := h
    exact ⟨c, text, more, rfl, htext, hmore⟩

/-- Whatever the mode, a scan takes characters until it stands at the last closer. -/
theorem scanned_of_enclosed (hlast : closers.getLast? = some last)
    (h : enclosed opened stop mode closers pos cs = .ok (content, rest)) :
    cs = content ++ last :: rest ∧ Scanned mode closers content := by
  induction cs generalizing mode closers pos content with
  | nil => cases mode <;> cases h
  | cons c cs ih =>
    have hne : closers ≠ [] := by rintro rfl; cases hlast
    rcases enclosed_cons hlast h with
      ⟨rfl, rfl, rfl, rfl, rfl⟩ | ⟨mode', closers', hstep, htake⟩
    · exact ⟨rfl, .last c .nil⟩
    · obtain ⟨ds, hds, rfl⟩ := ahead_eq_ok.mp (htake.symm.trans h)
      obtain ⟨rfl, hscanned⟩ := ih (hstep.getLast? hlast) hds
      exact ⟨rfl, hstep.scanned hne hscanned⟩

/-- The scan for the end of bracketed text finds exactly the balanced text before a closing
bracket. -/
theorem enclosed_eq_ok_iff :
    enclosed opened stop .plain [']'] pos cs = .ok (content, rest) ↔
      cs = content ++ ']' :: rest ∧ Balanced content := by
  constructor
  · intro h
    obtain ⟨hcs, hscanned⟩ := scanned_of_enclosed rfl h
    refine ⟨hcs, ?_⟩
    cases hscanned with
    | last _ h => exact h
    | more _ _ hmore => cases hmore
  · rintro ⟨rfl, h⟩
    exact h.enclosed_eq opened stop pos rest

/-! ## The scan for commas -/

/-- Balanced text without a comma outside quotes and delimiters. -/
inductive Whole : List Char → Prop
  | nil : Whole []
  | plain {c : Char} {cs : List Char} (hc : isDelimiter c = false) (hcomma : c ≠ ',')
      (h : Whole cs) : Whole (c :: cs)
  | quoted {quote : Char} {text cs : List Char} (hquote : isQuote quote = true)
      (htext : Quotable quote text) (h : Whole cs) : Whole (quote :: (text ++ quote :: cs))
  | bracketed {opener closer : Char} {inner cs : List Char}
      (hopener : closerOf? opener = some closer) (hinner : Balanced inner) (h : Whole cs) :
      Whole (opener :: (inner ++ closer :: cs))

theorem Whole.balanced (h : Whole cs) : Balanced cs := by
  induction h with
  | nil => exact .nil
  | plain hc _ _ ih => exact .plain hc ih
  | quoted hquote htext _ ih => exact .quoted hquote htext ih
  | bracketed hopener hinner _ ih => exact .bracketed hopener hinner ih

theorem splitTop_quoted_append (hquote : isQuote quote = true) (htext : Quotable quote text)
    (more : List Char) :
    splitTop none false 0 (quote :: (text ++ quote :: more)) =
      before (quote :: (text ++ [quote])) (splitTop none false 0 more) := by
  rw [splitTop_quote hquote, htext.splitTop (ne_slash_of_isQuote hquote)]
  rfl

theorem splitTop_bracketed_append (hopener : closerOf? opener = some closer)
    (hcs : Balanced cs) (more : List Char) :
    splitTop none false 0 (opener :: (cs ++ closer :: more)) =
      before (opener :: (cs ++ [closer])) (splitTop none false 0 more) := by
  rw [splitTop_opener hopener, hcs.splitTop (Or.inl Nat.one_pos), splitTop_closer hopener]
  simp [before]

theorem splitTop_comma (cs : List Char) :
    splitTop none false 0 (',' :: cs) =
      ([], (splitTop none false 0 cs).1 :: (splitTop none false 0 cs).2) := by
  rw [splitTop_none_cons]
  rfl

/-- The pieces with the commas between them are the text again. -/
theorem append_splitTop (quote? : Option Char) (escaped : Bool) (depth : Nat) (cs : List Char) :
    cs = (splitTop quote? escaped depth cs).1 ++
      (splitTop quote? escaped depth cs).2.flatMap fun piece => ',' :: piece := by
  induction cs generalizing quote? escaped depth with
  | nil => rfl
  | cons c cs ih =>
    rw [splitTop.eq_def]
    dsimp only
    have hkeep (quote? : Option Char) (escaped : Bool) (depth : Nat) :
        c :: cs = (c :: (splitTop quote? escaped depth cs).1) ++
          (splitTop quote? escaped depth cs).2.flatMap fun piece => ',' :: piece := by
      rw [List.cons_append, ← ih]
    cases quote? with
    | some quote =>
      dsimp only
      split_ifs <;> exact hkeep _ _ _
    | none =>
      dsimp only
      split_ifs with _ _ _ hcomma
      · exact hkeep _ _ _
      · exact hkeep _ _ _
      · exact hkeep _ _ _
      · rw [List.nil_append, List.flatMap_cons, hcomma.1, List.cons_append, ← ih]
      · exact hkeep _ _ _

/-- The scan for commas finds none in whole text. -/
theorem Whole.splitTop_append (h : Whole cs) (more : List Char) :
    splitTop none false 0 (cs ++ more) = before cs (splitTop none false 0 more) := by
  induction h with
  | nil => rfl
  | plain hc hcomma _ ih =>
    rw [List.cons_append, splitTop_plain hc (Or.inr hcomma), ih]
    rfl
  | quoted hquote htext _ ih =>
    rw [List.cons_append, List.append_assoc, List.cons_append, splitTop_quoted_append hquote htext,
      ih]
    simp [before]
  | bracketed hopener hinner _ ih =>
    rw [List.cons_append, List.append_assoc, List.cons_append,
      splitTop_bracketed_append hopener hinner, ih]
    simp [before]

theorem Whole.splitTop (h : Whole cs) : splitTop none false 0 cs = (cs, []) := by
  have := h.splitTop_append []
  rw [List.append_nil] at this
  rw [this]
  simp [before, Segment.splitTop]

/-- The pieces of balanced text are whole. -/
theorem Balanced.whole_splitTop (h : Balanced cs) :
    Whole (Segment.splitTop none false 0 cs).1 ∧
      ∀ piece ∈ (Segment.splitTop none false 0 cs).2, Whole piece := by
  induction h with
  | nil => exact ⟨.nil, fun _ h => absurd h List.not_mem_nil⟩
  | @plain c cs hc _ ih =>
    by_cases hcomma : c = ','
    · subst hcomma
      rw [splitTop_comma]
      exact ⟨.nil, List.forall_mem_cons.mpr ih⟩
    · rw [splitTop_plain hc (Or.inr hcomma)]
      exact ⟨.plain hc hcomma ih.1, ih.2⟩
  | @quoted quote text cs hquote htext _ ih =>
    rw [splitTop_quoted_append hquote htext]
    refine ⟨?_, ih.2⟩
    have := Whole.quoted hquote htext ih.1
    simpa [before] using this
  | @bracketed opener closer inner cs hopener hinner _ _ ih =>
    rw [splitTop_bracketed_append hopener hinner]
    refine ⟨?_, ih.2⟩
    have := Whole.bracketed hopener hinner ih.1
    simpa [before] using this

/-! ## Without the blanks at the ends -/

theorem Whole.of_cons (hc : isDelimiter c = false) (h : Whole (c :: cs)) : Whole cs := by
  cases h with
  | plain _ _ h => exact h
  | quoted hquote =>
    rw [not_isQuote hc] at hquote
    cases hquote
  | bracketed hopener =>
    rw [closerOf?_eq_none hc] at hopener
    cases hopener

theorem concat_eq_append_cons {d : Char} (h : cs ++ [c] = content ++ d :: ds) :
    (ds = [] ∧ c = d) ∨ ∃ ds', ds = ds' ++ [c] ∧ cs = content ++ d :: ds' := by
  rcases List.eq_nil_or_concat' ds with rfl | ⟨ds', d', rfl⟩
  · obtain ⟨-, hc⟩ := List.append_inj' h rfl
    exact .inl ⟨rfl, by simpa using hc⟩
  · rw [← List.cons_append, ← List.append_assoc] at h
    obtain ⟨hcs, hc⟩ := List.append_inj' h rfl
    cases hc
    exact .inr ⟨ds', rfl, hcs⟩

theorem Whole.of_concat (hc : isDelimiter c = false) (h : Whole (cs ++ [c])) : Whole cs := by
  generalize hds : cs ++ [c] = ds at h
  induction h generalizing cs with
  | nil => exact absurd hds (by simp)
  | @plain d ds hd hcomma _ ih =>
    rw [← List.nil_append (d :: ds)] at hds
    rcases concat_eq_append_cons hds with ⟨rfl, rfl⟩ | ⟨ds', rfl, rfl⟩
    · have hnil : cs = [] := by simpa using hds
      subst hnil
      exact .nil
    · exact .plain hd hcomma (ih rfl)
  | @quoted quote text ds hquote htext _ ih =>
    rw [← List.cons_append] at hds
    rcases concat_eq_append_cons hds with ⟨-, rfl⟩ | ⟨ds', rfl, rfl⟩
    · rw [not_isQuote hc] at hquote
      cases hquote
    · exact .quoted hquote htext (ih rfl)
  | @bracketed opener closer inner ds hopener hinner _ ih =>
    rw [← List.cons_append] at hds
    rcases concat_eq_append_cons hds with ⟨-, rfl⟩ | ⟨ds', rfl, rfl⟩
    · have hcloser := (closerOf?_eq_some hopener).2.2.2.2.1
      rw [not_isCloser hc] at hcloser
      cases hcloser
    · exact .bracketed hopener hinner (ih rfl)

theorem not_isDelimiter_of_isBlank (h : Text.isBlank c = true) : isDelimiter c = false :=
  isDelimiter_of_class (by decide) h

theorem Whole.trimStart (h : Whole cs) : Whole (Text.trimStart cs) := by
  induction cs with
  | nil => exact h
  | cons c cs ih =>
    rw [Text.trimStart, List.dropWhile_cons]
    split
    · next hc => exact ih (h.of_cons (not_isDelimiter_of_isBlank hc))
    · exact h

theorem Whole.trimEnd (h : Whole cs) : Whole (Text.trimEnd cs) := by
  induction cs using List.reverseRecOn with
  | nil => exact h
  | append_singleton cs c ih =>
    cases hc : Text.isBlank c with
    | true =>
      rw [Text.trimEnd, Text.dropTrailing_append_of_all cs (by simp [hc])]
      exact ih (h.of_concat (not_isDelimiter_of_isBlank hc))
    | false =>
      rw [Text.trimEnd, Text.dropTrailing_concat hc]
      exact h

theorem Whole.trim (h : Whole cs) : Whole (Text.trim cs) := h.trimStart.trimEnd

end LiveJson.Segment

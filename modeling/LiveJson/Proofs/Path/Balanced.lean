import LiveJson.Segment.Reader

/-! # Balanced text

In balanced text every bracket that opens is closed by its own closer, and every quote by another
one. Whoever scans bracketed text, for its end or for the commas in it, runs through balanced text
and stands behind it as before it. -/

namespace LiveJson.Segment

/-- The characters that a scan of bracketed text heeds outside quotes, apart from the comma. -/
def isDelimiter (c : Char) : Bool := isQuote c || (closerOf? c).isSome || isCloser c

/-- Text that can stand between two quotes, where a backslash hides the character behind it. -/
inductive Quotable (quote : Char) : List Char → Prop
  | nil : Quotable quote []
  | plain {c : Char} {cs : List Char} (hquote : c ≠ quote) (hslash : c ≠ '\\')
      (h : Quotable quote cs) : Quotable quote (c :: cs)
  | escaped (c : Char) {cs : List Char} (h : Quotable quote cs) : Quotable quote ('\\' :: c :: cs)

inductive Balanced : List Char → Prop
  | nil : Balanced []
  | plain {c : Char} {cs : List Char} (hc : isDelimiter c = false) (h : Balanced cs) :
      Balanced (c :: cs)
  | quoted {quote : Char} {text cs : List Char} (hquote : isQuote quote = true)
      (htext : Quotable quote text) (h : Balanced cs) : Balanced (quote :: (text ++ quote :: cs))
  | bracketed {opener closer : Char} {inner cs : List Char}
      (hopener : closerOf? opener = some closer) (hinner : Balanced inner) (h : Balanced cs) :
      Balanced (opener :: (inner ++ closer :: cs))

variable {c quote opener closer : Char} {cs ds text more : List Char} {closers : List Char}
  {opened stop start depth : Nat}

theorem Balanced.append (h : Balanced cs) (h' : Balanced ds) : Balanced (cs ++ ds) := by
  induction h with
  | nil => exact h'
  | plain hc _ ih => exact .plain hc ih
  | quoted hquote htext _ ih =>
    rw [List.cons_append, List.append_assoc, List.cons_append]
    exact .quoted hquote htext ih
  | bracketed hopener hinner _ _ ih =>
    rw [List.cons_append, List.append_assoc, List.cons_append]
    exact .bracketed hopener hinner ih

theorem balanced_of_plain (h : ∀ c ∈ cs, isDelimiter c = false) : Balanced cs := by
  induction cs with
  | nil => exact .nil
  | cons c cs ih =>
    rw [List.forall_mem_cons] at h
    exact .plain h.1 (ih h.2)

def delimiters : List Char := ['\'', '"', '[', '(', '{', ']', ')', '}']

theorem mem_delimiters (h : isDelimiter c = true) : c ∈ delimiters := by
  have hcloser : (closerOf? c).isSome = true → c = '[' ∨ c = '(' ∨ c = '{' := by
    unfold closerOf?
    split <;> simp
  simp only [isDelimiter, isQuote, isCloser, Bool.or_eq_true, beq_iff_eq] at h
  simp only [delimiters, List.mem_cons, List.not_mem_nil, or_false]
  rcases h with ((rfl | rfl) | h) | (rfl | rfl) | rfl
  · simp
  · simp
  · rcases hcloser h with rfl | rfl | rfl <;> simp
  · simp
  · simp
  · simp

/-- A class of characters that leaves out the delimiters. -/
theorem isDelimiter_of_class {p : Char → Bool} (h : (delimiters.all fun d => !p d) = true)
    (hc : p c = true) : isDelimiter c = false := by
  refine Bool.eq_false_iff.mpr fun hd => ?_
  have hno := List.all_eq_true.mp h c (mem_delimiters hd)
  rw [hc] at hno
  cases hno

theorem not_isQuote (h : isDelimiter c = false) : isQuote c = false := by
  simp only [isDelimiter, Bool.or_eq_false_iff] at h
  exact h.1.1

theorem closerOf?_eq_none (h : isDelimiter c = false) : closerOf? c = none := by
  simp only [isDelimiter, Bool.or_eq_false_iff] at h
  exact Option.not_isSome_iff_eq_none.mp (Bool.eq_false_iff.mp h.1.2)

theorem not_isCloser (h : isDelimiter c = false) : isCloser c = false := by
  simp only [isDelimiter, Bool.or_eq_false_iff] at h
  exact h.2

/-- An opening bracket is no quote, no closer and no comma, and its closer is one. -/
theorem closerOf?_eq_some (h : closerOf? opener = some closer) :
    isQuote opener = false ∧ isQuote closer = false ∧ closerOf? closer = none ∧
      isCloser opener = false ∧ isCloser closer = true ∧ opener ≠ ',' ∧ closer ≠ ',' := by
  unfold closerOf? at h
  split at h <;> cases h <;> decide

theorem not_isCloser_of_isQuote (h : isQuote c = true) : isCloser c = false := by
  simp only [isQuote, Bool.or_eq_true, beq_iff_eq] at h
  rcases h with rfl | rfl <;> rfl

theorem ne_slash_of_isQuote (h : isQuote quote = true) : quote ≠ '\\' := by
  rintro rfl
  exact absurd h (by decide)

/-! ## The scan for the end of bracketed text -/

/-- What a scan finds, with more text before it. -/
def ahead (cs : List Char) (found : Except PathError (List Char × List Char)) :
    Except PathError (List Char × List Char) := found.map fun p => (cs ++ p.1, p.2)

@[simp] theorem ahead_nil (found : Except PathError (List Char × List Char)) :
    ahead [] found = found := by cases found <;> rfl

@[simp] theorem ahead_ahead (cs ds : List Char)
    (found : Except PathError (List Char × List Char)) :
    ahead cs (ahead ds found) = ahead (cs ++ ds) found := by
  cases found with
  | error e => rfl
  | ok p => simp [ahead, Except.map]

theorem ahead_cons (c : Char) (cs : List Char)
    (found : Except PathError (List Char × List Char)) :
    ahead (c :: cs) found = ahead [c] (ahead cs found) := (ahead_ahead [c] cs found).symm

theorem enclosed_plain (h : isDelimiter c = false) (pos : Nat) :
    enclosed opened stop .plain closers pos (c :: cs) =
      ahead [c] (enclosed opened stop .plain closers (pos + c.utf8Size) cs) := by
  rw [enclosed.eq_def]
  simp only [not_isQuote h, closerOf?_eq_none h, not_isCloser h, Bool.false_eq_true, if_false]
  rfl

theorem enclosed_quote (h : isQuote quote = true) (pos : Nat) :
    enclosed opened stop .plain closers pos (quote :: cs) =
      ahead [quote] (enclosed opened stop (.quoted quote pos) closers (pos + quote.utf8Size) cs) := by
  rw [enclosed.eq_def]
  simp only [h, if_true]
  rfl

theorem enclosed_opener (h : closerOf? opener = some closer) (pos : Nat) :
    enclosed opened stop .plain closers pos (opener :: cs) =
      ahead [opener]
        (enclosed opened stop .plain (closer :: closers) (pos + opener.utf8Size) cs) := by
  rw [enclosed.eq_def]
  simp only [(closerOf?_eq_some h).1, h, Bool.false_eq_true, if_false]
  rfl

theorem enclosed_closer (h : closerOf? opener = some closer) (hne : closers ≠ []) (pos : Nat) :
    enclosed opened stop .plain (closer :: closers) pos (closer :: cs) =
      ahead [closer] (enclosed opened stop .plain closers (pos + closer.utf8Size) cs) := by
  obtain ⟨-, hquote, hnone, -, hcloser, -⟩ := closerOf?_eq_some h
  rw [enclosed.eq_def]
  simp only [hquote, hnone, hcloser, List.isEmpty_iff, hne, Bool.false_eq_true, if_false, if_true,
    ne_eq, not_true]
  rfl

theorem enclosed_end (opened stop pos : Nat) (more : List Char) :
    enclosed opened stop .plain [']'] pos (']' :: more) = .ok ([], more) := by
  simp [enclosed, isQuote, closerOf?, isCloser]

theorem enclosed_unquote (h : quote ≠ '\\') (pos : Nat) :
    enclosed opened stop (.quoted quote start) closers pos (quote :: cs) =
      ahead [quote] (enclosed opened stop .plain closers (pos + quote.utf8Size) cs) := by
  rw [enclosed.eq_def]
  simp only [h, if_false, if_true]
  rfl

theorem enclosed_inside (hquote : c ≠ quote) (hslash : c ≠ '\\') (pos : Nat) :
    enclosed opened stop (.quoted quote start) closers pos (c :: cs) =
      ahead [c] (enclosed opened stop (.quoted quote start) closers (pos + c.utf8Size) cs) := by
  rw [enclosed.eq_def]
  simp only [hquote, hslash, if_false]
  rfl

theorem enclosed_slash (pos : Nat) :
    enclosed opened stop (.quoted quote start) closers pos ('\\' :: cs) =
      ahead ['\\'] (enclosed opened stop (.escaped quote start) closers (pos + '\\'.utf8Size) cs) := by
  rw [enclosed.eq_def]
  simp only [if_true]
  rfl

theorem enclosed_escaped (c : Char) (pos : Nat) :
    enclosed opened stop (.escaped quote start) closers pos (c :: cs) =
      ahead [c] (enclosed opened stop (.quoted quote start) closers (pos + c.utf8Size) cs) := by
  rw [enclosed.eq_def]
  rfl

theorem Quotable.enclosed (h : Quotable quote text) (hquote : quote ≠ '\\') (pos : Nat) :
    enclosed opened stop (.quoted quote start) closers pos (text ++ quote :: more) =
      ahead text (ahead [quote] (enclosed opened stop .plain closers
        (pos + Text.byteLength text + quote.utf8Size) more)) := by
  induction h generalizing pos with
  | nil => rw [List.nil_append, enclosed_unquote hquote, ahead_nil]; rfl
  | @plain c cs hc hslash _ ih =>
    rw [List.cons_append, enclosed_inside hc hslash, ih, ahead_cons c cs, Text.byteLength_cons,
      ← Nat.add_assoc]
  | @escaped c cs _ ih =>
    rw [List.cons_append, List.cons_append, enclosed_slash, enclosed_escaped, ih,
      ahead_cons '\\' (c :: cs), ahead_cons c cs, Text.byteLength_cons, Text.byteLength_cons,
      ← Nat.add_assoc, ← Nat.add_assoc]

/-- The scan for the end of bracketed text runs through balanced text. -/
theorem Balanced.enclosed (h : Balanced cs) (hne : closers ≠ []) (pos : Nat) (more : List Char) :
    enclosed opened stop .plain closers pos (cs ++ more) =
      ahead cs (enclosed opened stop .plain closers (pos + Text.byteLength cs) more) := by
  induction h generalizing closers pos more with
  | nil => rw [ahead_nil]; rfl
  | @plain c cs hc _ ih =>
    rw [List.cons_append, enclosed_plain hc, ih hne, ahead_ahead, Nat.add_assoc]
    rfl
  | @quoted quote text cs hquote htext _ ih =>
    rw [List.cons_append, List.append_assoc, List.cons_append, enclosed_quote hquote,
      htext.enclosed (ne_slash_of_isQuote hquote), ih hne]
    simp only [ahead_ahead, Text.byteLength_cons, Text.byteLength_append, Nat.add_assoc,
      List.cons_append, List.nil_append]
  | @bracketed opener closer inner cs hopener _ _ ihinner ih =>
    rw [List.cons_append, List.append_assoc, List.cons_append, enclosed_opener hopener,
      ihinner (List.cons_ne_nil _ _), enclosed_closer hopener hne, ih hne]
    simp only [ahead_ahead, Text.byteLength_cons, Text.byteLength_append, Nat.add_assoc,
      List.cons_append, List.nil_append]

/-- Balanced text in brackets ends where its bracket closes. -/
theorem Balanced.enclosed_eq (h : Balanced cs) (opened stop pos : Nat) (more : List Char) :
    Segment.enclosed opened stop .plain [']'] pos (cs ++ ']' :: more) = .ok (cs, more) := by
  rw [h.enclosed (List.cons_ne_nil _ _), enclosed_end, ahead, Except.map, List.append_nil]

/-! ## The scan for commas -/

/-- The pieces of a text, with more text before the first. -/
def before (cs : List Char) (pieces : List Char × List (List Char)) :
    List Char × List (List Char) := (cs ++ pieces.1, pieces.2)

/-- One step of the scan outside quotes. -/
theorem splitTop_none_cons (depth : Nat) (c : Char) (cs : List Char) :
    splitTop none false depth (c :: cs) =
      if isQuote c then before [c] (splitTop (some c) false depth cs)
      else if (closerOf? c).isSome then before [c] (splitTop none false (depth + 1) cs)
      else if isCloser c then before [c] (splitTop none false (depth - 1) cs)
      else if c = ',' ∧ depth = 0 then
        ([], (splitTop none false 0 cs).1 :: (splitTop none false 0 cs).2)
      else before [c] (splitTop none false depth cs) := rfl

/-- One step of the scan between quotes. -/
theorem splitTop_some_cons (quote : Char) (escaped : Bool) (depth : Nat) (c : Char)
    (cs : List Char) :
    splitTop (some quote) escaped depth (c :: cs) =
      if escaped then before [c] (splitTop (some quote) false depth cs)
      else if c = '\\' then before [c] (splitTop (some quote) true depth cs)
      else if c = quote then before [c] (splitTop none false depth cs)
      else before [c] (splitTop (some quote) false depth cs) := rfl

theorem splitTop_plain (h : isDelimiter c = false) (hcomma : 0 < depth ∨ c ≠ ',') :
    splitTop none false depth (c :: cs) = before [c] (splitTop none false depth cs) := by
  have hno : ¬ (c = ',' ∧ depth = 0) := by
    rintro ⟨rfl, rfl⟩
    rcases hcomma with h | h
    · exact Nat.lt_irrefl 0 h
    · exact h rfl
  rw [splitTop_none_cons]
  simp only [not_isQuote h, closerOf?_eq_none h, not_isCloser h, hno, Bool.false_eq_true, if_false,
    Option.isSome_none]

theorem splitTop_opener (h : closerOf? opener = some closer) :
    splitTop none false depth (opener :: cs) =
      before [opener] (splitTop none false (depth + 1) cs) := by
  rw [splitTop_none_cons]
  simp only [(closerOf?_eq_some h).1, h, Option.isSome_some, Bool.false_eq_true, if_false, if_true]

theorem splitTop_closer (h : closerOf? opener = some closer) :
    splitTop none false (depth + 1) (closer :: cs) =
      before [closer] (splitTop none false depth cs) := by
  obtain ⟨-, hquote, hnone, -, hcloser, -⟩ := closerOf?_eq_some h
  rw [splitTop_none_cons]
  simp only [hquote, hnone, hcloser, Option.isSome_none, Bool.false_eq_true, if_false, if_true,
    Nat.add_sub_cancel]

theorem splitTop_quote (h : isQuote quote = true) :
    splitTop none false depth (quote :: cs) =
      before [quote] (splitTop (some quote) false depth cs) := by
  rw [splitTop_none_cons, if_pos h]

theorem Quotable.splitTop (h : Quotable quote text) (hquote : quote ≠ '\\') :
    splitTop (some quote) false depth (text ++ quote :: more) =
      before (text ++ [quote]) (splitTop none false depth more) := by
  induction h with
  | nil =>
    rw [List.nil_append, splitTop_some_cons]
    simp only [hquote, Bool.false_eq_true, if_false, if_true, List.nil_append]
  | @plain c cs hc hslash _ ih =>
    rw [List.cons_append, splitTop_some_cons]
    simp only [hc, hslash, Bool.false_eq_true, if_false, ih]
    rfl
  | @escaped c cs _ ih =>
    rw [List.cons_append, List.cons_append, splitTop_some_cons]
    simp only [Bool.false_eq_true, if_false, if_true]
    rw [splitTop_some_cons]
    simp only [if_true, ih]
    rfl

/-- The scan for commas runs through balanced text, if it is inside brackets or there is no comma. -/
theorem Balanced.splitTop (h : Balanced cs) (hcomma : 0 < depth ∨ ',' ∉ cs) (more : List Char) :
    splitTop none false depth (cs ++ more) = before cs (splitTop none false depth more) := by
  induction h generalizing depth more with
  | nil => rfl
  | @plain c cs hc _ ih =>
    have hc' := hcomma.imp_right fun h => Ne.symm (List.ne_of_not_mem_cons h)
    have hcs := hcomma.imp_right fun h => List.not_mem_of_not_mem_cons h
    rw [List.cons_append, splitTop_plain hc hc', ih hcs]
    rfl
  | @quoted quote text cs hquote htext _ ih =>
    have hcs : 0 < depth ∨ ',' ∉ cs := hcomma.imp_right fun h hm => h (by simp [hm])
    rw [List.cons_append, List.append_assoc, List.cons_append, splitTop_quote hquote,
      htext.splitTop (ne_slash_of_isQuote hquote), ih hcs]
    simp [before]
  | @bracketed opener closer inner cs hopener _ _ ihinner ih =>
    have hcs : 0 < depth ∨ ',' ∉ cs := hcomma.imp_right fun h hm => h (by simp [hm])
    rw [List.cons_append, List.append_assoc, List.cons_append, splitTop_opener hopener,
      ihinner (Or.inl (Nat.succ_pos _)), splitTop_closer hopener, ih hcs]
    simp [before]

end LiveJson.Segment

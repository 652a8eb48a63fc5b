import LiveJson.Proofs.Path.Scan

/-! # Commas between brackets

Text between brackets is scanned twice, once for the bracket that closes and once for the commas. The
first scan keeps a stack of the closers that it waits for, the second only counts them; both run
through quoted parts, where a backslash hides a character. In front of each character of the text the
two have stood alike: between the same quotes, and with one closer more on the stack than are counted.
So no closer is one too many for the count. The pieces between the commas that are left stand where
they are read. -/

namespace LiveJson.Segment

open Text (byteLength)

variable {c last : Char} {cs front behind content rest closers : List Char} {mode : ScanMode}
  {opened stop pos : Nat}

/-! ## The scan for commas, character by character -/

/-- Where the scan for commas stands: between which quotes, behind a backslash or not, and inside how
many delimiters. -/
structure Stand where
  quote? : Option Char := none
  escaped : Bool := false
  depth : Nat := 0

namespace Stand

variable {s : Stand}

/-- Behind one more character. -/
def next (s : Stand) (c : Char) : Stand :=
  match s.quote? with
  | some quote =>
    if s.escaped then ⟨some quote, false, s.depth⟩
    else if c = '\\' then ⟨some quote, true, s.depth⟩
    else if c = quote then ⟨none, false, s.depth⟩
    else ⟨some quote, false, s.depth⟩
  | none =>
    if isQuote c then ⟨some c, false, s.depth⟩
    else if (closerOf? c).isSome then ⟨none, false, s.depth + 1⟩
    else if isCloser c then ⟨none, false, s.depth - 1⟩
    else ⟨none, false, s.depth⟩

theorem next_plain (hc : isDelimiter c = false) (depth : Nat) :
    next ⟨none, false, depth⟩ c = ⟨none, false, depth⟩ := by
  simp [next, not_isQuote hc, closerOf?_eq_none hc, not_isCloser hc]

theorem next_quote (hquote : isQuote c = true) (depth : Nat) :
    next ⟨none, false, depth⟩ c = ⟨some c, false, depth⟩ := if_pos hquote

theorem next_opener {closer : Char} (hopener : closerOf? c = some closer) (depth : Nat) :
    next ⟨none, false, depth⟩ c = ⟨none, false, depth + 1⟩ := by
  simp [next, (closerOf?_eq_some hopener).1, hopener]

theorem next_closer (hc : isQuote c = false ∧ closerOf? c = none ∧ isCloser c = true)
    (depth : Nat) : next ⟨none, false, depth⟩ c = ⟨none, false, depth - 1⟩ := by
  simp [next, hc.1, hc.2.1, hc.2.2]

theorem next_unquote (hslash : c ≠ '\\') (depth : Nat) :
    next ⟨some c, false, depth⟩ c = ⟨none, false, depth⟩ := by
  simp [next, hslash]

theorem next_inside {quote : Char} (hquote : c ≠ quote) (hslash : c ≠ '\\') (depth : Nat) :
    next ⟨some quote, false, depth⟩ c = ⟨some quote, false, depth⟩ := by
  simp [next, hslash, hquote]

/-- Behind a text. -/
def after (s : Stand) (cs : List Char) : Stand := cs.foldl next s

/-- What the scan makes of a text from here on. -/
def split (s : Stand) (cs : List Char) : List Char × List (List Char) :=
  splitTop s.quote? s.escaped s.depth cs

/-- The scan splits at the character. -/
def Splits (s : Stand) (c : Char) : Prop := s.quote? = none ∧ c = ',' ∧ s.depth = 0

theorem split_of_splits (h : s.Splits c) (cs : List Char) :
    s.split (c :: cs) = ([], ((s.next c).split cs).1 :: ((s.next c).split cs).2) := by
  obtain ⟨quote?, escaped, depth⟩ := s
  obtain ⟨rfl, rfl, rfl⟩ := h
  rfl

theorem split_of_not_splits (h : ¬ s.Splits c) (cs : List Char) :
    s.split (c :: cs) = before [c] ((s.next c).split cs) := by
  obtain ⟨quote?, escaped, depth⟩ := s
  cases quote? with
  | some quote =>
    simp only [split, next, splitTop_some_cons]
    split_ifs <;> rfl
  | none =>
    have hno : ¬ (c = ',' ∧ depth = 0) := fun hc => h ⟨rfl, hc⟩
    simp only [split, next, splitTop.eq_def none escaped depth, hno, if_false]
    split_ifs <;> rfl

end Stand

/-- The pieces of a text, and those of the text behind it. The last of the first is in one with the
first of the others. -/
def join (piece : List Char) : List (List Char) → List Char × List (List Char) →
    List Char × List (List Char)
  | [], more => before piece more
  | next :: pieces, more => (piece, (join next pieces more).1 :: (join next pieces more).2)

theorem before_join (cs piece : List Char) (pieces : List (List Char))
    (more : List Char × List (List Char)) :
    before cs (join piece pieces more) = join (cs ++ piece) pieces more := by
  cases pieces with
  | nil => exact congrArg (·, more.2) (List.append_assoc ..).symm
  | cons next pieces => rfl

/-- The scan splits the text behind another from where it stands then. -/
theorem Stand.split_append (s : Stand) (front behind : List Char) :
    s.split (front ++ behind) =
      join (s.split front).1 (s.split front).2 ((s.after front).split behind) := by
  induction front generalizing s with
  | nil => rfl
  | cons c front ih =>
    by_cases hc : s.Splits c
    · rw [List.cons_append, split_of_splits hc, split_of_splits hc, ih]
      rfl
    · rw [List.cons_append, split_of_not_splits hc, split_of_not_splits hc, ih, before_join]
      rfl

/-! ## Both scans -/

/-- The quote that a scan for the end of bracketed text waits for, and whether it is behind a
backslash. -/
def ScanMode.quotes : ScanMode → Option Char × Bool
  | plain => (none, false)
  | quoted quote _ => (some quote, false)
  | escaped quote _ => (some quote, true)

/-- The scan for the end and the scan for commas stand between the same quotes, and the closer of the
brackets that hold the text is on the stack but is not counted. -/
structure InStep (mode : ScanMode) (closers : List Char) (s : Stand) : Prop where
  quotes : mode.quotes = (s.quote?, s.escaped)
  stack : closers.length = s.depth + 1

variable {mode' : ScanMode} {closers' : List Char} {s : Stand}

/-- A step of the scan for the end keeps both in step. -/
theorem InStep.next (hs : InStep mode closers s)
    (hstep : ScanStep pos c mode closers mode' closers') : InStep mode' closers' (s.next c) := by
  obtain ⟨quote?, escaped, depth⟩ := s
  obtain ⟨hquotes, hstack⟩ := hs
  cases hstep with
  | plain hc =>
    cases hquotes
    rw [Stand.next_plain hc]
    exact ⟨rfl, hstack⟩
  | quote hquote =>
    cases hquotes
    rw [Stand.next_quote hquote]
    exact ⟨rfl, hstack⟩
  | opener hopener =>
    cases hquotes
    rw [Stand.next_opener hopener]
    exact ⟨rfl, congrArg (· + 1) hstack⟩
  | closer hc hne =>
    cases hquotes
    -- a closer is left on the stack, so the one that is taken has been counted
    have hpos := List.length_pos_of_ne_nil hne
    have hdepth : closers'.length = depth := Nat.succ.inj hstack
    rw [Stand.next_closer hc]
    exact ⟨rfl, hdepth.trans (Nat.sub_add_cancel (hdepth ▸ hpos)).symm⟩
  | slash quote start =>
    cases hquotes
    exact ⟨rfl, hstack⟩
  | unquote hslash start =>
    cases hquotes
    rw [Stand.next_unquote hslash]
    exact ⟨rfl, hstack⟩
  | inside hquote hslash start =>
    cases hquotes
    rw [Stand.next_inside hquote hslash]
    exact ⟨rfl, hstack⟩
  | escaped quote start =>
    cases hquotes
    exact ⟨rfl, hstack⟩

/-- A closer outside quotes that the scan for the end does not end at has been counted. -/
theorem InStep.depth_pos (hs : InStep mode closers s)
    (hstep : ScanStep pos c mode closers mode' closers') (hquote : s.quote? = none)
    (hcloser : isCloser c = true) : 0 < s.depth := by
  have hmode : mode.quotes.1 = none := by rw [hs.quotes, hquote]
  cases hstep with
  | plain hc => exact absurd hcloser (by simp [not_isCloser hc])
  | quote hc => exact absurd hcloser (by simp [not_isCloser_of_isQuote hc])
  | opener hopener => exact absurd hcloser (by simp [(closerOf?_eq_some hopener).2.2.2.1])
  | closer _ hne =>
    have hstack := hs.stack
    have hpos := List.length_pos_of_ne_nil hne
    rw [List.length_cons] at hstack
    omega
  | slash | unquote | inside | escaped => cases hmode

/-- In front of each character that a scan for the end takes, the scan for commas is in step with it.
-/
theorem inStep_after (hlast : closers.getLast? = some last) (hs : InStep mode closers s)
    (h : enclosed opened stop mode closers pos cs = .ok (front ++ behind, rest)) :
    ∃ mode' closers', closers'.getLast? = some last ∧ InStep mode' closers' (s.after front) ∧
      enclosed opened stop mode closers pos cs =
        ahead front (enclosed opened stop mode' closers' (pos + byteLength front)
          (behind ++ last :: rest)) := by
  obtain ⟨rfl, -⟩ := scanned_of_enclosed hlast h
  induction front generalizing mode closers s pos with
  | nil => exact ⟨mode, closers, hlast, hs, (ahead_nil _).symm⟩
  | cons c front ih =>
    simp only [List.cons_append, List.append_assoc] at h ih ⊢
    rcases enclosed_cons hlast h with ⟨-, hnil, -⟩ | ⟨mode', closers', hstep, htake⟩
    · cases hnil
    · obtain ⟨ds, hds, hcontent⟩ := ahead_eq_ok.mp (htake.symm.trans h)
      cases hcontent
      obtain ⟨mode'', closers'', hlast', hs', hrun⟩ := ih (hstep.getLast? hlast) (hs.next hstep) hds
      refine ⟨mode'', closers'', hlast', hs', ?_⟩
      rw [htake, hrun, ← ahead_cons, Text.byteLength_cons, Nat.add_assoc]

/-! ## The pieces -/

/-- Texts with a comma between one and the next, each with the byte that it stands at. -/
def placed (start : Nat) : List (List Char) → List (Nat × List Char)
  | [] => []
  | text :: texts => (start, text) :: placed (start + byteLength text + 1) texts

/-- The pieces of the text between two brackets, each with the byte of the text that it stands at. -/
def pieces (content : List Char) : List (Nat × List Char) :=
  placed 0 ((splitTop none false 0 content).1 :: (splitTop none false 0 content).2)

/-- The pieces, with a comma behind each. -/
def followed (pieces : List (Nat × List Char)) : List Char := pieces.flatMap fun p => p.2 ++ [',']

/-- The pieces, with a comma in front of each. -/
def preceded (pieces : List (Nat × List Char)) : List Char := pieces.flatMap fun p => ',' :: p.2

variable {earlier later : List (Nat × List Char)} {piece : Nat × List Char} {start : Nat}
  {text : List Char} {texts : List (List Char)}

theorem map_snd_placed (start : Nat) (texts : List (List Char)) :
    (placed start texts).map Prod.snd = texts := by
  induction texts generalizing start with
  | nil => rfl
  | cons text texts ih => rw [placed, List.map_cons, ih]

theorem preceded_placed (start : Nat) (texts : List (List Char)) :
    preceded (placed start texts) = texts.flatMap fun text => ',' :: text := by
  rw [← map_snd_placed start texts, List.flatMap_map, map_snd_placed, preceded]

theorem intercalate_cons (text : List Char) (texts : List (List Char)) :
    [','].intercalate (text :: texts) = text ++ texts.flatMap fun text => ',' :: text := by
  induction texts generalizing text with
  | nil => simp
  | cons next texts ih => rw [List.intercalate_cons_cons, ih, List.flatMap_cons]; simp

/-- A piece stands behind the pieces before it and their commas. -/
theorem start_of_placed (h : placed start texts = earlier ++ piece :: later) :
    piece.1 = start + byteLength (followed earlier) := by
  induction texts generalizing start earlier with
  | nil => exact absurd h (by simp [placed])
  | cons text texts ih =>
    cases earlier with
    | nil =>
      cases h
      rfl
    | cons first earlier =>
      obtain ⟨rfl, hrest⟩ := List.cons.inj h
      have hcomma : ','.utf8Size = 1 := rfl
      rw [ih hrest, followed, followed, List.flatMap_cons, Text.byteLength_append,
        Text.byteLength_append, Text.byteLength_cons, Text.byteLength_nil, hcomma]
      dsimp only
      omega

/-- What stands around a piece. -/
theorem text_of_placed (h : placed start (text :: texts) = earlier ++ piece :: later) :
    text ++ texts.flatMap (fun text => ',' :: text) =
      followed earlier ++ (piece.2 ++ preceded later) := by
  induction texts generalizing start text earlier with
  | nil =>
    cases earlier with
    | nil =>
      cases h
      rfl
    | cons first earlier => exact absurd (List.cons.inj h).2 (by simp [placed])
  | cons next texts ih =>
    cases earlier with
    | nil =>
      cases h
      rw [preceded_placed]
      rfl
    | cons first earlier =>
      obtain ⟨rfl, hrest⟩ := List.cons.inj h
      rw [List.flatMap_cons, List.cons_append, ih hrest, followed, followed, List.flatMap_cons]
      simp

theorem mem_splitTop_of_pieces (h : piece ∈ pieces content) :
    piece.2 = (splitTop none false 0 content).1 ∨ piece.2 ∈ (splitTop none false 0 content).2 := by
  have hmem : piece.2 ∈ (pieces content).map Prod.snd := List.mem_map_of_mem h
  rwa [pieces, map_snd_placed, List.mem_cons] at hmem

theorem readItems_placed (offset start : Nat) (texts : List (List Char)) :
    readItems (offset + start) texts =
      (placed start texts).mapM fun p => readItem (offset + p.1) p.2 := by
  induction texts generalizing start with
  | nil => rfl
  | cons text texts ih =>
    rw [readItems, placed, List.mapM_cons, ← ih, ← Nat.add_assoc, ← Nat.add_assoc]

/-- The reader reads each piece at the byte where it stands. -/
theorem readBracketed_pieces (offset : Nat) (content : List Char) :
    readBracketed offset content =
      match pieces content with
      | [piece] => readItem (offset + piece.1) piece.2
      | pieces => (pieces.mapM fun p => readItem (offset + p.1) p.2).map union := by
  unfold readBracketed pieces
  rcases splitTop none false 0 content with ⟨text, _ | ⟨next, texts⟩⟩
  · rfl
  · exact congrArg (Except.map union) (readItems_placed offset 0 (text :: next :: texts))

/-- **The scan for commas cuts what the scan for the end has found between two brackets into pieces
that make it up again with single commas, each with the byte where it stands and is read. In each
piece the quotes are closed and the delimiters match, and no comma is outside of both. In front of each
character both scans have stood alike, and no closer outside quotes is one too many for the count.** -/
theorem commas_of_enclosed
    (h : enclosed opened stop .plain [']'] pos cs = .ok (content, rest)) :
    [','].intercalate ((pieces content).map Prod.snd) = content ∧
      (∀ earlier piece later, pieces content = earlier ++ piece :: later →
        content = followed earlier ++ (piece.2 ++ preceded later) ∧
          piece.1 = byteLength (followed earlier) ∧ Whole piece.2) ∧
      (∀ offset, readBracketed offset content =
        match pieces content with
        | [piece] => readItem (offset + piece.1) piece.2
        | pieces => (pieces.mapM fun p => readItem (offset + p.1) p.2).map union) ∧
      ∀ front c behind, content = front ++ c :: behind → ∃ mode closers,
        enclosed opened stop .plain [']'] pos cs =
            ahead front (enclosed opened stop mode closers (pos + byteLength front)
              (c :: behind ++ ']' :: rest)) ∧
          splitTop none false 0 content =
            join (splitTop none false 0 front).1 (splitTop none false 0 front).2
              ((Stand.after {} front).split (c :: behind)) ∧
          InStep mode closers (Stand.after {} front) ∧
          ((Stand.after {} front).quote? = none → isCloser c = true →
            0 < (Stand.after {} front).depth) := by
  have htext := append_splitTop none false 0 content
  obtain ⟨-, hbalanced⟩ := enclosed_eq_ok_iff.mp h
  have hwhole := hbalanced.whole_splitTop
  refine ⟨?_, fun earlier piece later hpieces => ⟨?_, ?_, ?_⟩,
    fun offset => readBracketed_pieces offset content, fun front c behind hcontent => ?_⟩
  · rw [pieces, map_snd_placed, intercalate_cons, ← htext]
  · rw [htext]
    exact text_of_placed hpieces
  · rw [start_of_placed hpieces, Nat.zero_add]
  · have hmem : piece ∈ pieces content := hpieces ▸ List.mem_append_right _ List.mem_cons_self
    rcases mem_splitTop_of_pieces hmem with hfirst | hmore
    · exact hfirst ▸ hwhole.1
    · exact hwhole.2 _ hmore
  · subst hcontent
    obtain ⟨mode, closers, hlast, hs, hrun⟩ :=
      inStep_after rfl (⟨rfl, rfl⟩ : InStep .plain [']'] {}) h
    refine ⟨mode, closers, hrun, Stand.split_append {} front (c :: behind), hs,
      fun hquote hcloser => ?_⟩
    obtain ⟨ds, hds, hcontent⟩ := ahead_eq_ok.mp (hrun.symm.trans h)
    obtain rfl : c :: behind = ds := List.append_cancel_left hcontent
    rcases enclosed_cons hlast hds with ⟨-, hnil, -⟩ | ⟨mode', closers', hstep, -⟩
    · cases hnil
    · exact hs.depth_pos hstep hquote hcloser

/-- A comma in a string of an expression, one between quotes, and a bracket in front of which the scan
for commas is inside two delimiters. -/
theorem commas_of_computed :
    enclosed 0 20 .plain [']'] 1 "(@['a,b']),'c,]'].d".toList =
        .ok ("(@['a,b']),'c,]'".toList, ".d".toList) ∧
      pieces "(@['a,b']),'c,]'".toList =
        [(0, "(@['a,b'])".toList), (11, "'c,]'".toList)] ∧
      Whole "'c,]'".toList ∧ 0 < (Stand.after {} "(@['a,b'".toList).depth := by
  have h : enclosed 0 20 .plain [']'] 1 "(@['a,b']),'c,]'].d".toList =
      .ok ("(@['a,b']),'c,]'".toList, ".d".toList) := by rfl
  have hpieces : pieces "(@['a,b']),'c,]'".toList =
      [(0, "(@['a,b'])".toList), (11, "'c,]'".toList)] := by rfl
  obtain ⟨-, hplaced, -, hstand⟩ := commas_of_enclosed h
  obtain ⟨-, -, -, -, -, hdepth⟩ := hstand "(@['a,b'".toList ']' "),'c,]'".toList rfl
  exact ⟨h, hpieces, (hplaced [_] _ [] hpieces).2.2, hdepth rfl rfl⟩

end LiveJson.Segment

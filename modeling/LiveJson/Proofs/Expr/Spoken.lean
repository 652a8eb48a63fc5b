import LiveJson.Proofs.Expr.Lexemes

/-! # What the texts of expressions can name

Names and numbers come out of the lexer, so not every tree is the tree of a text. A binding is a
word that starts like a name and means nothing else, a member is any run of name characters, and a
number is read from a numeral without a sign. -/

namespace LiveJson.Expr

open Token (scan)

variable {cs text rest : List Char} {ks js : List Token.Kind} {kind : Token.Kind} {e : Expr}
  {level : Level} {afterDot : Bool} {fuel pos : Nat}

def IsMember (cs : List Char) : Prop := cs ≠ [] ∧ ∀ c ∈ cs, isNameChar c = true

/-- The words that stand for a value. -/
def valueWords : List (List Char) :=
  ["true".toList, "false".toList, "null".toList, "undefined".toList]

structure IsWord (cs : List Char) : Prop where
  starts : ∃ c ds, cs = c :: ds ∧ isNameStart c = true
  chars : ∀ c ∈ cs, isNameChar c = true
  free : cs ∉ valueWords

/-- A numeral that the lexer has found begins with a digit. -/
def BeginsWithDigit (cs : List Char) : Prop := ∃ c ds, cs = c :: ds ∧ Decimal.isDigit c = true

/-- The token can come from a text, directly after a dot or elsewhere. -/
def Token.Kind.Fair (afterDot : Bool) : Token.Kind → Prop
  | name text => if afterDot then IsMember text.toList else IsWord text.toList
  | number text => BeginsWithDigit text.toList
  | _ => True

def Token.FairFrom : Bool → List Token.Kind → Prop
  | _, [] => True
  | afterDot, kind :: ks => kind.Fair afterDot ∧ FairFrom (kind == .dot) ks

/-! ## Lexemes -/

namespace Lexeme

theorem fair_subject (cs : List Char) : (subject cs).kind.Fair afterDot := by
  unfold subject
  split
  · trivial
  · split
    · dsimp only
      split_ifs <;> trivial
    · trivial

theorem fair_word {c : Char} (hc : isNameStart c = true) (cs : List Char) :
    (word (c :: cs)).kind.Fair false := by
  have hchars : ∀ d ∈ (c :: cs).takeWhile isNameChar, isNameChar d = true := fun d hd =>
    List.mem_takeWhile_imp hd
  have hstarts : (c :: cs).takeWhile isNameChar = c :: cs.takeWhile isNameChar :=
    List.takeWhile_cons_of_pos (isNameChar_of_isNameStart hc)
  unfold word
  dsimp only
  split_ifs with htrue hfalse hnull hundefined
  · trivial
  · trivial
  · trivial
  · trivial
  · change IsWord (String.ofList _).toList
    rw [String.toList_ofList]
    refine ⟨⟨c, _, hstarts, hc⟩, hchars, fun h => ?_⟩
    simp only [valueWords, List.mem_cons, List.not_mem_nil, or_false] at h
    rcases h with h | h | h | h
    · exact htrue h
    · exact hfalse h
    · exact hnull h
    · exact hundefined h

theorem fair_member (cs : List Char) : (member cs).kind.Fair true := by
  unfold member
  dsimp only
  split
  · trivial
  · next hne =>
    change IsMember (String.ofList _).toList
    rw [String.toList_ofList]
    exact ⟨mt List.isEmpty_iff.mpr hne, fun c hc => List.mem_takeWhile_imp hc⟩

theorem fair_exponent (htext : BeginsWithDigit text) (rest : List Char) :
    (exponent text rest).kind.Fair afterDot := by
  obtain ⟨c, ds, rfl, hc⟩ := htext
  have begins (more : List Char) :
      (Token.Kind.number (String.ofList (c :: more))).Fair afterDot := by
    change BeginsWithDigit (String.ofList _).toList
    rw [String.toList_ofList]
    exact ⟨c, more, rfl, hc⟩
  unfold exponent
  split
  · split
    · split
      dsimp only
      split
      · trivial
      · exact begins _
    · exact begins _
  · exact begins _

theorem fair_number {c : Char} (hc : Decimal.isDigit c = true) (cs : List Char) :
    (number (c :: cs)).kind.Fair afterDot := by
  have hwhole : (c :: cs).takeWhile Decimal.isDigit = c :: cs.takeWhile Decimal.isDigit :=
    List.takeWhile_cons_of_pos hc
  unfold number
  dsimp only
  rw [hwhole]
  split
  · split
    · trivial
    · exact fair_exponent ⟨c, _, rfl, hc⟩ _
  · exact fair_exponent ⟨c, _, rfl, hc⟩ _

theorem fair_string (quote : Quote) (cs : List Char) : (string quote cs).kind.Fair afterDot := by
  unfold string
  split <;> trivial

theorem fair_first (cs : List Char) : (first cs).kind.Fair false := by
  unfold first
  split
  case h_2 => exact fair_subject _
  case h_8 | h_9 => exact fair_string _ _
  case h_29 =>
    split_ifs with hzero hdigit hname
    · trivial
    · exact fair_number hdigit _
    · exact fair_word hname _
    · trivial
  -- no other lexeme is a name or a number
  all_goals trivial

end Lexeme

/-! ## Texts -/

theorem fair_scan : Token.FairFrom afterDot (kinds (scan fuel afterDot pos cs)) := by
  induction fuel generalizing afterDot pos cs with
  | zero => trivial
  | succ fuel ih =>
    have hfair : ∀ front,
        (if afterDot = true then Lexeme.member front else Lexeme.first front).kind.Fair
        afterDot := by
      cases afterDot with
      | true => exact Lexeme.fair_member
      | false => exact Lexeme.fair_first
    rw [scan]
    generalize (if afterDot = true then cs else cs.dropWhile isSpace) = front
    have hlexeme := hfair front
    generalize (if afterDot = true then Lexeme.member front else Lexeme.first front) = l
      at hlexeme ⊢
    split
    · exact ⟨hlexeme, trivial⟩
    · exact ⟨hlexeme, trivial⟩
    · exact ⟨hlexeme, ih⟩

theorem Token.FairFrom.left (h : Token.FairFrom afterDot (ks ++ js)) :
    Token.FairFrom afterDot ks := by
  induction ks generalizing afterDot with
  | nil => trivial
  | cons kind ks ih => exact ⟨h.1, ih h.2⟩

theorem Token.FairFrom.right (h : Token.FairFrom afterDot (ks ++ js)) :
    ∃ afterDot', Token.FairFrom afterDot' js := by
  induction ks generalizing afterDot with
  | nil => exact ⟨_, h⟩
  | cons kind ks ih => exact ih h.2

theorem fair_sentence (ts : List Token) (h : Token.FairFrom false (kinds ts)) :
    Token.FairFrom false (sentence ts) := by
  obtain ⟨js, hjs⟩ := List.takeWhile_prefix (p := (· ≠ Token.Kind.finish)) (l := kinds ts)
  rw [← hjs] at h
  exact h.left

/-! ## Trees -/

/-- The double of a numeral without a sign. -/
def Literal.Spoken : Literal → Prop
  | number value => ∃ cs, BeginsWithDigit cs ∧ Decimal.read cs = some value
  | _ => True

/-- The expression is made of what texts can name. -/
def Spoken : Expr → Prop
  | literal _ value => value.Spoken
  | subject .. => True
  | binding _ name => IsWord name.toList
  | member _ object name => object.Spoken ∧ IsMember name.toList
  | index _ object key => object.Spoken ∧ key.Spoken
  | not _ operand | negate _ operand => operand.Spoken
  | binary _ _ left right => left.Spoken ∧ right.Spoken

theorem spoken_unspanned (e : Expr) : e.unspanned.Spoken ↔ e.Spoken := by
  induction e with
  | literal | subject | binding => exact Iff.rfl
  | member _ _ _ ih | not _ _ ih | negate _ _ ih => simp only [unspanned, Spoken, ih]
  | index _ _ _ ih ihkey => simp only [unspanned, Spoken, ih, ihkey]
  | binary _ _ _ _ ihl ihr => simp only [unspanned, Spoken, ihl, ihr]

/-- The tree of tokens that come from a text. -/
theorem Derives.spoken (h : Derives level ks e) (hks : Token.FairFrom false ks) : e.Spoken := by
  induction h with
  | pass _ _ ih => exact ih hks
  | binary _ _ _ _ ihl ihr =>
    obtain ⟨_, -, hright⟩ := hks.right
    exact ⟨ihl hks.left, ihr hright⟩
  | not _ ih | negate _ ih => exact ih hks.2
  | member _ name ih =>
    obtain ⟨_, -, hname, -⟩ := hks.right
    exact ⟨ih hks.left, hname⟩
  | index _ _ ih ihkey =>
    obtain ⟨_, -, hkey⟩ := hks.right
    exact ⟨ih hks.left, ihkey (Token.FairFrom.left hkey)⟩
  | atom h =>
    cases h with
    | number h => exact ⟨_, hks.1, h⟩
    | name name => exact hks.1
    | _ => trivial
  | group _ ih => exact ih (Token.FairFrom.left hks.2)

/-- **Whatever is parsed is made of what texts can name.** -/
theorem spoken_of_parse {offset : Nat} (h : parse text offset = .ok e) : e.Spoken := by
  obtain ⟨-, hparse⟩ := parse_eq_ok.mp h
  exact (spoken_unspanned e).mp ((derives_of_ofTokens hparse).spoken (fair_sentence _ fair_scan))

end LiveJson.Expr

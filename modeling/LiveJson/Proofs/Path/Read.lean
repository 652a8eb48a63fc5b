import LiveJson.Path.Basic
import LiveJson.Proofs.Path.Balanced
import Mathlib.Data.List.Basic

/-! # Reading canonical paths

A canonical path reads back as one segment for each of its keys. What stands between a pair of
brackets is either bare, of digits and stars, or one quoted text; both are balanced, so the scan for
the closing bracket ends at the bracket that the key was written with, and there is no comma to split
at. So canonical paths are equal exactly if the names of their keys are. -/

namespace LiveJson

/-! ## Bare and quoted text -/

namespace Text

variable {c : Char} {cs : List Char}

theorem dropTrailing_concat {p : Char → Bool} (hc : p c = false) (cs : List Char) :
    dropTrailing p (cs ++ [c]) = cs ++ [c] := by
  induction cs with
  | nil => simp [dropTrailing, hc]
  | cons d cs ih =>
    rw [List.cons_append, dropTrailing, ih]
    cases cs <;> rfl

/-- Text that neither begins nor ends with a blank is not trimmed. -/
theorem trim_eq_self {d : Char} (hc : isBlank c = false) (hd : isBlank d = false)
    (cs : List Char) : trim (c :: (cs ++ [d])) = c :: (cs ++ [d]) := by
  have hstart : trimStart (c :: (cs ++ [d])) = c :: (cs ++ [d]) := by
    simp [trimStart, hc]
  rw [trim, hstart]
  exact dropTrailing_concat hd (c :: cs)

theorem trim_ne_nil (hc : isBlank c = false) (cs : List Char) : trim (c :: cs) ≠ [] := by
  have hstart : trimStart (c :: cs) = c :: cs := by
    simp [trimStart, hc]
  rw [trim, hstart, trimEnd, dropTrailing]
  split
  · rw [hc]
    simp
  · simp

theorem trim_singleton (hc : isBlank c = false) : trim [c] = [c] := by
  simp [trim, trimStart, trimEnd, dropTrailing, hc]

theorem dropTrailing_isPrefix (p : Char → Bool) (cs : List Char) : dropTrailing p cs <+: cs := by
  induction cs with
  | nil => exact List.prefix_rfl
  | cons c cs ih =>
    rw [dropTrailing]
    split
    · split
      · exact List.nil_prefix
      · exact ⟨cs, rfl⟩
    · next hrest => exact (List.prefix_cons_inj c).mpr ih

theorem dropTrailing_dropTrailing (p : Char → Bool) (cs : List Char) :
    dropTrailing p (dropTrailing p cs) = dropTrailing p cs := by
  induction cs with
  | nil => rfl
  | cons c cs ih =>
    rw [dropTrailing]
    cases hcs : dropTrailing p cs with
    | nil => cases hc : p c <;> simp [dropTrailing, hc]
    | cons d ds =>
      rw [hcs] at ih
      show dropTrailing p (c :: d :: ds) = c :: d :: ds
      rw [dropTrailing, ih]

theorem trim_infix (cs : List Char) : trim cs <:+: cs :=
  (dropTrailing_isPrefix isBlank _).isInfix.trans (List.dropWhile_suffix isBlank).isInfix

/-- What trimming leaves has no blanks at its ends. -/
theorem trim_trim (cs : List Char) : trim (trim cs) = trim cs := by
  have hstart : trimStart (trim cs) = trim cs := by
    rw [trim, trimEnd]
    cases hcs : trimStart cs with
    | nil => rfl
    | cons c ds =>
      have hc : isBlank c = false := by
        have hfirst := List.head?_dropWhile_not isBlank cs
        rwa [← trimStart, hcs] at hfirst
      rw [dropTrailing]
      split <;> simp [trimStart, hc]
  rw [trim, hstart]
  exact dropTrailing_dropTrailing isBlank _

/-- The text between two quotes of either sort. -/
def enquote (quote : Char) (cs : List Char) : List Char := quote :: (escape quote cs ++ [quote])

def quoted (cs : List Char) : List Char := '\'' :: (escape '\'' cs ++ ['\''])

end Text

namespace Key

/-- The characters that need no quotes. -/
def bareChar (c : Char) : Bool := Decimal.isDigit c || c == '*'

theorem isDigit_eq (c : Char) : Decimal.isDigit c = c.isDigit := by
  simp only [Decimal.isDigit, Char.isDigit, Char.le_def, UInt32.le_iff_toNat_le, ge_iff_le]

/-- What stands between the brackets of a key. -/
def body (key : Key) : List Char :=
  if isBare key.toName.toList then key.toName.toList else Text.quoted key.toName.toList

theorem toName_index_toList (i : Nat) : (index i).toName.toList = Nat.toDigits 10 i := by
  rw [toName, Nat.toString_eq_ofList_toDigits, String.toList_ofList]

theorem toName_index_inj {i j : Nat} (h : (index i).toName = (index j).toName) : i = j := by
  have hdigits := congrArg String.toList h
  rw [toName_index_toList, toName_index_toList] at hdigits
  rw [← Nat.ofDigitChars_ten_toDigits (n := i), hdigits, Nat.ofDigitChars_ten_toDigits]

theorem isBare_index (i : Nat) : isBare (index i).toName.toList = true := by
  rw [toName_index_toList, isBare]
  simp only [Bool.and_eq_true, Bool.not_eq_true', List.isEmpty_eq_false_iff, List.all_eq_true]
  refine ⟨Nat.toDigits_ne_nil, fun c hc => ?_⟩
  rw [isDigit_eq, Nat.isDigit_of_mem_toDigits (by decide) (by decide) hc]
  rfl

theorem render_eq (key : Key) : key.render = '[' :: (key.body ++ [']']) := by
  cases key with
  | index i => rw [body, if_pos (isBare_index i), toName_index_toList, render]
  | name text =>
    rw [body, toName_name, render]
    split
    · rfl
    · simp [Text.quoted]

end Key

theorem Path.render_cons (key : Key) (p : Path) :
    (key :: p).flatMap Key.render = '[' :: (key.body ++ ']' :: p.flatMap Key.render) := by
  rw [List.flatMap_cons, Key.render_eq]
  simp

namespace Segment

open Key (bareChar)

variable {c : Char} {cs : List Char}

/-! ## Between brackets -/

/-- The characters of bare text and of slices. -/
def inertChar (c : Char) : Bool := Decimal.isDigit c || c == '*' || c == '-' || c == ':'

theorem inertChar_of_bareChar (h : bareChar c = true) : inertChar c = true := by
  simp only [bareChar, inertChar, Bool.or_eq_true] at h ⊢
  exact .inl (.inl h)

theorem isDelimiter_of_inertChar (h : inertChar c = true) : isDelimiter c = false :=
  isDelimiter_of_class (by decide) h

theorem ne_comma_of_inertChar (h : inertChar c = true) : c ≠ ',' := by
  intro hc
  rw [hc] at h
  exact absurd h (by decide)

theorem isBlank_of_inertChar (h : inertChar c = true) : Text.isBlank c = false := by
  have hn : c.toNat = 42 ∨ c.toNat = 45 ∨ (48 ≤ c.toNat ∧ c.toNat ≤ 58) := by
    simp only [inertChar, Decimal.isDigit, Bool.or_eq_true, Bool.and_eq_true, decide_eq_true_eq,
      beq_iff_eq, Char.le_def, UInt32.le_iff_toNat_le] at h
    rcases h with ((⟨h0, h9⟩ | rfl) | rfl) | rfl
    · exact .inr (.inr ⟨h0, Nat.le_succ_of_le h9⟩)
    · exact .inl rfl
    · exact .inr (.inl rfl)
    · exact .inr (.inr (by decide))
  simp only [Text.isBlank, Bool.or_eq_false_iff, Bool.and_eq_false_iff, decide_eq_false_iff_not,
    beq_eq_false_iff_ne]
  omega

theorem balanced_bare (h : ∀ c ∈ cs, bareChar c = true) : Balanced cs :=
  balanced_of_plain fun c hc => isDelimiter_of_inertChar (inertChar_of_bareChar (h c hc))

theorem quotable_escape (quote : Char) (cs : List Char) : Quotable quote (Text.escape quote cs) := by
  induction cs with
  | nil => exact .nil
  | cons c cs ih =>
    by_cases hc : c = '\\' ∨ c = quote
    · rw [Text.escape, if_pos (by simpa using hc)]
      exact .escaped c ih
    · rw [Text.escape, if_neg (by simpa using hc)]
      rw [not_or] at hc
      exact .plain hc.2 hc.1 ih

theorem balanced_enquote {quote : Char} (h : isQuote quote = true) (cs : List Char) :
    Balanced (Text.enquote quote cs) := .quoted h (quotable_escape quote cs) .nil

theorem balanced_quoted (cs : List Char) : Balanced (Text.quoted cs) := balanced_enquote rfl cs

theorem splitTop_bare (h : ∀ c ∈ cs, bareChar c = true) : splitTop none false 0 cs = (cs, []) := by
  have hcomma : ',' ∉ cs := fun hc => absurd (h ',' hc) (by decide)
  have hsplit := (balanced_bare h).splitTop (Or.inr hcomma : 0 < 0 ∨ ',' ∉ cs) []
  rw [List.append_nil] at hsplit
  simp [hsplit, before, splitTop]

theorem splitTop_enquote {quote : Char} (h : isQuote quote = true) (cs : List Char) :
    splitTop none false 0 (Text.enquote quote cs) = (Text.enquote quote cs, []) := by
  rw [Text.enquote, splitTop_quote h,
    (quotable_escape quote cs).splitTop (ne_slash_of_isQuote h)]
  simp [before, splitTop]

theorem splitTop_quoted (cs : List Char) :
    splitTop none false 0 (Text.quoted cs) = (Text.quoted cs, []) := splitTop_enquote rfl cs

theorem takeBound_suffix (cs : List Char) : (takeBound cs).2 <:+ cs := by
  unfold takeBound
  split
  · exact (List.dropWhile_suffix _).trans (List.suffix_cons _ _)
  · exact List.dropWhile_suffix _

/-- A text without a colon is no slice. -/
theorem sliceBounds?_eq_none (h : ':' ∉ cs) : sliceBounds? cs = none := by
  unfold sliceBounds?
  dsimp only
  split
  · next rest hr =>
    exact absurd ((takeBound_suffix cs).subset (hr ▸ List.mem_cons_self)) h
  · rfl

theorem trim_inert (h : ∀ c ∈ cs, inertChar c = true) : Text.trim cs = cs := by
  rcases List.eq_nil_or_concat' cs with rfl | ⟨ds, d, rfl⟩
  · rfl
  · have hd := isBlank_of_inertChar (h d (by simp))
    cases ds with
    | nil => exact Text.trim_singleton hd
    | cons c ds => exact Text.trim_eq_self (isBlank_of_inertChar (h c (by simp))) hd ds

theorem unquote?_enquote {quote : Char} (h : isQuote quote = true) (cs : List Char) :
    unquote? (Text.enquote quote cs) = some cs := by
  simp [unquote?, Text.enquote, h, stripSuffix?, Text.unescape_escape]

/-- Text without quotes, blanks and parentheses is a wildcard, a slice or a name. -/
theorem readItem_inert (hne : cs ≠ []) (h : ∀ c ∈ cs, inertChar c = true) (offset : Nat) :
    readItem offset cs =
      if cs = ['*'] then .ok wildcard
      else
        match sliceBounds? cs with
        | some (start, stop, step) =>
          readSlice ⟨offset, offset + Text.byteLength cs⟩ start stop step
        | none => .ok (name (String.ofList cs)) := by
  have hq : unquote? cs = none := by
    cases cs with
    | nil => rfl
    | cons c cs =>
      rw [unquote?, if_neg]
      rw [not_isQuote (isDelimiter_of_inertChar (h c List.mem_cons_self))]
      decide
  have hblank : offset + Text.byteLength (cs.takeWhile Text.isBlank) = offset := by
    cases cs with
    | nil => rfl
    | cons c cs =>
      rw [List.takeWhile_cons_of_neg]
      · rfl
      · rw [isBlank_of_inertChar (h c List.mem_cons_self)]
        decide
  unfold readItem
  simp only [trim_inert h, hblank]
  split
  · exact absurd rfl hne
  · exact absurd (h '?' (by simp)) (by decide)
  · exact absurd (h '(' (by simp)) (by decide)
  · generalize unquote? cs = unquoted at hq
    subst hq
    rfl

/-- What stands bare between brackets is read as a wildcard or as a name. -/
theorem readItem_bare (hne : cs ≠ []) (h : ∀ c ∈ cs, bareChar c = true) (offset : Nat) :
    readItem offset cs = .ok (if cs = ['*'] then wildcard else name (String.ofList cs)) := by
  have hcolon : ':' ∉ cs := fun hc => absurd (h ':' hc) (by decide)
  rw [readItem_inert hne (fun c hc => inertChar_of_bareChar (h c hc)), sliceBounds?_eq_none hcolon]
  split <;> rfl

theorem readItem_enquote {quote : Char} (h : isQuote quote = true) (cs : List Char) (offset : Nat) :
    readItem offset (Text.enquote quote cs) = .ok (name (String.ofList cs)) := by
  have hblank : Text.isBlank quote = false ∧ quote ≠ '?' ∧ quote ≠ '(' := by
    simp only [isQuote, Bool.or_eq_true, beq_iff_eq] at h
    rcases h with rfl | rfl <;> decide
  obtain ⟨hblank, hquestion, hparen⟩ := hblank
  have htrim : Text.trim (Text.enquote quote cs) = Text.enquote quote cs :=
    Text.trim_eq_self hblank hblank _
  unfold readItem
  simp only [htrim]
  split
  · next h => cases h
  · next h => exact absurd (List.cons.inj h).1 hquestion
  · next h => exact absurd (List.cons.inj h).1 hparen
  · simp only [unquote?_enquote h]

theorem readItem_quoted (cs : List Char) (offset : Nat) :
    readItem offset (Text.quoted cs) = .ok (name (String.ofList cs)) := readItem_enquote rfl cs offset

end Segment

/-- The segment that a key is read back as: a key of one star is taken for a wildcard. -/
def Key.segment (key : Key) : Segment :=
  if key.toName = "*" then .wildcard else .name key.toName

namespace Segment

open Key (bareChar)

theorem bareChar_of_isBare {cs : List Char} (h : Key.isBare cs = true) :
    cs ≠ [] ∧ ∀ c ∈ cs, bareChar c = true := by
  rw [Key.isBare, Bool.and_eq_true, Bool.not_eq_true', List.isEmpty_eq_false_iff,
    List.all_eq_true] at h
  exact h

theorem balanced_body (key : Key) : Balanced key.body := by
  unfold Key.body
  split
  · next h => exact balanced_bare (bareChar_of_isBare h).2
  · exact balanced_quoted _

theorem toList_eq_star {text : String} : text.toList = ['*'] ↔ text = "*" := by
  constructor
  · intro h
    rw [← String.ofList_toList (s := text), h]
  · intro heq
    subst heq
    rfl

theorem readBracketed_body (key : Key) (offset : Nat) :
    readBracketed offset key.body = .ok key.segment := by
  unfold Key.body Key.segment
  split
  · next h =>
    obtain ⟨hne, hbare⟩ := bareChar_of_isBare h
    rw [readBracketed, splitTop_bare hbare]
    dsimp only
    rw [readItem_bare hne hbare, String.ofList_toList]
    simp only [toList_eq_star]
  · next h =>
    rw [readBracketed, splitTop_quoted]
    dsimp only
    rw [readItem_quoted, String.ofList_toList, if_neg]
    intro hstar
    rw [hstar] at h
    exact h (by decide)

/-- The keys of a canonical path are read one after the other. -/
theorem readFrom_render (stop : Nat) : ∀ (p : Path) (fuel pos : Nat), p.length < fuel →
    readFrom stop fuel pos (p.flatMap Key.render) = .ok (p.map Key.segment)
  | [], fuel + 1, pos, _ => by simp [readFrom, atEnd]
  | key :: p, fuel + 1, pos, h => by
    have ih := fun pos => readFrom_render stop p fuel pos (by simpa using h)
    have hend : atEnd ('[' :: (key.body ++ ']' :: p.flatMap Key.render)) = false := by rfl
    rw [Path.render_cons, readFrom]
    simp only [hend, (balanced_body key).enclosed_eq, readBracketed_body, ih, bind, Except.bind, pure, Except.pure,
      Bool.false_eq_true, if_false, List.map_cons]

theorem read_root : read (Path.toText []) = .ok [root] := by
  rfl

/-- **A canonical path reads back as the segments of its keys.** -/
theorem read_toText {p : Path} (hp : p ≠ []) : read p.toText = .ok (p.map Key.segment) := by
  have hlen : p.length < (Path.canonical p).length + 1 := by
    have hle : ∀ q : Path, q.length ≤ (q.flatMap Key.render).length := by
      intro q
      induction q with
      | nil => simp
      | cons key q ih =>
        rw [List.flatMap_cons, List.length_append, Key.render_eq]
        simp only [List.length_cons]
        omega
    have := hle p
    rw [Path.canonical, List.length_cons]
    omega
  have htrim : (Text.trim (Path.canonical p)).isEmpty = false :=
    List.isEmpty_eq_false_iff.mpr (Text.trim_ne_nil (by decide) _)
  have hend : atEnd (p.flatMap Key.render) = false := by
    cases p with
    | nil => exact absurd rfl hp
    | cons key p => rw [Path.render_cons]; rfl
  rw [read, Path.toText, String.toList_ofList]
  unfold ofChars
  rw [htrim]
  simp only [Path.canonical, hend, Bool.false_eq_true, if_false]
  exact readFrom_render _ p _ 1 hlen

end Segment

/-- The name of the key that a segment has been read from. -/
def Segment.keyName : Segment → String
  | .wildcard => "*"
  | .name text => text
  | _ => ""

namespace Key

theorem keyName_segment (key : Key) : key.segment.keyName = key.toName := by
  unfold segment
  split
  · next h => rw [h]; rfl
  · rfl

theorem segment_ne_root (key : Key) : key.segment ≠ .root := by
  unfold segment
  split <;> simp

theorem render_name (key : Key) : (name key.toName).render = key.render := by
  rw [render_eq, render_eq, body, body, toName_name]

end Key

theorem Path.toText_ne_root {p : Path} (hp : p ≠ []) : p.toText ≠ Path.toText [] := by
  intro h
  have hread := Segment.read_toText hp
  rw [h, Segment.read_root] at hread
  cases p with
  | nil => exact hp rfl
  | cons key p => exact key.segment_ne_root (List.cons.inj (Except.ok.inj hread)).1.symm

/-- **Canonical paths are equal exactly if the names of their keys are.** -/
theorem Path.toText_eq_iff {p q : Path} :
    p.toText = q.toText ↔ p.map Key.toName = q.map Key.toName := by
  constructor
  · intro h
    by_cases hp : p = []
    · by_cases hq : q = []
      · rw [hp, hq]
      · rw [hp] at h
        exact absurd h.symm (toText_ne_root hq)
    · by_cases hq : q = []
      · rw [hq] at h
        exact absurd h (toText_ne_root hp)
      · have hread := Segment.read_toText hp
        rw [h, Segment.read_toText hq] at hread
        have hnames := congrArg (List.map Segment.keyName) (Except.ok.inj hread)
        simp only [List.map_map, Function.comp_def, Key.keyName_segment] at hnames
        exact hnames.symm
  · intro h
    have hrender : ∀ r : Path,
        r.flatMap Key.render = (r.map Key.toName).flatMap fun n => (Key.name n).render := by
      intro r
      simp only [List.flatMap_map, Key.render_name]
    rw [toText, toText, canonical, canonical, hrender p, hrender q, h]

end LiveJson

import LiveJson.Proofs.Expr.Lexemes
import LiveJson.Proofs.Path.Scan

/-! # Expressions between brackets

A path of filters and computed keys, separated by commas between one pair of brackets, is read back
clause by clause: the scan for the closing bracket, the scan for commas and the reader of expressions
all find the end of each expression at the same place. -/

namespace LiveJson

namespace Computed

/-- What stands before the expression; a closing parenthesis stands behind it. -/
def opening : Computed → List Char
  | filter => ['?', '(']
  | key => ['(']

def segment : Computed → Expr → String → Span → Segment
  | filter => .filter
  | key => .computed

end Computed

/-- An expression between brackets, and what it is for. -/
structure Clause where
  form : Computed
  text : String

namespace Clause

open Segment (Balanced Whole before splitTop readItem readItems readBracketed)

variable {c : Clause} {e : Expr} {clauses : List Clause} {offset : Nat}

def written (c : Clause) : List Char := c.form.opening ++ (c.text.toList ++ [')'])

/-- The clauses, separated by commas. -/
def joined (clauses : List Clause) : List Char := [','].intercalate (clauses.map written)

/-- The path of one bracketed segment with the clauses. -/
def path (clauses : List Clause) : String :=
  String.ofList ('$' :: '[' :: (joined clauses ++ [']']))

/-- The clauses, with a comma behind each. -/
def followed (clauses : List Clause) : List Char := clauses.flatMap fun c => c.written ++ [',']

/-- What stands in a path before a clause that comes behind the given ones. -/
def front (earlier : List Clause) : List Char := '$' :: '[' :: followed earlier

/-- The text of the clause has no NUL in it and is an expression, wherever it stands. -/
def Valid (c : Clause) : Prop :=
  '\x00' ∉ c.text.toList ∧ ∃ offset e, Expr.parse c.text.toList offset = .ok e

theorem Valid.balanced (h : c.Valid) : Balanced c.text.toList := by
  obtain ⟨hzero, offset, e, he⟩ := h
  exact Expr.balanced_of_parse hzero he

theorem Valid.parse (h : c.Valid) (offset : Nat) :
    ∃ e, Expr.parse c.text.toList offset = .ok e := by
  obtain ⟨-, offset', e, he⟩ := h
  obtain ⟨e', he', -⟩ := Expr.parse_elsewhere he offset
  exact ⟨e', he'⟩

/-! ## Where clauses end -/

/-- The only commas in a clause are inside its parentheses. -/
theorem Valid.whole (h : c.Valid) : Whole c.written := by
  have hgroup : Whole ('(' :: (c.text.toList ++ [')'])) := .bracketed rfl h.balanced .nil
  unfold written
  cases c.form with
  | filter => exact .plain (by decide) (by decide) hgroup
  | key => exact hgroup

@[simp] theorem joined_singleton (c : Clause) : joined [c] = c.written := by
  simp [joined]

@[simp] theorem joined_cons_cons (c d : Clause) (clauses : List Clause) :
    joined (c :: d :: clauses) = c.written ++ ',' :: joined (d :: clauses) := by
  simp [joined, List.intercalate_cons_cons]

theorem balanced_joined (h : ∀ c ∈ clauses, c.Valid) : Balanced (joined clauses) := by
  induction clauses with
  | nil => exact .nil
  | cons c clauses ih =>
    rw [List.forall_mem_cons] at h
    cases clauses with
    | nil =>
      rw [joined_singleton]
      exact h.1.whole.balanced
    | cons d clauses =>
      rw [joined_cons_cons]
      exact h.1.whole.balanced.append (.plain (by decide) (ih h.2))

theorem splitTop_joined (c : Clause) (clauses : List Clause) (h : ∀ d ∈ c :: clauses, d.Valid) :
    splitTop none false 0 (joined (c :: clauses)) = (c.written, clauses.map written) := by
  induction clauses generalizing c with
  | nil =>
    rw [joined_singleton]
    exact (h c List.mem_cons_self).whole.splitTop
  | cons d clauses ih =>
    rw [List.forall_mem_cons] at h
    rw [joined_cons_cons, h.1.whole.splitTop_append, Segment.splitTop_comma, ih d h.2]
    simp [before]

/-! ## What clauses are read as -/

/-- The segment is what is made of the clause, which stands at byte `offset`. -/
def ReadAs (offset : Nat) (c : Clause) (segment : Segment) : Prop :=
  ∃ e, Expr.parse c.text.toList (offset + Text.byteLength c.form.opening) = .ok e ∧
    segment = c.form.segment e c.text ⟨offset, offset + Text.byteLength c.written⟩

theorem trim_written (c : Clause) : Text.trim c.written = c.written := by
  unfold written
  cases c.form with
  | filter => exact Text.trim_eq_self (by decide) (by decide) ('(' :: c.text.toList)
  | key => exact Text.trim_eq_self (by decide) (by decide) c.text.toList

theorem stripSuffix?_concat (cs : List Char) : Segment.stripSuffix? ')' (cs ++ [')']) = some cs := by
  simp [Segment.stripSuffix?]

theorem readItem_written
    (h : Expr.parse c.text.toList (offset + Text.byteLength c.form.opening) = .ok e) :
    readItem offset c.written =
      .ok (c.form.segment e c.text ⟨offset, offset + Text.byteLength c.written⟩) := by
  have htrim := c.trim_written
  have hblank : offset + Text.byteLength (c.written.takeWhile Text.isBlank) = offset := by
    unfold written
    cases c.form <;> rfl
  unfold readItem
  dsimp only
  rw [htrim, hblank]
  unfold written
  revert h
  cases c.form with
  | filter =>
    intro h
    change Expr.parse _ (offset + 2) = _ at h
    simp only [Computed.opening, List.cons_append, List.nil_append, stripSuffix?_concat, h,
      String.ofList_toList]
    rfl
  | key =>
    intro h
    change Expr.parse _ (offset + 1) = _ at h
    simp only [Computed.opening, List.cons_append, List.nil_append, stripSuffix?_concat, h,
      String.ofList_toList]
    rfl

theorem Valid.readItem (h : c.Valid) (offset : Nat) :
    ∃ segment, readItem offset c.written = .ok segment ∧ c.ReadAs offset segment := by
  obtain ⟨e, he⟩ := h.parse (offset + Text.byteLength c.form.opening)
  exact ⟨_, readItem_written he, e, he, rfl⟩

/-- Each clause is read at the byte where it stands, behind the clauses before it and their
commas. -/
theorem readItems_written (h : ∀ c ∈ clauses, c.Valid) (offset : Nat) :
    ∃ segments, segments.length = clauses.length ∧
      readItems offset (clauses.map written) = .ok segments ∧
      ∀ earlier c later, clauses = earlier ++ c :: later →
        ∃ segment, segments[earlier.length]? = some segment ∧
          c.ReadAs (offset + Text.byteLength (followed earlier)) segment := by
  induction clauses generalizing offset with
  | nil =>
    refine ⟨[], rfl, rfl, fun earlier c later heq => ?_⟩
    exact absurd heq (by simp)
  | cons c clauses ih =>
    rw [List.forall_mem_cons] at h
    obtain ⟨segment, hsegment, hread⟩ := h.1.readItem offset
    obtain ⟨segments, hlength, hsegments, hall⟩ := ih h.2 (offset + Text.byteLength c.written + 1)
    refine ⟨segment :: segments, by simp [hlength], ?_, fun earlier d later heq => ?_⟩
    · rw [List.map_cons, readItems, hsegment, hsegments]
      rfl
    · cases earlier with
      | nil =>
        cases heq
        exact ⟨segment, rfl, hread⟩
      | cons c' earlier =>
        cases heq
        obtain ⟨segment, hget, hread⟩ := hall earlier d later rfl
        refine ⟨segment, hget, ?_⟩
        have hoffset : offset + Text.byteLength (followed (c :: earlier)) =
            offset + Text.byteLength c.written + 1 + Text.byteLength (followed earlier) := by
          have hcomma : Text.byteLength [','] = 1 := rfl
          simp only [followed, List.flatMap_cons, Text.byteLength_append, hcomma]
          omega
        rw [hoffset]
        exact hread

/-- One alternative stands for itself. -/
def combined : List Segment → Segment
  | [segment] => segment
  | segments => .union segments

theorem readBracketed_joined (hne : clauses ≠ []) (h : ∀ c ∈ clauses, c.Valid)
    {segments : List Segment} (hread : readItems offset (clauses.map written) = .ok segments) :
    readBracketed offset (joined clauses) = .ok (combined segments) := by
  cases clauses with
  | nil => exact absurd rfl hne
  | cons c clauses =>
    rw [List.map_cons, readItems] at hread
    obtain ⟨first, hfirst, hread⟩ := bind_eq_ok.mp hread
    obtain ⟨others, hothers, hread⟩ := bind_eq_ok.mp hread
    cases hread
    rw [readBracketed, splitTop_joined c clauses h]
    cases clauses with
    | nil =>
      cases hothers
      exact hfirst
    | cons d clauses =>
      rw [List.map_cons, readItems] at hothers
      obtain ⟨second, hsecond, hothers⟩ := bind_eq_ok.mp hothers
      obtain ⟨others, hrest, hothers⟩ := bind_eq_ok.mp hothers
      cases hothers
      simp only [List.map_cons, readItems, hfirst, hsecond, hrest, bind, Except.bind, pure,
        Except.pure, Except.map, combined]

theorem read_joined (hne : clauses ≠ []) (h : ∀ c ∈ clauses, c.Valid) {segments : List Segment}
    (hread : readItems 2 (clauses.map written) = .ok segments) :
    Segment.read (path clauses) = .ok [combined segments] := by
  have hchars : (path clauses).toList = '$' :: '[' :: (joined clauses ++ [']']) :=
    String.toList_ofList
  have htrim : (Text.trim (path clauses).toList).isEmpty = false := by
    rw [hchars]
    exact List.isEmpty_eq_false_iff.mpr (Text.trim_ne_nil (by decide) _)
  have hend : Segment.atEnd ('[' :: (joined clauses ++ [']'])) = false := rfl
  have hnil : Segment.atEnd [] = true := rfl
  have hbracketed := readBracketed_joined hne h hread
  rw [Segment.read]
  unfold Segment.ofChars
  rw [htrim, hchars]
  simp only [hend, Bool.false_eq_true, if_false, List.length_cons]
  rw [Segment.readFrom]
  simp only [hend, (balanced_joined h).enclosed_eq, hbracketed, Segment.readFrom, hnil, bind,
    Except.bind, pure, Except.pure, Bool.false_eq_true, if_false, if_true]

theorem joined_append (earlier : List Clause) (c : Clause) (later : List Clause) :
    ∃ more, joined (earlier ++ c :: later) = followed earlier ++ (c.written ++ more) := by
  induction earlier with
  | nil =>
    cases later with
    | nil => exact ⟨[], by simp [followed]⟩
    | cons d later => exact ⟨_, joined_cons_cons c d later⟩
  | cons d earlier ih =>
    obtain ⟨more, hmore⟩ := ih
    refine ⟨more, ?_⟩
    have hnext : joined (d :: (earlier ++ c :: later)) =
        d.written ++ ',' :: joined (earlier ++ c :: later) := by
      cases earlier <;> exact joined_cons_cons ..
    rw [List.cons_append, hnext, hmore]
    simp [followed]

theorem toList_path (earlier : List Clause) (c : Clause) (later : List Clause) :
    ∃ rest, (path (earlier ++ c :: later)).toList =
      front earlier ++ c.form.opening ++ c.text.toList ++ rest := by
  obtain ⟨more, hmore⟩ := joined_append earlier c later
  refine ⟨')' :: (more ++ [']']), ?_⟩
  rw [path, String.toList_ofList, hmore]
  simp [front, written]

/-- **Any number of expressions, as filters or as computed keys between one pair of brackets, are
read back as one segment: the only alternative, or the union of all. Each alternative has the text of
its expression for its source, and what the text is read as at the byte where it stands in the
path.** -/
theorem read_path (hne : clauses ≠ []) (h : ∀ c ∈ clauses, c.Valid) :
    ∃ segments, segments.length = clauses.length ∧
      Segment.read (path clauses) = .ok [combined segments] ∧
      ∀ earlier c later, clauses = earlier ++ c :: later → ∃ rest e,
        (path clauses).toList = front earlier ++ c.form.opening ++ c.text.toList ++ rest ∧
        Expr.parse c.text.toList (Text.byteLength (front earlier ++ c.form.opening)) = .ok e ∧
        segments[earlier.length]? = some (c.form.segment e c.text
          ⟨Text.byteLength (front earlier), Text.byteLength (front earlier ++ c.written)⟩) := by
  obtain ⟨segments, hlength, hsegments, hall⟩ := readItems_written h 2
  refine ⟨segments, hlength, read_joined hne h hsegments, fun earlier c later heq => ?_⟩
  obtain ⟨segment, hget, e, he, rfl⟩ := hall earlier c later heq
  obtain ⟨rest, hrest⟩ := toList_path earlier c later
  have hfront : Text.byteLength (front earlier) = 2 + Text.byteLength (followed earlier) := by
    have hdollar : '$'.utf8Size = 1 := rfl
    have hbracket : '['.utf8Size = 1 := rfl
    rw [front, Text.byteLength_cons, Text.byteLength_cons, hdollar, hbracket]
    omega
  rw [Text.byteLength_append, Text.byteLength_append, hfront]
  exact ⟨rest, e, heq ▸ hrest, he, hget⟩

/-- A string with brackets, a comma and both quotes in it, and an index with a string of its own. -/
def delimiting : List Clause :=
  [⟨.filter, "@.a == '],(\\'\"'"⟩, ⟨.key, "@['b,)']"⟩]

theorem read_delimiting : ∃ condition key,
    Segment.read "$[?(@.a == '],(\\'\"'),(@['b,)'])]" = .ok [.union
      [.filter condition "@.a == '],(\\'\"'" ⟨2, 20⟩, .computed key "@['b,)']" ⟨21, 31⟩]] ∧
    Expr.parse "@.a == '],(\\'\"'".toList 4 = .ok condition ∧
    Expr.parse "@['b,)']".toList 22 = .ok key := by
  have hvalid : ∀ c ∈ delimiting, c.Valid := by
    refine List.forall_mem_cons.mpr ⟨⟨by decide, 0, _, rfl⟩, ?_⟩
    exact List.forall_mem_singleton.mpr ⟨by decide, 0, _, rfl⟩
  obtain ⟨segments, hlength, hread, hall⟩ := read_path (List.cons_ne_nil _ _) hvalid
  obtain ⟨-, condition, -, hcondition, hfirst⟩ := hall [] _ _ rfl
  obtain ⟨-, key, -, hkey, hsecond⟩ := hall [delimiting[0]] _ [] rfl
  refine ⟨condition, key, ?_, hcondition, hkey⟩
  obtain ⟨s, t, rfl⟩ := List.length_eq_two.mp hlength
  cases hfirst
  cases hsecond
  exact hread

end Clause

end LiveJson

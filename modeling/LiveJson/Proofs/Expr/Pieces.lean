import LiveJson.Proofs.Expr.Spoken
import LiveJson.Proofs.Path.Read

/-! # Scanning text piece by piece

A scan that goes on behind a piece of text has the tokens of the piece and then those of the rest.
What stands behind an operand in the text of an expression is no part of a name or a number, so a
name ends there. A number may not: in front of a dot it takes the dot as its own. -/

namespace LiveJson.Expr

open Token (scan)

variable {cs ds text rest rest' : List Char} {ks js : List Token.Kind} {kind : Token.Kind}
  {c : Char}
  {e : Expr} {fuel fuel' pos pos' n m : Nat} {p q : Prop}

/-! ## Tokens without fuel -/

/-- The kinds of the tokens of a text, directly after a dot or elsewhere. -/
def kindsFrom (afterDot : Bool) (cs : List Char) : List Token.Kind :=
  kinds (scan (cs.length + 1) afterDot 0 cs)

/-- The scan goes on behind a token of the kind. -/
def goesOn : Token.Kind → Bool
  | .finish | .fault _ => false
  | _ => true

theorem Lexeme.Cuts.length_rest {l : Lexeme} (h : l.Cuts cs) (hkind : goesOn l.kind = true) :
    l.rest.length < cs.length := by
  cases h with
  | fault hf => rw [hf] at hkind; cases hkind
  | finish hf => rw [hf] at hkind; cases hkind
  | token hpiece hne =>
    have := List.length_pos_iff.mpr hne
    rw [hpiece, List.length_append]
    omega

/-- With enough fuel the kinds do not depend on it, nor on where the text stands. -/
theorem kinds_scan_of_length (afterDot : Bool) (h : cs.length < fuel) (h' : cs.length < fuel') :
    kinds (scan fuel afterDot pos cs) = kinds (scan fuel' afterDot pos' cs) := by
  induction fuel generalizing fuel' afterDot pos pos' cs with
  | zero => exact absurd h (Nat.not_lt_zero _)
  | succ fuel ih =>
    obtain ⟨fuel', rfl⟩ : ∃ m, fuel' = m + 1 := ⟨fuel' - 1, by omega⟩
    have cut : ∀ front,
        (if afterDot = true then Lexeme.member front else Lexeme.first front).Cuts front := by
      cases afterDot with
      | true => exact Lexeme.cuts_member
      | false => exact Lexeme.cuts_first
    have hfront : (if afterDot = true then cs else cs.dropWhile isSpace).length ≤ cs.length := by
      cases afterDot with
      | true => exact Nat.le_refl _
      | false => exact (List.dropWhile_suffix _).length_le
    rw [scan, scan]
    generalize (if afterDot = true then cs else cs.dropWhile isSpace) = front at hfront
    have hcut := cut front
    generalize (if afterDot = true then Lexeme.member front else Lexeme.first front) = l at hcut ⊢
    have hrest := hcut.length_rest
    cases hkind : l.kind with
    | finish | fault => simp only [kinds, List.map_cons, List.map_nil, Lexeme.token]
    | _ =>
      rw [hkind] at hrest
      have hlt := hrest rfl
      exact congrArg (List.cons _) (ih _ (Nat.lt_of_lt_of_le hlt (by omega))
        (Nat.lt_of_lt_of_le hlt (by omega)))

theorem kinds_tokenize (text : List Char) (offset : Nat) :
    kinds (tokenize text offset) = kindsFrom false text :=
  kinds_scan_of_length _ (Nat.lt_succ_self _) (Nat.lt_succ_self _)

theorem kindsFrom_eq (afterDot : Bool) (cs : List Char) :
    let l := if afterDot then Lexeme.member cs else Lexeme.first (cs.dropWhile isSpace)
    kindsFrom afterDot cs =
      if goesOn l.kind then l.kind :: kindsFrom (l.kind == .dot) l.rest else [l.kind] := by
  intro l
  have hcut : ∃ front : List Char, front.length ≤ cs.length ∧ l.Cuts front := by
    cases afterDot with
    | true => exact ⟨cs, Nat.le_refl _, Lexeme.cuts_member cs⟩
    | false => exact ⟨_, (List.dropWhile_suffix _).length_le, Lexeme.cuts_first _⟩
  have hlexeme : (if afterDot = true then
        Lexeme.member (if afterDot = true then cs else cs.dropWhile isSpace)
      else Lexeme.first (if afterDot = true then cs else cs.dropWhile isSpace)) = l := by
    cases afterDot <;> rfl
  clear_value l
  obtain ⟨front, hfront, hcut⟩ := hcut
  have hrest := hcut.length_rest
  rw [kindsFrom, scan, hlexeme]
  cases hkind : l.kind with
  | finish | fault => simp only [kinds, List.map_cons, List.map_nil, Lexeme.token, hkind]; rfl
  | _ =>
    rw [hkind] at hrest
    have hlt := hrest rfl
    exact congr (congrArg List.cons hkind) (kinds_scan_of_length _ (by omega) (Nat.lt_succ_self _))

theorem kindsFrom_space (cs : List Char) : kindsFrom false (' ' :: cs) = kindsFrom false cs :=
  (kindsFrom_eq false (' ' :: cs)).trans (kindsFrom_eq false cs).symm

/-- What stands in front of a text that begins with no space. -/
theorem kindsFrom_cons {l : Lexeme} (hspace : isSpace c = false) (hl : Lexeme.first (c :: cs) = l) :
    kindsFrom false (c :: cs) =
      if goesOn l.kind then l.kind :: kindsFrom (l.kind == .dot) l.rest else [l.kind] := by
  have hdrop : (c :: cs).dropWhile isSpace = c :: cs :=
    List.dropWhile_cons_of_neg (by rw [hspace]; exact Bool.false_ne_true)
  have heq := kindsFrom_eq false (c :: cs)
  rw [hdrop] at heq
  rw [← hl]
  exact heq

/-! ## Scanning a piece of text -/

/-- The scan of `cs` finds tokens of the kinds `ks` and goes on with `rest`. -/
def Lexes (cs : List Char) (ks : List Token.Kind) (rest : List Char) : Prop :=
  kindsFrom false cs = ks ++ kindsFrom false rest

theorem Lexes.append (h : Lexes cs ks rest) (h' : Lexes rest js rest') :
    Lexes cs (ks ++ js) rest' := by
  rw [Lexes, h, h', List.append_assoc]

/-- The numbers and the dots that a text has as tokens. -/
def isMark : Token.Kind → Bool
  | .number _ | .dot => true
  | _ => false

def marks (ks : List Token.Kind) : Nat := ks.countP isMark

theorem marks_append (ks js : List Token.Kind) : marks (ks ++ js) = marks ks + marks js :=
  List.countP_append

/-- The scan of `cs` comes to a fault, or it goes on with `rest` and has found fewer than `n`
numbers and dots. -/
def Slips (cs : List Char) (n : Nat) (rest : List Char) : Prop :=
  (∃ ks fault, kindsFrom false cs = ks ++ [.fault fault]) ∨ ∃ ks, marks ks < n ∧ Lexes cs ks rest

theorem Lexes.slips (h : Lexes cs ks rest) (h' : Slips rest n rest') :
    Slips cs (marks ks + n) rest' := by
  obtain ⟨js, fault, hfault⟩ | ⟨js, hmarks, hjs⟩ := h'
  · exact .inl ⟨ks ++ js, fault, by rw [h, hfault, List.append_assoc]⟩
  · exact .inr ⟨ks ++ js, by rw [marks_append]; omega, h.append hjs⟩

theorem Slips.lexes (h : Slips cs n rest) (h' : Lexes rest ks rest') :
    Slips cs (n + marks ks) rest' := by
  obtain ⟨js, fault, hfault⟩ | ⟨js, hmarks, hjs⟩ := h
  · exact .inl ⟨js, fault, hfault⟩
  · exact .inr ⟨js ++ ks, by rw [marks_append]; omega, hjs.append h'⟩

theorem Slips.append (h : Slips cs n rest) (h' : Slips rest m rest') : Slips cs (n + m) rest' := by
  obtain ⟨js, fault, hfault⟩ | ⟨js, hmarks, hjs⟩ := h
  · exact .inl ⟨js, fault, hfault⟩
  · obtain ⟨ks, fault, hfault⟩ | ⟨ks, hmarks', hks⟩ := h'
    · exact .inl ⟨js ++ ks, fault, by rw [hjs, hfault, List.append_assoc]⟩
    · exact .inr ⟨js ++ ks, by rw [marks_append]; omega, hjs.append hks⟩

/-- Whether the scan finds the tokens or slips. -/
structure Scans (p : Prop) (cs : List Char) (ks : List Token.Kind) (rest : List Char) : Prop where
  lexes : p → Lexes cs ks rest
  slips : ¬p → Slips cs (marks ks) rest

theorem Lexes.scans (h : Lexes cs ks rest) : Scans True cs ks rest :=
  ⟨fun _ => h, fun h => absurd trivial h⟩

theorem Scans.slips_behind (h : Scans p cs ks rest) (h' : Slips rest n rest') :
    Slips cs (marks ks + n) rest' := by
  by_cases hp : p
  · exact (h.lexes hp).slips h'
  · exact (h.slips hp).append h'

theorem Scans.append (h : Scans p cs ks rest) (h' : Scans q rest js rest') :
    Scans (p ∧ q) cs (ks ++ js) rest' := by
  refine ⟨fun hpq => (h.lexes hpq.1).append (h'.lexes hpq.2), fun hpq => ?_⟩
  rw [marks_append]
  by_cases hq : q
  · exact (h.slips fun hp => hpq ⟨hp, hq⟩).lexes (h'.lexes hq)
  · exact h.slips_behind (h'.slips hq)

theorem Scans.before (h : Lexes cs ks rest) (h' : Scans p rest js rest') :
    Scans p cs (ks ++ js) rest' :=
  ⟨fun hp => h.append (h'.lexes hp), fun hp => marks_append ks js ▸ h.slips (h'.slips hp)⟩

theorem Scans.behind (h : Scans p cs ks rest) (h' : Lexes rest js rest') :
    Scans p cs (ks ++ js) rest' :=
  ⟨fun hp => (h.lexes hp).append h', fun hp => marks_append ks js ▸ (h.slips hp).lexes h'⟩

theorem Scans.congr (h : Scans p cs ks rest) (hpq : q ↔ p) : Scans q cs ks rest := propext hpq ▸ h

/-! ## Names, operators and brackets -/

theorem lexes_of_first {l : Lexeme} (hspace : isSpace c = false) (hl : Lexeme.first (c :: cs) = l)
    (hkind : goesOn l.kind = true) (hdot : l.kind ≠ .dot) : Lexes (c :: cs) [l.kind] l.rest := by
  have hmode : (l.kind == .dot) = false := beq_false_of_ne hdot
  rw [Lexes, kindsFrom_cons hspace hl, if_pos hkind, hmode]
  rfl

/-- What can stand behind an operand. -/
def Ends (rest : List Char) : Prop := ∀ c ∈ rest.head?, c ∈ [' ', '.', '[', ']', ')']

theorem Ends.separates (h : Ends rest) :
    ∀ c ∈ rest.head?, isNameChar c = false ∧ Decimal.isDigit c = false ∧ c ≠ 'e' ∧ c ≠ 'E' := by
  intro c hc
  have hall : [' ', '.', '[', ']', ')'].all
      (fun c => !isNameChar c && !Decimal.isDigit c && c != 'e' && c != 'E') = true := by decide
  simpa [and_assoc] using List.all_eq_true.mp hall c (h c hc)

/-- A run of a class of characters ends where something else follows. -/
theorem takeWhile_append_stop {p : Char → Bool} (h : ∀ c ∈ cs, p c = true)
    (hrest : ∀ c ∈ rest.head?, p c = false) :
    (cs ++ rest).takeWhile p = cs ∧ (cs ++ rest).dropWhile p = rest := by
  rw [List.takeWhile_append_of_pos h, List.dropWhile_append_of_pos h]
  cases rest with
  | nil => exact ⟨List.append_nil cs, rfl⟩
  | cons c rest =>
    have hc : ¬p c = true := by rw [hrest c rfl]; exact Bool.false_ne_true
    rw [List.takeWhile_cons_of_neg hc, List.dropWhile_cons_of_neg hc, List.append_nil]
    exact ⟨rfl, rfl⟩

/-- The lexeme of a character that no operator, bracket or quote begins with. -/
theorem first_other (hc : isNameChar c = true ∨ Decimal.isDigit c = true) (cs : List Char) :
    Lexeme.first (c :: cs) =
      if Decimal.isDigit c then Lexeme.number (c :: cs)
      else if isNameStart c then Lexeme.word (c :: cs)
      else Lexeme.ofFault (.unexpected c) [c] cs := by
  unfold Lexeme.first
  split
  case h_29 heq =>
    cases heq
    rw [if_neg]
    rintro rfl
    exact absurd hc (by decide)
  case h_1 heq => cases heq
  all_goals
    next heq =>
      cases heq
      exact absurd hc (by decide)

theorem isSpace_of_name (hc : isNameChar c = true ∨ Decimal.isDigit c = true) :
    isSpace c = false := by
  refine Bool.eq_false_iff.mpr fun hspace => ?_
  simp only [isSpace, Bool.or_eq_true, beq_iff_eq] at hspace
  rcases hspace with ((rfl | rfl) | rfl) | rfl <;> exact absurd hc (by decide)

/-- A word or a name, up to where it ends. -/
theorem word_append {kind : Token.Kind} (hchars : ∀ c ∈ cs, isNameChar c = true) (hends : Ends rest)
    (hkind : (Lexeme.word cs).kind = kind) :
    (Lexeme.word (cs ++ rest)).kind = kind ∧ (Lexeme.word (cs ++ rest)).rest = rest := by
  obtain ⟨htake, hdrop⟩ := takeWhile_append_stop hchars fun c hc => (hends.separates c hc).1
  have hwhole := List.takeWhile_eq_self_iff.mpr hchars
  rw [← hkind]
  simp only [Lexeme.word, htake, hdrop, hwhole, and_self]

theorem not_isNameStart_of_isDigit (h : Decimal.isDigit c = true) : isNameStart c = false := by
  have hdigits : ∀ n < 58, 48 ≤ n → isNameStart (Char.ofNat n) = false := by decide
  rw [Key.isDigit_eq, Char.isDigit_iff_toNat] at h
  rw [← Char.ofNat_toNat c]
  exact hdigits _ (Nat.lt_succ_of_le h.2) h.1

theorem first_word (hc : isNameStart c = true) (cs : List Char) :
    Lexeme.first (c :: cs) = Lexeme.word (c :: cs) := by
  have hdigit : ¬Decimal.isDigit c = true := fun hdigit => by
    rw [not_isNameStart_of_isDigit hdigit] at hc
    cases hc
  rw [first_other (.inl (Lexeme.isNameChar_of_isNameStart hc)), if_neg hdigit, if_pos hc]

theorem first_number (hc : Decimal.isDigit c = true) (cs : List Char) :
    Lexeme.first (c :: cs) = Lexeme.number (c :: cs) := by
  rw [first_other (.inr hc), if_pos hc]

theorem lexes_word (hstarts : ∃ c ds, cs = c :: ds ∧ isNameStart c = true)
    (hchars : ∀ c ∈ cs, isNameChar c = true) (hends : Ends rest)
    (hkind : (Lexeme.word cs).kind = kind) (hgoes : goesOn kind = true) (hdot : kind ≠ .dot) :
    Lexes (cs ++ rest) [kind] rest := by
  obtain ⟨c, ds, rfl, hc⟩ := hstarts
  obtain ⟨rfl, hrest⟩ := word_append hchars hends hkind
  have hlexes := lexes_of_first (isSpace_of_name (.inl (hchars c List.mem_cons_self)))
    (first_word hc (ds ++ rest)) hgoes hdot
  rw [← List.cons_append, hrest] at hlexes
  exact hlexes

/-- A name that is no word for a value. -/
theorem IsWord.lexes (h : IsWord cs) (hends : Ends rest) :
    Lexes (cs ++ rest) [.name (String.ofList cs)] rest := by
  have hwhole := List.takeWhile_eq_self_iff.mpr h.chars
  have hfree := h.free
  simp only [valueWords, List.mem_cons, List.not_mem_nil, or_false, not_or] at hfree
  obtain ⟨htrue, hfalse, hnull, hundefined⟩ := hfree
  refine lexes_word h.starts h.chars hends ?_ rfl (by simp)
  simp only [Lexeme.word, hwhole, if_neg htrue, if_neg hfalse, if_neg hnull, if_neg hundefined]

theorem lexes_member (hname : IsMember cs) (hends : Ends rest) :
    Lexes ('.' :: (cs ++ rest)) [.dot, .name (String.ofList cs)] rest := by
  obtain ⟨htake, hdrop⟩ := takeWhile_append_stop hname.2 fun c hc => (hends.separates c hc).1
  have hdot : kindsFrom false ('.' :: (cs ++ rest)) = .dot :: kindsFrom true (cs ++ rest) :=
    kindsFrom_cons rfl rfl
  have hmember : Lexeme.member (cs ++ rest) =
      { kind := .name (String.ofList cs), text := cs, rest } := by
    have hne : ¬cs.isEmpty = true := mt List.isEmpty_iff.mp hname.1
    simp only [Lexeme.member, htake, hdrop, if_neg hne]
  have heq := kindsFrom_eq true (cs ++ rest)
  rw [if_pos rfl, hmember] at heq
  rw [Lexes, hdot, heq]
  rfl

/-- An operator between two spaces. -/
theorem lexes_operator (op : Operator) (rest : List Char) :
    Lexes (' ' :: (op.text.toList ++ ' ' :: rest)) [.operator op] rest := by
  have hop : kindsFrom false (op.text.toList ++ ' ' :: rest) =
      .operator op :: kindsFrom false (' ' :: rest) := by
    rcases op with (_ | _) | (_ | _ | _ | _ | _ | _ | _ | _) | (_ | _ | _ | _ | _) <;>
      exact kindsFrom_cons rfl rfl
  rw [Lexes, kindsFrom_space, hop, kindsFrom_space]
  rfl

theorem lexes_bracket {b : Char} (hspace : isSpace b = false) (hkind : bracket? kind = some b)
    (rest : List Char) :
    Lexes (b :: rest) [kind] rest := by
  cases kind <;> cases hkind <;> exact lexes_of_first rfl rfl rfl nofun

end LiveJson.Expr

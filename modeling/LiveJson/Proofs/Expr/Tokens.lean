import LiveJson.Proofs.Expr.Lexemes
import LiveJson.Proofs.Span

/-! # Tokens stand where their spans say

A lexeme takes the front of a text apart without loss, and its token is written with the text that
the span covers; a string has its quotes directly around that. So every token stands in the text, and
each one ends before the next begins. -/

namespace LiveJson.Expr

open Text (byteLength)

/-- How a token is written, a string without its quotes. A fault has no text of its own. -/
def Token.Kind.spelling? : Token.Kind → Option (List Char)
  | .finish => some []
  | .fault _ => none
  | .subject which => some which.text.toList
  | .name text | .number text | .string _ text => some text.toList
  | .undefined => some "undefined".toList
  | .null => some "null".toList
  | .true => some "true".toList
  | .false => some "false".toList
  | .dot => some ['.']
  | .openBracket => some ['[']
  | .closeBracket => some [']']
  | .openParen => some ['(']
  | .closeParen => some [')']
  | .not => some ['!']
  | .operator op => some op.text.toList

/-- What stands on both sides of a token and belongs to it. -/
def Token.Kind.quotes : Token.Kind → List Char
  | .string quote _ => [quote.char]
  | _ => []

/-- Every backslash of the text has an escape behind it. -/
inductive Vetted (quote : Char) : List Char → Prop
  | nil : Vetted quote []
  | escaped {e : Char} {cs : List Char} (he : isEscape e = true ∨ e = quote) (h : Vetted quote cs) :
    Vetted quote ('\\' :: e :: cs)
  | plain {c : Char} {cs : List Char} (hc : c ≠ '\\') (h : Vetted quote cs) : Vetted quote (c :: cs)

/-- The token is written in the text where its span says, between its quotes if it has some. -/
def Token.Stands (token : Token) (offset : Nat) (text : List Char) : Prop :=
  ∃ before piece after, text = before ++ piece ++ after ∧
    token.span.start = offset + byteLength before ∧
    token.span.stop = token.span.start + byteLength piece ∧
    ∀ spelling, token.kind.spelling? = some spelling →
      piece = spelling ∧ token.kind.quotes <:+ before ∧ token.kind.quotes <+: after

/-- One behind the other, from byte `first` to byte `last`. -/
def Token.Runs : Nat → List Token → Nat → Prop
  | first, [], last => first ≤ last
  | first, token :: ts, last =>
    first ≤ token.span.start ∧ token.span.start ≤ token.span.stop ∧ Runs token.span.stop ts last

variable {cs ds text rest : List Char} {kind : Token.Kind} {offset : Nat}

/-! ## Lexemes -/

namespace Lexeme

/-- The lexeme is cut off the front of the text. -/
structure Faithful (l : Lexeme) (cs : List Char) : Prop where
  whole : l.whole = cs
  spelled : ∀ spelling, l.kind.spelling? = some spelling →
    l.text = spelling ∧ l.before = l.kind.quotes ∧ l.after = l.kind.quotes
  vetted : ∀ quote text, l.kind = .string quote text → Vetted quote.char text.toList

theorem faithful_fault (fault : LexFault) (hcs : cs = text ++ rest) :
    Faithful (ofFault fault text rest) cs :=
  ⟨by simp [whole, ofFault, hcs], nofun, nofun⟩

/-- Without quotes around it a lexeme is its text. -/
theorem faithful_bare (hcs : cs = text ++ rest) (hspelling : kind.spelling? = some text)
    (hstring : ∀ quote body, kind ≠ .string quote body) : Faithful { kind, text, rest } cs := by
  refine ⟨by simp [whole, hcs], fun spelling h => ?_, fun quote body h => absurd h (hstring _ _)⟩
  have hquotes : kind.quotes = [] := by cases kind <;> first | rfl | exact absurd rfl (hstring _ _)
  exact ⟨Option.some.inj (hspelling.symm.trans h), hquotes.symm, hquotes.symm⟩

theorem faithful_subject (cs : List Char) : Faithful (subject cs) ('@' :: cs) := by
  have hname : '@' :: cs = '@' :: cs.takeWhile isNameChar ++ cs.dropWhile isNameChar := by
    rw [List.cons_append, List.takeWhile_append_dropWhile]
  have alone : Faithful { kind := .subject .current, text := ['@'], rest := cs } ('@' :: cs) :=
    faithful_bare rfl rfl nofun
  unfold subject
  split
  · exact alone
  · split
    · dsimp only
      split_ifs with h h h h
      · exact faithful_bare hname (by rw [h]; rfl) nofun
      · exact faithful_bare hname (by rw [h]; rfl) nofun
      · exact faithful_bare hname (by rw [h]; rfl) nofun
      · exact faithful_bare hname (by rw [h]; rfl) nofun
      · exact faithful_fault _ hname
    · exact alone

theorem faithful_word (cs : List Char) : Faithful (word cs) cs := by
  refine faithful_bare List.takeWhile_append_dropWhile.symm ?_ ?_
  · split_ifs with h h h h
    · exact congrArg some h.symm
    · exact congrArg some h.symm
    · exact congrArg some h.symm
    · exact congrArg some h.symm
    · exact congrArg some String.toList_ofList
  · split_ifs <;> exact nofun

theorem faithful_member (cs : List Char) : Faithful (member cs) cs := by
  unfold member
  dsimp only
  split
  · exact faithful_fault _ rfl
  · exact faithful_bare List.takeWhile_append_dropWhile.symm (congrArg some String.toList_ofList)
      nofun

theorem faithful_numeral (hcs : cs = text ++ rest) :
    Faithful { kind := .number (String.ofList text), text, rest } cs :=
  faithful_bare hcs (congrArg some String.toList_ofList) nofun

theorem faithful_exponent (hcs : cs = text ++ rest) : Faithful (exponent text rest) cs := by
  unfold exponent
  split
  · next e ds =>
    split
    · have digits : ∀ sign ds, cs = text ++ e :: (sign ++ ds) → Faithful
          (if (ds.takeWhile Decimal.isDigit).isEmpty then
            ofFault .noExponentDigit (text ++ e :: sign) ds
          else
            let text := text ++ e :: (sign ++ ds.takeWhile Decimal.isDigit)
            { kind := .number (String.ofList text), text, rest := ds.dropWhile Decimal.isDigit })
          cs := by
        intro sign ds hcs
        split
        · exact faithful_fault _ (by simpa using hcs)
        · refine faithful_numeral ?_
          rw [hcs, List.append_assoc, List.cons_append, List.append_assoc,
            List.takeWhile_append_dropWhile]
      split
      next sign rest hsign =>
      split at hsign
      · cases hsign
        exact digits ['+'] _ hcs
      · cases hsign
        exact digits ['-'] _ hcs
      · cases hsign
        exact digits [] _ hcs
    · exact faithful_numeral hcs
  · exact faithful_numeral hcs

theorem faithful_number (cs : List Char) : Faithful (number cs) cs := by
  have hcs := (List.takeWhile_append_dropWhile (p := Decimal.isDigit) (l := cs)).symm
  unfold number
  dsimp only
  split
  · next ds hds =>
    rw [hds] at hcs
    split
    · exact faithful_fault _ (by simpa using hcs)
    · refine faithful_exponent ?_
      rw [List.append_assoc, List.cons_append, List.takeWhile_append_dropWhile, ← hcs]
  · exact faithful_exponent hcs

theorem stringBody_whole {quote : Char} {how : StringEnd} (h : stringBody quote cs = (text, how, rest)) :
    (how = .closed → cs = text ++ quote :: rest ∧ Vetted quote text) ∧
    (how ≠ .closed → cs = text ++ rest) := by
  fun_induction stringBody quote cs generalizing text with
  | case1 | case2 | case4 | case5 =>
    cases h
    exact ⟨fun hhow => (by cases hhow), fun _ => rfl⟩
  | case3 e cs he text' how' rest' hbody ih =>
    cases h
    obtain ⟨hclosed, hopen⟩ := ih hbody
    refine ⟨fun hhow => ?_, fun hhow => by rw [hopen hhow]; rfl⟩
    obtain ⟨rfl, hvetted⟩ := hclosed hhow
    exact ⟨rfl, .escaped (by simpa using he) hvetted⟩
  | case6 => cases h; exact ⟨fun _ => ⟨rfl, .nil⟩, fun hhow => absurd rfl hhow⟩
  | case7 c cs hlast hnext _ _ text' how' rest' hbody ih =>
    cases h
    obtain ⟨hclosed, hopen⟩ := ih hbody
    have hslash : c ≠ '\\' := fun hc => by
      cases cs with
      | nil => exact hlast hc rfl
      | cons d ds => exact hnext _ _ hc rfl
    refine ⟨fun hhow => ?_, fun hhow => by rw [hopen hhow]; rfl⟩
    obtain ⟨rfl, hvetted⟩ := hclosed hhow
    exact ⟨rfl, .plain hslash hvetted⟩

theorem faithful_string (quote : Quote) (cs : List Char) :
    Faithful (string quote cs) (quote.char :: cs) := by
  unfold string
  split
  · next text rest hbody =>
    obtain ⟨rfl, hvetted⟩ := (stringBody_whole hbody).1 rfl
    refine ⟨by simp [whole], fun spelling h => ?_, ?_⟩
    · refine ⟨?_, rfl, rfl⟩
      rw [← Option.some.inj h, String.toList_ofList]
    · rintro quote' text' hkind
      cases hkind
      rwa [String.toList_ofList]
  · next text rest hbody =>
    obtain rfl := (stringBody_whole hbody).2 nofun
    exact ⟨by simp [whole], nofun, nofun⟩
  · next text rest hbody =>
    obtain rfl := (stringBody_whole hbody).2 nofun
    exact ⟨by simp [whole], nofun, nofun⟩

theorem faithful_first (cs : List Char) : Faithful (first cs) cs := by
  unfold first
  split
  case h_2 => exact faithful_subject _
  case h_8 => exact faithful_string .single _
  case h_9 => exact faithful_string .double _
  case h_15 | h_21 | h_23 => exact faithful_fault _ rfl
  case h_29 =>
    split_ifs
    · exact faithful_bare rfl rfl nofun
    · exact faithful_number _
    · exact faithful_word _
    · exact faithful_fault _ rfl
  -- what is left is always written in the same way
  all_goals exact faithful_bare rfl rfl nofun

end Lexeme

/-! ## Texts -/

namespace Token

variable {token : Token} {ts us : List Token} {first last fuel pos : Nat} {afterDot : Bool}

/-- A scan skips some text and cuts off a lexeme. It goes on behind that or ends there. -/
theorem scan_succ_at (fuel : Nat) (afterDot : Bool) (pos : Nat) (cs : List Char) :
    ∃ (space front : List Char) (l : Lexeme), cs = space ++ front ∧ l.Faithful front ∧
      (scan (fuel + 1) afterDot pos cs = [l.token (pos + byteLength space)] ∨
        scan (fuel + 1) afterDot pos cs = l.token (pos + byteLength space) ::
          scan fuel (l.kind == .dot) (pos + byteLength space + l.width) l.rest) := by
  have cut : ∃ space front, cs = space ++ front ∧
      (if afterDot then [] else cs.takeWhile isSpace) = space ∧
      (if afterDot then cs else cs.dropWhile isSpace) = front ∧
      Lexeme.Faithful (if afterDot then .member front else .first front) front := by
    cases afterDot with
    | true => exact ⟨[], cs, rfl, rfl, rfl, Lexeme.faithful_member cs⟩
    | false =>
      exact ⟨_, _, List.takeWhile_append_dropWhile.symm, rfl, rfl, Lexeme.faithful_first _⟩
  obtain ⟨space, front, hcs, hskipped, hfront, faithful⟩ := cut
  rw [scan, hskipped, hfront]
  generalize (if afterDot = true then Lexeme.member front else Lexeme.first front) = l at faithful ⊢
  refine ⟨space, front, l, hcs, faithful, ?_⟩
  cases l.kind with
  | finish | fault => exact .inl rfl
  | _ => exact .inr rfl

/-- Every token of a scan comes of a lexeme that is cut off some rest of the text. -/
theorem exists_lexeme (h : token ∈ scan fuel afterDot pos cs) :
    ∃ (front rest : List Char) (l : Lexeme), cs = front ++ rest ∧ l.Faithful rest ∧
      token = l.token (pos + byteLength front) := by
  induction fuel generalizing afterDot pos cs with
  | zero => cases h
  | succ fuel ih =>
    obtain ⟨space, front, l, rfl, faithful, hscan | hscan⟩ := scan_succ_at fuel afterDot pos cs
    · rw [hscan, List.mem_singleton] at h
      exact ⟨space, front, l, rfl, faithful, h⟩
    · rw [hscan, List.mem_cons] at h
      rcases h with h | h
      · exact ⟨space, front, l, rfl, faithful, h⟩
      · obtain ⟨skipped, rest, l', hrest, faithful', htoken⟩ := ih h
        refine ⟨space ++ (l.before ++ l.text ++ l.after) ++ skipped, rest, l', ?_, faithful', ?_⟩
        · rw [← faithful.whole, Lexeme.whole, hrest]
          simp
        · rw [htoken, Lexeme.width, Text.byteLength_append _ skipped, Text.byteLength_append space,
            ← Nat.add_assoc, ← Nat.add_assoc]

theorem stands_of_mem_scan (h : token ∈ scan fuel afterDot pos cs) : token.Stands pos cs := by
  obtain ⟨front, rest, l, rfl, faithful, rfl⟩ := exists_lexeme h
  refine ⟨front ++ l.before, l.text, l.after ++ l.rest, ?_, ?_, rfl, fun spelling hspelling => ?_⟩
  · rw [← faithful.whole, Lexeme.whole]
    simp
  · simp only [Lexeme.token, Text.byteLength_append, Nat.add_assoc]
  · obtain ⟨htext, hbefore, hafter⟩ := faithful.spelled spelling hspelling
    exact ⟨htext, hbefore ▸ List.suffix_append _ _, hafter ▸ List.prefix_append _ _⟩

/-- The lexer has looked at every backslash of a string. -/
theorem vetted_of_mem_scan {quote : Quote} {body : String} {span : Span}
    (h : ⟨.string quote body, span⟩ ∈ scan fuel afterDot pos cs) : Vetted quote.char body.toList := by
  obtain ⟨front, rest, l, rfl, faithful, htoken⟩ := exists_lexeme h
  exact faithful.vetted quote body (congrArg Token.kind htoken).symm

theorem Stands.within (h : token.Stands offset text) : token.span.Within offset text := by
  obtain ⟨before, piece, after, htext, hstart, hstop, -⟩ := h
  exact Span.Cuts.within ⟨before, after, htext, hstart, hstop⟩

/-! ### One behind the other -/

theorem Runs.weaken (h : Runs first ts last) {first' : Nat} (hle : first' ≤ first) :
    Runs first' ts last := by
  cases ts with
  | nil => exact Nat.le_trans hle h
  | cons token ts => exact ⟨Nat.le_trans hle h.1, h.2⟩

theorem runs_append : Runs first (ts ++ us) last ↔ ∃ mid, Runs first ts mid ∧ Runs mid us last := by
  induction ts generalizing first with
  | nil =>
    refine ⟨fun h => ⟨first, Nat.le_refl _, h⟩, ?_⟩
    rintro ⟨mid, hmid, h⟩
    exact h.weaken hmid
  | cons token ts ih =>
    simp only [List.cons_append, Runs, ih]
    constructor
    · rintro ⟨hfirst, hspan, mid, h, h'⟩
      exact ⟨mid, ⟨hfirst, hspan, h⟩, h'⟩
    · rintro ⟨mid, ⟨hfirst, hspan, h⟩, h'⟩
      exact ⟨hfirst, hspan, mid, h, h'⟩

theorem Runs.le (h : Runs first ts last) : first ≤ last := by
  induction ts generalizing first with
  | nil => exact h
  | cons token ts ih => exact Nat.le_trans h.1 (Nat.le_trans h.2.1 (ih h.2.2))

theorem runs_scan : Runs pos (scan fuel afterDot pos cs) (pos + byteLength cs) := by
  induction fuel generalizing afterDot pos cs with
  | zero => exact Nat.le_add_right _ _
  | succ fuel ih =>
    obtain ⟨space, front, l, rfl, faithful, hscan⟩ := scan_succ_at fuel afterDot pos cs
    have hfront : byteLength front = byteLength l.before + byteLength l.text +
        byteLength l.after + byteLength l.rest := by
      rw [← faithful.whole, Lexeme.whole, Text.byteLength_append, Text.byteLength_append,
        Text.byteLength_append]
    have hwidth : l.width = byteLength l.before + byteLength l.text + byteLength l.after := by
      rw [Lexeme.width, Text.byteLength_append, Text.byteLength_append]
    rw [Text.byteLength_append]
    rcases hscan with hscan | hscan
    · rw [hscan]
      simp only [Runs, Lexeme.token]
      omega
    · rw [hscan]
      have hrest : Runs (pos + byteLength space + l.width)
          (scan fuel (l.kind == .dot) (pos + byteLength space + l.width) l.rest)
          (pos + byteLength space + l.width + byteLength l.rest) := ih
      have hend : pos + byteLength space + l.width + byteLength l.rest =
          pos + (byteLength space + byteLength front) := by omega
      refine ⟨?_, ?_, (hend ▸ hrest).weaken ?_⟩ <;> simp only [Lexeme.token] <;> omega

end Token

/-! ## The text of an expression -/

theorem stands_of_mem_tokenize {token : Token} (h : token ∈ tokenize text offset) :
    token.Stands offset text := Token.stands_of_mem_scan h

theorem runs_tokenize : Token.Runs offset (tokenize text offset) (offset + byteLength text) :=
  Token.runs_scan

/-- A text is refused for the fault that is its last token. -/
theorem lex_eq_error {e : PathError} (h : lex text offset = .error e) :
    ∃ token ∈ tokenize text offset, ∃ fault, token.kind = .fault fault ∧
      e.cause = .lexical fault ∧ e.span = token.span := by
  unfold lex at h
  dsimp only at h
  split at h
  · next fault span hlast =>
    cases h
    exact ⟨_, List.mem_of_getLast? hlast, fault, rfl, rfl, rfl⟩
  · cases h

end LiveJson.Expr

import LiveJson.Proofs.Expr.Parser
import LiveJson.Proofs.Path.Balanced
import Mathlib.Data.List.TakeWhile

/-! # The text of an expression is balanced

The tokens of a text without a fault are spelled by pieces of it, one behind the other. Brackets are
spelled by themselves and every other token by balanced text; so a sentence of the grammar, where
brackets stand in pairs, is balanced as a whole. Where the text stands has no part in this. -/

namespace LiveJson.Expr

open Segment (Balanced Quotable isDelimiter balanced_of_plain isDelimiter_of_class)

variable {kind : Token.Kind} {ks js : List Token.Kind} {cs ds text rest : List Char}
  {offset : Nat} {e : Expr}

def bracket? : Token.Kind → Option Char
  | .openBracket => some '['
  | .closeBracket => some ']'
  | .openParen => some '('
  | .closeParen => some ')'
  | _ => none

/-- The text, with what is skipped in front, makes a token of the kind. -/
inductive Spells : Token.Kind → List Char → Prop
  | bracket {kind : Token.Kind} {b : Char} {skipped : List Char} (hkind : bracket? kind = some b)
      (hskipped : Balanced skipped) : Spells kind (skipped ++ [b])
  | other {kind : Token.Kind} {cs : List Char} (hkind : bracket? kind = none)
      (hcs : Balanced cs) : Spells kind cs

inductive Spelled : List Token.Kind → List Char → Prop
  | nil : Spelled [] []
  | cons {kind : Token.Kind} {ks : List Token.Kind} {cs ds : List Char} (h : Spells kind cs)
      (h' : Spelled ks ds) : Spelled (kind :: ks) (cs ++ ds)

theorem Spells.behind (h : Spells kind cs) (hds : Balanced ds) : Spells kind (ds ++ cs) := by
  cases h with
  | bracket hkind hskipped =>
    rw [← List.append_assoc]
    exact .bracket hkind (hds.append hskipped)
  | other hkind hcs => exact .other hkind (hds.append hcs)

theorem Spells.balanced (h : Spells kind cs) (hkind : bracket? kind = none) : Balanced cs := by
  cases h with
  | bracket hb _ => rw [hkind] at hb; cases hb
  | other _ hcs => exact hcs

theorem Spells.eq_bracket {b : Char} (h : Spells kind cs) (hkind : bracket? kind = some b) :
    ∃ skipped, Balanced skipped ∧ cs = skipped ++ [b] := by
  cases h with
  | bracket hb hskipped => cases hkind.symm.trans hb; exact ⟨_, hskipped, rfl⟩
  | other hb _ => rw [hkind] at hb; cases hb

theorem Spelled.split (h : Spelled (ks ++ js) cs) :
    ∃ ds es, cs = ds ++ es ∧ Spelled ks ds ∧ Spelled js es := by
  induction ks generalizing cs with
  | nil => exact ⟨[], cs, rfl, .nil, h⟩
  | cons kind ks ih =>
    cases h with
    | cons h h' =>
      obtain ⟨ds, es, rfl, hds, hes⟩ := ih h'
      exact ⟨_, es, (List.append_assoc _ _ _).symm, .cons h hds, hes⟩

theorem Spelled.head (h : Spelled (kind :: ks) cs) :
    ∃ ds es, cs = ds ++ es ∧ Spells kind ds ∧ Spelled ks es := by
  cases h with
  | cons h h' => exact ⟨_, _, rfl, h, h'⟩

theorem Spelled.single (h : Spelled [kind] cs) : Spells kind cs := by
  obtain ⟨ds, es, rfl, hds, hes⟩ := h.head
  cases hes
  rwa [List.append_nil]

/-- A pair of brackets around balanced text. -/
theorem balanced_enclosed {opening closing : Token.Kind} {opener closer : Char}
    (hopening : bracket? opening = some opener) (hclosing : bracket? closing = some closer)
    (hpair : Segment.closerOf? opener = some closer) (hinner : ∀ ds, Spelled js ds → Balanced ds)
    (h : Spelled (opening :: (js ++ [closing])) cs) : Balanced cs := by
  obtain ⟨first, es, rfl, hfirst, hes⟩ := h.head
  obtain ⟨inner, last, rfl, hjs, hlast⟩ := hes.split
  obtain ⟨skipped, hskipped, rfl⟩ := hfirst.eq_bracket hopening
  obtain ⟨skipped', hskipped', rfl⟩ := hlast.single.eq_bracket hclosing
  have hbody := (hinner inner hjs).append hskipped'
  rw [List.append_assoc, List.singleton_append, ← List.append_assoc inner]
  exact hskipped.append (.bracketed hpair hbody .nil)

/-- In a sentence brackets stand in pairs. -/
theorem Derives.balanced {level : Level} (h : Derives level ks e) (hcs : Spelled ks cs) :
    Balanced cs := by
  induction h generalizing cs with
  | pass _ _ ih => exact ih hcs
  | binary _ _ _ _ ihleft ihright =>
    obtain ⟨ds, es, rfl, hds, hes⟩ := hcs.split
    obtain ⟨op, es, rfl, hop, hes⟩ := hes.head
    exact (ihleft hds).append ((hop.balanced rfl).append (ihright hes))
  | not _ ih | negate _ ih =>
    obtain ⟨sign, es, rfl, hsign, hes⟩ := hcs.head
    exact (hsign.balanced rfl).append (ih hes)
  | member _ _ ih =>
    obtain ⟨ds, es, rfl, hds, hes⟩ := hcs.split
    obtain ⟨dot, es, rfl, hdot, hes⟩ := hes.head
    exact (ih hds).append ((hdot.balanced rfl).append (hes.single.balanced rfl))
  | index _ _ ih ihkey =>
    obtain ⟨ds, es, rfl, hds, hes⟩ := hcs.split
    exact (ih hds).append (balanced_enclosed rfl rfl rfl (fun _ => ihkey) hes)
  | atom h => exact hcs.single.balanced (by cases h <;> rfl)
  | group _ ih => exact balanced_enclosed rfl rfl rfl (fun _ => ih) hcs

/-! ## Lexemes -/

namespace Lexeme

/-- The lexeme takes its token off the front of the text. -/
inductive Cuts (l : Lexeme) (cs : List Char) : Prop
  | fault {f : LexFault} (h : l.kind = .fault f)
  | finish (h : l.kind = .finish) (hcs : '\x00' ∉ cs → cs = [])
  | token {piece : List Char} (hpiece : cs = piece ++ l.rest) (hne : piece ≠ [])
      (hkind : l.kind ≠ .finish) (h : Spells l.kind piece)

def Plain (cs : List Char) : Prop := ∀ c ∈ cs, isDelimiter c = false

instance : Decidable (Plain cs) :=
  decidable_of_iff ((cs.all fun c => !isDelimiter c) = true) (by simp [Plain])

theorem Plain.append (h : Plain cs) (h' : Plain ds) : Plain (cs ++ ds) :=
  List.forall_mem_append.mpr ⟨h, h'⟩

theorem plain_takeWhile {p : Char → Bool} (h : (Segment.delimiters.all fun d => !p d) = true)
    (cs : List Char) : Plain (cs.takeWhile p) := fun _ hc => isDelimiter_of_class h (List.mem_takeWhile_imp hc)

/-- Without a quote and a bracket a token is spelled by its own text. -/
theorem cuts_plain (hcs : cs = text ++ rest) (hkind : bracket? kind = none)
    (hfinish : kind ≠ .finish) (hne : text ≠ []) (h : Plain text) :
    Cuts { kind, text, rest } cs :=
  .token hcs hne hfinish (.other hkind (by simpa using balanced_of_plain h))

theorem plain_digits (cs : List Char) : Plain (cs.takeWhile Decimal.isDigit) :=
  plain_takeWhile (by decide) cs

theorem plain_name (cs : List Char) : Plain (cs.takeWhile isNameChar) :=
  plain_takeWhile (by decide) cs

theorem takeWhile_ne_nil {p : Char → Bool} {c : Char} (hc : p c = true) (cs : List Char) :
    (c :: cs).takeWhile p ≠ [] := by
  rw [List.takeWhile_cons_of_pos hc]
  exact List.cons_ne_nil _ _

theorem isNameChar_of_isNameStart {c : Char} (h : isNameStart c = true) : isNameChar c = true := by
  simp only [isNameStart, isNameChar, Text.isAlphanumeric, Bool.or_eq_true] at h ⊢
  exact h.imp_left (Or.imp_left Or.inl)

theorem cuts_subject (cs : List Char) : Cuts (subject cs) ('@' :: cs) := by
  have named : ∀ {kind}, bracket? kind = none → kind ≠ .finish →
      Cuts { kind, text := '@' :: cs.takeWhile isNameChar, rest := cs.dropWhile isNameChar }
        ('@' :: cs) := by
    intro kind hkind hfinish
    refine cuts_plain ?_ hkind hfinish (List.cons_ne_nil _ _) ?_
    · rw [List.cons_append, List.takeWhile_append_dropWhile]
    · exact List.forall_mem_cons.mpr ⟨by decide, plain_name cs⟩
  have alone : Cuts { kind := .subject .current, text := ['@'], rest := cs } ('@' :: cs) :=
    cuts_plain rfl rfl nofun (List.cons_ne_nil _ _) (by decide)
  unfold subject
  split
  · exact alone
  · split
    · dsimp only
      split_ifs
      · exact named rfl nofun
      · exact named rfl nofun
      · exact named rfl nofun
      · exact named rfl nofun
      · exact .fault rfl
    · exact alone

theorem cuts_word {c : Char} (hc : isNameStart c = true) (cs : List Char) :
    Cuts (word (c :: cs)) (c :: cs) := by
  have hne := takeWhile_ne_nil (isNameChar_of_isNameStart hc) cs
  unfold word
  refine cuts_plain List.takeWhile_append_dropWhile.symm ?_ ?_ hne (plain_name _)
  · split_ifs <;> rfl
  · split_ifs <;> exact nofun

theorem cuts_member (cs : List Char) : Cuts (member cs) cs := by
  unfold member
  dsimp only
  split
  · exact .fault rfl
  · next hne =>
    exact cuts_plain List.takeWhile_append_dropWhile.symm rfl nofun (mt List.isEmpty_iff.mpr hne)
      (plain_name cs)

theorem cuts_exponent (hcs : cs = text ++ rest) (hne : text ≠ []) (htext : Plain text) :
    Cuts (exponent text rest) cs := by
  have whole : Cuts { kind := .number (String.ofList text), text, rest } cs :=
    cuts_plain hcs rfl nofun hne htext
  unfold exponent
  split
  · next e ds =>
    split
    · next he =>
      have hplain : isDelimiter e = false :=
        isDelimiter_of_class (p := fun e => e = 'e' || e = 'E') (by decide) he
      have digits : ∀ sign ds, Plain sign → cs = text ++ e :: (sign ++ ds) → Cuts
          (if (ds.takeWhile Decimal.isDigit).isEmpty then
            ofFault .noExponentDigit (text ++ e :: sign) ds
          else
            let text := text ++ e :: (sign ++ ds.takeWhile Decimal.isDigit)
            { kind := .number (String.ofList text), text, rest := ds.dropWhile Decimal.isDigit })
          cs := by
        intro sign ds hsign hcs
        split
        · exact .fault rfl
        · refine cuts_plain ?_ rfl nofun (List.append_ne_nil_of_left_ne_nil hne _) ?_
          · rw [hcs, List.append_assoc, List.cons_append, List.append_assoc,
              List.takeWhile_append_dropWhile]
          · exact htext.append (List.forall_mem_cons.mpr ⟨hplain, hsign.append (plain_digits ds)⟩)
      split
      next sign rest hsign =>
      split at hsign
      · cases hsign
        exact digits ['+'] _ (by decide) hcs
      · cases hsign
        exact digits ['-'] _ (by decide) hcs
      · cases hsign
        exact digits [] _ (by decide) hcs
    · exact whole
  · exact whole

theorem cuts_number {c : Char} (hc : Decimal.isDigit c = true) (cs : List Char) :
    Cuts (number (c :: cs)) (c :: cs) := by
  have hne := takeWhile_ne_nil hc cs
  have hcs := (List.takeWhile_append_dropWhile (p := Decimal.isDigit) (l := c :: cs)).symm
  unfold number
  dsimp only
  split
  · next ds hds =>
    split
    · exact .fault rfl
    · refine cuts_exponent ?_ (List.append_ne_nil_of_left_ne_nil hne _) ?_
      · rw [List.append_assoc, List.cons_append, List.takeWhile_append_dropWhile, ← hds, ← hcs]
      · exact (plain_digits _).append (List.forall_mem_cons.mpr ⟨by decide, plain_digits ds⟩)
  · exact cuts_exponent hcs hne (plain_digits _)

theorem stringBody_closed {quote : Char} {cs text rest : List Char}
    (h : stringBody quote cs = (text, .closed, rest)) :
    cs = text ++ quote :: rest ∧ Quotable quote text := by
  fun_induction stringBody quote cs generalizing text with
  | case1 => cases h
  | case2 => cases h
  | case3 e cs he text' how rest' hbody ih =>
    cases h
    obtain ⟨rfl, hquotable⟩ := ih hbody
    exact ⟨rfl, .escaped e hquotable⟩
  | case4 => cases h
  | case5 => cases h
  | case6 =>
    cases h
    exact ⟨rfl, .nil⟩
  | case7 c cs hlast hnext _ hquote text' how rest' hbody ih =>
    cases h
    obtain ⟨rfl, hquotable⟩ := ih hbody
    have hslash : c ≠ '\\' := fun hc => by
      cases text' with
      | nil => exact hnext _ _ hc rfl
      | cons d ds => exact hnext _ _ hc rfl
    exact ⟨rfl, .plain hquote hslash hquotable⟩

theorem cuts_string (quote : Quote) (cs : List Char) :
    Cuts (string quote cs) (quote.char :: cs) := by
  have hquote : Segment.isQuote quote.char = true := by cases quote <;> rfl
  unfold string
  split
  · next text rest hbody =>
    obtain ⟨rfl, hquotable⟩ := stringBody_closed hbody
    have hpiece : quote.char :: (text ++ quote.char :: rest) =
        quote.char :: (text ++ [quote.char]) ++ rest := by simp
    exact .token hpiece (List.cons_ne_nil _ _) nofun (.other rfl (.quoted hquote hquotable .nil))
  · exact .fault rfl
  · exact .fault rfl

theorem cuts_bracket {b : Char} (hkind : bracket? kind = some b) (rest : List Char) :
    Cuts { kind, text := [b], rest } (b :: rest) := by
  have hpiece : b :: rest = [b] ++ rest := rfl
  refine .token hpiece (List.cons_ne_nil _ _) ?_ (.bracket hkind .nil)
  rintro rfl
  cases hkind

theorem cuts_other {c : Char} (cs : List Char) :
    Cuts
      (if c = '\x00' then { kind := .finish, text := [], rest := c :: cs }
      else if Decimal.isDigit c then number (c :: cs)
      else if isNameStart c then word (c :: cs)
      else ofFault (.unexpected c) [c] cs) (c :: cs) := by
  split
  · next hzero => exact .finish rfl fun h => absurd (by rw [hzero]; exact List.mem_cons_self) h
  · split
    · next hdigit => exact cuts_number hdigit cs
    · split
      · next hname => exact cuts_word hname cs
      · exact .fault rfl

theorem cuts_first (cs : List Char) : Cuts (first cs) cs := by
  unfold first
  split
  case h_1 => exact .finish rfl fun _ => rfl
  case h_2 => exact cuts_subject _
  case h_4 | h_5 | h_6 | h_7 => exact cuts_bracket rfl _
  case h_8 => exact cuts_string .single _
  case h_9 => exact cuts_string .double _
  case h_15 | h_21 | h_23 => exact .fault rfl
  case h_29 => exact cuts_other _
  -- what is left is always written in the same way
  all_goals exact cuts_plain rfl rfl nofun (List.cons_ne_nil _ _) (by decide)

end Lexeme

/-! ## Whole texts -/

open Token (scan)

variable {fuel pos : Nat} {afterDot : Bool}

theorem balanced_spaces (cs : List Char) : Balanced (cs.takeWhile isSpace) :=
  balanced_of_plain (Lexeme.plain_takeWhile (by decide) cs)

/-- A scan skips some space and cuts off a lexeme, and it goes on behind that unless it has come to
the end or to a fault. -/
theorem scan_succ (fuel : Nat) (afterDot : Bool) (pos : Nat) (cs : List Char) :
    ∃ space front l start, cs = space ++ front ∧ Balanced space ∧ Lexeme.Cuts l front ∧
      ((l.kind = .finish ∨ ∃ f, l.kind = .fault f) ∧
          scan (fuel + 1) afterDot pos cs = [l.token start] ∨
        l.kind ≠ .finish ∧ (∀ f, l.kind ≠ .fault f) ∧
          scan (fuel + 1) afterDot pos cs =
            l.token start :: scan fuel (l.kind == .dot) (start + l.width) l.rest) := by
  have cut : ∃ space front, cs = space ++ front ∧ Balanced space ∧
      (if afterDot then [] else cs.takeWhile isSpace) = space ∧
      (if afterDot then cs else cs.dropWhile isSpace) = front ∧
      Lexeme.Cuts (if afterDot then .member front else .first front) front := by
    cases afterDot with
    | true => exact ⟨[], cs, rfl, .nil, rfl, rfl, Lexeme.cuts_member cs⟩
    | false =>
      exact ⟨_, _, List.takeWhile_append_dropWhile.symm, balanced_spaces cs, rfl, rfl,
        Lexeme.cuts_first _⟩
  obtain ⟨space, front, hcs, hspace, hskipped, hfront, cuts⟩ := cut
  rw [scan, hskipped, hfront]
  generalize (if afterDot = true then Lexeme.member front else Lexeme.first front) = l at cuts ⊢
  refine ⟨space, front, l, pos + Text.byteLength space, hcs, hspace, cuts, ?_⟩
  cases l.kind with
  | finish => exact Or.inl ⟨Or.inl rfl, rfl⟩
  | fault f => exact Or.inl ⟨Or.inr ⟨f, rfl⟩, rfl⟩
  | _ => exact Or.inr ⟨by simp, by simp, rfl⟩

/-- The kinds of the tokens do not depend on where the text stands. -/
theorem kinds_scan (fuel : Nat) (afterDot : Bool) (cs : List Char) (pos pos' : Nat) :
    kinds (scan fuel afterDot pos cs) = kinds (scan fuel afterDot pos' cs) := by
  induction fuel generalizing afterDot cs pos pos' with
  | zero => rfl
  | succ fuel ih =>
    rw [scan, scan]
    generalize (if afterDot = true then Lexeme.member _ else Lexeme.first _) = l
    cases l.kind with
    | finish | fault => rfl
    | _ => exact congrArg (List.cons _) (ih _ _ _ _)

theorem sentence_cons {token : Token} (h : token.kind ≠ .finish) (ts : List Token) :
    sentence (token :: ts) = token.kind :: sentence ts := by
  simp [sentence, h]

theorem sentence_cons_finish {token : Token} (h : token.kind = .finish) (ts : List Token) :
    sentence (token :: ts) = [] := by
  simp [sentence, h]

/-- A text without a fault is spelled out by its tokens, up to some space at its end. -/
theorem spelled_scan (hfuel : cs.length < fuel) (hzero : '\x00' ∉ cs)
    (hok : ∀ f, (kinds (scan fuel afterDot pos cs)).getLast? ≠ some (.fault f)) :
    ∃ body space, cs = body ++ space ∧ Balanced space ∧
      Spelled (sentence (scan fuel afterDot pos cs)) body := by
  induction fuel generalizing afterDot pos cs with
  | zero => exact absurd hfuel (Nat.not_lt_zero _)
  | succ fuel ih =>
    obtain ⟨space, front, l, start, rfl, hspace, cuts, ⟨hkind, hscan⟩ | ⟨hfinish, hfault, hscan⟩⟩ :=
      scan_succ fuel afterDot pos cs
    · rw [hscan] at hok ⊢
      have hfinish : l.kind = .finish :=
        hkind.resolve_right fun ⟨f, hf⟩ => hok f (congrArg some hf)
      rw [sentence_cons_finish hfinish]
      cases cuts with
      | fault hf => rw [hf] at hfinish; cases hfinish
      | finish _ hfront =>
        rw [hfront fun h => hzero (List.mem_append_right _ h), List.append_nil]
        exact ⟨[], space, rfl, hspace, .nil⟩
      | token _ _ hne _ => exact absurd hfinish hne
    · rw [hscan] at hok ⊢
      rw [sentence_cons hfinish]
      cases cuts with
      | fault hf => exact absurd hf (hfault _)
      | finish hf _ => exact absurd hf hfinish
      | @token piece hpiece hne _ hspells =>
        have hlength : l.rest.length < fuel := by
          have := List.length_pos_iff.mpr hne
          rw [hpiece, List.length_append, List.length_append] at hfuel
          omega
        have hrest : '\x00' ∉ l.rest := fun h => hzero (by
          rw [hpiece]
          exact List.mem_append_right _ (List.mem_append_right _ h))
        obtain ⟨body, last, hbody, hlast, hspelled⟩ := ih hlength hrest fun f hf => hok f (by
          rw [kinds, List.map_cons, ← kinds, List.getLast?_cons, hf, Option.getD_some])
        refine ⟨(space ++ piece) ++ body, last, ?_, hlast, .cons (hspells.behind hspace) hspelled⟩
        rw [hpiece, hbody, List.append_assoc, List.append_assoc]

theorem lex_eq_ok {ts : List Token} : lex text offset = .ok ts ↔
    ts = tokenize text offset ∧ ∀ f, (kinds ts).getLast? ≠ some (.fault f) := by
  unfold lex
  dsimp only
  split
  · next f span hlast =>
    refine ⟨fun h => (by cases h), ?_⟩
    rintro ⟨rfl, hok⟩
    refine absurd ?_ (hok f)
    rw [kinds, List.getLast?_map, hlast]
    rfl
  · next hno =>
    constructor
    · intro h
      cases h
      refine ⟨rfl, fun f hf => ?_⟩
      rw [kinds, List.getLast?_map] at hf
      obtain ⟨⟨kind, span⟩, hlast, rfl⟩ := Option.map_eq_some_iff.mp hf
      exact hno f span hlast
    · rintro ⟨rfl, -⟩
      rfl

theorem parse_eq_ok : parse text offset = .ok e ↔
    (∀ f, (kinds (tokenize text offset)).getLast? ≠ some (.fault f)) ∧
      ofTokens (tokenize text offset) = .ok e := by
  rw [parse, bind_eq_ok]
  constructor
  · rintro ⟨ts, hlex, hparse⟩
    obtain ⟨rfl, hok⟩ := lex_eq_ok.mp hlex
    exact ⟨hok, hparse⟩
  · rintro ⟨hok, hparse⟩
    exact ⟨_, lex_eq_ok.mpr ⟨rfl, hok⟩, hparse⟩

/-- **A text that is an expression somewhere is one wherever it stands, and up to spans the same.** -/
theorem parse_elsewhere (h : parse text offset = .ok e) (offset' : Nat) :
    ∃ e', parse text offset' = .ok e' ∧ e'.unspanned = e.unspanned := by
  obtain ⟨hok, hparse⟩ := parse_eq_ok.mp h
  have hkinds : kinds (tokenize text offset') = kinds (tokenize text offset) := kinds_scan ..
  have hderives := derives_of_ofTokens hparse
  have hsentence : sentence (tokenize text offset') = sentence (tokenize text offset) := by
    rw [sentence, ← kinds, hkinds]
    rfl
  rw [← hsentence] at hderives
  obtain ⟨e', hparse', he'⟩ := exists_ofTokens hderives
  refine ⟨e', parse_eq_ok.mpr ⟨?_, hparse'⟩, he'⟩
  rw [hkinds]
  exact hok

/-- **The text of an expression is balanced.** -/
theorem balanced_of_parse (hzero : '\x00' ∉ text) (h : parse text offset = .ok e) :
    Balanced text := by
  obtain ⟨hok, hparse⟩ := parse_eq_ok.mp h
  obtain ⟨body, space, rfl, hspace, hspelled⟩ := spelled_scan (Nat.lt_succ_self _) hzero hok
  have hderives := derives_of_ofTokens hparse
  exact (hderives.balanced hspelled).append hspace

end LiveJson.Expr

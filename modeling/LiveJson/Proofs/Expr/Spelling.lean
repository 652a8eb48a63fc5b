import LiveJson.Proofs.Decimal.Plain
import LiveJson.Proofs.Expr.Escapes
import LiveJson.Proofs.Expr.Legible
import LiveJson.Proofs.Expr.Pieces

/-! # The tokens of the text of an expression

The printer writes every token of an expression, and what it writes between them keeps them apart.
So a scan of the text finds the tokens again, except for those that the lexer spells otherwise. A
whole number in front of a dot takes the dot as its point, an infinite number is a word, and a NUL
ends the text. Then the scan comes to a fault, or it finds too few numbers and dots.

The invariant of the induction is `Rescans`. It speaks of a text with anything behind it that an
operand can have behind it, and for a text that ends in a number without a point also of a dot. -/

namespace LiveJson.Expr

variable {cs ds s text rest rest' : List Char} {c : Char} {e : Expr}

/-! ## Numbers -/

theorem exponent_stop (hrest : ∀ c ∈ rest.head?, c ≠ 'e' ∧ c ≠ 'E') :
    Lexeme.exponent text rest = { kind := .number (String.ofList text), text, rest } := by
  unfold Lexeme.exponent
  split
  · next e ds =>
    obtain ⟨he, hE⟩ := hrest e rfl
    rw [if_neg (by simp [he, hE])]
  · rfl

theorem lexes_number {l : Lexeme} (hne : ds ≠ []) (hds : ∀ c ∈ ds, Decimal.isDigit c = true)
    (hl : Lexeme.number (ds ++ rest) = l) (hgoes : goesOn l.kind = true) (hdot : l.kind ≠ .dot) :
    Lexes (ds ++ rest) [l.kind] l.rest := by
  obtain ⟨c, ds, rfl⟩ := List.exists_cons_of_ne_nil hne
  have hc := hds c List.mem_cons_self
  exact lexes_of_first (isSpace_of_name (.inr hc)) ((first_number hc _).trans hl) hgoes hdot

theorem number_point (hds : ∀ c ∈ ds, Decimal.isDigit c = true) (rest : List Char) :
    Lexeme.number (ds ++ '.' :: rest) =
      if (rest.takeWhile Decimal.isDigit).isEmpty then
        Lexeme.ofFault .noFractionDigit (ds ++ ['.']) rest
      else Lexeme.exponent (ds ++ '.' :: rest.takeWhile Decimal.isDigit)
        (rest.dropWhile Decimal.isDigit) := by
  have hdot : ∀ c ∈ ('.' :: rest).head?, Decimal.isDigit c = false := fun c hc => by cases hc; rfl
  obtain ⟨htake, hdrop⟩ := takeWhile_append_stop hds hdot
  rw [Lexeme.number, htake, hdrop]
  rfl

/-- A number ends where no digit follows, and if it has no point yet, no point. -/
theorem lexes_numeral (h : Decimal.Numeral cs) (hends : Ends rest)
    (hpoint : '.' ∉ cs → rest.head? ≠ some '.') :
    Lexes (cs ++ rest) [.number (String.ofList cs)] rest := by
  have hdigit : ∀ c ∈ rest.head?, Decimal.isDigit c = false :=
    fun c hc => (hends.separates c hc).2.1
  have hexponent : ∀ c ∈ rest.head?, c ≠ 'e' ∧ c ≠ 'E' := fun c hc => (hends.separates c hc).2.2
  cases h with
  | whole hne hds =>
    obtain ⟨htake, hdrop⟩ := takeWhile_append_stop hds hdigit
    have hstop := hpoint fun hdot => absurd (hds '.' hdot) (by decide)
    have hnumber : Lexeme.number (cs ++ rest) = Lexeme.exponent cs rest := by
      unfold Lexeme.number
      rw [htake, hdrop]
      split
      · exact absurd rfl hstop
      · rfl
    exact lexes_number hne hds (hnumber.trans (exponent_stop hexponent)) rfl nofun
  | @fraction ds fs hne hds hne' hfs =>
    obtain ⟨htake, hdrop⟩ := takeWhile_append_stop hfs hdigit
    have hnumber : Lexeme.number (ds ++ '.' :: (fs ++ rest)) =
        Lexeme.exponent (ds ++ '.' :: fs) rest := by
      rw [number_point hds, htake, hdrop, if_neg (mt List.isEmpty_iff.mp hne')]
    rw [List.append_assoc, List.cons_append]
    exact lexes_number hne hds (hnumber.trans (exponent_stop hexponent)) rfl nofun

/-- A number that swallows the dot in front of a name: the dot is no token any more. -/
theorem slips_number {l : Lexeme} (hne : ds ≠ []) (hds : ∀ c ∈ ds, Decimal.isDigit c = true)
    (hl : Lexeme.number (ds ++ rest) = l) (hkind : (∃ fault, l.kind = .fault fault) ∨
      (∃ text, l.kind = .number text) ∧ Slips l.rest 1 rest') : Slips (ds ++ rest) 2 rest' := by
  obtain ⟨c, ds, rfl⟩ := List.exists_cons_of_ne_nil hne
  have hc := hds c List.mem_cons_self
  have hfirst := (first_number hc (ds ++ rest)).trans hl
  have hspace := isSpace_of_name (.inr hc)
  obtain ⟨fault, hfault⟩ | ⟨⟨text, htext⟩, hslips⟩ := hkind
  · have heq := kindsFrom_cons hspace hfirst
    rw [hfault] at heq
    exact .inl ⟨[], fault, heq⟩
  · have hlexes := lexes_of_first hspace hfirst (by rw [htext]; rfl) (by rw [htext]; nofun)
    rw [htext] at hlexes
    exact hlexes.slips hslips

/-- What is left of a name begins a name of its own, or nothing that the lexer knows. -/
theorem slips_name (hchars : ∀ c ∈ cs, isNameChar c = true)
    (hdigit : ∀ c ∈ cs.head?, Decimal.isDigit c = false) (hends : Ends rest) :
    Slips (cs ++ rest) 1 rest := by
  cases cs with
  | nil => exact .inr ⟨[], Nat.one_pos, rfl⟩
  | cons c cs =>
    have hc := hchars c List.mem_cons_self
    by_cases hstart : isNameStart c = true
    · have hword : ∃ kind, (Lexeme.word (c :: cs)).kind = kind ∧ goesOn kind = true ∧ kind ≠ .dot ∧
          isMark kind = false := by
        unfold Lexeme.word
        dsimp only
        split_ifs <;> exact ⟨_, rfl, rfl, nofun, rfl⟩
      obtain ⟨kind, hkind, hgoes, hdot, hmark⟩ := hword
      refine .inr ⟨[kind], ?_, lexes_word ⟨c, cs, rfl, hstart⟩ hchars hends hkind hgoes hdot⟩
      simp [marks, hmark]
    · -- Such a character can neither begin a name nor a number, and it is no other token.
      refine .inl ⟨[], .unexpected c, ?_⟩
      have hother := first_other (.inl hc) (cs ++ rest)
      rw [hdigit c rfl, if_neg Bool.false_ne_true, if_neg hstart] at hother
      exact kindsFrom_cons (isSpace_of_name (.inl hc)) hother

theorem exponent_digits (hc : c = 'e' ∨ c = 'E') (hsign : ∀ d ∈ ds.head?, d ≠ '+' ∧ d ≠ '-') :
    Lexeme.exponent text (c :: ds) =
      if (ds.takeWhile Decimal.isDigit).isEmpty then
        Lexeme.ofFault .noExponentDigit (text ++ [c]) ds
      else
        let text := text ++ c :: ds.takeWhile Decimal.isDigit
        { kind := .number (String.ofList text), text, rest := ds.dropWhile Decimal.isDigit } := by
  unfold Lexeme.exponent
  dsimp only
  rw [if_pos (by simpa using hc)]
  split
  · exact absurd rfl (hsign '+' rfl).1
  · exact absurd rfl (hsign '-' rfl).2
  · rfl

theorem dropWhile_append_stop {p : Char → Bool} (hrest : ∀ c ∈ rest.head?, p c = false)
    (cs : List Char) :
    (cs ++ rest).dropWhile p = cs.dropWhile p ++ rest := by
  have hstop : rest.dropWhile p = rest := by
    cases rest with
    | nil => rfl
    | cons c rest => exact List.dropWhile_cons_of_neg (by simp [hrest c rfl])
  rw [List.dropWhile_append, hstop]
  split
  · next h => rw [List.isEmpty_iff.mp h, List.nil_append]
  · rfl

/-- Behind its digits a name goes on with something else. -/
theorem slips_digits (hchars : ∀ c ∈ cs, isNameChar c = true) (hends : Ends rest) :
    Slips ((cs ++ rest).dropWhile Decimal.isDigit) 1 rest := by
  rw [dropWhile_append_stop fun c hc => (hends.separates c hc).2.1]
  refine slips_name (fun c hc => hchars c ((List.dropWhile_suffix _).subset hc))
    (fun c hc => ?_) hends
  have hhead := List.head?_dropWhile_not Decimal.isDigit cs
  rw [Option.mem_def.mp hc] at hhead
  simpa using hhead

/-- The exponent of a number is part of the name behind the dot. -/
theorem exponent_name (hchars : ∀ c ∈ cs, isNameChar c = true)
    (hdigit : ∀ c ∈ cs.head?, Decimal.isDigit c = false) (hends : Ends rest) :
    (∃ fault, (Lexeme.exponent text (cs ++ rest)).kind = .fault fault) ∨
      (∃ text', (Lexeme.exponent text (cs ++ rest)).kind = .number text') ∧
        Slips (Lexeme.exponent text (cs ++ rest)).rest 1 rest := by
  by_cases he : ∃ c cs', cs = c :: cs' ∧ (c = 'e' ∨ c = 'E')
  · obtain ⟨c, cs, rfl, hc⟩ := he
    have hcs : ∀ d ∈ cs, isNameChar d = true := fun d hd => hchars d (List.mem_cons_of_mem _ hd)
    have hsign : ∀ d ∈ (cs ++ rest).head?, d ≠ '+' ∧ d ≠ '-' := by
      have hname : ∀ d, isNameChar d = true → d ≠ '+' ∧ d ≠ '-' := fun d hd =>
        ⟨by rintro rfl; exact absurd hd (by decide), by rintro rfl; exact absurd hd (by decide)⟩
      cases cs with
      | nil =>
        have hsigns : ∀ d ∈ [' ', '.', '[', ']', ')'], d ≠ '+' ∧ d ≠ '-' := by simp
        exact fun d hd => hsigns d (hends d hd)
      | cons d cs =>
        exact fun d' hd' => hname d' (hcs d' (Option.some.inj hd' ▸ List.mem_cons_self))
    rw [List.cons_append, exponent_digits hc hsign]
    split
    · exact .inl ⟨_, rfl⟩
    · exact .inr ⟨⟨_, rfl⟩, slips_digits hcs hends⟩
  · have hstop : ∀ c ∈ (cs ++ rest).head?, c ≠ 'e' ∧ c ≠ 'E' := by
      cases cs with
      | nil => exact fun c hc => (hends.separates c hc).2.2
      | cons c cs =>
        intro c' hc'
        cases hc'
        exact ⟨fun hc => he ⟨c, cs, rfl, .inl hc⟩, fun hc => he ⟨c, cs, rfl, .inr hc⟩⟩
    rw [exponent_stop hstop]
    exact .inr ⟨⟨_, rfl⟩, slips_name hchars hdigit hends⟩

/-- **A number without a point in front of a dot: whatever the name, no dot is found.** -/
theorem slips_point (hne : ds ≠ []) (hds : ∀ c ∈ ds, Decimal.isDigit c = true) (hname : IsMember cs)
    (hends : Ends rest) : Slips (ds ++ '.' :: (cs ++ rest)) 2 rest := by
  refine slips_number hne hds (number_point hds (cs ++ rest)) ?_
  split
  · exact .inl ⟨_, rfl⟩
  · rw [dropWhile_append_stop fun c hc => (hends.separates c hc).2.1]
    refine exponent_name (fun c hc => hname.2 c ((List.dropWhile_suffix _).subset hc))
      (fun c hc => ?_) hends
    have hhead := List.head?_dropWhile_not Decimal.isDigit cs
    rw [Option.mem_def.mp hc] at hhead
    simpa using hhead

/-! ## Strings -/

/-- The text is part of a string that goes on behind it. -/
def Passes (cs : List Char) : Prop :=
  ∀ rest, Lexeme.stringBody '"' (cs ++ rest) =
    (cs ++ (Lexeme.stringBody '"' rest).1, (Lexeme.stringBody '"' rest).2)

theorem Passes.append (h : Passes cs) (h' : Passes ds) : Passes (cs ++ ds) := fun rest => by
  rw [List.append_assoc, h, h', List.append_assoc]

theorem passes_nil : Passes [] := fun _ => rfl

theorem passes_plain (hslash : c ≠ '\\') (hzero : c ≠ '\x00') (hquote : c ≠ '"') : Passes [c] :=
  fun _ => Lexeme.stringBody_cons hslash hzero hquote

theorem passes_of_forall (h : ∀ c ∈ cs, c ≠ '\\' ∧ c ≠ '\x00' ∧ c ≠ '"') : Passes cs := by
  induction cs with
  | nil => exact passes_nil
  | cons c cs ih =>
    obtain ⟨⟨hslash, hzero, hquote⟩, hcs⟩ := List.forall_mem_cons.mp h
    exact (passes_plain hslash hzero hquote).append (ih hcs)

theorem passes_slash (h : (isEscape c || decide (c = '"')) = true) :
    Passes ['\\', c] := fun rest => by
  rw [List.cons_append, List.singleton_append, Lexeme.stringBody, if_pos h]
  rfl

theorem exists_digitChar {b n : Nat} (hb : 1 < b) (h : c ∈ Nat.toDigits b n) :
    ∃ k < b, c = Nat.digitChar k := by
  induction n using Nat.strongRecOn with
  | ind n ih =>
    rw [Nat.toDigits_eq_if hb] at h
    split at h
    · next hn => exact ⟨n, hn, List.mem_singleton.mp h⟩
    · next hn =>
      rcases List.mem_append.mp h with h | h
      · exact ih _ (Nat.div_lt_self (by omega) hb) h
      · exact ⟨n % b, Nat.mod_lt _ (by omega), List.mem_singleton.mp h⟩

theorem passes_escapeChar (hc : c ≠ '\x00') : Passes (escapeChar c) := by
  unfold escapeChar
  split
  · exact passes_slash rfl
  · exact passes_slash rfl
  · exact passes_slash rfl
  · exact passes_slash rfl
  · exact passes_slash rfl
  · exact absurd rfl hc
  · next hquote hslash _ _ _ _ =>
    split
    · refine (passes_slash (c := 'u') rfl).append
        (passes_of_forall (List.forall_mem_cons.mpr ⟨by decide, ?_⟩))
      refine List.forall_mem_append.mpr ⟨fun d hd => ?_, by simp⟩
      obtain ⟨k, hk, rfl⟩ := exists_digitChar (by decide) hd
      have hdigits : ∀ k < 16,
          k.digitChar ≠ '\\' ∧ k.digitChar ≠ '\x00' ∧ k.digitChar ≠ '"' := by decide
      exact hdigits k hk
    · exact passes_plain hslash hc hquote

theorem passes_escaped (hs : '\x00' ∉ s) : Passes (s.flatMap escapeChar) := by
  induction s with
  | nil => exact passes_nil
  | cons c s ih =>
    rw [List.mem_cons, not_or] at hs
    exact (passes_escapeChar (Ne.symm hs.1)).append (ih hs.2)

/-- A NUL character is written with an escape that the lexer does not know. -/
theorem stringBody_badEscape (hs : '\x00' ∈ s) (rest : List Char) :
    (Lexeme.stringBody '"' (s.flatMap escapeChar ++ rest)).2.1 = .badEscape := by
  induction s with
  | nil => cases hs
  | cons c s ih =>
    rw [List.flatMap_cons, List.append_assoc]
    by_cases hc : c = '\x00'
    · rw [hc]
      rfl
    · rw [passes_escapeChar hc]
      exact ih ((List.mem_cons.mp hs).resolve_left (Ne.symm hc))

theorem scans_quote (text : String) (rest : List Char) :
    Scans ('\x00' ∉ text.toList) (quote text ++ rest)
      [.string .double (String.ofList (text.toList.flatMap escapeChar))] rest := by
  have hfirst : ∀ cs, Lexeme.first ('"' :: cs) = Lexeme.string .double cs := fun _ => rfl
  have hquote : quote text ++ rest = '"' :: (text.toList.flatMap escapeChar ++ '"' :: rest) := by
    rw [quote, List.cons_append, List.append_assoc, List.singleton_append]
  rw [hquote]
  refine ⟨fun hs => ?_, fun hs => .inl ⟨[], .badEscape, ?_⟩⟩
  · have hbody : Lexeme.stringBody '"' (text.toList.flatMap escapeChar ++ '"' :: rest) =
        (text.toList.flatMap escapeChar, .closed, rest) := by
      rw [passes_escaped hs]
      simp [Lexeme.stringBody]
    have hstring : Lexeme.string .double (text.toList.flatMap escapeChar ++ '"' :: rest) =
        { kind := .string .double (String.ofList (text.toList.flatMap escapeChar)), before := ['"'],
          text := text.toList.flatMap escapeChar, after := ['"'], rest } := by
      rw [Lexeme.string, Quote.char, hbody]
    exact lexes_of_first rfl ((hfirst _).trans hstring) rfl (by simp)
  · have hend := stringBody_badEscape (by simpa using hs) ('"' :: rest)
    have hstring : (Lexeme.string .double (text.toList.flatMap escapeChar ++ '"' :: rest)).kind =
        .fault .badEscape := by
      unfold Lexeme.string
      rw [Quote.char]
      generalize Lexeme.stringBody '"' (text.toList.flatMap escapeChar ++ '"' :: rest) = body
        at hend ⊢
      obtain ⟨text, how, rest⟩ := body
      obtain rfl : how = .badEscape := hend
      rfl
    have heq := kindsFrom_cons rfl (hfirst (text.toList.flatMap escapeChar ++ '"' :: rest))
    rwa [hstring] at heq

theorem unescape_escapeChar (h : shows c = true) (cs : List Char) :
    unescape (escapeChar c ++ cs) = (unescape cs).map (c :: ·) := by
  unfold escapeChar
  split
  · rfl
  · rfl
  · rfl
  · rfl
  · rfl
  · exact absurd h (by decide)
  · next hslash hn hr ht _ =>
    have hhidden : ¬Text.isHidden c = true := by
      simp only [shows, Bool.or_eq_true, Bool.not_eq_true', beq_iff_eq] at h
      rcases h with ((h | h) | h) | h
      · exact Bool.eq_false_iff.mp h
      · exact absurd h hn
      · exact absurd h hr
      · exact absurd h ht
    rw [if_neg hhidden]
    exact unescape_cons hslash

/-- A character that is written by its number, or as a NUL, cannot be read. -/
theorem unescape_hidden (h : ¬shows c = true) (cs : List Char) :
    ∃ cause, unescape (escapeChar c ++ cs) = .error cause := by
  unfold escapeChar
  split
  · exact absurd (by decide) h
  · exact absurd (by decide) h
  · exact absurd (by decide) h
  · exact absurd (by decide) h
  · exact absurd (by decide) h
  · exact ⟨.badEscape, rfl⟩
  · have hhidden : Text.isHidden c = true := by
      simp only [shows, Bool.or_eq_true, Bool.not_eq_true', not_or, Bool.not_eq_false] at h
      exact h.1.1.1
    rw [if_pos hhidden]
    refine ⟨.badUnicodeEscape, ?_⟩
    rw [List.cons_append, List.cons_append, List.cons_append]
    generalize (Nat.toDigits 16 c.toNat ++ ['\x7d']) ++ cs = rest
    match rest with
    | [] | [_] | [_, _] => rfl
    | _ :: _ :: _ :: rest => rfl

/-- The text of a string is read as the string if and only if all of its characters show. -/
theorem unescape_escaped_iff :
    unescape (s.flatMap escapeChar) = .ok s ↔ ∀ c ∈ s, shows c = true := by
  induction s with
  | nil => exact ⟨fun _ => nofun, fun _ => rfl⟩
  | cons c s ih =>
    rw [List.flatMap_cons, List.forall_mem_cons]
    by_cases hc : shows c = true
    · rw [unescape_escapeChar hc, ← ih]
      refine ⟨fun h => ⟨hc, ?_⟩, fun h => by rw [h.2]; rfl⟩
      cases hs : unescape (s.flatMap escapeChar) with
      | error cause => rw [hs] at h; cases h
      | ok s' =>
        rw [hs] at h
        rw [(List.cons.inj (Except.ok.inj h)).2]
    · obtain ⟨cause, herror⟩ := unescape_hidden hc (s.flatMap escapeChar)
      rw [herror]
      exact ⟨fun h => (by cases h), fun h => absurd h.1 hc⟩

/-! ## Literals -/

/-- The lexer finds the token of the literal. -/
def Literal.Lexed : Literal → Prop
  | number value => Decimal.isFinite value = true
  | string text => '\x00' ∉ text.toList
  | _ => True

theorem lexes_valueWord {kind : Token.Kind} (hcs : cs ∈ valueWords) (hends : Ends rest)
    (hkind : (Lexeme.word cs).kind = kind) : Lexes (cs ++ rest) [kind] rest := by
  have hall : (valueWords.all fun cs => cs.head?.any isNameStart && cs.all isNameChar &&
      goesOn (Lexeme.word cs).kind && (Lexeme.word cs).kind != .dot) = true := by decide
  have hword := List.all_eq_true.mp hall cs hcs
  simp only [Bool.and_eq_true, Option.any_eq_true, List.all_eq_true, bne_iff_ne] at hword
  obtain ⟨⟨⟨⟨c, hhead, hstart⟩, hchars⟩, hgoes⟩, hdot⟩ := hword
  obtain ⟨ds, rfl⟩ := List.head?_eq_some_iff.mp hhead
  exact lexes_word ⟨c, ds, rfl, hstart⟩ hchars hends hkind (hkind ▸ hgoes) (hkind ▸ hdot)

/-- An infinite number is written as a word, which is read as a name. -/
theorem slips_infinite {value : Float} (hspoken : (Literal.number value).Spoken)
    (hinfinite : ¬Decimal.isFinite value = true) (hends : Ends rest) :
    Slips (Decimal.plain value ++ rest) 1 rest := by
  obtain ⟨_, ⟨c, ds, rfl, hc⟩, hread⟩ := hspoken
  rw [Decimal.plain_of_not_finite hc hread hinfinite]
  exact slips_name (List.all_eq_true.mp (by decide)) (fun c hc => by cases hc; rfl) hends

theorem scans_literal {v : Literal} {span : Span} (hspoken : v.Spoken) (hends : Ends rest)
    (hpoint : (literal span v).Unpointed → rest.head? ≠ some '.') :
    Scans v.Lexed (v.print ++ rest) [v.kind] rest := by
  cases v with
  | undefined => exact (lexes_valueWord (by decide) hends rfl).scans
  | null => exact (lexes_valueWord (by decide) hends rfl).scans
  | bool b => cases b <;> exact (lexes_valueWord (by decide) hends rfl).scans
  | number value =>
    refine ⟨fun hfinite => ?_, fun hinfinite => slips_infinite hspoken hinfinite hends⟩
    obtain ⟨_, ⟨c, ds, rfl, hc⟩, hread⟩ := hspoken
    exact lexes_numeral (Decimal.numeral_plain hc hread hfinite) hends hpoint
  | string text => exact scans_quote text rest

/-! ## Expressions -/

theorem ends_cons (hc : c ∈ [' ', '.', '[', ']', ')']) (cs : List Char) : Ends (c :: cs) :=
  fun _ hd => Option.some.inj hd ▸ hc

theorem first_not (h : cs.head? ≠ some '=') :
    Lexeme.first ('!' :: cs) = { kind := .not, text := ['!'], rest := cs } := by
  have hne : ∀ ds, cs = '=' :: ds → False := fun ds hds => h (by rw [hds]; rfl)
  rw [Lexeme.first]
  · exact fun _ => hne _
  · exact hne

theorem subject_append (hstarts : ∃ c ds, cs = c :: ds ∧ isNameStart c = true)
    (hchars : ∀ c ∈ cs, isNameChar c = true) (hends : Ends rest) :
    (Lexeme.subject (cs ++ rest)).kind = (Lexeme.subject cs).kind ∧
      (Lexeme.subject (cs ++ rest)).rest = rest := by
  obtain ⟨htake, hdrop⟩ := takeWhile_append_stop hchars fun c hc => (hends.separates c hc).1
  have hwhole := List.takeWhile_eq_self_iff.mpr hchars
  obtain ⟨c, ds, rfl, hc⟩ := hstarts
  rw [List.cons_append] at htake hdrop ⊢
  simp only [Lexeme.subject, if_pos hc, htake, hdrop, hwhole]
  split_ifs <;> exact ⟨rfl, rfl⟩

theorem lexes_named {which : Subject} (hwhich : which.text.toList = '@' :: cs)
    (hstarts : ∃ c ds, cs = c :: ds ∧ isNameStart c = true)
    (hchars : cs.all isNameChar = true) (hkind : (Lexeme.subject cs).kind = .subject which)
    (hends : Ends rest) :
    Lexes (which.text.toList ++ rest) [.subject which] rest := by
  obtain ⟨hkind', hrest⟩ := subject_append hstarts (List.all_eq_true.mp hchars) hends
  rw [hkind] at hkind'
  have hfirst : Lexeme.first ('@' :: (cs ++ rest)) = Lexeme.subject (cs ++ rest) := rfl
  generalize Lexeme.subject (cs ++ rest) = l at hfirst hkind' hrest
  have hlexes := lexes_of_first rfl hfirst (by rw [hkind']; rfl) (by rw [hkind']; nofun)
  rwa [hkind', hrest, ← List.cons_append, ← hwhich] at hlexes

theorem lexes_subject (which : Subject) (hends : Ends rest) :
    Lexes (which.text.toList ++ rest) [.subject which] rest := by
  cases which with
  | current =>
    have hsubject : Lexeme.subject rest = { kind := .subject .current, text := ['@'], rest } := by
      cases rest with
      | nil => rfl
      | cons c cs =>
        have hstart : ¬isNameStart c = true := fun hc => by
          have hname := (hends.separates c rfl).1
          rw [Lexeme.isNameChar_of_isNameStart hc] at hname
          cases hname
        rw [Lexeme.subject, if_neg hstart]
    exact lexes_of_first (c := '@') rfl hsubject rfl nofun
  | parent => exact lexes_named rfl ⟨_, _, rfl, rfl⟩ (by decide) rfl hends
  | property => exact lexes_named rfl ⟨_, _, rfl, rfl⟩ (by decide) rfl hends
  | parentProperty => exact lexes_named rfl ⟨_, _, rfl, rfl⟩ (by decide) rfl hends
  | path => exact lexes_named rfl ⟨_, _, rfl, rfl⟩ (by decide) rfl hends

theorem head_literal {v : Literal} (hspoken : v.Spoken) : ∃ c cs, v.print = c :: cs ∧ c ≠ '=' := by
  cases v with
  | undefined | null => exact ⟨_, _, rfl, by decide⟩
  | bool b => cases b <;> exact ⟨_, _, rfl, by decide⟩
  | string text => exact ⟨_, _, rfl, by decide⟩
  | number value =>
    obtain ⟨_, ⟨c, ds, rfl, hc⟩, hread⟩ := hspoken
    by_cases hfinite : Decimal.isFinite value = true
    · obtain ⟨c, cs, hcs, hdigit⟩ := (Decimal.numeral_plain hc hread hfinite).head
      exact ⟨c, cs, hcs, by rintro rfl; exact absurd hdigit (by decide)⟩
    · exact ⟨_, _, Decimal.plain_of_not_finite hc hread hfinite, by decide⟩

/-- No text of an expression makes an operator of an exclamation mark in front of it. -/
theorem head_print (hspoken : e.Spoken) : ∃ c cs, e.print = c :: cs ∧ c ≠ '=' := by
  induction e with
  | literal span value => exact head_literal hspoken
  | subject span which => cases which <;> exact ⟨_, _, rfl, by decide⟩
  | binding span name =>
    obtain ⟨c, cs, hcs, hc⟩ := IsWord.starts hspoken
    exact ⟨c, cs, hcs, by rintro rfl; exact absurd hc (by decide)⟩
  | member span object name ih =>
    obtain ⟨c, cs, hcs, hc⟩ := ih hspoken.1
    exact ⟨c, _, by rw [print, hcs]; rfl, hc⟩
  | index span object key ih =>
    obtain ⟨c, cs, hcs, hc⟩ := ih hspoken.1
    exact ⟨c, _, by rw [print, hcs]; rfl, hc⟩
  | not | negate => exact ⟨_, _, rfl, by decide⟩
  | binary span op left right ih =>
    cases op with
    | comparison op =>
      obtain ⟨c, cs, hcs, hc⟩ := ih hspoken.1
      exact ⟨c, _, by rw [print, hcs]; rfl, hc⟩
    | logical | arithmetic => exact ⟨_, _, rfl, by decide⟩

/-- What the scan of the text of an expression finds, and what it misses where a number at its end
takes a dot for its point. -/
structure Rescans (e : Expr) : Prop where
  scans : ∀ {rest}, Ends rest → (e.Unpointed → rest.head? ≠ some '.') →
    Scans (e.Pointed ∧ ∀ v ∈ e.literals, v.Lexed) (e.print ++ rest) e.tokens rest
  slips : e.Unpointed → ∀ {cs rest}, IsMember cs → Ends rest →
    Slips (e.print ++ '.' :: (cs ++ rest)) (marks e.tokens + 1) rest

variable {span : Span} {key left right : Expr}

theorem rescans_literal {v : Literal} (hspoken : v.Spoken) : Rescans (literal span v) := by
  refine ⟨fun hends hpoint =>
      (scans_literal hspoken hends hpoint).congr (by simp),
    fun hun cs rest hname hends => ?_⟩
  cases v with
  | number value =>
    by_cases hfinite : Decimal.isFinite value = true
    · obtain ⟨_, ⟨c, ds, rfl, hc⟩, hread⟩ := hspoken
      have hnumeral := Decimal.numeral_plain hc hread hfinite
      change Slips (Decimal.plain value ++ '.' :: (cs ++ rest)) 2 rest
      change '.' ∉ Decimal.plain value at hun
      generalize Decimal.plain value = text at hnumeral hun
      cases hnumeral with
      | whole hne hds => exact slips_point hne hds hname hends
      | fraction => simp at hun
    · have hslips := slips_infinite hspoken hfinite (ends_cons (c := '.') (by decide) (cs ++ rest))
      exact hslips.lexes (lexes_member hname hends)
  | _ => cases hun

theorem rescans_subject (which : Subject) : Rescans (subject span which) :=
  ⟨fun hends _ => (lexes_subject which hends).scans.congr (by simp), nofun⟩

theorem rescans_binding {name : String} (hname : IsWord name.toList) :
    Rescans (binding span name) := by
  refine ⟨fun hends _ => ?_, nofun⟩
  have hscans := (hname.lexes hends).scans
  rw [String.ofList_toList] at hscans
  exact hscans.congr (by simp)

theorem Rescans.member {name : String} (h : Rescans e) (hname : IsMember name.toList) :
    Rescans (member span e name) := by
  refine ⟨fun {rest} hends _ => ?_, nofun⟩
  have hmember := lexes_member hname hends
  rw [String.ofList_toList] at hmember
  rw [print, List.append_assoc]
  by_cases hun : e.Unpointed
  -- The number takes the dot, and the name is scanned on its own.
  · refine ⟨fun hclean => absurd hun hclean.1.2, fun _ => ?_⟩
    rw [tokens, marks_append]
    exact h.slips hun hname hends
  · have hscans := (h.scans (ends_cons (by decide) _) fun h => absurd h hun).behind hmember
    exact hscans.congr (by simp [hun])

theorem Rescans.index (h : Rescans e) (hkey : Rescans key) : Rescans (index span e key) := by
  refine ⟨fun {rest} hends _ => ?_, nofun⟩
  have hopen : Lexes ('[' :: (key.print ++ ']' :: rest)) [.openBracket]
      (key.print ++ ']' :: rest) :=
    lexes_bracket rfl rfl _
  have hclose : Lexes (']' :: rest) [.closeBracket] rest := lexes_bracket rfl rfl _
  have hobject :=
    h.scans (ends_cons (c := '[') (by decide) (key.print ++ ']' :: rest)) fun _ => by simp
  have hinner := hkey.scans (ends_cons (c := ']') (by decide) rest) fun _ => by simp
  have hscans := hobject.append ((hinner.behind hclose).before hopen)
  simp only [print, List.append_assoc, List.cons_append, List.nil_append]
  exact hscans.congr (by simp only [Pointed, literals, List.forall_mem_append, and_and_and_comm])

theorem Rescans.not (h : Rescans e) (hspoken : e.Spoken) : Rescans (not span e) := by
  have hnot : ∀ rest, Lexes ('!' :: (e.print ++ rest)) [.not] (e.print ++ rest) := fun rest => by
    obtain ⟨c, cs, hcs, hc⟩ := head_print hspoken
    refine lexes_of_first rfl (first_not ?_) rfl nofun
    rw [hcs]
    exact fun h => hc (Option.some.inj h)
  refine ⟨fun hends hpoint => (h.scans hends hpoint).before (hnot _), fun hun _ _ hname hends => ?_⟩
  have hslips := (hnot _).slips (h.slips hun hname hends)
  rwa [← Nat.add_assoc, ← marks_append] at hslips

theorem Rescans.negate (h : Rescans e) : Rescans (negate span e) := by
  have hnegate : ∀ rest, Lexes ('-' :: (e.print ++ rest)) [.operator (.arithmetic .subtract)]
      (e.print ++ rest) := fun _ => lexes_of_first rfl rfl rfl nofun
  refine ⟨fun hends hpoint => (h.scans hends hpoint).before (hnegate _),
    fun hun _ _ hname hends => ?_⟩
  have hslips := (hnegate _).slips (h.slips hun hname hends)
  rwa [← Nat.add_assoc, ← marks_append] at hslips

theorem Rescans.comparison {op : Comparison} (h : Rescans left) (h' : Rescans right) :
    Rescans (binary span (.comparison op) left right) := by
  have hleft : ∀ cs, Scans (left.Pointed ∧ ∀ v ∈ left.literals, v.Lexed)
      (left.print ++ ' ' :: (op.text.toList ++ ' ' :: cs))
      (left.tokens ++ [.operator (.comparison op)]) cs := fun cs =>
    (h.scans (ends_cons (by decide) _) fun _ => by simp).behind (lexes_operator (.comparison op) cs)
  have htext : ∀ cs, (binary span (.comparison op) left right).print ++ cs =
      left.print ++ ' ' :: (op.text.toList ++ ' ' :: (right.print ++ cs)) := fun cs => by
    simp [print]
  have htokens : (binary span (.comparison op) left right).tokens =
      (left.tokens ++ [.operator (.comparison op)]) ++ right.tokens := by simp [tokens]
  refine ⟨fun hends hpoint => ?_, fun hun cs rest hname hends => ?_⟩
  · have hscans := (hleft _).append (h'.scans hends hpoint)
    rw [htext, htokens]
    exact hscans.congr (by simp only [Pointed, literals, List.forall_mem_append, and_and_and_comm])
  · rw [htext, htokens, marks_append, Nat.add_assoc]
    exact (hleft _).slips_behind (h'.slips hun hname hends)

theorem Rescans.enclosed {op : Operator} (hop : op.parens = 1) (h : Rescans left)
    (h' : Rescans right) :
    Rescans (binary span op left right) := by
  have htext : ∀ cs, (binary span op left right).print ++ cs =
      '(' :: (left.print ++ ' ' :: (op.text.toList ++ ' ' :: (right.print ++ ')' :: cs))) := by
    intro cs
    cases op with
    | comparison op => cases hop
    | logical op | arithmetic op => simp [print]
  have hun : ¬(binary span op left right).Unpointed := by
    cases op with
    | comparison op => cases hop
    | logical op | arithmetic op => exact id
  refine ⟨fun {rest} hends hpoint => ?_, fun h => absurd h hun⟩
  have hopen : Lexes
      ('(' :: (left.print ++ ' ' :: (op.text.toList ++ ' ' :: (right.print ++ ')' :: rest))))
      [.openParen] _ := lexes_bracket rfl rfl _
  have hclose : Lexes (')' :: rest) [.closeParen] rest := lexes_bracket rfl rfl _
  have hleft := (h.scans (ends_cons (by decide) _) fun _ => by simp).behind
    (lexes_operator op (right.print ++ ')' :: rest))
  have hright := (h'.scans (ends_cons (c := ')') (by decide) rest) fun _ => by simp).behind hclose
  have hscans := (hleft.append hright).before hopen
  rw [htext, tokens_binary, hop, enclose_succ, enclose_zero]
  simp only [List.append_assoc, List.cons_append, List.nil_append] at hscans ⊢
  exact hscans.congr (by simp only [Pointed, literals, List.forall_mem_append, and_and_and_comm])

/-- **The scan of the text of an expression finds its tokens, unless a string has a NUL, a number is
infinite or takes a dot for its point. Then it comes to a fault, or it misses a number or a dot.**
-/
theorem rescans_of_spoken (hspoken : e.Spoken) : Rescans e := by
  induction e with
  | literal => exact rescans_literal hspoken
  | subject => exact rescans_subject _
  | binding => exact rescans_binding hspoken
  | member _ _ _ ih => exact (ih hspoken.1).member hspoken.2
  | index _ _ _ ih ihkey => exact (ih hspoken.1).index (ihkey hspoken.2)
  | not _ _ ih => exact (ih hspoken).not hspoken
  | negate _ _ ih => exact (ih hspoken).negate
  | binary _ op _ _ ihl ihr =>
    cases op with
    | comparison op => exact (ihl hspoken.1).comparison (ihr hspoken.2)
    | logical op | arithmetic op => exact (ihl hspoken.1).enclosed rfl (ihr hspoken.2)

end LiveJson.Expr

import LiveJson.Proofs.Expr.Nodes
import LiveJson.Text.Basic

/-! # Strings can carry any text

The lexer finds the end of a string and looks at what stands behind each backslash; the parser
resolves the escapes later, and skips four characters behind a `u`. Both see the same escapes: where
the parser skips four characters none of them is a backslash. So text that is escaped between quotes
comes back, and what the lexer has let through fails in the parser only for a character number. -/

namespace LiveJson.Expr

open Text (escape byteLength)

variable {s cs rest : List Char} {c : Char} {ts : List Token}

/-! ## Escaped text comes back -/

namespace Lexeme

theorem stringBody_cons {quote : Char} (hslash : c ≠ '\\') (hzero : c ≠ '\x00') (hquote : c ≠ quote) :
    stringBody quote (c :: cs) =
      (c :: (stringBody quote cs).1, (stringBody quote cs).2.1, (stringBody quote cs).2.2) := by
  rw [stringBody.eq_def]
  split
  · next heq => cases heq
  · next heq => exact absurd (List.cons.inj heq).1 hslash
  · next heq => exact absurd (List.cons.inj heq).1 hslash
  · next heq =>
    cases heq
    rw [if_neg hzero, if_neg hquote]

theorem stringBody_escape (quote : Quote) (hs : '\x00' ∉ s) :
    stringBody quote.char (escape quote.char s ++ quote.char :: rest) =
      (escape quote.char s, .closed, rest) := by
  induction s with
  | nil => cases quote <;> rfl
  | cons c s ih =>
    have hrest := ih fun h => hs (List.mem_cons_of_mem _ h)
    have hzero : c ≠ '\x00' := fun hc => hs (hc ▸ List.mem_cons_self)
    rw [escape]
    split
    · next hc =>
      have hescape : (isEscape c || decide (c = quote.char)) = true := by
        rcases (by simpa using hc : c = '\\' ∨ c = quote.char) with rfl | rfl
        · rfl
        · simp
      rw [List.cons_append, List.cons_append, stringBody, if_pos hescape, hrest]
    · next hc =>
      obtain ⟨hslash, hquote⟩ : c ≠ '\\' ∧ c ≠ quote.char := by simpa using hc
      rw [List.cons_append, stringBody_cons hslash hzero hquote, hrest]

end Lexeme

theorem unescape_cons (hc : c ≠ '\\') : unescape (c :: cs) = (unescape cs).map (c :: ·) := by
  rw [unescape.eq_def]
  split
  · next heq => cases heq
  · next heq => exact absurd (List.cons.inj heq).1 hc
  · next heq => exact absurd (List.cons.inj heq).1 hc
  · next heq => exact absurd (List.cons.inj heq).1 hc
  · next heq => exact absurd (List.cons.inj heq).1 hc
  · next heq => cases heq; rfl

theorem unescape_escape (quote : Quote) (s : List Char) :
    unescape (escape quote.char s) = .ok s := by
  induction s with
  | nil => rfl
  | cons c s ih =>
    rw [escape]
    split
    · next hc =>
      have hresolved : unescape ('\\' :: c :: escape quote.char s) =
          (unescape (escape quote.char s)).map (c :: ·) := by
        rcases (by simpa using hc : c = '\\' ∨ c = quote.char) with rfl | rfl
        · rfl
        · cases quote <;> rfl
      rw [hresolved, ih]
      rfl
    · next hc =>
      obtain ⟨hslash, -⟩ : c ≠ '\\' ∧ c ≠ quote.char := by simpa using hc
      rw [unescape_cons hslash, ih]
      rfl

/-- The lexeme of a quoted text. -/
theorem first_quoted (quote : Quote) (hs : '\x00' ∉ s) :
    Lexeme.first (quote.char :: (escape quote.char s ++ [quote.char])) =
      { kind := .string quote (String.ofList (escape quote.char s)), before := [quote.char],
        text := escape quote.char s, after := [quote.char], rest := [] } := by
  have hfirst : ∀ cs, Lexeme.first (quote.char :: cs) = Lexeme.string quote cs := by
    cases quote <;> exact fun _ => rfl
  rw [hfirst, Lexeme.string, Lexeme.stringBody_escape quote hs]

theorem tokenize_quoted (quote : Quote) (hs : '\x00' ∉ s) (offset : Nat) :
    ∃ span, tokenize (quote.char :: (escape quote.char s ++ [quote.char])) offset =
      [⟨.string quote (String.ofList (escape quote.char s)),
        ⟨offset + 1, offset + 1 + byteLength (escape quote.char s)⟩⟩, ⟨.finish, span⟩] := by
  have hspace : isSpace quote.char = false := by cases quote <;> rfl
  have hsize : quote.char.utf8Size = 1 := by cases quote <;> rfl
  rw [tokenize, List.length_cons, List.length_append, List.length_singleton, Token.scan]
  simp only [Bool.false_eq_true, if_false, List.takeWhile_cons, List.dropWhile_cons, hspace,
    first_quoted quote hs, Lexeme.token, Text.byteLength_cons, Text.byteLength_nil, hsize,
    Nat.add_zero]
  exact ⟨_, rfl⟩

/-- A quoted text is the literal of that text. -/
theorem parse_quoted (quote : Quote) (hs : '\x00' ∉ s) (offset : Nat) :
    parse (quote.char :: (escape quote.char s ++ [quote.char])) offset =
      .ok (.literal ⟨offset + 1, offset + 1 + byteLength (escape quote.char s)⟩
        (.string (String.ofList s))) := by
  obtain ⟨span, htokens⟩ := tokenize_quoted quote hs offset
  have hresolved : unescape (String.ofList (escape quote.char s)).toList = .ok s := by
    rw [String.toList_ofList, unescape_escape]
  have hlex : lex (quote.char :: (escape quote.char s ++ [quote.char])) offset = .ok _ :=
    lex_eq_ok.mpr ⟨rfl, by rw [htokens]; nofun⟩
  rw [parse, hlex, htokens]
  generalize String.ofList (escape quote.char s) = body at hresolved
  simp [bind, Except.bind, ofTokens, readExpression, readOperand, readPrimary, readAccesses,
    readOperators, ofToken, hresolved]

/-! ## What the lexer lets through -/

theorem ne_slash_of_hexValue? {n m : Nat}
    (h : cs.foldlM (fun n c => (Json.hexDigit? c).map (16 * n + ·)) m = some n) :
    ∀ c ∈ cs, c ≠ '\\' := by
  induction cs generalizing m with
  | nil => nofun
  | cons d ds ih =>
    obtain ⟨next, hnext, hrest⟩ := Option.bind_eq_some_iff.mp h
    refine List.forall_mem_cons.mpr ⟨?_, ih hrest⟩
    rintro rfl
    cases hnext

/-- The four characters behind a `u` that give a number are no backslashes. -/
theorem ne_slash_of_codeUnit? {n : Nat} (h : codeUnit? cs = some n) : ∀ c ∈ cs, c ≠ '\\' := by
  unfold codeUnit? at h
  split at h
  · exact List.forall_mem_cons.mpr ⟨by decide, ne_slash_of_hexValue? h⟩
  · exact ne_slash_of_hexValue? h

namespace Vetted

variable {quote : Char}

theorem behind_slash {e : Char} (h : Vetted quote ('\\' :: e :: cs)) :
    (isEscape e = true ∨ e = quote) ∧ Vetted quote cs := by
  cases h with
  | escaped he h => exact ⟨he, h⟩
  | plain hc => exact absurd rfl hc

theorem behind_plain (h : Vetted quote (c :: cs)) (hc : c ≠ '\\') : Vetted quote cs := by
  cases h with
  | escaped => exact absurd rfl hc
  | plain _ h => exact h

theorem of_plain {front : List Char} (hfront : ∀ c ∈ front, c ≠ '\\')
    (h : Vetted quote (front ++ cs)) : Vetted quote cs := by
  induction front with
  | nil => exact h
  | cons c front ih =>
    obtain ⟨hc, hrest⟩ := List.forall_mem_cons.mp hfront
    exact ih hrest (h.behind_plain hc)

end Vetted

/-- Each escape that the lexer knows is resolved, a `u` apart. -/
theorem exists_escapeValue (quote : Quote) {e : Char} (h : isEscape e = true ∨ e = quote.char)
    (hu : e ≠ 'u') : ∃ ch, escapeValue? e = some ch := by
  rcases h with h | rfl
  · simp only [isEscape, Bool.or_eq_true, beq_iff_eq] at h
    rcases h with ((((((rfl | rfl) | rfl) | rfl) | rfl) | rfl) | rfl) | rfl
    all_goals first | exact ⟨_, rfl⟩ | exact absurd rfl hu
  · cases quote <;> exact ⟨_, rfl⟩

theorem map_cons_cases {x : Except PathError.Cause (List Char)} (ch : Char)
    (h : (∃ s, x = .ok s) ∨ x = .error .badUnicodeEscape) :
    (∃ s, x.map (ch :: ·) = .ok s) ∨ x.map (ch :: ·) = .error .badUnicodeEscape := by
  rcases h with ⟨s, rfl⟩ | rfl
  · exact .inl ⟨ch :: s, rfl⟩
  · exact .inr rfl

theorem Vetted.unescape {quote : Quote} (h : Vetted quote.char cs) :
    (∃ s, unescape cs = .ok s) ∨ unescape cs = .error .badUnicodeEscape := by
  fun_induction Expr.unescape cs with
  | case1 => exact .inl ⟨[], rfl⟩
  | case2 a b c d rest ch hch ih =>
    obtain ⟨n, hn, -⟩ := Option.bind_eq_some_iff.mp hch
    have hrest : Vetted quote.char ([a, b, c, d] ++ rest) := h.behind_slash.2
    exact map_cons_cases ch (ih (hrest.of_plain (ne_slash_of_codeUnit? hn)))
  | case3 => exact .inr rfl
  | case4 => exact .inr rfl
  | case5 e rest hu hu' ch hch ih => exact map_cons_cases ch (ih h.behind_slash.2)
  | case6 e rest _ hu hnone =>
    obtain ⟨ch, hch⟩ := exists_escapeValue quote h.behind_slash.1 hu
    rw [hnone] at hch
    cases hch
  | case7 =>
    cases h with
    | plain hc => exact absurd rfl hc
  | case8 c rest _ _ hpair hlone ih =>
    have hc : c ≠ '\\' := fun hc => by
      cases rest with
      | nil => exact hlone hc rfl
      | cons e rest => exact hpair e rest hc rfl
    exact map_cons_cases c (ih (h.behind_plain hc))

/-- **Any text without a NUL, escaped between two quotes, is read as the string of that text. And in
whatever text the lexer accepts no string has an invalid escape: all that can be wrong with one is a
`u` without the number of a character behind it.** -/
theorem strings_carry_any_text :
    (∀ (quote : Quote) (s : List Char) (offset : Nat), '\x00' ∉ s →
      parse (quote.char :: (escape quote.char s ++ [quote.char])) offset =
        .ok (.literal ⟨offset + 1, offset + 1 + byteLength (escape quote.char s)⟩
          (.string (String.ofList s)))) ∧
    ∀ (text : List Char) (offset : Nat) (ts : List Token), lex text offset = .ok ts →
      (∀ quote body span, ⟨.string quote body, span⟩ ∈ ts →
        (∃ s, unescape body.toList = .ok s) ∨ unescape body.toList = .error .badUnicodeEscape) ∧
      ∀ e, ofTokens ts = .error e → e.cause ≠ .badEscape := by
  refine ⟨fun quote s offset hs => parse_quoted quote hs offset, fun text offset ts hlex => ?_⟩
  obtain ⟨rfl, -⟩ := lex_eq_ok.mp hlex
  have resolved : ∀ quote body span, ⟨.string quote body, span⟩ ∈ tokenize text offset →
      (∃ s, unescape body.toList = .ok s) ∨ unescape body.toList = .error .badUnicodeEscape :=
    fun quote body span h => (Token.vetted_of_mem_scan h).unescape
  refine ⟨resolved, fun e he hcause => ?_⟩
  obtain ⟨token, ht, -, hmisfit | ⟨quote, body, hkind, hescape⟩⟩ := blames_of_ofTokens he
  · rw [hcause] at hmisfit
    cases hmisfit
  · rw [hcause] at hescape
    obtain ⟨kind, span⟩ := token
    obtain rfl : kind = .string quote body := hkind
    rcases ht with ht | hending
    · rcases resolved quote body span ht with ⟨s, hs⟩ | hs
      · rw [hs] at hescape; cases hescape
      · rw [hs] at hescape; cases hescape
    · cases hending

/-- The tokens of `'\u12'`, which has too few digits. -/
def shortEscape : List Token := [⟨.string .single "\\u12", ⟨1, 5⟩⟩, ⟨.finish, ⟨6, 6⟩⟩]

theorem strings_carry_apostrophe :
    '\x00' ∉ "it's".toList ∧
    parse "'it\\'s'".toList 0 = .ok (.literal ⟨1, 6⟩ (.string "it's")) ∧
    lex "'\\u12'".toList 0 = .ok shortEscape ∧
    ∀ e, ofTokens shortEscape = .error e → e.cause ≠ .badEscape := by
  have hlex : lex "'\\u12'".toList 0 = .ok shortEscape := by decide
  have hzero : '\x00' ∉ "it's".toList := by decide
  exact ⟨hzero, strings_carry_any_text.1 .single "it's".toList 0 hzero, hlex,
    (strings_carry_any_text.2 _ 0 shortEscape hlex).2⟩

end LiveJson.Expr

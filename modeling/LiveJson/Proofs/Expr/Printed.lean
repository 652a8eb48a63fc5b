import LiveJson.Proofs.Expr.Spelling

/-! # Reading back the text of an expression

The text of a parsed expression is read as the expression, spans aside, exactly if it is legible.
The printer leaves out the parentheses around comparisons, so an expression can lose its shape. A
number in front of a dot, an infinite number, and a string with a character that is written as a
code are lost as well. -/

namespace LiveJson.Expr

variable {text : List Char} {offset : Nat} {e : Expr} {ks : List Token.Kind}

/-- A literal is legible if the lexer finds its token and the token denotes it. -/
theorem Literal.legible_iff {v : Literal} (hspoken : v.Spoken) :
    v.Legible ↔ v.Lexed ∧ Atom v.kind (.literal noSpan v) := by
  cases v with
  | undefined => exact ⟨fun _ => ⟨trivial, .undefined⟩, fun _ => trivial⟩
  | null => exact ⟨fun _ => ⟨trivial, .null⟩, fun _ => trivial⟩
  | bool b => cases b with
    | false => exact ⟨fun _ => ⟨trivial, .false⟩, fun _ => trivial⟩
    | true => exact ⟨fun _ => ⟨trivial, .true⟩, fun _ => trivial⟩
  | number value =>
    refine ⟨fun hfinite => ⟨hfinite, .number ?_⟩, fun h => h.1⟩
    obtain ⟨_, ⟨c, cs, rfl, hc⟩, hread⟩ := hspoken
    rw [String.toList_ofList]
    exact Decimal.read_plain hc hread hfinite
  | string value =>
    have hshows : Literal.Legible (.string value) ↔
        unescape (value.toList.flatMap escapeChar) = .ok value.toList := unescape_escaped_iff.symm
    constructor
    · intro h
      refine ⟨fun hzero => absurd (h _ hzero) (by decide), ?_⟩
      have hatom :=
        @Atom.string .double (String.ofList (value.toList.flatMap escapeChar)) value.toList
        (by rw [String.toList_ofList]; exact hshows.mp h)
      rwa [String.ofList_toList] at hatom
    · rintro ⟨-, hatom⟩
      rw [hshows]
      generalize hkind : Literal.kind (.string value) = kind at hatom
      generalize ht : literal noSpan (.string value) = t at hatom
      cases hatom with
      | string h =>
        cases hkind
        cases ht
        simpa only [String.toList_ofList] using h
      | _ => cases ht

/-- Tokens before the end marker. -/
theorem sentence_of_lexes (h : Lexes text ks []) (hks : .finish ∉ ks) (offset : Nat) :
    sentence (tokenize text offset) = ks := by
  have hkinds : (tokenize text offset).map (·.kind) = ks ++ [.finish] :=
    (kinds_tokenize text offset).trans h
  have hgoes : ∀ kind ∈ ks, decide (kind ≠ .finish) = true := fun kind hkind =>
    decide_eq_true fun hfinish => hks (hfinish ▸ hkind)
  rw [sentence, hkinds, List.takeWhile_append_of_pos hgoes, List.takeWhile_cons_of_neg (by decide),
    List.append_nil]

/-- A sentence for an expression has as many numbers and dots as its text is meant to have. -/
theorem marks_of_derives (h : Derives .disjunction ks e.unspanned) : marks ks = marks e.tokens := by
  rw [← tokens_unspanned e]
  refine h.countP rfl rfl fun hatom => ?_
  cases hatom <;> rfl

theorem finish_not_mem_tokens (e : Expr) : .finish ∉ e.tokens := by
  induction e with
  | literal _ v =>
    cases v with
    | bool b => cases b <;> simp [tokens, Literal.kind]
    | _ => simp [tokens, Literal.kind]
  | binary _ op _ _ ihl ihr => cases op <;> simp [tokens, ihl, ihr]
  | _ => simp_all [tokens]

theorem Spoken.literals (h : e.Spoken) : ∀ v ∈ e.literals, v.Spoken := by
  induction e with
  | literal _ v => exact List.forall_mem_singleton.mpr h
  | subject | binding => nofun
  | member _ _ _ ih => exact ih h.1
  | not _ _ ih | negate _ _ ih => exact ih h
  | index _ _ _ ih ihkey => exact List.forall_mem_append.mpr ⟨ih h.1, ihkey h.2⟩
  | binary _ _ _ _ ihl ihr => exact List.forall_mem_append.mpr ⟨ihl h.1, ihr h.2⟩

/-- A scan that slips finds no sentence for the expression. -/
theorem not_derives_of_slips (h : Slips text (marks e.tokens) [])
    (hok : ∀ f, (kinds (tokenize text offset)).getLast? ≠ some (.fault f)) :
    ¬Derives .disjunction (sentence (tokenize text offset)) e.unspanned := by
  intro hderives
  obtain ⟨ks, fault, hfault⟩ | ⟨ks, hmarks, hks⟩ := h
  · refine hok fault ?_
    rw [kinds_tokenize, hfault, List.getLast?_append]
    rfl
  · have hprefix : sentence (tokenize text offset) <+: ks ++ [.finish] := by
      rw [sentence, ← kinds, kinds_tokenize, hks]
      exact List.takeWhile_prefix _
    have hle := hprefix.sublist.countP_le (p := isMark)
    rw [List.countP_append] at hle
    have heq := marks_of_derives hderives
    exact absurd hmarks (Nat.not_lt.mpr (heq ▸ hle))

/-- **The text of a parsed expression is read as the expression, spans aside, if and only if the
expression is legible.** -/
theorem parse_print_iff (h : parse text offset = .ok e) (offset' : Nat) :
    (∃ again, parse e.print offset' = .ok again ∧ again.unspanned = e.unspanned) ↔ e.Legible := by
  have hspoken := spoken_of_parse h
  have hscans : Scans (e.Pointed ∧ ∀ v ∈ e.literals, v.Lexed) (e.print ++ []) e.tokens [] :=
    (rescans_of_spoken hspoken).scans nofun nofun
  rw [List.append_nil] at hscans
  constructor
  · rintro ⟨again, hagain, hsame⟩
    obtain ⟨hok, hparse⟩ := parse_eq_ok.mp hagain
    have hderives := derives_of_ofTokens hparse
    rw [hsame] at hderives
    by_cases hclean : e.Pointed ∧ ∀ v ∈ e.literals, v.Lexed
    · rw [sentence_of_lexes (hscans.lexes hclean) e.finish_not_mem_tokens, derives_tokens_iff]
        at hderives
      exact ⟨hderives.1, hclean.1, fun v hv => (Literal.legible_iff (hspoken.literals v hv)).mpr
        ⟨hclean.2 v hv, hderives.2 v hv⟩⟩
    · exact absurd hderives (not_derives_of_slips (hscans.slips hclean) hok)
  · rintro ⟨hgrouped, hpointed, hliterals⟩
    have hliterals' := fun v hv => (Literal.legible_iff (hspoken.literals v hv)).mp (hliterals v hv)
    have hlexes := hscans.lexes ⟨hpointed, fun v hv => (hliterals' v hv).1⟩
    have hsentence := sentence_of_lexes hlexes e.finish_not_mem_tokens offset'
    have hderives := derives_tokens_iff.mpr ⟨hgrouped, fun v hv => (hliterals' v hv).2⟩
    rw [← hsentence] at hderives
    obtain ⟨again, hparse, hsame⟩ := exists_ofTokens hderives
    refine ⟨again, parse_eq_ok.mpr ⟨fun f hf => ?_, hparse⟩, hsame⟩
    rw [kinds_tokenize, hlexes, List.getLast?_append] at hf
    cases hf

theorem parse_of_lex {ts : List Token} (hlex : lex text offset = .ok ts)
    (hparse : ofTokens ts = .ok e) :
    parse text offset = .ok e := by
  rw [parse, hlex]
  exact hparse

/-- The parentheses around a sum are written, so `!(a + b).c` is read back. -/
theorem member_of_sum_reads_back : ∃ again,
    parse (not ⟨0, 10⟩ (member ⟨2, 10⟩ (binary ⟨2, 7⟩ (.arithmetic .add) (binding ⟨2, 3⟩ "a")
      (binding ⟨6, 7⟩ "b")) "c")).print 0 = .ok again ∧
    again.unspanned = not noSpan (member noSpan (binary noSpan (.arithmetic .add)
      (binding noSpan "a") (binding noSpan "b")) "c") := by
  have hlex : lex "!(a + b).c".toList 0 = .ok [⟨.not, ⟨0, 1⟩⟩, ⟨.openParen, ⟨1, 2⟩⟩,
      ⟨.name "a", ⟨2, 3⟩⟩, ⟨.operator (.arithmetic .add), ⟨4, 5⟩⟩, ⟨.name "b", ⟨6, 7⟩⟩,
      ⟨.closeParen, ⟨7, 8⟩⟩, ⟨.dot, ⟨8, 9⟩⟩, ⟨.name "c", ⟨9, 10⟩⟩, ⟨.finish, ⟨10, 10⟩⟩] := by
    decide
  exact (parse_print_iff (parse_of_lex hlex rfl) 0).mpr
    { grouped := ⟨⟨⟨trivial, trivial, by decide, by decide⟩, by decide⟩, by decide⟩
      pointed := ⟨⟨trivial, trivial⟩, id⟩
      literals := nofun }

/-- `!(a == b)` is written as `!a == b`, which compares `!a` with `b`. -/
theorem negated_comparison_not_read_back : ¬∀ text offset e, parse text offset = .ok e →
    ∃ again, parse e.print offset = .ok again ∧ again.unspanned = e.unspanned := by
  intro h
  have hlex : lex "!(a == b)".toList 0 = .ok [⟨.not, ⟨0, 1⟩⟩, ⟨.openParen, ⟨1, 2⟩⟩,
      ⟨.name "a", ⟨2, 3⟩⟩, ⟨.operator (.comparison .eq), ⟨4, 6⟩⟩, ⟨.name "b", ⟨7, 8⟩⟩,
      ⟨.closeParen, ⟨8, 9⟩⟩, ⟨.finish, ⟨9, 9⟩⟩] := by decide
  have hlex' : lex "!a == b".toList 0 = .ok [⟨.not, ⟨0, 1⟩⟩, ⟨.name "a", ⟨1, 2⟩⟩,
      ⟨.operator (.comparison .eq), ⟨3, 5⟩⟩, ⟨.name "b", ⟨6, 7⟩⟩, ⟨.finish, ⟨7, 7⟩⟩] := by
    decide
  obtain ⟨again, hagain, hsame⟩ := h _ _ _ (parse_of_lex hlex rfl)
  change parse "!a == b".toList 0 = .ok again at hagain
  rw [parse_of_lex hlex' rfl] at hagain
  cases hagain
  cases hsame

end LiveJson.Expr

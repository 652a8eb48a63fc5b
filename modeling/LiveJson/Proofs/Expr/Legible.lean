import LiveJson.Expr.Printer
import LiveJson.Proofs.Expr.Grammar

/-! # Which texts of expressions need more parentheses

The text of an expression has parentheses around logical and arithmetic operations only. Its tokens
are a sentence for the same expression exactly if no operand holds together less tightly than its
place asks for: a comparison does not stand behind a prefix operator, in front of an access or next
to an operator that binds tighter, and a prefix operation does not stand in front of an access.

Sentences for one expression differ in their parentheses only. So the tokens that are no parentheses
tell where an operand ends, and whether something stands in parentheses can be counted. -/

namespace LiveJson.Expr

/-- The least precedence that the text of the expression shows outside of parentheses and brackets.
Accesses, and what is a single token or stands in parentheses, bind tighter than any operator. -/
def strength : Expr → Nat
  | not .. | negate .. => Operator.tightest
  | binary _ (.comparison op) _ _ => (Operator.comparison op).precedence
  | _ => Operator.tightest + 1

/-- Every operand holds together as tightly as its place asks for. -/
def Grouped : Expr → Prop
  | literal .. | subject .. | binding .. => True
  | member _ object _ => object.Grouped ∧ Operator.tightest < object.strength
  | index _ object key => object.Grouped ∧ key.Grouped ∧ Operator.tightest < object.strength
  | not _ operand | negate _ operand => operand.Grouped ∧ Operator.tightest ≤ operand.strength
  | binary _ op left right =>
    left.Grouped ∧ right.Grouped ∧ op.precedence ≤ left.strength ∧ op.precedence < right.strength

@[simp]
def literals : Expr → List Literal
  | literal _ value => [value]
  | subject .. | binding .. => []
  | member _ object _ => object.literals
  | index _ object key => object.literals ++ key.literals
  | not _ operand | negate _ operand => operand.literals
  | binary _ _ left right => left.literals ++ right.literals

/-- The character is written as itself, or with a letter that strings can have. -/
def shows (c : Char) : Bool := !Text.isHidden c || c == '\n' || c == '\r' || c == '\t'

/-- The literal is written so that it can be read. -/
def Literal.Legible : Literal → Prop
  | number value => Decimal.isFinite value = true
  | string text => ∀ c ∈ text.toList, shows c = true
  | _ => True

/-- The text of the expression ends in a number that is written without a point. -/
def Unpointed : Expr → Prop
  | literal _ (.number value) => '.' ∉ Decimal.plain value
  | not _ operand | negate _ operand => operand.Unpointed
  | binary _ (.comparison _) _ right => right.Unpointed
  | _ => False

/-- No dot stands behind a number that would take it as its point. -/
@[simp]
def Pointed : Expr → Prop
  | literal .. | subject .. | binding .. => True
  | member _ object _ => object.Pointed ∧ ¬object.Unpointed
  | index _ object key => object.Pointed ∧ key.Pointed
  | not _ operand | negate _ operand => operand.Pointed
  | binary _ _ left right => left.Pointed ∧ right.Pointed

/-- What can be read back from the text of an expression. -/
structure Legible (e : Expr) : Prop where
  grouped : e.Grouped
  pointed : e.Pointed
  literals : ∀ v ∈ e.literals, v.Legible

/-! ## The tokens of a text -/

/-- The token that the text of a literal is meant to be. -/
def Literal.kind : Literal → Token.Kind
  | undefined => .undefined
  | null => .null
  | bool value => if value then .true else .false
  | number value => .number (String.ofList (Decimal.plain value))
  | string value => .string .double (String.ofList (value.toList.flatMap escapeChar))

def tokens : Expr → List Token.Kind
  | literal _ value => [value.kind]
  | subject _ which => [.subject which]
  | binding _ name => [.name name]
  | member _ object name => object.tokens ++ [.dot, .name name]
  | index _ object key => object.tokens ++ .openBracket :: (key.tokens ++ [.closeBracket])
  | not _ operand => .not :: operand.tokens
  | negate _ operand => .operator (.arithmetic .subtract) :: operand.tokens
  | binary _ (.comparison op) left right =>
    left.tokens ++ .operator (.comparison op) :: right.tokens
  | binary _ op left right =>
    .openParen :: (left.tokens ++ .operator op :: (right.tokens ++ [.closeParen]))

@[simp]
theorem tokens_unspanned (e : Expr) : e.unspanned.tokens = e.tokens := by
  induction e with
  | literal | subject | binding => rfl
  | member _ _ _ ih | not _ _ ih | negate _ _ ih => simp only [unspanned, tokens, ih]
  | index _ _ _ ih ihkey => simp only [unspanned, tokens, ih, ihkey]
  | binary _ op _ _ ihl ihr => cases op <;> simp only [unspanned, tokens, ihl, ihr]

variable {level : Level} {kind kind' : Token.Kind} {ks js ls rs : List Token.Kind} {e t : Expr}
  {op : Operator} {n m : Nat}

/-- Tokens in `n` pairs of parentheses. -/
def enclose (n : Nat) (ks : List Token.Kind) : List Token.Kind :=
  List.replicate n .openParen ++ (ks ++ List.replicate n .closeParen)

@[simp]
theorem enclose_zero (ks : List Token.Kind) : enclose 0 ks = ks := by simp [enclose]

theorem enclose_succ (n : Nat) (ks : List Token.Kind) :
    enclose (n + 1) ks = .openParen :: (enclose n ks ++ [.closeParen]) := by
  rw [enclose, List.replicate_succ, List.replicate_succ', enclose]
  simp only [List.cons_append, List.append_assoc]

/-- The parentheses that the text of an operation has around it. -/
def Operator.parens : Operator → Nat
  | comparison _ => 0
  | logical _ | arithmetic _ => 1

theorem tokens_binary (span : Span) (op : Operator) (left right : Expr) :
    (binary span op left right).tokens =
      enclose op.parens (left.tokens ++ .operator op :: right.tokens) := by
  cases op <;> simp [tokens, enclose, Operator.parens]

/-! ## Operands that hold together -/

theorem one_le_strength (e : Expr) : 1 ≤ e.strength := by
  cases e with
  | binary _ op _ _ => cases op with
    | comparison op => exact Operator.precedence_pos _
    | _ => exact Nat.le_add_left _ _
  | _ => exact Nat.le_add_left _ _

/-- An operator between sentences of its level and of the next one. -/
theorem Operator.joined {left right : Expr} (op : Operator)
    (hleft : ∀ level : Level, level.rank = op.precedence → Derives level ls left)
    (hright : ∀ level : Level, level.rank = op.precedence + 1 → Derives level rs right) :
    ∃ level : Level, level.rank = op.precedence ∧
      Derives level (ls ++ .operator op :: rs) (.binary noSpan op left right) := by
  obtain ⟨level, hlevel⟩ := op.exists_level
  have hnext := Level.next_above (hlevel ▸ op.precedence_le)
  refine ⟨level, hlevel, .binary (Level.mem_operators.mpr hlevel.symm) hnext
    (hleft level hlevel) ?_⟩
  exact hright _ (hlevel ▸ Level.rank_next hnext)

theorem Atom.derives (h : Atom kind t) : Derives level [kind] t :=
  (Derives.atom h).lower (by cases level <;> decide)

/-- The tokens of a text whose operands hold together are a sentence. -/
theorem derives_tokens (hgrouped : e.Grouped)
    (hliterals : ∀ v ∈ e.literals, Atom v.kind (.literal noSpan v))
    (hlevel : level.rank ≤ e.strength) :
    Derives level e.tokens e.unspanned := by
  induction e generalizing level with
  | literal span value => exact (hliterals value List.mem_cons_self).derives
  | subject span which => exact (Atom.subject which).derives
  | binding span name => exact (Atom.name name).derives
  | member span object name ih =>
    obtain ⟨hobject, hstrength⟩ := hgrouped
    exact (Derives.member (ih hobject hliterals hstrength) name).lower hlevel
  | index span object key ih ihkey =>
    obtain ⟨hobject, hkey, hstrength⟩ := hgrouped
    obtain ⟨hl, hr⟩ := List.forall_mem_append.mp hliterals
    exact (Derives.index (ih hobject hl hstrength) (ihkey hkey hr key.one_le_strength)).lower hlevel
  | not span operand ih =>
    obtain ⟨hoperand, hstrength⟩ := hgrouped
    exact (Derives.not (ih hoperand hliterals hstrength)).lower hlevel
  | negate span operand ih =>
    obtain ⟨hoperand, hstrength⟩ := hgrouped
    exact (Derives.negate (ih hoperand hliterals hstrength)).lower hlevel
  | binary span op left right ihl ihr =>
    obtain ⟨hleft, hright, hstrength, hstrength'⟩ := hgrouped
    obtain ⟨hl, hr⟩ := List.forall_mem_append.mp hliterals
    obtain ⟨own, hown, hsentence⟩ := op.joined (fun level h => ihl hleft hl (h ▸ hstrength))
      (fun level h => ihr hright hr (h ▸ hstrength'))
    rw [tokens_binary]
    cases op with
    | comparison op =>
      rw [Operator.parens, enclose_zero]
      exact hsentence.lower (hown ▸ hlevel)
    | logical op | arithmetic op =>
      rw [Operator.parens, enclose_succ, enclose_zero]
      have hwhole : Derives .disjunction _ _ := hsentence.lower (hown ▸ Operator.precedence_pos _)
      exact (Derives.group hwhole).lower (Nat.le_succ_of_le hlevel)

/-! ## What is inside of all parentheses -/

/-- The sentences that are not in parentheses as a whole, by the rank of their level. -/
inductive Core : Nat → List Token.Kind → Expr → Prop
  | atom {kind : Token.Kind} {e : Expr} (h : Atom kind e) : Core Level.primary.rank [kind] e
  | member {ks : List Token.Kind} {e : Expr} (h : Derives .access ks e) (name : String) :
    Core Level.access.rank (ks ++ [.dot, .name name]) (.member noSpan e name)
  | index {ks js : List Token.Kind} {e key : Expr} (h : Derives .access ks e)
      (hkey : Derives .disjunction js key) :
    Core Level.access.rank (ks ++ .openBracket :: (js ++ [.closeBracket])) (.index noSpan e key)
  | not {ks : List Token.Kind} {e : Expr} (h : Derives .unary ks e) :
    Core Level.unary.rank (.not :: ks) (.not noSpan e)
  | negate {ks : List Token.Kind} {e : Expr} (h : Derives .unary ks e) :
    Core Level.unary.rank (.operator (.arithmetic .subtract) :: ks) (.negate noSpan e)
  | binary {op : Operator} {ls rs : List Token.Kind} {left right : Expr} {own next : Level}
      (hown : own.rank = op.precedence) (hnext : next.rank = op.precedence + 1)
      (hleft : Derives own ls left) (hright : Derives next rs right) :
    Core op.precedence (ls ++ .operator op :: rs) (.binary noSpan op left right)

theorem Derives.core (h : Derives level ks t) :
    ∃ n rank core, ks = enclose n core ∧ Core rank core t ∧ (n = 0 → level.rank ≤ rank) := by
  induction h with
  | pass hnext h ih =>
    obtain ⟨n, rank, core, rfl, hcore, hrank⟩ := ih
    have hlevel := Level.rank_next hnext
    exact ⟨n, rank, core, rfl, hcore, fun hn => by have := hrank hn; omega⟩
  | binary hop hnext hleft hright =>
    have hown := Level.mem_operators.mp hop
    exact ⟨0, _, _, (enclose_zero _).symm,
      .binary hown.symm (by rw [Level.rank_next hnext, hown]) hleft hright,
        fun _ => Nat.le_of_eq hown.symm⟩
  | not h => exact ⟨0, _, _, (enclose_zero _).symm, .not h, fun _ => Nat.le_refl _⟩
  | negate h => exact ⟨0, _, _, (enclose_zero _).symm, .negate h, fun _ => Nat.le_refl _⟩
  | member h name => exact ⟨0, _, _, (enclose_zero _).symm, .member h name, fun _ => Nat.le_refl _⟩
  | index h hkey => exact ⟨0, _, _, (enclose_zero _).symm, .index h hkey, fun _ => Nat.le_refl _⟩
  | atom h => exact ⟨0, _, _, (enclose_zero _).symm, .atom h, fun _ => Nat.le_refl _⟩
  | group h ih =>
    obtain ⟨n, rank, core, rfl, hcore, -⟩ := ih
    exact ⟨n + 1, rank, core, (enclose_succ n core).symm, hcore, nofun⟩

/-! ## Counting tokens -/

def isParen : Token.Kind → Bool
  | .openParen | .closeParen => true
  | _ => false

theorem countP_enclose {p : Token.Kind → Bool} (hopen : p .openParen = false)
    (hclose : p .closeParen = false) (n : Nat) (ks : List Token.Kind) :
    (enclose n ks).countP p = ks.countP p := by
  simp [enclose, hopen, hclose, List.countP_append, List.countP_replicate]

/-- Tokens that are no parentheses are as many in every sentence for an expression. -/
theorem Derives.countP {p : Token.Kind → Bool} (hopen : p .openParen = false)
    (hclose : p .closeParen = false)
    (hatom : ∀ {kind t}, Atom kind t → t.tokens.countP p = [kind].countP p)
    (h : Derives level ks t) : ks.countP p = t.tokens.countP p := by
  induction h with
  | pass _ _ ih => exact ih
  | @binary _ _ op _ _ _ _ _ _ _ _ ihl ihr =>
    rw [tokens_binary, countP_enclose hopen hclose, List.countP_append, List.countP_append,
      List.countP_cons, List.countP_cons, ihl, ihr]
  | not _ ih | negate _ ih => simp only [tokens, List.countP_cons, ih]
  | member _ _ ih => simp only [tokens, List.countP_append, ih]
  | index _ _ ih ihkey => simp only [tokens, List.countP_append, List.countP_cons, ih, ihkey]
  | atom h => exact (hatom h).symm
  | group _ ih => simpa [List.countP_cons, List.countP_append, hopen, hclose] using ih

/-- A sentence has as many opening parentheses as closing ones. -/
theorem Derives.count_parens (h : Derives level ks t) :
    ks.count .openParen = ks.count .closeParen := by
  induction h with
  | atom h => cases h <;> rfl
  | _ => simp_all [List.count_append]

theorem count_tokens (e : Expr) : e.tokens.count .openParen = e.tokens.count .closeParen := by
  induction e with
  | literal _ value => cases value <;> first | rfl | (rename_i b; cases b <;> rfl)
  | subject | binding => rfl
  | binary _ op _ _ ihl ihr => cases op <;> simp [tokens, List.count_append] <;> omega
  | _ => simp_all [tokens, List.count_append]

/-- Where two lists are split behind equally many tokens of a kind, they are split alike. -/
theorem append_inj_of_countP {p : Token.Kind → Bool}
    (hkind : p kind = true) (hkind' : p kind' = true)
    (h : ls ++ kind :: rs = ks ++ kind' :: js) (hcount : ls.countP p = ks.countP p) :
    ls = ks ∧ kind = kind' ∧ rs = js := by
  induction ls generalizing ks with
  | nil =>
    cases ks with
    | nil => simpa using h
    | cons k ks =>
      obtain ⟨rfl, -⟩ := List.cons.inj h
      simp [hkind] at hcount
  | cons l ls ih =>
    cases ks with
    | nil =>
      obtain ⟨rfl, -⟩ := List.cons.inj h
      simp [hkind'] at hcount
    | cons k ks =>
      obtain ⟨rfl, htail⟩ := List.cons.inj h
      obtain ⟨rfl, hrest⟩ := ih htail (by simpa [List.countP_cons] using hcount)
      exact ⟨rfl, hrest⟩

/-! ## What parentheses an expression has -/

theorem eq_of_cons_eq_enclose (hkind : isParen kind = false) (h : kind :: ks = enclose n js) :
    n = 0 ∧ js = kind :: ks := by
  cases n with
  | zero => exact ⟨rfl, by rw [h, enclose_zero]⟩
  | succ n =>
    rw [enclose_succ] at h
    obtain ⟨rfl, -⟩ := List.cons.inj h
    cases hkind

theorem eq_of_concat_eq_enclose (hkind : isParen kind = false) (h : ks ++ [kind] = enclose n js) :
    n = 0 ∧ js = ks ++ [kind] := by
  cases n with
  | zero => exact ⟨rfl, by rw [h, enclose_zero]⟩
  | succ n =>
    rw [enclose_succ, ← List.cons_append] at h
    obtain ⟨-, hlast⟩ := List.append_inj' h rfl
    cases hlast
    cases hkind

/-- An operation whose left operand is known has its operands and its parentheses. -/
theorem eq_of_enclose_eq_enclose
    (h : enclose m (ls ++ .operator op :: rs) = enclose n (ks ++ .operator op :: js))
    (hcount : ls.countP (!isParen ·) = ks.countP (!isParen ·))
    (hls : ls.count .openParen = ls.count .closeParen)
    (hks : ks.count .openParen = ks.count .closeParen) : m = n ∧ ls = ks ∧ rs = js := by
  have hsplit :
      (List.replicate m .openParen ++ ls) ++ .operator op :: (rs ++ List.replicate m .closeParen) =
        (List.replicate n .openParen ++ ks) ++
          .operator op :: (js ++ List.replicate n .closeParen) := by
    simpa [enclose] using h
  obtain ⟨hfront, -, hback⟩ := append_inj_of_countP (p := (!isParen ·)) rfl rfl hsplit
    (by simpa [List.countP_append, List.countP_replicate, isParen] using hcount)
  have hopen := congrArg (List.count .openParen) hfront
  have hclose := congrArg (List.count .closeParen) hfront
  simp only [List.count_append, List.count_replicate_self, List.count_replicate] at hopen hclose
  obtain rfl : m = n := by simp at hclose; omega
  exact ⟨rfl, List.append_cancel_left hfront, List.append_cancel_right hback⟩

theorem countP_of_derives (h : Derives level ks e.unspanned) :
    e.tokens.countP (!isParen ·) = ks.countP (!isParen ·) := by
  rw [← tokens_unspanned e]
  refine (h.countP rfl rfl fun hatom => ?_).symm
  cases hatom <;> rfl

theorem isParen_kind (v : Literal) : isParen v.kind = false := by
  cases v with
  | bool b => cases b <;> rfl
  | _ => rfl

/-- A text whose tokens are a sentence for the expression has the parentheses it needs. -/
theorem grouped_of_derives (h : Derives level e.tokens e.unspanned) :
    e.Grouped ∧ (∀ v ∈ e.literals, Atom v.kind (.literal noSpan v)) ∧
      (level.rank ≤ Level.access.rank → level.rank ≤ e.strength) := by
  induction e generalizing level with
  | literal span value =>
    obtain ⟨n, rank, core, hks, hcore, -⟩ := h.core
    cases hcore with
    | atom hatom =>
      obtain ⟨rfl, hkind⟩ := eq_of_cons_eq_enclose (isParen_kind value) hks
      cases hkind
      exact ⟨trivial, List.forall_mem_singleton.mpr hatom, id⟩
  | subject | binding => exact ⟨trivial, nofun, id⟩
  | member span object name ih =>
    obtain ⟨n, rank, core, hks, hcore, -⟩ := h.core
    cases hcore with
    | atom hatom => cases hatom
    | @member ks _ hobject =>
      -- The text ends in a name, so nothing stands in parentheses as a whole.
      have hks' : (object.tokens ++ [.dot]) ++ [.name name] =
          enclose n (ks ++ [.dot, .name name]) := by
        simpa [tokens] using hks
      obtain ⟨rfl, heq⟩ := eq_of_concat_eq_enclose rfl hks'
      obtain rfl : ks = object.tokens := by simpa using heq
      obtain ⟨hgrouped, hliterals, hstrength⟩ := ih hobject
      exact ⟨⟨hgrouped, hstrength (Nat.le_refl _)⟩, hliterals, id⟩
  | index span object key ih ihkey =>
    obtain ⟨n, rank, core, hks, hcore, -⟩ := h.core
    cases hcore with
    | atom hatom => cases hatom
    | @index ks js _ _ hobject hkey =>
      have hks' : (object.tokens ++ .openBracket :: key.tokens) ++ [.closeBracket] =
          enclose n (ks ++ .openBracket :: (js ++ [.closeBracket])) := by
        simpa [tokens] using hks
      obtain ⟨rfl, heq⟩ := eq_of_concat_eq_enclose rfl hks'
      obtain ⟨rfl, -, hjs⟩ := append_inj_of_countP (p := (!isParen ·)) rfl rfl
        (heq.trans (List.append_assoc ..)) (countP_of_derives hobject).symm
      obtain rfl := List.append_cancel_right hjs
      obtain ⟨hgrouped, hliterals, hstrength⟩ := ih hobject
      obtain ⟨hgrouped', hliterals', -⟩ := ihkey hkey
      exact ⟨⟨hgrouped, hgrouped', hstrength (Nat.le_refl _)⟩,
        List.forall_mem_append.mpr ⟨hliterals, hliterals'⟩, id⟩
  | not span operand ih =>
    obtain ⟨n, rank, core, hks, hcore, hrank⟩ := h.core
    cases hcore with
    | atom hatom => cases hatom
    | not hoperand =>
      obtain ⟨rfl, heq⟩ := eq_of_cons_eq_enclose rfl hks
      cases heq
      obtain ⟨hgrouped, hliterals, hstrength⟩ := ih hoperand
      exact ⟨⟨hgrouped, hstrength (by decide)⟩, hliterals, fun _ => hrank rfl⟩
  | negate span operand ih =>
    obtain ⟨n, rank, core, hks, hcore, hrank⟩ := h.core
    cases hcore with
    | atom hatom => cases hatom
    | negate hoperand =>
      obtain ⟨rfl, heq⟩ := eq_of_cons_eq_enclose rfl hks
      cases heq
      obtain ⟨hgrouped, hliterals, hstrength⟩ := ih hoperand
      exact ⟨⟨hgrouped, hstrength (by decide)⟩, hliterals, fun _ => hrank rfl⟩
  | binary span op left right ihl ihr =>
    obtain ⟨n, rank, core, hks, hcore, hrank⟩ := h.core
    cases hcore with
    | atom hatom => cases hatom
    | @binary _ ls rs _ _ own next hown hnext hleft hright =>
      rw [tokens_binary] at hks
      -- The sentence has the tokens of the text but for parentheses, so the operator is where as
      -- many of them stand in front of it.
      obtain ⟨rfl, rfl, rfl⟩ := eq_of_enclose_eq_enclose hks (countP_of_derives hleft)
        (count_tokens left) hleft.count_parens
      obtain ⟨hgrouped, hliterals, hstrength⟩ := ihl hleft
      obtain ⟨hgrouped', hliterals', hstrength'⟩ := ihr hright
      have hle := op.precedence_le
      have hlong : Level.access.rank = 8 := rfl
      refine ⟨⟨hgrouped, hgrouped', ?_, ?_⟩, List.forall_mem_append.mpr ⟨hliterals, hliterals'⟩,
        fun hlevel => ?_⟩
      · rw [← hown]; exact hstrength (by omega)
      · have := hstrength' (by omega); omega
      · cases op with
        | comparison op => exact hrank rfl
        | logical | arithmetic => exact hlevel

/-- **The tokens of a text are a sentence for the expression exactly if its operands hold together
and each literal is the one of its token.** -/
theorem derives_tokens_iff : Derives .disjunction e.tokens e.unspanned ↔
    e.Grouped ∧ ∀ v ∈ e.literals, Atom v.kind (.literal noSpan v) := by
  refine ⟨fun h => ?_, fun ⟨hgrouped, hliterals⟩ =>
    derives_tokens hgrouped hliterals e.one_le_strength⟩
  obtain ⟨hgrouped, hliterals, -⟩ := grouped_of_derives h
  exact ⟨hgrouped, hliterals⟩

end LiveJson.Expr

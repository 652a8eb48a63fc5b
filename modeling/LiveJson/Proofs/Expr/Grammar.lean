import LiveJson.Expr.Parser

/-! # The grammar of expressions

An expression is a sentence of nine levels: six of binary operators, from `||`, which binds least, to
the multiplicative ones, then the operators in front of an operand, the accesses behind one, and the
primary expressions. A binary operator has an operand of its own level on its left and one of the
next level on its right, so that all of them group to the left. Sentences are lists of token kinds,
and the spans of their trees are empty. -/

namespace LiveJson.Expr

inductive Level where
  | disjunction
  | conjunction
  | equality
  | relational
  | additive
  | multiplicative
  | unary
  | access
  | primary
deriving DecidableEq, Repr

namespace Level

def next? : Level → Option Level
  | disjunction => some conjunction
  | conjunction => some equality
  | equality => some relational
  | relational => some additive
  | additive => some multiplicative
  | multiplicative => some unary
  | unary => some access
  | access => some primary
  | primary => none

/-- The binary operators between operands of the level. -/
def operators : Level → List Operator
  | disjunction => [.logical .or]
  | conjunction => [.logical .and]
  | equality => [.comparison .eq, .comparison .ne, .comparison .strictEq, .comparison .strictNe]
  | relational => [.comparison .lt, .comparison .le, .comparison .gt, .comparison .ge]
  | additive => [.arithmetic .add, .arithmetic .subtract]
  | multiplicative => [.arithmetic .multiply, .arithmetic .divide, .arithmetic .remainder]
  | unary | access | primary => []

end Level

def noSpan : Span := ⟨0, 0⟩

/-- The single tokens that are expressions. A number has to be readable, and the escapes of a string
have to be valid. -/
inductive Atom : Token.Kind → Expr → Prop
  | undefined : Atom .undefined (.literal noSpan .undefined)
  | null : Atom .null (.literal noSpan .null)
  | true : Atom .true (.literal noSpan (.bool true))
  | false : Atom .false (.literal noSpan (.bool false))
  | number {text : String} {value : Float} (h : Decimal.read text.toList = some value) :
      Atom (.number text) (.literal noSpan (.number value))
  | string {quote : Quote} {text : String} {value : List Char}
      (h : unescape text.toList = .ok value) :
      Atom (.string quote text) (.literal noSpan (.string (String.ofList value)))
  | subject (which : Subject) : Atom (.subject which) (.subject noSpan which)
  | name (text : String) : Atom (.name text) (.binding noSpan text)

/-- The sentences of each level, with their trees. -/
inductive Derives : Level → List Token.Kind → Expr → Prop
  | pass {level next : Level} {ks : List Token.Kind} {e : Expr} (hnext : level.next? = some next)
      (h : Derives next ks e) : Derives level ks e
  | binary {level next : Level} {op : Operator} {ls rs : List Token.Kind} {left right : Expr}
      (hop : op ∈ level.operators) (hnext : level.next? = some next)
      (hleft : Derives level ls left) (hright : Derives next rs right) :
      Derives level (ls ++ .operator op :: rs) (.binary noSpan op left right)
  | not {ks : List Token.Kind} {e : Expr} (h : Derives .unary ks e) :
      Derives .unary (.not :: ks) (.not noSpan e)
  | negate {ks : List Token.Kind} {e : Expr} (h : Derives .unary ks e) :
      Derives .unary (.operator (.arithmetic .subtract) :: ks) (.negate noSpan e)
  | member {ks : List Token.Kind} {e : Expr} (h : Derives .access ks e) (name : String) :
      Derives .access (ks ++ [.dot, .name name]) (.member noSpan e name)
  | index {ks js : List Token.Kind} {e key : Expr} (h : Derives .access ks e)
      (hkey : Derives .disjunction js key) :
      Derives .access (ks ++ .openBracket :: (js ++ [.closeBracket])) (.index noSpan e key)
  | atom {kind : Token.Kind} {e : Expr} (h : Atom kind e) : Derives .primary [kind] e
  | group {ks : List Token.Kind} {e : Expr} (h : Derives .disjunction ks e) :
      Derives .primary (.openParen :: (ks ++ [.closeParen])) e

/-- The kinds of the tokens before the end marker. -/
def sentence (ts : List Token) : List Token.Kind := (ts.map (·.kind)).takeWhile (· ≠ .finish)

/-! ## Levels by number -/

namespace Level

/-- Higher ranks bind tighter. -/
def rank : Level → Nat
  | disjunction => 1
  | conjunction => 2
  | equality => 3
  | relational => 4
  | additive => 5
  | multiplicative => 6
  | unary => 7
  | access => 8
  | primary => 9

theorem rank_next {level next : Level} (h : level.next? = some next) :
    next.rank = level.rank + 1 := by
  cases level <;> cases h <;> rfl

theorem rank_inj {level level' : Level} (h : level.rank = level'.rank) : level = level' := by
  cases level <;> cases level' <;> first | rfl | cases h

/-- The operators of a level are those of its precedence. -/
theorem mem_operators {level : Level} {op : Operator} :
    op ∈ level.operators ↔ op.precedence = level.rank := by
  rcases op with (_ | _) | (_ | _ | _ | _ | _ | _ | _ | _) | (_ | _ | _ | _ | _) <;>
    cases level <;> decide

/-- The level of what binds tighter than operators of precedence `min`. -/
def above : Nat → Level
  | 0 => disjunction
  | 1 => conjunction
  | 2 => equality
  | 3 => relational
  | 4 => additive
  | 5 => multiplicative
  | _ => unary

theorem rank_above : ∀ min ≤ 6, (above min).rank = min + 1 := by decide

theorem above_of_six_le {min : Nat} (h : 6 ≤ min) : above min = unary := by
  unfold above
  split <;> first | rfl | omega

theorem rank_above_le (min : Nat) : (above min).rank ≤ min + 1 := by
  by_cases h : min ≤ 6
  · exact Nat.le_of_eq (rank_above min h)
  · rw [above_of_six_le (by omega), rank]
    omega

/-- What stands on the right of an operator of the level. -/
theorem next_above {level : Level} (h : level.rank ≤ 6) : level.next? = some (above level.rank) := by
  cases level <;> first | rfl | exact absurd h (by decide)

theorem exists_next {level level' : Level} (h : level.rank < level'.rank) :
    ∃ next, level.next? = some next := by
  cases level with
  | primary => cases level' <;> exact absurd h (by decide)
  | _ => exact ⟨_, rfl⟩

end Level

theorem Operator.precedence_pos (op : Operator) : 0 < op.precedence := by
  rcases op with (_ | _) | (_ | _ | _ | _ | _ | _ | _ | _) | (_ | _ | _ | _ | _) <;> decide

theorem Operator.precedence_le (op : Operator) : op.precedence ≤ 6 := by
  rcases op with (_ | _) | (_ | _ | _ | _ | _ | _ | _ | _) | (_ | _ | _ | _ | _) <;> decide

theorem Operator.exists_level (op : Operator) : ∃ level : Level, level.rank = op.precedence := by
  have := op.precedence_pos
  have := op.precedence_le
  exact ⟨.above (op.precedence - 1), by rw [Level.rank_above _ (by omega)]; omega⟩

/-- A sentence of a level is one of each level that binds less. -/
theorem Derives.lower {level level' : Level} {ks : List Token.Kind} {e : Expr}
    (h : Derives level' ks e) (hle : level.rank ≤ level'.rank) : Derives level ks e := by
  induction hn : level'.rank - level.rank generalizing level with
  | zero =>
    obtain rfl := Level.rank_inj (show level.rank = level'.rank by omega)
    exact h
  | succ n ih =>
    obtain ⟨next, hnext⟩ := Level.exists_next (show level.rank < level'.rank by omega)
    have hrank := Level.rank_next hnext
    exact .pass hnext (ih (by omega) (by omega))

/-- No sentence contains an end marker. -/
theorem Derives.not_mem_finish {level : Level} {ks : List Token.Kind} {e : Expr}
    (h : Derives level ks e) : Token.Kind.finish ∉ ks := by
  induction h with
  | atom h => cases h <;> simp
  | _ => simp_all

end LiveJson.Expr

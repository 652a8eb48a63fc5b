import LiveJson.Proofs.Expr.Grammar

/-! # The parser reads the grammar

What is read from a list of tokens is a sentence of the grammar with its tree, and every sentence is
read. An expression that is read with some least precedence is a sentence of the level above it and
ends before an operator that binds no tighter; so the left operand of the next operator is a sentence
of the level of that operator. -/

namespace LiveJson.Expr

def kinds (ts : List Token) : List Token.Kind := ts.map (·.kind)

/-- What comes next; past the last token, that is an end marker. -/
def upcoming (ts : List Token) : Token.Kind := (ts.headD Token.ending).kind

theorem exists_of_kinds_cons {kind : Token.Kind} {ks : List Token.Kind} {ts : List Token}
    (h : kinds ts = kind :: ks) : ∃ span ts', ts = ⟨kind, span⟩ :: ts' ∧ kinds ts' = ks := by
  obtain ⟨⟨_, span⟩, ts', rfl, rfl, hts⟩ := List.map_eq_cons_iff.mp h
  exact ⟨span, ts', rfl, hts⟩

theorem exists_of_kinds_append {ks js : List Token.Kind} {ts : List Token}
    (h : kinds ts = ks ++ js) : ∃ before after, ts = before ++ after ∧ kinds before = ks ∧
      kinds after = js := List.map_eq_append_iff.mp h

theorem exists_of_kinds_singleton {kind : Token.Kind} {ts : List Token}
    (h : kinds ts = [kind]) : ∃ span, ts = [⟨kind, span⟩] := by
  obtain ⟨span, ts', rfl, hnil⟩ := exists_of_kinds_cons h
  exact ⟨span, by rw [List.map_eq_nil_iff.mp hnil]⟩

/-- No operator that binds tighter than `min` comes next. -/
def Stops (min : Nat) (ts : List Token) : Prop :=
  ∀ op, upcoming ts = .operator op → op.precedence ≤ min

theorem Stops.mono {min min' : Nat} {ts : List Token} (h : Stops min ts) (hle : min ≤ min') :
    Stops min' ts := fun op hop => Nat.le_trans (h op hop) hle

theorem stops_of_six_le {min : Nat} (h : 6 ≤ min) (ts : List Token) : Stops min ts :=
  fun op _ => Nat.le_trans op.precedence_le h

/-! ## What is read is a sentence -/

/-- Tokens have been taken off `ts` that, behind those of `ks`, make a sentence of the level. -/
def Reads (level : Level) (ks : List Token.Kind) (ts : List Token) (e : Expr) (rest : List Token) :
    Prop :=
  ∃ taken, ts = taken ++ rest ∧ Derives level (ks ++ kinds taken) e.unspanned

variable {level : Level} {ks : List Token.Kind} {ts rest : List Token} {token : Token}
  {e left : Expr} {fuel min : Nat}

theorem Reads.lower (h : Reads level ks ts e rest) {level' : Level}
    (hle : level'.rank ≤ level.rank) : Reads level' ks ts e rest := by
  obtain ⟨taken, hts, he⟩ := h
  exact ⟨taken, hts, he.lower hle⟩

theorem reads_nil (h : Derives level ks e.unspanned) : Reads level ks ts e ts :=
  ⟨[], rfl, by simpa [kinds] using h⟩

/-- What the reading functions promise with the given fuel. -/
structure Sound (fuel : Nat) : Prop where
  expression : ∀ {min ts e rest}, readExpression fuel min ts = .ok (e, rest) →
    Reads (.above min) [] ts e rest ∧ Stops min rest
  operators : ∀ {level ks min left ts e rest}, Derives level ks left.unspanned →
    (Level.above min).rank ≤ level.rank → Stops level.rank ts →
    readOperators fuel min left ts = .ok (e, rest) →
    Reads (.above min) ks ts e rest ∧ Stops min rest
  operand : ∀ {ts e rest}, readOperand fuel ts = .ok (e, rest) → Reads .unary [] ts e rest
  primary : ∀ {ts e rest}, readPrimary fuel ts = .ok (e, rest) → Reads .primary [] ts e rest
  accesses : ∀ {ks left ts e rest}, Derives .access ks left.unspanned →
    readAccesses fuel left ts = .ok (e, rest) → Reads .access ks ts e rest

theorem atom_of_ofToken (h : ofToken token = .ok e) : Atom token.kind e.unspanned := by
  obtain ⟨kind, span⟩ := token
  unfold ofToken at h
  cases kind <;> dsimp only at h
  case number text =>
    split at h
    · next value hvalue => cases h; exact .number hvalue
    · cases h
  case string quote text =>
    split at h
    · next value hvalue => cases h; exact .string hvalue
    · cases h
  all_goals first | (cases h; constructor) | cases h

theorem Sound.succ_expression (h : Sound fuel)
    (hread : readExpression (fuel + 1) min ts = .ok (e, rest)) :
    Reads (.above min) [] ts e rest ∧ Stops min rest := by
  unfold readExpression at hread
  obtain ⟨⟨left, ts'⟩, hleft, hrest⟩ := bind_eq_ok.mp hread
  obtain ⟨taken, rfl, hsentence⟩ := h.operand hleft
  have hrank : (Level.above min).rank ≤ Level.unary.rank := by
    by_cases hmin : min ≤ 6
    · rw [Level.rank_above min hmin]
      exact Nat.succ_le_succ hmin
    · exact Nat.le_of_eq (congrArg Level.rank (Level.above_of_six_le (by omega)))
  obtain ⟨⟨more, rfl, hmore⟩, hstops⟩ :=
    h.operators hsentence hrank (stops_of_six_le (by decide) ts') hrest
  refine ⟨⟨taken ++ more, (List.append_assoc ..).symm, ?_⟩, hstops⟩
  simpa [kinds] using hmore

theorem Sound.succ_operators (h : Sound fuel) (hleft : Derives level ks left.unspanned)
    (hrank : (Level.above min).rank ≤ level.rank) (hnext : Stops level.rank ts)
    (hread : readOperators (fuel + 1) min left ts = .ok (e, rest)) :
    Reads (.above min) ks ts e rest ∧ Stops min rest := by
  unfold readOperators at hread
  split at hread
  · next op span ts =>
    split at hread
    · next hop =>
      cases hread
      refine ⟨reads_nil (hleft.lower hrank), fun op' hop' => ?_⟩
      cases hop'
      exact hop
    · next hop =>
      obtain ⟨⟨right, ts'⟩, hright, hrest⟩ := bind_eq_ok.mp hread
      obtain ⟨⟨taken, rfl, hsentence⟩, hstops⟩ := h.expression hright
      -- the operator stands between a sentence of its level and one of the next
      have hlevel : op.precedence ≤ level.rank := hnext op rfl
      obtain ⟨own, hown⟩ := op.exists_level
      have hbinary := Derives.binary (Level.mem_operators.mpr hown.symm)
        (Level.next_above (hown ▸ op.precedence_le)) (hleft.lower (hown ▸ hlevel))
        (hown ▸ hsentence)
      have habove : (Level.above min).rank ≤ own.rank :=
        Nat.le_trans (Level.rank_above_le min) (by omega)
      obtain ⟨⟨more, rfl, hmore⟩, hend⟩ := h.operators hbinary habove (hown ▸ hstops) hrest
      refine ⟨⟨⟨.operator op, span⟩ :: (taken ++ more), by simp, ?_⟩, hend⟩
      simpa [kinds] using hmore
  · next hkind =>
    cases hread
    refine ⟨reads_nil (hleft.lower hrank), fun op hop => ?_⟩
    cases ts with
    | nil => cases hop
    | cons token ts =>
      obtain ⟨kind, span⟩ := token
      cases hop
      exact (hkind _ _ _ rfl).elim

theorem Sound.succ_operand (h : Sound fuel) (hread : readOperand (fuel + 1) ts = .ok (e, rest)) :
    Reads .unary [] ts e rest := by
  unfold readOperand at hread
  split at hread
  · next span ts =>
    obtain ⟨⟨e', ts'⟩, hoperand, hrest⟩ := bind_eq_ok.mp hread
    cases hrest
    obtain ⟨⟨taken, rfl, hsentence⟩, -⟩ := h.expression hoperand
    exact ⟨⟨.not, span⟩ :: taken, rfl, .not hsentence⟩
  · next span ts =>
    obtain ⟨⟨e', ts'⟩, hoperand, hrest⟩ := bind_eq_ok.mp hread
    cases hrest
    obtain ⟨⟨taken, rfl, hsentence⟩, -⟩ := h.expression hoperand
    exact ⟨⟨.operator (.arithmetic .subtract), span⟩ :: taken, rfl, .negate hsentence⟩
  · obtain ⟨⟨e', ts'⟩, hprimary, hrest⟩ := bind_eq_ok.mp hread
    obtain ⟨taken, rfl, hsentence⟩ := h.primary hprimary
    obtain ⟨more, rfl, hmore⟩ := h.accesses (hsentence.lower (by decide)) hrest
    have haccess : Reads .access [] (taken ++ (more ++ rest)) e rest :=
      ⟨taken ++ more, by simp, by simpa [kinds] using hmore⟩
    exact haccess.lower (by decide)

/-- A token that is there is the first of the rest. -/
theorem eq_cons_of_upcoming {kind : Token.Kind} (h : upcoming ts = kind) (hne : kind ≠ .finish) :
    ts = ⟨kind, (ts.headD Token.ending).span⟩ :: ts.tail := by
  cases ts with
  | nil => exact absurd h.symm hne
  | cons token ts => rw [← h]; rfl

theorem Sound.succ_primary (h : Sound fuel) (hread : readPrimary (fuel + 1) ts = .ok (e, rest)) :
    Reads .primary [] ts e rest := by
  unfold readPrimary at hread
  split at hread
  · next span ts =>
    obtain ⟨⟨e', ts'⟩, hinner, hrest⟩ := bind_eq_ok.mp hread
    obtain ⟨⟨taken, rfl, hsentence⟩, -⟩ := h.expression hinner
    dsimp only at hrest
    split at hrest
    · next hclose =>
      cases hrest
      refine ⟨⟨.openParen, span⟩ :: (taken ++ [⟨.closeParen, (ts'.headD Token.ending).span⟩]), ?_, ?_⟩
      · rw [List.cons_append, List.append_assoc, List.singleton_append,
          ← eq_cons_of_upcoming hclose (by decide)]
      · simpa [kinds] using Derives.group hsentence
    · cases hrest
    · cases hrest
  · obtain ⟨e', hatom, hrest⟩ := bind_eq_ok.mp hread
    cases hrest
    cases ts with
    | nil => cases hatom
    | cons token ts => exact ⟨[token], rfl, .atom (atom_of_ofToken hatom)⟩

theorem Sound.succ_accesses (h : Sound fuel) (hleft : Derives .access ks left.unspanned)
    (hread : readAccesses (fuel + 1) left ts = .ok (e, rest)) : Reads .access ks ts e rest := by
  unfold readAccesses at hread
  split at hread
  · next span ts =>
    dsimp only at hread
    split at hread
    · next name hname =>
      obtain ⟨taken, htail, hmore⟩ := h.accesses (Derives.member hleft name) hread
      refine ⟨⟨.dot, span⟩ :: ⟨.name name, (ts.headD Token.ending).span⟩ :: taken, ?_, ?_⟩
      · rw [List.cons_append, List.cons_append, ← htail,
          ← eq_cons_of_upcoming hname (by simp)]
      · simpa [kinds] using hmore
    · cases hread
  · next span ts =>
    obtain ⟨⟨key, ts'⟩, hkey, hrest⟩ := bind_eq_ok.mp hread
    obtain ⟨⟨taken, rfl, hsentence⟩, -⟩ := h.expression hkey
    dsimp only at hrest
    split at hrest
    · next hclose =>
      obtain ⟨more, htail, hmore⟩ := h.accesses (Derives.index hleft hsentence) hrest
      refine ⟨⟨.openBracket, span⟩ ::
        (taken ++ ⟨.closeBracket, (ts'.headD Token.ending).span⟩ :: more), ?_, ?_⟩
      · rw [List.cons_append, List.append_assoc, List.cons_append, ← htail,
          ← eq_cons_of_upcoming hclose (by decide)]
      · simpa [kinds] using hmore
    · cases hrest
    · cases hrest
  · cases hread
    exact reads_nil hleft

theorem sound : ∀ fuel, Sound fuel
  | 0 =>
    { expression := fun h => by cases h
      operators := fun _ _ _ h => by cases h
      operand := fun h => by cases h
      primary := fun h => by cases h
      accesses := fun _ h => by cases h }
  | fuel + 1 =>
    { expression := (sound fuel).succ_expression
      operators := (sound fuel).succ_operators
      operand := (sound fuel).succ_operand
      primary := (sound fuel).succ_primary
      accesses := (sound fuel).succ_accesses }

/-! ## Every sentence is read

The tokens of a sentence bound the calls that reading it takes, whatever comes behind them. A loop
that has read part of a sentence goes on with what is left of its fuel. -/

/-- No access comes next. -/
structure Apart (ts : List Token) : Prop where
  ne_dot : upcoming ts ≠ .dot
  ne_openBracket : upcoming ts ≠ .openBracket

variable {t right : Expr} {n : Nat} {js : List Token.Kind}

def ReadsPrimary (ks : List Token.Kind) (t : Expr) : Prop :=
  ∀ fuel ts rest, kinds ts = ks → 4 * ts.length ≤ fuel + 3 →
    ∃ e, e.unspanned = t ∧ readPrimary fuel (ts ++ rest) = .ok (e, rest)

def ReadsAccess (ks : List Token.Kind) (t : Expr) : Prop :=
  ∀ fuel ts rest, kinds ts = ks → 4 * ts.length ≤ fuel + 2 →
    ∃ e left, e.unspanned = t ∧ readOperand fuel (ts ++ rest) = readAccesses left e rest ∧
      fuel ≤ left + ts.length

def ReadsUnary (ks : List Token.Kind) (t : Expr) : Prop :=
  ∀ fuel ts rest, kinds ts = ks → Apart rest → 4 * ts.length ≤ fuel + 1 →
    ∃ e, e.unspanned = t ∧ readOperand fuel (ts ++ rest) = .ok (e, rest)

/-- Operands joined by operators of precedence `n` and above. -/
def ReadsJoined (n : Nat) (ks : List Token.Kind) (t : Expr) : Prop :=
  ∀ min fuel ts rest, min < n → kinds ts = ks → Apart rest → Stops n rest →
    4 * ts.length ≤ fuel →
    ∃ e left, e.unspanned = t ∧ readExpression fuel min (ts ++ rest) =
      readOperators (left + 1) min e rest ∧ fuel ≤ left + 1 + ts.length

def Level.Complete : Level → List Token.Kind → Expr → Prop
  | primary => ReadsPrimary
  | access => ReadsAccess
  | unary => ReadsUnary
  | level => ReadsJoined level.rank

theorem Derives.length_pos (h : Derives level ks t) : 0 < ks.length := by
  induction h with
  | pass _ _ ih => exact ih
  | _ => simp only [List.length_append, List.length_cons]; omega

theorem readOperators_stop (h : Stops min ts) : readOperators (n + 1) min e ts = .ok (e, ts) := by
  unfold readOperators
  split
  · next op span ts => rw [if_pos (h op rfl)]
  · rfl

theorem readAccesses_stop (h : Apart ts) : readAccesses (n + 1) e ts = .ok (e, ts) := by
  unfold readAccesses
  split
  · exact absurd rfl h.ne_dot
  · exact absurd rfl h.ne_openBracket
  · rfl

theorem ReadsJoined.ok (h : ReadsJoined n ks t) (fuel : Nat) (ts rest : List Token)
    (hmin : min < n) (hts : kinds ts = ks) (hapart : Apart rest)
    (hstops : Stops min rest) (hfuel : 4 * ts.length ≤ fuel) :
    ∃ e, e.unspanned = t ∧ readExpression fuel min (ts ++ rest) = .ok (e, rest) := by
  obtain ⟨e, left, he, hread, -⟩ :=
    h min fuel ts rest hmin hts hapart (hstops.mono (Nat.le_of_lt hmin)) hfuel
  exact ⟨e, he, hread.trans (readOperators_stop hstops)⟩

/-! ### Primary expressions -/

theorem exists_of_atom (token : Token) (h : Atom token.kind t) :
    ∃ e, ofToken token = .ok e ∧ e.unspanned = t := by
  obtain ⟨kind, span⟩ := token
  unfold ofToken
  dsimp only at h ⊢
  cases h with
  | @number text value h => exact ⟨.literal span (.number value), by simp only [h], rfl⟩
  | @string quote text value h =>
    exact ⟨.literal span (.string (String.ofList value)), by simp only [h], rfl⟩
  | _ => exact ⟨_, rfl, rfl⟩

theorem readsPrimary_atom {kind : Token.Kind} (h : Atom kind t) : ReadsPrimary [kind] t := by
  intro fuel ts rest hts hfuel
  obtain ⟨span, rfl⟩ := exists_of_kinds_singleton hts
  obtain ⟨e, he, ht⟩ := exists_of_atom ⟨kind, span⟩ h
  obtain ⟨fuel, rfl⟩ : ∃ m, fuel = m + 1 := ⟨fuel - 1, by simp at hfuel; omega⟩
  refine ⟨e, ht, ?_⟩
  unfold readPrimary
  split
  · next heq => cases heq; cases h
  · simp only [List.singleton_append, List.headD_cons, List.tail_cons, he]
    rfl

theorem readsPrimary_group (h : ReadsJoined 1 ks t) :
    ReadsPrimary (.openParen :: (ks ++ [.closeParen])) t := by
  intro fuel ts rest hts hfuel
  obtain ⟨span, ts', rfl, htail⟩ := exists_of_kinds_cons hts
  obtain ⟨inner, last, rfl, hinner, hlast⟩ := exists_of_kinds_append htail
  obtain ⟨span', rfl⟩ := exists_of_kinds_singleton hlast
  simp only [List.length_cons, List.length_append, List.length_nil] at hfuel
  obtain ⟨fuel, rfl⟩ : ∃ m, fuel = m + 1 := ⟨fuel - 1, by omega⟩
  obtain ⟨e, he, hread⟩ := h.ok fuel inner (⟨.closeParen, span'⟩ :: rest)
    Nat.one_pos hinner ⟨nofun, nofun⟩ nofun (by omega)
  refine ⟨e, he, ?_⟩
  unfold readPrimary
  simp only [List.cons_append, List.append_assoc, List.nil_append, hread]
  rfl

/-! ### Accesses -/

/-- A primary expression is an operand, up to its accesses. -/
theorem readOperand_of_readPrimary (h : readPrimary fuel ts = .ok (e, rest)) :
    readOperand (fuel + 1) ts = readAccesses fuel e rest := by
  cases fuel with
  | zero => cases h
  | succ fuel =>
    unfold readOperand
    split
    · cases h
    · cases h
    · rw [h]; rfl

theorem ReadsPrimary.access (h : ReadsPrimary ks t) (hpos : 0 < ks.length) : ReadsAccess ks t := by
  intro fuel ts rest hts hfuel
  have hlength : ts.length = ks.length := by rw [← hts, kinds, List.length_map]
  obtain ⟨fuel, rfl⟩ : ∃ m, fuel = m + 1 := ⟨fuel - 1, by omega⟩
  obtain ⟨e, he, hread⟩ := h fuel ts rest hts (by omega)
  exact ⟨e, fuel, he, readOperand_of_readPrimary hread, by omega⟩

theorem ReadsAccess.member (h : ReadsAccess ks t) (name : String) :
    ReadsAccess (ks ++ [.dot, .name name]) (.member noSpan t name) := by
  intro fuel ts rest hts hfuel
  obtain ⟨object, access, rfl, hobject, haccess⟩ := exists_of_kinds_append hts
  obtain ⟨span, last, rfl, hlast⟩ := exists_of_kinds_cons haccess
  obtain ⟨span', rfl⟩ := exists_of_kinds_singleton hlast
  simp only [List.length_cons, List.length_append, List.length_nil] at hfuel ⊢
  obtain ⟨e, left, he, hread, hleft⟩ :=
    h fuel object (⟨.dot, span⟩ :: ⟨.name name, span'⟩ :: rest) hobject (by omega)
  obtain ⟨left, rfl⟩ : ∃ m, left = m + 1 := ⟨left - 1, by omega⟩
  refine ⟨.member ⟨e.span.start, span'.stop⟩ e name, left, by rw [unspanned, he, noSpan], ?_,
    by omega⟩
  rw [List.append_assoc, List.cons_append, List.singleton_append, hread, readAccesses]
  rfl

theorem ReadsAccess.index (h : ReadsAccess ks t) {key : Expr} (hkey : ReadsJoined 1 js key) :
    ReadsAccess (ks ++ .openBracket :: (js ++ [.closeBracket])) (.index noSpan t key) := by
  intro fuel ts rest hts hfuel
  obtain ⟨object, access, rfl, hobject, haccess⟩ := exists_of_kinds_append hts
  obtain ⟨span, bracketed, rfl, hbracketed⟩ := exists_of_kinds_cons haccess
  obtain ⟨inner, last, rfl, hinner, hlast⟩ := exists_of_kinds_append hbracketed
  obtain ⟨span', rfl⟩ := exists_of_kinds_singleton hlast
  simp only [List.length_cons, List.length_append, List.length_nil] at hfuel ⊢
  obtain ⟨e, left, he, hread, hleft⟩ :=
    h fuel object (⟨.openBracket, span⟩ :: (inner ++ ⟨.closeBracket, span'⟩ :: rest)) hobject
      (by omega)
  obtain ⟨left, rfl⟩ : ∃ m, left = m + 1 := ⟨left - 1, by omega⟩
  obtain ⟨key', hkey', hread'⟩ := hkey.ok left inner (⟨.closeBracket, span'⟩ :: rest)
    Nat.one_pos hinner ⟨nofun, nofun⟩ nofun (by omega)
  refine ⟨.index ⟨e.span.start, span'.stop⟩ e key', left, by rw [unspanned, he, hkey', noSpan], ?_,
    by omega⟩
  rw [List.append_assoc, List.cons_append, List.append_assoc, List.singleton_append, hread,
    readAccesses, hread']
  rfl

/-! ### Operators -/

theorem ReadsAccess.unary (h : ReadsAccess ks t) (hpos : 0 < ks.length) : ReadsUnary ks t := by
  intro fuel ts rest hts hapart hfuel
  have hlength : ts.length = ks.length := by rw [← hts, kinds, List.length_map]
  obtain ⟨e, left, he, hread, hleft⟩ := h fuel ts rest hts (by omega)
  obtain ⟨left, rfl⟩ : ∃ m, left = m + 1 := ⟨left - 1, by omega⟩
  exact ⟨e, he, hread.trans (readAccesses_stop hapart)⟩

/-- Reading an operand is reading an expression, up to its operators. -/
theorem ReadsUnary.joined (h : ReadsUnary ks t) (hpos : 0 < ks.length) (n : Nat) :
    ReadsJoined n ks t := by
  intro min fuel ts rest _ hts hapart _ hfuel
  have hlength : ts.length = ks.length := by rw [← hts, kinds, List.length_map]
  obtain ⟨fuel, rfl⟩ : ∃ m, fuel = m + 2 := ⟨fuel - 2, by omega⟩
  obtain ⟨e, he, hread⟩ := h (fuel + 1) ts rest hts hapart (by omega)
  refine ⟨e, fuel, he, ?_, by omega⟩
  rw [readExpression, hread]
  rfl

theorem ReadsUnary.prefixed (h : ReadsUnary ks t) (fuel : Nat) (hpos : 0 < ks.length) (hts : kinds ts = ks)
    (hapart : Apart rest) (hfuel : 4 * ts.length ≤ fuel) :
    ∃ e, e.unspanned = t ∧ readExpression fuel Operator.tightest (ts ++ rest) = .ok (e, rest) :=
  (h.joined hpos (Operator.tightest + 1)).ok fuel ts rest (Nat.lt_succ_self _) hts hapart
    (stops_of_six_le (by decide) rest) hfuel

theorem ReadsUnary.not (h : ReadsUnary ks t) (hpos : 0 < ks.length) :
    ReadsUnary (.not :: ks) (.not noSpan t) := by
  intro fuel ts rest hts hapart hfuel
  obtain ⟨span, ts', rfl, htail⟩ := exists_of_kinds_cons hts
  rw [List.length_cons] at hfuel
  obtain ⟨fuel, rfl⟩ : ∃ m, fuel = m + 1 := ⟨fuel - 1, by omega⟩
  obtain ⟨e, he, hread⟩ := h.prefixed fuel hpos htail hapart (by omega)
  refine ⟨.not ⟨span.start, e.span.stop⟩ e, by rw [unspanned, he, noSpan], ?_⟩
  rw [List.cons_append, readOperand, hread]
  rfl

theorem ReadsUnary.negate (h : ReadsUnary ks t) (hpos : 0 < ks.length) :
    ReadsUnary (.operator (.arithmetic .subtract) :: ks) (.negate noSpan t) := by
  intro fuel ts rest hts hapart hfuel
  obtain ⟨span, ts', rfl, htail⟩ := exists_of_kinds_cons hts
  rw [List.length_cons] at hfuel
  obtain ⟨fuel, rfl⟩ : ∃ m, fuel = m + 1 := ⟨fuel - 1, by omega⟩
  obtain ⟨e, he, hread⟩ := h.prefixed fuel hpos htail hapart (by omega)
  refine ⟨.negate ⟨span.start, e.span.stop⟩ e, by rw [unspanned, he, noSpan], ?_⟩
  rw [List.cons_append, readOperand, hread]
  rfl

/-- An operator joins what has been read with an operand whose operators bind tighter. -/
theorem ReadsJoined.binary {op : Operator} (h : ReadsJoined op.precedence ks t)
    (hright : ReadsJoined (op.precedence + 1) js right) :
    ReadsJoined op.precedence (ks ++ .operator op :: js) (.binary noSpan op t right) := by
  intro min fuel ts rest hmin hts hapart hstops hfuel
  obtain ⟨before, joined, rfl, hbefore, hjoined⟩ := exists_of_kinds_append hts
  obtain ⟨span, after, rfl, hafter⟩ := exists_of_kinds_cons hjoined
  simp only [List.length_cons, List.length_append] at hfuel ⊢
  obtain ⟨e, left, he, hread, hleft⟩ := h min fuel before
    (⟨.operator op, span⟩ :: (after ++ rest)) hmin hbefore ⟨nofun, nofun⟩
    (fun op' hop' => by cases hop'; exact Nat.le_refl _) (by omega)
  obtain ⟨e', he', hread'⟩ := hright.ok left after rest (Nat.lt_succ_self _) hafter
    hapart hstops (by omega)
  obtain ⟨left, rfl⟩ : ∃ m, left = m + 1 := ⟨left - 1, by omega⟩
  refine ⟨.binary (across e e') op e e', left, by rw [unspanned, he, he', noSpan], ?_, by omega⟩
  rw [List.append_assoc, List.cons_append, hread, readOperators]
  dsimp only
  rw [if_neg (Nat.not_le.mpr hmin), hread']
  rfl

/-! ### All levels -/

theorem Level.Complete.joined (h : level.Complete ks t) (hpos : 0 < ks.length)
    (hrank : level.rank ≤ 7) : ReadsJoined level.rank ks t := by
  cases level with
  | primary => exact absurd hrank (by decide)
  | access => exact absurd hrank (by decide)
  | unary => exact ReadsUnary.joined h hpos _
  | _ => exact h

/-- A looser level asks for less to follow. -/
theorem ReadsJoined.lower {n' : Nat} (h : ReadsJoined n' ks t) (hle : n ≤ n') :
    ReadsJoined n ks t := fun min fuel ts rest hmin hts hapart hstops hfuel =>
  h min fuel ts rest (Nat.lt_of_lt_of_le hmin hle) hts hapart (hstops.mono hle) hfuel

theorem Level.Complete.of_joined (h : ReadsJoined level.rank ks t) (hrank : level.rank ≤ 6) :
    level.Complete ks t := by
  cases level with
  | unary | access | primary => exact absurd hrank (by decide)
  | _ => exact h

theorem Level.Complete.pass {next : Level} (hnext : level.next? = some next)
    (h : next.Complete ks t) (hpos : 0 < ks.length) : level.Complete ks t := by
  have hrank := Level.rank_next hnext
  by_cases hbinary : level.rank ≤ 6
  · exact .of_joined ((h.joined hpos (by omega)).lower (by omega)) hbinary
  · cases level with
    | unary => cases hnext; exact ReadsAccess.unary h hpos
    | access => cases hnext; exact ReadsPrimary.access h hpos
    | primary => cases hnext
    | _ => exact absurd (by decide) hbinary

theorem complete (h : Derives level ks t) : level.Complete ks t := by
  induction h with
  | pass hnext h ih => exact ih.pass hnext h.length_pos
  | @binary level next op ls rs left right hop hnext hleft hright ihleft ihright =>
    have hprecedence := Level.mem_operators.mp hop
    have hrank := Level.rank_next hnext
    have hle := op.precedence_le
    refine .of_joined ?_ (by omega)
    have hl := ihleft.joined hleft.length_pos (by omega)
    have hr := ihright.joined hright.length_pos (by omega)
    rw [hrank] at hr
    rw [← hprecedence] at hl hr ⊢
    exact hl.binary hr
  | not h ih => exact ReadsUnary.not ih h.length_pos
  | negate h ih => exact ReadsUnary.negate ih h.length_pos
  | member h name ih => exact ReadsAccess.member ih name
  | index h hkey ih ihkey => exact ReadsAccess.index ih ihkey
  | atom h => exact readsPrimary_atom h
  | group h ih => exact readsPrimary_group ih

/-! ## Whole expressions -/

/-- The tokens before the first end marker, and what is behind them. -/
theorem exists_sentence (ts : List Token) :
    ∃ before rest, ts = before ++ rest ∧ kinds before = sentence ts ∧ upcoming rest = .finish := by
  induction ts with
  | nil => exact ⟨[], [], rfl, rfl, rfl⟩
  | cons token ts ih =>
    by_cases hfinish : token.kind = .finish
    · exact ⟨[], token :: ts, rfl, by simp [sentence, kinds, hfinish], hfinish⟩
    · obtain ⟨before, rest, hts, hbefore, hrest⟩ := ih
      refine ⟨token :: before, rest, by rw [hts]; rfl, ?_, hrest⟩
      have hcons : kinds (token :: before) = token.kind :: kinds before := rfl
      rw [hcons, hbefore]
      simp [sentence, hfinish]

theorem sentence_append {before : List Token} (hbefore : .finish ∉ kinds before)
    (hrest : upcoming rest = .finish) : sentence (before ++ rest) = kinds before := by
  have hall : ∀ kind ∈ kinds before, decide (kind ≠ .finish) = true := fun kind hkind =>
    decide_eq_true fun h => hbefore (h ▸ hkind)
  have hnil : (rest.map (·.kind)).takeWhile (· ≠ .finish) = [] := by
    cases rest with
    | nil => rfl
    | cons token rest => simp [show token.kind = .finish from hrest]
  rw [sentence, List.map_append, ← kinds, List.takeWhile_append_of_pos hall, hnil,
    List.append_nil]

theorem not_readExpression_nil : readExpression fuel min [] ≠ .ok (e, rest) := by
  intro h
  obtain ⟨⟨taken, hnil, hsentence⟩, -⟩ := (sound fuel).expression h
  obtain ⟨rfl, -⟩ := List.append_eq_nil_iff.mp hnil.symm
  exact Nat.lt_irrefl 0 hsentence.length_pos

theorem ofTokens_eq_ok : ofTokens ts = .ok e ↔ upcoming ts ≠ .finish ∧
    ∃ rest, readExpression (4 * (ts.length + 1)) 0 ts = .ok (e, rest) ∧
      upcoming rest = .finish := by
  unfold ofTokens
  split
  · exact ⟨fun h => (by cases h), fun h => absurd rfl h.1⟩
  · next hfinish =>
    refine ⟨fun h => ?_, fun ⟨_, rest, hread, hrest⟩ => ?_⟩
    · obtain ⟨⟨e', rest⟩, hread, hend⟩ := bind_eq_ok.mp h
      dsimp only at hend
      split at hend
      · next hrest =>
        cases hend
        refine ⟨fun hts => ?_, rest, hread, hrest⟩
        cases ts with
        | nil => exact not_readExpression_nil hread
        | cons token ts =>
          obtain ⟨kind, span⟩ := token
          cases hts
          exact hfinish _ _ rfl
      · cases hend
    · rw [upcoming] at hrest
      rw [hread]
      dsimp only [bind, Except.bind]
      rw [hrest]

theorem derives_of_ofTokens (h : ofTokens ts = .ok e) :
    Derives .disjunction (sentence ts) e.unspanned := by
  obtain ⟨-, rest, hread, hrest⟩ := ofTokens_eq_ok.mp h
  obtain ⟨⟨taken, rfl, hsentence⟩, -⟩ := (sound _).expression hread
  rw [sentence_append hsentence.not_mem_finish hrest]
  exact hsentence

theorem exists_ofTokens {t : Expr} (h : Derives .disjunction (sentence ts) t) :
    ∃ e, ofTokens ts = .ok e ∧ e.unspanned = t := by
  obtain ⟨before, rest, hts, hbefore, hrest⟩ := exists_sentence ts
  rw [← hbefore] at h
  have hapart : Apart rest := ⟨by rw [hrest]; decide, by rw [hrest]; decide⟩
  have hstops : Stops 0 rest := fun op hop => by rw [hrest] at hop; cases hop
  obtain ⟨e, he, hread⟩ := ReadsJoined.ok (complete h) (4 * (ts.length + 1)) before rest
    Nat.one_pos rfl hapart hstops (by rw [hts, List.length_append]; omega)
  rw [← hts] at hread
  refine ⟨e, ofTokens_eq_ok.mpr ⟨?_, rest, hread, hrest⟩, he⟩
  obtain ⟨token, before, rfl⟩ : ∃ token before', before = token :: before' :=
    List.exists_cons_of_length_pos (by simpa [kinds] using h.length_pos)
  intro hfinish
  rw [hts] at hfinish
  exact h.not_mem_finish (hfinish ▸ List.mem_cons_self ..)

/-- The tokens before the end marker are read as an expression if and only if they are a sentence
of the grammar, and then as its only tree. -/
theorem ofTokens_iff_derives (ts : List Token) :
    (∀ t, (∃ e, ofTokens ts = .ok e ∧ e.unspanned = t) ↔
      Derives .disjunction (sentence ts) t) ∧
    ∀ t t', Derives .disjunction (sentence ts) t → Derives .disjunction (sentence ts) t' →
      t = t' := by
  refine ⟨fun t => ⟨fun ⟨e, h, ht⟩ => ht ▸ derives_of_ofTokens h, exists_ofTokens⟩,
    fun t t' h h' => ?_⟩
  obtain ⟨e, he, rfl⟩ := exists_ofTokens h
  obtain ⟨e', he', rfl⟩ := exists_ofTokens h'
  rw [Except.ok.inj (he.symm.trans he')]

-- `!a - b - c` is `((!a) - b) - c`
example : (ofTokens ([.not, .name "a", .operator (.arithmetic .subtract), .name "b",
    .operator (.arithmetic .subtract), .name "c"].map (⟨·, noSpan⟩))).map Expr.unspanned =
    .ok (.binary noSpan (.arithmetic .subtract)
      (.binary noSpan (.arithmetic .subtract) (.not noSpan (.binding noSpan "a"))
        (.binding noSpan "b"))
      (.binding noSpan "c")) := rfl

end LiveJson.Expr

import LiveJson.Proofs.Expr.Tokens

/-! # Expressions and the tokens that they are made of

A reader takes tokens off the front and makes a tree of them, in which the span of every node begins
with one of these tokens and ends with one; or it fails, and blames a token. As each token ends before
the next begins, the span of a node holds those of its children. -/

namespace LiveJson.Expr

variable {ts us front taken rest : List Token} {e left right key n : Expr} {token : Token}
  {fuel min : Nat}

def children : Expr → List Expr
  | literal .. | subject .. | binding .. => []
  | member _ object _ => [object]
  | index _ object key => [object, key]
  | not _ operand | negate _ operand => [operand]
  | binary _ _ left right => [left, right]

/-- The expression with all that it consists of. -/
def nodes (e : Expr) : List Expr :=
  e :: match e with
    | literal .. | subject .. | binding .. => []
    | member _ object _ => object.nodes
    | index _ object key => object.nodes ++ key.nodes
    | not _ operand | negate _ operand => operand.nodes
    | binary _ _ left right => left.nodes ++ right.nodes

theorem nodes_eq (e : Expr) : e.nodes = e :: e.children.flatMap nodes := by
  cases e <;> simp [nodes, children]

/-- The tree is made of the tokens, with the spans that come of theirs. -/
inductive Made : List Token → Expr → Prop
  | atom {token : Token} {e : Expr} (h : ofToken token = .ok e) : Made [token] e
  | group {ts : List Token} {e : Expr} (opening closing : Span) (h : Made ts e) :
    Made (⟨.openParen, opening⟩ :: (ts ++ [⟨.closeParen, closing⟩])) e
  | not {ts : List Token} {e : Expr} (sign : Span) (h : Made ts e) :
    Made (⟨.not, sign⟩ :: ts) (.not ⟨sign.start, e.span.stop⟩ e)
  | negate {ts : List Token} {e : Expr} (sign : Span) (h : Made ts e) :
    Made (⟨.operator (.arithmetic .subtract), sign⟩ :: ts) (.negate ⟨sign.start, e.span.stop⟩ e)
  | member {ts : List Token} {e : Expr} (dot last : Span) (name : String) (h : Made ts e) :
    Made (ts ++ [⟨.dot, dot⟩, ⟨.name name, last⟩]) (.member ⟨e.span.start, last.stop⟩ e name)
  | index {ts us : List Token} {e key : Expr} (opening closing : Span) (h : Made ts e)
    (hkey : Made us key) :
    Made (ts ++ ⟨.openBracket, opening⟩ :: (us ++ [⟨.closeBracket, closing⟩]))
      (.index ⟨e.span.start, closing.stop⟩ e key)
  | binary {ts us : List Token} {left right : Expr} (sign : Span) (op : Operator)
    (hleft : Made ts left) (hright : Made us right) :
    Made (ts ++ ⟨.operator op, sign⟩ :: us) (.binary (across left right) op left right)

/-! ## Failures -/

/-- Tokens are refused because they do not fit together, or for a numeral. -/
inductive Misfit : PathError.Cause → Prop
  | emptyExpression : Misfit .emptyExpression
  | unfinished : Misfit .unfinished
  | unbalanced : Misfit .unbalanced
  | badNumber : Misfit .badNumber
  | expected (closer : Char) : Misfit (.expected closer)
  | notFinished (found : Token.Kind) : Misfit (.notFinished found)
  | notMemberName (found : Token.Kind) : Misfit (.notMemberName found)
  | notCloser (closer : Char) (found : Token.Kind) : Misfit (.notCloser closer found)
  | notOperand (found : Token.Kind) : Misfit (.notOperand found)

/-- The error is that of one of the tokens, or of the marker past the last one: it does not fit, or it
is a string with a bad escape. -/
def Blames (ts : List Token) (e : PathError) : Prop :=
  ∃ token, (token ∈ ts ∨ token = Token.ending) ∧ e.span = token.span ∧
    (Misfit e.cause ∨
      ∃ quote text, token.kind = .string quote text ∧ unescape text.toList = .error e.cause)

theorem headD_mem (ts : List Token) :
    ts.headD Token.ending ∈ ts ∨ ts.headD Token.ending = Token.ending := by
  cases ts with
  | nil => exact .inr rfl
  | cons token ts => exact .inl List.mem_cons_self

theorem Blames.mono {error : PathError} (h : Blames ts error) (hsub : ts ⊆ us) :
    Blames us error := by
  obtain ⟨token, htoken, herror⟩ := h
  exact ⟨token, htoken.imp_left fun h => hsub h, herror⟩

theorem blames_of_mem {cause : PathError.Cause} (token : Token) (h : token ∈ ts) (hcause : Misfit cause) :
    Blames ts ⟨cause, token.span⟩ := ⟨token, .inl h, rfl, .inl hcause⟩

/-- The next token is blamed. -/
theorem blames_upcoming {cause : PathError.Cause} (hcause : Misfit cause) :
    Blames ts ⟨cause, (ts.headD Token.ending).span⟩ := ⟨_, headD_mem ts, rfl, .inl hcause⟩

theorem blames_ofToken {error : PathError} (h : ofToken (ts.headD Token.ending) = .error error) :
    Blames ts error := by
  refine ⟨_, headD_mem ts, ?_⟩
  generalize ts.headD Token.ending = token at h
  obtain ⟨kind, span⟩ := token
  unfold ofToken at h
  cases kind <;> dsimp only at h
  case number text =>
    split at h
    · cases h
    · cases h; exact ⟨rfl, .inl .badNumber⟩
  case string quote text =>
    split at h
    · cases h
    · next cause hcause => cases h; exact ⟨rfl, .inr ⟨quote, text, rfl, hcause⟩⟩
  case finish => cases h; exact ⟨rfl, .inl .unfinished⟩
  all_goals first | cases h; exact ⟨rfl, .inl (.notOperand _)⟩ | cases h

/-! ## Readers -/

theorem exists_cons_of_upcoming {kind : Token.Kind} (h : upcoming ts = kind) (hne : kind ≠ .finish) :
    ∃ span rest, ts = ⟨kind, span⟩ :: rest := ⟨_, _, eq_cons_of_upcoming h hne⟩

/-- The reader takes tokens off the front, with their tree; or it blames one. -/
def Outcome (P : List Token → Expr → Prop) (ts : List Token) : Parsed → Prop
  | .ok (e, rest) => ∃ taken, ts = taken ++ rest ∧ P taken e
  | .error error => Blames ts error

namespace Outcome

variable {P Q : List Token → Expr → Prop} {x : Parsed}

theorem ok (taken : List Token) (he : P taken e) : Outcome P (taken ++ rest) (.ok (e, rest)) :=
  ⟨taken, rfl, he⟩

theorem bind {f : Expr × List Token → Parsed} (h : Outcome P ts x) (hsub : ts ⊆ us)
    (hf : ∀ taken e rest, ts = taken ++ rest → P taken e → Outcome Q us (f (e, rest))) :
    Outcome Q us (x >>= f) := by
  cases x with
  | error error => exact Blames.mono h hsub
  | ok read =>
    obtain ⟨taken, hts, he⟩ := h
    exact hf taken read.1 read.2 hts he

/-- Some tokens have been taken before. -/
theorem behind (h : Outcome P ts x) (front : List Token)
    (hPQ : ∀ taken e, P taken e → Q (front ++ taken) e) : Outcome Q (front ++ ts) x := by
  cases x with
  | error error => exact Blames.mono h (List.subset_append_right front ts)
  | ok read =>
    obtain ⟨taken, rfl, he⟩ := h
    exact ⟨front ++ taken, (List.append_assoc ..).symm, hPQ taken _ he⟩

end Outcome

/-- What the readers promise with the given fuel. A reader that goes on with the tree of the tokens
before comes to the tree of all of them. -/
structure Makes (fuel : Nat) : Prop where
  expression : ∀ min ts, Outcome Made ts (readExpression fuel min ts)
  operators : ∀ {before left} min ts, Made before left →
    Outcome (fun taken => Made (before ++ taken)) ts (readOperators fuel min left ts)
  operand : ∀ ts, Outcome Made ts (readOperand fuel ts)
  primary : ∀ ts, Outcome Made ts (readPrimary fuel ts)
  accesses : ∀ {before left} ts, Made before left →
    Outcome (fun taken => Made (before ++ taken)) ts (readAccesses fuel left ts)

namespace Makes

variable {before : List Token}

theorem succ_expression (h : Makes fuel) (min : Nat) (ts : List Token) :
    Outcome Made ts (readExpression (fuel + 1) min ts) := by
  rw [readExpression]
  refine (h.operand ts).bind (List.Subset.refl _) ?_
  rintro taken left rest rfl hleft
  exact (h.operators min rest hleft).behind taken fun _ _ => id

theorem succ_operators (h : Makes fuel) (min : Nat) (ts : List Token) (hleft : Made before left) :
    Outcome (fun taken => Made (before ++ taken)) ts (readOperators (fuel + 1) min left ts) := by
  have hnone : Made (before ++ []) left := by rwa [List.append_nil]
  unfold readOperators
  split
  · next op span ts =>
    split
    · exact .ok [] hnone
    · refine (h.expression op.precedence ts).bind (List.subset_cons_self _ _) ?_
      rintro taken right rest rfl hright
      have hbinary := Made.binary span op hleft hright
      refine (h.operators min rest hbinary).behind (⟨.operator op, span⟩ :: taken) fun more e he => ?_
      simpa using he
  · exact .ok [] hnone

theorem succ_operand (h : Makes fuel) (ts : List Token) :
    Outcome Made ts (readOperand (fuel + 1) ts) := by
  unfold readOperand
  split
  · next span ts =>
    refine (h.expression Operator.tightest ts).bind (List.subset_cons_self _ _) ?_
    rintro taken e rest rfl he
    exact .ok (⟨.not, span⟩ :: taken) (.not _ he)
  · next span ts =>
    refine (h.expression Operator.tightest ts).bind (List.subset_cons_self _ _) ?_
    rintro taken e rest rfl he
    exact .ok (⟨.operator (.arithmetic .subtract), span⟩ :: taken) (.negate _ he)
  · refine (h.primary ts).bind (List.Subset.refl _) ?_
    rintro taken e rest rfl he
    exact (h.accesses rest he).behind taken fun _ _ => id

theorem succ_primary (h : Makes fuel) (ts : List Token) :
    Outcome Made ts (readPrimary (fuel + 1) ts) := by
  unfold readPrimary
  split
  · next span ts =>
    refine (h.expression 0 ts).bind (List.subset_cons_self _ _) ?_
    rintro taken e rest rfl he
    dsimp only
    split
    · next hclose =>
      obtain ⟨closing, rest, rfl⟩ := exists_cons_of_upcoming hclose (by decide)
      refine ⟨⟨.openParen, span⟩ :: (taken ++ [⟨.closeParen, closing⟩]), ?_, .group span closing he⟩
      rw [List.cons_append, List.append_assoc]
      rfl
    · exact blames_of_mem ⟨.openParen, span⟩ List.mem_cons_self .unbalanced
    · exact (blames_upcoming (.notCloser _ _)).mono
        (List.Subset.trans (List.subset_append_right taken rest) (List.subset_cons_self _ _))
  · cases hatom : ofToken (ts.headD Token.ending) with
    | error error => exact blames_ofToken hatom
    | ok e =>
      cases ts with
      | nil => cases hatom
      | cons token ts => exact .ok [token] (.atom hatom)

theorem succ_accesses (h : Makes fuel) (ts : List Token) (hleft : Made before left) :
    Outcome (fun taken => Made (before ++ taken)) ts (readAccesses (fuel + 1) left ts) := by
  unfold readAccesses
  split
  · next span ts =>
    dsimp only
    split
    · next name hname =>
      obtain ⟨last, rest, rfl⟩ := exists_cons_of_upcoming hname (by simp)
      refine (h.accesses rest (hleft.member span last name)).behind
        [⟨.dot, span⟩, ⟨.name name, last⟩] fun more e he => ?_
      simpa using he
    · exact (blames_upcoming (.notMemberName _)).mono (List.subset_cons_self _ _)
  · next span ts =>
    refine (h.expression 0 ts).bind (List.subset_cons_self _ _) ?_
    rintro taken key rest rfl hkey
    dsimp only
    split
    · next hclose =>
      obtain ⟨closing, rest, rfl⟩ := exists_cons_of_upcoming hclose (by decide)
      have htaken : ⟨.openBracket, span⟩ :: (taken ++ ⟨.closeBracket, closing⟩ :: rest) =
          ⟨.openBracket, span⟩ :: (taken ++ [⟨.closeBracket, closing⟩]) ++ rest := by simp
      rw [htaken]
      refine (h.accesses rest (hleft.index span closing hkey)).behind _ fun more e he => ?_
      simpa using he
    · exact blames_of_mem ⟨.openBracket, span⟩ List.mem_cons_self (.expected _)
    · exact (blames_upcoming (.notCloser _ _)).mono
        (List.Subset.trans (List.subset_append_right taken rest) (List.subset_cons_self _ _))
  · exact .ok [] (by rwa [List.append_nil])

end Makes

theorem makes : ∀ fuel, Makes fuel
  | 0 =>
    have refused : ∀ ts, Blames ts ⟨.unfinished, ⟨0, 0⟩⟩ := fun _ =>
      ⟨Token.ending, .inr rfl, rfl, .inl .unfinished⟩
    { expression := fun _ => refused
      operators := fun _ ts _ => refused ts
      operand := refused
      primary := refused
      accesses := fun ts _ => refused ts }
  | fuel + 1 =>
    { expression := (makes fuel).succ_expression
      operators := (makes fuel).succ_operators
      operand := (makes fuel).succ_operand
      primary := (makes fuel).succ_primary
      accesses := (makes fuel).succ_accesses }

/-! ## Places -/

/-- The node begins where a token does and ends where one does, it holds its children, and if it has
none, it is one of the tokens. -/
structure Placed (ts : List Token) (n : Expr) : Prop where
  ordered : n.span.start ≤ n.span.stop
  first : ∃ token ∈ ts, n.span.start = token.span.start
  last : ∃ token ∈ ts, n.span.stop = token.span.stop
  children : ∀ child ∈ n.children,
    n.span.start ≤ child.span.start ∧ child.span.stop ≤ n.span.stop
  leaf : n.children = [] → ∃ token ∈ ts, ofToken token = .ok n

theorem Placed.mono (h : Placed ts n) (hsub : ts ⊆ us) : Placed us n where
  ordered := h.ordered
  first := let ⟨token, ht, hstart⟩ := h.first; ⟨token, hsub ht, hstart⟩
  last := let ⟨token, ht, hstop⟩ := h.last; ⟨token, hsub ht, hstop⟩
  children := h.children
  leaf := fun hn => let ⟨token, ht, he⟩ := h.leaf hn; ⟨token, hsub ht, he⟩

variable {first last : Nat}

/-- The whole tree is placed, between the bytes `first` and `last`. -/
structure Fits (ts : List Token) (first last : Nat) (e : Expr) : Prop where
  start : first ≤ e.span.start
  stop : e.span.stop ≤ last
  nodes : ∀ n ∈ e.nodes, Placed ts n

namespace Fits

theorem top (h : Fits ts first last e) : Placed ts e :=
  h.nodes e (by rw [nodes_eq]; exact List.mem_cons_self)

/-- Among more tokens, and between other bytes. -/
theorem among {first' last' : Nat} (h : Fits ts first last e) (hsub : ts ⊆ us)
    (hstart : first' ≤ e.span.start) (hstop : e.span.stop ≤ last') : Fits us first' last' e :=
  ⟨hstart, hstop, fun n hn => (h.nodes n hn).mono hsub⟩

/-- A node around children that fit between its ends. -/
theorem around {child : Expr} {children : List Expr} (hchildren : n.children = child :: children)
    (hstart : first ≤ n.span.start) (hstop : n.span.stop ≤ last)
    (hfirst : ∃ token ∈ ts, n.span.start = token.span.start)
    (hlast : ∃ token ∈ ts, n.span.stop = token.span.stop)
    (hfit : ∀ c ∈ child :: children, Fits ts n.span.start n.span.stop c) :
    Fits ts first last n := by
  have hchild := hfit child List.mem_cons_self
  refine ⟨hstart, hstop, ?_⟩
  rw [nodes_eq, hchildren]
  refine List.forall_mem_cons.mpr ⟨⟨?_, hfirst, hlast, ?_, ?_⟩, fun m hm => ?_⟩
  · exact Nat.le_trans hchild.start (Nat.le_trans hchild.top.ordered hchild.stop)
  · rw [hchildren]
    exact fun c hc => ⟨(hfit c hc).start, (hfit c hc).stop⟩
  · rw [hchildren]
    exact nofun
  · obtain ⟨c, hc, hm⟩ := List.mem_flatMap.mp hm
    exact (hfit c hc).nodes m hm

/-- A prefix operator stands in front of its operand. -/
theorem prefixed {sign : Token} (hfirst : first ≤ sign.span.start)
    (hsign : sign.span.start ≤ sign.span.stop) (h : Fits ts sign.span.stop last e)
    (hspan : n.span = ⟨sign.span.start, e.span.stop⟩) (hchildren : n.children = [e]) :
    Fits (sign :: ts) first last n := by
  have hsub : ts ⊆ sign :: ts := List.subset_cons_self _ _
  have hinner : Fits (sign :: ts) sign.span.start e.span.stop e :=
    h.among hsub (Nat.le_trans hsign h.start) (Nat.le_refl _)
  apply around hchildren <;> rw [hspan]
  · exact hfirst
  · exact h.stop
  · exact ⟨sign, List.mem_cons_self, rfl⟩
  · exact hinner.top.last
  · exact List.forall_mem_singleton.mpr hinner

end Fits

/-- A single token makes a node of its own span, without children. -/
theorem span_of_ofToken (h : ofToken token = .ok e) : e.span = token.span ∧ e.children = [] := by
  obtain ⟨kind, span⟩ := token
  unfold ofToken at h
  cases kind <;> dsimp only at h
  case number text =>
    split at h
    · cases h; exact ⟨rfl, rfl⟩
    · cases h
  case string quote text =>
    split at h
    · cases h; exact ⟨rfl, rfl⟩
    · cases h
  all_goals first | (cases h; exact ⟨rfl, rfl⟩) | cases h

theorem Made.fits (h : Made ts e) (hruns : Token.Runs first ts last) : Fits ts first last e := by
  induction h generalizing first last with
  | @atom token e h =>
    obtain ⟨hspan, hchildren⟩ := span_of_ofToken h
    obtain ⟨hfirst, hspanned, hlast⟩ := hruns
    have hmem : token ∈ [token] := List.mem_singleton.mpr rfl
    refine ⟨hspan ▸ hfirst, hspan ▸ hlast, ?_⟩
    rw [nodes_eq, hchildren]
    refine List.forall_mem_singleton.mpr ?_
    exact ⟨hspan ▸ hspanned, ⟨token, hmem, hspan ▸ rfl⟩, ⟨token, hmem, hspan ▸ rfl⟩,
      hchildren ▸ nofun, fun _ => ⟨token, hmem, h⟩⟩
  | @group ts e opening closing h ih =>
    obtain ⟨hfirst, hspanned, hrest⟩ := hruns
    obtain ⟨mid, hinner, hclose⟩ := Token.runs_append.mp hrest
    have he := ih hinner
    refine he.among ?_ ?_ (Nat.le_trans he.stop hclose.le)
    · exact List.Subset.trans (List.subset_append_left ts _) (List.subset_cons_self _ _)
    · exact Nat.le_trans hfirst (Nat.le_trans hspanned he.start)
  | not sign h ih =>
    obtain ⟨hfirst, hspanned, hrest⟩ := hruns
    exact (ih hrest).prefixed hfirst hspanned rfl rfl
  | negate sign h ih =>
    obtain ⟨hfirst, hspanned, hrest⟩ := hruns
    exact (ih hrest).prefixed hfirst hspanned rfl rfl
  | @member ts e dot tail name h ih =>
    obtain ⟨mid, hinner, hdot, hdotted, hname, hnamed, hend⟩ := Token.runs_append.mp hruns
    dsimp only at hdot hdotted hname hnamed hend
    have he := ih hinner
    have hstop := he.stop
    have hobject := he.among (List.subset_append_left ts [⟨.dot, dot⟩, ⟨.name name, tail⟩])
      (Nat.le_refl _) (show e.span.stop ≤ tail.stop by omega)
    exact .around rfl he.start hend hobject.top.first ⟨⟨.name name, tail⟩, by simp, rfl⟩
      (List.forall_mem_singleton.mpr hobject)
  | @index ts us e key opening closing h hkey ih ihkey =>
    obtain ⟨mid, houter, hopen, hopened, hrest⟩ := Token.runs_append.mp hruns
    obtain ⟨mid', hinner, hclose, hclosed, hend⟩ := Token.runs_append.mp hrest
    dsimp only at hopen hopened hinner hclose hclosed hend
    have he := ih houter
    have hk := ihkey hinner
    have hbounds := And.intro he.stop (And.intro hk.start hk.stop)
    have hordered := And.intro he.top.ordered hk.top.ordered
    have hobject := he.among
      (List.subset_append_left ts (⟨.openBracket, opening⟩ :: (us ++ [⟨.closeBracket, closing⟩])))
      (Nat.le_refl _) (show e.span.stop ≤ closing.stop by omega)
    have hsub : us ⊆ ts ++ ⟨.openBracket, opening⟩ :: (us ++ [⟨.closeBracket, closing⟩]) :=
      List.Subset.trans (List.subset_append_left us _)
        (List.Subset.trans (List.subset_cons_self _ _) (List.subset_append_right _ _))
    have hinside := hk.among hsub (show e.span.start ≤ key.span.start by omega)
      (show key.span.stop ≤ closing.stop by omega)
    exact .around rfl he.start hend hobject.top.first ⟨⟨.closeBracket, closing⟩, by simp, rfl⟩
      (List.forall_mem_cons.mpr ⟨hobject, List.forall_mem_singleton.mpr hinside⟩)
  | @binary ts us left right sign op hleft hright ihl ihr =>
    obtain ⟨mid, hbefore, hsign, hsigned, hbehind⟩ := Token.runs_append.mp hruns
    dsimp only at hsign hsigned
    have hl := ihl hbefore
    have hr := ihr hbehind
    have hbounds : left.span.stop ≤ mid ∧ sign.stop ≤ right.span.start := ⟨hl.stop, hr.start⟩
    have hordered := And.intro hl.top.ordered hr.top.ordered
    have hfront := hl.among (List.subset_append_left ts (⟨.operator op, sign⟩ :: us))
      (Nat.le_refl _) (show left.span.stop ≤ right.span.stop by omega)
    have hsub : us ⊆ ts ++ ⟨.operator op, sign⟩ :: us :=
      List.Subset.trans (List.subset_cons_self _ _) (List.subset_append_right _ _)
    have hback := hr.among hsub (show left.span.start ≤ right.span.start by omega) (Nat.le_refl _)
    exact .around rfl hl.start hr.stop hfront.top.first hback.top.last
      (List.forall_mem_cons.mpr ⟨hfront, List.forall_mem_singleton.mpr hback⟩)

/-! ## Whole expressions -/

theorem made_of_ofTokens (h : ofTokens ts = .ok e) : ∃ taken rest, ts = taken ++ rest ∧ Made taken e := by
  obtain ⟨-, rest, hread, -⟩ := ofTokens_eq_ok.mp h
  have houtcome := (makes (4 * (ts.length + 1))).expression 0 ts
  rw [hread] at houtcome
  obtain ⟨taken, hts, he⟩ := houtcome
  exact ⟨taken, rest, hts, he⟩

theorem blames_of_ofTokens {error : PathError} (h : ofTokens ts = .error error) :
    Blames ts error := by
  unfold ofTokens at h
  split at h
  · cases h
    exact blames_of_mem ⟨.finish, _⟩ List.mem_cons_self .emptyExpression
  · have houtcome := (makes (4 * (ts.length + 1))).expression 0 ts
    cases hread : readExpression (4 * (ts.length + 1)) 0 ts with
    | error error' =>
      rw [hread] at h houtcome
      cases h
      exact houtcome
    | ok read =>
      rw [hread] at h houtcome
      obtain ⟨taken, hts, -⟩ := houtcome
      dsimp only [bind, Except.bind] at h
      split at h
      · cases h
      · cases h
        exact (blames_upcoming (.notFinished _)).mono (hts ▸ List.subset_append_right _ _)

theorem Atom.exists_spelling {kind : Token.Kind} {t : Expr} (h : Atom kind t) :
    ∃ piece, kind.spelling? = some piece := by
  cases h <;> exact ⟨_, rfl⟩

/-- The node has its place in the source, whose first byte is at `offset`, and a node without children
is exactly the text of its token. -/
structure Located (source : List Char) (offset : Nat) (n : Expr) : Prop where
  within : n.span.Within offset source
  children : ∀ child ∈ n.children,
    n.span.start ≤ child.span.start ∧ child.span.stop ≤ n.span.stop
  leaf : n.children = [] → ∃ kind piece, ⟨kind, n.span⟩ ∈ tokenize source offset ∧
    Atom kind n.unspanned ∧ kind.spelling? = some piece ∧ n.span.Cuts offset source piece

variable {source : List Char} {offset : Nat}

theorem Placed.located (h : Placed (tokenize source offset) n) : n.Located source offset where
  within := by
    obtain ⟨token, ht, hstart⟩ := h.first
    obtain ⟨token', ht', hstop⟩ := h.last
    exact Span.within_of_ends (stands_of_mem_tokenize ht).within (stands_of_mem_tokenize ht').within
      hstart hstop h.ordered
  children := h.children
  leaf := fun hn => by
    obtain ⟨token, ht, he⟩ := h.leaf hn
    have hspan := (span_of_ofToken he).1
    have hatom := atom_of_ofToken he
    obtain ⟨piece, hpiece⟩ := hatom.exists_spelling
    obtain ⟨before, stood, after, hsource, hstart, hstop, hspelled⟩ := stands_of_mem_tokenize ht
    obtain ⟨rfl, -, -⟩ := hspelled piece hpiece
    refine ⟨token.kind, stood, hspan ▸ ht, hatom, hpiece, before, after, hsource, ?_, ?_⟩
    · rw [hspan, hstart]
    · rw [hspan, hstop]

theorem located_of_parse (h : parse source offset = .ok e) : ∀ n ∈ e.nodes, n.Located source offset := by
  obtain ⟨ts, hlex, htokens⟩ := bind_eq_ok.mp h
  obtain ⟨rfl, -⟩ := lex_eq_ok.mp hlex
  obtain ⟨taken, rest, hts, hmade⟩ := made_of_ofTokens htokens
  have hall : Token.Runs offset (tokenize source offset) (offset + Text.byteLength source) :=
    runs_tokenize
  rw [hts] at hall
  obtain ⟨mid, hruns, -⟩ := Token.runs_append.mp hall
  intro n hn
  have hplaced := ((hmade.fits hruns).nodes n hn).mono (List.subset_append_left taken rest)
  exact (hts ▸ hplaced).located

/-- An error is where some token is, unless it is past the last one. -/
theorem within_of_parse_error {error : PathError} (h : parse source offset = .error error) :
    error.span.Within offset source ∨ error.span = ⟨0, 0⟩ := by
  unfold parse at h
  cases hlex : lex source offset with
  | error error' =>
    rw [hlex] at h
    cases h
    obtain ⟨token, ht, -, -, -, hspan⟩ := lex_eq_error hlex
    exact .inl (hspan ▸ (stands_of_mem_tokenize ht).within)
  | ok ts =>
    rw [hlex] at h
    obtain ⟨rfl, -⟩ := lex_eq_ok.mp hlex
    obtain ⟨token, ht | rfl, hspan, -⟩ := blames_of_ofTokens h
    · exact .inl (hspan ▸ (stands_of_mem_tokenize ht).within)
    · exact .inr hspan

end LiveJson.Expr

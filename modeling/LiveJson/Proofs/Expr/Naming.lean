import LiveJson.Expr.Eval
import LiveJson.Proofs.Tree

/-! # The subject by another name

An expression sees its subject as a node of the document, and what is bound to a name as a value. The
two go different ways through members, conversions and comparisons, and come to the same: an expression
with a name in the place of `@` has the same value, as long as no equality compares two arrays or
objects. There is one exception, the loose comparison of an empty array with `false`. -/

namespace LiveJson

variable {ι : Type}

/-- Two computations fail with the same cause, or come to related results. -/
inductive SameOutcome {α β : Type} (R : α → β → Prop) :
    Except PathError α → Except PathError β → Prop
  | error {e e' : PathError} (h : e.cause = e'.cause) : SameOutcome R (.error e) (.error e')
  | ok {a : α} {b : β} (h : R a b) : SameOutcome R (.ok a) (.ok b)

namespace SameOutcome

variable {α β α' β' : Type} {R : α → β → Prop} {x : Except PathError α} {y : Except PathError β}

theorem refl (x : Except PathError α) : SameOutcome Eq x x := by
  cases x with
  | error e => exact .error rfl
  | ok a => exact .ok rfl

theorem mono {R' : α → β → Prop} (h : SameOutcome R x y) (hR : ∀ a b, R a b → R' a b) :
    SameOutcome R' x y := by
  cases h with
  | error h => exact .error h
  | ok h => exact .ok (hR _ _ h)

theorem bind {S : α' → β' → Prop} {f : α → Except PathError α'} {g : β → Except PathError β'}
    (h : SameOutcome R x y) (hf : ∀ a b, x = .ok a → R a b → SameOutcome S (f a) (g b)) :
    SameOutcome S (x >>= f) (y >>= g) := by
  cases h with
  | error h => exact .error h
  | ok h => exact hf _ _ rfl h

theorem map {S : α' → β' → Prop} {f : α → α'} {g : β → β'} (h : SameOutcome R x y)
    (hf : ∀ a b, R a b → S (f a) (g b)) : SameOutcome S (x.map f) (y.map g) := by
  cases h with
  | error h => exact .error h
  | ok h => exact .ok (hf _ _ h)

theorem trans_eq {z : Except PathError β} (h : SameOutcome R x y) (h' : SameOutcome Eq y z) :
    SameOutcome R x z := by
  cases h with
  | error h => cases h' with | error h' => exact .error (h.trans h')
  | ok h => cases h' with | ok h' => exact .ok (h' ▸ h)

theorem symm (h : SameOutcome R x y) : SameOutcome (fun b a => R a b) y x := by
  cases h with
  | error h => exact .error h.symm
  | ok h => exact .ok h

end SameOutcome

namespace Tree

/-- All of the document is part of the tree: its leaves are scalars. -/
inductive Explicit : Tree ι → Prop
  | leaf {value : Json} (h : value.isComposite = false) : Explicit (leaf value)
  | array {label : ι} {items : List (Tree ι)} (h : ∀ t ∈ items, Explicit t) :
    Explicit (array label items)
  | object {label : ι} {members : List (String × Tree ι)} (h : ∀ m ∈ members, Explicit m.2) :
    Explicit (object label members)

mutual

theorem explicit_ofJson (document : Nat) (path : Path) :
    ∀ v : Json, (ofJson document path v).Explicit
  | .array items => .array (explicit_ofItems document path 0 items)
  | .object members => .object (explicit_ofMembers document path members)
  | .null => .leaf rfl
  | .bool _ => .leaf rfl
  | .number _ => .leaf rfl
  | .string _ => .leaf rfl

theorem explicit_ofItems (document : Nat) (path : Path) (start : Nat) :
    ∀ vs : List Json, ∀ t ∈ ofItems document path start vs, t.Explicit
  | v :: vs, t, ht => by
    rcases List.mem_cons.mp ht with rfl | ht
    · exact explicit_ofJson document _ v
    · exact explicit_ofItems document path (start + 1) vs t ht

theorem explicit_ofMembers (document : Nat) (path : Path) :
    ∀ ms : List (String × Json), ∀ m ∈ ofMembers document path ms, m.2.Explicit
  | (_, v) :: rest, m, hm => by
    rcases List.mem_cons.mp hm with rfl | hm
    · exact explicit_ofJson document _ v
    · exact explicit_ofMembers document path rest m hm

end

theorem isComposite_toJson (t : Tree ι) : t.toJson.isComposite = t.isComposite := by
  cases t <;> rfl

end Tree

namespace Expr

/-! ## Spans -/

theorem Value.member_alike (v : Value) (name : String) (span span' : Span) :
    SameOutcome Eq (v.member name span) (v.member name span') := by
  cases v with
  | undefined => exact .error rfl
  | null => exact .error rfl
  | _ => exact .refl _

theorem Operand.member_alike (op : Operand ι) (name : String) (span span' : Span) :
    SameOutcome Eq (op.member name span) (op.member name span') := by
  cases op with
  | node t =>
    rw [member, member]
    cases t.isComposite with
    | true => exact .refl _
    | false => exact (Value.member_alike _ name span span').map fun _ _ h => congrArg value h
  | value v => exact (v.member_alike name span span').map fun _ _ h => congrArg value h

/-- Of a span an expression tells only when it fails. -/
theorem Scope.evaluate_unspanned [DecidableEq ι] (scope : Scope ι) (e : Expr) :
    SameOutcome Eq (scope.evaluate e.unspanned) (scope.evaluate e) := by
  induction e with
  | literal => exact .ok rfl
  | subject => exact .ok rfl
  | binding span name =>
    simp only [unspanned, evaluate]
    cases Members.get? name scope.bindings with
    | some v => exact .ok rfl
    | none => exact .error rfl
  | member span object name ih =>
    refine ih.bind ?_
    rintro a _ - rfl
    exact a.member_alike name _ _
  | index span object key ih ihkey =>
    refine ih.bind ?_
    rintro a _ - rfl
    refine ihkey.bind ?_
    rintro k _ - rfl
    exact a.member_alike k.toText _ _
  | not span operand ih =>
    refine ih.bind ?_
    rintro a _ - rfl
    exact .ok rfl
  | negate span operand ih =>
    refine ih.bind ?_
    rintro a _ - rfl
    exact .ok rfl
  | binary span op left right ihl ihr =>
    cases op with
    | logical op =>
      refine ihl.bind ?_
      rintro l _ - rfl
      cases op <;> cases l.isTruthy <;> first | exact .ok rfl | exact ihr
    | comparison op =>
      refine ihl.bind ?_
      rintro l _ - rfl
      refine ihr.bind ?_
      rintro r _ - rfl
      exact .ok rfl
    | arithmetic op =>
      refine ihl.bind ?_
      rintro l _ - rfl
      refine ihr.bind ?_
      rintro r _ - rfl
      exact .ok rfl

/-! ## Nodes and their values -/

/-- The same operand, or the value of a node in the place of the node. -/
inductive Operand.Given : Operand ι → Operand ι → Prop
  | same (op : Operand ι) : Given op op
  | shown {t : Tree ι} (h : t.Explicit) : Given (node t) (value (Value.ofJson t.toJson))

def Value.isComposite : Value → Bool
  | array _ | object _ => true
  | _ => false

theorem Value.isComposite_ofJson (v : Json) : (ofJson v).isComposite = v.isComposite := by
  cases v <;> rfl

namespace Operand

variable {a a' b b' : Operand ι}

theorem isComposite_toValue (t : Tree ι) : (node t).toValue.isComposite = t.isComposite := by
  rw [toValue, Value.isComposite_ofJson, t.isComposite_toJson]

theorem normalize_of_scalar (h : a.toValue.isComposite = false) : a.normalize = value a.toValue := by
  cases a with
  | node t =>
    rw [isComposite_toValue] at h
    rw [normalize, h]
    rfl
  | value v => rfl

theorem normalize_of_composite {t : Tree ι} (h : (node t).toValue.isComposite = true) :
    (node t).normalize = node t := by
  rw [isComposite_toValue] at h
  rw [normalize, h]
  rfl

theorem toValue_normalize (a : Operand ι) : a.normalize.toValue = a.toValue := by
  cases a with
  | node t =>
    rw [normalize]
    split <;> rfl
  | value v => rfl

theorem node_member_array (label : ι) (items : List (Tree ι)) (name : String) (span : Span) :
    (node (.array label items)).member name span = .ok (
      if name = "length" then value (.number (Float.ofNat items.length))
      else ((Key.name name).asIndex.bind fun i => items[i]?).elim (value .undefined) node) := by
  by_cases hlength : name = "length"
  · simp [member, Tree.isComposite, Tree.kind, Json.Kind.isComposite, Tree.length?, hlength]
  · simp only [member, Tree.isComposite, Tree.kind, Json.Kind.isComposite, Tree.get?, hlength]
    cases (Key.name name).asIndex with
    | none => rfl
    | some i => cases hi : items[i]? <;> simp [hi]

theorem value_member_array (vs : List Json) (name : String) (span : Span) :
    (value (.array vs) : Operand ι).member name span = .ok (
      if name = "length" then value (.number (Float.ofNat vs.length))
      else ((Key.name name).asIndex.bind fun i => vs[i]?).elim (value .undefined)
        fun v => value (Value.ofJson v)) := by
  rw [member, Value.member]
  split
  · rfl
  · cases (Key.name name).asIndex.bind fun i => vs[i]? <;> rfl

theorem node_member_object (label : ι) (members : List (String × Tree ι)) (name : String)
    (span : Span) :
    (node (.object label members)).member name span =
      .ok ((Members.get? name members).elim (value .undefined) node) := by
  simp only [member, Tree.isComposite, Tree.kind, Json.Kind.isComposite, Tree.get?]
  cases Members.get? name members <;> simp

theorem value_member_object (ms : List (String × Json)) (name : String) (span : Span) :
    (value (.object ms) : Operand ι).member name span =
      .ok ((Members.get? name ms).elim (value .undefined) fun v => value (Value.ofJson v)) := by
  rw [member, Value.member]
  cases Members.get? name ms <;> rfl

namespace Given

/-- What is found or not. -/
theorem found {child : Option (Tree ι)} (h : ∀ t, child = some t → t.Explicit) :
    Given (child.elim (value .undefined) node)
      ((child.map Tree.toJson).elim (value .undefined) fun v => value (Value.ofJson v)) := by
  cases child with
  | none => exact .same _
  | some t => exact .shown (h t rfl)

theorem toValue (h : Given a a') : a.toValue = a'.toValue := by
  cases h <;> rfl

theorem toText (h : Given a a') : a.toText = a'.toText := congrArg Value.toText h.toValue

theorem isTruthy (h : Given a a') : a.isTruthy = a'.isTruthy := by
  cases h with
  | same => rfl
  | @shown t _ =>
    show (t.isComposite || (Value.ofJson t.toJson).isTruthy) = (Value.ofJson t.toJson).isTruthy
    rw [← t.isComposite_toJson]
    cases t.toJson <;> rfl

/-- The members of a node are what the members of its value are made of. -/
theorem member (h : Given a a') (name : String) (span span' : Span) :
    SameOutcome Given (a.member name span) (a'.member name span') := by
  cases h with
  | same => exact (a.member_alike name span span').mono fun a _ h => h ▸ .same a
  | @shown t h =>
    cases h with
    | @leaf v hv =>
      have hnode : (node (Tree.leaf v) : Operand ι).member name span =
          ((Value.ofJson v).member name span).map value := by
        have ht : (Tree.leaf v : Tree ι).isComposite = false := hv
        simp only [Operand.member, ht]
        rfl
      rw [hnode]
      exact (Value.member_alike _ name span span').map fun v _ h => h ▸ .same (value v)
    | @array label items hitems =>
      rw [Tree.toJson, Tree.itemsToJson_eq_map, Value.ofJson, node_member_array, value_member_array,
        List.length_map]
      split
      · exact .ok (.same _)
      · have hitem : ((Key.name name).asIndex.bind fun i => (items.map Tree.toJson)[i]?) =
            ((Key.name name).asIndex.bind fun i => items[i]?).map Tree.toJson := by
          cases (Key.name name).asIndex <;> simp
        rw [hitem]
        refine .ok (found fun t ht => ?_)
        obtain ⟨i, -, hi⟩ := Option.bind_eq_some_iff.mp ht
        exact hitems t (List.mem_of_getElem? hi)
    | @object label members hmembers =>
      rw [Tree.toJson, Tree.membersToJson_eq_map, Value.ofJson, node_member_object,
        value_member_object, Members.get?_map]
      exact .ok (found fun t ht => hmembers _ (Members.mem_of_get? ht))

theorem normalize_scalar (h : Given a a') (hscalar : a.toValue.isComposite = false) :
    a.normalize = a'.normalize := by
  rw [normalize_of_scalar hscalar, normalize_of_scalar (h.toValue ▸ hscalar), h.toValue]

end Given

end Operand

/-! ## Comparisons -/

def Comparison.isEquality : Comparison → Bool
  | eq | ne | strictEq | strictNe => true
  | _ => false

/-- An equality of two arrays or objects. -/
def Comparison.OfComposites (op : Comparison) (a b : Operand ι) : Prop :=
  op.isEquality ∧ a.toValue.isComposite ∧ b.toValue.isComposite

/-- An empty array of the document against `false`. -/
def Operand.EmptyAgainstFalse (a b : Operand ι) : Prop :=
  (∃ t, a = node t ∧ t.toJson = .array []) ∧ b.toValue = .bool false

/-- A loose equality that does not count the empty array as zero, as it counts `false`. -/
def Comparison.Unconverted (op : Comparison) (a b : Operand ι) : Prop :=
  (op = .eq ∨ op = .ne) ∧ (a.EmptyAgainstFalse b ∨ b.EmptyAgainstFalse a)

namespace Value

variable {v w : Value}

theorem ofJson_eq_array {j : Json} {items : List Json} (h : ofJson j = array items) :
    j = .array items := by
  cases j <;> cases h
  rfl

theorem beq_of_composite (hv : v.isComposite = true) (hw : w.isComposite = false) :
    (v == w) = false ∧ (w == v) = false := by
  cases v with
  | array items =>
    cases w with
    | array => exact Bool.noConfusion hw
    | _ => exact ⟨rfl, rfl⟩
  | object members =>
    cases w with
    | object => exact Bool.noConfusion hw
    | _ => exact ⟨rfl, rfl⟩
  | _ => cases hv

/-- Not a number is not the number of a truth value, on either side. -/
theorem nan_beq_bool (b : Bool) :
    (nan == (bool b).toNumber) = false ∧ ((bool b).toNumber == nan) = false := by
  cases b <;> decide

theorem toNumber_beq_bool (hv : v.isComposite = true) {b : Bool}
    (h : ¬ (v = .array [] ∧ b = false)) :
    (v.toNumber == (bool b).toNumber) = false ∧ ((bool b).toNumber == v.toNumber) = false := by
  cases v with
  | array items =>
    cases items with
    | nil =>
      cases b with
      | false => exact absurd ⟨rfl, rfl⟩ h
      | true => decide
    | cons => exact nan_beq_bool b
  | object members => exact nan_beq_bool b
  | _ => cases hv

/-- An array or object loosely equals no scalar, but for the empty array and `false`. -/
theorem looselyEquals_of_composite (hv : v.isComposite = true) (hw : w.isComposite = false)
    (h : ¬ (v = .array [] ∧ w = .bool false)) :
    v.looselyEquals w = false ∧ w.looselyEquals v = false := by
  cases w with
  | bool b =>
    have hnumber := toNumber_beq_bool hv (b := b) fun hb => h ⟨hb.1, congrArg bool hb.2⟩
    cases v <;> first | exact hnumber | cases hv
  | array items => cases hw
  | object members => cases hw
  | _ => cases v <;> first | exact ⟨rfl, rfl⟩ | cases hv

end Value

namespace Operand

variable {a a' b b' : Operand ι}

/-- Beside a scalar it makes no difference which of the two is given, but for the empty array and
`false`. -/
theorem Given.equals_scalar [DecidableEq ι] (h : Given a a')
    (hcomposite : a.toValue.isComposite = true) {w : Value} (hw : w.isComposite = false) :
    a.normalize.strictlyEquals (value w) = a'.normalize.strictlyEquals (value w) ∧
    (value w).strictlyEquals a.normalize = (value w).strictlyEquals a'.normalize ∧
    (¬ a.EmptyAgainstFalse (value w) →
      a.normalize.looselyEquals (value w) = a'.normalize.looselyEquals (value w) ∧
      (value w).looselyEquals a.normalize = (value w).looselyEquals a'.normalize) := by
  cases h with
  | same => exact ⟨rfl, rfl, fun _ => ⟨rfl, rfl⟩⟩
  | @shown t ht =>
    have hvalue : (value (Value.ofJson t.toJson) : Operand ι).normalize =
        value (Value.ofJson t.toJson) := rfl
    rw [normalize_of_composite hcomposite, hvalue]
    have hstrict := Value.beq_of_composite hcomposite hw
    refine ⟨hstrict.1.symm, hstrict.2.symm, fun hempty => ?_⟩
    have hloose := Value.looselyEquals_of_composite hcomposite hw fun he =>
      hempty ⟨⟨t, rfl, Value.ofJson_eq_array he.1⟩, he.2⟩
    exact ⟨hloose.1.symm, hloose.2.symm⟩

theorem Given.equals [DecidableEq ι] (ha : Given a a') (hb : Given b b')
    (h : ¬ (a.toValue.isComposite = true ∧ b.toValue.isComposite = true)) :
    a.normalize.strictlyEquals b.normalize = a'.normalize.strictlyEquals b'.normalize ∧
    (¬ a.EmptyAgainstFalse b → ¬ b.EmptyAgainstFalse a →
      a.normalize.looselyEquals b.normalize = a'.normalize.looselyEquals b'.normalize) := by
  cases hca : a.toValue.isComposite with
  | false =>
    cases hcb : b.toValue.isComposite with
    | false =>
      rw [ha.normalize_scalar hca, hb.normalize_scalar hcb]
      exact ⟨rfl, fun _ _ => rfl⟩
    | true =>
      have hscalar := hb.equals_scalar hcb hca
      rw [← ha.normalize_scalar hca, normalize_of_scalar hca]
      exact ⟨hscalar.2.1, fun _ hempty => (hscalar.2.2 hempty).2⟩
  | true =>
    have hcb : b.toValue.isComposite = false := Bool.eq_false_iff.mpr fun hcb => h ⟨hca, hcb⟩
    have hscalar := ha.equals_scalar hca hcb
    rw [← hb.normalize_scalar hcb, normalize_of_scalar hcb]
    exact ⟨hscalar.1, fun hempty _ => (hscalar.2.2 hempty).1⟩

end Operand

theorem Comparison.apply_given [DecidableEq ι] {a a' b b' : Operand ι} (op : Comparison)
    (ha : a.Given a') (hb : b.Given b') (hcomposites : ¬ op.OfComposites a b)
    (hconverted : ¬ op.Unconverted a b) :
    op.apply a.normalize b.normalize = op.apply a'.normalize b'.normalize := by
  have horder : a.normalize.toValue.order? b.normalize.toValue =
      a'.normalize.toValue.order? b'.normalize.toValue := by
    simp only [Operand.toValue_normalize, ha.toValue, hb.toValue]
  have hstrict (h : op.isEquality = true) := (ha.equals hb fun hc => hcomposites ⟨h, hc⟩).1
  have hloose (h : op.isEquality = true) (hop : op = .eq ∨ op = .ne) :=
    (ha.equals hb fun hc => hcomposites ⟨h, hc⟩).2
      (fun he => hconverted ⟨hop, .inl he⟩) (fun he => hconverted ⟨hop, .inr he⟩)
  cases op with
  | eq => exact hloose rfl (.inl rfl)
  | ne => rw [apply, apply, hloose rfl (.inr rfl)]
  | strictEq => exact hstrict rfl
  | strictNe => rw [apply, apply, hstrict rfl]
  | _ => rw [apply, apply, horder]

/-- As a node an empty array does not equal `false`, on either side. As a value it does. -/
theorem Operand.EmptyAgainstFalse.looselyEquals [DecidableEq ι] {a b : Operand ι}
    (h : a.EmptyAgainstFalse b) :
    a.normalize.looselyEquals b.normalize = false ∧ b.normalize.looselyEquals a.normalize = false ∧
    a.toValue.looselyEquals b.toValue = true ∧ b.toValue.looselyEquals a.toValue = true := by
  obtain ⟨⟨t, rfl, ht⟩, hb⟩ := h
  have hvalue : (node t).toValue = .array [] := congrArg Value.ofJson ht
  have hnode : (node t).normalize = node t := normalize_of_composite (hvalue ▸ rfl)
  have hscalar : b.normalize = value b.toValue := normalize_of_scalar (hb ▸ rfl)
  rw [hnode, hscalar, hvalue, hb]
  exact ⟨rfl, rfl, by decide, by decide⟩

theorem Comparison.Unconverted.apply [DecidableEq ι] {op : Comparison} {a b : Operand ι}
    (h : op.Unconverted a b) :
    op.apply a.normalize b.normalize =
      !op.apply (.value a.toValue : Operand ι) (.value b.toValue) := by
  obtain ⟨hop, hab⟩ := h
  have hanswers : a.normalize.looselyEquals b.normalize = false ∧
      a.toValue.looselyEquals b.toValue = true := by
    rcases hab with hab | hab
    · exact ⟨hab.looselyEquals.1, hab.looselyEquals.2.2.1⟩
    · exact ⟨hab.looselyEquals.2.1, hab.looselyEquals.2.2.2⟩
  have hvalues : (Operand.value a.toValue : Operand ι).looselyEquals (.value b.toValue) = true :=
    hanswers.2
  rcases hop with rfl | rfl <;> simp only [Comparison.apply, hanswers.1, hvalues] <;> rfl

/-! ## Expressions -/

/-- The names that an expression reads. -/
def names : Expr → List String
  | literal .. | subject .. => []
  | binding _ name => [name]
  | member _ object _ => object.names
  | index _ object key => object.names ++ key.names
  | not _ operand | negate _ operand => operand.names
  | binary _ _ left right => left.names ++ right.names

/-- The expression with a name in the place of `@`. -/
def naming (name : String) : Expr → Expr
  | literal span value => literal span value
  | subject span .current => binding span name
  | subject span which => subject span which
  | binding span other => binding span other
  | member span object text => member span (object.naming name) text
  | index span object key => index span (object.naming name) (key.naming name)
  | not span operand => not span (operand.naming name)
  | negate span operand => negate span (operand.naming name)
  | binary span op left right => binary span op (left.naming name) (right.naming name)

/-- Whether the second operand is still asked for after the first. -/
def Operator.goesOn : Operator → Operand ι → Bool
  | logical .and, first => first.isTruthy
  | logical .or, first => !first.isTruthy
  | _, _ => true

/-- In the course of evaluating the expression these two are compared. -/
inductive Scope.Compares [DecidableEq ι] (scope : Scope ι) (op : Comparison) (a b : Operand ι) :
    Expr → Prop
  | here {span : Span} {left right : Expr} (hleft : scope.evaluate left = .ok a)
    (hright : scope.evaluate right = .ok b) :
    Compares scope op a b (.binary span (.comparison op) left right)
  | member {span : Span} {object : Expr} {name : String} (h : Compares scope op a b object) :
    Compares scope op a b (.member span object name)
  | object {span : Span} {object key : Expr} (h : Compares scope op a b object) :
    Compares scope op a b (.index span object key)
  | key {span : Span} {object key : Expr} {o : Operand ι} (hobject : scope.evaluate object = .ok o)
    (h : Compares scope op a b key) : Compares scope op a b (.index span object key)
  | not {span : Span} {operand : Expr} (h : Compares scope op a b operand) :
    Compares scope op a b (.not span operand)
  | negate {span : Span} {operand : Expr} (h : Compares scope op a b operand) :
    Compares scope op a b (.negate span operand)
  | left {span : Span} {outer : Operator} {left right : Expr} (h : Compares scope op a b left) :
    Compares scope op a b (.binary span outer left right)
  | right {span : Span} {outer : Operator} {left right : Expr} {first : Operand ι}
    (hleft : scope.evaluate left = .ok first) (hgo : outer.goesOn first = true)
    (h : Compares scope op a b right) : Compares scope op a b (.binary span outer left right)

namespace Scope

variable [DecidableEq ι] {scope : Scope ι} {other : Tree ι} {bindings : List (String × Json)}
  {name : String}

/-- The induction is on the expression; what it needs of the comparisons goes down to the parts that
are evaluated. -/
theorem evaluate_naming (other : Tree ι) (hexplicit : scope.subject.Explicit)
    (hname : Members.get? name bindings = some scope.subject.toJson) (e : Expr)
    (hnames : ∀ n ∈ e.names, Members.get? n bindings = Members.get? n scope.bindings)
    (hcompares : ∀ op a b, scope.Compares op a b e → ¬ op.OfComposites a b ∧ ¬ op.Unconverted a b) :
    SameOutcome Operand.Given (scope.evaluate e)
      ({ scope with subject := other, bindings }.evaluate (e.naming name)) := by
  induction e with
  | literal span v => exact .ok (.same _)
  | subject span which =>
    cases which with
    | current =>
      simp only [naming, evaluate, hname, subjectValue]
      exact .ok (.shown hexplicit)
    | _ => exact .ok (.same _)
  | binding span n =>
    simp only [naming, evaluate, hnames n (List.mem_singleton.mpr rfl)]
    cases Members.get? n scope.bindings with
    | none => exact .error rfl
    | some v => exact .ok (.same _)
  | member span object text ih =>
    have hobject := ih hnames fun op a b h => hcompares op a b (.member h)
    exact hobject.bind fun a b _ hab => hab.member text span span
  | index span object key ih ihkey =>
    have hobject := ih (fun n hn => hnames n (List.mem_append_left _ hn))
      fun op a b h => hcompares op a b (.object h)
    refine hobject.bind fun a b ha hab => ?_
    have hkey := ihkey (fun n hn => hnames n (List.mem_append_right _ hn))
      fun op a b h => hcompares op a b (.key ha h)
    refine hkey.bind fun k k' _ hk => ?_
    rw [hk.toText]
    exact hab.member _ span span
  | not span operand ih =>
    have hoperand := ih hnames fun op a b h => hcompares op a b (.not h)
    refine hoperand.bind fun a b _ hab => ?_
    rw [hab.isTruthy]
    exact .ok (.same _)
  | negate span operand ih =>
    have hoperand := ih hnames fun op a b h => hcompares op a b (.negate h)
    refine hoperand.bind fun a b _ hab => ?_
    rw [hab.toValue]
    exact .ok (.same _)
  | binary span outer left right ihl ihr =>
    have hleft := ihl (fun n hn => hnames n (List.mem_append_left _ hn))
      fun op a b h => hcompares op a b (.left h)
    have hright {l : Operand ι} (hl : scope.evaluate left = .ok l) (hgo : outer.goesOn l = true) :=
      ihr (fun n hn => hnames n (List.mem_append_right _ hn))
        fun op a b h => hcompares op a b (.right hl hgo h)
    cases outer with
    | logical op =>
      refine hleft.bind fun l l' hl hll => ?_
      rw [← hll.isTruthy]
      cases op <;> cases htruthy : l.isTruthy
      · exact .ok hll
      · exact hright hl htruthy
      · exact hright hl (by rw [Operator.goesOn, htruthy]; rfl)
      · exact .ok hll
    | comparison op =>
      refine hleft.bind fun l l' hl hll => (hright hl rfl).bind fun r r' hr hrr => ?_
      obtain ⟨hcomposites, hconverted⟩ := hcompares op l r (.here hl hr)
      rw [op.apply_given hll hrr hcomposites hconverted]
      exact .ok (.same _)
    | arithmetic op =>
      refine hleft.bind fun l l' hl hll => (hright hl rfl).bind fun r r' _ hrr => ?_
      rw [hll.toValue, hrr.toValue]
      exact .ok (.same _)

/-- **An expression means the same whether it calls its subject `@` or by a name to which its value is
bound: both fail with one cause, or both come to one value, of one truth. That holds unless an
equality compares two arrays or objects, or compares an empty array of the document with `false`
loosely; and such a comparison with `false` has another answer for the value than for the node.** -/
theorem evaluate_by_name (hexplicit : scope.subject.Explicit)
    (hname : Members.get? name bindings = some scope.subject.toJson) {e e' : Expr}
    (he : e'.unspanned = (e.naming name).unspanned)
    (hnames : ∀ n ∈ e.names, Members.get? n bindings = Members.get? n scope.bindings) :
    ((∀ op a b, scope.Compares op a b e → ¬ op.OfComposites a b ∧ ¬ op.Unconverted a b) →
      SameOutcome (fun a b => a.toValue = b.toValue ∧ a.isTruthy = b.isTruthy) (scope.evaluate e)
        ({ scope with subject := other, bindings }.evaluate e')) ∧
    ∀ (op : Comparison) (a b : Operand ι), op.Unconverted a b →
      op.apply a.normalize b.normalize =
        !op.apply (Operand.value a.toValue : Operand ι) (.value b.toValue) := by
  constructor
  · intro hcompares
    have hnaming := evaluate_naming other hexplicit hname e hnames hcompares
    have hspans := evaluate_unspanned { scope with subject := other, bindings } e'
    have hspans' := evaluate_unspanned { scope with subject := other, bindings } (e.naming name)
    rw [he] at hspans
    have hrespelled := (hspans'.symm.mono fun _ _ h => h.symm).trans_eq hspans
    exact (hnaming.trans_eq hrespelled).mono fun a b h => ⟨h.toValue, h.isTruthy⟩
  · exact fun op a b h => h.apply

/-- A list of two in a member of the subject, and a limit that is bound to `2`. -/
def listScope : Scope Spot where
  subject := Tree.ofJson 0 [] (.object [("tags", .array [.string "x", .string "y"])])
  parent := none
  path := []
  bindings := [("limit", .number (.int 2))]

/-- `@.tags.length === limit` -/
def lengthTest : Expr :=
  .binary ⟨0, 23⟩ (.comparison .strictEq)
    (.member ⟨0, 13⟩ (.member ⟨0, 6⟩ (.subject ⟨0, 1⟩ .current) "tags") "length")
    (.binding ⟨18, 23⟩ "limit")

/-- `list.tags.length === limit` -/
def namedLengthTest : Expr :=
  .binary ⟨0, 26⟩ (.comparison .strictEq)
    (.member ⟨0, 16⟩ (.member ⟨0, 9⟩ (.binding ⟨0, 4⟩ "list") "tags") "length")
    (.binding ⟨21, 26⟩ "limit")

theorem length_by_name :
    SameOutcome (fun a b => a.toValue = b.toValue ∧ a.isTruthy = b.isTruthy)
      (listScope.evaluate lengthTest)
      ({ listScope with
          subject := .leaf .null,
          bindings := ("list", listScope.subject.toJson) :: listScope.bindings }.evaluate
        namedLengthTest) := by
  have hlength : listScope.evaluate (.member ⟨0, 13⟩ (.member ⟨0, 6⟩ (.subject ⟨0, 1⟩ .current)
      "tags") "length") = .ok (.value (.number (Float.ofNat 2))) := rfl
  have hexplicit : listScope.subject.Explicit := Tree.explicit_ofJson 0 [] _
  have hname : Members.get? "list" (("list", listScope.subject.toJson) :: listScope.bindings) =
      some listScope.subject.toJson := rfl
  have hspelled : namedLengthTest.unspanned = (lengthTest.naming "list").unspanned := rfl
  refine (evaluate_by_name hexplicit hname hspelled ?_).1 ?_
  · intro n hn
    rw [List.mem_singleton.mp hn]
    rfl
  · intro op a b h
    cases h with
    | here hleft _ =>
      cases hlength.symm.trans hleft
      exact ⟨fun hc => Bool.noConfusion hc.2.1, fun hc => by rcases hc.1 with h | h <;> cases h⟩
    | left h => cases h with | member h => cases h with | member h => cases h
    | right _ _ h => cases h

/-- The subject is the empty array, and nothing is bound. -/
def emptyScope : Scope Spot where
  subject := Tree.ofJson 0 [] (.array [])
  parent := none
  path := []
  bindings := []

/-- `@ == false` -/
def falseTest : Expr :=
  .binary ⟨0, 10⟩ (.comparison .eq) (.subject ⟨0, 1⟩ .current) (.literal ⟨5, 10⟩ (.bool false))

/-- No array or object is compared with another, and yet the name has another answer. -/
theorem empty_array_by_name :
    (∀ op a b, emptyScope.Compares op a b falseTest → ¬ op.OfComposites a b) ∧
    emptyScope.evaluate falseTest = .ok (.value (.bool false)) ∧
    { emptyScope with bindings := [("x", emptyScope.subject.toJson)] }.evaluate
      (falseTest.naming "x") = .ok (.value (.bool true)) := by
  refine ⟨?_, rfl, rfl⟩
  intro op a b h
  cases h with
  | here _ hright =>
    cases hright
    exact fun hc => Bool.noConfusion hc.2.2
  | left h => cases h
  | right _ _ h => cases h

end Scope

end Expr

end LiveJson

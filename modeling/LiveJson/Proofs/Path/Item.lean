import LiveJson.Proofs.Json.Named
import LiveJson.Proofs.Path.Clauses
import LiveJson.Proofs.Path.Scan
import LiveJson.Segment.Printer

/-! # Printing what stands between brackets

Whatever has been read between two brackets is printed as text that is read as the same again: a name
in quotes or bare, a star, the bounds of a slice, an expression with its parentheses, or several of
these with commas between them. The text is balanced, and an alternative has no comma to split at. So
it does not matter where it stands in a path. -/

namespace LiveJson.Segment

variable {s : Segment} {cs text : List Char} {i : Int} {bound start stop step : Option Int}
  {span : Span} {offset : Nat}

mutual

/-- The same segment with every span in it set to the empty one at the start. -/
def unspanned : Segment → Segment
  | union items => union (unspannedAll items)
  | filter condition source _ => filter condition.unspanned source ⟨0, 0⟩
  | computed key source _ => computed key.unspanned source ⟨0, 0⟩
  | s => s
termination_by structural s => s

def unspannedAll : List Segment → List Segment
  | [] => []
  | s :: ss => s.unspanned :: unspannedAll ss
termination_by structural ss => ss

end

theorem unspannedAll_eq_map (ss : List Segment) : unspannedAll ss = ss.map unspanned := by
  induction ss with
  | nil => rfl
  | cons s ss ih => rw [unspannedAll, ih, List.map_cons]

/-- What a segment prints between brackets is one alternative, which is read as the segment wherever
it stands. -/
structure Rereads (s : Segment) : Prop where
  print : s.print = '[' :: (s.inner ++ [']'])
  whole : Whole s.inner
  again : ∀ offset, ∃ s', readItem offset s.inner = .ok s' ∧ s'.unspanned = s.unspanned

theorem whole_of_inert (h : ∀ c ∈ cs, inertChar c = true) : Whole cs := by
  induction cs with
  | nil => exact .nil
  | cons c cs ih =>
    rw [List.forall_mem_cons] at h
    exact .plain (isDelimiter_of_inertChar h.1) (ne_comma_of_inertChar h.1) (ih h.2)

/-! ## Names and stars -/

theorem inertChar_of_isDigit {c : Char} (h : Decimal.isDigit c = true) : inertChar c = true := by
  rw [inertChar, h]
  rfl

theorem rereads_name (text : String) : (name text).Rereads := by
  cases hbare : (!text.toList.isEmpty &&
      text.toList.all fun c => Decimal.isDigit c || c == '-') with
  | false =>
    have hinner : (name text).inner = Text.quoted text.toList := by
      rw [inner, printName, hbare]
      rfl
    refine ⟨rfl, ?_, fun offset => ⟨name text, ?_, rfl⟩⟩
    · rw [hinner]
      exact .quoted rfl (quotable_escape '\'' _) .nil
    · rw [hinner, readItem_quoted, String.ofList_toList]
  | true =>
    have hinner : (name text).inner = text.toList := by
      rw [inner, printName, hbare]
      rfl
    rw [Bool.and_eq_true, Bool.not_eq_true', List.isEmpty_eq_false_iff, List.all_eq_true] at hbare
    obtain ⟨hne, hall⟩ := hbare
    have hinert : ∀ c ∈ text.toList, inertChar c = true := by
      intro c hc
      rcases Bool.or_eq_true_iff.mp (hall c hc) with h | h
      · exact inertChar_of_isDigit h
      · rw [beq_iff_eq.mp h]
        rfl
    have hstar : text.toList ≠ ['*'] := fun h => absurd (hall '*' (by simp [h])) (by decide)
    have hcolon : ':' ∉ text.toList := fun h => absurd (hall ':' h) (by decide)
    refine ⟨rfl, ?_, fun offset => ⟨name text, ?_, rfl⟩⟩
    · rw [hinner]
      exact whole_of_inert hinert
    · rw [hinner, readItem_inert hne hinert, if_neg hstar, sliceBounds?_eq_none hcolon,
        String.ofList_toList]

theorem rereads_wildcard : wildcard.Rereads := by
  refine ⟨rfl, .plain (by decide) (by decide) .nil, fun offset => ⟨wildcard, ?_, rfl⟩⟩
  exact readItem_bare (List.cons_ne_nil _ _) (List.forall_mem_singleton.mpr rfl) offset

/-! ## Slices -/

theorem printBound_ofNat (n : Nat) : printBound (some (n : Int)) = Nat.toDigits 10 n := by
  rw [printBound]
  change (Nat.repr n).toList = _
  rw [Nat.repr, String.toList_ofList]

theorem printBound_negSucc (n : Nat) :
    printBound (some (Int.negSucc n)) = '-' :: Nat.toDigits 10 (n + 1) := by
  rw [printBound]
  change ("-" ++ Nat.repr (n + 1)).toList = _
  rw [Nat.repr, String.toList_append, String.toList_ofList, String.toList_ofList]
  exact List.singleton_append

theorem isDigit_of_mem_toDigits {n : Nat} {c : Char} (h : c ∈ Nat.toDigits 10 n) :
    Decimal.isDigit c = true := by
  have hall := Decimal.all_isDigit_toDigits n
  rw [Bool.and_eq_true, List.all_eq_true] at hall
  exact hall.2 c h

theorem toDigits_eq_cons (n : Nat) : ∃ d ds, Nat.toDigits 10 n = d :: ds ∧ d ≠ '-' := by
  cases hdigits : Nat.toDigits 10 n with
  | nil => exact absurd hdigits Nat.toDigits_ne_nil
  | cons d ds =>
    refine ⟨d, ds, rfl, ?_⟩
    rintro rfl
    exact absurd (isDigit_of_mem_toDigits (hdigits ▸ List.mem_cons_self)) (by decide)

theorem inertChar_of_mem_printBound {c : Char} (h : c ∈ printBound bound) : inertChar c = true := by
  match bound with
  | none => cases h
  | some (Int.ofNat n) =>
    rw [Int.ofNat_eq_natCast, printBound_ofNat] at h
    exact inertChar_of_isDigit (isDigit_of_mem_toDigits h)
  | some (Int.negSucc n) =>
    rw [printBound_negSucc, List.mem_cons] at h
    rcases h with rfl | h
    · rfl
    · exact inertChar_of_isDigit (isDigit_of_mem_toDigits h)

/-- The text ends, or a colon comes next. -/
def Stops (cs : List Char) : Prop := cs = [] ∨ ∃ more, cs = ':' :: more

theorem span_toDigits (n : Nat) (h : Stops cs) :
    (Nat.toDigits 10 n ++ cs).takeWhile Decimal.isDigit = Nat.toDigits 10 n ∧
      (Nat.toDigits 10 n ++ cs).dropWhile Decimal.isDigit = cs := by
  rw [List.takeWhile_append_of_pos fun _ h => isDigit_of_mem_toDigits h,
    List.dropWhile_append_of_pos fun _ h => isDigit_of_mem_toDigits h]
  rcases h with rfl | ⟨more, rfl⟩
  · simp
  · have hcolon : Decimal.isDigit ':' = false := by decide
    simp [hcolon]

/-- The reader of bounds takes exactly a printed bound. -/
theorem takeBound_printBound (bound : Option Int) (h : Stops cs) :
    takeBound (printBound bound ++ cs) = (printBound bound, cs) := by
  match bound with
  | none =>
    rcases h with rfl | ⟨more, rfl⟩
    · rfl
    · rfl
  | some (Int.ofNat n) =>
    obtain ⟨htake, hdrop⟩ := span_toDigits n h
    rw [Int.ofNat_eq_natCast, printBound_ofNat]
    obtain ⟨d, ds, hdigits, hminus⟩ := toDigits_eq_cons n
    unfold takeBound
    split
    · next heq =>
      rw [hdigits] at heq
      exact absurd (List.cons.inj heq).1 hminus
    · rw [htake, hdrop]
  | some (Int.negSucc n) =>
    obtain ⟨htake, hdrop⟩ := span_toDigits (n + 1) h
    rw [printBound_negSucc, List.cons_append, takeBound, htake, hdrop]

/-- A bound, if there is one, is a signed 64-bit number. -/
def InRange (bound : Option Int) : Prop :=
  ∀ i ∈ bound, -9223372036854775808 ≤ i ∧ i < 9223372036854775808

theorem inRange_of_readBound (h : readBound span cs = .ok bound) : InRange bound := by
  unfold readBound at h
  dsimp only at h
  split at h
  · cases h
    intro i hi
    cases hi
  · cases h
  · split at h
    · next hle =>
      cases h
      intro i hi
      cases hi
      have hle' : Decimal.ofDigits _ ≤ 9223372036854775808 := hle
      omega
    · cases h
  · split at h
    · next hlt =>
      cases h
      intro i hi
      cases hi
      have hlt' : Decimal.ofDigits _ < 9223372036854775808 := hlt
      omega
    · cases h

theorem readBound_of_digits {d : Char} {ds : List Char} (hd : d ≠ '-')
    (h : Decimal.ofDigits (d :: ds) < 9223372036854775808) :
    readBound span (d :: ds) = .ok (some (Decimal.ofDigits (d :: ds))) := by
  unfold readBound
  dsimp only
  split
  · next heq => cases heq
  · next heq => exact absurd (List.cons.inj heq).1 hd
  · next heq => exact absurd (List.cons.inj heq).1 hd
  · exact if_pos h

theorem readBound_of_minus {ds : List Char} (hds : ds ≠ [])
    (h : Decimal.ofDigits ds ≤ 9223372036854775808) :
    readBound span ('-' :: ds) = .ok (some (-(Decimal.ofDigits ds : Int))) := by
  unfold readBound
  dsimp only
  split
  · next heq => cases heq
  · next heq => exact absurd (List.cons.inj heq).2 hds
  · next heq =>
    cases heq
    exact if_pos h
  · next hno => exact absurd rfl (hno ds)

theorem readBound_printBound (h : InRange bound) : readBound span (printBound bound) = .ok bound := by
  match bound with
  | none => rfl
  | some (Int.ofNat n) =>
    have hn := (h _ rfl).2
    have heq := Decimal.ofDigits_toDigits n
    obtain ⟨d, ds, hdigits, hminus⟩ := toDigits_eq_cons n
    rw [Int.ofNat_eq_natCast] at hn ⊢
    rw [hdigits] at heq
    rw [printBound_ofNat, hdigits, readBound_of_digits hminus (by omega), heq]
  | some (Int.negSucc n) =>
    have hn := (h _ rfl).1
    have heq := Decimal.ofDigits_toDigits (n + 1)
    rw [printBound_negSucc, readBound_of_minus Nat.toDigits_ne_nil (by omega), heq]
    rfl

/-- The third bound of a slice has a colon of its own. -/
theorem inner_slice (start stop step : Option Int) :
    (slice start stop step).inner = printBound start ++ ':' :: (printBound stop ++
      if step.isSome then ':' :: printBound step else []) := by
  cases step <;> rfl

theorem sliceBounds?_inner (start stop step : Option Int) :
    sliceBounds? (slice start stop step).inner =
      some (printBound start, printBound stop, printBound step) := by
  rw [inner_slice]
  cases step with
  | none =>
    have hstart := takeBound_printBound start (.inr ⟨_, rfl⟩ : Stops (':' :: (printBound stop ++ [])))
    have hstop := takeBound_printBound stop (.inl rfl : Stops [])
    unfold sliceBounds?
    simp only [Option.isSome_none, Bool.false_eq_true, if_false, hstart, hstop]
    rfl
  | some i =>
    have hstart := takeBound_printBound start
      (.inr ⟨_, rfl⟩ : Stops (':' :: (printBound stop ++ ':' :: printBound (some i))))
    have hstop := takeBound_printBound stop (.inr ⟨_, rfl⟩ : Stops (':' :: printBound (some i)))
    have hstep := takeBound_printBound (some i) (.inl rfl : Stops [])
    rw [List.append_nil] at hstep
    unfold sliceBounds?
    simp only [Option.isSome_some, if_true, hstart, hstop, hstep]
    rfl

/-- The slices that can be read: bounds of 64 bits, and a step that is not negative. -/
theorem readSlice_eq_ok {a b c : List Char} (h : readSlice span a b c = .ok s) :
    ∃ start stop step, s = slice start stop step ∧ InRange start ∧ InRange stop ∧ InRange step ∧
      step.any (· < 0) = false := by
  obtain ⟨step, hstep, h⟩ := bind_eq_ok.mp h
  cases hneg : step.any (· < 0) with
  | true => simp [hneg] at h
  | false =>
    rw [hneg, if_neg Bool.false_ne_true] at h
    obtain ⟨start, hstart, h⟩ := bind_eq_ok.mp h
    obtain ⟨stop, hstop, h⟩ := bind_eq_ok.mp h
    cases h
    exact ⟨start, stop, step, rfl, inRange_of_readBound hstart, inRange_of_readBound hstop,
      inRange_of_readBound hstep, hneg⟩

theorem rereads_slice (hstart : InRange start) (hstop : InRange stop) (hstep : InRange step)
    (hneg : step.any (· < 0) = false) : (slice start stop step).Rereads := by
  have hinert : ∀ c ∈ (slice start stop step).inner, inertChar c = true := by
    intro c hc
    rw [inner_slice, List.mem_append, List.mem_cons, List.mem_append] at hc
    rcases hc with hc | rfl | hc | hc
    · exact inertChar_of_mem_printBound hc
    · rfl
    · exact inertChar_of_mem_printBound hc
    · split at hc
      · rcases List.mem_cons.mp hc with rfl | hc
        · rfl
        · exact inertChar_of_mem_printBound hc
      · cases hc
  have hcolon : ':' ∈ (slice start stop step).inner := by
    rw [inner_slice]
    simp
  refine ⟨rfl, whole_of_inert hinert, fun offset => ⟨slice start stop step, ?_, rfl⟩⟩
  rw [readItem_inert (List.ne_nil_of_mem hcolon) hinert, if_neg, sliceBounds?_inner]
  · dsimp only
    rw [readSlice, readBound_printBound hstep, readBound_printBound hstart,
      readBound_printBound hstop]
    simp only [bind, Except.bind, hneg, Bool.false_eq_true, if_false]
    rfl
  · intro hstar
    rw [hstar] at hcolon
    exact absurd hcolon (by decide)

/-! ## Expressions -/

theorem inner_clause (form : Computed) (e : Expr) (source : String) (span : Span) :
    (form.segment e source span).inner = (Clause.mk form source).written := by
  cases form <;> rfl

theorem unspanned_clause (form : Computed) (e : Expr) (source : String) (span : Span) :
    (form.segment e source span).unspanned = form.segment e.unspanned source ⟨0, 0⟩ := by
  cases form <;> rfl

theorem rereads_clause (form : Computed) {source : String} {e : Expr}
    (hwhole : Whole (Clause.mk form source).written)
    (hparse : Expr.parse source.toList offset = .ok e) (span : Span) :
    (form.segment e source span).Rereads := by
  refine ⟨?_, ?_, fun offset' => ?_⟩
  · cases form <;> rfl
  · rw [inner_clause]
    exact hwhole
  · obtain ⟨e', he', hspans⟩ :=
      Expr.parse_elsewhere hparse (offset' + Text.byteLength form.opening)
    rw [inner_clause]
    refine ⟨_, Clause.readItem_written he', ?_⟩
    rw [unspanned_clause, unspanned_clause, hspans]

theorem stripSuffix?_eq_some {c : Char} (h : stripSuffix? c cs = some text) :
    cs = text ++ [c] := by
  unfold stripSuffix? at h
  split at h
  · next hlast =>
    cases h
    exact (List.dropLast_append_getLast? c hlast).symm
  · cases h

/-! ## Alternatives -/

theorem rereads_of_readItem (htext : Whole text) (h : readItem offset text = .ok s) :
    s.Rereads := by
  have hwhole := htext.trim
  unfold readItem at h
  dsimp only at h
  split at h
  · cases h
  · next rest hitem =>
    split at h
    · cases h
    · next source hsource =>
      obtain ⟨e, he, h⟩ := bind_eq_ok.mp h
      cases h
      rw [hitem, stripSuffix?_eq_some hsource] at hwhole
      rw [← String.toList_ofList (l := source)] at he hwhole
      exact rereads_clause .filter hwhole he _
  · next rest hitem =>
    split at h
    · cases h
    · next source hsource =>
      obtain ⟨e, he, h⟩ := bind_eq_ok.mp h
      cases h
      rw [hitem, stripSuffix?_eq_some hsource] at hwhole
      rw [← String.toList_ofList (l := source)] at he hwhole
      exact rereads_clause .key hwhole he _
  · split at h
    · cases h
      exact rereads_name _
    · split at h
      · cases h
        exact rereads_wildcard
      · split at h
        · obtain ⟨start, stop, step, rfl, hstart, hstop, hstep, hneg⟩ := readSlice_eq_ok h
          exact rereads_slice hstart hstop hstep hneg
        · cases h
          exact rereads_name _

theorem rereads_of_readItems {texts : List (List Char)} {items : List Segment}
    (htexts : ∀ text ∈ texts, Whole text) (h : readItems offset texts = .ok items) :
    items.length = texts.length ∧ ∀ item ∈ items, item.Rereads := by
  induction texts generalizing offset items with
  | nil =>
    cases h
    exact ⟨rfl, fun _ h => absurd h List.not_mem_nil⟩
  | cons text texts ih =>
    rw [List.forall_mem_cons] at htexts
    obtain ⟨item, hitem, h⟩ := bind_eq_ok.mp h
    obtain ⟨items, hitems, h⟩ := bind_eq_ok.mp h
    cases h
    obtain ⟨hlength, hall⟩ := ih htexts.2 hitems
    exact ⟨by simp [hlength],
      List.forall_mem_cons.mpr ⟨rereads_of_readItem htexts.1 hitem, hall⟩⟩

theorem innerAll_cons_cons (s t : Segment) (ss : List Segment) :
    innerAll (s :: t :: ss) = s.inner ++ ',' :: innerAll (t :: ss) := rfl

theorem splitTop_innerAll (s : Segment) (ss : List Segment) (h : ∀ t ∈ s :: ss, t.Rereads) :
    splitTop none false 0 (innerAll (s :: ss)) = (s.inner, ss.map inner) := by
  induction ss generalizing s with
  | nil => exact (h s List.mem_cons_self).whole.splitTop
  | cons t ss ih =>
    rw [List.forall_mem_cons] at h
    rw [innerAll_cons_cons, h.1.whole.splitTop_append, splitTop_comma, ih t h.2, before,
      List.append_nil, List.map_cons]

theorem balanced_innerAll {ss : List Segment} (h : ∀ s ∈ ss, s.Rereads) :
    Balanced (innerAll ss) := by
  induction ss with
  | nil => exact .nil
  | cons s ss ih =>
    rw [List.forall_mem_cons] at h
    cases ss with
    | nil => exact h.1.whole.balanced
    | cons t ss => exact h.1.whole.balanced.append (.plain (by decide) (ih h.2))

theorem readItems_inner {ss : List Segment} (h : ∀ s ∈ ss, s.Rereads) (offset : Nat) :
    ∃ ss', readItems offset (ss.map inner) = .ok ss' ∧ ss'.map unspanned = ss.map unspanned := by
  induction ss generalizing offset with
  | nil => exact ⟨[], rfl, rfl⟩
  | cons s ss ih =>
    rw [List.forall_mem_cons] at h
    obtain ⟨s', hs', hs⟩ := h.1.again offset
    obtain ⟨ss', hss', hss⟩ := ih h.2 (offset + Text.byteLength s.inner + 1)
    refine ⟨s' :: ss', ?_, by rw [List.map_cons, List.map_cons, hs, hss]⟩
    rw [List.map_cons, readItems, hs', hss']
    rfl

/-! ## Between brackets -/

/-- What a segment prints is read as the segment between brackets, wherever it stands. -/
structure Bracketed (s : Segment) : Prop where
  print : s.print = '[' :: (s.inner ++ [']'])
  balanced : Balanced s.inner
  again : ∀ offset, ∃ s', readBracketed offset s.inner = .ok s' ∧ s'.unspanned = s.unspanned

theorem Rereads.bracketed (h : s.Rereads) : s.Bracketed := by
  refine ⟨h.print, h.whole.balanced, fun offset => ?_⟩
  rw [readBracketed, h.whole.splitTop]
  exact h.again offset

theorem bracketed_union {items : List Segment} (hlength : 2 ≤ items.length)
    (h : ∀ item ∈ items, item.Rereads) : (union items).Bracketed := by
  refine ⟨rfl, balanced_innerAll h, fun offset => ?_⟩
  obtain ⟨items', hread, hspans⟩ := readItems_inner h offset
  match items, hlength with
  | s :: t :: ss, _ =>
    refine ⟨union items', ?_, ?_⟩
    · rw [inner, readBracketed, splitTop_innerAll s (t :: ss) h]
      rw [List.map_cons, List.map_cons] at hread
      simp only [List.map_cons, hread, Except.map]
    · rw [unspanned, unspanned, unspannedAll_eq_map, unspannedAll_eq_map, hspans]

/-- Whatever has been read from balanced text between brackets is read again from what it prints. -/
theorem bracketed_of_readBracketed (hcs : Balanced cs) (h : readBracketed offset cs = .ok s) :
    s.Bracketed := by
  obtain ⟨hfirst, hothers⟩ := hcs.whole_splitTop
  unfold readBracketed at h
  split at h
  · next text hsplit =>
    rw [hsplit] at hfirst
    exact (rereads_of_readItem hfirst h).bracketed
  · next text texts hne hsplit =>
    rw [hsplit] at hfirst hothers
    obtain ⟨items, hitems, rfl⟩ := map_eq_ok.mp h
    obtain ⟨hlength, hall⟩ :=
      rereads_of_readItems (List.forall_mem_cons.mpr ⟨hfirst, hothers⟩) hitems
    refine bracketed_union ?_ hall
    rw [hlength, List.length_cons]
    exact Nat.succ_le_succ (List.length_pos_iff.mpr hne)

end LiveJson.Segment

import Mathlib
import LiveJson.Binding
import LiveJson.Proofs.Path.Read
import LiveJson.Segment.Reader

/-! # Declarations and their bindings

A declaration has an opener and a closer that fit, or neither; maybe the name of a model, which has no
reserved character in it and two colons behind it; and a path on one line, with or without blanks
around it. The text of a binding has each of them where it is looked for, so it declares the binding
again. Without an opener the last character can still be taken for a closer. A path that ends in one,
such as the canonical path of any location below the root, is no declaration by itself, though it is
one between braces. -/

namespace LiveJson.Binding

variable {declaration path : String} {b : Binding} {cs model : List Char}

/-- The character that a bracket begins with. -/
def Bracket.opener : Bracket → Char
  | curly => '{'
  | square => '['

/-- The brackets of a binding, by its direction. -/
def bracket (b : Binding) : Bracket := if b.twoWay then .square else .curly

/-! ## The parts of a declaration -/

@[simp] theorem opening?_opener (bracket : Bracket) (cs : List Char) :
    opening? (bracket.opener :: cs) = (some bracket, cs) := by
  cases bracket <;> rfl

@[simp] theorem closing?_closer (bracket : Bracket) (cs : List Char) :
    closing? (cs ++ [bracket.closer]) = (some bracket, cs) := by
  cases bracket <;> simp [closing?, Bracket.closer]

/-- A text that ends in no closer has none. -/
theorem closing?_eq_none (h : ∀ bracket : Bracket, cs.getLast? ≠ some bracket.closer) :
    closing? cs = (none, cs) := by
  unfold closing?
  split
  · next hlast => exact absurd hlast (h .curly)
  · next hlast => exact absurd hlast (h .square)
  · rfl

/-- A name without reserved characters ends where two colons follow it. -/
theorem splitModel_append (h : ∀ c ∈ model, isReserved c = false) (rest : List Char) :
    splitModel (model ++ ':' :: ':' :: rest) = (model, rest) := by
  have hmodel : ∀ c ∈ model, (fun c => !isReserved c) c = true := fun c hc => by simp [h c hc]
  have hcolon : ¬ (!isReserved ':') = true := by decide
  rw [splitModel, List.dropWhile_append_of_pos hmodel, List.takeWhile_append_of_pos hmodel,
    List.dropWhile_cons_of_neg (p := fun c => !isReserved c) hcolon,
    List.takeWhile_cons_of_neg (p := fun c => !isReserved c) hcolon, List.append_nil]
  rfl

/-- A reserved character in front leaves no place for a name. -/
theorem splitModel_reserved {c : Char} (hc : isReserved c = true) (hcolon : c ≠ ':') :
    splitModel (c :: cs) = ([], c :: cs) := by
  rw [splitModel, List.dropWhile_cons_of_neg (by simp [hc])]
  split
  · next heq => exact absurd (List.cons.inj heq).1 hcolon
  · rfl

theorem splitModel_model (cs : List Char) : ∀ c ∈ (splitModel cs).1, isReserved c = false := by
  unfold splitModel
  split
  · intro c hc
    simpa using List.all_eq_true.mp List.all_takeWhile c hc
  · exact fun c hc => absurd hc List.not_mem_nil

/-- What declares a binding, part by part. -/
theorem parse_eq_ok {opener closer : Option Bracket} {body rest path : List Char}
    (hopener : opening? declaration.toList = (opener, body))
    (hmodel : splitModel body = (model, rest)) (hcloser : closing? rest = (closer, path)) :
    parse declaration = .ok b ↔ '\n' ∉ path ∧ opener = closer ∧
      b = ⟨String.ofList model, String.ofList (Text.trim path), opener = some .square⟩ := by
  simp only [parse, hopener, hmodel, hcloser, List.contains_iff_mem]
  by_cases hline : '\n' ∈ path
  · simp [hline]
  · by_cases hpair : opener = closer
    · simp [hline, hpair, eq_comm]
    · simp only [hline, hpair, if_false, false_and, and_false, iff_false]
      split <;> simp

/-! ## The text of a binding -/

/-- The name of the model can stand in front of two colons, and the path is what trimming leaves of one
line. -/
structure WellFormed (b : Binding) : Prop where
  model : ∀ c ∈ b.model.toList, isReserved c = false
  line : '\n' ∉ b.path.toList
  trimmed : Text.trim b.path.toList = b.path.toList

theorem wellFormed_of_parse (h : parse declaration = .ok b) : b.WellFormed := by
  rcases hopener : opening? declaration.toList with ⟨opener, body⟩
  rcases hmodel : splitModel body with ⟨model, rest⟩
  rcases hcloser : closing? rest with ⟨closer, path⟩
  obtain ⟨hline, -, rfl⟩ := (parse_eq_ok hopener hmodel hcloser).mp h
  have hname := splitModel_model body
  rw [hmodel] at hname
  refine ⟨by rwa [String.toList_ofList], ?_, ?_⟩
  · rw [String.toList_ofList]
    exact fun hm => hline ((Text.trim_infix path).subset hm)
  · rw [String.toList_ofList, Text.trim_trim]

theorem toText_toList (b : Binding) : b.toText.toList =
    b.bracket.opener ::
      (b.model.toList ++ ':' :: ':' :: (b.path.toList ++ [b.bracket.closer])) := by
  unfold toText bracket
  rw [String.toList_ofList]
  cases b.twoWay <;> rfl

/-- The text of a binding declares the binding exactly if some declaration could. -/
theorem parse_toText_iff (b : Binding) : parse b.toText = .ok b ↔ b.WellFormed := by
  refine ⟨wellFormed_of_parse, fun h => ?_⟩
  have hopener := opening?_opener b.bracket
    (b.model.toList ++ ':' :: ':' :: (b.path.toList ++ [b.bracket.closer]))
  rw [← b.toText_toList] at hopener
  refine (parse_eq_ok hopener (splitModel_append h.model _) (closing?_closer _ _)).mpr
    ⟨h.line, rfl, ?_⟩
  have hdirection : decide (some b.bracket = some .square) = b.twoWay := by
    unfold bracket
    cases b.twoWay <;> rfl
  rw [h.trimmed, hdirection, String.ofList_toList, String.ofList_toList]

/-- **The text of a binding that has been declared in any way declares the same binding.** -/
theorem parse_toText_of_parse (h : parse declaration = .ok b) : parse b.toText = .ok b :=
  b.parse_toText_iff.mpr (wellFormed_of_parse h)

/-- Two pairs of colons, blanks around the path, and closers at its end. -/
theorem redeclared_with_closers :
    parse "[form:: $['a::b'][0]\x7d ]" = .ok ⟨"form", "$['a::b'][0]\x7d", true⟩ ∧
      parse "[form::$['a::b'][0]\x7d]" = .ok ⟨"form", "$['a::b'][0]\x7d", true⟩ := by
  have h : parse "[form:: $['a::b'][0]\x7d ]" = .ok ⟨"form", "$['a::b'][0]\x7d", true⟩ := by cbv
  have htext : toText ⟨"form", "$['a::b'][0]\x7d", true⟩ = "[form::$['a::b'][0]\x7d]" := by cbv
  exact ⟨h, htext ▸ parse_toText_of_parse h⟩

/-! ## Declarations without delimiters -/

/-- A path from the root leaves no place for the name of a model. -/
theorem splitModel_root (cs : List Char) : splitModel ('$' :: cs) = ([], '$' :: cs) :=
  splitModel_reserved (by decide) (by decide)

/-- A text that neither begins nor ends with a blank is not trimmed. -/
theorem trim_root (hend : ∀ c ∈ ('$' :: cs).getLast?, Text.isBlank c = false) :
    Text.trim ('$' :: cs) = '$' :: cs := by
  rcases List.eq_nil_or_concat' cs with rfl | ⟨ds, d, rfl⟩
  · exact Text.trim_singleton (by decide)
  · exact Text.trim_eq_self (by decide) (hend d (List.getLast?_concat (l := '$' :: ds))) ds

theorem parse_root (hpath : path.toList = '$' :: cs) (hline : '\n' ∉ '$' :: cs)
    (hend : ∀ c ∈ ('$' :: cs).getLast?, Text.isBlank c = false)
    (hcloser : ∀ bracket : Bracket, ('$' :: cs).getLast? ≠ some bracket.closer) :
    parse path = .ok ⟨"", path, false⟩ := by
  have hopener : opening? path.toList = (none, '$' :: cs) := by rw [hpath]; rfl
  refine (parse_eq_ok hopener (splitModel_root cs) (closing?_eq_none hcloser)).mpr
    ⟨hline, rfl, ?_⟩
  rw [trim_root hend, ← hpath, String.ofList_toList]
  rfl

/-- Without an opener a closer is one too many. -/
theorem parse_root_closer {bracket : Bracket} (hpath : path.toList = '$' :: cs)
    (hline : '\n' ∉ '$' :: cs) (hcloser : ('$' :: cs).getLast? = some bracket.closer) :
    parse path = .error
      ⟨.delimiters path (String.singleton bracket.opener), ⟨0, Text.byteLength path.toList⟩⟩ := by
  obtain ⟨ds, hds⟩ := List.getLast?_eq_some_iff.mp hcloser
  have hline' : '\n' ∉ ds := fun hm => hline (hds ▸ List.mem_append_left _ hm)
  have hopener : opening? ('$' :: cs) = (none, '$' :: cs) := rfl
  have hclosing : closing? ('$' :: cs) = (some bracket, ds) := by rw [hds, closing?_closer]
  simp only [parse, hpath, hopener, splitModel_root, hclosing, List.contains_iff_mem, hline',
    if_false, reduceCtorEq]
  cases bracket <;> rfl

/-- Between braces the same path is a declaration, whatever it ends in. -/
theorem parse_braced (hpath : path.toList = '$' :: cs) (hline : '\n' ∉ '$' :: cs)
    (hend : ∀ c ∈ ('$' :: cs).getLast?, Text.isBlank c = false) :
    parse ("\x7b" ++ path ++ "\x7d") = .ok ⟨"", path, false⟩ := by
  have hopener : opening? ("\x7b" ++ path ++ "\x7d").toList =
      (some .curly, '$' :: (cs ++ [Bracket.curly.closer])) := by
    rw [String.toList_append, String.toList_append, hpath]
    rfl
  refine (parse_eq_ok hopener (splitModel_root _) (closing?_closer .curly ('$' :: cs))).mpr
    ⟨hline, rfl, ?_⟩
  rw [trim_root hend, ← hpath, String.ofList_toList]
  rfl

/-- **A path from the root, on one line and without a blank at its end, is by itself a declaration
that reads it from the model with the empty name exactly if it does not end in a closer. If it does,
the opener is missed; but between braces it is such a declaration in any case.** -/
theorem bare_path_iff (hroot : path.toList.head? = some '$') (hline : '\n' ∉ path.toList)
    (hend : ∀ c ∈ path.toList.getLast?, Text.isBlank c = false) :
    (parse path = .ok ⟨"", path, false⟩ ↔
        ∀ bracket : Bracket, path.toList.getLast? ≠ some bracket.closer) ∧
      (∀ bracket : Bracket, path.toList.getLast? = some bracket.closer →
        parse path = .error
          ⟨.delimiters path (String.singleton bracket.opener), ⟨0, Text.byteLength path.toList⟩⟩) ∧
      parse ("\x7b" ++ path ++ "\x7d") = .ok ⟨"", path, false⟩ := by
  obtain ⟨cs, hpath⟩ := List.head?_eq_some_iff.mp hroot
  rw [hpath] at hline hend
  refine ⟨⟨fun h bracket hcloser => ?_, fun h => ?_⟩, fun bracket hcloser => ?_, ?_⟩
  · rw [parse_root_closer hpath hline (hpath ▸ hcloser)] at h
    cases h
  · exact parse_root hpath hline hend (hpath ▸ h)
  · exact parse_root_closer hpath hline (hpath ▸ hcloser)
  · exact parse_braced hpath hline hend

/-- A closing parenthesis is no closer, and neither is one that more of the path follows. -/
theorem bare_filter_with_test :
    Segment.read "$.a[?(@.b)]@object()" =
        .ok [.name "a", .filter (.member ⟨6, 9⟩ (.subject ⟨6, 7⟩ .current) "b") "@.b" ⟨4, 10⟩,
          .test .object] ∧
      parse "$.a[?(@.b)]@object()" = .ok ⟨"", "$.a[?(@.b)]@object()", false⟩ := by
  refine ⟨by cbv, (bare_path_iff rfl ?_ ?_).1.mpr fun bracket => ?_⟩
  · decide
  · simp [Text.isBlank]
  · cases bracket <;> decide

/-- The path of an element is one, though not a declaration: its own bracket counts as a closer. -/
theorem element_not_declared :
    Segment.read "$.items[0]" = .ok [.name "items", .name "0"] ∧
      parse "$.items[0]" = .error ⟨.delimiters "$.items[0]" "[", ⟨0, 10⟩⟩ ∧
      parse "$.items[0]" ≠ .ok ⟨"", "$.items[0]", false⟩ := by
  have h : parse "$.items[0]" = .error ⟨.delimiters "$.items[0]" "[", ⟨0, 10⟩⟩ := by cbv
  exact ⟨by cbv, h, by rw [h]; simp⟩

/-- The canonical path of a location below the root is no declaration by itself. -/
theorem canonical_not_declared {p : Path} (hne : p ≠ []) (b : Binding) :
    parse p.toText ≠ .ok b := by
  intro h
  obtain ⟨q, key, rfl⟩ := (List.eq_nil_or_concat' p).resolve_left hne
  have hlast : (Path.toText (q ++ [key])).toList =
      '$' :: ((q.flatMap Key.render ++ '[' :: key.body) ++ [Bracket.square.closer]) := by
    rw [Path.toText, String.toList_ofList, Path.canonical, List.flatMap_append]
    simp [Key.render_eq, Bracket.closer]
  have hopener := congrArg opening? hlast
  have hcloser := closing?_closer .square ('$' :: (q.flatMap Key.render ++ '[' :: key.body))
  rw [List.cons_append] at hcloser
  obtain ⟨-, hpair, -⟩ := (parse_eq_ok hopener (splitModel_root _) hcloser).mp h
  cases hpair

end LiveJson.Binding

import LiveJson.Proofs.Path.Item
import Mathlib.Data.List.Chain

/-! # Reading printed paths

The printer puts the texts of segments side by side. Two of these texts run together: `..` with `..`,
and `$` with `$`. And since a leading `$` goes without saying, one that has been said is lost unless
it stands alone. A path without these is read back as it was; and what is read from a path with two
texts that run together always has too few segments. -/

namespace LiveJson.Segment

variable {s : Segment} {segs out : List Segment} {cs rest : List Char} {c : Char}
  {stop fuel pos : Nat}

/-! ## The segments of a path -/

/-- The segments that a path is read as: some have a text of their own, the others brackets. -/
inductive Written : Segment → Prop
  | root : Written root
  | descendant : Written descendant
  | parent : Written parent
  | propertyName : Written propertyName
  | test (type : TypeTest) : Written (test type)
  | bracketed {s : Segment} (h : s.Bracketed) : Written s

/-- Where a segment of a path has been read: without brackets, or between them. -/
inductive Sourced : Segment → Prop
  | root : Sourced root
  | descendant : Sourced descendant
  | parent : Sourced parent
  | propertyName : Sourced propertyName
  | dotted {s : Segment} {pos : Nat} {cs rest : List Char} (h : readDotted pos cs = .ok (s, rest)) :
      Sourced s
  | bracketed {s : Segment} {offset : Nat} {cs : List Char} (hcs : Balanced cs)
      (h : readBracketed offset cs = .ok s) : Sourced s

theorem written_of_readDotted (h : readDotted pos cs = .ok (s, rest)) : Written s := by
  unfold readDotted at h
  split at h
  · cases h
    exact .test _
  · split at h <;> cases h
    · exact .bracketed rereads_wildcard.bracketed
    · exact .root
    · exact .bracketed (rereads_name _).bracketed

theorem Sourced.written (h : Sourced s) : Written s := by
  cases h with
  | root => exact .root
  | descendant => exact .descendant
  | parent => exact .parent
  | propertyName => exact .propertyName
  | dotted h => exact written_of_readDotted h
  | bracketed hcs h => exact .bracketed (bracketed_of_readBracketed hcs h)

theorem sourced_of_readFrom (h : readFrom stop fuel pos cs = .ok segs) : ∀ s ∈ segs, Sourced s := by
  induction fuel generalizing pos cs segs with
  | zero =>
    cases h
    exact fun _ h => absurd h List.not_mem_nil
  | succ fuel ih =>
    have hcons : ∀ {s : Segment} {pos : Nat} {cs : List Char}, Sourced s →
        (do let segs ← readFrom stop fuel pos cs
            return s :: segs) = Except.ok segs → ∀ s ∈ segs, Sourced s := by
      intro s pos cs hs h
      obtain ⟨segs', hsegs, heq⟩ := bind_eq_ok.mp h
      cases heq
      exact List.forall_mem_cons.mpr ⟨hs, ih hsegs⟩
    have hdotted : ∀ {pos : Nat} {cs : List Char},
        (do let p ← readDotted pos cs
            let segs ← readFrom stop fuel (pos + (Text.byteLength cs - Text.byteLength p.2)) p.2
            return p.1 :: segs) = Except.ok segs → ∀ s ∈ segs, Sourced s := by
      intro pos cs h
      obtain ⟨p, hp, h⟩ := bind_eq_ok.mp h
      exact hcons (.dotted hp) h
    rw [readFrom.eq_def] at h
    dsimp only at h
    split at h
    · cases h
      exact fun _ h => absurd h List.not_mem_nil
    · split at h
      · exact hcons .descendant h
      · exact hcons .descendant h
      · split at h
        · cases h
        · split at h
          · exact ih h
          · exact hdotted h
      · obtain ⟨⟨content, rest⟩, hcontent, h⟩ := bind_eq_ok.mp h
        obtain ⟨s, hs, h⟩ := bind_eq_ok.mp h
        exact hcons (.bracketed (enclosed_eq_ok_iff.mp hcontent).2 hs) h
      · cases h
      · exact hcons .parent h
      · exact hcons .propertyName h
      · exact hdotted h

/-! ## Texts side by side -/

/-- The texts of two segments run together. -/
def clash : Segment → Segment → Bool
  | root, root | descendant, descendant => true
  | _, _ => false

def isRoot : Segment → Bool
  | root => true
  | _ => false

theorem isRoot_iff : s.isRoot = true ↔ s = root := by
  cases s <;> simp [isRoot]

theorem testAhead?_print (type : TypeTest) (rest : List Char) :
    testAhead? (type.print ++ rest) = some (type, rest) := by
  have hall : type.name.toList.all Text.isAsciiLetter = true := by
    cases type <;> decide
  have hletters := List.all_eq_true.mp hall
  have hparen : Text.isAsciiLetter '(' = false := by decide
  have hprint : type.print ++ rest = '@' :: (type.name.toList ++ '(' :: ')' :: rest) := by
    simp [TypeTest.print]
  rw [hprint, testAhead?, List.dropWhile_append_of_pos hletters,
    List.takeWhile_append_of_pos hletters]
  simp [hparen, TypeTest.ofName?_name]

/-- The first character tells a root and a descendant from the other segments. -/
theorem print_eq_cons (hs : Written s) : ∃ c cs, s.print = c :: cs ∧ c ≠ '\x00' ∧
    (c = '$' → s = root) ∧ (c = '.' → s = descendant) := by
  cases hs with
  | root => exact ⟨'$', _, rfl, by decide, fun _ => rfl, fun h => absurd h (by decide)⟩
  | descendant => exact ⟨'.', _, rfl, by decide, fun h => absurd h (by decide), fun _ => rfl⟩
  | parent => exact ⟨'^', _, rfl, by decide, fun h => absurd h (by decide), fun h => absurd h (by decide)⟩
  | propertyName =>
    exact ⟨'~', _, rfl, by decide, fun h => absurd h (by decide), fun h => absurd h (by decide)⟩
  | test type =>
    exact ⟨'@', _, rfl, by decide, fun h => absurd h (by decide), fun h => absurd h (by decide)⟩
  | bracketed h =>
    exact ⟨'[', _, h.print, by decide, fun h => absurd h (by decide), fun h => absurd h (by decide)⟩

/-- A name without quotes ends where the text of a segment other than `$` begins. -/
theorem takeName_print (hs : Written s) (hroot : s ≠ root) (rest : List Char) :
    takeName true (s.print ++ rest) = ([], s.print ++ rest) := by
  have hends : ∀ {c cs}, endsName c = true → takeName true (c :: cs) = ([], c :: cs) := by
    intro c cs h
    rw [takeName, h]
    rfl
  cases hs with
  | root => exact absurd rfl hroot
  | descendant => exact hends rfl
  | parent => exact hends rfl
  | propertyName => exact hends rfl
  | test type =>
    have htest := testAhead?_print type rest
    rw [print]
    cases hprint : type.print ++ rest with
    | nil => rfl
    | cons c cs =>
      rw [hprint] at htest
      rw [takeName, htest]
      simp
  | bracketed h =>
    rw [h.print]
    exact hends rfl

/-- A run of roots is taken as one name. -/
theorem takeName_roots (hsegs : ∀ s ∈ segs, Written s) :
    takeName true (segs.flatMap print) =
      ((segs.takeWhile isRoot).flatMap print, (segs.dropWhile isRoot).flatMap print) := by
  induction segs with
  | nil => rfl
  | cons s segs ih =>
    rw [List.forall_mem_cons] at hsegs
    cases hroot : s.isRoot with
    | true =>
      have hdollar : testAhead? ('$' :: segs.flatMap print) = none := rfl
      have hname : endsName '$' = false := rfl
      rw [List.takeWhile_cons_of_pos hroot, List.dropWhile_cons_of_pos hroot, isRoot_iff.mp hroot,
        List.flatMap_cons, print, List.singleton_append, takeName, hdollar, hname, ih hsegs.2]
      rfl
    | false =>
      have hne : s ≠ root := fun h => by rw [isRoot_iff.mpr h] at hroot; cases hroot
      rw [List.flatMap_cons, takeName_print hsegs.1 hne]
      simp [hroot]

/-! ## Step by step -/

theorem not_atEnd (hc : c ≠ '\x00') (cs : List Char) : ¬ atEnd (c :: cs) = true := by
  simpa [atEnd] using hc

theorem bind_cons (s : Segment) (found : Except PathError (List Segment)) :
    (do return s :: (← found)) = found.map (s :: ·) := by
  cases found <;> rfl

theorem readFrom_nil (stop fuel pos : Nat) : readFrom stop (fuel + 1) pos [] = .ok [] := rfl

theorem readFrom_bracket (hcs : Balanced cs) (hs : readBracketed (pos + 1) cs = .ok s)
    (stop fuel : Nat) (rest : List Char) :
    readFrom stop (fuel + 1) pos ('[' :: (cs ++ ']' :: rest)) =
      (readFrom stop fuel (pos + Text.byteLength cs + 2) rest).map (s :: ·) := by
  rw [readFrom, if_neg (not_atEnd (by decide) _), hcs.enclosed_eq, ← bind_cons]
  simp only [hs, bind, Except.bind]

theorem readFrom_descendant (h : cs.head? ≠ some '.') (stop fuel pos : Nat) :
    readFrom stop (fuel + 1) pos ('.' :: '.' :: cs) =
      (readFrom stop fuel (pos + 2) cs).map (descendant :: ·) := by
  rw [readFrom, if_neg (not_atEnd (by decide) _), bind_cons]
  rintro cs' heq
  cases heq
  exact h rfl

theorem readFrom_dots (stop fuel pos : Nat) (cs : List Char) :
    readFrom stop (fuel + 1) pos ('.' :: '.' :: '.' :: cs) =
      (readFrom stop fuel (pos + 3) cs).map (descendant :: ·) := by
  rw [readFrom, if_neg (not_atEnd (by decide) _), bind_cons]

theorem readFrom_parent (stop fuel pos : Nat) (cs : List Char) :
    readFrom stop (fuel + 1) pos ('^' :: cs) =
      (readFrom stop fuel (pos + 1) cs).map (parent :: ·) := by
  rw [readFrom, if_neg (not_atEnd (by decide) _), bind_cons]

theorem readFrom_propertyName (stop fuel pos : Nat) (cs : List Char) :
    readFrom stop (fuel + 1) pos ('~' :: cs) =
      (readFrom stop fuel (pos + 1) cs).map (propertyName :: ·) := by
  rw [readFrom, if_neg (not_atEnd (by decide) _), bind_cons]

/-- The segments of a text that begins with a segment without brackets. -/
def readNamed (stop fuel pos : Nat) (cs : List Char) : Except PathError (List Segment) := do
  let (s, rest) ← readDotted pos cs
  (readFrom stop fuel (pos + (Text.byteLength cs - Text.byteLength rest)) rest).map (s :: ·)

/-- The characters that begin a segment of another kind than a name. -/
def begins (c : Char) : Bool :=
  c == '\x00' || c == '.' || c == '[' || c == ']' || c == '^' || c == '~'

theorem readFrom_named (hc : begins c = false) (stop fuel pos : Nat) (cs : List Char) :
    readFrom stop (fuel + 1) pos (c :: cs) = readNamed stop fuel pos (c :: cs) := by
  simp only [begins, Bool.or_eq_false_iff, beq_eq_false_iff_ne] at hc
  obtain ⟨⟨⟨⟨⟨hzero, hdot⟩, hopen⟩, hclose⟩, hcaret⟩, htilde⟩ := hc
  rw [readFrom.eq_def]
  dsimp only
  rw [if_neg (not_atEnd hzero cs)]
  split
  · next heq => exact absurd (List.cons.inj heq).1 hdot
  · next heq => exact absurd (List.cons.inj heq).1 hdot
  · next heq => exact absurd (List.cons.inj heq).1 hdot
  · next heq => exact absurd (List.cons.inj heq).1 hopen
  · next heq => exact absurd (List.cons.inj heq).1 hclose
  · next heq => exact absurd (List.cons.inj heq).1 hcaret
  · next heq => exact absurd (List.cons.inj heq).1 htilde
  · simp only [readNamed, ← bind_cons]

theorem readFrom_dot_bracket (stop fuel pos : Nat) (cs : List Char) :
    readFrom stop (fuel + 1) pos ('.' :: '[' :: cs) = readFrom stop fuel (pos + 1) ('[' :: cs) := by
  rw [readFrom, if_neg (not_atEnd (by decide) _), if_neg (not_atEnd (by decide) _),
    if_pos List.head?_cons]
  all_goals
    rintro cs' heq
    cases heq

/-- Behind a dot comes a name, whatever it begins with. -/
theorem readFrom_dot_named (hzero : c ≠ '\x00') (hdot : c ≠ '.') (hopen : c ≠ '[')
    (stop fuel pos : Nat) (cs : List Char) :
    readFrom stop (fuel + 1) pos ('.' :: c :: cs) = readNamed stop fuel (pos + 1) (c :: cs) := by
  have hhead : (c :: cs).head? ≠ some '[' := fun h => hopen (Option.some.inj h)
  rw [readFrom, if_neg (not_atEnd (by decide) _), if_neg (not_atEnd hzero _), if_neg hhead]
  · simp only [readNamed, ← bind_cons]
  all_goals
    rintro cs' heq
    cases heq
    exact hdot rfl

theorem readNamed_test (type : TypeTest) (stop fuel pos : Nat) (rest : List Char) :
    ∃ pos', readNamed stop fuel pos (type.print ++ rest) =
      (readFrom stop fuel pos' rest).map (test type :: ·) := by
  rw [readNamed, readDotted, testAhead?_print]
  exact ⟨_, rfl⟩

/-- A root is read with all the roots that come next. -/
theorem readDotted_roots (hsegs : ∀ s ∈ segs, Written s) (pos : Nat) :
    ∃ s, readDotted pos ('$' :: segs.flatMap print) =
        .ok (s, (segs.dropWhile isRoot).flatMap print) ∧
      (segs.head? ≠ some root → s = root) := by
  have hdollar : testAhead? ('$' :: segs.flatMap print) = none := rfl
  have hname : endsName '$' = false := rfl
  have htake : takeName false ('$' :: segs.flatMap print) =
      ('$' :: (segs.takeWhile isRoot).flatMap print, (segs.dropWhile isRoot).flatMap print) := by
    rw [takeName, hname, takeName_roots hsegs]
    rfl
  rw [readDotted, hdollar, htake]
  cases hrun : (segs.takeWhile isRoot).flatMap print with
  | nil => exact ⟨root, rfl, fun _ => rfl⟩
  | cons c cs =>
    refine ⟨name (String.ofList ('$' :: c :: cs)), rfl, fun hhead => ?_⟩
    cases segs with
    | nil => cases hrun
    | cons s segs =>
      have hroot : ¬ s.isRoot = true := fun h => hhead (by rw [isRoot_iff.mp h]; rfl)
      rw [List.takeWhile_cons_of_neg hroot] at hrun
      cases hrun

theorem readNamed_roots (hsegs : ∀ s ∈ segs, Written s) (stop fuel pos : Nat) :
    ∃ s pos', readNamed stop fuel pos ('$' :: segs.flatMap print) =
        (readFrom stop fuel pos' ((segs.dropWhile isRoot).flatMap print)).map (s :: ·) ∧
      (segs.head? ≠ some root → s = root) := by
  obtain ⟨s, hs, hroot⟩ := readDotted_roots hsegs pos
  rw [readNamed, hs]
  exact ⟨s, _, rfl, hroot⟩

/-! ## Paths that are read back -/

/-- The texts of the segments, one after the other, can be told apart. -/
def Separate (segs : List Segment) : Prop := segs.IsChain fun s t => clash s t = false

theorem head?_flatMap_print (hsegs : ∀ s ∈ segs, Written s) (h : segs.head? ≠ some descendant) :
    (segs.flatMap print).head? ≠ some '.' := by
  cases segs with
  | nil => exact nofun
  | cons s segs =>
    obtain ⟨c, cs, hprint, -, -, hdot⟩ := print_eq_cons (hsegs s List.mem_cons_self)
    rw [List.flatMap_cons, hprint]
    rintro hhead
    exact h (congrArg some (hdot (Option.some.inj hhead)))

theorem dropWhile_isRoot (h : segs.head? ≠ some root) : segs.dropWhile isRoot = segs := by
  cases segs with
  | nil => rfl
  | cons s segs =>
    rw [List.dropWhile_cons_of_neg]
    exact fun hroot => h (congrArg some (isRoot_iff.mp hroot))

/-- The text of a segment is read as the segment, if the next text does not run together with it. -/
theorem readFrom_print (hs : Written s) (hsegs : ∀ t ∈ segs, Written t)
    (hclash : ∀ t ∈ segs.head?, clash s t = false) (stop fuel pos : Nat) :
    ∃ s' pos', s'.unspanned = s.unspanned ∧
      readFrom stop (fuel + 1) pos (s.print ++ segs.flatMap print) =
        (readFrom stop fuel pos' (segs.flatMap print)).map (s' :: ·) := by
  cases hs with
  | root =>
    have hhead : segs.head? ≠ some root := fun h => absurd (hclash root h) (by decide)
    obtain ⟨s, pos', hread, hroot⟩ := readNamed_roots hsegs stop fuel pos
    rw [dropWhile_isRoot hhead, hroot hhead] at hread
    refine ⟨root, pos', rfl, ?_⟩
    rw [← hread]
    exact readFrom_named rfl ..
  | descendant =>
    have hhead : segs.head? ≠ some descendant := fun h => absurd (hclash descendant h) (by decide)
    exact ⟨descendant, _, rfl, readFrom_descendant (head?_flatMap_print hsegs hhead) ..⟩
  | parent => exact ⟨parent, _, rfl, readFrom_parent ..⟩
  | propertyName => exact ⟨propertyName, _, rfl, readFrom_propertyName ..⟩
  | test type =>
    obtain ⟨pos', hread⟩ := readNamed_test type stop fuel pos (segs.flatMap print)
    refine ⟨test type, pos', rfl, ?_⟩
    rw [← hread]
    exact readFrom_named rfl ..
  | bracketed h =>
    obtain ⟨s', hs', hspans⟩ := h.again (pos + 1)
    refine ⟨s', pos + Text.byteLength s.inner + 2, hspans, ?_⟩
    rw [h.print, List.cons_append, List.append_assoc, List.singleton_append]
    exact readFrom_bracket h.balanced hs' ..

/-- Segments whose texts can be told apart are read back. -/
theorem Separate.readFrom (h : Separate segs) (hsegs : ∀ s ∈ segs, Written s)
    (hfuel : segs.length < fuel) (stop pos : Nat) :
    ∃ segs', Segment.readFrom stop fuel pos (segs.flatMap print) = .ok segs' ∧
      segs'.map unspanned = segs.map unspanned := by
  induction segs generalizing fuel pos with
  | nil =>
    cases fuel with
    | zero => exact absurd hfuel (Nat.not_lt_zero _)
    | succ fuel => exact ⟨[], readFrom_nil .., rfl⟩
  | cons s segs ih =>
    cases fuel with
    | zero => exact absurd hfuel (Nat.not_lt_zero _)
    | succ fuel =>
      rw [List.forall_mem_cons] at hsegs
      obtain ⟨hclash, htail⟩ := List.isChain_cons.mp h
      obtain ⟨s', pos', hspans, hread⟩ := readFrom_print hsegs.1 hsegs.2 hclash stop fuel pos
      obtain ⟨segs', hsegs', hall⟩ := ih htail hsegs.2 (Nat.lt_of_succ_lt_succ hfuel) pos'
      rw [List.flatMap_cons, hread, hsegs']
      exact ⟨s' :: segs', rfl, by rw [List.map_cons, List.map_cons, hspans, hall]⟩

/-! ## Paths that are not -/

theorem readNamed_end (h : endsName c = true) (hat : c ≠ '@') (stop fuel pos : Nat) (cs : List Char) :
    readNamed stop fuel pos (c :: cs) = .error { cause := .noName c, span := ⟨pos, pos + 1⟩ } := by
  have hahead : testAhead? (c :: cs) = none := by
    unfold testAhead?
    split
    · next heq => exact absurd (List.cons.inj heq).1 hat
    · rfl
  rw [readNamed, readDotted, hahead, takeName, h]
  rfl

/-- Behind a dot that no segment has printed, the segments are read as usual, or the first ones are
taken for a single one. -/
theorem readFrom_dot_print (hsegs : ∀ s ∈ segs, Written s)
    (h : readFrom stop (fuel + 1) pos ('.' :: segs.flatMap print) = .ok out) :
    (∃ pos', readFrom stop fuel pos' (segs.flatMap print) = .ok out) ∨
      ∃ (s : Segment) (segs' out' : List Segment) (pos' : Nat), out = s :: out' ∧
        segs'.length < segs.length ∧ (∀ s ∈ segs', Written s) ∧
        readFrom stop fuel pos' (segs'.flatMap print) = .ok out' := by
  cases segs with
  | nil => cases h
  | cons s segs =>
    rw [List.forall_mem_cons] at hsegs
    have hshort : segs.length < (s :: segs).length := Nat.lt_succ_self _
    rw [List.flatMap_cons] at h ⊢
    cases hsegs.1 with
    | root =>
      obtain ⟨s', pos', hread, -⟩ := readNamed_roots hsegs.2 stop fuel (pos + 1)
      have hdot := readFrom_dot_named (c := '$') (by decide) (by decide) (by decide) stop fuel pos
        (segs.flatMap print)
      obtain ⟨out', hout', rfl⟩ := map_eq_ok.mp ((hdot.trans hread).symm.trans h)
      have hsuffix := List.dropWhile_suffix (l := segs) isRoot
      exact .inr ⟨s', _, out', pos', rfl, Nat.lt_of_le_of_lt hsuffix.length_le hshort,
        fun t ht => hsegs.2 t (hsuffix.subset ht), hout'⟩
    | descendant =>
      obtain ⟨out', hout', rfl⟩ := map_eq_ok.mp ((readFrom_dots ..).symm.trans h)
      exact .inr ⟨descendant, segs, out', _, rfl, hshort, hsegs.2, hout'⟩
    | parent =>
      have hdot := readFrom_dot_named (c := '^') (by decide) (by decide) (by decide) stop fuel pos
        (segs.flatMap print)
      rw [readNamed_end rfl (by decide)] at hdot
      cases hdot.symm.trans h
    | propertyName =>
      have hdot := readFrom_dot_named (c := '~') (by decide) (by decide) (by decide) stop fuel pos
        (segs.flatMap print)
      rw [readNamed_end rfl (by decide)] at hdot
      cases hdot.symm.trans h
    | test type =>
      obtain ⟨pos', hread⟩ := readNamed_test type stop fuel (pos + 1) (segs.flatMap print)
      have hdot : readFrom stop (fuel + 1) pos ('.' :: (type.print ++ segs.flatMap print)) = _ :=
        readFrom_dot_named (c := '@') (by decide) (by decide) (by decide) ..
      obtain ⟨out', hout', rfl⟩ := map_eq_ok.mp ((hdot.trans hread).symm.trans h)
      exact .inr ⟨test type, segs, out', pos', rfl, hshort, hsegs.2, hout'⟩
    | bracketed hs =>
      rw [hs.print] at h ⊢
      exact .inl ⟨_, (readFrom_dot_bracket ..).symm.trans h⟩

/-- Two texts that run together are read as one segment, and maybe a dot. -/
theorem readFrom_clash {t : Segment} (hclash : clash s t = true) (hsegs : ∀ s ∈ segs, Written s)
    (h : readFrom stop (fuel + 1) pos (s.print ++ (t.print ++ segs.flatMap print)) = .ok out) :
    ∃ (s : Segment) (out' : List Segment) (pos' : Nat), out = s :: out' ∧
      (readFrom stop fuel pos' ((segs.dropWhile isRoot).flatMap print) = .ok out' ∨
        readFrom stop fuel pos' ('.' :: segs.flatMap print) = .ok out') := by
  unfold clash at hclash
  split at hclash
  · have hroots : ∀ s ∈ root :: segs, Written s := List.forall_mem_cons.mpr ⟨.root, hsegs⟩
    obtain ⟨s', pos', hread, -⟩ := readNamed_roots hroots stop fuel pos
    have hnamed := readFrom_named (c := '$') rfl stop fuel pos ((root :: segs).flatMap print)
    obtain ⟨out', hout', rfl⟩ := map_eq_ok.mp ((hnamed.trans hread).symm.trans h)
    exact ⟨s', out', pos', rfl, .inl hout'⟩
  · obtain ⟨out', hout', rfl⟩ := map_eq_ok.mp ((readFrom_dots ..).symm.trans h)
    exact ⟨descendant, out', _, rfl, .inr hout'⟩
  · cases hclash

/-- With some fuel, no more segments are read than have been printed, and fewer if texts run
together. -/
structure Bounded (stop fuel : Nat) : Prop where
  plain : ∀ {pos : Nat} {segs out : List Segment}, (∀ s ∈ segs, Written s) →
    readFrom stop fuel pos (segs.flatMap print) = .ok out →
      out.length ≤ segs.length ∧ (¬ Separate segs → out.length < segs.length)
  dotted : ∀ {pos : Nat} {segs out : List Segment}, (∀ s ∈ segs, Written s) →
    readFrom stop fuel pos ('.' :: segs.flatMap print) = .ok out → out.length ≤ segs.length

theorem not_separate (h : ¬ Separate segs) : 0 < segs.length := by
  cases segs with
  | nil => exact absurd List.IsChain.nil h
  | cons s segs => exact Nat.succ_pos _

theorem bounded (stop fuel : Nat) : Bounded stop fuel := by
  induction fuel with
  | zero =>
    refine ⟨fun _ h => ?_, fun _ h => ?_⟩
    · cases h
      exact ⟨Nat.zero_le _, not_separate⟩
    · cases h
      exact Nat.zero_le _
  | succ fuel ih =>
    refine ⟨fun {pos segs out} hsegs h => ?_, fun {pos segs out} hsegs h => ?_⟩
    · cases segs with
      | nil =>
        cases h
        exact ⟨Nat.le_refl _, fun h => absurd List.IsChain.nil h⟩
      | cons s segs =>
        rw [List.forall_mem_cons] at hsegs
        rw [List.flatMap_cons] at h
        by_cases hclash : ∀ t ∈ segs.head?, clash s t = false
        · obtain ⟨s', pos', -, hread⟩ := readFrom_print hsegs.1 hsegs.2 hclash stop fuel pos
          obtain ⟨out', hout', rfl⟩ := map_eq_ok.mp (hread.symm.trans h)
          obtain ⟨hle, hlt⟩ := ih.plain hsegs.2 hout'
          refine ⟨Nat.succ_le_succ hle, fun hnot => Nat.succ_lt_succ (hlt fun htail => hnot ?_)⟩
          exact List.isChain_cons.mpr ⟨hclash, htail⟩
        · cases segs with
          | nil => exact absurd (fun t ht => by cases ht) hclash
          | cons t segs =>
            rw [List.forall_mem_cons] at hsegs
            have hclash : clash s t = true := by simpa using hclash
            rw [List.flatMap_cons] at h
            obtain ⟨s', out', pos', rfl, hout'⟩ := readFrom_clash hclash hsegs.2.2 h
            have hle : out'.length ≤ segs.length := by
              rcases hout' with hout' | hout'
              · have hsuffix := List.dropWhile_suffix (l := segs) isRoot
                have hwritten := fun t ht => hsegs.2.2 t (hsuffix.subset ht)
                exact (ih.plain hwritten hout').1.trans hsuffix.length_le
              · exact ih.dotted hsegs.2.2 hout'
            have hlt : (s' :: out').length < (s :: t :: segs).length :=
              Nat.succ_lt_succ (Nat.lt_succ_of_le hle)
            exact ⟨Nat.le_of_lt hlt, fun _ => hlt⟩
    · rcases readFrom_dot_print hsegs h with ⟨pos', hread⟩ | ⟨s, segs', out', pos', rfl, hlt, hw, hread⟩
      · exact (ih.plain hsegs hread).1
      · exact Nat.succ_le_of_lt (Nat.lt_of_le_of_lt (ih.plain hw hread).1 hlt)

/-! ## Whole paths -/

theorem sourced_of_ofChars (h : ofChars cs = .ok segs) : ∀ s ∈ segs, Sourced s := by
  unfold ofChars at h
  dsimp only at h
  split at h
  · cases h
  · split at h
    · split at h
      · cases h
        exact List.forall_mem_singleton.mpr .root
      · exact sourced_of_readFrom h
    · exact sourced_of_readFrom h

theorem written_of_ofChars (h : ofChars cs = .ok segs) : ∀ s ∈ segs, Written s :=
  fun s hs => (sourced_of_ofChars h s hs).written

theorem ofChars_dollar (hcs : ¬ atEnd cs = true) :
    ofChars ('$' :: cs) =
      readFrom (Text.byteLength ('$' :: cs)) (('$' :: cs).length + 1) 1 cs := by
  have htrim : (Text.trim ('$' :: cs)).isEmpty = false :=
    List.isEmpty_eq_false_iff.mpr (Text.trim_ne_nil (by decide) _)
  unfold ofChars
  dsimp only
  rw [htrim, if_neg Bool.false_ne_true]
  exact if_neg hcs

theorem length_le_flatMap_print (hsegs : ∀ s ∈ segs, Written s) :
    segs.length ≤ (segs.flatMap print).length := by
  induction segs with
  | nil => exact Nat.le_refl _
  | cons s segs ih =>
    rw [List.forall_mem_cons] at hsegs
    obtain ⟨c, cs, hprint, -⟩ := print_eq_cons hsegs.1
    have := ih hsegs.2
    rw [List.flatMap_cons, hprint, List.length_append, List.length_cons, List.length_cons]
    omega

theorem not_atEnd_flatMap_print (hsegs : ∀ s ∈ segs, Written s) (hne : segs ≠ []) :
    ¬ atEnd (segs.flatMap print) = true := by
  cases segs with
  | nil => exact absurd rfl hne
  | cons s segs =>
    obtain ⟨c, cs, hprint, hzero, -⟩ := print_eq_cons (hsegs s List.mem_cons_self)
    rw [List.flatMap_cons, hprint]
    exact not_atEnd hzero _

/-- The segments can be told from their text: there are some, no two texts run together, and there is
no leading root, unless it stands alone. -/
def Legible : List Segment → Prop
  | [] => False
  | root :: segs => segs = []
  | segs => Separate segs

/-- A leading root goes without saying, so it is not read again. -/
theorem ofChars_root (hsegs : ∀ s ∈ segs, Written s) (hne : segs ≠ [])
    (h : ofChars (printAll (root :: segs)) = .ok out) : out.length ≤ segs.length := by
  have hprint : printAll (root :: segs) = '$' :: segs.flatMap print := rfl
  rw [hprint, ofChars_dollar (not_atEnd_flatMap_print hsegs hne)] at h
  exact ((bounded _ _).plain hsegs h).1

theorem printAll_of_ne_root (hs : Written s) (hroot : s ≠ root) :
    printAll (s :: segs) = '$' :: (s :: segs).flatMap print := by
  obtain ⟨c, cs, hprint, -, hdollar, -⟩ := print_eq_cons hs
  rw [printAll, if_neg]
  rw [List.flatMap_cons, hprint]
  exact fun h => hroot (hdollar (Option.some.inj h))

theorem ofChars_printAll_iff (hsegs : ∀ s ∈ segs, Written s) :
    (∃ again, ofChars (printAll segs) = .ok again ∧ again.map unspanned = segs.map unspanned) ↔
      Legible segs := by
  unfold Legible
  split
  · refine iff_of_false ?_ id
    rintro ⟨again, hagain, hspans⟩
    cases hagain
    cases hspans
  · next segs =>
    rw [List.forall_mem_cons] at hsegs
    constructor
    · rintro ⟨again, hagain, hspans⟩
      by_contra hne
      have hle := ofChars_root hsegs.2 hne hagain
      have hlength := congrArg List.length hspans
      simp only [List.length_map, List.length_cons] at hlength
      omega
    · rintro rfl
      exact ⟨[root], rfl, rfl⟩
  · next hne hroot =>
    cases segs with
    | nil => exact absurd rfl hne
    | cons s segs =>
      have hs : s ≠ root := fun h => hroot segs (by rw [h])
      rw [printAll_of_ne_root (hsegs s List.mem_cons_self) hs,
        ofChars_dollar (not_atEnd_flatMap_print hsegs hne)]
      constructor
      · rintro ⟨again, hagain, hspans⟩
        by_contra hnot
        have hlt := ((bounded _ _).plain hsegs hagain).2 hnot
        have hlength := congrArg List.length hspans
        simp only [List.length_map] at hlength
        omega
      · intro hsep
        have hlength := length_le_flatMap_print hsegs
        refine hsep.readFrom hsegs (Nat.lt_succ_of_le ?_) _ _
        exact hlength.trans (Nat.le_succ _)

/-- **A path is read back from the text of its segments, spans apart, exactly if it has segments, no
two roots and no two descendants side by side, and no leading root besides others.** -/
theorem read_printAll_iff {path : String} (h : read path = .ok segs) :
    (∃ again, read (String.ofList (printAll segs)) = .ok again ∧
      again.map unspanned = segs.map unspanned) ↔ Legible segs := by
  rw [read, String.toList_ofList]
  exact ofChars_printAll_iff (written_of_ofChars h)

/-- The dot in front of a bracket is not printed, so the filter in it is read back with other
spans. -/
theorem filter_read_back : ∃ condition again,
    read "$.[?( @.b)]..$" = .ok [filter condition " @.b" ⟨3, 10⟩, descendant, root] ∧
    read "$[?( @.b)]..$" = .ok again ∧
    again.map unspanned = [filter condition.unspanned " @.b" ⟨0, 0⟩, descendant, root] := by
  have hparse : ∃ e, Expr.parse [' ', '@', '.', 'b'] 5 = .ok e := ⟨_, rfl⟩
  obtain ⟨e, hparse⟩ := hparse
  have hitem : readBracketed 3 ['?', '(', ' ', '@', '.', 'b', ')'] =
      .ok (filter e " @.b" ⟨3, 10⟩) := Clause.readItem_written (c := ⟨.filter, " @.b"⟩) hparse
  have hgroup : Balanced ('(' :: ([' ', '@', '.', 'b'] ++ [')'])) :=
    .bracketed rfl (.plain rfl (.plain rfl (.plain rfl (.plain rfl .nil)))) .nil
  have hread : read "$.[?( @.b)]..$" = .ok [filter e " @.b" ⟨3, 10⟩, descendant, root] :=
    readFrom_bracket (.plain rfl hgroup) hitem 14 13 ['.', '.', '$']
  have hlegible : Legible [filter e " @.b" ⟨3, 10⟩, descendant, root] :=
    .cons_cons rfl (.cons_cons rfl (.singleton _))
  obtain ⟨again, hagain, hspans⟩ := (read_printAll_iff hread).mpr hlegible
  exact ⟨e, again, hread, hagain, hspans⟩

/-- The root that has been said twice is not printed twice. -/
theorem leading_root_lost : read "$$.a" = .ok [root, name "a"] ∧
    String.ofList (printAll [root, name "a"]) = "$['a']" ∧
    read "$['a']" = .ok [name "a"] :=
  ⟨rfl, rfl, rfl⟩

end LiveJson.Segment

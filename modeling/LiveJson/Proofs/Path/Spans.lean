import Mathlib
import LiveJson.Proofs.Expr.Nodes
import LiveJson.Proofs.Path.Bracketed

/-! # The spans of a path

Each part of the reader knows at which byte of the path its text stands, and hands the parts of the
text on with the bytes where they stand. So the span of an expression between brackets cuts out what
is written there, its nodes have their places in that, and an error is somewhere in the path. -/

namespace LiveJson.Segment

open Text (At byteLength)

variable {path cs ds text content rest piece : List Char} {pos stop offset opened start : Nat}
  {s : Segment} {segs : List Segment}

/-! ## Readers -/

/-- A reader of a part of the path comes to something of the kind, or fails somewhere in the path. -/
def Spanned {α : Type} (path : List Char) (P : α → Prop) : Except PathError α → Prop
  | .ok a => P a
  | .error e => e.span.Within 0 path

namespace Spanned

variable {α β : Type} {P : α → Prop} {Q : β → Prop} {x : Except PathError α}

theorem bind {f : α → Except PathError β} (h : Spanned path P x)
    (hf : ∀ a, x = .ok a → P a → Spanned path Q (f a)) : Spanned path Q (x >>= f) := by
  cases x with
  | error e => exact h
  | ok a => exact hf a rfl h

theorem mono {P' : α → Prop} (h : Spanned path P x) (hP : ∀ a, P a → P' a) : Spanned path P' x := by
  cases x with
  | error e => exact h
  | ok a => exact hP a h

end Spanned

/-- If the segment is made of an expression, its span cuts out what is written between the brackets,
and every node of the expression has its place in the source and thus in the path. -/
def Placed (path : List Char) (s : Segment) : Prop :=
  ∀ (c : Clause) (e : Expr) (span : Span), s = c.form.segment e c.text span →
    span.Cuts 0 path c.written ∧
    ∀ n ∈ e.nodes, n.Located c.text.toList (span.start + byteLength c.form.opening) ∧
      ∀ piece, n.span.Cuts (span.start + byteLength c.form.opening) c.text.toList piece →
        n.span.Cuts 0 path piece

/-- The segment is none of an expression. -/
def plain : Segment → Bool
  | filter .. | computed .. => false
  | _ => true

/-- Without an expression there is nothing to place. -/
theorem placed_of_plain (h : s.plain = true) : Placed path s := by
  intro c e span hs
  rw [hs] at h
  cases c with
  | mk form text => cases form <;> cases h

/-! ## Expressions -/

theorem spanned_parse (h : At path pos text) :
    Spanned path (fun e => ∀ n ∈ e.nodes, n.Located text pos) (Expr.parse text pos) := by
  cases hparse : Expr.parse text pos with
  | ok e => exact Expr.located_of_parse hparse
  | error error =>
    rcases Expr.within_of_parse_error hparse with hwithin | hzero
    · exact h.within_inside hwithin
    · show error.span.Within 0 path
      have hstart : Text.Boundary 0 path 0 := (Text.at_self path).boundary
      rw [hzero]
      exact ⟨Nat.le_refl 0, hstart, hstart⟩

/-- The expression of a clause that stands in the path. -/
theorem spanned_clause (c : Clause) (h : At path pos c.written) :
    Spanned path (Placed path) (do
      let e ← Expr.parse c.text.toList (pos + byteLength c.form.opening)
      return c.form.segment e c.text ⟨pos, pos + byteLength c.written⟩) := by
  have hsource : At path (pos + byteLength c.form.opening) c.text.toList := h.right.left
  refine (spanned_parse hsource).bind fun e _ he => ?_
  intro c' e' span hs
  obtain ⟨rfl, rfl, rfl⟩ : c' = c ∧ e' = e ∧ span = ⟨pos, pos + byteLength c.written⟩ := by
    obtain ⟨form, text⟩ := c
    obtain ⟨form', text'⟩ := c'
    cases form <;> cases form' <;> cases hs <;> exact ⟨rfl, rfl, rfl⟩
  exact ⟨h.cuts, fun n hn => ⟨he n hn, fun piece hpiece => hsource.cuts_inside hpiece⟩⟩

/-! ## Between brackets -/

/-- Where the text without its blanks stands. -/
theorem at_trim (h : At path pos text) :
    At path (pos + byteLength (text.takeWhile Text.isBlank)) (Text.trim text) := by
  obtain ⟨tail, htail⟩ := Text.dropTrailing_isPrefix Text.isBlank (Text.trimStart text)
  have htext : text = text.takeWhile Text.isBlank ++ (Text.trim text ++ tail) := by
    rw [Text.trim, Text.trimEnd, htail, Text.trimStart, List.takeWhile_append_dropWhile]
  exact (htext ▸ h : At path pos (_ ++ (_ ++ _))).right.left

theorem spanned_readBound {span : Span} (hspan : span.Within 0 path) (cs : List Char) :
    Spanned path (fun _ => True) (readBound span cs) := by
  unfold readBound
  dsimp only
  split
  · trivial
  · exact hspan
  · split
    · trivial
    · exact hspan
  · split
    · trivial
    · exact hspan

theorem spanned_readSlice {span : Span} (hspan : span.Within 0 path) (first last step : List Char) :
    Spanned path (fun s => s.plain = true) (readSlice span first last step) := by
  refine (spanned_readBound hspan step).bind fun step _ _ => ?_
  split
  · exact hspan
  · refine (spanned_readBound hspan first).bind fun first _ _ => ?_
    exact (spanned_readBound hspan last).bind fun last _ _ => rfl

theorem spanned_readItem (h : At path offset text) :
    Spanned path (Placed path) (readItem offset text) := by
  have hitem := at_trim h
  unfold readItem
  dsimp only
  generalize offset + byteLength (text.takeWhile Text.isBlank) = pos at hitem ⊢
  generalize Text.trim text = item at hitem ⊢
  have hmissing : Span.Within ⟨pos + byteLength item, pos + byteLength item⟩ 0 path :=
    ⟨Nat.le_refl _, hitem.boundary_behind, hitem.boundary_behind⟩
  split
  · exact hitem.cuts.within
  · split
    · exact hmissing
    · next source hsource =>
      obtain rfl := stripSuffix?_eq_some hsource
      have hclause := @spanned_clause path pos ⟨.filter, String.ofList source⟩
      simp only [Clause.written, String.toList_ofList] at hclause
      exact hclause hitem
  · split
    · exact hmissing
    · next source hsource =>
      obtain rfl := stripSuffix?_eq_some hsource
      have hclause := @spanned_clause path pos ⟨.key, String.ofList source⟩
      simp only [Clause.written, String.toList_ofList] at hclause
      exact hclause hitem
  · split
    · exact placed_of_plain rfl
    · split
      · exact placed_of_plain rfl
      · split
        · exact (spanned_readSlice hitem.cuts.within _ _ _).mono fun _ => placed_of_plain
        · exact placed_of_plain rfl

theorem spanned_readItems {texts : List (List Char)}
    (h : At path offset (text ++ texts.flatMap fun piece => ',' :: piece)) :
    Spanned path (fun items => ∀ s ∈ items, Placed path s) (readItems offset (text :: texts)) := by
  induction texts generalizing offset text with
  | nil =>
    refine (spanned_readItem h.left).bind fun item _ hitem => ?_
    exact List.forall_mem_singleton.mpr hitem
  | cons next texts ih =>
    refine (spanned_readItem h.left).bind fun item _ hitem => ?_
    rw [List.flatMap_cons, List.cons_append] at h
    refine (ih h.right.behind).bind fun items _ hitems => ?_
    exact List.forall_mem_cons.mpr ⟨hitem, hitems⟩

/-- Where alternatives stand between the brackets, they are placed. -/
def Held (path : List Char) (s : Segment) : Prop :=
  Placed path s ∧ ∀ items, s = union items → ∀ t ∈ items, Placed path t ∧ ∀ others, t ≠ union others

theorem held_of_plain (h : s.plain = true) (hunion : ∀ items, s ≠ union items) : Held path s :=
  ⟨placed_of_plain h, fun items hs => absurd hs (hunion items)⟩

theorem spanned_readBracketed (h : At path offset content) :
    Spanned path (Held path) (readBracketed offset content) := by
  have hcontent := append_splitTop none false 0 content
  unfold readBracketed
  split
  · next text hsplit =>
    rw [hsplit] at hcontent
    rw [hcontent] at h
    have hspanned : Spanned path (Placed path) (readItem offset text) := spanned_readItem h.left
    cases hitem : readItem offset text with
    | error e =>
      rw [hitem] at hspanned
      exact hspanned
    | ok s =>
      rw [hitem] at hspanned
      refine ⟨hspanned, ?_⟩
      rintro items rfl
      exact absurd hitem not_union_of_readItem
  · next text texts _ hsplit =>
    rw [hsplit] at hcontent
    rw [hcontent] at h
    have hspanned := spanned_readItems h
    cases hitems : readItems offset (text :: texts) with
    | error e =>
      rw [hitems] at hspanned
      exact hspanned
    | ok items =>
      rw [hitems] at hspanned
      refine ⟨placed_of_plain rfl, ?_⟩
      rintro _ ⟨⟩ t ht
      refine ⟨hspanned t ht, fun others hothers => ?_⟩
      exact not_union_of_readItems hitems (hothers ▸ ht)

/-! ## The scan for the end of bracketed text -/

theorem size_of_isCloser {c : Char} (h : isCloser c = true) : c.utf8Size = 1 := by
  simp only [isCloser, Bool.or_eq_true, beq_iff_eq] at h
  rcases h with (rfl | rfl) | rfl <;> rfl

/-- A quoted part has begun in the path. -/
def ScanMode.Begun (path : List Char) : ScanMode → Prop
  | .plain => True
  | .quoted _ start | .escaped _ start => Span.Within ⟨start, byteLength path⟩ 0 path

theorem spanned_enclosed {closers : List Char} (mode : ScanMode)
    (hopened : Span.Within ⟨opened, byteLength path⟩ 0 path) (hmode : mode.Begun path)
    (h : At path pos cs) :
    Spanned path (fun _ => True) (enclosed opened (byteLength path) mode closers pos cs) := by
  induction cs generalizing mode closers pos with
  | nil =>
    cases mode with
    | plain => exact hopened
    | quoted quote start => exact hmode
    | escaped quote start => exact hmode
  | cons c cs ih =>
    have hgo (mode : ScanMode) (hmode : mode.Begun path) (closers : List Char) :
        Spanned path (fun _ => True) (do
          let found ← enclosed opened (byteLength path) mode closers (pos + c.utf8Size) cs
          return (c :: found.1, found.2)) :=
      (ih mode hmode h.behind).bind fun _ _ _ => trivial
    have hcloser (hc : isCloser c = true) : Span.Within ⟨pos, pos + 1⟩ 0 path :=
      h.within_byte (size_of_isCloser hc)
    cases mode with
    | escaped quote start =>
      rw [enclosed.eq_def]
      exact hgo (.quoted quote start) hmode closers
    | quoted quote start =>
      rw [enclosed.eq_def]
      dsimp only
      split_ifs
      · exact hgo (.escaped quote start) hmode closers
      · exact hgo .plain trivial closers
      · exact hgo (.quoted quote start) hmode closers
    | plain =>
      rw [enclosed.eq_def]
      dsimp only
      split
      · exact hgo (.quoted c pos) h.within_to_end closers
      · split
        · exact hgo .plain trivial _
        · split
          · next hc =>
            split
            · exact hcloser hc
            · split
              · exact hcloser hc
              · split
                · trivial
                · exact hgo .plain trivial _
          · exact hgo .plain trivial _

/-! ## Without brackets -/

theorem takeName_append (started : Bool) (cs : List Char) :
    cs = (takeName started cs).1 ++ (takeName started cs).2 := by
  induction cs generalizing started with
  | nil => rfl
  | cons c cs ih =>
    rw [takeName]
    split
    · rfl
    · rw [List.cons_append, ← ih]

theorem testAhead?_suffix {type : TypeTest} (h : testAhead? cs = some (type, rest)) :
    ∃ taken, cs = taken ++ rest := by
  unfold testAhead? at h
  split at h
  · next ds =>
    split at h
    · next rest' hrest =>
      obtain ⟨t, -, heq⟩ := Option.map_eq_some_iff.mp h
      cases heq
      refine ⟨'@' :: (ds.takeWhile Text.isAsciiLetter ++ ['(', ')']), ?_⟩
      rw [List.cons_append, List.append_assoc]
      exact congrArg _ ((List.takeWhile_append_dropWhile).symm.trans (by rw [hrest]; rfl))
    · cases h
  · cases h

theorem size_of_endsName {c : Char} (h : endsName c = true) : c.utf8Size = 1 := by
  simp only [endsName, Bool.or_eq_true, beq_iff_eq] at h
  rcases h with ((((rfl | rfl) | rfl) | rfl) | rfl) | rfl <;> rfl

/-- Only a character that ends names, or the end, keeps a name from beginning. -/
theorem endsName_of_takeName (h : takeName false cs = ([], rest)) (hcs : atEnd cs = false) :
    ∃ c cs', cs = c :: cs' ∧ endsName c = true := by
  cases cs with
  | nil => cases hcs
  | cons c cs =>
    rw [takeName, Bool.false_and, Bool.or_false] at h
    split at h
    · next hc => exact ⟨c, cs, rfl, hc⟩
    · cases h

/-- Where no name begins there is a single byte to blame. -/
theorem spanned_readDotted (h : At path pos cs) (hcs : atEnd cs = false) :
    Spanned path (fun p => p.1.plain = true ∧ (∀ items, p.1 ≠ union items) ∧
      ∃ taken, cs = taken ++ p.2) (readDotted pos cs) := by
  have hname := takeName_append false cs
  unfold readDotted
  split
  · next type rest htest => exact ⟨rfl, nofun, testAhead?_suffix htest⟩
  · split
    · next rest htake =>
      obtain ⟨c, cs, rfl, hc⟩ := endsName_of_takeName htake hcs
      exact h.within_byte (size_of_endsName hc)
    · next rest htake => exact ⟨rfl, nofun, _, by rw [htake] at hname; exact hname⟩
    · next rest htake => exact ⟨rfl, nofun, _, by rw [htake] at hname; exact hname⟩
    · next text rest _ _ _ htake => exact ⟨rfl, nofun, _, by rw [htake] at hname; exact hname⟩

/-! ## Whole paths -/

theorem spanned_readFrom {fuel : Nat} (h : At path pos cs) :
    Spanned path (fun segs => ∀ s ∈ segs, Held path s) (readFrom (byteLength path) fuel pos cs) := by
  induction fuel generalizing pos cs with
  | zero => exact fun _ h => absurd h List.not_mem_nil
  | succ fuel ih =>
    have hcons {s : Segment} {pos : Nat} {cs : List Char} (hs : Held path s) (h : At path pos cs) :
        Spanned path (fun segs => ∀ s ∈ segs, Held path s) (do
          let segs ← readFrom (byteLength path) fuel pos cs
          return s :: segs) :=
      (ih h).bind fun segs _ hsegs => List.forall_mem_cons.mpr ⟨hs, hsegs⟩
    have hdotted {pos : Nat} {cs : List Char} (h : At path pos cs) (hcs : ¬ atEnd cs = true) :
        Spanned path (fun segs => ∀ s ∈ segs, Held path s) (do
          let p ← readDotted pos cs
          let segs ← readFrom (byteLength path) fuel (pos + (byteLength cs - byteLength p.2)) p.2
          return p.1 :: segs) := by
      refine (spanned_readDotted h (Bool.eq_false_iff.mpr hcs)).bind ?_
      rintro ⟨s, rest⟩ - ⟨hplain, hunion, taken, rfl⟩
      refine hcons (held_of_plain hplain hunion) ?_
      rw [Text.byteLength_append, Nat.add_sub_cancel]
      exact h.right
    rw [readFrom.eq_def]
    dsimp only
    split
    · exact fun _ h => absurd h List.not_mem_nil
    · next hend =>
      split
      · exact hcons (held_of_plain rfl nofun) h.behind.behind.behind
      · exact hcons (held_of_plain rfl nofun) h.behind.behind
      · split
        · exact h.within_byte rfl
        · next hrest =>
          split
          · exact ih h.behind
          · exact hdotted h.behind hrest
      · refine (spanned_enclosed .plain h.within_to_end trivial h.behind).bind ?_
        rintro ⟨content, rest⟩ hcontent -
        obtain ⟨rfl, -⟩ := enclosed_eq_ok_iff.mp hcontent
        refine (spanned_readBracketed h.behind.left).bind fun s _ hs => hcons hs ?_
        have hrest : At path (pos + 1 + byteLength content + 1) rest := h.behind.right.behind
        rwa [Nat.add_right_comm pos 1] at hrest
      · exact h.within_byte rfl
      · exact hcons (held_of_plain rfl nofun) h.behind
      · exact hcons (held_of_plain rfl nofun) h.behind
      · exact hdotted h hend

theorem spanned_ofChars (path : List Char) :
    Spanned path (fun segs => ∀ s ∈ segs, Held path s) (ofChars path) := by
  have hpath := Text.at_self path
  unfold ofChars
  dsimp only
  split
  · exact hpath.within_to_end
  · split
    · split
      · exact List.forall_mem_singleton.mpr (held_of_plain rfl nofun)
      · exact spanned_readFrom hpath.behind
    · exact spanned_readFrom hpath

/-- Alternatives are placed like the segments that hold them. -/
theorem Occurs.placed (h : Occurs s segs) (hsegs : ∀ t ∈ segs, Held path t) : Placed path s := by
  cases h with
  | here hs => exact (hsegs s hs).1
  | alternative hunion h =>
    have halternatives := (hsegs _ hunion).2 _ rfl
    cases h with
    | here hs => exact (halternatives s hs).1
    | alternative hinner _ => exact absurd rfl ((halternatives _ hinner).2 _)

/-- **The span of a filter or of a computed key, also of an alternative, cuts out of the path what is
written there; the nodes of its expression have their places in the source, and what they cut out of
it they cut out of the path; and the span of an error is somewhere in the path.** -/
theorem spans_of_read (path : String) :
    (∀ segs, read path = .ok segs → ∀ s, Occurs s segs → Placed path.toList s) ∧
      ∀ e, read path = .error e → e.span.Within 0 path.toList := by
  have hspanned := spanned_ofChars path.toList
  refine ⟨fun segs hread s hs => ?_, fun e hread => ?_⟩
  · rw [show ofChars path.toList = .ok segs from hread] at hspanned
    exact hs.placed hspanned
  · rw [show ofChars path.toList = .error e from hread] at hspanned
    exact hspanned

/-- A character of two bytes before a filter, in it, and before the place of an error. -/
theorem filter_cut_out :
    ∃ condition,
      read "$[é, ?(@.ü)]" = .ok [union [name "é", filter condition "@.ü" ⟨6, 13⟩]] ∧
      condition.Located "@.ü".toList 8 ∧
      Span.Cuts ⟨6, 13⟩ 0 "$[é, ?(@.ü)]".toList "?(@.ü)".toList ∧
      read "é[?(@.)]" = .error ⟨.lexical (.noMemberName '\x00'), ⟨7, 7⟩⟩ ∧
      Span.Within ⟨7, 7⟩ 0 "é[?(@.)]".toList := by
  have hread : read "$[é, ?(@.ü)]" =
      .ok [union [name "é",
        filter (.member ⟨8, 12⟩ (.subject ⟨8, 9⟩ .current) "ü") "@.ü" ⟨6, 13⟩]] := by
    cbv
  have hfail : read "é[?(@.)]" = .error ⟨.lexical (.noMemberName '\x00'), ⟨7, 7⟩⟩ := rfl
  have hoccurs {t : Segment} : Occurs t [union [name "é", t]] :=
    .alternative List.mem_cons_self (.here (List.mem_cons_of_mem _ List.mem_cons_self))
  have hplaced := (spans_of_read "$[é, ?(@.ü)]").1 _ hread _ hoccurs
  obtain ⟨hcuts, hnodes⟩ := hplaced ⟨.filter, "@.ü"⟩ _ _ rfl
  have hwithin := (spans_of_read "é[?(@.)]").2 _ hfail
  refine ⟨_, hread, (hnodes _ ?_).1, hcuts, hfail, hwithin⟩
  rw [Expr.nodes]
  exact List.mem_cons_self

end LiveJson.Segment

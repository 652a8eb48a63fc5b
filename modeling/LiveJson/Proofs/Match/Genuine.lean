import LiveJson.Proofs.Match.Located

/-! # Matches are true to the document

What a match says about its node is true: the node stands at its path, and the parent and the key
that come with it are those of the path. Only a root segment makes a match say less, for it forgets
both. -/

namespace LiveJson

namespace Json

variable {d v w : Json} {p : Path} {k : Key}

/-- The node at a location of a document. -/
def node? (d : Json) (p : Path) : Option (Tree Spot) := (d.follow p).map (Tree.ofJson 0 p)

/-- The node that contains what stands at a location; nothing contains the root. -/
def container? (d : Json) (p : Path) : Option (Tree Spot) :=
  if p = [] then none else d.node? p.dropLast

theorem Holds.node? (h : d.Holds p v) : d.node? p = some (Tree.ofJson 0 p v) := by
  rw [Json.node?, h.2, Option.map_some]

theorem container?_concat (p : Path) (k : Key) : d.container? (p ++ [k]) = d.node? p := by
  rw [container?, if_neg (List.concat_ne_nil k p), List.dropLast_concat]

/-- What stands at a location has a container, unless it is the root. -/
theorem Holds.container?_eq_none (h : d.Holds p w) : d.container? p = none ↔ p = [] := by
  constructor
  · intro hnone
    by_contra hp
    obtain ⟨q, k, rfl⟩ := (List.eq_nil_or_concat' p).resolve_left hp
    obtain ⟨v, hv, -⟩ := holds_concat_iff.mp h
    rw [container?_concat, hv.node?] at hnone
    cases hnone
  · intro hp
    rw [hp, container?, if_pos rfl]

end Json

/-- The key that a match gives its node: the one that was asked for, or the one beside the parent.
-/
def Match.nodeKey {ι : Type} (m : Match ι) : Option Key :=
  match m.matched with
  | .node _ => m.parentKey
  | .key key => key

/-- What the match says is so in the document, as far as it says it. -/
structure Match.TrueOf (d : Json) (m : Match Spot) : Prop where
  node : ∃ v, d.Holds m.path v ∧ ∀ t, m.matched = .node t → t = Tree.ofJson 0 m.path v
  /-- A key that was asked for is the only one. -/
  alone : ∀ key, m.matched = .key key → m.parentKey = none
  surroundings : m.parent = d.container? m.path ∧ m.nodeKey = m.path.getLast? ∨
    m.parent = none ∧ m.nodeKey = none

namespace Frame

/-- The frame has the container of its node and the last key of its path, or, if `forgets`, neither.
-/
def SurroundedIn (d : Json) (forgets : Bool) (frame : Frame Spot) : Prop :=
  frame.StandsIn d ∧ (frame.parent = d.container? frame.path ∧ frame.key = frame.path.getLast? ∨
    forgets = true ∧ frame.parent = none ∧ frame.key = none)

variable {d : Json} {forgets : Bool}

theorem surroundedIn_passedOn : PassedOn (SurroundedIn d forgets) := by
  rintro frame key child ⟨h, -⟩ hchild
  refine ⟨h.enter hchild, .inl ⟨?_, List.getLast?_concat.symm⟩⟩
  obtain ⟨v, hv, -, hvalue⟩ := h
  rw [enter, Json.container?_concat, hv.node?, hvalue]

theorem surroundedIn_anchored : Anchored (SurroundedIn d true) :=
  fun h => ⟨h.1, .inr ⟨rfl, rfl, rfl⟩⟩

theorem SurroundedIn.surroundings {frame : Frame Spot} (h : frame.SurroundedIn d forgets) :
    frame.parent = d.container? frame.path ∧ frame.key = frame.path.getLast? ∨
      frame.parent = none ∧ frame.key = none := h.2.imp_right And.right

end Frame

/-- **A match stands at its path, and says of its parent and its key nothing that is not so; without
a root segment in the path expression it says both, which are missing for the root alone.** -/
theorem find_trueOf {d : Document} {path : String} {ms : List (Match Spot)}
    (h : find path d.json = .ok ms) {m : Match Spot} (hm : m ∈ ms) :
    m.TrueOf d.json ∧ ∃ segments, Segment.read path = .ok segments ∧
      (Segment.anchorsAny segments = false →
        m.parent = d.json.container? m.path ∧ m.nodeKey = m.path.getLast? ∧
        (m.parent = none ↔ m.path = []) ∧ (m.nodeKey = none ↔ m.path = [])) := by
  obtain ⟨segments, hread, htrace⟩ := bind_eq_ok.mp h
  have hroot : (Frame.mk (Tree.ofJson 0 [] d.json) [] none none).SurroundedIn d.json
      (Segment.anchorsAny segments) := ⟨Frame.standsIn_root d, .inl ⟨rfl, rfl⟩⟩
  obtain ⟨frame, surrounded, hmade⟩ := Tracer.from_of_passedOn {} hroot htrace hm
    Frame.surroundedIn_passedOn fun hanchor => hanchor ▸ Frame.surroundedIn_anchored
  have htrue : m.TrueOf d.json := by
    obtain ⟨v, hv, -, hvalue⟩ := surrounded.1
    rcases hmade with rfl | rfl
    · refine ⟨⟨v, hv, fun t ht => ?_⟩, fun key hkey => ?_, surrounded.surroundings⟩
      · cases ht
        exact hvalue
      · cases hkey
    · refine ⟨⟨v, hv, fun t ht => ?_⟩, fun _ _ => rfl, surrounded.surroundings⟩
      cases ht
  refine ⟨htrue, segments, hread, fun hanchor => ?_⟩
  have hframe : m.parent = d.json.container? m.path ∧ m.nodeKey = m.path.getLast? := by
    have hkept := surrounded.2.resolve_right fun hforgets =>
      Bool.false_ne_true (hanchor.symm.trans hforgets.1)
    rcases hmade with rfl | rfl
    · exact hkept
    · exact hkept
  obtain ⟨v, hv, -⟩ := htrue.node
  refine ⟨hframe.1, hframe.2, ?_, ?_⟩
  · rw [hframe.1, hv.container?_eq_none]
  · rw [hframe.2, List.getLast?_eq_none_iff]

/-- An object in an object. -/
def boxed : Document where
  json := .object [("a", .object [("b", .null)])]
  wellFormed := by simp [Json.WellFormed, Json.MembersWellFormed, Members.names]

/-- The key of the object around `b`, and what is around that object. -/
theorem trueOf_of_turning_back : ∃ ms m, find "$..b^~" boxed.json = .ok ms ∧ m ∈ ms ∧
    m.path = [.name "a"] ∧ m.matched = .key (some (.name "a")) ∧ m.TrueOf boxed.json ∧
    m.parent = boxed.json.node? [] := by
  have hfind : find "$..b^~" boxed.json = .ok [_] := rfl
  have hread : Segment.read "$..b^~" = .ok [_, _, _, _] := rfl
  obtain ⟨htrue, segments, hsegments, hrootless⟩ := find_trueOf hfind (List.mem_singleton_self _)
  cases hread.symm.trans hsegments
  exact ⟨_, _, hfind, List.mem_singleton_self _, rfl, rfl, htrue, (hrootless rfl).1⟩

end LiveJson

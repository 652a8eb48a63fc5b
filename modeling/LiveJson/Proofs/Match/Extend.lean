import LiveJson.Proofs.Match.Stack

/-! # One name more

A name at the end of a path goes on from the nodes that the segments before it find, so what the path
finds are the members of that name of these nodes, in the same order. A property name and a type test
are the exception: they end a path at once, and what stands behind them is not looked at. -/

namespace LiveJson

variable {ι : Type}

mutual

/-- Whether a path goes on behind the segment. -/
def Segment.passes : Segment → Bool
  | .propertyName | .test _ => false
  | .union items => passesAll items
  | _ => true
termination_by structural s => s

def Segment.passesAll : List Segment → Bool
  | [] => true
  | s :: ss => s.passes && passesAll ss
termination_by structural ss => ss

end

/-- The members of a name, of which there is at most one. -/
def Frame.members (name : String) (frame : Frame ι) : List (Match ι) :=
  (frame.value.get? name).toList.map fun (key, child) => (frame.enter key child).nodeMatch

theorem Frame.nodeMatch_injective : Function.Injective (Frame.nodeMatch (ι := ι)) := by
  intro frame frame' h
  cases frame
  cases frame'
  cases h
  rfl

namespace Walk

/-- The first result has some nodes, and the second has their members of that name; or both are the
same error. -/
def Extends (name : String) (result result' : Except PathError (List (Match ι))) : Prop :=
  ∃ ends : Except PathError (List (Frame ι)),
    result = ends.map (List.map Frame.nodeMatch) ∧
      result' = ends.map (List.flatMap (Frame.members name))

variable {name : String} {result result' more more' : Except PathError (List (Match ι))}
  {go go' : Walk ι}

theorem extends_error (e : PathError) :
    Extends name (.error e : Except PathError (List (Match ι))) (.error e) := ⟨.error e, rfl, rfl⟩

theorem extends_nil : Extends name (.ok [] : Except PathError (List (Match ι))) (.ok []) :=
  ⟨.ok [], rfl, rfl⟩

theorem Extends.append (h : Extends name result result') (h' : Extends name more more') :
    Extends name (do let here ← result; let out ← more; return here ++ out)
      (do let here ← result'; let out ← more'; return here ++ out) := by
  obtain ⟨ends, rfl, rfl⟩ := h
  obtain ⟨rest, rfl, rfl⟩ := h'
  cases ends with
  | error e => exact extends_error e
  | ok here =>
    cases rest with
    | error e => exact extends_error e
    | ok out => exact ⟨.ok (here ++ out), congrArg _ List.map_append.symm,
        congrArg _ List.flatMap_append.symm⟩

theorem extends_bind {α : Type} (x : Except PathError α)
    {next next' : α → Except PathError (List (Match ι))}
    (h : ∀ a, Extends name (next a) (next' a)) : Extends name (x >>= next) (x >>= next') := by
  cases x with
  | error e => exact extends_error e
  | ok a => exact h a

theorem extends_enterAll (hgo : ∀ stack, Extends name (go stack) (go' stack)) (stack : Stack ι) :
    ∀ entries : List (Key × Tree ι),
      Extends name (enterAll go stack entries) (enterAll go' stack entries)
  | [] => extends_nil
  | _ :: entries => (hgo _).append (extends_enterAll hgo stack entries)

mutual

theorem extends_descend (hgo : ∀ stack, Extends name (go stack) (go' stack)) (stack : Stack ι) :
    ∀ t : Tree ι, Extends name (descend go stack t) (descend go' stack t)
  | .leaf _ => hgo stack
  | .array _ items => (hgo stack).append (extends_descendItems hgo stack 0 items)
  | .object _ members => (hgo stack).append (extends_descendMembers hgo stack members)

theorem extends_descendItems (hgo : ∀ stack, Extends name (go stack) (go' stack))
    (stack : Stack ι) (start : Nat) : ∀ items : List (Tree ι),
      Extends name (descendItems go stack start items) (descendItems go' stack start items)
  | [] => extends_nil
  | t :: ts => by
    rw [descendItems, descendItems]
    split
    · exact (extends_descend hgo _ t).append (extends_descendItems hgo stack (start + 1) ts)
    · exact extends_nil.append (extends_descendItems hgo stack (start + 1) ts)

theorem extends_descendMembers (hgo : ∀ stack, Extends name (go stack) (go' stack))
    (stack : Stack ι) : ∀ members : List (String × Tree ι),
      Extends name (descendMembers go stack members) (descendMembers go' stack members)
  | [] => extends_nil
  | (_, t) :: more => by
    rw [descendMembers, descendMembers]
    split
    · exact (extends_descend hgo _ t).append (extends_descendMembers hgo stack more)
    · exact extends_nil.append (extends_descendMembers hgo stack more)

end

end Walk

namespace Tracer

open Walk

variable [DecidableEq ι] (tracer : Tracer ι) {name : String} {go go' : Walk ι}

theorem extends_enterIf (hgo : ∀ stack, Extends name (go stack) (go' stack)) (stack : Stack ι)
    (condition : Expr) (source : String) : ∀ entries : List (Key × Tree ι),
      Extends name (tracer.enterIf go stack condition source entries)
        (tracer.enterIf go' stack condition source entries)
  | [] => extends_nil
  | _ :: entries => by
    have rest := extends_enterIf hgo stack condition source entries
    refine extends_bind _ fun verdict => ?_
    dsimp only
    split
    · exact (hgo _).append rest
    · exact extends_nil.append rest

mutual

theorem extends_stepOn (hgo : ∀ stack, Extends name (go stack) (go' stack)) (stack : Stack ι) :
    ∀ segment : Segment, segment.passes = true →
      Extends name (tracer.stepOn go stack segment) (tracer.stepOn go' stack segment)
  | .root, _ => hgo _
  | .name _, _ => extends_enterAll hgo stack _
  | .wildcard, _ => extends_enterAll hgo stack _
  | .slice start stop every, _ => by
    rw [stepOn, stepOn]
    split
    · exact extends_nil
    · exact extends_enterAll hgo stack _
  | .union items, h => extends_stepOnAll hgo stack items h
  | .filter condition source span, _ => by
    rw [stepOn, stepOn]
    split
    · exact extends_error _
    · exact tracer.extends_enterIf hgo stack condition source _
  | .computed key source span, _ => by
    rw [stepOn, stepOn]
    split
    · exact extends_error _
    · exact extends_bind _ fun v => extends_enterAll hgo stack _
  | .propertyName, h => by cases h
  | .test type, h => by cases h
  | .descendant, _ => extends_nil
  | .parent, _ => extends_nil

theorem extends_stepOnAll (hgo : ∀ stack, Extends name (go stack) (go' stack)) (stack : Stack ι) :
    ∀ segments : List Segment, Segment.passesAll segments = true →
      Extends name (tracer.stepOnAll go stack segments) (tracer.stepOnAll go' stack segments)
  | [], _ => extends_nil
  | segment :: rest, h => by
    obtain ⟨hsegment, hrest⟩ := Bool.and_eq_true_iff.mp h
    exact (extends_stepOn hgo stack segment hsegment).append (extends_stepOnAll hgo stack rest hrest)

end

/-- With one name more, a walk finds the members of that name of what it finds without. -/
theorem extends_walk (name : String) : ∀ segments : List Segment,
    Segment.passesAll segments = true → ∀ stack : Stack ι,
      Extends name (tracer.walk segments stack) (tracer.walk (segments ++ [.name name]) stack)
  | [], _, stack => by
    refine ⟨.ok [stack.top], rfl, ?_⟩
    change enterAll (tracer.walk []) stack (stack.top.value.get? name).toList =
      .ok ([stack.top].flatMap (Frame.members name))
    rw [List.flatMap_singleton, Frame.members]
    cases stack.top.value.get? name <;> rfl
  | segment :: rest, h, stack => by
    obtain ⟨hsegment, hrest⟩ := Bool.and_eq_true_iff.mp h
    have hgo := extends_walk name rest hrest
    cases segment with
    | parent =>
      rw [List.cons_append, walk, walk]
      cases stack.leave? with
      | none => exact extends_nil
      | some container => exact hgo container
    | descendant => exact extends_descend hgo stack _
    | _ => exact tracer.extends_stepOn hgo stack _ hsegment

variable {segments : List Segment} {root : Tree ι} {parent : Option (Tree ι)} {key : Option Key}

/-- A path that goes on behind all its segments finds nodes only. -/
theorem nodes_of_trace (h : Segment.passesAll segments = true) {ms : List (Match ι)}
    (hms : (tracer.trace segments root parent key).outcome = .ok ms) :
    ∃ frames : List (Frame ι), ms = frames.map Frame.nodeMatch := by
  -- any name will do
  obtain ⟨ends, hends, -⟩ := tracer.extends_walk "" segments h ⟨⟨root, [], parent, key⟩, []⟩
  rw [walk_of_trace hms] at hends
  cases ends with
  | error e => cases hends
  | ok frames => exact ⟨frames, Except.ok.inj hends⟩

theorem trace_concat_name (h : Segment.passesAll segments = true) {ms : List (Match ι)} :
    (tracer.trace (segments ++ [.name name]) root parent key).outcome = .ok ms ↔
      ∃ frames : List (Frame ι), (tracer.trace segments root parent key).outcome =
        .ok (frames.map Frame.nodeMatch) ∧ ms = frames.flatMap (Frame.members name) := by
  obtain ⟨ends, hends, hmembers⟩ :=
    tracer.extends_walk name segments h ⟨⟨root, [], parent, key⟩, []⟩
  rw [trace_eq_ok_iff_walk, hmembers]
  constructor
  · intro hms
    cases ends with
    | error e => cases hms
    | ok frames => exact ⟨frames, trace_of_walk hends, (Except.ok.inj hms).symm⟩
  · rintro ⟨frames, htrace, rfl⟩
    rw [walk_of_trace htrace] at hends
    cases ends with
    | error e => cases hends
    | ok frames' =>
      have same := (List.map_inj_right fun _ _ h => Frame.nodeMatch_injective h).mp
        (Except.ok.inj hends)
      rw [same]
      rfl

end Tracer

end LiveJson

import LiveJson.Match.Trace

/-! # Tracing with a stack of containers

A walk carries the frames of all containers of a node with it, so that a parent segment goes on in
the nearest of them at once. A trace has no such stack: it hands back markers, which stand between
the matches and are resumed further up, possibly to become markers again. A marker that leaves a node
stands for what the walk does when it takes that node off its stack. With this meaning of the markers
every part of a trace has the outcome of the same part of the walk, and no marker leaves the root. -/

namespace LiveJson

variable {ι : Type}

/-- The frame of a node and those of its containers, the nearest first. -/
structure Stack (ι : Type) where
  top : Frame ι
  outer : List (Frame ι)

namespace Stack

def enter (stack : Stack ι) (key : Key) (child : Tree ι) : Stack ι :=
  { top := stack.top.enter key child, outer := stack.top :: stack.outer }

/-- The stack of the container. -/
def leave? (stack : Stack ι) : Option (Stack ι) :=
  match stack.outer with
  | [] => none
  | top :: outer => some { top, outer }

/-- Only the root has no container. -/
def Coherent (stack : Stack ι) : Prop := stack.top.path = [] ↔ stack.outer = []

theorem coherent_enter (stack : Stack ι) (key : Key) (child : Tree ι) :
    (stack.enter key child).Coherent := by
  simp [Coherent, enter, Frame.enter]

end Stack

/-- The matches that are found from a stack on. -/
abbrev Walk (ι : Type) := Stack ι → Except PathError (List (Match ι))

namespace Walk

/-- Goes on at members. -/
def enterAll (go : Walk ι) (stack : Stack ι) :
    List (Key × Tree ι) → Except PathError (List (Match ι))
  | [] => .ok []
  | (key, child) :: entries => do
    let here ← go (stack.enter key child)
    let out ← enterAll go stack entries
    return here ++ out

mutual

/-- Goes on at the node on top, then does the same at each of its members that is an array or an
object. -/
def descend (go : Walk ι) (stack : Stack ι) : Tree ι → Except PathError (List (Match ι))
  | .leaf _ => go stack
  | .array _ items => do
    let here ← go stack
    let out ← descendItems go stack 0 items
    return here ++ out
  | .object _ members => do
    let here ← go stack
    let out ← descendMembers go stack members
    return here ++ out
termination_by structural t => t

def descendItems (go : Walk ι) (stack : Stack ι) (start : Nat) :
    List (Tree ι) → Except PathError (List (Match ι))
  | [] => .ok []
  | t :: ts => do
    let here ← if t.isComposite then descend go (stack.enter (.index start) t) t else .ok []
    let out ← descendItems go stack (start + 1) ts
    return here ++ out
termination_by structural ts => ts

def descendMembers (go : Walk ι) (stack : Stack ι) :
    List (String × Tree ι) → Except PathError (List (Match ι))
  | [] => .ok []
  | (name, t) :: rest => do
    let here ← if t.isComposite then descend go (stack.enter (.name name) t) t else .ok []
    let out ← descendMembers go stack rest
    return here ++ out
termination_by structural ms => ms

end

end Walk

namespace Tracer

open Trail Walk

variable [DecidableEq ι] (tracer : Tracer ι)

/-- Goes on at the members on which the condition holds. -/
def enterIf (go : Walk ι) (stack : Stack ι) (condition : Expr) (source : String) :
    List (Key × Tree ι) → Except PathError (List (Match ι))
  | [] => .ok []
  | (key, child) :: entries => do
    let scope : Expr.Scope ι :=
      { subject := child, parent := some stack.top.value, path := stack.top.path ++ [key],
        bindings := tracer.bindings }
    let verdict ← evaluate scope condition source
    let here ← if verdict.isTruthy then go (stack.enter key child) else .ok []
    let out ← enterIf go stack condition source entries
    return here ++ out

mutual

/-- One segment that is not a descendant or parent segment; inside a union those find nothing. -/
def stepOn (go : Walk ι) (stack : Stack ι) : Segment → Except PathError (List (Match ι))
  | .root => go { stack with top := { stack.top with parent := none, key := none } }
  | .name text => enterAll go stack (stack.top.value.get? text).toList
  | .wildcard => enterAll go stack stack.top.value.entries
  | .slice start stop every =>
    match stack.top.value.length? with
    | none => .ok []
    | some len =>
      enterAll go stack <| (Slice.positions len start stop every).toList.filterMap fun i =>
        (stack.top.value.at? i).map fun child => (.index i, child)
  | .union items => stepOnAll go stack items
  | .filter condition source span =>
    if tracer.preventEval then .error { cause := .prevented .filter, span }
    else tracer.enterIf go stack condition source stack.top.value.entries
  | .computed key source span =>
    if tracer.preventEval then .error { cause := .prevented .key, span }
    else do
      let scope : Expr.Scope ι :=
        { subject := stack.top.value, parent := stack.top.parent, path := stack.top.path,
          bindings := tracer.bindings }
      let v ← evaluate scope key source
      enterAll go stack (stack.top.value.get? v.toText).toList
  | .propertyName => .ok [stack.top.keyMatch]
  | .test type => do
    let passed ← tracer.passes stack.top type
    if passed then .ok [stack.top.nodeMatch] else .ok []
  | .descendant | .parent => .ok []
termination_by structural s => s

def stepOnAll (go : Walk ι) (stack : Stack ι) : List Segment → Except PathError (List (Match ι))
  | [] => .ok []
  | s :: ss => do
    let here ← stepOn go stack s
    let out ← stepOnAll go stack ss
    return here ++ out
termination_by structural ss => ss

end

/-- The matches of some segments from a stack on. -/
def walk : List Segment → Walk ι
  | [], stack => .ok [stack.top.nodeMatch]
  | segment :: rest, stack =>
    match segment with
    | .parent =>
      match stack.leave? with
      | none => .ok []
      | some stack => walk rest stack
    | .descendant => descend (walk rest) stack stack.top.value
    | segment => tracer.stepOn (walk rest) stack segment

/-! ## What markers stand for -/

/-- Goes on in a container. -/
def resumeIn (rest : List Segment) : Option (Stack ι) → Except PathError (List (Match ι))
  | none => .ok []
  | some stack => tracer.walk rest stack

/-- The matches of a trail whose markers lead to the container. -/
def settle (container : Option (Stack ι)) : Trail ι → Except PathError (List (Match ι))
  | [] => .ok []
  | .found m :: trail => do
    let out ← settle container trail
    return m :: out
  | .up _ rest :: trail => do
    let here ← tracer.resumeIn rest container
    let out ← settle container trail
    return here ++ out

/-- The run comes to matches exactly if the result is a success, and then to the same ones. Its
markers lead to the container and have fewer than `bound` segments left. -/
structure Resolves (bound : Nat) (stack : Stack ι) (run : Run (Match ι) (Trail ι))
    (result : Except PathError (List (Match ι))) : Prop where
  marker : ∀ {trail path rest}, run.outcome = .ok trail → .up path rest ∈ trail →
    path = stack.top.path.dropLast ∧ rest.length < bound
  iff : ∀ {ms}, (∃ trail, run.outcome = .ok trail ∧ tracer.settle stack.leave? trail = .ok ms) ↔
    result = .ok ms

variable {tracer} {bound : Nat} {stack : Stack ι} {run run' : Run (Match ι) (Trail ι)}
  {result result' : Except PathError (List (Match ι))}

omit [DecidableEq ι] in
theorem append_eq_ok {ms : List (Match ι)} :
    (do let here ← result; let out ← result'; return here ++ out) = .ok ms ↔
      ∃ here, result = .ok here ∧ ∃ out, result' = .ok out ∧ here ++ out = ms := by
  simp only [bind_eq_ok, pure, Except.pure, Except.ok.injEq]

theorem settle_append {container : Option (Stack ι)} {trail trail' : Trail ι}
    {ms : List (Match ι)} : tracer.settle container (trail ++ trail') = .ok ms ↔
      ∃ here, tracer.settle container trail = .ok here ∧
        ∃ out, tracer.settle container trail' = .ok out ∧ here ++ out = ms := by
  induction trail generalizing ms with
  | nil => simp [settle]
  | cons traced trail ih =>
    cases traced with
    | found m =>
      rw [List.cons_append, settle, settle]
      simp only [bind_eq_ok, pure, Except.pure, Except.ok.injEq]
      constructor
      · rintro ⟨_, h, rfl⟩
        obtain ⟨here, hhere, out, hout, rfl⟩ := ih.mp h
        exact ⟨m :: here, ⟨here, hhere, rfl⟩, out, hout, rfl⟩
      · rintro ⟨_, ⟨here, hhere, rfl⟩, out, hout, rfl⟩
        exact ⟨here ++ out, ih.mpr ⟨here, hhere, out, hout, rfl⟩, rfl⟩
    | up path rest =>
      rw [List.cons_append, settle, settle, append_eq_ok]
      constructor
      · rintro ⟨first, hfirst, _, h, rfl⟩
        obtain ⟨here, hhere, out, hout, rfl⟩ := ih.mp h
        exact ⟨first ++ here, append_eq_ok.mpr ⟨first, hfirst, here, hhere, rfl⟩, out, hout,
          List.append_assoc ..⟩
      · rintro ⟨_, h, out, hout, rfl⟩
        obtain ⟨first, hfirst, here, hhere, rfl⟩ := append_eq_ok.mp h
        exact ⟨first, hfirst, here ++ out, ih.mpr ⟨here, hhere, out, hout, rfl⟩,
          (List.append_assoc ..).symm⟩

theorem settle_up (container : Option (Stack ι)) (path : Path) (rest : List Segment) :
    tracer.settle container [.up path rest] = tracer.resumeIn rest container := by
  rw [settle, settle]
  cases tracer.resumeIn rest container with
  | error e => rfl
  | ok ms => exact congrArg Except.ok (List.append_nil ms)

/-- Nothing contains the root. -/
theorem settle_none (trail : Trail ι) : tracer.settle none trail = .ok (trail.filterMap fun traced =>
    match traced with
    | .found m => some m
    | .up .. => none) := by
  induction trail with
  | nil => rfl
  | cons traced trail ih =>
    cases traced <;> rw [settle, ih] <;> rfl

theorem settle_found (container : Option (Stack ι)) (ms : List (Match ι)) :
    tracer.settle container (ms.map .found) = .ok ms := by
  induction ms with
  | nil => rfl
  | cons m ms ih => rw [List.map_cons, settle, ih]; rfl

namespace Resolves

theorem mono {bound' : Nat} (h : tracer.Resolves bound stack run result) (hle : bound ≤ bound') :
    tracer.Resolves bound' stack run result where
  marker ho hm := (h.marker ho hm).imp_right fun hlt => Nat.lt_of_lt_of_le hlt hle
  iff := h.iff

theorem error (e e' : PathError) :
    tracer.Resolves bound stack (Run.ofExcept (.error e)) (.error e') where
  marker ho := by cases ho
  iff := ⟨fun ⟨_, ho, _⟩ => (by cases ho), fun h => (by cases h)⟩

theorem of_outcome (h : tracer.Resolves bound stack run result)
    (ho : run'.outcome = run.outcome) : tracer.Resolves bound stack run' result where
  marker := ho ▸ h.marker
  iff := ho ▸ h.iff

/-- Matches without markers. -/
theorem found (ms : List (Match ι)) (h : run.outcome = .ok (ms.map .found)) :
    tracer.Resolves bound stack run (.ok ms) where
  marker ho hm := by
    cases h.symm.trans ho
    obtain ⟨_, -, he⟩ := List.mem_map.mp hm
    cases he
  iff := by
    simp [h, settle_found]

theorem nil : tracer.Resolves bound stack (pure []) (.ok []) := .found [] rfl

theorem append (h : tracer.Resolves bound stack run result)
    (h' : tracer.Resolves bound stack run' result') :
    tracer.Resolves bound stack (do let here ← run; let out ← run'; return here ++ out)
      (do let here ← result; let out ← result'; return here ++ out) where
  marker ho hm := by
    obtain ⟨here, hh, ho⟩ := Run.bind_outcome_eq_ok.mp ho
    obtain ⟨out, hr, ho⟩ := Run.bind_outcome_eq_ok.mp ho
    cases ho
    exact (List.mem_append.mp hm).elim (h.marker hh) (h'.marker hr)
  iff {ms} := by
    rw [append_eq_ok]
    constructor
    · rintro ⟨trail, ho, hs⟩
      obtain ⟨here, hh, ho⟩ := Run.bind_outcome_eq_ok.mp ho
      obtain ⟨out, hr, ho⟩ := Run.bind_outcome_eq_ok.mp ho
      cases ho
      obtain ⟨ms₁, hs₁, ms₂, hs₂, rfl⟩ := settle_append.mp hs
      exact ⟨ms₁, h.iff.mp ⟨here, hh, hs₁⟩, ms₂, h'.iff.mp ⟨out, hr, hs₂⟩, rfl⟩
    · rintro ⟨ms₁, h₁, ms₂, h₂, rfl⟩
      obtain ⟨here, hh, hs₁⟩ := h.iff.mpr h₁
      obtain ⟨out, hr, hs₂⟩ := h'.iff.mpr h₂
      refine ⟨here ++ out, ?_, settle_append.mpr ⟨ms₁, hs₁, ms₂, hs₂, rfl⟩⟩
      simp only [Run.outcome_bind, hh, hr, Except.bind, Run.outcome_pure]

/-- A computation that both sides begin with. -/
theorem bind {α : Type} (x : Except PathError α) {next : α → Run (Match ι) (Trail ι)}
    {next' : α → Except PathError (List (Match ι))}
    (h : ∀ a, tracer.Resolves bound stack (next a) (next' a)) :
    tracer.Resolves bound stack (Run.ofExcept x >>= next) (x >>= next') := by
  cases x with
  | error e => exact .error e e
  | ok a => exact h a

end Resolves

/-! ## One segment -/

/-- The run of a trace, from the top of any stack, against the walk. -/
def Follows (tracer : Tracer ι) (bound : Nat) (go : Go ι) (go' : Walk ι) : Prop :=
  ∀ stack : Stack ι, stack.Coherent → tracer.Resolves bound stack (go stack.top) (go' stack)

section
variable {go : Go ι} {resume : Resume ι} {go' : Walk ι}
  (hresume : ∀ rest : List Segment, rest.length < bound →
    tracer.Follows bound (resume rest) (tracer.walk rest))
  (hstack : stack.Coherent)

include hresume hstack

/-- What has come from a member goes on in its container. -/
theorem resolves_resumeAll : ∀ trail : Trail ι,
    (∀ path rest, .up path rest ∈ trail → path = stack.top.path ∧ rest.length < bound) →
    tracer.Resolves bound stack (resumeAll resume stack.top trail)
      (tracer.settle (some stack) trail)
  | [], _ => .nil
  | .found m :: trail, h => by
    have htrail := resolves_resumeAll trail fun path rest hm =>
      h path rest (List.mem_cons_of_mem _ hm)
    have hfound : tracer.Resolves bound stack (pure [.found m]) (.ok [m]) := .found [m] rfl
    exact hfound.append htrail
  | .up path rest :: trail, h => by
    have htrail := resolves_resumeAll trail fun path rest hm =>
      h path rest (List.mem_cons_of_mem _ hm)
    obtain ⟨rfl, hlt⟩ := h path rest List.mem_cons_self
    exact (hresume rest hlt stack hstack).append htrail

theorem Resolves.resumed {key : Key} {child : Tree ι}
    (h : tracer.Resolves bound (stack.enter key child) run result) :
    tracer.Resolves bound stack (do let out ← run; resumeAll resume stack.top out) result := by
  have hpath : (stack.enter key child).top.path.dropLast = stack.top.path := by
    simp [Stack.enter, Frame.enter]
  have hall : ∀ {trail}, run.outcome = .ok trail →
      tracer.Resolves bound stack (resumeAll resume stack.top trail)
        (tracer.settle (some stack) trail) := fun ho =>
    resolves_resumeAll hresume hstack _ fun path rest hm => hpath ▸ h.marker ho hm
  refine ⟨fun ho => ?_, fun {ms} => ⟨?_, fun hr => ?_⟩⟩
  · obtain ⟨trail, ht, ho⟩ := Run.bind_outcome_eq_ok.mp ho
    exact (hall ht).marker ho
  · rintro ⟨out, ho, hs⟩
    obtain ⟨trail, ht, ho⟩ := Run.bind_outcome_eq_ok.mp ho
    exact h.iff.mp ⟨trail, ht, (hall ht).iff.mp ⟨out, ho, hs⟩⟩
  · obtain ⟨trail, ht, hs⟩ := h.iff.mpr hr
    obtain ⟨out, ho, hs⟩ := (hall ht).iff.mpr hs
    exact ⟨out, Run.bind_outcome_eq_ok.mpr ⟨trail, ht, ho⟩, hs⟩

theorem Resolves.resumedAppend {key : Key} {child : Tree ι}
    (h : tracer.Resolves bound (stack.enter key child) run result)
    (h' : tracer.Resolves bound stack run' result') :
    tracer.Resolves bound stack
      (do
        let out ← run
        let here ← resumeAll resume stack.top out
        let out ← run'
        return here ++ out)
      (do let here ← result; let out ← result'; return here ++ out) := by
  refine ((h.resumed hresume hstack).append h').of_outcome ?_
  simp only [Run.outcome_bind]
  cases run.outcome <;> rfl

variable (hgo : tracer.Follows bound go go')
include hgo

theorem resolves_visit (key : Key) (child : Tree ι) :
    tracer.Resolves bound stack (visit go resume stack.top key child)
      (go' (stack.enter key child)) :=
  (hgo (stack.enter key child) (stack.coherent_enter key child)).resumed hresume hstack

theorem resolves_visitAll : ∀ entries : List (Key × Tree ι),
    tracer.Resolves bound stack (visitAll go resume stack.top entries)
      (enterAll go' stack entries)
  | [] => .nil
  | (key, child) :: entries =>
    (resolves_visit hresume hstack hgo key child).append (resolves_visitAll entries)

theorem resolves_visitIf (condition : Expr) (source : String) :
    ∀ entries : List (Key × Tree ι),
      tracer.Resolves bound stack (visitIf tracer go resume stack.top condition source entries)
        (tracer.enterIf go' stack condition source entries)
  | [] => .nil
  | (key, child) :: entries => by
    have hrest := resolves_visitIf condition source entries
    refine .bind _ fun verdict => ?_
    dsimp only
    split
    · exact (resolves_visit hresume hstack hgo key child).append hrest
    · exact Resolves.append .nil hrest

end

mutual

theorem resolves_below {go : Go ι} {resume : Resume ι} {go' : Walk ι}
    (hresume : ∀ rest : List Segment, rest.length < bound →
      tracer.Follows bound (resume rest) (tracer.walk rest))
    (hgo : tracer.Follows bound go go') (path : Path) (parent : Option (Tree ι))
    (key : Option Key) (outer : List (Frame ι)) : ∀ t : Tree ι,
      (Stack.mk ⟨t, path, parent, key⟩ outer).Coherent →
      tracer.Resolves bound ⟨⟨t, path, parent, key⟩, outer⟩ (below go resume path parent key t)
        (descend go' ⟨⟨t, path, parent, key⟩, outer⟩ t)
  | .leaf _, hstack => hgo _ hstack
  | .array _ items, hstack =>
    (hgo _ hstack).append (resolves_belowItems hresume hgo _ hstack 0 items)
  | .object _ members, hstack =>
    (hgo _ hstack).append (resolves_belowMembers hresume hgo _ hstack members)

theorem resolves_belowItems {go : Go ι} {resume : Resume ι} {go' : Walk ι}
    (hresume : ∀ rest : List Segment, rest.length < bound →
      tracer.Follows bound (resume rest) (tracer.walk rest))
    (hgo : tracer.Follows bound go go') (stack : Stack ι) (hstack : stack.Coherent)
    (start : Nat) : ∀ items : List (Tree ι),
      tracer.Resolves bound stack (belowItems go resume stack.top start items)
        (descendItems go' stack start items)
  | [] => .nil
  | t :: ts => by
    have hrest := resolves_belowItems hresume hgo stack hstack (start + 1) ts
    rw [belowItems, descendItems]
    split
    · have here := resolves_below hresume hgo _ _ _ _ t (stack.coherent_enter (.index start) t)
      exact here.resumedAppend hresume hstack hrest
    · exact Resolves.append .nil hrest

theorem resolves_belowMembers {go : Go ι} {resume : Resume ι} {go' : Walk ι}
    (hresume : ∀ rest : List Segment, rest.length < bound →
      tracer.Follows bound (resume rest) (tracer.walk rest))
    (hgo : tracer.Follows bound go go') (stack : Stack ι) (hstack : stack.Coherent) :
    ∀ members : List (String × Tree ι),
      tracer.Resolves bound stack (belowMembers go resume stack.top members)
        (descendMembers go' stack members)
  | [] => .nil
  | (name, t) :: rest => by
    have hrest := resolves_belowMembers hresume hgo stack hstack rest
    rw [belowMembers, descendMembers]
    split
    · have here := resolves_below hresume hgo _ _ _ _ t (stack.coherent_enter (.name name) t)
      exact here.resumedAppend hresume hstack hrest
    · exact Resolves.append .nil hrest

end

mutual

theorem resolves_step {go : Go ι} {resume : Resume ι} {go' : Walk ι}
    (hresume : ∀ rest : List Segment, rest.length < bound →
      tracer.Follows bound (resume rest) (tracer.walk rest))
    (hgo : tracer.Follows bound go go') (hstack : stack.Coherent) : ∀ segment : Segment,
      tracer.Resolves bound stack (step tracer go resume stack.top segment)
        (tracer.stepOn go' stack segment)
  | .root => by
    have h := hgo { stack with top := { stack.top with parent := none, key := none } } hstack
    exact ⟨h.marker, h.iff⟩
  | .name text => resolves_visitAll hresume hstack hgo _
  | .wildcard => resolves_visitAll hresume hstack hgo _
  | .slice start stop every => by
    rw [step, stepOn]
    cases stack.top.value.length? with
    | none => exact .nil
    | some len => exact resolves_visitAll hresume hstack hgo _
  | .union items => resolves_stepAll hresume hgo hstack items
  | .filter condition source span => by
    rw [step, stepOn]
    split
    · exact .error _ _
    · exact resolves_visitIf hresume hstack hgo condition source _
  | .computed key source span => by
    rw [step, stepOn]
    split
    · exact .error _ _
    · exact .bind _ fun v => resolves_visitAll hresume hstack hgo _
  | .propertyName => .found [stack.top.keyMatch] rfl
  | .test type => by
    rw [step, stepOn]
    refine .bind _ fun passed => ?_
    split
    · exact .found [stack.top.nodeMatch] rfl
    · exact .nil
  | .descendant => .nil
  | .parent => .nil

theorem resolves_stepAll {go : Go ι} {resume : Resume ι} {go' : Walk ι}
    (hresume : ∀ rest : List Segment, rest.length < bound →
      tracer.Follows bound (resume rest) (tracer.walk rest))
    (hgo : tracer.Follows bound go go') (hstack : stack.Coherent) : ∀ segments : List Segment,
      tracer.Resolves bound stack (stepAll tracer go resume stack.top segments)
        (tracer.stepOnAll go' stack segments)
  | [] => .nil
  | segment :: rest =>
    (resolves_step hresume hgo hstack segment).append (resolves_stepAll hresume hgo hstack rest)

end

theorem resolves_parent (hstack : stack.Coherent) (rest : List Segment) :
    tracer.Resolves (rest.length + 1) stack
      (pure (if stack.top.path.isEmpty then [] else [.up stack.top.path.dropLast rest]))
      (tracer.walk (.parent :: rest) stack) := by
  obtain ⟨top, outer⟩ := stack
  cases outer with
  | nil =>
    have hroot : top.path = [] := hstack.mpr rfl
    rw [hroot]
    exact .nil
  | cons container outer =>
    have hpath : top.path.isEmpty = false :=
      List.isEmpty_eq_false_iff.mpr fun h => List.cons_ne_nil _ _ (hstack.mp h)
    simp only [hpath, Bool.false_eq_true, if_false]
    refine ⟨fun ho hm => ?_, fun {ms} => ⟨?_, fun h => ⟨_, rfl, (settle_up ..).trans h⟩⟩⟩
    · cases ho
      cases List.mem_singleton.mp hm
      exact ⟨rfl, Nat.lt_succ_self _⟩
    · rintro ⟨_, ho, hs⟩
      cases ho
      exact (settle_up ..).symm.trans hs

/-- The number of segments bounds those that a marker has left. -/
theorem follows_traceFrame : ∀ (fuel : Nat) (segments : List Segment), segments.length ≤ fuel →
    tracer.Follows fuel (traceFrame tracer fuel segments) (tracer.walk segments)
  | fuel, [], _, stack, _ => by
    refine .found [stack.top.nodeMatch] ?_
    cases fuel <;> rfl
  | fuel + 1, segment :: rest, hle, stack, hstack => by
    have hrest := Nat.le_of_succ_le_succ hle
    have hgo := follows_traceFrame fuel rest hrest
    have hresume := fun rest (hlt : rest.length < fuel) =>
      follows_traceFrame fuel rest (Nat.le_of_lt hlt)
    cases segment with
    | parent => exact (resolves_parent hstack rest).mono hle
    | descendant => exact (resolves_below hresume hgo _ _ _ _ _ hstack).mono (Nat.le_succ fuel)
    | _ => exact (resolves_step hresume hgo hstack _).mono (Nat.le_succ fuel)

section
variable {segments : List Segment} {root : Tree ι} {parent : Option (Tree ι)} {key : Option Key}
  {ms : List (Match ι)}

theorem resolves_root (segments : List Segment) (root : Tree ι) (parent : Option (Tree ι))
    (key : Option Key) : tracer.Resolves segments.length ⟨⟨root, [], parent, key⟩, []⟩
      (traceFrame tracer segments.length segments ⟨root, [], parent, key⟩)
      (tracer.walk segments ⟨⟨root, [], parent, key⟩, []⟩) :=
  follows_traceFrame _ segments (Nat.le_refl _) _ ⟨fun _ => rfl, fun _ => rfl⟩

theorem walk_of_trace (h : (tracer.trace segments root parent key).outcome = .ok ms) :
    tracer.walk segments ⟨⟨root, [], parent, key⟩, []⟩ = .ok ms := by
  obtain ⟨trail, htrail, h⟩ := Run.bind_outcome_eq_ok.mp h
  exact (resolves_root segments root parent key).iff.mp
    ⟨trail, htrail, (settle_none trail).trans h⟩

theorem trace_of_walk (h : tracer.walk segments ⟨⟨root, [], parent, key⟩, []⟩ = .ok ms) :
    (tracer.trace segments root parent key).outcome = .ok ms := by
  obtain ⟨trail, htrail, h⟩ := (resolves_root segments root parent key).iff.mpr h
  exact Run.bind_outcome_eq_ok.mpr ⟨trail, htrail, (settle_none trail).symm.trans h⟩

end

/-- **A trace succeeds exactly if the walk with the stack does, and then with the same matches in the
same order.** -/
theorem trace_eq_ok_iff_walk (tracer : Tracer ι) (segments : List Segment) (root : Tree ι)
    (parent : Option (Tree ι)) (key : Option Key) (ms : List (Match ι)) :
    (tracer.trace segments root parent key).outcome = .ok ms ↔
      tracer.walk segments ⟨⟨root, [], parent, key⟩, []⟩ = .ok ms :=
  ⟨walk_of_trace, trace_of_walk⟩

end Tracer

end LiveJson

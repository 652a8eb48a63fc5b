import LiveJson.Expr.Eval
import LiveJson.Match.Basic
import LiveJson.Match.Run
import LiveJson.Segment.Basic

/-! Tracing segments through a document tree. A node does not know its container, so the parent
segment gives up a marker with the segments that remain, and the container resumes them when the
marker reaches it. The markers of a trace always carry fewer segments than it was given, so the
number of segments is fuel enough. Every match is reported when it is found. -/

namespace LiveJson

variable {ι : Type}

structure Frame (ι : Type) where
  value : Tree ι
  path : Path
  parent : Option (Tree ι)
  key : Option Key

/-- A match, or a marker on its way up to the container at `path`. -/
inductive Traced (ι : Type) where
  | found (m : Match ι)
  | up (path : Path) (rest : List Segment)

abbrev Trail (ι : Type) := List (Traced ι)

/-- The trace of some segments from any frame. -/
abbrev Go (ι : Type) := Frame ι → Run (Match ι) (Trail ι)

/-- The traces of all lists of segments. -/
abbrev Resume (ι : Type) := List Segment → Go ι

/-- What a trace goes by beside the segments. -/
structure Tracer (ι : Type) where
  bindings : List (String × Json) := []
  preventEval : Bool := false
  classifier : Option (Classifier ι) := none

namespace Frame

def enter (frame : Frame ι) (key : Key) (child : Tree ι) : Frame ι :=
  { value := child, path := frame.path ++ [key], parent := some frame.value, key := some key }

def nodeMatch (frame : Frame ι) : Match ι :=
  { path := frame.path, matched := .node frame.value, parent := frame.parent,
    parentKey := frame.key }

def keyMatch (frame : Frame ι) : Match ι :=
  { path := frame.path, matched := .key frame.key, parent := frame.parent, parentKey := none }

end Frame

namespace Trail

def emit (m : Match ι) : Run (Match ι) (Trail ι) := do
  Run.report m
  return [.found m]

/-- Resumes the markers against the frame of the container that they have reached. -/
def resumeAll (resume : Resume ι) (frame : Frame ι) :
    List (Traced ι) → Run (Match ι) (Trail ι)
  | [] => pure []
  | .found m :: more => do
    let out ← resumeAll resume frame more
    return .found m :: out
  | .up path rest :: more => do
    let here ← resume rest { frame with path }
    let out ← resumeAll resume frame more
    return here ++ out

/-- Goes on at a member, then resumes the markers that come back from it. -/
def visit (go : Go ι) (resume : Resume ι)
    (frame : Frame ι) (key : Key) (child : Tree ι) : Run (Match ι) (Trail ι) := do
  let out ← go (frame.enter key child)
  resumeAll resume frame out

def visitAll (go : Go ι) (resume : Resume ι)
    (frame : Frame ι) : List (Key × Tree ι) → Run (Match ι) (Trail ι)
  | [] => pure []
  | (key, child) :: entries => do
    let here ← visit go resume frame key child
    let out ← visitAll go resume frame entries
    return here ++ out

mutual

/-- Goes on at a node and then at each array and object below it, containers before their members.
-/
def below (go : Go ι) (resume : Resume ι) (path : Path)
    (parent : Option (Tree ι)) (key : Option Key) : Tree ι → Run (Match ι) (Trail ι)
  | .leaf value => go { value := .leaf value, path, parent, key }
  | .array label items => do
    let frame := { value := .array label items, path, parent, key }
    let here ← go frame
    let out ← belowItems go resume frame 0 items
    return here ++ out
  | .object label members => do
    let frame := { value := .object label members, path, parent, key }
    let here ← go frame
    let out ← belowMembers go resume frame members
    return here ++ out
termination_by structural t => t

def belowItems (go : Go ι) (resume : Resume ι)
    (frame : Frame ι) (start : Nat) : List (Tree ι) → Run (Match ι) (Trail ι)
  | [] => pure []
  | t :: ts => do
    let here ←
      if t.isComposite then do
        let out ← below go resume (frame.path ++ [.index start]) (some frame.value)
          (some (.index start)) t
        resumeAll resume frame out
      else pure []
    let out ← belowItems go resume frame (start + 1) ts
    return here ++ out
termination_by structural ts => ts

def belowMembers (go : Go ι) (resume : Resume ι)
    (frame : Frame ι) : List (String × Tree ι) → Run (Match ι) (Trail ι)
  | [] => pure []
  | (name, t) :: rest => do
    let here ←
      if t.isComposite then do
        let out ← below go resume (frame.path ++ [.name name]) (some frame.value)
          (some (.name name)) t
        resumeAll resume frame out
      else pure []
    let out ← belowMembers go resume frame rest
    return here ++ out
termination_by structural ms => ms

end

end Trail

namespace Tracer

open Trail

/-- Arrays count as objects, and no node is undefined or a function. -/
def passes (tracer : Tracer ι) (frame : Frame ι) : TypeTest → Except PathError Bool
  | .scalar => .ok !frame.value.isComposite
  | .boolean => .ok (frame.value.kind == .bool)
  | .string => .ok (frame.value.kind == .string)
  | .number => .ok (frame.value.asFloat?.any Decimal.isFinite)
  | .nonFinite => .ok (frame.value.asFloat?.any fun x => !Decimal.isFinite x)
  | .integer => .ok (frame.value.asFloat?.any Decimal.isIntegral)
  | .null => .ok (frame.value.kind == .null)
  | .object => .ok frame.value.isComposite
  | .array => .ok (frame.value.kind == .array)
  | .undefined | .function => .ok false
  | .other =>
    match tracer.classifier with
    | some classify => .ok (classify frame.value frame.path frame.parent frame.key)
    | none => .error { cause := .noClassifier, span := ⟨0, 0⟩ }

/-- Evaluates the expression of a segment; a failure names the source of the expression. -/
def evaluate [DecidableEq ι] (scope : Expr.Scope ι) (e : Expr) (source : String) :
    Except PathError (Expr.Operand ι) :=
  match scope.evaluate e with
  | .ok v => .ok v
  | .error err => .error { err with cause := .inExpression source err.cause }

/-- Visits the members on which the condition holds, each as soon as it is decided. -/
def visitIf [DecidableEq ι] (tracer : Tracer ι) (go : Go ι) (resume : Resume ι) (frame : Frame ι)
    (condition : Expr) (source : String) : List (Key × Tree ι) → Run (Match ι) (Trail ι)
  | [] => pure []
  | (key, child) :: entries => do
    let scope : Expr.Scope ι :=
      { subject := child, parent := some frame.value, path := frame.path ++ [key],
        bindings := tracer.bindings }
    let verdict ← Run.ofExcept (evaluate scope condition source)
    let here ← if verdict.isTruthy then visit go resume frame key child else pure []
    let out ← visitIf tracer go resume frame condition source entries
    return here ++ out

mutual

/-- One segment, where `go` traces the segments behind it. A descendant or parent segment has no
meaning inside a union. -/
def step [DecidableEq ι] (tracer : Tracer ι) (go : Go ι) (resume : Resume ι) (frame : Frame ι) :
    Segment → Run (Match ι) (Trail ι)
  | .root => go { frame with parent := none, key := none }
  | .name text => visitAll go resume frame (frame.value.get? text).toList
  | .wildcard => visitAll go resume frame frame.value.entries
  | .slice start stop every =>
    match frame.value.length? with
    | none => pure []
    | some len =>
      visitAll go resume frame <| (Slice.positions len start stop every).toList.filterMap fun i =>
        (frame.value.at? i).map fun child => (.index i, child)
  | .union items => stepAll tracer go resume frame items
  | .filter condition source span =>
    if tracer.preventEval then Run.ofExcept (.error { cause := .prevented .filter, span })
    else visitIf tracer go resume frame condition source frame.value.entries
  | .computed key source span =>
    if tracer.preventEval then Run.ofExcept (.error { cause := .prevented .key, span })
    else do
      let scope : Expr.Scope ι :=
        { subject := frame.value, parent := frame.parent, path := frame.path,
          bindings := tracer.bindings }
      let v ← Run.ofExcept (evaluate scope key source)
      visitAll go resume frame (frame.value.get? v.toText).toList
  | .propertyName => emit frame.keyMatch
  | .test type => do
    let passed ← Run.ofExcept (tracer.passes frame type)
    if passed then emit frame.nodeMatch else pure []
  | .descendant | .parent => pure []
termination_by structural s => s

def stepAll [DecidableEq ι] (tracer : Tracer ι) (go : Go ι) (resume : Resume ι) (frame : Frame ι) :
    List Segment → Run (Match ι) (Trail ι)
  | [] => pure []
  | s :: ss => do
    let here ← step tracer go resume frame s
    let out ← stepAll tracer go resume frame ss
    return here ++ out
termination_by structural ss => ss

end

/-- Traces at most `fuel` segments from a frame. -/
def traceFrame [DecidableEq ι] (tracer : Tracer ι) : Nat → List Segment → Go ι
  | _, [], frame => emit frame.nodeMatch
  | 0, _ :: _, _ => pure []
  | fuel + 1, segment :: rest, frame =>
    match segment with
    | .parent => pure (if frame.path.isEmpty then [] else [.up frame.path.dropLast rest])
    | .descendant =>
      below (traceFrame tracer fuel rest) (traceFrame tracer fuel) frame.path frame.parent
        frame.key frame.value
    | segment => step tracer (traceFrame tracer fuel rest) (traceFrame tracer fuel) frame segment

/-- The matches of `segments` from `root` on. A marker that no container takes is dropped. -/
def trace [DecidableEq ι] (tracer : Tracer ι) (segments : List Segment) (root : Tree ι)
    (parent : Option (Tree ι)) (key : Option Key) : Run (Match ι) (List (Match ι)) := do
  let out ← traceFrame tracer segments.length segments { value := root, path := [], parent, key }
  return out.filterMap fun traced =>
    match traced with
    | .found m => some m
    | .up .. => none

end Tracer

end LiveJson

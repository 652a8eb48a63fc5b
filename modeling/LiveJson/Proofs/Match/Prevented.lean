import LiveJson.Match.Trace

/-! # Tracing without evaluation

If evaluation is prevented, a trace ends with an error at the first filter or computed key that it
comes to, before anything of the expression is looked at. So neither the expressions nor the
bindings have any influence on it; and if it comes to no such segment, it does what it would do with
evaluation allowed. Both are shown against the trace of the masked segments, which have no
expressions. -/

namespace LiveJson

variable {ι : Type}

namespace Segment

/-- What stands for an expression that is not there. -/
def noExpression : Expr := .literal ⟨0, 0⟩ .undefined

mutual

/-- The segment without its expressions. -/
def masked : Segment → Segment
  | .union items => .union (maskedAll items)
  | .filter _ source span => .filter noExpression source span
  | .computed _ source span => .computed noExpression source span
  | s => s
termination_by structural s => s

def maskedAll : List Segment → List Segment
  | [] => []
  | s :: ss => s.masked :: maskedAll ss
termination_by structural ss => ss

end

theorem length_maskedAll (segments : List Segment) :
    (maskedAll segments).length = segments.length := by
  induction segments with
  | nil => rfl
  | cons s ss ih => simp [maskedAll, ih]

end Segment

/-! ## Runs -/

def Traced.masked : Traced ι → Traced ι
  | found m => found m
  | up path rest => up path (Segment.maskedAll rest)

/-- The run, with masked segments in its markers. -/
def Run.masked (run : Run (Match ι) (Trail ι)) : Run (Match ι) (Trail ι) :=
  { reports := run.reports, outcome := run.outcome.map (List.map Traced.masked) }

namespace Run

/-- The first run is the second one, with masked segments in its markers: in any case if `sure`, and
otherwise if it comes to a result. -/
def Foretells (sure : Prop) (run run' : Run (Match ι) (Trail ι)) : Prop :=
  (sure ∨ ∃ trail, run.outcome = .ok trail) → run = run'.masked

variable {sure : Prop} {run run' more more' : Run (Match ι) (Trail ι)}

theorem foretells_found (reports ms : List (Match ι)) :
    Foretells sure ⟨reports, .ok (ms.map .found)⟩ ⟨reports, .ok (ms.map .found)⟩ := by
  intro _
  have hms : (ms.map Traced.found).map Traced.masked = ms.map .found := by
    rw [List.map_map]
    rfl
  exact congrArg (fun trail => Run.mk reports (.ok trail)) hms.symm

theorem foretells_nil : Foretells sure (pure [] : Run (Match ι) (Trail ι)) (pure []) :=
  foretells_found [] []

/-- A run that fails foretells only if it is `sure`. -/
theorem foretells_error {e : PathError}
    (h : sure → run' = ofExcept (.error e)) :
    Foretells sure (ofExcept (.error e) : Run (Match ι) (Trail ι)) run' := by
  rintro (hsure | ⟨trail, hok⟩)
  · rw [h hsure]
    rfl
  · cases hok

theorem Foretells.bind {next next' : Trail ι → Run (Match ι) (Trail ι)}
    (h : Foretells sure run run')
    (h' : ∀ trail, Foretells sure (next (trail.map Traced.masked)) (next' trail)) :
    Foretells sure (run >>= next) (run' >>= next') := by
  intro hs
  have hrun : run = run'.masked := h <| hs.imp_right fun ⟨_, hok⟩ =>
    (bind_outcome_eq_ok.mp hok).imp fun _ => And.left
  rw [hrun] at hs ⊢
  obtain ⟨reports, outcome⟩ := run'
  cases outcome with
  | error e => rfl
  | ok trail =>
    have hnext : next (trail.map Traced.masked) = (next' trail).masked := by
      refine h' trail (hs.imp_right fun ⟨out, hok⟩ => ⟨out, ?_⟩)
      obtain ⟨here, hhere, hout⟩ := bind_outcome_eq_ok.mp hok
      cases hhere
      exact hout
    exact congrArg (fun later => Run.mk (reports ++ later.reports) later.outcome) hnext

theorem Foretells.append (h : Foretells sure run run') (h' : Foretells sure more more') :
    Foretells sure (do let here ← run; let out ← more; return here ++ out)
      (do let here ← run'; let out ← more'; return here ++ out) :=
  h.bind fun _ => h'.bind fun _ _ =>
    congrArg (fun trail => Run.mk [] (.ok trail)) List.map_append.symm

/-- A computation that both runs begin with. -/
theorem foretells_bind {α : Type} (x : Except PathError α)
    {next next' : α → Run (Match ι) (Trail ι)} (h : ∀ a, Foretells sure (next a) (next' a)) :
    Foretells sure (ofExcept x >>= next) (ofExcept x >>= next') := by
  cases x with
  | error e => exact foretells_error fun _ => rfl
  | ok a => exact h a

end Run

open Run (Foretells foretells_nil foretells_found foretells_error foretells_bind)

/-! ## Trails -/

namespace Trail

/-- From every frame, the first trace foretells the second one. -/
def Foretold (sure : Prop) (go go' : Go ι) : Prop := ∀ frame, Foretells sure (go frame) (go' frame)

variable {sure : Prop} {go go' : Go ι} {resume resume' : Resume ι}

section
variable (hresume : ∀ rest, Foretold sure (resume (Segment.maskedAll rest)) (resume' rest))
  (frame : Frame ι)
include hresume

theorem foretells_resumeAll : ∀ trail : Trail ι,
    Foretells sure (resumeAll resume frame (trail.map Traced.masked))
      (resumeAll resume' frame trail)
  | [] => foretells_nil
  | .found _ :: trail => (foretells_resumeAll trail).bind fun _ _ => rfl
  | .up path rest :: trail =>
    (hresume rest { frame with path }).append (foretells_resumeAll trail)

variable (hgo : Foretold sure go go')
include hgo

theorem foretells_visit (key : Key) (child : Tree ι) :
    Foretells sure (visit go resume frame key child) (visit go' resume' frame key child) :=
  (hgo (frame.enter key child)).bind (foretells_resumeAll hresume frame)

theorem foretells_visitAll : ∀ entries : List (Key × Tree ι),
    Foretells sure (visitAll go resume frame entries) (visitAll go' resume' frame entries)
  | [] => foretells_nil
  | (key, child) :: entries =>
    (foretells_visit hresume frame hgo key child).append (foretells_visitAll entries)

end

mutual

theorem foretells_below
    (hresume : ∀ rest, Foretold sure (resume (Segment.maskedAll rest)) (resume' rest))
    (hgo : Foretold sure go go') (path : Path) (parent : Option (Tree ι)) (key : Option Key) :
    ∀ t : Tree ι,
      Foretells sure (below go resume path parent key t) (below go' resume' path parent key t)
  | .leaf _ => hgo _
  | .array _ items => (hgo _).append (foretells_belowItems hresume hgo _ 0 items)
  | .object _ members => (hgo _).append (foretells_belowMembers hresume hgo _ members)

theorem foretells_belowItems
    (hresume : ∀ rest, Foretold sure (resume (Segment.maskedAll rest)) (resume' rest))
    (hgo : Foretold sure go go') (frame : Frame ι) (start : Nat) : ∀ items : List (Tree ι),
      Foretells sure (belowItems go resume frame start items)
        (belowItems go' resume' frame start items)
  | [] => foretells_nil
  | t :: ts => by
    have rest := foretells_belowItems hresume hgo frame (start + 1) ts
    rw [belowItems, belowItems]
    split
    · have here := foretells_below hresume hgo (frame.path ++ [.index start]) (some frame.value)
        (some (.index start)) t
      exact here.bind fun trail => (foretells_resumeAll hresume frame trail).append rest
    · exact foretells_nil.append rest

theorem foretells_belowMembers
    (hresume : ∀ rest, Foretold sure (resume (Segment.maskedAll rest)) (resume' rest))
    (hgo : Foretold sure go go') (frame : Frame ι) : ∀ members : List (String × Tree ι),
      Foretells sure (belowMembers go resume frame members)
        (belowMembers go' resume' frame members)
  | [] => foretells_nil
  | (name, t) :: more => by
    have rest := foretells_belowMembers hresume hgo frame more
    rw [belowMembers, belowMembers]
    split
    · have here := foretells_below hresume hgo (frame.path ++ [.name name]) (some frame.value)
        (some (.name name)) t
      exact here.bind fun trail => (foretells_resumeAll hresume frame trail).append rest
    · exact foretells_nil.append rest

end

end Trail

/-! ## Tracers -/

namespace Tracer

open Trail

variable [DecidableEq ι] {sure : Prop} {tracer tracer' : Tracer ι} {go go' : Go ι}
  {resume resume' : Resume ι}

omit [DecidableEq ι] in
theorem passes_congr (h : tracer.classifier = tracer'.classifier) (frame : Frame ι)
    (type : TypeTest) : tracer.passes frame type = tracer'.passes frame type := by
  cases type with
  | other => rw [passes, passes, h]
  | _ => rfl

mutual

theorem foretells_step (hprevent : tracer.preventEval = true)
    (hsure : sure → tracer'.preventEval = true) (hclassifier : tracer.classifier = tracer'.classifier)
    (hresume : ∀ rest, Foretold sure (resume (Segment.maskedAll rest)) (resume' rest))
    (hgo : Foretold sure go go') (frame : Frame ι) : ∀ segment : Segment,
      Foretells sure (step tracer go resume frame segment.masked)
        (step tracer' go' resume' frame segment)
  | .root => hgo _
  | .name _ => foretells_visitAll hresume frame hgo _
  | .wildcard => foretells_visitAll hresume frame hgo _
  | .slice start stop every => by
    show Foretells sure (step tracer go resume frame (.slice start stop every)) _
    rw [step, step]
    split
    · exact foretells_nil
    · exact foretells_visitAll hresume frame hgo _
  | .union items => foretells_stepAll hprevent hsure hclassifier hresume hgo frame items
  | .filter condition source span => by
    rw [Segment.masked, step, if_pos hprevent]
    exact foretells_error fun h => by rw [step, if_pos (hsure h)]
  | .computed key source span => by
    rw [Segment.masked, step, if_pos hprevent]
    exact foretells_error fun h => by rw [step, if_pos (hsure h)]
  | .propertyName => foretells_found [frame.keyMatch] [frame.keyMatch]
  | .test type => by
    show Foretells sure (step tracer go resume frame (.test type)) _
    rw [step, step, passes_congr hclassifier]
    refine foretells_bind _ fun passed => ?_
    split
    · exact foretells_found [frame.nodeMatch] [frame.nodeMatch]
    · exact foretells_nil
  | .descendant => foretells_nil
  | .parent => foretells_nil

theorem foretells_stepAll (hprevent : tracer.preventEval = true)
    (hsure : sure → tracer'.preventEval = true) (hclassifier : tracer.classifier = tracer'.classifier)
    (hresume : ∀ rest, Foretold sure (resume (Segment.maskedAll rest)) (resume' rest))
    (hgo : Foretold sure go go') (frame : Frame ι) : ∀ segments : List Segment,
      Foretells sure (stepAll tracer go resume frame (Segment.maskedAll segments))
        (stepAll tracer' go' resume' frame segments)
  | [] => foretells_nil
  | segment :: rest =>
    (foretells_step hprevent hsure hclassifier hresume hgo frame segment).append
      (foretells_stepAll hprevent hsure hclassifier hresume hgo frame rest)

end

section
variable (hprevent : tracer.preventEval = true) (hsure : sure → tracer'.preventEval = true)
  (hclassifier : tracer.classifier = tracer'.classifier)
include hprevent hsure hclassifier

theorem foretold_traceFrame : ∀ (fuel : Nat) (segments : List Segment),
    Foretold sure (traceFrame tracer fuel (Segment.maskedAll segments))
      (traceFrame tracer' fuel segments)
  | fuel, [], frame => by
    cases fuel <;> exact foretells_found [frame.nodeMatch] [frame.nodeMatch]
  | 0, _ :: _, _ => foretells_nil
  | fuel + 1, segment :: rest, frame => by
    have hgo := foretold_traceFrame fuel rest
    have hresume := foretold_traceFrame fuel
    cases segment with
    | parent =>
      intro _
      show traceFrame tracer (fuel + 1) (.parent :: Segment.maskedAll rest) frame = _
      rw [traceFrame, traceFrame]
      split <;> rfl
    | descendant => exact foretells_below hresume hgo _ _ _ _
    | _ => exact foretells_step hprevent hsure hclassifier hresume hgo frame _

variable (tracer tracer') in
/-- A prevented trace of masked segments does what any trace of the segments does that is prevented,
too, or that comes to a result. -/
theorem trace_maskedAll (segments : List Segment) (root : Tree ι) (parent : Option (Tree ι))
    (key : Option Key) (h : sure ∨
      ∃ ms, (tracer.trace (Segment.maskedAll segments) root parent key).outcome = .ok ms) :
    tracer.trace (Segment.maskedAll segments) root parent key =
      tracer'.trace segments root parent key := by
  have hframe := foretold_traceFrame hprevent hsure hclassifier segments.length segments
    { value := root, path := [], parent, key }
  unfold trace at h ⊢
  rw [Segment.length_maskedAll] at h ⊢
  rw [hframe (h.imp_right fun ⟨_, hok⟩ => (Run.bind_outcome_eq_ok.mp hok).imp fun _ => And.left)]
  rcases traceFrame tracer' segments.length segments { value := root, path := [], parent, key } with
    ⟨reports, e | trail⟩
  · rfl
  · have hfound : ∀ trail : Trail ι, (trail.map Traced.masked).filterMap (fun traced =>
        match traced with
        | .found m => some m
        | .up .. => none) = trail.filterMap fun traced =>
        match traced with
        | .found m => some m
        | .up .. => none := by
      intro trail
      rw [List.filterMap_map]
      refine congrArg (List.filterMap · trail) (funext fun traced => ?_)
      cases traced <;> rfl
    exact congrArg (fun ms => Run.mk (reports ++ []) (.ok ms)) (hfound trail)

end

/-- **With evaluation prevented, a trace does not depend on the bindings, nor on the expressions of
its segments: it makes the same reports and has the same outcome. If it succeeds, it is the trace
with evaluation allowed, under any bindings.** -/
theorem prevented_trace_blind (classifier : Option (Classifier ι)) {segments segments' : List Segment}
    (same : Segment.maskedAll segments = Segment.maskedAll segments')
    (bindings bindings' : List (String × Json)) (root : Tree ι) (parent : Option (Tree ι))
    (key : Option Key) :
    let prevented := fun bindings : List (String × Json) =>
      ({ bindings, preventEval := true, classifier } : Tracer ι)
    let allowed := fun bindings : List (String × Json) =>
      ({ bindings, preventEval := false, classifier } : Tracer ι)
    (prevented bindings).trace segments root parent key =
        (prevented bindings').trace segments' root parent key ∧
      ∀ ms, ((prevented bindings).trace segments root parent key).outcome = .ok ms → ∀ free,
        (allowed free).trace segments root parent key =
          (prevented bindings).trace segments root parent key := by
  intro prevented allowed
  have masks : ∀ bindings segments,
      (prevented []).trace (Segment.maskedAll segments) root parent key =
        (prevented bindings).trace segments root parent key := fun bindings segments =>
    trace_maskedAll (prevented []) (prevented bindings) rfl (fun _ => rfl) rfl segments root parent
      key (.inl trivial)
  refine ⟨?_, fun ms hms free => ?_⟩
  · rw [← masks, same, masks]
  · rw [← masks] at hms ⊢
    exact (trace_maskedAll (prevented []) (allowed free) rfl False.elim rfl segments root parent key
      (.inr ⟨ms, hms⟩)).symm

/-- Asks for the key of the member `a`, so that the trace never comes to the filter behind it. -/
def keyedFilter (condition : Expr) : List Segment :=
  [.name "a", .propertyName, .filter condition "@" ⟨6, 7⟩]

/-- An object with the member `a`. -/
def keyedTree : Tree Nat := .object 0 [("a", .leaf .null)]

theorem prevented_trace_of_keyedFilter :
    let this := keyedFilter (.subject ⟨6, 7⟩ .current)
    let other := keyedFilter (.binding ⟨6, 7⟩ "b")
    let tracer := fun (preventEval : Bool) (bindings : List (String × Json)) =>
      ({ bindings, preventEval } : Tracer Nat)
    let m : Match Nat := ⟨[.name "a"], .key (some (.name "a")), some keyedTree, none⟩
    Segment.maskedAll this = Segment.maskedAll other ∧
      ((tracer true []).trace this keyedTree none none).outcome = .ok [m] ∧
      (tracer true []).trace this keyedTree none none =
        (tracer true [("b", .null)]).trace other keyedTree none none ∧
      (tracer false [("b", .null)]).trace this keyedTree none none =
        (tracer true []).trace this keyedTree none none := by
  intro this other tracer m
  have same : Segment.maskedAll this = Segment.maskedAll other := rfl
  have hms : ((tracer true []).trace this keyedTree none none).outcome = .ok [m] := rfl
  obtain ⟨blind, free⟩ := prevented_trace_blind none same [] [("b", .null)] keyedTree none none
  exact ⟨same, hms, blind, free [m] hms [("b", .null)]⟩

end Tracer

end LiveJson

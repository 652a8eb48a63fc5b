import LiveJson.Match.Trace
import LiveJson.Proofs.Tree
import Mathlib.Logic.Function.Iterate

/-! # Where markers land, and why traces end

A marker that a trace hands back has some of the segments of the trace left, and leads to the container
of the node that the trace began at. So the container, which has handed its own path on with one key
more, resumes it with this very path, and none is left over at the root. A trace calls for others: of
the segments behind its first one; of the same segments, at the members of the node, behind a
descendant segment; and of what a marker has left, at the node itself. None of them has more segments
or a higher node, and each has fewer segments or a lower node. So calls are nested no deeper than there
are segments and containers in each other. -/

namespace LiveJson

variable {ι : Type}

/-! ## Markers -/

/-- A marker has some, but not all, of the segments left, and leads to the container of what is at the
path. -/
def Traced.Lands (segments : List Segment) (path : Path) : Traced ι → Prop
  | .found _ => True
  | .up container rest =>
    (∃ taken, taken ≠ [] ∧ taken ++ rest = segments) ∧ ∃ key, container ++ [key] = path

theorem Traced.Lands.mono {segments : List Segment} {path : Path} {traced : Traced ι}
    (h : traced.Lands segments path) (taken : List Segment) :
    traced.Lands (taken ++ segments) path := by
  cases traced with
  | found m => trivial
  | up container rest =>
    obtain ⟨⟨first, hne, rfl⟩, hpath⟩ := h
    refine ⟨⟨taken ++ first, ?_, List.append_assoc ..⟩, hpath⟩
    exact fun h => hne (List.append_eq_nil_iff.mp h).2

namespace Trail

/-- If the run succeeds, its markers land. -/
structure Landing (segments : List Segment) (path : Path) (run : Run (Match ι) (Trail ι)) : Prop where
  lands : ∀ {trail}, run.outcome = .ok trail → ∀ traced ∈ trail, traced.Lands segments path

variable {segments : List Segment} {path : Path} {run run' : Run (Match ι) (Trail ι)}
  {frame : Frame ι} {go : Go ι} {resume : Resume ι}

theorem Landing.mono (h : Landing segments path run) (taken : List Segment) :
    Landing (taken ++ segments) path run :=
  ⟨fun ho traced hm => (h.lands ho traced hm).mono taken⟩

theorem landing_nil : Landing segments path (pure [] : Run (Match ι) (Trail ι)) := by
  refine ⟨fun ho => ?_⟩
  cases ho
  exact fun _ hm => absurd hm List.not_mem_nil

theorem landing_singleton {traced : Traced ι} (h : traced.Lands segments path) :
    Landing segments path (pure [traced]) := by
  refine ⟨fun ho => ?_⟩
  cases ho
  exact List.forall_mem_singleton.mpr h

theorem lands_up (hpath : frame.path ≠ []) (rest : List Segment) :
    (Traced.up frame.path.dropLast rest : Traced ι).Lands (.parent :: rest) frame.path :=
  ⟨⟨[.parent], List.cons_ne_nil _ _, rfl⟩, frame.path.getLast hpath, List.dropLast_concat_getLast hpath⟩

/-- No marker can lead out of the root. -/
theorem found_of_lands {trail : Trail ι} (h : ∀ traced ∈ trail, traced.Lands segments []) :
    ∃ ms : List (Match ι), trail = ms.map .found := by
  induction trail with
  | nil => exact ⟨[], rfl⟩
  | cons traced trail ih =>
    obtain ⟨htraced, htrail⟩ := List.forall_mem_cons.mp h
    obtain ⟨ms, rfl⟩ := ih htrail
    cases traced with
    | found m => exact ⟨m :: ms, rfl⟩
    | up container rest =>
      obtain ⟨-, key, hpath⟩ := htraced
      exact absurd hpath (by simp)

theorem landing_emit (m : Match ι) : Landing segments path (emit m) := by
  refine ⟨fun ho => ?_⟩
  cases ho
  exact List.forall_mem_singleton.mpr trivial

theorem landing_bind {α : Type} {first : Run (Match ι) α} {next : α → Run (Match ι) (Trail ι)}
    (h : ∀ a, first.outcome = .ok a → Landing segments path (next a)) :
    Landing segments path (first >>= next) := by
  refine ⟨fun ho => ?_⟩
  obtain ⟨a, ha, ho⟩ := Run.bind_outcome_eq_ok.mp ho
  exact (h a ha).lands ho

theorem landing_error (e : PathError) :
    Landing segments path (Run.ofExcept (.error e) : Run (Match ι) (Trail ι)) :=
  ⟨fun ho => by cases ho⟩

theorem Landing.append (h : Landing segments path run) (h' : Landing segments path run') :
    Landing segments path (do let here ← run; let out ← run'; return here ++ out) := by
  refine landing_bind fun here hhere => landing_bind fun out hout => ⟨fun ho traced hm => ?_⟩
  cases ho
  exact (List.mem_append.mp hm).elim (h.lands hhere traced) (h'.lands hout traced)

/-- Wherever the trace of whichever segments begins, its markers land. -/
def AllLanding (resume : Resume ι) : Prop :=
  ∀ rest (frame : Frame ι), Landing rest frame.path (resume rest frame)

section
variable (hresume : AllLanding resume)
include hresume

/-- What has come from a member goes on in its container, and lands from there. -/
theorem landing_resumeAll {key : Key} {trail : Trail ι}
    (h : ∀ traced ∈ trail, traced.Lands segments (frame.path ++ [key])) :
    Landing segments frame.path (resumeAll resume frame trail) := by
  induction trail with
  | nil => exact landing_nil
  | cons traced trail ih =>
    obtain ⟨htraced, htrail⟩ := List.forall_mem_cons.mp h
    cases traced with
    | found m =>
      have hfound : Landing segments frame.path (pure [.found m]) := landing_singleton trivial
      exact hfound.append (ih htrail)
    | up container rest =>
      obtain ⟨⟨taken, -, rfl⟩, key', hpath⟩ := htraced
      obtain ⟨rfl, -⟩ := List.append_inj' hpath rfl
      exact ((hresume rest frame).mono taken).append (ih htrail)

theorem landing_visit {key : Key} {child : Tree ι}
    (h : Landing segments (frame.path ++ [key]) (go (frame.enter key child))) :
    Landing segments frame.path (visit go resume frame key child) :=
  landing_bind fun _ ho => landing_resumeAll hresume (h.lands ho)

theorem landing_visitAll {entries : List (Key × Tree ι)}
    (h : ∀ e ∈ entries, Landing segments (frame.path ++ [e.1]) (go (frame.enter e.1 e.2))) :
    Landing segments frame.path (visitAll go resume frame entries) := by
  induction entries with
  | nil => exact landing_nil
  | cons e entries ih =>
    obtain ⟨he, hentries⟩ := List.forall_mem_cons.mp h
    exact (landing_visit hresume he).append (ih hentries)

end

/-! ## Descent -/

/-- The members that are arrays or objects. -/
def composites (entries : List (Key × Tree ι)) : List (Key × Tree ι) :=
  entries.filter fun e => e.2.isComposite

/-- The descent from a frame on. -/
def descent (go : Go ι) (resume : Resume ι) : Go ι := fun frame =>
  below go resume frame.path frame.parent frame.key frame.value

theorem mem_of_mem_composites {e : Key × Tree ι} {entries : List (Key × Tree ι)}
    (h : e ∈ composites entries) : e ∈ entries := (List.mem_filter.mp h).1

theorem composites_cons_of_pos {key : Key} {t : Tree ι} (h : t.isComposite = true)
    (entries : List (Key × Tree ι)) :
    composites ((key, t) :: entries) = (key, t) :: composites entries :=
  List.filter_cons_of_pos h

theorem composites_cons_of_neg {key : Key} {t : Tree ι} (h : ¬ t.isComposite = true)
    (entries : List (Key × Tree ι)) : composites ((key, t) :: entries) = composites entries :=
  List.filter_cons_of_neg h

theorem belowItems_eq (start : Nat) (items : List (Tree ι)) :
    belowItems go resume frame start items =
      visitAll (descent go resume) resume frame (composites (Tree.enumerate start items)) := by
  induction items generalizing start with
  | nil => rfl
  | cons t ts ih =>
    rw [belowItems, Tree.enumerate, ih]
    split
    · next ht =>
      rw [composites_cons_of_pos ht]
      exact (Run.bind_assoc ..).symm
    · next ht =>
      rw [composites_cons_of_neg ht]
      exact Run.bind_pure _

theorem belowMembers_eq (members : List (String × Tree ι)) :
    belowMembers go resume frame members = visitAll (descent go resume) resume frame
      (composites (members.map fun m => (.name m.1, m.2))) := by
  induction members with
  | nil => rfl
  | cons m ms ih =>
    rw [belowMembers, List.map_cons, ih]
    split
    · next ht =>
      rw [composites_cons_of_pos ht]
      exact (Run.bind_assoc ..).symm
    · next ht =>
      rw [composites_cons_of_neg ht]
      exact Run.bind_pure _

/-- A descent goes on at the node, and then descends from each array and object among its members. -/
theorem descent_eq (frame : Frame ι) : descent go resume frame = (do
    let here ← go frame
    let out ← visitAll (descent go resume) resume frame (composites frame.value.entries)
    return here ++ out) := by
  obtain ⟨value, path, parent, key⟩ := frame
  cases value with
  | leaf value =>
    have hnil (here : Trail ι) : here ++ [] = here := List.append_nil here
    exact ((Run.bind_congr fun here _ => congrArg pure (hnil here)).trans (Run.bind_pure _)).symm
  | array label items =>
    rw [descent, below, belowItems_eq]
    rfl
  | object label members =>
    rw [descent, below, belowMembers_eq]
    rfl

/-- By induction on the height of the node, as members are lower. -/
theorem landing_descent (hresume : AllLanding resume)
    (hgo : ∀ frame, Landing segments frame.path (go frame)) (frame : Frame ι) :
    Landing segments frame.path (descent go resume frame) := by
  generalize hn : frame.value.height = n
  induction n using Nat.strongRecOn generalizing frame with
  | _ n ih =>
    subst hn
    rw [descent_eq]
    refine (hgo frame).append (landing_visitAll hresume fun e he => ?_)
    have hlower := Tree.height_lt_of_mem_entries (mem_of_mem_composites he)
    exact ih _ hlower (frame.enter e.1 e.2) rfl

end Trail

namespace Tracer

open Trail

variable [DecidableEq ι] (tracer : Tracer ι)

section
variable {segments : List Segment} {frame : Frame ι} {go : Go ι} {resume : Resume ι}
  (hresume : AllLanding resume) (hgo : ∀ frame, Landing segments frame.path (go frame))
include hresume hgo

theorem landing_visitIf (condition : Expr) (source : String) (entries : List (Key × Tree ι)) :
    Landing segments frame.path (visitIf tracer go resume frame condition source entries) := by
  induction entries with
  | nil => exact landing_nil
  | cons e entries ih =>
    refine landing_bind fun verdict _ => ?_
    dsimp only
    split
    · exact (landing_visit hresume (hgo (frame.enter e.1 e.2))).append ih
    · exact landing_nil.append ih

end

mutual

theorem landing_step {segments : List Segment} {go : Go ι} {resume : Resume ι}
    (hresume : AllLanding resume) (hgo : ∀ frame, Landing segments frame.path (go frame))
    (frame : Frame ι) : ∀ segment : Segment,
      Landing segments frame.path (step tracer go resume frame segment)
  | .root => hgo { frame with parent := none, key := none }
  | .name _ | .wildcard => landing_visitAll hresume fun e _ => hgo (frame.enter e.1 e.2)
  | .slice .. => by
    rw [step]
    split
    · exact landing_nil
    · exact landing_visitAll hresume fun e _ => hgo (frame.enter e.1 e.2)
  | .union items => landing_stepAll hresume hgo frame items
  | .filter condition source _ => by
    rw [step]
    split
    · exact landing_error _
    · exact tracer.landing_visitIf hresume hgo condition source _
  | .computed .. => by
    rw [step]
    split
    · exact landing_error _
    · exact landing_bind fun _ _ => landing_visitAll hresume fun e _ => hgo (frame.enter e.1 e.2)
  | .propertyName => landing_emit _
  | .test _ => by
    refine landing_bind fun passed _ => ?_
    split
    · exact landing_emit _
    · exact landing_nil
  | .descendant | .parent => landing_nil

theorem landing_stepAll {segments : List Segment} {go : Go ι} {resume : Resume ι}
    (hresume : AllLanding resume) (hgo : ∀ frame, Landing segments frame.path (go frame))
    (frame : Frame ι) : ∀ items : List Segment,
      Landing segments frame.path (stepAll tracer go resume frame items)
  | [] => landing_nil
  | segment :: rest =>
    (landing_step hresume hgo frame segment).append (landing_stepAll hresume hgo frame rest)

end

/-- The markers of a trace land. -/
theorem landing_traceFrame (fuel : Nat) : AllLanding (traceFrame tracer fuel) := by
  induction fuel with
  | zero =>
    intro segments frame
    cases segments with
    | nil => exact landing_emit _
    | cons segment rest => exact landing_nil
  | succ fuel ih =>
    intro segments frame
    cases segments with
    | nil => exact landing_emit _
    | cons segment rest =>
      have hrest (frame : Frame ι) :
          Landing (segment :: rest) frame.path (traceFrame tracer fuel rest frame) :=
        (ih rest frame).mono [segment]
      cases segment with
      | parent =>
        rw [traceFrame]
        split
        · exact landing_nil
        · next hpath => exact landing_singleton (lands_up (by simpa using hpath) rest)
      | descendant => exact landing_descent ih hrest frame
      | _ => exact tracer.landing_step ih hrest frame _

/-! ## Calls -/

/-- One call of the recursion, where `self` answers the calls that it makes: for the segments behind the
first one, at the node or at its members; behind a descendant segment for the same segments, at the
arrays and objects among its members; and for what markers have left that have come back to the node. -/
def call (self : Resume ι) : Resume ι
  | [], frame => emit frame.nodeMatch
  | segment :: rest, frame =>
    match segment with
    | .parent => pure (if frame.path.isEmpty then [] else [.up frame.path.dropLast rest])
    | .descendant => do
      let here ← self rest frame
      let out ← visitAll (self (.descendant :: rest)) self frame (composites frame.value.entries)
      return here ++ out
    | segment => step tracer (self rest) self frame segment

/-- Two ways to answer calls agree on those that lead away from the node: at its members, and for what
the markers have left that come back from there. -/
structure Agree (go go' : Go ι) (resume resume' : Resume ι) (frame : Frame ι) : Prop where
  member : ∀ e ∈ frame.value.entries, go (frame.enter e.1 e.2) = go' (frame.enter e.1 e.2)
  marker : ∀ e ∈ frame.value.entries, ∀ {trail},
    (go' (frame.enter e.1 e.2)).outcome = .ok trail → ∀ {path rest}, .up path rest ∈ trail →
      resume rest { frame with path } = resume' rest { frame with path }

section
variable {go go' : Go ι} {resume resume' : Resume ι} {frame : Frame ι}

omit [DecidableEq ι] in
theorem resumeAll_congr {trail : Trail ι} (h : ∀ {path rest}, .up path rest ∈ trail →
    resume rest { frame with path } = resume' rest { frame with path }) :
    resumeAll resume frame trail = resumeAll resume' frame trail := by
  induction trail with
  | nil => rfl
  | cons traced trail ih =>
    have htrail := ih fun hm => h (List.mem_cons_of_mem _ hm)
    cases traced with
    | found m => rw [resumeAll, resumeAll, htrail]
    | up path rest => rw [resumeAll, resumeAll, htrail, h List.mem_cons_self]

variable (h : Agree go go' resume resume' frame)
include h

omit [DecidableEq ι] in
theorem Agree.visit {e : Key × Tree ι} (he : e ∈ frame.value.entries) :
    Trail.visit go resume frame e.1 e.2 = Trail.visit go' resume' frame e.1 e.2 := by
  rw [Trail.visit, Trail.visit, h.member e he]
  exact Run.bind_congr fun trail ho => resumeAll_congr (h.marker e he ho)

omit [DecidableEq ι] in
theorem Agree.visitAll {entries : List (Key × Tree ι)}
    (hentries : ∀ e ∈ entries, e ∈ frame.value.entries) :
    Trail.visitAll go resume frame entries = Trail.visitAll go' resume' frame entries := by
  induction entries with
  | nil => rfl
  | cons e entries ih =>
    obtain ⟨he, hmore⟩ := List.forall_mem_cons.mp hentries
    rw [Trail.visitAll, Trail.visitAll, h.visit he, ih hmore]

theorem Agree.visitIf (condition : Expr) (source : String) {entries : List (Key × Tree ι)}
    (hentries : ∀ e ∈ entries, e ∈ frame.value.entries) :
    Tracer.visitIf tracer go resume frame condition source entries =
      Tracer.visitIf tracer go' resume' frame condition source entries := by
  induction entries with
  | nil => rfl
  | cons e entries ih =>
    obtain ⟨he, hmore⟩ := List.forall_mem_cons.mp hentries
    rw [Tracer.visitIf, Tracer.visitIf, h.visit he, ih hmore]

end

mutual

/-- One segment makes no other calls, except at the node itself without its parent. -/
theorem Agree.step {go go' : Go ι} {resume resume' : Resume ι} {frame : Frame ι}
    (h : Agree go go' resume resume' frame)
    (hanchored : go { frame with parent := none, key := none } =
      go' { frame with parent := none, key := none }) : ∀ segment : Segment,
      Tracer.step tracer go resume frame segment = Tracer.step tracer go' resume' frame segment
  | .root => hanchored
  | .name _ => h.visitAll fun _ he => Tree.mem_entries_of_get? (Option.mem_toList.mp he)
  | .wildcard => h.visitAll fun _ he => he
  | .slice .. => by
    rw [Tracer.step, Tracer.step]
    split
    · rfl
    · next len hlen =>
      refine h.visitAll fun e he => ?_
      obtain ⟨i, -, hi⟩ := List.mem_filterMap.mp he
      obtain ⟨child, hchild, rfl⟩ := Option.map_eq_some_iff.mp hi
      exact Tree.mem_entries_of_at? (by rw [hlen]; rfl) hchild
  | .union items => h.stepAll hanchored items
  | .filter condition source _ => by
    rw [Tracer.step, Tracer.step, h.visitIf tracer condition source fun _ he => he]
  | .computed .. => by
    rw [Tracer.step, Tracer.step]
    split
    · rfl
    · exact Run.bind_congr fun _ _ =>
        h.visitAll fun _ he => Tree.mem_entries_of_get? (Option.mem_toList.mp he)
  | .propertyName | .test _ | .descendant | .parent => rfl

theorem Agree.stepAll {go go' : Go ι} {resume resume' : Resume ι} {frame : Frame ι}
    (h : Agree go go' resume resume' frame)
    (hanchored : go { frame with parent := none, key := none } =
      go' { frame with parent := none, key := none }) : ∀ items : List Segment,
      Tracer.stepAll tracer go resume frame items = Tracer.stepAll tracer go' resume' frame items
  | [] => rfl
  | segment :: rest => by
    rw [Tracer.stepAll, Tracer.stepAll, h.step hanchored segment, h.stepAll hanchored rest]

end

/-- A trace behind a descendant segment calls for the same trace at lower nodes. -/
theorem traceFrame_descendant (fuel : Nat) (rest : List Segment) (frame : Frame ι) :
    traceFrame tracer (fuel + 1) (.descendant :: rest) frame = (do
      let here ← traceFrame tracer fuel rest frame
      let out ← visitAll (traceFrame tracer (fuel + 1) (.descendant :: rest))
        (traceFrame tracer fuel) frame (composites frame.value.entries)
      return here ++ out) := descent_eq frame

/-- A marker that comes back has fewer segments left than the trace that it comes from. -/
theorem length_lt_of_marker {fuel : Nat} {segments rest : List Segment} {frame : Frame ι}
    {trail : Trail ι} {path : Path}
    (ho : (traceFrame tracer fuel segments frame).outcome = .ok trail)
    (hm : .up path rest ∈ trail) : rest.length < segments.length := by
  obtain ⟨⟨taken, hne, rfl⟩, -⟩ := (tracer.landing_traceFrame fuel segments frame).lands ho _ hm
  rw [List.length_append]
  exact Nat.lt_add_of_pos_left (List.length_pos_iff.mpr hne)

/-- Calls that are nested deeper than there are segments and containers in each other are not made: the
trace is the same whatever they would answer. -/
theorem iterate_call_eq (self : Resume ι) {n fuel : Nat} {segments : List Segment} {frame : Frame ι}
    (hfuel : segments.length ≤ fuel) (hn : segments.length + frame.value.height < n) :
    (call tracer)^[n] self segments frame = traceFrame tracer fuel segments frame := by
  induction n generalizing fuel segments frame with
  | zero => exact absurd hn (Nat.not_lt_zero _)
  | succ n ih =>
    rw [Function.iterate_succ_apply']
    cases segments with
    | nil => cases fuel <;> rfl
    | cons segment rest =>
      obtain ⟨fuel, rfl⟩ := Nat.exists_eq_succ_of_ne_zero (Nat.ne_zero_of_lt hfuel)
      rw [List.length_cons] at hfuel hn
      have agree (segments : List Segment) (hle : segments.length ≤ rest.length + 1)
          {fuel' : Nat} (hfuel' : segments.length ≤ fuel') :
          Agree ((call tracer)^[n] self segments) (traceFrame tracer fuel' segments)
            ((call tracer)^[n] self) (traceFrame tracer fuel) frame := by
        refine ⟨fun e he => ih hfuel' ?_, fun e _ _ ho path rest' hm => ih ?_ ?_⟩
        · have hlower : e.2.height < frame.value.height := Tree.height_lt_of_mem_entries he
          show segments.length + e.2.height < n
          omega
        · have hshorter := tracer.length_lt_of_marker ho hm
          omega
        · have hshorter := tracer.length_lt_of_marker ho hm
          show rest'.length + frame.value.height < n
          omega
      have hrest {frame' : Frame ι} (h : frame'.value = frame.value) :
          (call tracer)^[n] self rest frame' = traceFrame tracer fuel rest frame' :=
        ih (by omega) (by rw [h]; omega)
      cases segment with
      | parent => rfl
      | descendant =>
        have hmembers := (agree (.descendant :: rest) (Nat.le_refl _) hfuel).visitAll
          fun e he => mem_of_mem_composites he
        rw [traceFrame_descendant, call, hrest rfl, hmembers]
      | _ => exact (agree rest (Nat.le_succ _) (by omega)).step tracer (hrest rfl) _

/-- Nothing contains the root, so no marker is left over there: a trace drops nothing of its trail. -/
theorem found_of_trace {segments : List Segment} {root : Tree ι} {parent : Option (Tree ι)}
    {key : Option Key} {ms : List (Match ι)}
    (h : (tracer.trace segments root parent key).outcome = .ok ms) :
    (traceFrame tracer segments.length segments ⟨root, [], parent, key⟩).outcome =
      .ok (ms.map .found) := by
  obtain ⟨trail, ho, hms⟩ := Run.bind_outcome_eq_ok.mp h
  obtain ⟨found, rfl⟩ := found_of_lands ((tracer.landing_traceFrame _ _ _).lands ho)
  cases hms
  rw [ho, List.filterMap_map]
  exact congrArg (fun ms : List (Match ι) => Except.ok (ms.map Traced.found))
    List.filterMap_some.symm

/-- **A marker that a trace hands back has some of the segments left, but not all, and leads to the path
of the node without its last key. So what comes back from a member is resumed in the very frame that
the member was entered from, and nothing is left over where the whole trace begins. And traces end:
calls are nested no deeper than there are segments and containers in each other, so that it does not
matter what deeper calls would answer.** -/
theorem markers_land (tracer : Tracer ι) {segments : List Segment} {fuel : Nat}
    (hfuel : segments.length ≤ fuel) :
    (∀ (frame : Frame ι) (trail : Trail ι),
        (traceFrame tracer fuel segments frame).outcome = .ok trail →
        ∀ path rest, .up path rest ∈ trail →
          (∃ taken, taken ≠ [] ∧ taken ++ rest = segments) ∧ ∃ key, path ++ [key] = frame.path) ∧
      (∀ (frame : Frame ι) (key : Key) (child : Tree ι) (trail : Trail ι),
        (traceFrame tracer fuel segments (frame.enter key child)).outcome = .ok trail →
        ∀ path rest, .up path rest ∈ trail → { frame with path } = frame) ∧
      (∀ (root : Tree ι) (parent : Option (Tree ι)) (key : Option Key) (ms : List (Match ι)),
        (tracer.trace segments root parent key).outcome = .ok ms →
        (traceFrame tracer segments.length segments ⟨root, [], parent, key⟩).outcome =
          .ok (ms.map .found)) ∧
      ∀ (frame : Frame ι) (self : Resume ι),
        (call tracer)^[segments.length + frame.value.height + 1] self segments frame =
          traceFrame tracer fuel segments frame := by
  have hlands := tracer.landing_traceFrame fuel segments
  refine ⟨fun frame trail ho path rest hm => (hlands frame).lands ho _ hm,
    fun frame key child trail ho path rest hm => ?_,
    fun root parent key ms h => tracer.found_of_trace h,
    fun frame self => tracer.iterate_call_eq self hfuel (Nat.lt_succ_self _)⟩
  obtain ⟨-, key', hpath⟩ := (hlands _).lands ho _ hm
  obtain ⟨rfl, -⟩ := List.append_inj' hpath rfl
  rfl

/-- A container in a container. -/
def nested : Tree Unit := .object () [("b", .object () [])]

def nestedFrame : Frame Unit :=
  { value := nested, path := [.name "x", .name "a"], parent := some (.object () [("a", nested)]),
    key := some (.name "a") }

/-- What comes back from the inner one is resumed in the outer one and handed back again. -/
theorem markers_of_nested :
    (traceFrame {} 3 [.descendant, .parent, .parent] nestedFrame).outcome =
        .ok [.up [.name "x"] [.parent], .up [.name "x"] []] ∧
      (∃ taken : List Segment, taken ≠ [] ∧ taken ++ [] = [.descendant, .parent, .parent]) ∧
      ∀ self, (call {})^[6] self [.descendant, .parent, .parent] nestedFrame =
        traceFrame {} 3 [.descendant, .parent, .parent] nestedFrame := by
  have h : (traceFrame {} 3 [.descendant, .parent, .parent] nestedFrame).outcome =
      .ok [.up [.name "x"] [.parent], .up [.name "x"] []] := rfl
  have hfuel : [Segment.descendant, .parent, .parent].length ≤ 3 := Nat.le_refl 3
  obtain ⟨hlands, -, -, hends⟩ := markers_land ({} : Tracer Unit) hfuel
  have hinner := hlands _ _ h _ _ (List.mem_cons_of_mem _ List.mem_cons_self)
  exact ⟨h, hinner.1, hends nestedFrame⟩

end Tracer

end LiveJson

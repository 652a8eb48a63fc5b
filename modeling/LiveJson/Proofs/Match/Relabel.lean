import LiveJson.Proofs.Tree
import LiveJson.Query.Basic

/-! # Labels do not matter

An expression sees of a label only whether two nodes have the same one. So under other labels, as long
as different ones stay different, every expression has the same value and every path finds the same
nodes, or fails with the same error. -/

namespace LiveJson

variable {ι κ : Type} (f : ι → κ)

namespace Tree

@[simp] theorem kind_relabel (t : Tree ι) : (t.relabel f).kind = t.kind := by
  cases t <;> rfl

@[simp] theorem isComposite_relabel (t : Tree ι) :
    (t.relabel f).isComposite = t.isComposite := by
  simp only [isComposite, kind_relabel]

theorem relabelItems_eq_map (ts : List (Tree ι)) : relabelItems f ts = ts.map (relabel f) := by
  induction ts with
  | nil => rfl
  | cons t ts ih => simp [relabelItems, ih]

theorem relabelMembers_eq_map (ms : List (String × Tree ι)) :
    relabelMembers f ms = ms.map fun m => (m.1, m.2.relabel f) := by
  induction ms with
  | nil => rfl
  | cons m ms ih => simp [relabelMembers, ih]

mutual

theorem toJson_relabel : ∀ t : Tree ι, (t.relabel f).toJson = t.toJson
  | leaf _ => rfl
  | array _ items => congrArg Json.array (itemsToJson_relabel items)
  | object _ members => congrArg Json.object (membersToJson_relabel members)

theorem itemsToJson_relabel : ∀ ts : List (Tree ι),
    itemsToJson (relabelItems f ts) = itemsToJson ts
  | [] => rfl
  | t :: ts => by
    rw [relabelItems, itemsToJson, itemsToJson, toJson_relabel t, itemsToJson_relabel ts]

theorem membersToJson_relabel : ∀ ms : List (String × Tree ι),
    membersToJson (relabelMembers f ms) = membersToJson ms
  | [] => rfl
  | (_, t) :: rest => by
    rw [relabelMembers, membersToJson, membersToJson, toJson_relabel t, membersToJson_relabel rest]

end

def relabelEntry (e : Key × Tree ι) : Key × Tree κ := (e.1, e.2.relabel f)

theorem entries_relabel (t : Tree ι) : (t.relabel f).entries = t.entries.map (relabelEntry f) := by
  cases t with
  | leaf value => rfl
  | array label items => rw [relabel, relabelItems_eq_map, entries, enumerate_map]; rfl
  | object label members =>
    rw [relabel, relabelMembers_eq_map, entries, entries, List.map_map, List.map_map]
    rfl

theorem get?_relabel (name : String) (t : Tree ι) :
    (t.relabel f).get? name = (t.get? name).map (relabelEntry f) := by
  cases t with
  | leaf value => rfl
  | array label items =>
    rw [relabel, relabelItems_eq_map, get?, get?]
    cases (Key.name name).asIndex with
    | none => rfl
    | some i => cases hi : items[i]? <;> simp [hi, relabelEntry]
  | object label members =>
    rw [relabel, relabelMembers_eq_map, get?, get?, Members.get?_map]
    cases Members.get? name members <;> rfl

theorem at?_relabel (i : Nat) (t : Tree ι) : (t.relabel f).at? i = (t.at? i).map (relabel f) := by
  cases t with
  | leaf value => rfl
  | array label items => rw [relabel, relabelItems_eq_map, at?, at?, List.getElem?_map]
  | object label members =>
    rw [relabel, relabelMembers_eq_map, at?, at?, Members.get?_map]

@[simp] theorem length?_relabel (t : Tree ι) : (t.relabel f).length? = t.length? := by
  cases t with
  | array label items => rw [relabel, relabelItems_eq_map, length?, length?, List.length_map]
  | _ => rfl

@[simp] theorem asFloat?_relabel (t : Tree ι) : (t.relabel f).asFloat? = t.asFloat? := by
  cases t <;> rfl

variable {f} in
theorem same_relabel [DecidableEq ι] [DecidableEq κ] (hf : Function.Injective f)
    (s t : Tree ι) : (s.relabel f).same (t.relabel f) = s.same t := by
  have hlabel : ∀ a b : ι, (f a == f b) = (a == b) := fun a b =>
    Bool.eq_iff_iff.mpr (by simpa using ⟨fun h => hf h, congrArg f⟩)
  cases s <;> cases t <;> first | rfl | exact hlabel _ _

end Tree

/-! ## Expressions -/

variable {f}

namespace Expr

def Operand.relabel (f : ι → κ) : Operand ι → Operand κ
  | node t => node (t.relabel f)
  | value v => value v

def Scope.relabel (f : ι → κ) (scope : Scope ι) : Scope κ :=
  { subject := scope.subject.relabel f, parent := scope.parent.map (Tree.relabel f),
    path := scope.path, bindings := scope.bindings }

namespace Operand

variable (op : Operand ι)

@[simp] theorem toValue_relabel : (op.relabel f).toValue = op.toValue := by
  cases op with
  | node t => exact congrArg Value.ofJson (t.toJson_relabel f)
  | value v => rfl

@[simp] theorem toText_relabel : (op.relabel f).toText = op.toText := by
  rw [toText, toValue_relabel, toText]

@[simp] theorem isTruthy_relabel : (op.relabel f).isTruthy = op.isTruthy := by
  cases op with
  | node t => simp [relabel, isTruthy, Tree.toJson_relabel]
  | value v => rfl

theorem normalize_relabel : (op.relabel f).normalize = op.normalize.relabel f := by
  cases op with
  | node t =>
    simp only [relabel, normalize, Tree.isComposite_relabel, Tree.toJson_relabel]
    split <;> rfl
  | value v => rfl

theorem member_relabel (name : String) (span : Span) :
    (op.relabel f).member name span = (op.member name span).map (relabel f) := by
  cases op with
  | node t =>
    simp only [relabel, member, Tree.isComposite_relabel, Tree.kind_relabel, Tree.length?_relabel,
      Tree.get?_relabel, Tree.toJson_relabel]
    split
    · split
      · rfl
      · cases t.get? name <;> rfl
    · cases (Value.ofJson t.toJson).member name span <;> rfl
  | value v =>
    simp only [relabel, member]
    cases v.member name span <;> rfl

variable [DecidableEq ι] [DecidableEq κ] (hf : Function.Injective f)
include hf

theorem strictlyEquals_relabel (op' : Operand ι) :
    (op.relabel f).strictlyEquals (op'.relabel f) = op.strictlyEquals op' := by
  cases op <;> cases op' <;> first | rfl | exact Tree.same_relabel hf _ _

theorem looselyEquals_relabel (op' : Operand ι) :
    (op.relabel f).looselyEquals (op'.relabel f) = op.looselyEquals op' := by
  cases op <;> cases op' <;> first | rfl | exact Tree.same_relabel hf _ _

end Operand

variable [DecidableEq ι] [DecidableEq κ] (hf : Function.Injective f)
include hf

theorem Comparison.apply_relabel (c : Comparison) (a b : Operand ι) :
    c.apply (a.relabel f) (b.relabel f) = c.apply a b := by
  unfold apply
  simp only [Operand.toValue_relabel, a.strictlyEquals_relabel hf b, a.looselyEquals_relabel hf b]

theorem Scope.evaluate_relabel (scope : Scope ι) (e : Expr) :
    (scope.relabel f).evaluate e = (scope.evaluate e).map (Operand.relabel f) := by
  induction e with
  | literal => rfl
  | subject _ which =>
    cases which with
    | parent =>
      simp only [evaluate, subjectValue, relabel]
      cases scope.parent <;> rfl
    | _ => rfl
  | binding _ name =>
    simp only [evaluate, relabel]
    cases Members.get? name scope.bindings <;> rfl
  | member span object name ih =>
    rw [evaluate, evaluate, ih]
    exact bind_map fun v => Operand.member_relabel v name span
  | index span object key ih ihkey =>
    rw [evaluate, evaluate, ih, ihkey]
    refine bind_map fun v => bind_map fun k => ?_
    rw [Operand.toText_relabel]
    exact Operand.member_relabel v k.toText span
  | not _ operand ih =>
    rw [evaluate, evaluate, ih]
    exact bind_map fun v => by rw [Operand.isTruthy_relabel]; rfl
  | negate _ operand ih =>
    rw [evaluate, evaluate, ih]
    exact bind_map fun v => by rw [Operand.toValue_relabel]; rfl
  | binary _ op left right ihl ihr =>
    cases op with
    | logical op =>
      rw [evaluate, evaluate, ihl]
      refine bind_map fun l => ?_
      rw [Operand.isTruthy_relabel]
      cases op <;> cases l.isTruthy <;> first | rfl | exact ihr
    | comparison op =>
      rw [evaluate, evaluate, ihl, ihr]
      refine bind_map fun l => bind_map fun r => ?_
      rw [Operand.normalize_relabel, Operand.normalize_relabel, op.apply_relabel hf]
      rfl
    | arithmetic op =>
      rw [evaluate, evaluate, ihl, ihr]
      refine bind_map fun l => bind_map fun r => ?_
      rw [Operand.toValue_relabel, Operand.toValue_relabel]
      rfl

end Expr

/-! ## Traces -/

def Matched.relabel (f : ι → κ) : Matched ι → Matched κ
  | node t => node (t.relabel f)
  | key k => key k

def Match.relabel (f : ι → κ) (m : Match ι) : Match κ :=
  { path := m.path, matched := m.matched.relabel f, parent := m.parent.map (Tree.relabel f),
    parentKey := m.parentKey }

def Frame.relabel (f : ι → κ) (frame : Frame ι) : Frame κ :=
  { value := frame.value.relabel f, path := frame.path,
    parent := frame.parent.map (Tree.relabel f), key := frame.key }

def Traced.relabel (f : ι → κ) : Traced ι → Traced κ
  | found m => found (m.relabel f)
  | up path rest => up path rest

/-- The run of a trace under other labels. -/
def Run.relabel (f : ι → κ) (run : Run (Match ι) (Trail ι)) : Run (Match κ) (Trail κ) :=
  { reports := run.reports.map (Match.relabel f)
    outcome := run.outcome.map (List.map (Traced.relabel f)) }

/-- The tracer that sees the labels of a node through the function. -/
def Tracer.through (f : ι → κ) (tracer : Tracer κ) : Tracer ι :=
  { bindings := tracer.bindings, preventEval := tracer.preventEval
    classifier := tracer.classifier.map fun classify t path parent key =>
      classify (t.relabel f) path (parent.map (Tree.relabel f)) key }

namespace Run

variable {run run' : Run (Match ι) (Trail ι)}

theorem bind_relabel {next : Trail ι → Run (Match ι) (Trail ι)}
    {next' : Trail κ → Run (Match κ) (Trail κ)}
    (h : ∀ trail, next' (trail.map (Traced.relabel f)) = (next trail).relabel f) :
    run.relabel f >>= next' = (run >>= next).relabel f := by
  obtain ⟨reports, outcome⟩ := run
  cases outcome with
  | error e => rfl
  | ok trail => simp only [relabel, Bind.bind, bind, Except.map, h trail, List.map_append]

theorem append_relabel :
    (do let here ← run.relabel f; let out ← run'.relabel f; return here ++ out) =
      (do let here ← run; let out ← run'; return here ++ out).relabel f :=
  bind_relabel fun _ => bind_relabel fun _ =>
    congrArg (fun trail => Run.mk [] (.ok trail)) List.map_append.symm

theorem ofExcept_relabel {α α' : Type} {x : Except PathError α} {g : α → α'}
    {next : α → Run (Match ι) (Trail ι)} {next' : α' → Run (Match κ) (Trail κ)}
    (h : ∀ a, next' (g a) = (next a).relabel f) :
    ofExcept (x.map g) >>= next' = (ofExcept x >>= next).relabel f := by
  cases x with
  | error e => rfl
  | ok a => exact congrArg (fun run => Run.mk run.reports run.outcome) (h a)

end Run

namespace Trail

/-- Under other labels, the same is traced. -/
def Natural (f : ι → κ) (go : Go ι) (go' : Go κ) : Prop :=
  ∀ frame, go' (frame.relabel f) = (go frame).relabel f

section
variable {go : Go ι} {go' : Go κ} {resume : Resume ι} {resume' : Resume κ}
  (hresume : ∀ rest, Natural f (resume rest) (resume' rest)) (frame : Frame ι)
include hresume

theorem resumeAll_relabel : ∀ trail : Trail ι,
    resumeAll resume' (frame.relabel f) (trail.map (Traced.relabel f)) =
      (resumeAll resume frame trail).relabel f
  | [] => rfl
  | .found m :: trail => by
    rw [List.map_cons, Traced.relabel, resumeAll, resumeAll_relabel trail]
    exact Run.bind_relabel fun _ => rfl
  | .up path rest :: trail => by
    rw [List.map_cons, Traced.relabel, resumeAll, resumeAll_relabel trail]
    exact (congrArg (· >>= _) (hresume rest { frame with path })).trans Run.append_relabel

variable (hgo : Natural f go go')
include hgo

theorem visit_relabel (key : Key) (child : Tree ι) :
    visit go' resume' (frame.relabel f) key (child.relabel f) =
      (visit go resume frame key child).relabel f :=
  (congrArg (· >>= _) (hgo (frame.enter key child))).trans
    (Run.bind_relabel (resumeAll_relabel hresume frame))

theorem visitAll_relabel : ∀ entries : List (Key × Tree ι),
    visitAll go' resume' (frame.relabel f) (entries.map (Tree.relabelEntry f)) =
      (visitAll go resume frame entries).relabel f
  | [] => rfl
  | (key, child) :: entries => by
    rw [List.map_cons, Tree.relabelEntry, visitAll, visit_relabel hresume frame hgo,
      visitAll_relabel entries]
    exact Run.append_relabel

end

mutual

theorem below_relabel {go : Go ι} {go' : Go κ} {resume : Resume ι} {resume' : Resume κ}
    (hresume : ∀ rest, Natural f (resume rest) (resume' rest)) (hgo : Natural f go go')
    (path : Path) (parent : Option (Tree ι)) (key : Option Key) : ∀ t : Tree ι,
      below go' resume' path (parent.map (Tree.relabel f)) key (t.relabel f) =
        (below go resume path parent key t).relabel f
  | .leaf value => hgo ⟨.leaf value, path, parent, key⟩
  | .array label items => by
    have hhere := hgo ⟨.array label items, path, parent, key⟩
    have hitems := belowItems_relabel hresume hgo ⟨.array label items, path, parent, key⟩ 0 items
    exact (congr (congrArg _ hhere) (funext fun _ => congrArg (· >>= _) hitems)).trans
      Run.append_relabel
  | .object label members => by
    have hhere := hgo ⟨.object label members, path, parent, key⟩
    have hmembers :=
      belowMembers_relabel hresume hgo ⟨.object label members, path, parent, key⟩ members
    exact (congr (congrArg _ hhere) (funext fun _ => congrArg (· >>= _) hmembers)).trans
      Run.append_relabel

theorem belowItems_relabel {go : Go ι} {go' : Go κ} {resume : Resume ι} {resume' : Resume κ}
    (hresume : ∀ rest, Natural f (resume rest) (resume' rest)) (hgo : Natural f go go')
    (frame : Frame ι) (start : Nat) : ∀ items : List (Tree ι),
      belowItems go' resume' (frame.relabel f) start (Tree.relabelItems f items) =
        (belowItems go resume frame start items).relabel f
  | [] => rfl
  | t :: ts => by
    have hrest := belowItems_relabel hresume hgo frame (start + 1) ts
    rw [belowItems, Tree.relabelItems, belowItems, Tree.isComposite_relabel, hrest]
    split
    · have here := below_relabel hresume hgo (frame.path ++ [.index start]) (some frame.value)
        (some (.index start)) t
      refine (congrArg (· >>= _) here).trans (Run.bind_relabel fun trail => ?_)
      rw [resumeAll_relabel hresume]
      exact Run.append_relabel
    · exact @Run.append_relabel _ _ f (pure []) _

theorem belowMembers_relabel {go : Go ι} {go' : Go κ} {resume : Resume ι} {resume' : Resume κ}
    (hresume : ∀ rest, Natural f (resume rest) (resume' rest)) (hgo : Natural f go go')
    (frame : Frame ι) : ∀ members : List (String × Tree ι),
      belowMembers go' resume' (frame.relabel f) (Tree.relabelMembers f members) =
        (belowMembers go resume frame members).relabel f
  | [] => rfl
  | (name, t) :: rest => by
    have hrest := belowMembers_relabel hresume hgo frame rest
    rw [belowMembers, Tree.relabelMembers, belowMembers, Tree.isComposite_relabel, hrest]
    split
    · have here := below_relabel hresume hgo (frame.path ++ [.name name]) (some frame.value)
        (some (.name name)) t
      refine (congrArg (· >>= _) here).trans (Run.bind_relabel fun trail => ?_)
      rw [resumeAll_relabel hresume]
      exact Run.append_relabel
    · exact @Run.append_relabel _ _ f (pure []) _

end

end Trail

namespace Tracer

open Trail

variable (tracer : Tracer κ)

theorem passes_relabel (frame : Frame ι) (type : TypeTest) :
    tracer.passes (frame.relabel f) type = (tracer.through f).passes frame type := by
  unfold passes through Frame.relabel
  cases type with
  | other => cases tracer.classifier <;> rfl
  | _ => simp

theorem member_relabel {go : Go ι} {go' : Go κ} {resume : Resume ι} {resume' : Resume κ}
    (hresume : ∀ rest, Natural f (resume rest) (resume' rest)) (hgo : Natural f go go')
    (frame : Frame ι) (name : String) :
    visitAll go' resume' (frame.relabel f) ((frame.value.relabel f).get? name).toList =
      (visitAll go resume frame (frame.value.get? name).toList).relabel f := by
  rw [← visitAll_relabel hresume frame hgo, Tree.get?_relabel]
  cases frame.value.get? name <;> rfl

variable [DecidableEq ι] [DecidableEq κ]

theorem evaluate_relabel (hf : Function.Injective f) (scope : Expr.Scope ι) (e : Expr) (source : String) :
    evaluate (scope.relabel f) e source =
      (evaluate scope e source).map (Expr.Operand.relabel f) := by
  unfold evaluate
  rw [Expr.Scope.evaluate_relabel hf]
  cases scope.evaluate e <;> rfl

section
variable {go : Go ι} {go' : Go κ} {resume : Resume ι} {resume' : Resume κ}
  (hresume : ∀ rest, Natural f (resume rest) (resume' rest)) (hgo : Natural f go go')
  (frame : Frame ι)
include hresume hgo

theorem visitIf_relabel (hf : Function.Injective f) (condition : Expr) (source : String) : ∀ entries : List (Key × Tree ι),
    visitIf tracer go' resume' (frame.relabel f) condition source
        (entries.map (Tree.relabelEntry f)) =
      (visitIf (tracer.through f) go resume frame condition source entries).relabel f
  | [] => rfl
  | (key, child) :: entries => by
    have hrest := visitIf_relabel hf condition source entries
    have heval := evaluate_relabel hf
      { subject := child, parent := some frame.value, path := frame.path ++ [key],
        bindings := tracer.bindings } condition source
    rw [List.map_cons, Tree.relabelEntry, visitIf, hrest]
    refine (congrArg (fun x => Run.ofExcept x >>= _) heval).trans
      (Run.ofExcept_relabel fun verdict => ?_)
    dsimp only
    rw [Expr.Operand.isTruthy_relabel, visit_relabel hresume frame hgo]
    split
    · exact Run.append_relabel
    · exact @Run.append_relabel _ _ f (pure []) _

end

mutual

theorem step_relabel (hf : Function.Injective f) {go : Go ι} {go' : Go κ} {resume : Resume ι}
    {resume' : Resume κ}
    (hresume : ∀ rest, Natural f (resume rest) (resume' rest)) (hgo : Natural f go go')
    (frame : Frame ι) : ∀ segment : Segment,
      step tracer go' resume' (frame.relabel f) segment =
        (step (tracer.through f) go resume frame segment).relabel f
  | .root => hgo { frame with parent := none, key := none }
  | .name text => member_relabel hresume hgo frame text
  | .wildcard => by
    rw [step, step, ← visitAll_relabel hresume frame hgo, ← Tree.entries_relabel]
    rfl
  | .slice start stop every => by
    rw [step, step]
    dsimp only [Frame.relabel]
    rw [Tree.length?_relabel]
    cases frame.value.length? with
    | none => rfl
    | some len =>
      dsimp only
      rw [← visitAll_relabel hresume frame hgo, List.map_filterMap]
      refine congrArg (visitAll go' resume' (frame.relabel f)) (congrArg (List.filterMap · _) ?_)
      funext i
      rw [Tree.at?_relabel]
      cases frame.value.at? i <;> rfl
  | .union items => stepAll_relabel hf hresume hgo frame items
  | .filter condition source span => by
    rw [step, step]
    by_cases hprevent : tracer.preventEval = true
    · rw [if_pos hprevent, if_pos (show (tracer.through f).preventEval = true from hprevent)]
      rfl
    · rw [if_neg hprevent, if_neg (show ¬ (tracer.through f).preventEval = true from hprevent),
        ← visitIf_relabel tracer hresume hgo frame hf, ← Tree.entries_relabel]
      rfl
  | .computed key source span => by
    have heval := evaluate_relabel hf
      { subject := frame.value, parent := frame.parent, path := frame.path,
        bindings := tracer.bindings } key source
    rw [step, step]
    by_cases hprevent : tracer.preventEval = true
    · rw [if_pos hprevent, if_pos (show (tracer.through f).preventEval = true from hprevent)]
      rfl
    · rw [if_neg hprevent, if_neg (show ¬ (tracer.through f).preventEval = true from hprevent)]
      refine (congrArg (fun x => Run.ofExcept x >>= _) heval).trans
        (Run.ofExcept_relabel fun v => ?_)
      rw [Expr.Operand.toText_relabel]
      exact member_relabel hresume hgo frame v.toText
  | .propertyName => rfl
  | .test type => by
    rw [step, step, passes_relabel]
    cases (tracer.through f).passes frame type with
    | error e => rfl
    | ok passed => cases passed <;> rfl
  | .descendant => rfl
  | .parent => rfl

theorem stepAll_relabel (hf : Function.Injective f) {go : Go ι} {go' : Go κ} {resume : Resume ι}
    {resume' : Resume κ}
    (hresume : ∀ rest, Natural f (resume rest) (resume' rest)) (hgo : Natural f go go')
    (frame : Frame ι) : ∀ segments : List Segment,
      stepAll tracer go' resume' (frame.relabel f) segments =
        (stepAll (tracer.through f) go resume frame segments).relabel f
  | [] => rfl
  | segment :: rest => by
    rw [stepAll, step_relabel hf hresume hgo frame segment,
      stepAll_relabel hf hresume hgo frame rest]
    exact Run.append_relabel

end

theorem traceFrame_relabel (hf : Function.Injective f) : ∀ (fuel : Nat) (segments : List Segment),
    Natural f (traceFrame (tracer.through f) fuel segments) (traceFrame tracer fuel segments)
  | fuel, [], frame => by cases fuel <;> rfl
  | 0, _ :: _, frame => rfl
  | fuel + 1, segment :: rest, frame => by
    have hgo := traceFrame_relabel hf fuel rest
    have hresume := traceFrame_relabel hf fuel
    cases segment with
    | parent =>
      obtain ⟨value, path, parent, key⟩ := frame
      cases path <;> rfl
    | descendant => exact below_relabel hresume hgo _ _ _ frame.value
    | _ => exact step_relabel tracer hf hresume hgo frame _

/-- Under other labels a trace comes to the same matches, or to the same error. -/
theorem trace_relabel (hf : Function.Injective f) (segments : List Segment) (root : Tree ι) (parent : Option (Tree ι))
    (key : Option Key) :
    (tracer.trace segments (root.relabel f) (parent.map (Tree.relabel f)) key).outcome =
      ((tracer.through f).trace segments root parent key).outcome.map
        (List.map (Match.relabel f)) := by
  rw [trace, trace, Run.outcome_bind, Run.outcome_bind]
  change (traceFrame tracer segments.length segments
    (Frame.relabel f ⟨root, [], parent, key⟩)).outcome.bind _ = _
  rw [traceFrame_relabel tracer hf, Run.relabel]
  cases (traceFrame (tracer.through f) segments.length segments ⟨root, [], parent, key⟩).outcome with
  | error e => rfl
  | ok trail =>
    refine congrArg Except.ok ?_
    rw [List.filterMap_map, List.map_filterMap]
    refine congrArg (List.filterMap · trail) (funext fun traced => ?_)
    cases traced <;> rfl

end Tracer

theorem Tree.search_relabel [DecidableEq ι] [DecidableEq κ] (hf : Function.Injective f)
    (path : String) (t : Tree ι) :
    (t.relabel f).search path = (t.search path).map (List.map (Match.relabel f)) := by
  rw [search, search]
  cases Segment.read path with
  | error e => rfl
  | ok segments => exact Tracer.trace_relabel {} hf segments t none none

end LiveJson

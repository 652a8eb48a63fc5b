import LiveJson.Proofs.Match.Plain

/-! # Reports and results

A match is reported when it is found, and it gets its place among the results when the markers that
stand between the matches have been resumed. So the reports are the results, each once, but not always
in the same order: what a member has found is reported before anything that its markers lead to, even
if a marker stands in front. This can only happen where some of what goes on from a node leads out of
it while the rest does not. All of it does the same as long as behind each descendant segment, which
goes on from nodes of different depths, no parent segment leads out of the node where it set in. -/

namespace LiveJson

variable {ι : Type}

namespace Segment

mutual

/-- Whether the segment goes on from members of a node only. -/
def enters : Segment → Bool
  | .name _ | .wildcard | .slice .. | .filter .. | .computed .. => true
  | .union items => entersAll items
  | _ => false
termination_by structural s => s

def entersAll : List Segment → Bool
  | [] => true
  | s :: ss => s.enters && entersAll ss
termination_by structural ss => ss

end

/-- Whether the segment goes on from nodes of different depths: a descendant segment, or a union that
mixes members with what is found at the node itself. -/
def spreads : Segment → Bool
  | .descendant => true
  | .union items => !entersAll items
  | _ => false

/-- How many levels below a node, from `depth` levels below it, the segment goes on at least. -/
def depthBehind (depth : Nat) (s : Segment) : Nat := if s.enters then depth + 1 else depth

/-- The segments that are left where a path first leads out of a node, when it sets in `depth` levels
below that node. -/
def leaving? (depth : Nat) : List Segment → Option (List Segment)
  | [] => none
  | .parent :: rest =>
    match depth with
    | 0 => some rest
    | depth + 1 => leaving? depth rest
  | .propertyName :: _ | .test _ :: _ => none
  | s :: rest => leaving? (s.depthBehind depth) rest

/-- Behind each segment that goes on from nodes of different depths, the path does not lead out of the
node where that segment sets in. -/
def inOrder : List Segment → Bool
  | [] | .propertyName :: _ | .test _ :: _ => true
  | s :: rest => (!s.spreads || (leaving? 0 rest).isNone) && inOrder rest

theorem depthBehind_succ (s : Segment) (depth : Nat) :
    s.depthBehind (depth + 1) = s.depthBehind depth + 1 := by
  unfold depthBehind
  split <;> rfl

/-- One level further down, a path leads out once more. -/
theorem leaving?_succ (depth : Nat) (segments : List Segment) :
    leaving? (depth + 1) segments = (leaving? depth segments).bind (leaving? 0) := by
  induction segments generalizing depth with
  | nil => rfl
  | cons s rest ih =>
    have hrest : leaving? (s.depthBehind (depth + 1)) rest =
        (leaving? (s.depthBehind depth) rest).bind (leaving? 0) := by
      rw [depthBehind_succ]
      exact ih _
    cases s with
    | parent =>
      cases depth with
      | zero => rfl
      | succ depth => exact ih depth
    | propertyName => rfl
    | test type => rfl
    | _ => exact hrest

theorem leaving?_cons_of_enters {s : Segment} (h : s.enters = true) (depth : Nat)
    (rest : List Segment) : leaving? depth (s :: rest) = leaving? (depth + 1) rest := by
  cases s with
  | root | descendant | parent | propertyName | test => cases h
  | _ => exact congrArg (leaving? · rest) (if_pos h)

theorem inOrder_union (items rest : List Segment) : inOrder (.union items :: rest) =
    ((entersAll items || (leaving? 0 rest).isNone) && inOrder rest) := by
  show ((!(!entersAll items) || _) && _) = _
  rw [Bool.not_not]

theorem inOrder_cons_of_enters {s : Segment} (h : s.enters = true) (rest : List Segment) :
    inOrder (s :: rest) = inOrder rest := by
  cases s with
  | root | descendant | parent | propertyName | test => cases h
  | union items =>
    have hitems : entersAll items = true := h
    rw [inOrder_union, hitems, Bool.true_or, Bool.true_and]
  | _ => rfl

theorem inOrder_of_leaving? {depth : Nat} {segments rest : List Segment}
    (h : leaving? depth segments = some rest) (horder : inOrder segments = true) :
    inOrder rest = true := by
  induction segments generalizing depth with
  | nil => cases h
  | cons s segments ih =>
    cases s with
    | propertyName => cases h
    | test type => cases h
    | parent =>
      have hsegments : inOrder segments = true := horder
      cases depth with
      | zero =>
        cases h
        exact hsegments
      | succ depth => exact ih h hsegments
    | _ => exact ih h (Bool.and_eq_true_iff.mp horder).2

end Segment

open Segment (leaving? inOrder)

/-! ## Runs -/

theorem Run.bind_eq_mk {ω α β : Type} {run : Run ω α} {next : α → Run ω β} {reports : List ω} {b : β} :
    run >>= next = ⟨reports, .ok b⟩ ↔ ∃ here a later,
      run = ⟨here, .ok a⟩ ∧ next a = ⟨later, .ok b⟩ ∧ here ++ later = reports := by
  obtain ⟨here, outcome⟩ := run
  cases outcome with
  | error e =>
    constructor
    · intro h
      cases h
    · rintro ⟨_, a, _, h, -⟩
      cases h
  | ok a =>
    constructor
    · intro h
      have h' : Run.mk (here ++ (next a).reports) (next a).outcome = ⟨reports, .ok b⟩ := h
      obtain ⟨hreports, houtcome⟩ := Run.mk.inj h'
      exact ⟨here, a, (next a).reports, rfl, congrArg (Run.mk _) houtcome, hreports⟩
    · rintro ⟨_, _, later, h, hnext, rfl⟩
      cases h
      show Run.mk (here ++ (next a).reports) (next a).outcome = _
      rw [hnext]

namespace Trail

/-- The matches among what a trace hands back. -/
def results (trail : Trail ι) : List (Match ι) :=
  trail.filterMap fun traced =>
    match traced with
    | .found m => some m
    | .up .. => none

/-- All of the trail does the same: it consists of the matches that have been reported, or, where the
path leads out, of markers that have the same segments left. -/
def Alike (out? : Option (List Segment)) (reports : List (Match ι)) (trail : Trail ι) : Prop :=
  match out? with
  | none => trail = reports.map .found
  | some rest => reports = [] ∧ ∀ traced ∈ trail, ∃ path, traced = .up path rest

/-- If the run comes to a trail, each match of it has been reported once; and, if `sure`, the trail does
the same throughout. -/
structure Accounts (sure : Prop) (out? : Option (List Segment)) (run : Run (Match ι) (Trail ι)) :
    Prop where
  perm : ∀ {reports trail}, run = ⟨reports, .ok trail⟩ → (results trail).Perm reports
  alike : sure → ∀ {reports trail}, run = ⟨reports, .ok trail⟩ → Alike out? reports trail

variable {sure sure' : Prop} {out? out?' : Option (List Segment)} {run run' : Run (Match ι) (Trail ι)}

theorem results_append (trail trail' : Trail ι) :
    results (trail ++ trail') = results trail ++ results trail' := List.filterMap_append

theorem results_found (ms : List (Match ι)) : results (ms.map .found) = ms := by
  rw [results, List.filterMap_map]
  exact List.filterMap_some

theorem results_eq_nil {trail : Trail ι} {rest : List Segment}
    (h : ∀ traced ∈ trail, ∃ path, traced = .up path rest) : results trail = [] :=
  List.filterMap_eq_nil_iff.mpr fun traced hm => by
    obtain ⟨path, rfl⟩ := h traced hm
    rfl

theorem alike_nil (out? : Option (List Segment)) : Alike out? ([] : List (Match ι)) [] := by
  cases out? with
  | none => rfl
  | some rest => exact ⟨rfl, fun _ h => absurd h List.not_mem_nil⟩

theorem Alike.append {reports reports' : List (Match ι)} {trail trail' : Trail ι}
    (h : Alike out? reports trail) (h' : Alike out? reports' trail') :
    Alike out? (reports ++ reports') (trail ++ trail') := by
  cases out? with
  | none =>
    rw [Alike] at h h' ⊢
    rw [h, h', List.map_append]
  | some rest =>
    obtain ⟨rfl, hfirst⟩ := h
    obtain ⟨rfl, hsecond⟩ := h'
    exact ⟨rfl, fun traced hm => (List.mem_append.mp hm).elim (hfirst traced) (hsecond traced)⟩

/-- Where a path stays, it stays one level further down as well. -/
theorem bind_leaving? (h : sure → out? = none) (hsure : sure) : out?.bind (leaving? 0) = out? := by
  rw [h hsure]
  rfl

theorem accounts_nil : Accounts sure out? (pure [] : Run (Match ι) (Trail ι)) where
  perm h := by
    cases h
    exact .nil
  alike _ _ _ h := by
    cases h
    exact alike_nil out?

theorem accounts_error (e : PathError) :
    Accounts sure out? (Run.ofExcept (.error e) : Run (Match ι) (Trail ι)) where
  perm h := by cases h
  alike _ _ _ h := by cases h

theorem accounts_emit (m : Match ι) (h : sure → out? = none) : Accounts sure out? (emit m) where
  perm hrun := by
    cases hrun
    exact .refl _
  alike hsure _ _ hrun := by
    cases hrun
    rw [h hsure]
    rfl

theorem accounts_up (path : Path) (rest : List Segment) :
    Accounts sure (some rest) (pure [.up path rest] : Run (Match ι) (Trail ι)) where
  perm h := by
    cases h
    exact .nil
  alike _ _ _ h := by
    cases h
    exact ⟨rfl, fun traced hm => ⟨path, List.mem_singleton.mp hm⟩⟩

theorem Accounts.mono (h : Accounts sure out? run) (hsure : sure' → sure) :
    Accounts sure' out? run := ⟨h.perm, fun hs => h.alike (hsure hs)⟩

theorem Accounts.congr (h : Accounts sure out? run) (hout : sure → out? = out?') :
    Accounts sure out?' run := ⟨h.perm, fun hsure => hout hsure ▸ h.alike hsure⟩

theorem append_eq_mk {reports : List (Match ι)} {trail : Trail ι} :
    (do let here ← run; let out ← run'; return here ++ out) = ⟨reports, .ok trail⟩ ↔
      ∃ first here later out, run = ⟨first, .ok here⟩ ∧ run' = ⟨later, .ok out⟩ ∧
        first ++ later = reports ∧ here ++ out = trail := by
  constructor
  · intro h
    obtain ⟨first, here, rest, hhere, hrest, rfl⟩ := Run.bind_eq_mk.mp h
    obtain ⟨later, out, last, hout, hlast, rfl⟩ := Run.bind_eq_mk.mp hrest
    cases hlast
    exact ⟨first, here, later, out, hhere, hout, by rw [List.append_nil], rfl⟩
  · rintro ⟨first, here, later, out, rfl, rfl, rfl, rfl⟩
    refine Run.bind_eq_mk.mpr ⟨first, here, later, rfl, ?_, rfl⟩
    exact Run.bind_eq_mk.mpr ⟨later, out, [], rfl, rfl, List.append_nil later⟩

theorem Accounts.append (h : Accounts sure out? run) (h' : Accounts sure out? run') :
    Accounts sure out? (do let here ← run; let out ← run'; return here ++ out) where
  perm hrun := by
    obtain ⟨first, here, later, out, hhere, hout, rfl, rfl⟩ := append_eq_mk.mp hrun
    rw [results_append]
    exact (h.perm hhere).append (h'.perm hout)
  alike hsure _ _ hrun := by
    obtain ⟨first, here, later, out, hhere, hout, rfl, rfl⟩ := append_eq_mk.mp hrun
    exact (h.alike hsure hhere).append (h'.alike hsure hout)

theorem accounts_bind {α : Type} (x : Except PathError α) {next : α → Run (Match ι) (Trail ι)}
    (h : ∀ a, Accounts sure out? (next a)) : Accounts sure out? (Run.ofExcept x >>= next) := by
  cases x with
  | error e => exact accounts_error e
  | ok a => exact h a

/-! ## Members -/

section
variable {go : Go ι} {resume : Resume ι} (frame : Frame ι)

theorem perm_resumeAll (hresume : ∀ rest frame {reports out},
      resume rest frame = ⟨reports, .ok out⟩ → (results out).Perm reports) :
    ∀ (trail : Trail ι) {reports : List (Match ι)} {out : Trail ι},
      resumeAll resume frame trail = ⟨reports, .ok out⟩ →
        (results out).Perm (results trail ++ reports)
  | [], _, _, h => by
    cases h
    exact .nil
  | .found m :: trail, _, _, h => by
    obtain ⟨reports, out, more, hout, hmore, rfl⟩ := Run.bind_eq_mk.mp h
    cases hmore
    rw [List.append_nil]
    exact (perm_resumeAll hresume trail hout).cons m
  | .up path rest :: trail, _, _, h => by
    obtain ⟨first, here, later, out, hhere, hout, rfl, rfl⟩ := append_eq_mk.mp h
    rw [results_append]
    have hperm := (hresume rest _ hhere).append (perm_resumeAll hresume trail hout)
    exact hperm.trans (List.perm_append_comm_assoc ..)

theorem accounts_resumeAll {rest : List Segment}
    (hresume : ∀ frame, Accounts sure out? (resume rest frame)) : ∀ trail : Trail ι,
      (∀ traced ∈ trail, ∃ path, traced = .up path rest) →
      Accounts sure out? (resumeAll resume frame trail)
  | [], _ => accounts_nil
  | traced :: trail, h => by
    obtain ⟨⟨path, rfl⟩, htrail⟩ := List.forall_mem_cons.mp h
    exact (hresume _).append (accounts_resumeAll hresume trail htrail)

variable (hresume : ∀ rest frame,
  Accounts (sure ∧ out? = some rest) (leaving? 0 rest) (resume rest frame))
include hresume

/-- What a member has come to goes on in its container. -/
theorem Accounts.resumed (h : Accounts sure out? run) :
    Accounts sure (out?.bind (leaving? 0)) (do let out ← run; resumeAll resume frame out) where
  perm hrun := by
    obtain ⟨reports, trail, more, htrail, hout, rfl⟩ := Run.bind_eq_mk.mp hrun
    have hperm := perm_resumeAll frame (fun rest frame => (hresume rest frame).perm) trail hout
    exact hperm.trans ((h.perm htrail).append_right more)
  alike hsure _ _ hrun := by
    obtain ⟨reports, trail, more, htrail, hout, rfl⟩ := Run.bind_eq_mk.mp hrun
    have halike := h.alike hsure htrail
    cases out? with
    | none =>
      rw [Alike] at halike
      rw [halike, resumeAll_found] at hout
      cases hout
      exact congrArg _ (List.append_nil reports).symm
    | some rest =>
      obtain ⟨rfl, hup⟩ := halike
      exact (accounts_resumeAll frame (hresume rest) trail hup).alike ⟨hsure, rfl⟩ hout

variable (hgo : ∀ frame, Accounts sure out? (go frame))
include hgo

theorem accounts_visit (key : Key) (child : Tree ι) :
    Accounts sure (out?.bind (leaving? 0)) (visit go resume frame key child) :=
  (hgo (frame.enter key child)).resumed frame hresume

theorem accounts_visitAll : ∀ entries : List (Key × Tree ι),
    Accounts sure (out?.bind (leaving? 0)) (visitAll go resume frame entries)
  | [] => accounts_nil
  | (key, child) :: entries =>
    (accounts_visit frame hresume hgo key child).append (accounts_visitAll entries)

end

/-! ## One segment -/

mutual

theorem accounts_below {go : Go ι} {resume : Resume ι}
    (hresume : ∀ rest frame, Accounts (sure ∧ out? = some rest) (leaving? 0 rest) (resume rest frame))
    (hgo : ∀ frame, Accounts sure out? (go frame)) (hstay : sure → out? = none) (path : Path)
    (parent : Option (Tree ι)) (key : Option Key) : ∀ t : Tree ι,
      Accounts sure out? (below go resume path parent key t)
  | .leaf _ => hgo _
  | .array _ items => (hgo _).append (accounts_belowItems hresume hgo hstay _ 0 items)
  | .object _ members => (hgo _).append (accounts_belowMembers hresume hgo hstay _ members)

theorem accounts_belowItems {go : Go ι} {resume : Resume ι}
    (hresume : ∀ rest frame, Accounts (sure ∧ out? = some rest) (leaving? 0 rest) (resume rest frame))
    (hgo : ∀ frame, Accounts sure out? (go frame)) (hstay : sure → out? = none) (frame : Frame ι)
    (start : Nat) : ∀ items : List (Tree ι),
      Accounts sure out? (belowItems go resume frame start items)
  | [] => accounts_nil
  | t :: ts => by
    have rest := accounts_belowItems hresume hgo hstay frame (start + 1) ts
    rw [belowItems]
    split
    · have here := accounts_below hresume hgo hstay (frame.path ++ [.index start])
        (some frame.value) (some (.index start)) t
      rw [← Run.bind_assoc]
      exact ((here.resumed frame hresume).congr (bind_leaving? hstay)).append rest
    · exact accounts_nil.append rest

theorem accounts_belowMembers {go : Go ι} {resume : Resume ι}
    (hresume : ∀ rest frame, Accounts (sure ∧ out? = some rest) (leaving? 0 rest) (resume rest frame))
    (hgo : ∀ frame, Accounts sure out? (go frame)) (hstay : sure → out? = none) (frame : Frame ι) :
    ∀ members : List (String × Tree ι),
      Accounts sure out? (belowMembers go resume frame members)
  | [] => accounts_nil
  | (name, t) :: more => by
    have rest := accounts_belowMembers hresume hgo hstay frame more
    rw [belowMembers]
    split
    · have here := accounts_below hresume hgo hstay (frame.path ++ [.name name]) (some frame.value)
        (some (.name name)) t
      rw [← Run.bind_assoc]
      exact ((here.resumed frame hresume).congr (bind_leaving? hstay)).append rest
    · exact accounts_nil.append rest

end

end Trail

namespace Tracer

open Trail

variable [DecidableEq ι] (tracer : Tracer ι) {sure : Prop} {out? : Option (List Segment)}

theorem accounts_visitIf {go : Go ι} {resume : Resume ι} (frame : Frame ι)
    (hresume : ∀ rest frame, Accounts (sure ∧ out? = some rest) (leaving? 0 rest) (resume rest frame))
    (hgo : ∀ frame, Accounts sure out? (go frame)) (condition : Expr) (source : String) :
    ∀ entries : List (Key × Tree ι), Accounts sure (out?.bind (leaving? 0))
      (visitIf tracer go resume frame condition source entries)
  | [] => accounts_nil
  | (key, child) :: entries => by
    have rest := accounts_visitIf frame hresume hgo condition source entries
    refine accounts_bind _ fun verdict => ?_
    dsimp only
    split
    · exact (accounts_visit frame hresume hgo key child).append rest
    · exact accounts_nil.append rest

theorem accounts_test {go : Go ι} {resume : Resume ι} (frame : Frame ι) (type : TypeTest)
    (h : sure → out? = none) : Accounts sure out? (step tracer go resume frame (.test type)) := by
  rw [step]
  refine accounts_bind _ fun passed => ?_
  split
  · exact accounts_emit _ h
  · exact accounts_nil

mutual

theorem accounts_step {go : Go ι} {resume : Resume ι} (frame : Frame ι)
    (hresume : ∀ rest frame, Accounts (sure ∧ out? = some rest) (leaving? 0 rest) (resume rest frame))
    (hgo : ∀ frame, Accounts sure out? (go frame)) : ∀ segment : Segment,
      (sure → segment.enters = true ∨ out? = none) →
      Accounts sure (out?.bind (leaving? 0)) (step tracer go resume frame segment)
  | .root, h => (hgo _).congr fun hsure => by
    rw [(h hsure).resolve_left Bool.false_ne_true]
    rfl
  | .name _, _ => accounts_visitAll frame hresume hgo _
  | .wildcard, _ => accounts_visitAll frame hresume hgo _
  | .slice start stop every, _ => by
    rw [step]
    split
    · exact accounts_nil
    · exact accounts_visitAll frame hresume hgo _
  | .union items, h => accounts_stepAll frame hresume hgo items h
  | .filter condition source span, _ => by
    rw [step]
    split
    · exact accounts_error _
    · exact accounts_visitIf tracer frame hresume hgo condition source _
  | .computed key source span, _ => by
    rw [step]
    split
    · exact accounts_error _
    · exact accounts_bind _ fun v => accounts_visitAll frame hresume hgo _
  | .propertyName, h => accounts_emit _ fun hsure => by
    rw [(h hsure).resolve_left Bool.false_ne_true]
    rfl
  | .test type, h => accounts_test tracer frame type fun hsure => by
    rw [(h hsure).resolve_left Bool.false_ne_true]
    rfl
  | .descendant, _ => accounts_nil
  | .parent, _ => accounts_nil

theorem accounts_stepAll {go : Go ι} {resume : Resume ι} (frame : Frame ι)
    (hresume : ∀ rest frame, Accounts (sure ∧ out? = some rest) (leaving? 0 rest) (resume rest frame))
    (hgo : ∀ frame, Accounts sure out? (go frame)) : ∀ segments : List Segment,
      (sure → Segment.entersAll segments = true ∨ out? = none) →
      Accounts sure (out?.bind (leaving? 0)) (stepAll tracer go resume frame segments)
  | [], _ => accounts_nil
  | segment :: rest, h =>
    (accounts_step frame hresume hgo segment fun hsure =>
      (h hsure).imp_left fun hall => (Bool.and_eq_true_iff.mp hall).1).append
    (accounts_stepAll frame hresume hgo rest fun hsure =>
      (h hsure).imp_left fun hall => (Bool.and_eq_true_iff.mp hall).2)

end

/-! ## Whole traces -/

theorem accounts_traceFrame : ∀ (fuel : Nat) (segments : List Segment) (frame : Frame ι),
    Accounts (inOrder segments = true) (leaving? 0 segments) (traceFrame tracer fuel segments frame)
  | fuel, [], frame => by
    have hemit : Accounts (inOrder [] = true) none (emit frame.nodeMatch) :=
      accounts_emit _ fun _ => rfl
    cases fuel <;> exact hemit
  | 0, _ :: _, _ => accounts_nil
  | fuel + 1, segment :: rest, frame => by
    -- A marker that comes back from behind the segment has segments left for which the same holds.
    have hresume {sure : Prop} (hsure : sure → inOrder rest = true) (rest' : List Segment)
        (frame : Frame ι) : Accounts (sure ∧ leaving? 0 rest = some rest') (leaving? 0 rest')
          (traceFrame tracer fuel rest' frame) :=
      (accounts_traceFrame fuel rest' frame).mono fun h =>
        Segment.inOrder_of_leaving? h.2 (hsure h.1)
    have hgo := accounts_traceFrame fuel rest
    have hentered (henters : segment.enters = true) :
        Accounts (inOrder (segment :: rest) = true) (leaving? 0 (segment :: rest))
          (step tracer (traceFrame tracer fuel rest) (traceFrame tracer fuel) frame segment) := by
      rw [Segment.inOrder_cons_of_enters henters, Segment.leaving?_cons_of_enters henters,
        Segment.leaving?_succ]
      exact accounts_step tracer frame (hresume id) hgo segment fun _ => .inl henters
    rw [traceFrame.eq_def]
    cases segment with
    | parent =>
      dsimp only
      split
      · exact accounts_nil
      · exact accounts_up ..
    | descendant =>
      have hrest (h : inOrder (.descendant :: rest) = true) := (Bool.and_eq_true_iff.mp h).2
      exact accounts_below (hresume hrest) (fun frame => (hgo frame).mono hrest)
        (fun h => Option.isNone_iff_eq_none.mp (Bool.and_eq_true_iff.mp h).1) _ _ _ _
    | union items =>
      by_cases henters : Segment.entersAll items = true
      · exact hentered henters
      · have hleaving : leaving? 0 (.union items :: rest) = leaving? 0 rest :=
          congrArg (leaving? · rest) (if_neg henters)
        rw [Segment.inOrder_union, Bool.eq_false_iff.mpr henters, Bool.false_or, hleaving,
          Bool.and_eq_true_iff]
        have hstay (h : (leaving? 0 rest).isNone = true ∧ inOrder rest = true) :=
          Option.isNone_iff_eq_none.mp h.1
        exact (accounts_step tracer frame (hresume And.right)
          (fun frame => (hgo frame).mono And.right) _ fun h => .inr (hstay h)).congr
          (bind_leaving? hstay)
    | root => exact (hgo _).mono fun h => (Bool.and_eq_true_iff.mp h).2
    | propertyName => exact accounts_emit _ fun _ => rfl
    | test type => exact accounts_test tracer frame type fun _ => rfl
    | name text => exact hentered rfl
    | wildcard => exact hentered rfl
    | slice start stop every => exact hentered rfl
    | filter condition source span => exact hentered rfl
    | computed key source span => exact hentered rfl

/-- Whenever a trace comes to a result, its reports are the matches in the result, each once, and in
the same order if nothing leads out of the node where a segment sets in that spreads. A query reports
what its trace reports, and its result is made of the matches in the order of the trace. -/
theorem reports_of_trace (segments : List Segment) (root : Tree ι) (parent : Option (Tree ι))
    (key : Option Key) {reports ms : List (Match ι)}
    (h : tracer.trace segments root parent key = ⟨reports, .ok ms⟩) :
    reports.Perm ms ∧ (inOrder segments = true → reports = ms) ∧
      ∀ (query : Query ι) (path : QueryPath), query.tracer = tracer →
        query.options.path = some path → Segment.read path.toExpression = .ok segments →
        query.document = some root → query.parent = parent → query.parentKey = key →
        query.evaluate = ⟨reports, .ok (Result.ofMatches query.options.resultType
          query.options.wrap query.options.flatten ms)⟩ := by
  have haccounts := tracer.accounts_traceFrame segments.length segments ⟨root, [], parent, key⟩
  obtain ⟨here, trail, later, hframe, hlast, rfl⟩ := Run.bind_eq_mk.mp h
  cases hlast
  refine ⟨?_, fun horder => ?_, fun query path htracer hpath hread hroot hparent hkey => ?_⟩
  · rw [List.append_nil]
    exact (haccounts.perm hframe).symm
  · have halike := haccounts.alike horder hframe
    cases hleaving : leaving? 0 segments with
    | none =>
      rw [hleaving, Alike] at halike
      rw [halike, List.append_nil]
      exact (results_found here).symm
    | some rest =>
      rw [hleaving] at halike
      obtain ⟨rfl, hup⟩ := halike
      exact (results_eq_nil hup).symm
  · subst htracer hparent hkey
    rw [Query.evaluate, hpath, hroot]
    show (Run.ofExcept (Segment.read path.toExpression) >>= _) = _
    rw [hread]
    exact Run.bind_eq_mk.mpr ⟨[], segments, _, rfl,
      Run.bind_eq_mk.mpr ⟨_, _, [], h, rfl, List.append_nil _⟩, List.nil_append _⟩

end Tracer

/-- Two objects, one inside the other, and a third in that. -/
def nestedObjects : Tree Spot := Tree.ofJson 0 [] (.object [("a", .object [("b", .object [])])])

/-- Asks for the container of each member. -/
def turningBack : Query Spot where
  options := { path := some (.expression "$..*^"), resultType := .path }
  document := some nestedObjects

theorem reports_of_turning_back : ∃ reports ms : List (Match Spot),
    turningBack.evaluate = ⟨reports, .ok (Result.ofMatches .path true false ms)⟩ ∧
    reports = ms ∧ ms.map Match.path = [[], [.name "a"]] := by
  have htrace : turningBack.tracer.trace [.descendant, .wildcard, .parent] nestedObjects none none =
      ⟨[_, _], .ok [_, _]⟩ := rfl
  obtain ⟨-, horder, hquery⟩ := Tracer.reports_of_trace _ _ _ _ _ htrace
  exact ⟨_, _, hquery turningBack (.expression "$..*^") rfl rfl rfl rfl rfl rfl,
    horder (by decide), rfl⟩

/-- Behind a descendant segment alone, a parent segment at the member of a member is done before the
marker of the member: the member is reported before the root, which precedes it in the result. -/
theorem member_reported_first : Segment.read "$..^" = .ok [.descendant, .parent] ∧
    ∃ root member : Match Spot, root.path = [] ∧ member.path = [.name "a"] ∧
      ({} : Tracer Spot).trace [.descendant, .parent] nestedObjects none none =
        ⟨[member, root], .ok [root, member]⟩ ∧ [member, root] ≠ [root, member] := by
  refine ⟨rfl, _, _, rfl, rfl, rfl, fun h => ?_⟩
  cases congrArg (List.map Match.path) h

end LiveJson

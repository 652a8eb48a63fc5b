import LiveJson.Proofs.Match.Nodes
import LiveJson.Proofs.Path.Read
import LiveJson.Store.Select

/-! # Paths that cannot fail

A path of names and wildcards evaluates nothing and never turns back, so tracing it comes to a
result in every tree. Canonical paths are of this kind. -/

namespace LiveJson

variable {ι : Type}

/-- The segments that go on to members, or stay, without a condition. -/
def Segment.Plain : Segment → Prop
  | .root | .name _ | .wildcard => True
  | _ => False

theorem Key.plain_segment (key : Key) : key.segment.Plain := by
  unfold segment
  split <;> trivial

namespace Trail

/-- The run comes to matches, and nothing is on its way up. -/
def Settles (run : Run (Match ι) (Trail ι)) : Prop :=
  ∃ ms : List (Match ι), run.outcome = .ok (ms.map .found)

theorem settles_nil : Settles (pure [] : Run (Match ι) (Trail ι)) := ⟨[], rfl⟩

theorem Settles.append {run run' : Run (Match ι) (Trail ι)} (h : Settles run) (h' : Settles run') :
    Settles (do let here ← run; let out ← run'; return here ++ out) := by
  obtain ⟨ms, hms⟩ := h
  obtain ⟨ms', hms'⟩ := h'
  refine ⟨ms ++ ms', ?_⟩
  simp only [Run.outcome_bind, hms, hms', Except.bind, Run.outcome_pure, List.map_append]

/-- Where only matches come back there is nothing to resume. -/
theorem resumeAll_found (resume : Resume ι) (frame : Frame ι) (ms : List (Match ι)) :
    resumeAll resume frame (ms.map .found) = pure (ms.map .found) := by
  induction ms with
  | nil => rfl
  | cons m ms ih =>
    rw [List.map_cons, resumeAll, ih]
    rfl

theorem settles_visitAll {go : Go ι} (hgo : ∀ frame, Settles (go frame)) (resume : Resume ι)
    (frame : Frame ι) (entries : List (Key × Tree ι)) :
    Settles (visitAll go resume frame entries) := by
  induction entries with
  | nil => exact settles_nil
  | cons entry entries ih =>
    have hvisit : Settles (visit go resume frame entry.1 entry.2) := by
      obtain ⟨ms, hms⟩ := hgo (frame.enter entry.1 entry.2)
      refine ⟨ms, ?_⟩
      rw [visit, Run.outcome_bind, hms]
      exact congrArg Run.outcome (resumeAll_found resume frame ms)
    exact hvisit.append ih

end Trail

namespace Tracer

open Trail

variable [DecidableEq ι] (tracer : Tracer ι)

theorem settles_traceFrame : ∀ (fuel : Nat) (segments : List Segment),
    (∀ s ∈ segments, s.Plain) → ∀ frame : Frame ι, Settles (traceFrame tracer fuel segments frame)
  | fuel, [], _, frame => by
    cases fuel <;> exact ⟨[frame.nodeMatch], rfl⟩
  | 0, _ :: _, _, _ => settles_nil
  | fuel + 1, segment :: rest, h, frame => by
    have hrest := settles_traceFrame fuel rest fun s hs => h s (List.mem_cons_of_mem segment hs)
    have hplain := h segment List.mem_cons_self
    cases segment with
    | root => exact hrest { frame with parent := none, key := none }
    | name text => exact settles_visitAll hrest _ _ _
    | wildcard => exact settles_visitAll hrest _ _ _
    | _ => exact hplain.elim

theorem trace_plain {segments : List Segment} (h : ∀ s ∈ segments, s.Plain) (root : Tree ι) :
    ∃ ms, (tracer.trace segments root none none).outcome = .ok ms := by
  obtain ⟨ms, hms⟩ := tracer.settles_traceFrame segments.length segments h ⟨root, [], none, none⟩
  unfold trace
  rw [Run.outcome_bind, hms]
  exact ⟨_, rfl⟩

end Tracer

/-- A canonical path is traced to the end in every tree. -/
theorem Tree.search_toText [DecidableEq ι] (p : Path) (t : Tree ι) :
    ∃ ms, t.search p.toText = .ok ms := by
  have hread : ∃ segments, Segment.read p.toText = .ok segments ∧ ∀ s ∈ segments, s.Plain := by
    by_cases hp : p = []
    · refine ⟨[.root], by rw [hp]; exact Segment.read_root, fun s hs => ?_⟩
      rw [List.mem_singleton.mp hs]
      trivial
    · refine ⟨_, Segment.read_toText hp, fun s hs => ?_⟩
      obtain ⟨key, -, rfl⟩ := List.mem_map.mp hs
      exact key.plain_segment
  obtain ⟨segments, hsegments, hplain⟩ := hread
  rw [Tree.search, hsegments]
  exact Tracer.trace_plain {} hplain t

/-- The root finds itself. -/
theorem Tree.search_root [DecidableEq ι] (t : Tree ι) :
    t.search "$" = .ok [⟨[], .node t, none, none⟩] := by
  rw [show "$" = Path.toText [] from rfl, Tree.search, Segment.read_root]
  rfl

namespace Store

theorem lookup_of_search {s : Store} {t : Tree CellId} {path : String}
    {ms : List (Match CellId)} (hroot : s.rootTree? = some t) (h : t.search path = .ok ms) :
    s.lookup path = .ok ((ms.map fun m => m.matched.toTree).head?.map slotOf) := by
  have hall : s.selectAll path none = .ok (ms.map fun m => m.matched.toTree) := by
    unfold selectAll
    rw [hroot]
    show (t.search path >>= _) = _
    rw [h]
    rfl
  rw [lookup, select, hall]
  rfl

/-- What a listened path holds can always be looked up. -/
theorem lookup_toText (s : Store) (p : Path) : ∃ slot, s.lookup p.toText = .ok slot := by
  cases hroot : s.rootTree? with
  | none => exact ⟨none, by simp [lookup, select, selectAll, findFrom, hroot, Except.map]⟩
  | some t =>
    obtain ⟨ms, hms⟩ := t.search_toText p
    exact ⟨_, lookup_of_search hroot hms⟩

theorem lookup_root {s : Store} {t : Tree CellId} (h : s.rootTree? = some t) :
    s.lookup "$" = .ok (some (slotOf t)) := lookup_of_search h t.search_root

theorem resolve_of_search {s : Store} {t : Tree CellId} {path : String}
    {ms : List (Match CellId)} (hroot : s.rootTree? = some t) (h : t.search path = .ok ms) :
    s.resolve path = .ok (ms.head?.map fun m => m.path.toText) := by
  unfold resolve
  rw [hroot]
  show (t.search path >>= _) = _
  rw [h]
  rfl

theorem resolve_root {s : Store} {t : Tree CellId} (h : s.rootTree? = some t) :
    s.resolve "$" = .ok (some "$") := resolve_of_search h t.search_root

end Store

end LiveJson

import LiveJson.Proofs.Match.Stack
import LiveJson.Proofs.Tree
import LiveJson.Query.Basic

/-! # Where matches come from

A match is made of the frame of some node. A walk enters members, goes back to containers that it has
come from, and at a root segment forgets the parent of a node; so whatever these steps keep, and holds
of the frame that a walk starts from, holds of the frame of every match. Without a root segment only
the first two count. In particular, a set of nodes that contains with every container its members
contains every match. -/

namespace LiveJson

variable {ι : Type} {P : Frame ι → Prop}

mutual

/-- Whether the segment is a root segment, or has one in it. -/
def Segment.anchors : Segment → Bool
  | .root => true
  | .union items => anchorsAny items
  | _ => false
termination_by structural s => s

def Segment.anchorsAny : List Segment → Bool
  | [] => false
  | s :: ss => s.anchors || anchorsAny ss
termination_by structural ss => ss

end

/-- Members have it too. -/
def Frame.PassedOn (P : Frame ι → Prop) : Prop :=
  ∀ {frame key child}, P frame → (key, child) ∈ frame.value.entries → P (frame.enter key child)

/-- Nodes whose parent is forgotten have it too. -/
def Frame.Anchored (P : Frame ι → Prop) : Prop :=
  ∀ {frame}, P frame → P { frame with parent := none, key := none }

/-- Members, and nodes whose parent is forgotten, have it too. -/
structure Frame.Inherited (P : Frame ι → Prop) : Prop where
  enter : ∀ {frame key child}, P frame → (key, child) ∈ frame.value.entries →
    P (frame.enter key child)
  anchor : ∀ {frame}, P frame → P { frame with parent := none, key := none }

/-- The match is made of such a frame. -/
def Match.From (P : Frame ι → Prop) (m : Match ι) : Prop :=
  ∃ frame, P frame ∧ (m = frame.nodeMatch ∨ m = frame.keyMatch)

def Stack.All (P : Frame ι → Prop) (stack : Stack ι) : Prop :=
  P stack.top ∧ ∀ frame ∈ stack.outer, P frame

theorem Stack.All.enter (hP : Frame.PassedOn P) {stack : Stack ι} (h : stack.All P) {key : Key}
    {child : Tree ι} (hm : (key, child) ∈ stack.top.value.entries) : (stack.enter key child).All P :=
  ⟨hP h.1 hm, List.forall_mem_cons.mpr h⟩

namespace Walk

/-- All matches of the result are made of such frames. -/
structure Yields (P : Frame ι → Prop) (result : Except PathError (List (Match ι))) : Prop where
  made : ∀ {ms m}, result = .ok ms → m ∈ ms → m.From P

/-- From a stack of such frames, only such matches are found. -/
def Keeps (P : Frame ι → Prop) (go : Walk ι) : Prop := ∀ stack, stack.All P → Yields P (go stack)

variable {result result' : Except PathError (List (Match ι))}

theorem yields_nil : Yields P (.ok []) := ⟨fun h hm => by cases h; cases hm⟩

theorem yields_singleton {m : Match ι} (h : m.From P) : Yields P (.ok [m]) :=
  ⟨fun ho hm => by cases ho; rw [List.mem_singleton.mp hm]; exact h⟩

theorem yields_bind {α : Type} {x : Except PathError α}
    {next : α → Except PathError (List (Match ι))} (h : ∀ a, Yields P (next a)) :
    Yields P (x >>= next) := by
  refine ⟨fun ho => ?_⟩
  obtain ⟨a, -, ho⟩ := bind_eq_ok.mp ho
  exact (h a).made ho

theorem Yields.append (h : Yields P result) (h' : Yields P result') :
    Yields P (do let here ← result; let out ← result'; return here ++ out) := by
  refine ⟨fun ho hm => ?_⟩
  obtain ⟨here, hhere, out, hout, rfl⟩ := Tracer.append_eq_ok.mp ho
  exact (List.mem_append.mp hm).elim (h.made hhere) (h'.made hout)

section
variable {go : Walk ι} (hgo : Keeps P go) (hP : Frame.PassedOn P) {stack : Stack ι}
  (hstack : stack.All P)
include hgo hP hstack

theorem yields_enterAll : ∀ {entries : List (Key × Tree ι)},
    (∀ e ∈ entries, e ∈ stack.top.value.entries) → Yields P (enterAll go stack entries)
  | [], _ => yields_nil
  | _ :: _, h =>
    (hgo _ (hstack.enter hP (h _ List.mem_cons_self))).append
      (yields_enterAll fun e he => h e (List.mem_cons_of_mem _ he))

end

mutual

theorem yields_descend {go : Walk ι} (hgo : Keeps P go) (hP : Frame.PassedOn P)
    {stack : Stack ι} (hstack : stack.All P) : ∀ t : Tree ι, stack.top.value = t →
      Yields P (descend go stack t)
  | .leaf _, _ => hgo stack hstack
  | .array _ items, ht =>
    (hgo stack hstack).append (yields_descendItems hgo hP hstack 0 items fun i child hi => by
      rw [ht, Tree.mem_entries_array]
      exact ⟨i, by rw [Nat.zero_add], hi⟩)
  | .object _ members, ht =>
    (hgo stack hstack).append (yields_descendMembers hgo hP hstack members fun name child hm => by
      rw [ht, Tree.mem_entries_object]
      exact ⟨name, rfl, hm⟩)

theorem yields_descendItems {go : Walk ι} (hgo : Keeps P go) (hP : Frame.PassedOn P)
    {stack : Stack ι} (hstack : stack.All P) (start : Nat) : ∀ items : List (Tree ι),
      (∀ (i : Nat) (t : Tree ι), items[i]? = some t →
        (.index (start + i), t) ∈ stack.top.value.entries) →
      Yields P (descendItems go stack start items)
  | [], _ => yields_nil
  | t :: ts, h => by
    have rest := yields_descendItems hgo hP hstack (start + 1) ts fun i t hi => by
      rw [Nat.add_assoc, Nat.add_comm 1 i]
      exact h (i + 1) t hi
    rw [descendItems]
    split
    · exact (yields_descend hgo hP (hstack.enter hP (h 0 t rfl)) t rfl).append rest
    · exact Yields.append yields_nil rest

theorem yields_descendMembers {go : Walk ι} (hgo : Keeps P go) (hP : Frame.PassedOn P)
    {stack : Stack ι} (hstack : stack.All P) : ∀ members : List (String × Tree ι),
      (∀ name t, (name, t) ∈ members → (.name name, t) ∈ stack.top.value.entries) →
      Yields P (descendMembers go stack members)
  | [], _ => yields_nil
  | (name, t) :: more, h => by
    have rest := yields_descendMembers hgo hP hstack more fun name t hm =>
      h name t (List.mem_cons_of_mem _ hm)
    rw [descendMembers]
    split
    · exact (yields_descend hgo hP (hstack.enter hP (h name t List.mem_cons_self)) t rfl).append rest
    · exact Yields.append yields_nil rest

end

end Walk

namespace Tracer

open Walk

variable [DecidableEq ι] (tracer : Tracer ι)

section
variable {go : Walk ι} (hgo : Keeps P go) (hP : Frame.PassedOn P) {stack : Stack ι}
  (hstack : stack.All P)
include hgo hP hstack

theorem yields_enterIf (condition : Expr) (source : String) : ∀ {entries : List (Key × Tree ι)},
    (∀ e ∈ entries, e ∈ stack.top.value.entries) →
      Yields P (tracer.enterIf go stack condition source entries)
  | [], _ => yields_nil
  | entry :: entries, h => by
    have rest := yields_enterIf condition source fun e he => h e (List.mem_cons_of_mem entry he)
    refine yields_bind fun verdict => ?_
    dsimp only
    split
    · exact (hgo _ (hstack.enter hP (h _ List.mem_cons_self))).append rest
    · exact Yields.append yields_nil rest

omit [DecidableEq ι] in
theorem yields_member (name : String) :
    Yields P (enterAll go stack (stack.top.value.get? name).toList) :=
  yields_enterAll hgo hP hstack fun _ he => Tree.mem_entries_of_get? (Option.mem_toList.mp he)

end

mutual

theorem yields_stepOn {go : Walk ι} (hgo : Keeps P go) (hP : Frame.PassedOn P) {stack : Stack ι}
    (hstack : stack.All P) : ∀ segment : Segment, (segment.anchors = true → Frame.Anchored P) →
      Yields P (tracer.stepOn go stack segment)
  | .root, hanchor => hgo _ ⟨hanchor rfl hstack.1, hstack.2⟩
  | .name text, _ => yields_member hgo hP hstack text
  | .wildcard, _ => yields_enterAll hgo hP hstack fun _ he => he
  | .slice start stop every, _ => by
    rw [stepOn]
    split
    · exact yields_nil
    · next len hlen =>
      refine yields_enterAll hgo hP hstack fun e he => ?_
      obtain ⟨i, -, hi⟩ := List.mem_filterMap.mp he
      obtain ⟨child, hchild, rfl⟩ := Option.map_eq_some_iff.mp hi
      exact Tree.mem_entries_of_at? (by rw [hlen]; rfl) hchild
  | .union items, hanchor => yields_stepOnAll hgo hP hstack items hanchor
  | .filter condition source span, _ => by
    rw [stepOn]
    split
    · exact ⟨fun h => by cases h⟩
    · exact yields_enterIf tracer hgo hP hstack condition source fun _ he => he
  | .computed key source span, _ => by
    rw [stepOn]
    split
    · exact ⟨fun h => by cases h⟩
    · exact yields_bind fun v => yields_member hgo hP hstack v.toText
  | .propertyName, _ => yields_singleton ⟨stack.top, hstack.1, .inr rfl⟩
  | .test type, _ => by
    refine yields_bind fun passed => ?_
    split
    · exact yields_singleton ⟨stack.top, hstack.1, .inl rfl⟩
    · exact yields_nil
  | .descendant, _ => yields_nil
  | .parent, _ => yields_nil

theorem yields_stepOnAll {go : Walk ι} (hgo : Keeps P go) (hP : Frame.PassedOn P)
    {stack : Stack ι} (hstack : stack.All P) : ∀ segments : List Segment,
      (Segment.anchorsAny segments = true → Frame.Anchored P) →
      Yields P (tracer.stepOnAll go stack segments)
  | [], _ => yields_nil
  | segment :: rest, hanchor =>
    (yields_stepOn hgo hP hstack segment fun h => hanchor (Bool.or_eq_true_iff.mpr (.inl h))).append
      (yields_stepOnAll hgo hP hstack rest fun h => hanchor (Bool.or_eq_true_iff.mpr (.inr h)))

end

theorem keeps_walk (hP : Frame.PassedOn P) : ∀ segments : List Segment,
    (Segment.anchorsAny segments = true → Frame.Anchored P) → Keeps P (tracer.walk segments)
  | [], _, stack, hstack => yields_singleton ⟨stack.top, hstack.1, .inl rfl⟩
  | segment :: rest, hanchor, stack, hstack => by
    have hrest := keeps_walk hP rest fun h => hanchor (Bool.or_eq_true_iff.mpr (.inr h))
    cases segment with
    | parent =>
      obtain ⟨top, outer⟩ := stack
      cases outer with
      | nil => exact yields_nil
      | cons container outer => exact hrest _ (List.forall_mem_cons.mp hstack.2)
    | descendant => exact yields_descend hrest hP hstack _ rfl
    | _ =>
      refine tracer.yields_stepOn hrest hP hstack _ fun h => hanchor ?_
      exact Bool.or_eq_true_iff.mpr (.inl h)

section
variable {segments : List Segment} {root : Tree ι} {parent : Option (Tree ι)} {key : Option Key}
  (hroot : P ⟨root, [], parent, key⟩) {ms : List (Match ι)}
  (h : (tracer.trace segments root parent key).outcome = .ok ms) {m : Match ι} (hm : m ∈ ms)
include hroot h hm

/-- Every match is made of a frame that has what the first frame has and what members inherit, as
long as a root segment, if there is one, does not take it away. -/
theorem from_of_passedOn (hP : Frame.PassedOn P)
    (hanchor : Segment.anchorsAny segments = true → Frame.Anchored P) : m.From P :=
  (tracer.keeps_walk hP segments hanchor ⟨⟨root, [], parent, key⟩, []⟩
    ⟨hroot, fun _ h => by cases h⟩).made (walk_of_trace h) hm

end

/-- Every match is made of a frame that has what the first frame has and what members inherit. -/
theorem from_of_mem_trace (hP : Frame.Inherited P) {segments : List Segment} {root : Tree ι}
    {parent : Option (Tree ι)} {key : Option Key} (hroot : P ⟨root, [], parent, key⟩)
    {ms : List (Match ι)} (h : (tracer.trace segments root parent key).outcome = .ok ms)
    {m : Match ι} (hm : m ∈ ms) : m.From P :=
  tracer.from_of_passedOn hroot h hm hP.enter fun _ => hP.anchor

end Tracer

namespace Tree

theorem from_of_mem_search [DecidableEq ι] (hP : Frame.Inherited P) {path : String} {root : Tree ι}
    (hroot : P ⟨root, [], none, none⟩) {ms : List (Match ι)} (h : root.search path = .ok ms)
    {m : Match ι} (hm : m ∈ ms) : m.From P := by
  obtain ⟨segments, -, h⟩ := bind_eq_ok.mp h
  exact Tracer.from_of_mem_trace {} hP hroot h hm

/-- With every container, its members are in the set. -/
def Inward (Q : Tree ι → Prop) : Prop := ∀ t key child, Q t → (key, child) ∈ t.entries → Q child

theorem search_mem [DecidableEq ι] {Q : Tree ι → Prop} (hQ : Inward Q) {path : String}
    {root : Tree ι} (hr : Q root) {ms : List (Match ι)} (h : root.search path = .ok ms)
    {m : Match ι} (hm : m ∈ ms) {t : Tree ι} (ht : m.matched = .node t) : Q t := by
  have inherited : Frame.Inherited fun frame : Frame ι => Q frame.value :=
    ⟨fun hframe hchild => hQ _ _ _ hframe hchild, fun hframe => hframe⟩
  obtain ⟨frame, hframe, rfl | rfl⟩ := from_of_mem_search inherited hr h hm
  · cases ht
    exact hframe
  · cases ht

end Tree

end LiveJson

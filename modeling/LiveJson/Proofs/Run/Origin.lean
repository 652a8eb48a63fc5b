import Mathlib
import LiveJson.Proofs.Run.Behalf
import LiveJson.Proofs.Run.Faithful

/-! # Whose writes a listener is not told of

A change puts a listener behind what is written in its store until it has ended, also behind what
others write there in the meantime. At every moment of a run the listener behind a write is the one
that the innermost change of the store under way names, and that one, and nobody else, is not told
of the write. -/

namespace LiveJson

open Store (Policy)

variable {u : Universe Journal}

namespace Journal

theorem head?_under {past earlier : Journal} {op : Operation} {before : Array Store}
    (h : past.underway.head? = some (op.outset before earlier)) : past.under.head? = some op := by
  obtain ⟨stack, hstack⟩ := List.head?_eq_some_iff.mp h
  rw [under_eq, hstack]
  rfl

end Journal

namespace Universe

/-- **In every run, however listeners write while they are told of changes, nobody is told of what
the innermost change of the same store under way names it to be behind; and every operation makes,
to listeners that record, exactly the calls that it would make with nobody behind any write, except
those to the listener that the innermost change of its store under way names, the operation
itself included.** -/
theorem Reached.silences_innermost {react : ListenerId → Change → Client} {note depth : Nat}
    (h : u.Reached (Client.reacting react note depth)) {moment : Moment} {past : Journal}
    (hpast : (moment :: past) <:+ u.memory) :
    (∀ listener change, moment.event = .told listener change →
      ∃ op, past.under.head? = some op ∧ past.behind op.store ≠ some listener) ∧
    ∀ op, moment.event = .began op → ∀ reach,
      let w : Universe Journal := ⟨moment.stores, moment :: past⟩
      Action.Silences (w.memory.behind op.store) (op.perform (recording reach))
        (op.anonymous.perform (recording reach)) w (w.anonymous op.store) := by
  have faithful := h.amid.faithful moment past hpast
  constructor
  · intro listener change hevent
    rw [Moment.Faithful, hevent] at faithful
    obtain ⟨op, before, earlier, hhead, behind, -⟩ := faithful
    exact ⟨op, Journal.head?_under hhead, behind⟩
  · intro op hevent reach w
    rw [Moment.Faithful, hevent] at faithful
    have steady : w.Steady Policy.free :=
      h.stepwise_free.seen
        (.inr ⟨moment, hpast.subset List.mem_cons_self, rfl⟩)
    have hunder : w.memory.under = op :: past.under := by
      simp only [w, Journal.under, hevent]
    have behind : op.behind w = w.memory.behind op.store := by
      rw [Journal.behind, hunder]
      cases op with
      | change k path value origin => exact (Operation.innermost_change path value origin).symm
      | _ => exact (faithful _).trans (Operation.innermost_cons_of_none rfl).symm
    rw [← behind]
    exact op.silences_perform steady reach

/-- Writes the member `a` of the root, with listener `7` behind it. -/
def namedChange : Operation := .change 0 "$.a" (.plain ⟨.null, trivial⟩) (some 7)

/-- Writes the member `c` of the root. -/
def rootWrite : Operation := .set ⟨0, 2⟩ (.name "c") (.plain ⟨.null, trivial⟩)

/-- Listener `8` answers every change that it is told of with a write; all others take note. -/
def answering : Listeners Journal :=
  Client.reacting (fun id _ => if id = 8 then .take rootWrite .done else .done) 0 1

/-- Listener `7` listens to the root and listener `8` to its member `a`, which is then changed. -/
def afterAnswer : Universe Journal :=
  (start 1).after answering
    [.load 0 nested, .subscribe 0 "$" 7, .subscribe 0 "$.a" 8, namedChange]

theorem reached_afterAnswer : afterAnswer.Reached answering :=
  .next (.next (.next (.next (.start 1) _) _) _) _

theorem silences_nested_write : ∃ moment past, (moment :: past) <:+ afterAnswer.memory ∧
    moment.event = .began rootWrite ∧
    Action.Silences (some 7) (rootWrite.perform (recording 0)) (rootWrite.perform (recording 0))
      ⟨moment.stores, moment :: past⟩ (Universe.anonymous ⟨moment.stores, moment :: past⟩ 0) := by
  have hpast : afterAnswer.memory.drop 2 <:+ afterAnswer.memory := List.drop_suffix 2 _
  have hevent : (afterAnswer.memory.drop 2).head?.map Moment.event = some (.began rootWrite) := by
    cbv
  have hbehind : Journal.behind (afterAnswer.memory.drop 2) 0 = some 7 := by cbv
  cases hdrop : afterAnswer.memory.drop 2 with
  | nil =>
    rw [hdrop] at hevent
    cases hevent
  | cons moment past =>
    rw [hdrop] at hpast hevent hbehind
    have hevent : moment.event = .began rootWrite := Option.some.inj hevent
    have silences := (reached_afterAnswer.silences_innermost hpast).2 rootWrite hevent 0
    exact ⟨moment, past, hpast, hevent, hbehind ▸ silences⟩

/-- The write with which listener `8` answers names nobody, and listener `7` listens to the root,
which it changes, but is not told of it. -/
theorem answer_not_told :
    afterAnswer.Reached answering ∧ 7 ∈ (afterAnswer.store 0).registry.listenersAt "$" ∧
    (afterAnswer.memory.map Moment.event).take 5 =
      [.ended namedChange (.ok ()), .ended rootWrite (.ok ()), .began rootWrite,
        .told 8 ⟨.set, "$['a']", some (.cell ⟨0, 1⟩), some (.plain .null)⟩, .began namedChange] := by
  refine ⟨reached_afterAnswer, ?_, ?_⟩
  · have hlisteners : (afterAnswer.store 0).registry.listenersAt "$" = [7] := by cbv
    rw [hlisteners]
    exact List.mem_singleton_self 7
  · cbv

end Universe

end LiveJson

import Mathlib
import LiveJson.Proofs.Run.Endless
import LiveJson.Proofs.Run.Failure

/-! # Documents without cycles

No cell ever lies below itself, whether it is part of a document or not, so every walk below a cell
ends. What keeps it so is that a write is refused if it would move a cell below itself. -/

namespace LiveJson

open Store (Policy Target InRange Descent cascade)

variable {u v w : Universe Journal} {k : StoreId}

namespace Universe

/-- Writing the value would move a cell of the document to where it or a cell below it is. -/
def Cyclic {σ : Type} (u : Universe σ) (ref : CellRef) (value : Value) : Prop :=
  ∃ x, value = .cell ⟨ref.store, x⟩ ∧ (∃ p, (u.store ref.store).place? x = some p) ∧
    (u.store ref.store).Reaches x ref.cell

theorem isCyclic_iff {ref : CellRef} (hs : (u.store ref.store).Formed) (value : Value) :
    (u.store ref.store).isCyclic ref.cell (u.incoming ref.store value.node) = true ↔
      u.Cyclic ref value := by
  constructor
  · intro h
    cases hx : u.incoming ref.store value.node with
    | copy v => rw [hx] at h; cases h
    | move x =>
      rw [hx] at h
      obtain ⟨hnode, hplace⟩ := incoming_eq_move.mp hx
      refine ⟨x, ?_, Option.isSome_iff_exists.mp hplace, hs.contains_iff.mp h⟩
      cases value with
      | plain document => cases hnode
      | cell r => rw [Node.cell.inj hnode]
  · rintro ⟨x, rfl, hplace, hr⟩
    have hx : u.incoming ref.store (Value.cell ⟨ref.store, x⟩).node = .move x :=
      incoming_eq_move.mpr ⟨rfl, Option.isSome_iff_exists.mpr hplace⟩
    rw [hx]
    exact hs.contains_iff.mpr hr

end Universe

/-! ## Failures of a write itself -/

/-- Whoever is told of a change takes note of it first. -/
theorem Client.lt_reacting (react : ListenerId → Change → Client) (reach : Nat) :
    ∀ (depth : Nat) (id : ListenerId) (change : Change) (u : Universe Journal),
      u.memory.length <
        (((reacting react reach depth).tell id change).run u).2.memory.length
  | 0, _, _, u => Nat.lt_succ_self u.memory.length
  | depth + 1, id, change, u => by
    have free := Journal.compliesBy_free []
    have grows := ((react id change).leading_run (leading_reacting free react reach depth) free
      ⟨u.stores, ⟨.told id change, u.stores⟩ :: u.memory⟩).grows
    exact Nat.lt_of_succ_le grows.length_le

/-- A listener that fails does not leave things as they were. -/
theorem Client.not_failed_self (react : ListenerId → Change → Client) (reach depth : Nat)
    (e : StoreError) (u : Universe Journal) : ¬ (reacting react reach depth).Failed u e u := by
  rintro ⟨id, change, before, hbefore, hrun⟩
  have later := lt_reacting react reach depth id change before
  rw [hrun] at later
  exact Nat.lt_irrefl _ (Nat.lt_of_lt_of_le later hbefore.length_le)

/-- A write to a key that can be written fails with a cycle of its own exactly if it would move a
cell below itself. -/
theorem Store.own_cycle_iff {react : ListenerId → Change → Client} {reach depth : Nat}
    (hw : w.Steady Policy.free) {ref : CellRef} {key key' : Key} {path : Path} {c : Content}
    (target : Target (w.store ref.store) ref.cell key path key' c) (hr : InRange c key')
    (value : Value) :
    (∃ text v, (write (Client.reacting react reach depth) ref key value.node).run w =
        (.error (.cycle text), v) ∧
        ¬ (Client.reacting react reach depth).Failed w (.cycle text) v) ↔ w.Cyclic ref value := by
  have formed := (hw ref.store).sound.toFormed
  rw [← Universe.isCyclic_iff formed]
  constructor
  · rintro ⟨text, v, hrun, own⟩
    cases hcyclic : (w.store ref.store).isCyclic ref.cell (w.incoming ref.store value.node) with
    | true => rfl
    | false =>
      -- The write takes place, so it must be a listener that fails.
      obtain ⟨edit, s, hset⟩ := target.exists_set hr hcyclic
      rw [write_run, hset] at hrun
      have growing := Client.growing_reacting react reach depth
      have failed := (Action.relays_of_made growing (made_notify edit)).fails hrun
      exact absurd (failed.since (List.suffix_refl w.memory)) own
  · intro hcyclic
    have hset := target.set_of_cyclic hr hcyclic
    refine ⟨(path ++ [key']).toText, w, ?_, Client.not_failed_self react reach depth _ w⟩
    rw [write_run, hset]

/-! ## Losses -/

namespace Store

/-- What comes first in the report of an edit: it is told at its location and above. -/
def notifyOutward (listeners : Listeners Journal) (k : StoreId) (edit : Edit) :
    Action Journal Unit := do
  promoteIn k
  walk listeners k edit.location (changeOf k edit)

theorem leading_notifyOutward {A : StoreId → Policy} {J : Journal} {listeners : Listeners Journal}
    (hl : ∀ id change, (listeners.tell id change).Leading A J) (k : StoreId) (edit : Edit) :
    (notifyOutward listeners k edit).Leading A J :=
  leading_promoteIn.bind fun _ => leading_walk hl _ _

end Store

namespace Universe

/-- A write or a removal edits store `k`, which becomes `s`. -/
inductive Makes (u : Universe Journal) (k : StoreId) : Edit → Store → Prop
  | set {id : CellId} {key : Key} {value : Value} {edit : Edit} {s : Store}
      (h : (u.store k).set id key (u.incoming k value.node) = .ok (edit, s)) : Makes u k edit s
  | delete {id : CellId} {key : Key} {removal : Removal} {s : Store}
      (h : (u.store k).delete id key = .ok (some (removal, s))) : Makes u k removal.edit s

/-- A write or a removal, perhaps on behalf of a listener, takes a cell with all below it out of the
document. In `v` that has been told at its location and above, and the way down below it begins. -/
def Orphans (listeners : Listeners Journal) (u : Universe Journal) (k : StoreId) (edit : Edit)
    (id : CellId) (v : Universe Journal) : Prop :=
  edit.old = some (.cell id) ∧ Store.orphans edit = true ∧ ∃ s origin, u.Makes k edit s ∧
    (Store.notifyOutward listeners k edit).run (u.setStore k (s.onBehalf origin)) = (.ok (), v)

theorem Stepwise.note (hu : u.Stepwise Policy.free) (event : Event) :
    (u.note event).Stepwise Policy.free :=
  (Action.leading_record event u).keeps (List.suffix_refl _) hu

theorem Stepwise.makes {edit : Edit} {s : Store} (hu : u.Stepwise Policy.free)
    (h : u.Makes k edit s) : s.Reachable Policy.free := by
  have reachable := hu.steady k
  cases h with
  | set h => exact reachable.step (.set (hu.steady.legal k _) (fun _ _ => trivial) h)
  | delete h => exact reachable.step (.delete h)

theorem Stepwise.orphans {react : ListenerId → Change → Client} {reach depth : Nat} {edit : Edit}
    {id : CellId} (hu : u.Stepwise Policy.free)
    (h : u.Orphans (Client.reacting react reach depth) k edit id v) : v.Stepwise Policy.free := by
  obtain ⟨-, -, s, origin, makes, hrun⟩ := h
  have edited : (u.setStore k (s.onBehalf origin)).Stepwise Policy.free :=
    hu.setStore ((hu.makes makes).step (.origin origin))
  have free := Journal.compliesBy_free v.memory
  have leads := Store.leading_notifyOutward (Client.leading_reacting free react reach depth) k edit
    (u.setStore k (s.onBehalf origin))
  rw [hrun] at leads
  exact leads.keeps (List.suffix_refl _) edited

/-! ## Runs -/

/-- **At every moment of every run, no cell lies below itself, whether it is part of the document or
not, so every walk below a cell ends. Telling listeners of what is lost below a cell, also where a
write or a removal has just taken it out of the document, ends exactly if from some announcement on
the listeners that are told no longer edit the document, and it is what the bounded walk does for
every bound that is large enough. A write to a key that can be written fails with a cycle, unless it
hands on the failure of a listener that it told, exactly if it would move a cell of the document to
where it or a cell below it is.** -/
theorem Reached.never_cyclic {react react' : ListenerId → Change → Client}
    {reach reach' depth depth' : Nat} (h : u.Reached (Client.reacting react reach depth))
    (hw : u.Passed w.stores) (past : w.memory <:+ u.memory) :
    (∀ k, (w.store k).WalksEnd) ∧
    (∀ v, (v = w ∨ ∃ k edit id, w.Orphans (Client.reacting react' reach' depth') k edit id v) →
      ∀ k id path seen,
      ((Descent.start k id path seen v).Settles (Client.reacting react' reach' depth') k ↔
        ∃ outcome x,
          (Descent.start k id path seen v).Ends (Client.reacting react' reach' depth') k outcome x) ∧
      ∀ outcome x,
        (Descent.start k id path seen v).Ends (Client.reacting react' reach' depth') k outcome x →
        ∃ bound, ∀ n, bound ≤ n →
          (cascade (Client.reacting react' reach' depth') k n id path seen).run v =
            (outcome, x)) ∧
    (∀ {ref key path key' c}, Target (w.store ref.store) ref.cell key path key' c →
      InRange c key' → ∀ value : Value,
      ((∃ text v, (Store.write (Client.reacting react' reach' depth') ref key value.node).run w =
          (.error (.cycle text), v) ∧
          ¬ (Client.reacting react' reach' depth').Failed w (.cycle text) v) ↔
        w.Cyclic ref value)) := by
  have all : u.Stepwise Policy.free := h.stepwise_free
  have stepwise : w.Stepwise Policy.free := by
    rintro stores (rfl | ⟨moment, hm, rfl⟩)
    · exact all _ hw
    · exact all _ (.inr ⟨moment, past.subset hm, rfl⟩)
  have formed : ∀ {v : Universe Journal}, v.Stepwise Policy.free → ∀ k, (v.store k).Formed :=
    fun hv k => (hv.steady k).sound.toFormed
  refine ⟨fun k => (formed stepwise k).walksEnd, fun v hv k id path seen => ⟨⟨fun settles => ?_, ?_⟩,
      fun outcome x ends => Store.cascade_of_ends ends⟩,
    fun target inRange value => Store.own_cycle_iff stepwise.steady target inRange value⟩
  · have begun : (Descent.start k id path seen v).now.Stepwise Policy.free := by
      obtain rfl | ⟨j, edit, lost, orphans⟩ := hv
      · exact stepwise
      · exact stepwise.orphans orphans
    exact settles.ends fun n => formed (begun.descends n) k
  · rintro ⟨outcome, x, ends⟩
    exact ends.settles

/-- The object `b` has moved away from the object `a`, and lies below it still. -/
theorem walks_end_after_move :
    (∀ k, ((afterMove "c").store k).WalksEnd) ∧
    (∃ bound, ∀ n, bound ≤ n →
      (cascade (recording 0) 0 n 2 [] []).run (afterMove "c") = (.ok [], afterMove "c")) ∧
    ∃ text v, (Store.write (recording 0) ⟨0, 0⟩ (.name "a") (Value.cell ⟨0, 1⟩).node).run
      (afterMove "c") = (.error (.cycle text), v) := by
  obtain ⟨walks, descends, cyclic⟩ := @Reached.never_cyclic _ (afterMove "c") _ (fun _ _ => .done)
    0 0 0 0 (reached_afterMove "c") (.inl rfl) (List.suffix_refl _)
  have ends : (Descent.start 0 2 [] [] (afterMove "c")).Ends (recording 0) 0 (.ok [])
      (afterMove "c") := ⟨4, rfl⟩
  have target : Target ((afterMove "c").store 0) 0 (.name "a") [.name "c"] (.name "a")
      (.object []) := ⟨rfl, rfl, rfl, rfl, trivial⟩
  have inRange : InRange (.object []) (.name "a") := fun i h => by cases h
  have below : ((afterMove "c").store 0).Holds 1 (.name "b") 0 := List.mem_cons_self
  obtain ⟨text, v', hrun, -⟩ := (@cyclic ⟨0, 0⟩ _ _ _ _ target inRange (.cell ⟨0, 1⟩)).mpr
    ⟨1, rfl, ⟨_, rfl⟩, below.reaches⟩
  exact ⟨walks, (descends _ (.inl rfl) 0 2 [] []).2 _ _ ends, text, v', hrun⟩

/-- Fails with what the last operation has failed with, if it has failed. -/
def handOn (u : Universe Journal) : Client :=
  match u.memory with
  | ⟨.ended _ (.error e), _⟩ :: _ => .fail e
  | _ => .done

/-- Listeners that try to move the object `a` below itself, and fail as they cannot. -/
def insisting : Listeners Journal :=
  Client.reacting (fun _ _ => .take cyclicWrite (.look handOn)) 0 1

/-- The document `{"x": {"x": {}}}`, of cells `0` to `2` from the inside out. -/
def twofold : Document where
  json := .object [("x", .object [("x", .object [])])]
  wellFormed := by simp [Json.WellFormed, Json.MembersWellFormed, Members.names]

/-- Listener `8` waits for the outer object `x` and listener `7` for the inner one, which has moved
to another member of the root. -/
def afterTwofold : Universe Journal :=
  (start 1).after extending [.load 0 twofold, .subscribe 0 "$['x']" 8, .subscribe 0 "$['x']['x']" 7,
    .set ⟨0, 2⟩ (.name "c") (.cell ⟨0, 0⟩)]

/-- The outer object `x` is about to be removed. -/
def beforeLoss : Universe Journal :=
  afterTwofold.note (.began (.delete ⟨0, 2⟩ (.name "x")))

/-- The removal of the outer object `x`. -/
def outerRemoval : Edit := ⟨.delete, deep 1, some (.cell 1), none⟩

/-- The document without the outer object `x`. -/
def withoutOuter : Store :=
  match (beforeLoss.store 0).delete 2 (.name "x") with
  | .ok (some (_, s)) => s
  | _ => {}

/-- The outer object `x` is gone, and nobody has been told. -/
def unreportedLoss : Universe Journal :=
  beforeLoss.setStore 0 (withoutOuter.onBehalf none)

/-- What has been told at `$['x']` and above, and the way down below it begins. -/
def afterLoss : Universe Journal :=
  ((Store.notifyOutward extending 0 outerRemoval).run unreportedLoss).2

theorem reached_afterTwofold : afterTwofold.Reached extending :=
  .next (.next (.next (.next (.start 1) (.load 0 twofold)) (.subscribe 0 "$['x']" 8))
    (.subscribe 0 "$['x']['x']" 7)) (.set ⟨0, 2⟩ (.name "c") (.cell ⟨0, 0⟩))

theorem orphans_beforeLoss : beforeLoss.Orphans extending 0 outerRemoval 1 afterLoss := by
  have removed : (beforeLoss.store 0).delete 2 (.name "x") =
      .ok (some (⟨outerRemoval, []⟩, withoutOuter)) := by
    cbv
  have outward :
      ((Store.notifyOutward extending 0 outerRemoval).run unreportedLoss).1 = .ok () := by
    cbv
  refine ⟨rfl, rfl, withoutOuter, none, .delete removed, ?_⟩
  change (Store.notifyOutward extending 0 outerRemoval).run unreportedLoss = _
  rw [afterLoss, ← outward, Prod.mk.eta]

theorem registry_afterLoss : (afterLoss.store 0).registry =
    Registry.add (Registry.add {} (deep 1).toText ⟨8, "$['x']"⟩) (deep 2).toText
      ⟨7, "$['x']['x']"⟩ := by
  cbv

/-- The inner object is back where it was, and listener `7` listens to it. -/
theorem tip_afterLoss : afterLoss.Tip 0 2 := by
  have stepwise : beforeLoss.Stepwise Policy.free := reached_afterTwofold.stepwise_free.note _
  refine ⟨stepwise.orphans orphans_beforeLoss, by cbv, by cbv, ?_, fun m hm => ?_, ?_, by cbv⟩
  · rw [registry_afterLoss]
    cbv
  · rw [registry_afterLoss, Registry.listenersAt_add, Registry.listenersAt_add,
      if_neg (toText_deep_ne (Nat.ne_of_lt hm)),
      if_neg (toText_deep_ne (Nat.ne_of_lt (Nat.lt_of_succ_lt hm)))]
    rfl
  · rw [registry_afterLoss]
    cbv

/-- A listener may hand on a cycle where a plain value is written; and where a removal takes an
object out of the document, listeners that put back what lay below it, and go on to add members, may
keep the way down from ending. -/
theorem cycle_handed_on_and_endless_descent :
    (afterSubscribe.Reached insisting ∧
      ¬ ∀ {ref key path key' c},
        Target (afterSubscribe.store ref.store) ref.cell key path key' c → InRange c key' →
        ∀ value : Value, ((∃ text v, (Store.write insisting ref key value.node).run afterSubscribe =
          (.error (.cycle text), v)) ↔ afterSubscribe.Cyclic ref value)) ∧
    afterTwofold.Reached extending ∧
      ∃ edit id v, beforeLoss.Orphans extending 0 edit id v ∧
        ¬ ∃ outcome x,
          (Descent.start 0 id edit.location [] v).Ends extending 0 outcome x := by
  refine ⟨⟨.next (.next (.start 1) (.load 0 nested)) (.subscribe 0 "$" 7), fun h => ?_⟩,
    reached_afterTwofold, outerRemoval, 1, afterLoss, orphans_beforeLoss, ?_⟩
  · have target : Target (afterSubscribe.store 0) 2 (.name "x") [] (.name "x")
        (.object [("a", .cell 1)]) := ⟨rfl, rfl, rfl, rfl, trivial⟩
    have inRange : InRange (.object [("a", .cell 1)]) (.name "x") := fun i h => by cases h
    obtain ⟨x, hx, -⟩ := (@h ⟨0, 2⟩ _ _ _ _ target inRange (.plain nested)).mp ⟨_, _, rfl⟩
    cases hx
  · rintro ⟨outcome, x, j, ends⟩
    have below : (afterLoss.store 0).below (outerRemoval.location, .cell 1) =
        [(deep 2, .cell 0)] := by
      cbv
    rw [Descent.start, below] at ends
    exact tip_afterLoss.endless j (fun _ _ => List.not_mem_nil) ends

end Universe

end LiveJson

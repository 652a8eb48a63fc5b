import LiveJson.Proofs.Run.Delivery
import LiveJson.Proofs.Run.Report

/-! # Failures

An operation that fails of its own accord has changed nothing. Once it makes its report, only the
listeners that it tells can make it fail, and then it hands on what they failed with. -/

namespace LiveJson

open Store (Policy Telling)

variable {listeners : Listeners Journal} {u v w : Universe Journal} {k : StoreId} {e : StoreError}

/-- Some time after `u` a listener was told of a change, and it failed with `e` and left `v`. -/
def Listeners.Failed (listeners : Listeners Journal) (u : Universe Journal) (e : StoreError)
    (v : Universe Journal) : Prop :=
  ∃ listener change before, u.memory <:+ before.memory ∧
    (listeners.tell listener change).run before = (.error e, v)

theorem Listeners.Failed.since (h : listeners.Failed v e w) (huv : u.memory <:+ v.memory) :
    listeners.Failed u e w := by
  obtain ⟨listener, change, before, hbefore, hrun⟩ := h
  exact ⟨listener, change, before, huv.trans hbefore, hrun⟩

/-- Listeners never take anything out of the journal. -/
def Listeners.Growing (listeners : Listeners Journal) : Prop :=
  ∀ id change u, u.memory <:+ ((listeners.tell id change).run u).2.memory

theorem Client.growing_reacting (react : ListenerId → Change → Client) (reach depth : Nat) :
    (reacting react reach depth).Growing := fun id change u =>
  (leading_reacting (Journal.compliesBy_free []) react reach depth id change u).grows

/-! ## Actions that fail only with a listener -/

namespace Action

/-- The action only adds to the journal, and it fails only where a listener does. -/
structure Relays (listeners : Listeners Journal) {α : Type} (act : Action Journal α) : Prop where
  grows : ∀ u, u.memory <:+ (act.run u).2.memory
  fails : ∀ {u : Universe Journal} {e : StoreError} {v : Universe Journal},
    act.run u = (.error e, v) → listeners.Failed u e v

variable {α β : Type} {act : Action Journal α} {next : α → Action Journal β}

theorem relays_pure (a : α) : Relays listeners (pure a) where
  grows u := List.suffix_refl _
  fails h := by cases h

theorem relays_getStore (k : StoreId) : Relays listeners (getStore k) where
  grows u := List.suffix_refl _
  fails h := by cases h

theorem Relays.bind (h : Relays listeners act) (h' : ∀ a, Relays listeners (next a)) :
    Relays listeners (act >>= next) where
  grows u := by
    have first := h.grows u
    rw [run_bind]
    rcases hact : act.run u with ⟨_ | a, v⟩
    · rw [hact] at first
      exact first
    · rw [hact] at first
      exact first.trans ((h' a).grows v)
  fails {u _ _} hrun := by
    have first := h.grows u
    rw [run_bind] at hrun
    rcases hact : act.run u with ⟨e' | a, v⟩
    · rw [hact] at hrun
      cases hrun
      exact h.fails hact
    · rw [hact] at hrun first
      exact ((h' a).fails hrun).since first

theorem relays_forM {next : α → Action Journal PUnit} (h : ∀ a, Relays listeners (next a)) :
    ∀ l : List α, Relays listeners (l.forM next)
  | [] => relays_pure _
  | a :: l => (h a).bind fun _ => relays_forM h l

/-- What is made of promotions and tellings fails only with a listener. -/
theorem relays_of_made (growing : listeners.Growing) {news : Change → Prop}
    (made : Made (Telling listeners k news) act) : Relays listeners act := by
  induction made with
  | pure a => exact relays_pure a
  | look k => exact relays_getStore k
  | bind _ _ ih ih' => exact ih.bind ih'
  | part h =>
    cases h with
    | promote => exact ⟨fun u => List.suffix_refl _, fun h => by cases h⟩
    | dispatch path =>
      refine (relays_getStore k).bind fun s => relays_forM (fun id => ?_) _
      split
      · exact relays_pure _
      · exact ⟨growing id _, fun h => ⟨id, _, _, List.suffix_refl _, h⟩⟩

end Action

theorem Store.Acts.failed {news : Store → Change → Prop} {opening : Path → Prop}
    {act : Action Journal Unit} (h : Store.Acts listeners k u news opening act)
    (growing : listeners.Growing) (hrun : act.run u = (.error e, v)) :
    v = u ∨ listeners.Failed u e v := by
  rcases h with ⟨e', refused⟩ | ⟨s, report, acted⟩
  · rw [refused] at hrun
    cases hrun
    exact Or.inl rfl
  · rw [acted.run_eq] at hrun
    have failed := (Action.relays_of_made growing acted.made).fails hrun
    exact Or.inr (failed.since (List.suffix_refl u.memory))

/-! ## Operations -/

namespace Operation

/-- The operation hands on the failure of a listener that it told. At most the listener behind the
write has been put back since that listener failed. -/
def HandsOn (op : Operation) (listeners : Listeners Journal) (u : Universe Journal)
    (e : StoreError) (v : Universe Journal) : Prop :=
  ∃ w origin, listeners.Failed u e w ∧
    v = w.setStore op.store ((w.store op.store).onBehalf origin)

variable {op : Operation}

theorem handsOn_of_failed (op : Operation) (h : listeners.Failed u e v) :
    op.HandsOn listeners u e v :=
  ⟨v, (v.store op.store).origin, h, (v.setStore_store op.store).symm⟩

variable (growing : listeners.Growing) (hu : u.Steady Policy.free)
include growing hu

theorem failed_change (path : String) (value : Value) (origin : Option ListenerId)
    (hrun : ((change k path value origin).perform listeners).run u = (.error e, v)) :
    v = u ∨ (change k path value origin).HandsOn listeners u e v := by
  rw [perform] at hrun
  rcases Store.acts_change hu listeners k path value origin with
    ⟨e', refused⟩ | ⟨act, -, acts, hact⟩
  · rw [refused] at hrun
    cases hrun
    exact Or.inl rfl
  · rcases hwrite : act.run (u.setStore k ((u.store k).onBehalf origin)) with ⟨outcome, w⟩
    rw [hact, hwrite] at hrun
    cases hrun
    rcases acts.failed growing hwrite with rfl | failed
    · exact Or.inl (Store.restore_onBehalf u k origin)
    · exact Or.inr ⟨w, _, failed.since (List.suffix_refl u.memory), rfl⟩

/-- An operation that fails has changed nothing, or it hands on the failure of a listener. -/
theorem failed_perform (registers : ¬ op.Registers)
    (hrun : (op.perform listeners).run u = (.error e, v)) :
    v = u ∨ op.HandsOn listeners u e v := by
  by_cases names : op.Names
  · cases op with
    | change k path value origin => exact failed_change growing hu path value origin hrun
    | _ => exact names.elim
  · have acts := acts_perform listeners hu registers names
    exact (acts.failed growing hrun).imp_right (handsOn_of_failed op)

end Operation

namespace Universe

/-- **An operation on a document that fails, in whatever state of whatever run, has changed nothing,
neither in any store nor in the journal, unless it hands on the failure of a listener that it
told.** -/
theorem Reached.unchanged_of_failed {react react' : ListenerId → Change → Client}
    {note note' depth depth' : Nat} (h : u.Reached (Client.reacting react note depth))
    (hw : u.Passed w.stores) {op : Operation} (hop : ¬ op.Registers)
    (hrun : (op.perform (Client.reacting react' note' depth')).run w = (.error e, v))
    (own : ¬ op.HandsOn (Client.reacting react' note' depth') w e v) : v = w := by
  have stepwise : u.Stepwise Store.Policy.free := h.stepwise_free
  have steady : w.Steady Store.Policy.free := stepwise.seen hw
  have growing := Client.growing_reacting react' note' depth'
  exact (Operation.failed_perform growing steady hop hrun).resolve_right own

/-- Moves the object `a` below itself. -/
def cyclicWrite : Operation := .set ⟨0, 0⟩ (.name "c") (.cell ⟨0, 1⟩)

/-- Listeners that refuse every change. -/
def refusing : Listeners Journal := Client.reacting (fun _ _ => .fail (.listener "no")) 0 1

theorem unchanged_after_cyclic_write : ∃ e v,
    (cyclicWrite.perform refusing).run afterSubscribe = (.error e, v) ∧ v = afterSubscribe := by
  have reached : afterSubscribe.Reached (recording 0) :=
    .next reached_afterLoad (.subscribe 0 "$" 7)
  have hrun : (cyclicWrite.perform refusing).run afterSubscribe =
    (.error (.cycle (Path.toText [.name "a", .name "b", .name "c"])), afterSubscribe) := rfl
  refine ⟨_, _, hrun, reached.unchanged_of_failed (.inl rfl) id hrun ?_⟩
  rintro ⟨w, origin, ⟨listener, change, before, -, hfailed⟩, -⟩
  cases hfailed

end Universe

end LiveJson

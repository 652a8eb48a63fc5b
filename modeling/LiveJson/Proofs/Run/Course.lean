import LiveJson.Proofs.Run.Effect

/-! # Courses

Callers operate on stores, and they fetch documents for them from elsewhere: a fetch begins, and
ends when its source answers or when it is given up. A course is any number of such deeds, one after
the other, with listeners that only record. Each deed changes at most the store that it is for. -/

namespace LiveJson

open Store (Policy)

variable {u v w : Universe Journal} {j k : StoreId} {reach : Nat}

inductive Deed where
  | operate (op : Operation)
  | takeOff (k : StoreId) (location : Except StoreError Location) (method : Option String)
  | land (k : StoreId) (answer : Except StoreError Document)
  | giveUp (k : StoreId)

namespace Deed

/-- The store that a deed is for. -/
def store : Deed → StoreId
  | operate op => op.store
  | takeOff k _ _ | land k _ | giveUp k => k

def perform {σ : Type} (listeners : Listeners σ) : Deed → Action σ Unit
  | operate op => op.perform listeners
  | takeOff k location method => do
    let _ ← Store.takeOffIn k location method
    return
  | land k answer => Store.land k (answer.map Document.json)
  | giveUp k => Store.giveUpIn k

/-- The deed is to replace the document of store `k`. -/
def Loads (k : StoreId) : Deed → Prop
  | operate (.load j _) | land j _ => j = k
  | _ => False

def Ticks (k : StoreId) : Deed → Prop
  | operate (.tick j) => j = k
  | _ => False

end Deed

/-- A deed and what it has come to. -/
structure Turn where
  deed : Deed
  outcome : Except StoreError Unit

/-- The turns lead from `u` to the universe, latest first. -/
inductive Course (reach : Nat) (u : Universe Journal) : List Turn → Universe Journal → Prop
  | here : Course reach u [] u
  | next {turns : List Turn} {v : Universe Journal} (h : Course reach u turns v) (deed : Deed) :
      Course reach u (⟨deed, ((deed.perform (recording reach)).run v).1⟩ :: turns)
        ((deed.perform (recording reach)).run v).2

/-! ## What a deed does -/

namespace Store

variable {s : Store}

theorem change_of_mem_heard {path : String} {change : Change} {call : Call}
    (h : call ∈ s.heard path change) : call.2 = change := by
  obtain ⟨id, -, rfl⟩ := List.mem_map.mp h
  rfl

theorem not_load_of_mem_heardOutward {location : Path} {change : Change} {call : Call}
    (hchange : change.op ≠ .load) (h : call ∈ s.heardOutward location change) :
    call.2.op ≠ .load := by
  obtain ⟨p, -, h⟩ := List.mem_flatMap.mp h
  rw [change_of_mem_heard h]
  exact hchange

theorem not_load_of_mem_heardOf {edit : Edit} {call : Call} (hedit : edit.op ≠ .load)
    (h : call ∈ s.heardOf k edit) : call.2.op ≠ .load := by
  rcases List.mem_append.mp h with h | h
  · exact not_load_of_mem_heardOutward hedit h
  · obtain ⟨e, -, h⟩ := List.mem_flatMap.mp h
    rw [change_of_mem_heard h]
    nofun

theorem not_load_of_mem_heardRemoval {removal : Removal} {call : Call}
    (hedit : removal.edit.op ≠ .load) (h : call ∈ s.heardRemoval k removal) :
    call.2.op ≠ .load := by
  unfold heardRemoval at h
  split at h
  · rcases List.mem_append.mp h with h | h
    · exact not_load_of_mem_heardOutward hedit h
    · obtain ⟨e, -, h⟩ := List.mem_flatMap.mp h
      unfold heardShift at h
      split at h
      · exact absurd h List.not_mem_nil
      · rw [change_of_mem_heard h, shiftOf]
        split <;> nofun
  · exact not_load_of_mem_heardOf hedit h

end Store

namespace Operation

variable {op : Operation} {outcome : Except StoreError Unit} {s : Store} {calls : List Call}

/-- Only loading makes a report of the document due. -/
theorem Effect.reloadDue (h : op.Effect u outcome s calls) (hop : ∀ k, op ≠ .tick k) :
    s.reloadDue = true ↔
      (∃ k document, op = .load k document) ∧ outcome = .ok () ∨
        (u.store op.store).reloadDue = true := by
  have kept : (∀ k document, op ≠ .load k document) →
      s.reloadDue = (u.store op.store).reloadDue → (s.reloadDue = true ↔
        (∃ k document, op = .load k document) ∧ outcome = .ok () ∨
          (u.store op.store).reloadDue = true) := by
    intro hload hs
    rw [hs, or_iff_right]
    rintro ⟨⟨k, document, heq⟩, -⟩
    exact hload k document heq
  cases h with
  | refused op e => exact (or_iff_right fun h => by cases h.2).symm
  | @loaded k document s h =>
    rw [Store.rest_load h]
    exact iff_of_true rfl (.inl ⟨⟨k, document, rfl⟩, rfl⟩)
  | idle h => exact absurd rfl (hop _)
  | reported h => exact absurd rfl (hop _)
  | @written op ref key value edit s hw h =>
    refine kept (fun k document heq => ?_) ?_
    · rw [heq] at hw
      cases hw
    · have rest : s.reloadDue = (u.store ref.store).reloadDue := by rw [rest_written h]
      rw [store_of_written hw]
      exact rest
  | missing h => exact kept (fun _ _ => nofun) rfl
  | @removed ref key removal s h =>
    have rest : s.reloadDue = (u.store ref.store).reloadDue := by rw [Store.rest_delete h]
    exact kept (fun _ _ => nofun) rest
  | subscribed k query listener =>
    obtain ⟨registry, hr⟩ := (u.store k).subscribe_frame query listener
    exact kept (fun _ _ => nofun) (by rw [hr]; rfl)
  | unsubscribed k query listener =>
    obtain ⟨registry, hr⟩ := (u.store k).unsubscribe_frame query listener
    exact kept (fun _ _ => nofun) (by rw [hr]; rfl)

/-- Only a tick tells of a load. -/
theorem Effect.not_load (h : op.Effect u outcome s calls) (hop : ∀ k, op ≠ .tick k) :
    ∀ call ∈ calls, call.2.op ≠ .load := by
  intro call hcall
  cases h with
  | idle h => exact absurd rfl (hop _)
  | reported h => exact absurd rfl (hop _)
  | @written op ref key value edit s hw h =>
    obtain ⟨path, key', c, target, -, -, slot, t, -, hedit, -⟩ := Store.set_eq_ok h
    have hset : edit.op = .set := by rw [hedit]
    refine Store.not_load_of_mem_heardOf (fun hload => ?_) hcall
    rw [hset] at hload
    cases hload
  | @removed ref key removal s h =>
    obtain ⟨path, key', c, old, target, -, hedit, -⟩ := Store.delete_eq_ok h
    have hdelete : removal.edit.op = .delete := by rw [hedit]
    refine Store.not_load_of_mem_heardRemoval (fun hload => ?_) hcall
    rw [hdelete] at hload
    cases hload
  | _ => exact absurd hcall List.not_mem_nil

end Operation

namespace Deed

variable {deed : Deed} {outcome : Except StoreError Unit} {s : Store} {calls : List Call}

/-- The deed comes to the outcome, its store becomes `s`, and the calls are made. -/
structure Does (reach : Nat) (deed : Deed) (u : Universe Journal)
    (outcome : Except StoreError Unit) (s : Store) (calls : List Call) : Prop where
  outcome_eq : ((deed.perform (recording reach)).run u).1 = outcome
  stores : ((deed.perform (recording reach)).run u).2.stores = (u.setStore deed.store s).stores
  calls_eq : ((deed.perform (recording reach)).run u).2.memory.calls = u.memory.calls ++ calls
  reachable : s.Reachable Policy.free
  origin : s.origin = (u.store deed.store).origin
  reloadDue : s.reloadDue = true ↔ deed.Loads deed.store ∧ outcome = .ok () ∨
    ¬ deed.Ticks deed.store ∧ (u.store deed.store).reloadDue = true
  not_load : ¬ deed.Ticks deed.store → ∀ call ∈ calls, call.2.op ≠ .load

theorem does_of_run
    (hrun : (deed.perform (recording reach)).run u = (outcome, (u.setStore deed.store s).tell calls))
    (reachable : s.Reachable Policy.free) (origin : s.origin = (u.store deed.store).origin)
    (reloadDue : s.reloadDue = true ↔ deed.Loads deed.store ∧ outcome = .ok () ∨
      ¬ deed.Ticks deed.store ∧ (u.store deed.store).reloadDue = true)
    (not_load : ¬ deed.Ticks deed.store → ∀ call ∈ calls, call.2.op ≠ .load) :
    deed.Does reach u outcome s calls where
  outcome_eq := by rw [hrun]
  stores := by
    rw [hrun]
    rfl
  calls_eq := by
    rw [hrun]
    exact Universe.calls_tell calls
  reachable := reachable
  origin := origin
  reloadDue := reloadDue
  not_load := not_load

/-- What an operation does, unless it is a tick. -/
theorem does_operate (hu : u.Steady Policy.free) (reach : Nat) {op : Operation}
    (hop : ∀ k, op ≠ .tick k) :
    ∃ outcome s calls, (operate op).Does reach u outcome s calls := by
  obtain ⟨outcome, s, calls, does⟩ := op.exists_does hu reach
  have loads : (operate op).Loads op.store ↔ ∃ k document, op = .load k document := by
    cases op with
    | load k document => exact iff_of_true rfl ⟨k, document, rfl⟩
    | _ => exact iff_of_false id nofun
  have ticks : ¬ (operate op).Ticks op.store := by
    cases op with
    | tick k => exact absurd rfl (hop k)
    | _ => exact id
  refine ⟨outcome, s.onBehalf (u.store op.store).origin, calls, ?_, does.stores, ?_,
    (does.2.reachable hu).step (.origin _), rfl, ?_, fun _ => does.2.not_load hop⟩
  · exact congrArg Prod.fst does.1
  · show ((op.perform (recording reach)).run u).2.memory.calls = _
    rw [does.1]
    exact Universe.calls_tell calls
  · refine (does.2.reloadDue hop).trans ?_
    rw [← loads]
    exact or_congr_right (and_iff_right ticks).symm

theorem does_tick (hu : u.Steady Policy.free) (reach : Nat) (k : StoreId) :
    ∃ outcome s calls, (operate (.tick k)).Does reach u outcome s calls := by
  have ticks : (operate (.tick k)).Ticks k := rfl
  cases hdue : (u.store k).reloadDue with
  | false =>
    have hrun := Store.tick_run_of_not_due (recording reach) hdue
    refine ⟨.ok (), u.store k, [], does_of_run (hrun.trans ?_) (hu k) rfl ?_ (absurd ticks)⟩
    · rw [store, Operation.store, Universe.setStore_store, Universe.tell_nil]
    · rw [hdue]
      exact iff_of_false Bool.false_ne_true fun h => h.elim And.left fun h => h.1 ticks
  | true =>
    have reachable := ((hu k).step .reported).step .promote
    refine ⟨.ok (), _, _, does_of_run (Store.recorded_tick reach hu hdue) reachable rfl ?_
      (absurd ticks)⟩
    exact iff_of_false Bool.false_ne_true fun h => h.elim And.left fun h => h.1 ticks

/-- A deed that at most begins or ends a fetch. -/
theorem does_fetching (hu : u.Steady Policy.free) (loading : Bool)
    (hrun : (deed.perform (recording reach)).run u =
      (outcome, u.setStore deed.store { u.store deed.store with loading }))
    (hloads : ¬ (deed.Loads deed.store ∧ outcome = .ok ())) (hticks : ¬ deed.Ticks deed.store) :
    deed.Does reach u outcome { u.store deed.store with loading } [] :=
  does_of_run hrun ((hu deed.store).step (.fetching loading)) rfl
    (by rw [or_iff_right hloads, and_iff_right hticks]) fun _ _ h => absurd h List.not_mem_nil

theorem takeOff_run {σ : Type} (listeners : Listeners σ) (k : StoreId)
    (location : Except StoreError Location) (method : Option String) (u : Universe σ) :
    ((takeOff k location method).perform listeners).run u =
      match (u.store k).takeOff location method with
      | .error e => (.error e, u)
      | .ok (_, s) => (.ok (), u.setStore k s) := by
  rw [perform, Action.run_bind, Store.takeOffIn_run]
  cases (u.store k).takeOff location method <;> rfl

theorem does_takeOff (hu : u.Steady Policy.free) (reach : Nat) (k : StoreId)
    (location : Except StoreError Location) (method : Option String) :
    ∃ outcome s calls, (takeOff k location method).Does reach u outcome s calls := by
  cases h : (u.store k).takeOff location method with
  | error e =>
    have same : u = u.setStore k { u.store k with loading := (u.store k).loading } :=
      (u.setStore_store k).symm
    refine ⟨.error e, _, [], does_fetching hu (u.store k).loading ?_ And.left id⟩
    rw [takeOff_run, h]
    exact congrArg (Prod.mk _) same
  | ok accepted =>
    obtain ⟨request, s⟩ := accepted
    obtain ⟨-, rfl⟩ := Store.takeOff_eq_ok h
    refine ⟨.ok (), _, [], does_fetching hu true ?_ And.left id⟩
    rw [takeOff_run, h]
    rfl

theorem does_land (hu : u.Steady Policy.free) (reach : Nat) (k : StoreId)
    (answer : Except StoreError Document) :
    ∃ outcome s calls, (land k answer).Does reach u outcome s calls := by
  have hrun : ((land k answer).perform (recording reach)).run u = _ :=
    Store.land_run k (answer.map Document.json) u
  generalize hended : u.setStore k { u.store k with loading := false } = ended at hrun
  cases answer with
  | error e =>
    subst hended
    exact ⟨.error e, _, [], does_fetching hu false hrun (fun h => by cases h.2) id⟩
  | ok document =>
    have hload := Store.loadIn_run k document.json ended
    cases h : (ended.store k).load document.json with
    | error e =>
      rw [h] at hload
      subst hended
      exact ⟨.error e, _, [], does_fetching hu false (hrun.trans hload) (fun h => by cases h.2) id⟩
    | ok s =>
      rw [h] at hload
      have hstore : ended.store k = { u.store k with loading := false } ∨
          ended.store k = u.store k := hended ▸ u.store_setStore k _
      have rest := Store.rest_load h
      have reachable : (ended.store k).Reachable Policy.free := by
        rcases hstore with hs | hs
        · rw [hs]; exact (hu k).step (.fetching false)
        · rw [hs]; exact hu k
      have landed : ((land k (.ok document)).perform (recording reach)).run u =
          (.ok (), u.setStore k s) := by
        refine (hrun.trans hload).trans ?_
        dsimp only
        rw [← hended, Universe.setStore_setStore]
      refine ⟨.ok (), s, [], does_of_run landed (reachable.step (.load document.wellFormed h)) ?_ ?_
        fun _ _ h => absurd h List.not_mem_nil⟩
      · rcases hstore with hs | hs
        · rw [rest, hs]; rfl
        · rw [rest, hs]; rfl
      · rw [rest]
        exact iff_of_true rfl (.inl ⟨rfl, rfl⟩)

/-- Every deed does something of this kind. -/
theorem exists_does (hu : u.Steady Policy.free) (reach : Nat) (deed : Deed) :
    ∃ outcome s calls, deed.Does reach u outcome s calls := by
  cases deed with
  | operate op =>
    cases op with
    | tick k => exact does_tick hu reach k
    | _ => exact does_operate hu reach nofun
  | takeOff k location method => exact does_takeOff hu reach k location method
  | land k answer => exact does_land hu reach k answer
  | giveUp k => exact ⟨.ok (), _, [], does_fetching hu false rfl And.left id⟩

end Deed

/-! ## What holds all along -/

namespace Universe

/-- Every store is one that steps lead to, and nobody is behind a write. -/
structure AtRest (u : Universe Journal) : Prop where
  steady : u.Steady Policy.free
  origin : ∀ k, (u.store k).origin = none

theorem atRest_start (count : Nat) : (start count).AtRest where
  steady k := by
    rw [store_start]
    exact .empty
  origin k := by rw [store_start]

end Universe

namespace Deed.Does

variable {deed : Deed} {outcome : Except StoreError Unit} {s : Store} {calls : List Call}

theorem store_of_ne (h : deed.Does reach u outcome s calls) (hj : j ≠ deed.store) :
    ((deed.perform (recording reach)).run u).2.store j = u.store j :=
  (Universe.store_congr h.stores).trans (Universe.store_setStore_of_ne hj s)

theorem store_self (h : deed.Does reach u outcome s calls) (hk : deed.store < u.stores.size) :
    ((deed.perform (recording reach)).run u).2.store deed.store = s :=
  (Universe.store_congr h.stores).trans (Universe.store_setStore_self hk s)

theorem size (h : deed.Does reach u outcome s calls) :
    ((deed.perform (recording reach)).run u).2.stores.size = u.stores.size :=
  (congrArg Array.size h.stores).trans (u.size_setStore deed.store s)

theorem atRest (h : deed.Does reach u outcome s calls) (hu : u.AtRest) :
    ((deed.perform (recording reach)).run u).2.AtRest := by
  have cases (j : StoreId) := u.store_setStore_cases deed.store s j
  constructor
  · intro j
    rw [Universe.store_congr h.stores]
    rcases cases j with hj | ⟨-, hj⟩
    · rw [hj]; exact hu.steady j
    · rw [hj]; exact h.reachable
  · intro j
    rw [Universe.store_congr h.stores]
    rcases cases j with hj | ⟨-, hj⟩
    · rw [hj]; exact hu.origin j
    · rw [hj]; exact h.origin.trans (hu.origin _)

end Deed.Does

namespace Course

variable {turns : List Turn}

theorem atRest (h : Course reach u turns v) (hu : u.AtRest) : v.AtRest := by
  induction h with
  | here => exact hu
  | next h deed ih =>
    obtain ⟨outcome, s, calls, does⟩ := deed.exists_does ih.steady reach
    exact does.atRest ih

theorem size (h : Course reach u turns v) (hu : u.AtRest) : v.stores.size = u.stores.size := by
  induction h with
  | here => rfl
  | next h deed ih =>
    obtain ⟨outcome, s, calls, does⟩ := deed.exists_does (h.atRest hu).steady reach
    exact does.size.trans ih

theorem lt_size {count : Nat} (h : Course reach (.start count) turns u) (hk : k < count) :
    k < u.stores.size := by
  rw [h.size (Universe.atRest_start count)]
  simpa [Universe.start] using hk

/-- Nothing happens to a store that no deed is for. -/
theorem untouched (h : Course reach u turns v) (hu : u.AtRest)
    (hk : ∀ turn ∈ turns, turn.deed.store ≠ k) : v.store k = u.store k := by
  induction h with
  | here => rfl
  | @next turns v h deed ih =>
    obtain ⟨hdeed, hturns⟩ := List.forall_mem_cons.mp hk
    obtain ⟨outcome, s, calls, does⟩ := deed.exists_does (h.atRest hu).steady reach
    exact (does.store_of_ne (Ne.symm hdeed)).trans (ih hturns)

theorem trans {later : List Turn} (h : Course reach u turns v) (h' : Course reach v later w) :
    Course reach u (later ++ turns) w := by
  induction h' with
  | here => exact h
  | next _ deed ih => exact ih.next deed

end Course

end LiveJson

import Mathlib
import LiveJson.Proofs.Run.Delivery
import LiveJson.Proofs.Store.Promotion

/-! # Subscriptions that are refused

A subscription is refused if its query fails in the document as it is. It was taken out of those
that wait before that, and a refusal does not put it back: a listener that repeats a subscription
which is still waiting loses it if the query has come to fail. -/

namespace LiveJson

open Store (Policy)

variable {s : Store} {u w : Universe Journal} {k : StoreId} {query : String}
  {listener : ListenerId} {cause : PathError}

/-- Nothing waits twice, so to stop waiting is to be taken out once. -/
theorem Registry.WellFormed.removePending_eq_erase {r : Registry} (hr : r.WellFormed)
    (waiting : Subscription) :
    r.removePending waiting = { r with pending := r.pending.erase waiting } := by
  have herase := hr.pending.erase_eq_filter waiting
  have hfilter : (r.pending.filter fun sub => sub != waiting) =
      r.pending.filter fun sub => decide (sub ≠ waiting) :=
    List.filter_congr fun sub _ => by by_cases hsub : sub = waiting <;> simp [hsub]
  rw [Registry.removePending, herase, hfilter]

namespace Store

theorem resolve_eq_error_iff : s.resolve query = .error cause ↔
    ∃ tree, s.rootTree? = some tree ∧ tree.search query = .error cause := by
  unfold resolve
  cases hroot : s.rootTree? with
  | none => simp
  | some tree =>
    cases hsearch : tree.search query with
    | error e => simp [bind, Except.bind, hsearch]
    | ok ms => simp [bind, Except.bind, pure, Except.pure, hsearch]

/-- A subscription is refused with the failure of its query, and is waiting no more. -/
theorem subscribe_of_error (h : s.resolve query = .error cause) (listener : ListenerId) :
    s.subscribe query listener =
      (.error cause, { s with registry := s.registry.removePending ⟨listener, query⟩ }) := by
  rw [subscribe, h]

theorem subscribeIn_eq_error_iff {e : StoreError} :
    ((subscribeIn k query listener).run w).1 = .error e ↔
      ∃ cause, (w.store k).resolve query = .error cause ∧ e = .path cause := by
  rw [subscribeIn_run]
  cases hresolve : (w.store k).resolve query with
  | error cause =>
    rw [subscribe_of_error hresolve]
    simp [Except.mapError, eq_comm]
  | ok found => cases found <;> simp [subscribe, hresolve, Except.mapError]

/-- Where there is a document, there is a store. -/
theorem lt_size_of_rootTree? {tree : Tree CellId} (h : (w.store k).rootTree? = some tree) :
    k < w.stores.size := by
  refine Nat.lt_of_not_le fun hle => ?_
  rw [Universe.store, Array.getElem?_eq_none hle] at h
  cases h

end Store

namespace Universe

theorem setStore_eq_self_iff (hk : k < w.stores.size) : w.setStore k s = w ↔ s = w.store k := by
  constructor
  · intro h
    rw [← w.store_setStore_self hk s, h]
  · rintro rfl
    exact w.setStore_store k

/-- **At every moment of every run, a subscription is refused exactly if there is a document and its
query fails in it. A refusal changes nothing but that the subscription is no longer among those that
wait; so it leaves all subscriptions as they are if and only if this one was not waiting.** -/
theorem Reached.refused_subscription {react : ListenerId → Change → Client} {note depth : Nat}
    (h : u.Reached (Client.reacting react note depth)) (hw : u.Passed w.stores) (k : StoreId)
    (query : String) (listener : ListenerId) (listeners : Listeners Journal) :
    let registry := (w.store k).registry
    let waiting : Subscription := ⟨listener, query⟩
    let result := ((Operation.subscribe k query listener).perform listeners).run w
    (∀ e, result.1 = .error e ↔ ∃ tree cause, (w.store k).rootTree? = some tree ∧
      tree.search query = .error cause ∧ e = .path cause) ∧
    ∀ e, result.1 = .error e →
      result.2 = w.setStore k { w.store k with
        registry := { registry with pending := registry.pending.erase waiting } } ∧
      (result.2.store k).registry.registered = registry.registered ∧
      (result.2.store k).registry.pending = registry.pending.erase waiting ∧
      (result.2 = w ↔ waiting ∉ registry.pending) := by
  intro registry waiting result
  have steady : w.Steady Policy.free := h.stepwise_free.seen hw
  have refused : ∀ e, result.1 = .error e ↔
      ∃ cause, (w.store k).resolve query = .error cause ∧ e = .path cause :=
    fun e => Store.subscribeIn_eq_error_iff
  constructor
  · intro e
    rw [refused]
    constructor
    · rintro ⟨cause, hresolve, rfl⟩
      obtain ⟨tree, hroot, hsearch⟩ := Store.resolve_eq_error_iff.mp hresolve
      exact ⟨tree, cause, hroot, hsearch, rfl⟩
    · rintro ⟨tree, cause, hroot, hsearch, rfl⟩
      exact ⟨cause, Store.resolve_eq_error_iff.mpr ⟨tree, hroot, hsearch⟩, rfl⟩
  · intro e he
    obtain ⟨cause, hresolve, -⟩ := (refused e).mp he
    obtain ⟨tree, hroot, -⟩ := Store.resolve_eq_error_iff.mp hresolve
    have hk := Store.lt_size_of_rootTree? hroot
    have after : result.2 = w.setStore k { w.store k with
        registry := { registry with pending := registry.pending.erase waiting } } := by
      have hrun : result = _ := Store.subscribeIn_run k query listener w
      rw [hrun, Store.subscribe_of_error hresolve,
        (steady k).registry.removePending_eq_erase waiting]
    refine ⟨after, ?_, ?_, ?_⟩
    · rw [after, store_setStore_self hk]
    · rw [after, store_setStore_self hk]
    · rw [after, setStore_eq_self_iff hk]
      constructor
      · intro hstore hmem
        have hpending : registry.pending.erase waiting = registry.pending :=
          congrArg (fun s => s.registry.pending) hstore
        have hnodup := (steady k).registry.pending
        exact (hnodup.mem_erase_iff.mp (hpending ▸ hmem)).1 rfl
      · intro hmem
        rw [List.erase_of_not_mem hmem]

/-- Asks for the members of the root whose own member `b` has a member `c`. -/
def grandchild : String := "$[?(@.b.c)]"

/-- Writes the member `a` of the root. -/
def memberOverwrite (document : Document) : Operation :=
  .set ⟨0, 2⟩ (.name "a") (.plain document)

/-- What the query asks for. -/
def grandchildHolder : Document where
  json := .object [("b", .object [("c", .object [])])]
  wellFormed := by simp [Json.WellFormed, Json.MembersWellFormed, Members.names]

/-- Listener `7` waits for a grandchild; then the member `a` loses its own member `b`, without which
the query fails. -/
def afterEmptying : Universe Journal :=
  afterLoad.after (recording 0) [.subscribe 0 grandchild 7, memberOverwrite .empty]

theorem reached_afterEmptying : afterEmptying.Reached (recording 0) :=
  .next (.next reached_afterLoad (.subscribe 0 grandchild 7))
    (memberOverwrite .empty)

/-- What the query fails with at the empty member. -/
def missingMember : StoreError :=
  .path ⟨.inExpression "@.b.c" (.noProperties "undefined" "c"), ⟨4, 9⟩⟩

theorem pending_afterEmptying :
    (afterEmptying.store 0).registry.pending = [⟨7, grandchild⟩] := by
  cbv

theorem refused_afterEmptying :
    (((Operation.subscribe 0 grandchild 7).perform (recording 0)).run afterEmptying).1 =
      .error missingMember := by
  cbv

theorem refused_while_waiting :
    (((Operation.subscribe 0 grandchild 7).perform (recording 0)).run afterEmptying).1 =
      .error missingMember ∧
    (afterEmptying.store 0).registry.pending = [⟨7, grandchild⟩] ∧
    ((((Operation.subscribe 0 grandchild 7).perform (recording 0)).run afterEmptying).2.store
      0).registry.pending = (afterEmptying.store 0).registry.pending.erase ⟨7, grandchild⟩ := by
  have hpassed : afterEmptying.Passed afterEmptying.stores := .inl rfl
  obtain ⟨-, refused⟩ :=
    reached_afterEmptying.refused_subscription hpassed 0 grandchild 7 (recording 0)
  obtain ⟨-, -, hpending, -⟩ := refused missingMember refused_afterEmptying
  exact ⟨refused_afterEmptying, pending_afterEmptying, hpending⟩

/-- A repeated subscription that is refused is lost: the listener is not told when the member comes
that it has been waiting for, of which it would have been told without the repetition. -/
theorem lost_by_refusal :
    afterEmptying.Reached (recording 0) ∧
    (((Operation.subscribe 0 grandchild 7).perform (recording 0)).run afterEmptying).1 =
      .error missingMember ∧
    (afterEmptying.store 0).registry.pending = [⟨7, grandchild⟩] ∧
    ((((Operation.subscribe 0 grandchild 7).perform (recording 0)).run afterEmptying).2.store
      0).registry.pending = [] ∧
    (afterEmptying.after (recording 0)
      [memberOverwrite grandchildHolder]).memory.calls.map Prod.fst = [7] ∧
    (afterEmptying.after (recording 0)
      [.subscribe 0 grandchild 7, memberOverwrite grandchildHolder]).memory.calls = [] := by
  refine ⟨reached_afterEmptying, refused_afterEmptying, pending_afterEmptying, ?_, ?_, ?_⟩
  · cbv
  · cbv
  · cbv

end Universe

end LiveJson

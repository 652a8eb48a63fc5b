import LiveJson.Proofs.Run.Recorded

/-! # What an operation does

With listeners that only record, an operation changes at most the store that it works on, and the
calls that it makes follow from what becomes of that store. Whatever is to be said about single
operations is said by cases on their effects. -/

namespace LiveJson

open Store (Policy)

variable {A : Policy} {u v : Universe Journal} {k : StoreId} {reach : Nat} {s : Store}
  {ref : CellRef} {key : Key} {value : Value}

namespace Universe

@[simp] theorem tell_nil (u : Universe Journal) : u.tell [] = u := rfl

end Universe

/-- The store with a listener, or none, behind what is written. -/
def Store.onBehalf (s : Store) (origin : Option ListenerId) : Store := { s with origin }

namespace Store

/-- Where something is located, there is a store. -/
theorem lt_size_of_locate {path : String} {located : CellId × String}
    (h : (u.store k).locate path = .ok located) : k < u.stores.size := by
  refine Nat.lt_of_not_le fun hle => ?_
  rw [Universe.store, Array.getElem?_eq_none hle] at h
  simp only [locate] at h
  split at h
  · cases h
  · split at h
    · cases h
    · cases h

/-- A change that finds its location is a write with a listener behind it for as long as it
takes. -/
theorem change_run_of_locate {path : String} {located : CellId × String}
    (h : (u.store k).locate path = .ok located) (listeners : Listeners Journal) (node : Node)
    (origin : Option ListenerId) : (change listeners k path node origin).run u =
      let written := (write listeners ⟨k, located.1⟩ (.name located.2) node).run
        (u.setStore k ((u.store k).onBehalf origin))
      (written.1, written.2.setStore k ((written.2.store k).onBehalf (u.store k).origin)) := by
  rw [change_run, h]
  rfl

theorem recorded_change (reach : Nat) (value : Value) (hu : u.Steady A) {path name : String}
    {id : CellId} {edit : Edit} {origin : Option ListenerId}
    (hlocate : (u.store k).locate path = .ok (id, name))
    (h : ((u.store k).onBehalf origin).set id (.name name) (u.incoming k value.node) =
      .ok (edit, s)) : (change (recording reach) k path value.node origin).run u =
        (.ok (), ((u.setStore k s.promote).tell (s.promote.heardOf k edit)).setStore k
          (s.promote.onBehalf (u.store k).origin)) := by
  have hk := lt_size_of_locate hlocate
  have steady : (u.setStore k ((u.store k).onBehalf origin)).Steady A :=
    hu.setStore ((hu k).step (.origin _))
  have alike : Universe.Alike u (u.setStore k ((u.store k).onBehalf origin)) :=
    Universe.alike_setStore rfl rfl rfl
  have hset : ((u.setStore k ((u.store k).onBehalf origin)).store k).set id (.name name)
      ((u.setStore k ((u.store k).onBehalf origin)).incoming k value.node) = .ok (edit, s) := by
    rw [Universe.store_setStore_self hk, alike.incoming]
    exact h
  have hwrite : (write (recording reach) ⟨k, id⟩ (.name name) value.node).run
      (u.setStore k ((u.store k).onBehalf origin)) = (.ok (),
        ((u.setStore k ((u.store k).onBehalf origin)).setStore k s.promote).tell
          (s.promote.heardOf k edit)) := recorded_write steady hset
  rw [change_run_of_locate hlocate, hwrite, Universe.setStore_setStore]
  dsimp only
  rw [Universe.store_tell, Universe.store_setStore_self hk]

theorem restore_onBehalf (u : Universe Journal) (k : StoreId) (origin : Option ListenerId) :
    let w := u.setStore k ((u.store k).onBehalf origin)
    w.setStore k ((w.store k).onBehalf (u.store k).origin) = u := by
  dsimp only
  rw [Universe.setStore_setStore]
  rcases u.store_setStore k ((u.store k).onBehalf origin) with hs | hs
  · rw [hs]; exact u.setStore_store k
  · rw [hs]; exact u.setStore_store k

/-- A change that is refused leaves nobody behind the writes of its store who was not there. -/
theorem change_run_of_refused {path name : String} {id : CellId} {node : Node}
    {origin : Option ListenerId} {e : StoreError}
    (hlocate : (u.store k).locate path = .ok (id, name))
    (h : ((u.store k).onBehalf origin).set id (.name name) (u.incoming k node) = .error e)
    (listeners : Listeners Journal) :
    (change listeners k path node origin).run u = (.error e, u) := by
  have hk := lt_size_of_locate hlocate
  have alike : Universe.Alike u (u.setStore k ((u.store k).onBehalf origin)) :=
    Universe.alike_setStore rfl rfl rfl
  rw [change_run_of_locate hlocate, write_run, Universe.store_setStore_self hk, alike.incoming, h]
  dsimp only
  rw [restore_onBehalf]

end Store

namespace Operation

/-- The store that an operation works on. -/
def store : Operation → StoreId
  | load k _ | tick k | change k _ _ _ | subscribe k _ _ | unsubscribe k _ _ => k
  | set ref _ _ | push ref _ | delete ref _ => ref.store

/-- The listener behind what an operation writes. -/
def behind {σ : Type} (u : Universe σ) : Operation → Option ListenerId
  | change _ _ _ origin => origin
  | op => (u.store op.store).origin

/-- How an operation ends, what has become of the store that it works on when it makes its calls,
and which calls these are. -/
inductive Effect (u : Universe Journal) :
    Operation → Except StoreError Unit → Store → List Call → Prop
  | refused (op : Operation) (e : StoreError) : Effect u op (.error e) (u.store op.store) []
  | loaded {k : StoreId} {document : Document} {s : Store}
      (h : (u.store k).load document.json = .ok s) : Effect u (.load k document) (.ok ()) s []
  | idle {k : StoreId} (h : (u.store k).reloadDue = false) :
      Effect u (.tick k) (.ok ()) (u.store k) []
  | reported {k : StoreId} (h : (u.store k).reloadDue = true) :
      Effect u (.tick k) (.ok ()) (u.store k).reported.promote
        ((u.store k).reported.promote.heardLoad k)
  | written {op : Operation} {ref : CellRef} {key : Key} {value : Value} {edit : Edit} {s : Store}
      (hop : op.written u.stores = some (ref, key, value))
      (h : ((u.store ref.store).onBehalf (op.behind u)).set ref.cell key
        (u.incoming ref.store value.node) = .ok (edit, s)) :
      Effect u op (.ok ()) s.promote (s.promote.heardOf ref.store edit)
  | missing {ref : CellRef} {key : Key} (h : (u.store ref.store).delete ref.cell key = .ok none) :
      Effect u (.delete ref key) (.ok ()) (u.store ref.store) []
  | removed {ref : CellRef} {key : Key} {removal : Removal} {s : Store}
      (h : (u.store ref.store).delete ref.cell key = .ok (some (removal, s))) :
      Effect u (.delete ref key) (.ok ()) s.promote (s.promote.heardRemoval ref.store removal)
  | subscribed (k : StoreId) (query : String) (listener : ListenerId) :
      Effect u (.subscribe k query listener)
        (((u.store k).subscribe query listener).1.mapError .path)
        ((u.store k).subscribe query listener).2 []
  | unsubscribed (k : StoreId) (query : String) (listener : ListenerId) :
      Effect u (.unsubscribe k query listener)
        (((u.store k).unsubscribe query listener).1.mapError .path)
        ((u.store k).unsubscribe query listener).2 []

variable {op : Operation} {outcome : Except StoreError Unit} {calls : List Call}

theorem store_of_written {stores : Array Store} (h : op.written stores = some (ref, key, value)) :
    op.store = ref.store := by
  cases op with
  | set r k v => cases h; rfl
  | push r v => cases h; rfl
  | change k path v origin =>
    simp only [written] at h
    split at h <;> cases h
    rfl
  | _ => cases h

/-- The operation makes these calls when its store has become `s`, then nobody is behind a write any
more who was not before, and there is nothing else that it does. -/
def Does (reach : Nat) (op : Operation) (u : Universe Journal)
    (outcome : Except StoreError Unit) (s : Store) (calls : List Call) : Prop :=
  (op.perform (recording reach)).run u =
      (outcome, ((u.setStore op.store s).tell calls).setStore op.store
        (s.onBehalf (u.store op.store).origin)) ∧
    op.Effect u outcome s calls

theorem does_of_origin {s : Store} {calls : List Call}
    (h : s.origin = (u.store op.store).origin)
    (hrun : (op.perform (recording reach)).run u =
      (outcome, (u.setStore op.store s).tell calls))
    (effect : op.Effect u outcome s calls) : op.Does reach u outcome s calls := by
  have hs : s.onBehalf (u.store op.store).origin = s := by rw [← h]; rfl
  refine ⟨?_, effect⟩
  have stores := congrArg Universe.stores (u.setStore_setStore op.store s s)
  rw [hrun, hs]
  exact congrArg (fun stores => (outcome, { (u.setStore op.store s).tell calls with stores }))
    stores.symm

theorem does_refused {e : StoreError} (h : (op.perform (recording reach)).run u = (.error e, u)) :
    op.Does reach u (.error e) (u.store op.store) [] :=
  does_of_origin rfl (by rw [Universe.setStore_store]; exact h) (.refused op e)

/-- A write whose store has the listener behind it already, or none. -/
theorem does_write (hu : u.Steady A) (hop : op.written u.stores = some (ref, key, value))
    (horigin : op.behind u = (u.store ref.store).origin)
    (h : (op.perform (recording reach)).run u =
      (Store.write (recording reach) ref key value.node).run u) :
    ∃ outcome s calls, op.Does reach u outcome s calls := by
  cases hset : (u.store ref.store).set ref.cell key (u.incoming ref.store value.node) with
  | error e =>
    refine ⟨_, _, _, does_refused (e := e) ?_⟩
    rw [h, Store.write_run, hset]
  | ok result =>
    obtain ⟨edit, s⟩ := result
    have rest : s.origin = (u.store ref.store).origin := by
      rw [Store.rest_set hset]
    have effect : op.Effect u (.ok ()) s.promote (s.promote.heardOf ref.store edit) := by
      refine .written hop ?_
      rw [horigin]
      exact hset
    refine ⟨_, _, _, does_of_origin ?_ ?_ effect⟩
    · rw [store_of_written hop]
      exact rest
    · rw [h, Store.recorded_write hu hset, store_of_written hop]

theorem does_change (hu : u.Steady A) (path : String) (value : Value)
    (origin : Option ListenerId) :
    ∃ outcome s calls, (change k path value origin).Does reach u outcome s calls := by
  cases hlocate : (u.store k).locate path with
  | error e =>
    refine ⟨_, _, _, does_refused (e := e) ?_⟩
    rw [perform, Store.change_run, hlocate]
  | ok located =>
    obtain ⟨id, name⟩ := located
    have hwritten : (change k path value origin).written u.stores =
        some (⟨k, id⟩, .name name, value) := by
      unfold Universe.store at hlocate
      simp only [written, hlocate]
    cases hset : ((u.store k).onBehalf origin).set id (.name name) (u.incoming k value.node) with
    | error e =>
      exact ⟨_, _, _, does_refused (Store.change_run_of_refused hlocate hset _)⟩
    | ok result =>
      obtain ⟨edit, s⟩ := result
      exact ⟨_, _, _, Store.recorded_change reach value hu hlocate hset, .written hwritten hset⟩

theorem does_push (hu : u.Steady A) (ref : CellRef) (value : Value) :
    ∃ outcome s calls, (push ref value).Does reach u outcome s calls := by
  have hrun := Store.push_run (recording reach) ref value.node u
  split at hrun
  · exact does_write hu rfl rfl hrun
  · exact ⟨_, _, _, does_refused hrun⟩

theorem does_delete (hu : u.Steady A) (ref : CellRef) (key : Key) :
    ∃ outcome s calls, (delete ref key).Does reach u outcome s calls := by
  have hrun := Store.remove_run (recording reach) ref key u
  cases hdelete : (u.store ref.store).delete ref.cell key with
  | error e =>
    rw [hdelete] at hrun
    exact ⟨_, _, _, does_refused hrun⟩
  | ok removed =>
    cases removed with
    | none =>
      rw [hdelete] at hrun
      refine ⟨_, _, _, does_of_origin rfl (hrun.trans ?_) (.missing hdelete)⟩
      rw [store, Universe.setStore_store, Universe.tell_nil]
    | some removed =>
      obtain ⟨removal, s⟩ := removed
      have rest : s.origin = (u.store ref.store).origin := by
        rw [Store.rest_delete hdelete]
      exact ⟨_, _, _, does_of_origin (s := s.promote) rest
        (Store.recorded_remove reach hu hdelete) (.removed hdelete)⟩

theorem does_tick (hu : u.Steady A) (k : StoreId) :
    ∃ outcome s calls, (tick k).Does reach u outcome s calls := by
  cases hdue : (u.store k).reloadDue with
  | false =>
    have hrun := Store.tick_run_of_not_due (recording reach) hdue
    refine ⟨_, _, _, does_of_origin rfl (hrun.trans ?_) (.idle hdue)⟩
    rw [store, Universe.setStore_store, Universe.tell_nil]
  | true =>
    refine ⟨_, _, _, does_of_origin ?_ (Store.recorded_tick reach hu hdue) (.reported hdue)⟩
    rfl

theorem does_load (u : Universe Journal) (k : StoreId) (document : Document) :
    ∃ outcome s calls, (load k document).Does reach u outcome s calls := by
  have hrun := Store.loadIn_run k document.json u
  cases hload : (u.store k).load document.json with
  | error e =>
    rw [hload] at hrun
    exact ⟨_, _, _, does_refused hrun⟩
  | ok s =>
    rw [hload] at hrun
    have rest : s.origin = (u.store k).origin := by
      rw [Store.rest_load hload]
    exact ⟨_, s, [], does_of_origin rest hrun (.loaded hload)⟩

/-- Every operation does something of this kind. -/
theorem exists_does (hu : u.Steady A) (reach : Nat) (op : Operation) :
    ∃ outcome s calls, op.Does reach u outcome s calls := by
  cases op with
  | load k document => exact does_load u k document
  | tick k => exact does_tick hu k
  | set ref key value => exact does_write hu rfl rfl rfl
  | push ref value => exact does_push hu ref value
  | delete ref key => exact does_delete hu ref key
  | change k path value origin => exact does_change hu path value origin
  | subscribe k query listener =>
    exact ⟨_, _, [], does_of_origin ((u.store k).subscribe_origin query listener)
      (Store.subscribeIn_run k query listener u) (.subscribed k query listener)⟩
  | unsubscribe k query listener =>
    exact ⟨_, _, [], does_of_origin ((u.store k).unsubscribe_origin query listener)
      (Store.unsubscribeIn_run k query listener u) (.unsubscribed k query listener)⟩

end Operation

/-! ## What the effects have in common -/

namespace Store

/-- Whoever is called for a path is registered there. -/
theorem registered_of_mem_heard {path : String} {change : Change} {call : Call}
    (h : call ∈ s.heard path change) : call.1 ∈ s.registry.listenersAt path := by
  obtain ⟨id, hid, rfl⟩ := List.mem_map.mp h
  exact (List.mem_filter.mp hid).1

theorem registered_of_mem_heardOf {edit : Edit} {call : Call} (h : call ∈ s.heardOf k edit) :
    ∃ path, call.1 ∈ s.registry.listenersAt path := by
  rcases List.mem_append.mp h with h | h
  · obtain ⟨p, -, h⟩ := List.mem_flatMap.mp h
    exact ⟨_, registered_of_mem_heard h⟩
  · obtain ⟨e, -, h⟩ := List.mem_flatMap.mp h
    exact ⟨_, registered_of_mem_heard h⟩

theorem registered_of_mem_heardRemoval {removal : Removal} {call : Call}
    (h : call ∈ s.heardRemoval k removal) : ∃ path, call.1 ∈ s.registry.listenersAt path := by
  unfold heardRemoval at h
  split at h
  · rcases List.mem_append.mp h with h | h
    · obtain ⟨p, -, h⟩ := List.mem_flatMap.mp h
      exact ⟨_, registered_of_mem_heard h⟩
    · obtain ⟨e, -, h⟩ := List.mem_flatMap.mp h
      unfold heardShift at h
      split at h
      · exact absurd h List.not_mem_nil
      · exact ⟨_, registered_of_mem_heard h⟩
  · exact registered_of_mem_heardOf h

end Store

namespace Operation

variable {op : Operation} {outcome : Except StoreError Unit} {calls : List Call}
  {listener : ListenerId}

/-- The store that an operation works on is the only one that it changes. -/
theorem Does.stores (h : op.Does reach u outcome s calls) :
    ((op.perform (recording reach)).run u).2.stores =
      (u.setStore op.store (s.onBehalf (u.store op.store).origin)).stores := by
  have stores := congrArg Universe.stores
    (u.setStore_setStore op.store s (s.onBehalf (u.store op.store).origin))
  rw [h.1]
  exact stores

/-- The operation leaves the listener registered at the root of store `k` and nowhere else. -/
def Spares (listener : ListenerId) (k : StoreId) : Operation → Prop
  | subscribe j query l => l = listener → j = k ∧ query = "$"
  | unsubscribe _ _ l => l ≠ listener
  | _ => True

/-- Whoever is called is registered. -/
theorem Effect.registered (h : op.Effect u outcome s calls) :
    ∀ call ∈ calls, ∃ path, call.1 ∈ s.registry.listenersAt path := by
  intro call hcall
  cases h with
  | reported h =>
    obtain ⟨path, -, hcall⟩ := List.mem_flatMap.mp hcall
    exact ⟨_, Store.registered_of_mem_heard hcall⟩
  | written hop h => exact Store.registered_of_mem_heardOf hcall
  | removed h => exact Store.registered_of_mem_heardRemoval hcall
  | _ => exact absurd hcall List.not_mem_nil

theorem legal_onBehalf (hu : u.Steady A) (k : StoreId) (value : Value)
    (origin : Option ListenerId) :
    ((u.store k).onBehalf origin).Legal (u.incoming k value.node) := by
  have legal := hu.legal k value
  cases hincoming : u.incoming k value.node with
  | move x => rw [hincoming] at legal; exact legal
  | copy v => rw [hincoming] at legal; exact legal

/-- What a write leaves alone, and the listener behind it. -/
theorem rest_written {id : CellId} {edit : Edit} {origin : Option ListenerId}
    (h : ((u.store k).onBehalf origin).set id key (u.incoming k value.node) = .ok (edit, s)) :
    s = { u.store k with cells := s.cells, origin } :=
  Store.rest_set h

theorem Effect.origin (h : op.Effect u outcome s calls) :
    s.origin = (u.store op.store).origin ∨ s.origin = op.behind u := by
  cases h with
  | @loaded k document s h =>
    have rest := Store.rest_load h
    exact Or.inl (by rw [rest]; rfl)
  | @written op ref key value edit s hop h =>
    have rest : s.origin = op.behind u := by rw [rest_written h]
    exact Or.inr rest
  | @removed ref key removal s h =>
    have rest : s.origin = (u.store ref.store).origin := by
      rw [Store.rest_delete h]
    exact Or.inl rest
  | subscribed k query listener => exact Or.inl ((u.store k).subscribe_origin query listener)
  | unsubscribed k query listener => exact Or.inl ((u.store k).unsubscribe_origin query listener)
  | _ => exact Or.inl rfl

/-- A listener that is spared stays registered at the root. -/
theorem Effect.knows (h : op.Effect u outcome s calls) (hu : u.Steady A)
    (hop : op.Spares listener k) (hroot : (u.store k).resolve "$" = .ok (some "$"))
    (hknows : (u.store op.store).registry.Knows listener fun path => op.store = k ∧ path = "$") :
    s.registry.Knows listener fun path => op.store = k ∧ path = "$" := by
  cases h with
  | @loaded j document s h =>
    rw [Store.rest_load h]
    exact hknows
  | reported h => exact Store.knows_promote hknows
  | @written op ref key value edit s hw h =>
    refine Store.knows_promote ?_
    rw [rest_written h, store_of_written hw]
    rw [store_of_written hw] at hknows
    exact hknows
  | @removed ref key removal s h =>
    refine Store.knows_promote ?_
    rw [Store.rest_delete h]
    exact hknows
  | subscribed j query l =>
    by_cases hl : l = listener
    · obtain ⟨hj, rfl⟩ := hop hl
      subst hl hj
      refine (Store.knows_subscribe_self hknows hroot).congr fun path => ?_
      simp only [store, true_and, eq_comm (a := "$"), or_self]
    · exact Store.knows_subscribe hknows query hl
  | unsubscribed j query l => exact Store.knows_unsubscribe hknows (hu j).registry query hop
  | _ => exact hknows

theorem Effect.reachable (h : op.Effect u outcome s calls) (hu : u.Steady Policy.free) :
    s.Reachable Policy.free := by
  have now := hu op.store
  cases h with
  | @loaded k document s h => exact now.step (.load document.wellFormed h)
  | reported h => exact (now.step .reported).step .promote
  | @written op ref key value edit s hop h =>
    rw [store_of_written hop] at now
    have behalf := now.step (.origin (op.behind u))
    exact (behalf.step (.set (legal_onBehalf hu _ _ _) (fun _ _ => trivial) h)).step .promote
  | removed h => exact (now.step (.delete h)).step .promote
  | subscribed k query listener => exact now.step (.subscribe query listener)
  | unsubscribed k query listener => exact now.step (.unsubscribe query listener)
  | _ => exact now

end Operation

/-! ## Whole operations -/

namespace Universe

/-- The event is recorded. -/
def note (u : Universe Journal) (event : Event) : Universe Journal :=
  { u with memory := ⟨event, u.stores⟩ :: u.memory }

end Universe

theorem Operation.run_eq (listeners : Listeners Journal) (op : Operation) (u : Universe Journal) :
    ((op.run listeners).run u).2 =
      let performed := (op.perform listeners).run (u.note (.began op))
      performed.2.note (.ended op performed.1) := rfl

namespace Universe

theorem Reached.steady (h : u.Reached (recording reach)) : u.Steady Policy.free :=
  h.stepwise_free.steady

/-- Between operations nobody is behind a write. -/
theorem Reached.origin (h : u.Reached (recording reach)) (j : StoreId) :
    (u.store j).origin = none := by
  induction h generalizing j with
  | start count =>
    rw [Universe.store_start]
  | @next u h op ih =>
    have steady : (u.note (.began op)).Steady Policy.free := h.steady
    obtain ⟨outcome, s, calls, does⟩ := op.exists_does steady reach
    have hstore := Universe.store_congr (k := j) does.stores
    rcases (u.note (.began op)).store_setStore_cases op.store
      (s.onBehalf ((u.note (.began op)).store op.store).origin) j with hj | ⟨-, hj⟩
    · exact (congrArg Store.origin (hstore.trans hj)).trans (ih j)
    · exact (congrArg Store.origin (hstore.trans hj)).trans (ih op.store)

end Universe

end LiveJson

import LiveJson.Proofs.Registry
import LiveJson.Proofs.Store.Step

/-! # Listening in a reachable store

Only subscribing, unsubscribing and promoting touch the registry, and they keep it well-formed. -/

namespace LiveJson.Store

variable {A : Policy} {s t : Store}

theorem resolve_canonical {query path : String} (h : s.resolve query = .ok (some path)) :
    ∃ p : Path, path = p.toText := by
  unfold resolve at h
  split at h
  · cases h
  · next t ht =>
    obtain ⟨ms, -, h⟩ := bind_eq_ok.mp h
    obtain ⟨m, -, hm⟩ := Option.map_eq_some_iff.mp (Except.ok.inj h)
    exact ⟨m.path, hm.symm⟩

theorem resolve_frame (hc : t.cells = s.cells) (hr : t.root = s.root) : t.resolve = s.resolve := by
  funext query
  rw [resolve, resolve, rootTree?, rootTree?, tree_frame hc, hr]

theorem wellFormed_promoteOne {query : String} {r : Registry} (hr : r.WellFormed)
    (subscription : Subscription) :
    (promoteOne (s.resolve query) r subscription).WellFormed := by
  unfold promoteOne
  split
  · next path h =>
    obtain ⟨p, rfl⟩ := resolve_canonical h
    exact hr.add p subscription
  · exact hr.addPending subscription

theorem wellFormed_promote (hr : s.registry.WellFormed) : s.promote.registry.WellFormed := by
  have hfold : ∀ (subscriptions : List Subscription) (r : Registry), r.WellFormed →
      (subscriptions.foldl (fun r sub => promoteOne (s.resolve sub.query) r sub) r).WellFormed := by
    intro subscriptions
    induction subscriptions with
    | nil => exact fun r hr => hr
    | cons sub subscriptions ih => exact fun r hr => ih _ (wellFormed_promoteOne hr sub)
  exact hfold _ _ ⟨hr.canonical, hr.distinct, hr.listened, hr.once, List.nodup_nil⟩

theorem wellFormed_subscribe (hr : s.registry.WellFormed) (query : String)
    (listener : ListenerId) : (s.subscribe query listener).2.registry.WellFormed := by
  have hrest := hr.removePending { listener, query }
  unfold subscribe
  dsimp only
  split
  · exact hrest
  · next path h =>
    obtain ⟨p, rfl⟩ := resolve_canonical h
    exact hrest.add p _
  · exact hrest.addPending _

/-- A store where no subscription waits has nothing to promote. -/
theorem promote_of_settled (h : s.registry.pending = []) : s.promote = s := by
  obtain ⟨cells, root, ⟨registered, pending⟩, origin⟩ := s
  cases h
  rfl

theorem subscribe_of_settled {query path : String} (listener : ListenerId)
    (h : s.resolve query = .ok (some path)) (settled : s.registry.pending = []) :
    (s.subscribe query listener).2 =
      { s with registry := s.registry.add path { listener, query } } := by
  have same : s.registry.removePending { listener, query } = s.registry := by
    rw [Registry.removePending, settled, List.filter_nil, ← settled]
  rw [subscribe, h, same]

theorem wellFormed_unsubscribe (hr : s.registry.WellFormed) (query : String)
    (listener : ListenerId) : (s.unsubscribe query listener).2.registry.WellFormed := by
  have hrest := hr.removePending { listener, query }
  unfold unsubscribe
  dsimp only
  split
  · exact hrest
  · exact hrest.remove _ _
  · exact hrest

theorem Step.registry (h : Step A s t) (hr : s.registry.WellFormed) :
    t.registry.WellFormed := by
  have of_surroundings : t.surroundings = s.surroundings → t.registry.WellFormed := by
    intro h
    rw [show t.registry = s.registry from congrArg Prod.fst h]
    exact hr
  cases h with
  | load _ h => exact of_surroundings (surroundings_load h)
  | set _ _ h => exact of_surroundings (surroundings_set h)
  | delete h => exact of_surroundings (surroundings_delete h)
  | promote => exact wellFormed_promote hr
  | subscribe query listener => exact wellFormed_subscribe hr query listener
  | unsubscribe query listener => exact wellFormed_unsubscribe hr query listener
  | origin _ => exact hr
  | reported => exact hr
  | fetching _ => exact hr

theorem Reachable.registry (h : s.Reachable A) : s.registry.WellFormed := by
  induction h with
  | empty => exact Registry.wellFormed_empty
  | step hs h ih => exact h.registry ih

/-! ## Promotion -/

/-- The waiting listeners of `s` whose queries find the path in `t`. -/
def arrivals (s t : Store) (path : String) : List ListenerId :=
  (s.registry.pending.filter fun sub => t.resolve sub.query = .ok (some path)).map (·.listener)

theorem promoteOne_listenersAt (resolved : Except PathError (Option String)) (r : Registry)
    (sub : Subscription) (path : String) :
    (promoteOne resolved r sub).listenersAt path =
      if resolved = .ok (some path) then Registry.joined (r.listenersAt path) [sub.listener]
      else r.listenersAt path := by
  have waits : (r.addPending sub).listenersAt path = r.listenersAt path := by
    unfold Registry.addPending
    split <;> rfl
  cases resolved with
  | error e => rw [if_neg (by intro h; cases h)]; exact waits
  | ok found =>
    cases found with
    | none => rw [if_neg (by intro h; cases h)]; exact waits
    | some found =>
      rw [promoteOne, Registry.listenersAt_add]
      exact if_congr (by simp) rfl rfl

/-- Promotion registers the listeners whose queries resolve now, behind those already there. -/
theorem promote_listenersAt (s : Store) (path : String) : s.promote.registry.listenersAt path =
    Registry.joined (s.registry.listenersAt path) (arrivals s s path) := by
  have fold : ∀ (subs : List Subscription) (r : Registry),
      (subs.foldl (fun r sub => promoteOne (s.resolve sub.query) r sub) r).listenersAt path =
        Registry.joined (r.listenersAt path)
          ((subs.filter fun sub => s.resolve sub.query = .ok (some path)).map (·.listener)) := by
    intro subs
    induction subs with
    | nil => exact fun r => rfl
    | cons sub subs ih =>
      intro r
      rw [List.foldl_cons, ih, promoteOne_listenersAt, List.filter_cons]
      by_cases h : s.resolve sub.query = .ok (some path)
      · rw [if_pos h, if_pos (decide_eq_true h)]
        rfl
      · rw [if_neg h, if_neg (by simpa using h)]
  exact fold s.registry.pending { s.registry with pending := [] }

/-! ## One listener -/

section
variable {listener : ListenerId} {P : String → Prop}

theorem knows_promoteOne {resolved : Except PathError (Option String)} {r : Registry}
    {sub : Subscription} (h : r.Knows listener P) (hs : sub.listener ≠ listener) :
    (promoteOne resolved r sub).Knows listener P := by
  unfold promoteOne
  split
  · exact h.add hs
  · exact h.addPending hs

theorem knows_promote (h : s.registry.Knows listener P) :
    s.promote.registry.Knows listener P := by
  have fold : ∀ (subs : List Subscription) (r : Registry), r.Knows listener P →
      (∀ sub ∈ subs, sub.listener ≠ listener) →
      (subs.foldl (fun r sub => promoteOne (s.resolve sub.query) r sub) r).Knows listener P := by
    intro subs
    induction subs with
    | nil => exact fun r hr _ => hr
    | cons sub subs ih =>
      intro r hr hsubs
      refine ih _ (knows_promoteOne hr (hsubs sub List.mem_cons_self)) fun sub hs => ?_
      exact hsubs sub (List.mem_cons_of_mem _ hs)
  exact fold _ _ ⟨h.listens, fun _ hs => absurd hs List.not_mem_nil⟩ h.settled

theorem knows_subscribe (h : s.registry.Knows listener P) (query : String) {l : ListenerId}
    (hl : l ≠ listener) : (s.subscribe query l).2.registry.Knows listener P := by
  have hrest := h.removePending { listener := l, query }
  unfold subscribe
  dsimp only
  split
  · exact hrest
  · exact hrest.add hl
  · exact hrest.addPending hl

theorem knows_subscribe_self {query path : String} (h : s.registry.Knows listener P)
    (hquery : s.resolve query = .ok (some path)) :
    (s.subscribe query listener).2.registry.Knows listener fun other => P other ∨ path = other := by
  unfold subscribe
  rw [hquery]
  exact (h.removePending _).join path query

theorem knows_unsubscribe (h : s.registry.Knows listener P) (hr : s.registry.WellFormed)
    (query : String) {l : ListenerId} (hl : l ≠ listener) :
    (s.unsubscribe query l).2.registry.Knows listener P := by
  have hrest := h.removePending { listener := l, query }
  unfold unsubscribe
  dsimp only
  split
  · exact hrest
  · exact hrest.remove (hr.removePending _) hl
  · exact hrest

end

/-! ## Elements that move up -/

/-- What is told about the elements that move up concerns listened paths that run through them. -/
theorem mem_listenedFrom {path : Path} {start : Nat} {shifted : List (String × Option Slot)}
    (h : s.listenedFrom path start = .ok shifted) : ∀ e ∈ shifted, e.1 ∈ s.registry.paths ∧
      (elementIndex? path.toText e.1).any (start ≤ ·) = true := by
  have looked : ∀ (paths : List String) {out : List (String × Option Slot)},
      (paths.mapM fun path => (s.lookup path).map fun slot => (path, slot)) = .ok out →
      ∀ e ∈ out, e.1 ∈ paths := by
    intro paths
    induction paths with
    | nil => intro out h; cases h; exact fun e he => absurd he List.not_mem_nil
    | cons path paths ih =>
      intro out h
      rw [List.mapM_cons] at h
      obtain ⟨first, hfirst, h⟩ := bind_eq_ok.mp h
      obtain ⟨rest, hrest, h⟩ := bind_eq_ok.mp h
      cases h
      intro e he
      rcases List.mem_cons.mp he with rfl | he
      · cases hlookup : s.lookup path with
        | error e => rw [hlookup] at hfirst; cases hfirst
        | ok slot => rw [hlookup] at hfirst; cases hfirst; exact List.mem_cons_self
      · exact List.mem_cons_of_mem _ (ih hrest e he)
  exact fun e he => List.mem_filter.mp (looked _ h e he)

theorem listenedFrom_canonical (hr : s.registry.WellFormed) {path : Path} {start : Nat}
    {shifted : List (String × Option Slot)} (h : s.listenedFrom path start = .ok shifted) :
    ∀ e ∈ shifted, ∃ p : Path, e.1 = p.toText :=
  fun e he => hr.canonical (mem_listenedFrom h e he).1

/-- No element of an array is the root. -/
theorem elementIndex?_root (array : Path) : elementIndex? array.toText "$" = none := by
  have hlong : "$".toList.length ≤ array.toText.toList.length := by
    simp [Path.toText, Path.canonical]
  unfold elementIndex?
  dsimp only
  rw [List.drop_eq_nil_of_le hlong]
  split <;> rfl

end LiveJson.Store

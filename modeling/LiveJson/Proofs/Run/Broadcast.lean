import LiveJson.Proofs.Run.Course
import LiveJson.Proofs.Run.Delivery
import LiveJson.Proofs.Store.Promotion

/-! # Loaded documents are reported once

Loading tells nobody. It leaves a mark, and the next tick of the store takes it away: the waiting
listeners that find something now join the registered ones, and each of these is told once, of the
document as it then is. A tick without a mark does nothing. So however many documents are loaded
between two ticks, there is one report. -/

namespace LiveJson

open Store (Policy)

variable {u v : Universe Journal} {k : StoreId} {reach : Nat}

namespace Registry

variable {r : Registry}

/-- The paths with their listeners, in the order of the registry. -/
def registrations (r : Registry) : List (String × ListenerId) :=
  r.registered.flatMap fun entry => entry.2.map fun sub => (entry.1, sub.listener)

theorem WellFormed.registrations_eq (hr : r.WellFormed) : r.registrations =
    r.paths.flatMap fun path => (r.listenersAt path).map fun listener => (path, listener) := by
  unfold registrations paths Members.names
  rw [List.flatMap_map]
  refine List.flatMap_congr fun entry hentry => ?_
  rw [listenersAt, Members.get?_of_mem hr.distinct hentry, Option.getD_some, List.map_map]
  rfl

theorem WellFormed.nodup_registrations (hr : r.WellFormed) : r.registrations.Nodup := by
  rw [hr.registrations_eq, List.nodup_flatMap]
  constructor
  · exact fun path _ => (hr.nodup_listenersAt path).map fun l l' h => (Prod.mk.inj h).2
  · refine hr.distinct.imp fun {path path'} hne => List.disjoint_left.mpr fun pair h h' => ?_
    obtain ⟨l, -, rfl⟩ := List.mem_map.mp h
    obtain ⟨l', -, heq⟩ := List.mem_map.mp h'
    exact hne (Prod.mk.inj heq).1.symm

end Registry

/-! ## The mark -/

/-- The deed was to replace the document of store `k`, and did. -/
def Turn.Loaded (k : StoreId) (turn : Turn) : Prop := turn.deed.Loads k ∧ turn.outcome = .ok ()

/-- A document was loaded into store `k`, and the store has not ticked since. -/
def LoadedSinceTick (k : StoreId) (turns : List Turn) : Prop :=
  ∃ newer turn older, turns = newer ++ turn :: older ∧ turn.Loaded k ∧
    ∀ t ∈ newer, ¬ t.deed.Ticks k

theorem not_loadedSinceTick_nil : ¬ LoadedSinceTick k [] := by
  rintro ⟨newer, turn, older, h, -⟩
  simp at h

theorem loadedSinceTick_cons {turn : Turn} {turns : List Turn} :
    LoadedSinceTick k (turn :: turns) ↔
      turn.Loaded k ∨ ¬ turn.deed.Ticks k ∧ LoadedSinceTick k turns := by
  constructor
  · rintro ⟨newer, t, older, h, loaded, hnewer⟩
    cases newer with
    | nil =>
      cases h
      exact .inl loaded
    | cons first newer =>
      cases h
      obtain ⟨hfirst, hnewer⟩ := List.forall_mem_cons.mp hnewer
      exact .inr ⟨hfirst, newer, t, older, rfl, loaded, hnewer⟩
  · rintro (loaded | ⟨hturn, newer, t, older, rfl, loaded, hnewer⟩)
    · exact ⟨[], turn, turns, rfl, loaded, fun _ h => absurd h List.not_mem_nil⟩
    · exact ⟨turn :: newer, t, older, rfl, loaded, List.forall_mem_cons.mpr ⟨hturn, hnewer⟩⟩

namespace Deed

variable {deed : Deed}

theorem Loads.store_eq (h : deed.Loads k) : deed.store = k := by
  cases deed with
  | operate op => cases op <;> first | exact h | exact h.elim
  | land j answer => exact h
  | _ => exact h.elim

theorem Ticks.store_eq (h : deed.Ticks k) : deed.store = k := by
  cases deed with
  | operate op => cases op <;> first | exact h | exact h.elim
  | _ => exact h.elim

end Deed

/-- A report is due exactly if a document was loaded since the last tick. -/
theorem Course.reloadDue {count : Nat} {turns : List Turn} (h : Course reach (.start count) turns u)
    (hk : k < count) : (u.store k).reloadDue = true ↔ LoadedSinceTick k turns := by
  induction h with
  | here =>
    rw [Universe.store_start]
    exact iff_of_false nofun not_loadedSinceTick_nil
  | @next turns v h deed ih =>
    have rest := h.atRest (Universe.atRest_start count)
    obtain ⟨outcome, s, calls, does⟩ := deed.exists_does rest.steady reach
    rw [loadedSinceTick_cons, ← ih]
    by_cases hstore : deed.store = k
    · subst hstore
      rw [does.store_self (h.lt_size hk), does.reloadDue, Turn.Loaded, does.outcome_eq]
    · have loads : ¬ deed.Loads k := fun h => hstore h.store_eq
      have ticks : ¬ deed.Ticks k := fun h => hstore h.store_eq
      rw [does.store_of_ne (Ne.symm hstore), or_iff_right fun h => loads h.1, and_iff_right ticks]

/-! ## The report -/

/-- Store `k` reports its document: from `u` to `v` its waiting listeners are promoted, and in `v`
all that are registered are told. -/
structure Broadcasts (u v : Universe Journal) (k : StoreId) : Prop where
  others : ∀ j, j ≠ k → v.store j = u.store j
  /-- Nothing about the store changes but who listens, and no report is due any more. -/
  rest : v.store k = { u.store k with registry := (v.store k).registry, reloadDue := false }
  joined : ∀ path, (v.store k).registry.listenersAt path =
    Registry.joined ((u.store k).registry.listenersAt path)
      (Store.arrivals (u.store k) (u.store k) path)
  waiting : ∀ sub, sub ∈ (v.store k).registry.pending ↔
    sub ∈ (u.store k).registry.pending ∧ ∀ path, ¬ (u.store k).FirstFound sub.query path
  once : (v.store k).registry.registrations.Nodup
  /-- The calls are those due to the registered listeners, one for each in the order of the
  registry, and nothing else happens. -/
  calls : ∃ due : List Due, due.map Due.pair = (v.store k).registry.registrations ∧
    (∀ d ∈ due, ∃ found, (v.store k).select d.path none = .ok found ∧
      d.change = { op := .load, path := d.path, old := none,
                   new := found.map (Node.ofTree k) }) ∧
    v.memory = (due.map fun d => ⟨.told d.listener d.change, v.stores⟩).reverse ++ u.memory

namespace Store

variable {s : Store}

/-- What is told at a listened path is what the path selects. -/
theorem exists_select (hs : s.registry.WellFormed) {path : String} (h : path ∈ s.registry.paths) :
    ∃ found, s.select path none = .ok found ∧
      s.loadOf k path = { op := .load, path, old := none, new := found.map (Node.ofTree k) } := by
  obtain ⟨p, rfl⟩ := hs.canonical h
  obtain ⟨found, hselect, hfound⟩ := s.exists_select_toText p
  refine ⟨found, hselect, ?_⟩
  rw [loadOf, hfound, Option.map_map]
  rfl

/-- What is due when the document of a store is reported. -/
def loadDue (s : Store) (k : StoreId) : List Due :=
  s.registry.registrations.map fun pair => ⟨pair.1, pair.2, s.loadOf k pair.1⟩

theorem heardLoad_eq (hs : s.registry.WellFormed) (horigin : s.origin = none) :
    s.heardLoad k = (s.loadDue k).map Due.call := by
  unfold heardLoad loadDue
  rw [hs.registrations_eq, List.map_flatMap, List.map_flatMap]
  refine List.flatMap_congr fun path _ => ?_
  have everybody : ((s.registry.listenersAt path).filter fun l =>
      (none : Option ListenerId) ≠ some l) = s.registry.listenersAt path :=
    List.filter_eq_self.mpr fun _ _ => rfl
  rw [heard, horigin, everybody, List.map_map, List.map_map]
  rfl

theorem pairs_loadDue (s : Store) (k : StoreId) :
    (s.loadDue k).map Due.pair = s.registry.registrations := by
  rw [loadDue, List.map_map]
  exact List.map_id _

/-- Whoever is told of a document is told what the path selects. -/
theorem selected_of_mem_loadDue (hs : s.registry.WellFormed) :
    ∀ d ∈ s.loadDue k, ∃ found, s.select d.path none = .ok found ∧
      d.change = { op := .load, path := d.path, old := none,
                   new := found.map (Node.ofTree k) } := by
  intro d hd
  obtain ⟨pair, hpair, rfl⟩ := List.mem_map.mp hd
  rw [hs.registrations_eq] at hpair
  obtain ⟨path, hpath, hpair⟩ := List.mem_flatMap.mp hpair
  obtain ⟨listener, -, rfl⟩ := List.mem_map.mp hpair
  exact exists_select hs hpath

/-- A report that is due is made, once. -/
theorem broadcasts_tick (hu : u.AtRest) (h : (u.store k).reloadDue = true) :
    ∃ v, (tick (recording reach) k).run u = (.ok (), v) ∧ Broadcasts u v k := by
  have hk : k < u.stores.size := Universe.lt_size_of_reloadDue h
  have hrun := recorded_tick reach hu.steady h
  generalize hs : (u.store k).reported.promote = s at hrun
  have hstore : ((u.setStore k s).tell (s.heardLoad k)).store k = s := by
    rw [Universe.store_tell, Universe.store_setStore_self hk]
  have registry : s.registry.WellFormed := by
    rw [← hs]
    exact wellFormed_promote (hu.steady k).registry
  have origin : s.origin = none := by
    rw [← hs]
    exact hu.origin k
  refine ⟨_, hrun, ?_⟩
  constructor
  case others => exact fun j hj => Universe.store_setStore_of_ne hj s
  case rest =>
    rw [hstore, ← hs]
    rfl
  case joined =>
    have resolves : (u.store k).reported.resolve = (u.store k).resolve := resolve_frame rfl rfl
    intro path
    rw [hstore, ← hs, promote_listenersAt, arrivals, arrivals, resolves]
    rfl
  case waiting =>
    intro sub
    rw [hstore, ← hs, mem_pending_promote]
    exact and_congr_right fun _ => forall_congr' fun _ => not_congr (firstFound_frame rfl rfl)
  case once =>
    rw [hstore]
    exact registry.nodup_registrations
  case calls =>
    rw [hstore]
    refine ⟨s.loadDue k, s.pairs_loadDue k, selected_of_mem_loadDue registry, ?_⟩
    rw [heardLoad_eq registry origin, Universe.tell, List.map_map]
    rfl

end Store

/-! ## Courses with loads and ticks -/

/-- Loading tells nobody. -/
theorem Deed.Loads.memory_eq {deed : Deed} (h : deed.Loads k) (listeners : Listeners Journal)
    (u : Universe Journal) : ((deed.perform listeners).run u).2.memory = u.memory := by
  have loaded (u : Universe Journal) (j : StoreId) (document : Json) :
      ((Store.loadIn j document).run u).2.memory = u.memory := by
    rw [Store.loadIn_run]
    split <;> rfl
  cases deed with
  | operate op =>
    cases op with
    | load j document => exact loaded u j document.json
    | _ => exact h.elim
  | land j answer =>
    rw [perform, Store.land_run]
    cases answer with
    | error e => rfl
    | ok document => exact loaded _ j document.json
  | _ => exact h.elim

/-- Without a tick nobody is told of a load, whatever else happens. -/
theorem Course.not_load {later : List Turn} (h : Course reach u later v) (hu : u.AtRest)
    (hticks : ∀ turn ∈ later, ∀ j, ¬ turn.deed.Ticks j) :
    ∃ calls, v.memory.calls = u.memory.calls ++ calls ∧ ∀ call ∈ calls, call.2.op ≠ .load := by
  induction h with
  | here => exact ⟨[], (List.append_nil _).symm, fun _ h => absurd h List.not_mem_nil⟩
  | @next later v h deed ih =>
    obtain ⟨hdeed, hlater⟩ := List.forall_mem_cons.mp hticks
    obtain ⟨before, hbefore, hop⟩ := ih hlater
    obtain ⟨outcome, s, calls, does⟩ := deed.exists_does (h.atRest hu).steady reach
    refine ⟨before ++ calls, ?_, fun call hcall => ?_⟩
    · rw [does.calls_eq, hbefore, List.append_assoc]
    · rcases List.mem_append.mp hcall with hcall | hcall
      · exact hop call hcall
      · exact does.not_load (hdeed _) call hcall

/-- **Loading tells nobody, and nothing but a tick tells of a load. In every course a tick does nothing
if no document was loaded since the tick before; any other promotes the waiting listeners that find
something and tells each that is registered then, once, of the document as it is, and the tick that
follows does nothing again.** -/
theorem Course.load_reported_once {count : Nat} {turns : List Turn}
    (h : Course reach (.start count) turns u) (hk : k < count) :
    (∀ deed : Deed, deed.Loads k →
      ((deed.perform (recording reach)).run u).2.memory = u.memory) ∧
    (∀ later v, Course reach u later v → (∀ turn ∈ later, ∀ j, ¬ turn.deed.Ticks j) →
      ∃ calls, v.memory.calls = u.memory.calls ++ calls ∧ ∀ call ∈ calls, call.2.op ≠ .load) ∧
    (¬ LoadedSinceTick k turns → (Store.tick (recording reach) k).run u = (.ok (), u)) ∧
    (LoadedSinceTick k turns → ∃ v, (Store.tick (recording reach) k).run u = (.ok (), v) ∧
      Broadcasts u v k ∧ (Store.tick (recording reach) k).run v = (.ok (), v)) := by
  have rest := h.atRest (Universe.atRest_start count)
  refine ⟨fun deed loads => loads.memory_eq _ u, fun later v course => course.not_load rest,
    fun idle => ?_, fun loaded => ?_⟩
  · have due : (u.store k).reloadDue = false :=
      Bool.eq_false_iff.mpr fun due => idle ((h.reloadDue hk).mp due)
    exact Store.tick_run_of_not_due _ due
  · obtain ⟨v, hrun, broadcasts⟩ := Store.broadcasts_tick rest ((h.reloadDue hk).mpr loaded)
    refine ⟨v, hrun, broadcasts, Store.tick_run_of_not_due _ ?_⟩
    rw [broadcasts.rest]

namespace Universe

def flat : Document where
  json := .object [("a", .bool true)]
  wellFormed := by simp [Json.WellFormed, Json.MembersWellFormed, Members.names]

/-- Listener `7` waits for a document, and two are loaded one after the other. -/
def afterLanding : Universe Journal :=
  let waiting := (((Deed.operate (.subscribe 0 "$" 7)).perform (recording 0)).run (start 1)).2
  let loaded := (((Deed.operate (.load 0 nested)).perform (recording 0)).run waiting).2
  (((Deed.land 0 (.ok flat)).perform (recording 0)).run loaded).2

theorem reported_after_landing : ∃ v,
    (Store.tick (recording 0) 0).run afterLanding = (.ok (), v) ∧
    v.memory.calls = [(7, ⟨.load, "$", none, some (.cell ⟨0, 3⟩)⟩)] ∧
    (Store.tick (recording 0) 0).run v = (.ok (), v) := by
  have course : Course 0 (.start 1) _ afterLanding :=
    .next (.next (.next .here (.operate (.subscribe 0 "$" 7))) (.operate (.load 0 nested)))
      (.land 0 (.ok flat))
  obtain ⟨-, -, -, reported⟩ := course.load_reported_once Nat.one_pos
  obtain ⟨v, hrun, -, again⟩ := reported ⟨[], _, _, rfl, ⟨rfl, rfl⟩, nofun⟩
  have calls : ((Store.tick (recording 0) 0).run afterLanding).2.memory.calls =
      [(7, ⟨.load, "$", none, some (.cell ⟨0, 3⟩)⟩)] := rfl
  rw [hrun] at calls
  exact ⟨v, hrun, calls, again⟩

end Universe

end LiveJson

import LiveJson.Proofs.Match.Plain
import LiveJson.Proofs.Run.Steps
import LiveJson.Proofs.Store.Inside
import LiveJson.Proofs.Store.Listening

/-! # What recording listeners are told

Listeners that only record leave every store as it is, so a report never fails, and what they are
told follows from the stores at its beginning. A report tells a list of calls if it adds them to the
journal, in their order, and does nothing else. -/

namespace LiveJson

variable {u v : Universe Journal} {k : StoreId} {reach : Nat}

/-- A listener and what it is told. -/
abbrev Call := ListenerId × Change

/-- The calls of a journal, first to last. -/
def Journal.calls (journal : Journal) : List Call :=
  journal.reverse.filterMap fun moment =>
    match moment.event with
    | .told listener change => some (listener, change)
    | _ => none

namespace Universe

/-- The calls are recorded, one after the other. -/
def tell (u : Universe Journal) (calls : List Call) : Universe Journal :=
  { u with memory := (calls.map fun c => ⟨.told c.1 c.2, u.stores⟩).reverse ++ u.memory }

theorem store_congr (h : v.stores = u.stores) : v.store k = u.store k := by
  unfold store
  rw [h]

@[simp] theorem stores_tell (calls : List Call) : (u.tell calls).stores = u.stores := rfl

@[simp] theorem store_tell (calls : List Call) : (u.tell calls).store k = u.store k := rfl

theorem tell_append (calls calls' : List Call) :
    u.tell (calls ++ calls') = (u.tell calls).tell calls' := by
  simp [tell]

theorem calls_tell (calls : List Call) :
    (u.tell calls).memory.calls = u.memory.calls ++ calls := by
  have told : ∀ l : List Call, (l.map fun c => (⟨.told c.1 c.2, u.stores⟩ : Moment)).filterMap
      (fun moment => match moment.event with
        | .told listener change => some (listener, change)
        | _ => none) = l := by
    intro l
    induction l with
    | nil => rfl
    | cons c l ih => simp [ih]
  simp only [tell, Journal.calls, List.reverse_append, List.reverse_reverse, List.filterMap_append,
    told]

end Universe

/-! ## Actions that tell -/

namespace Action

variable {α β : Type} {act : Action Journal α} {next : α → Action Journal β} {a : α} {b : β}
  {calls calls' : List Call}

/-- The action makes the calls, comes to `a`, and does nothing else. -/
def Tells (act : Action Journal α) (u : Universe Journal) (calls : List Call) (a : α) : Prop :=
  act.run u = (.ok a, u.tell calls)

theorem tells_pure (a : α) (u : Universe Journal) : Tells (pure a) u [] a := rfl

theorem Tells.bind (h : act.Tells u calls a) (h' : (next a).Tells (u.tell calls) calls' b) :
    (act >>= next).Tells u (calls ++ calls') b := by
  unfold Tells at *
  rw [run_bind, h, u.tell_append]
  exact h'

theorem tells_getStore {next : Store → Action Journal β}
    (h : (next (u.store k)).Tells u calls b) : (getStore k >>= next).Tells u calls b := h

theorem tells_forM {next : β → Action Journal PUnit} {calls : β → List Call} :
    ∀ (l : List β) (u : Universe Journal),
      (∀ b ∈ l, ∀ v : Universe Journal, v.stores = u.stores → (next b).Tells v (calls b) ⟨⟩) →
      (l.forM next).Tells u (l.flatMap calls) ⟨⟩
  | [], u, _ => tells_pure _ u
  | b :: l, u, h => by
    rw [List.flatMap_cons]
    refine (h b List.mem_cons_self u rfl).bind (tells_forM l _ fun b hb v hv => ?_)
    exact h b (List.mem_cons_of_mem _ hb) v hv

end Action

/-! ## Reports -/

namespace Store

/-- The calls that tell the listeners at a path. -/
def heard (s : Store) (path : String) (change : Change) : List Call :=
  ((s.registry.listenersAt path).filter fun id => s.origin ≠ some id).map fun id => (id, change)

theorem heard_of_not_isListened {s : Store} {path : String}
    (h : s.registry.isListened path = false) (change : Change) : s.heard path change = [] := by
  have hnone : Members.get? path s.registry.registered = none := by
    simpa [Registry.isListened] using h
  simp [heard, Registry.listenersAt, hnone]

theorem tells_dispatch {s : Store} (hu : u.store k = s) (path : String) (change : Change) :
    (dispatch (recording reach) k path change).Tells u (s.heard path change) ⟨⟩ := by
  have each : ∀ l : List ListenerId,
      l.flatMap (fun id => if s.origin = some id then [] else [(id, change)]) =
        (l.filter fun id => s.origin ≠ some id).map fun id => (id, change) := by
    intro l
    induction l with
    | nil => rfl
    | cons id l ih =>
      rw [List.flatMap_cons, ih, List.filter_cons]
      by_cases h : s.origin = some id <;> simp [h]
  refine Action.tells_getStore ?_
  rw [hu, heard, ← each]
  refine Action.tells_forM _ u fun id _ v _ => ?_
  split
  · exact Action.tells_pure _ v
  · rfl

/-- The calls that report a change at a location and at its ancestors. -/
def heardOutward (s : Store) (location : Path) (change : Change) : List Call :=
  (outward location).flatMap fun p => s.heard p.toText change

theorem tells_walk {s : Store} (hu : u.store k = s) (location : Path) (change : Change) :
    (walk (recording reach) k location change).Tells u (s.heardOutward location change) ⟨⟩ :=
  Action.tells_forM _ u fun p _ _ hv =>
    tells_dispatch ((Universe.store_congr hv).trans hu) p.toText change

/-! ## The loss of a subtree -/

/-- What is told when the location of a node is gone. -/
def lossOf (k : StoreId) (entry : Path × Tree CellId) : Change :=
  { op := .delete, path := entry.1.toText, old := some (Node.ofTree k entry.2), new := none }

def heardLoss (s : Store) (k : StoreId) (entry : Path × Tree CellId) : List Call :=
  s.heard entry.1.toText (lossOf k entry)

/-- The action tells the loss of the listed locations, provided that it has told none of them yet,
and notes none but them. -/
def Sweeps (s : Store) (k : StoreId) (act : List String → Action Journal (List String))
    (L : List (Path × Tree CellId)) : Prop :=
  ∀ (v : Universe Journal) (seen : List String), v.store k = s →
    (∀ e ∈ L, e.1.toText ∉ seen) →
    ∃ seen', (act seen).Tells v (L.flatMap (s.heardLoss k)) seen' ∧
      ∀ text ∈ seen', text ∈ seen ∨ ∃ e ∈ L, e.1.toText = text

variable {s : Store} {act act' : List String → Action Journal (List String)}
  {L L' : List (Path × Tree CellId)}

theorem sweeps_nil : Sweeps s k pure [] := fun v seen _ _ =>
  ⟨seen, Action.tells_pure seen v, fun _ h => Or.inl h⟩

theorem Sweeps.append (h : Sweeps s k act L) (h' : Sweeps s k act' L')
    (hL : ((L ++ L').map fun e => e.1.toText).Nodup) :
    Sweeps s k (fun seen => act seen >>= act') (L ++ L') := by
  intro v seen hv hseen
  obtain ⟨seen₁, htold, hnoted⟩ := h v seen hv fun e he => hseen e (List.mem_append_left _ he)
  have hseen₁ : ∀ e ∈ L', e.1.toText ∉ seen₁ := by
    intro e he hm
    rcases hnoted _ hm with hm | ⟨e', he', htext⟩
    · exact hseen e (List.mem_append_right _ he) hm
    · rw [List.map_append] at hL
      exact (List.disjoint_of_nodup_append hL) (List.mem_map.mpr ⟨e', he', htext⟩)
        (List.mem_map.mpr ⟨e, he, rfl⟩)
  obtain ⟨seen₂, htold', hnoted'⟩ := h' (v.tell _) seen₁ hv hseen₁
  refine ⟨seen₂, ?_, fun text hm => ?_⟩
  · rw [List.flatMap_append]
    exact htold.bind htold'
  · rcases hnoted' text hm with hm | ⟨e, he, htext⟩
    · rcases hnoted text hm with hm | ⟨e, he, htext⟩
      · exact Or.inl hm
      · exact Or.inr ⟨e, List.mem_append_left _ he, htext⟩
    · exact Or.inr ⟨e, List.mem_append_right _ he, htext⟩

/-- Telling the loss of a location where anybody listens, and then of those below it. -/
theorem Sweeps.visit (entry : Path × Tree CellId) (h : Sweeps s k act L)
    (hL : ∀ e ∈ L, e.1.toText ≠ entry.1.toText) :
    Sweeps s k (fun seen => do
      let now ← Action.getStore k
      let due := now.registry.isListened entry.1.toText && !seen.contains entry.1.toText
      if due then dispatch (recording reach) k entry.1.toText (lossOf k entry)
      act (if due then entry.1.toText :: seen else seen)) (entry :: L) := by
  intro v seen hv hseen
  have hnew := hseen entry List.mem_cons_self
  have hrest : ∀ e ∈ L, e.1.toText ∉ seen := fun e he => hseen e (List.mem_cons_of_mem _ he)
  have hdue : ((v.store k).registry.isListened entry.1.toText &&
      !seen.contains entry.1.toText) = s.registry.isListened entry.1.toText := by
    rw [hv]
    simp [hnew]
  rw [List.flatMap_cons]
  cases hlistened : s.registry.isListened entry.1.toText with
  | true =>
    have hseen' : ∀ e ∈ L, e.1.toText ∉ entry.1.toText :: seen := by
      intro e he hm
      rcases List.mem_cons.mp hm with htext | hm
      · exact hL e he htext
      · exact hrest e he hm
    obtain ⟨seen', htold, hnoted⟩ := h (v.tell (s.heardLoss k entry)) _ hv hseen'
    refine ⟨seen', Action.tells_getStore ?_, fun text hm => ?_⟩
    · dsimp only
      rw [hdue, hlistened, if_pos rfl, if_pos rfl]
      exact (tells_dispatch hv entry.1.toText (lossOf k entry)).bind htold
    · rcases hnoted text hm with hm | ⟨e, he, htext⟩
      · rcases List.mem_cons.mp hm with rfl | hm
        · exact Or.inr ⟨entry, List.mem_cons_self, rfl⟩
        · exact Or.inl hm
      · exact Or.inr ⟨e, List.mem_cons_of_mem _ he, htext⟩
  | false =>
    obtain ⟨seen', htold, hnoted⟩ := h v seen hv hrest
    refine ⟨seen', Action.tells_getStore ?_, fun text hm => ?_⟩
    · dsimp only
      rw [hdue, hlistened, if_neg Bool.false_ne_true, if_neg Bool.false_ne_true, heardLoss,
        heard_of_not_isListened hlistened]
      exact htold
    · rcases hnoted text hm with hm | ⟨e, he, htext⟩
      · exact Or.inl hm
      · exact Or.inr ⟨e, List.mem_cons_of_mem _ he, htext⟩

theorem sweeps_foldlM {α : Type} {step : List String → α → Action Journal (List String)}
    {locations : α → List (Path × Tree CellId)} :
    ∀ entries : List α, (∀ a ∈ entries, Sweeps s k (fun seen => step seen a) (locations a)) →
      ((entries.flatMap locations).map fun e => e.1.toText).Nodup →
      Sweeps s k (fun seen => entries.foldlM step seen) (entries.flatMap locations)
  | [], _, _ => sweeps_nil
  | a :: entries, h, hL => by
    rw [List.flatMap_cons] at hL ⊢
    have hrest : ((entries.flatMap locations).map fun e => e.1.toText).Nodup := by
      rw [List.map_append] at hL
      exact hL.of_append_right
    simp only [List.foldlM_cons]
    refine (h a List.mem_cons_self).append (sweeps_foldlM entries ?_ hrest) hL
    exact fun b hb => h b (List.mem_cons_of_mem _ hb)

theorem Formed.slotOf_tree (hs : s.Formed) {id : CellId} {key : Key} {slot : Slot}
    (h : (key, slot) ∈ s.entries id) : slotOf (s.tree slot) = slot := by
  cases slot with
  | scalar v => rw [tree_scalar, slotOf]
  | cell d =>
    have hlt := hs.closed ⟨key, h⟩
    cases hc : s.content? d with
    | none => exact absurd hlt (Nat.not_lt.mpr (content?_eq_none_iff.mp hc))
    | some c => rw [hs.tree_cell hc]; cases c <;> rfl

theorem Formed.sweeps_cascade (hs : s.Formed) : ∀ (n : Nat) (id : CellId), s.Shallow n id →
    ∀ path, Sweeps s k (cascade (recording reach) k n id path) ((s.tree (.cell id)).inside path)
  | 0, id, h, path => by
    rw [inside_of_none (content?_eq_none_iff.mpr h)]
    exact sweeps_nil
  | n + 1, id, h, path => by
    cases hc : s.content? id with
    | none =>
      intro v seen hv _
      have hentries : (v.store k).entries id = [] := by rw [hv, Store.entries, hc]; rfl
      rw [inside_of_none hc]
      refine ⟨seen, ?_, fun _ h => Or.inl h⟩
      refine Action.tells_getStore ?_
      rw [hentries]
      exact Action.tells_pure seen v
    | some c =>
      have hentries : s.entries id = c.entries := by rw [Store.entries, hc]; rfl
      have hnodup := hs.nodup_inside id path
      rw [hs.inside_cell hc] at hnodup ⊢
      intro v seen hv hseen
      show ∃ seen', (((v.store k).entries id).foldlM _ seen : Action Journal _).Tells v _ seen' ∧ _
      rw [hv, hentries]
      refine sweeps_foldlM c.entries (fun entry hentry => ?_) hnodup v seen hv hseen
      obtain ⟨key, slot⟩ := entry
      rw [List.map_flatMap, List.nodup_flatMap] at hnodup
      have hbranch := hnodup.1 (key, slot) hentry
      have hentry : (key, slot) ∈ s.entries id := hentries ▸ hentry
      have hL : ∀ e ∈ (s.tree slot).inside (path ++ [key]),
          e.1.toText ≠ (path ++ [key]).toText := fun e he htext =>
        (List.nodup_cons.mp hbranch).1 (List.mem_map.mpr ⟨e, he, htext⟩)
      have hnode : Node.ofSlot k slot = Node.ofTree k (s.tree slot) := by
        rw [Node.ofTree, hs.slotOf_tree hentry]
      simp only [hnode]
      cases slot with
      | scalar v =>
        rw [tree_scalar] at hL ⊢
        exact Sweeps.visit (path ++ [key], .leaf v) sweeps_nil hL
      | cell d =>
        have hbelow := hs.sweeps_cascade n d (h d ⟨key, hentry⟩) (path ++ [key])
        exact hbelow.visit (path ++ [key], s.tree (.cell d)) hL

/-! ## Whole reports -/

/-- The locations that an edit leaves without a place, with what is there. -/
def lost (s : Store) (edit : Edit) : List (Path × Tree CellId) :=
  match edit.old with
  | some (.cell id) => if orphans edit then (s.tree (.cell id)).inside edit.location else []
  | _ => []

/-- The calls that report an edit. -/
def heardOf (s : Store) (k : StoreId) (edit : Edit) : List Call :=
  s.heardOutward edit.location (changeOf k edit) ++ (s.lost edit).flatMap (s.heardLoss k)

end Store

/-- The universe with the pending subscriptions of a store promoted. -/
def Universe.promoted (u : Universe Journal) (k : StoreId) : Universe Journal :=
  u.setStore k (u.store k).promote

theorem Universe.store_promoted (u : Universe Journal) (k : StoreId) :
    (u.promoted k).store k = (u.store k).promote := by
  simp only [promoted, setStore, store, Array.getElem?_modify, if_pos]
  cases u.stores[k]? <;> rfl

namespace Store

theorem Formed.promote {s : Store} (hs : s.Formed) : s.promote.Formed := hs.frame rfl

/-- What follows in the report of an edit once it has been told outward. -/
def notifyLoss {σ : Type} (listeners : Listeners σ) (k : StoreId) (edit : Edit) :
    Action σ Unit := do
  match edit.old with
  | some (.cell id) =>
    if orphans edit then
      let store ← Action.getStore k
      let _ ← cascade listeners k (store.cells.size + listeners.reach) id edit.location []
  | _ => pure ()

theorem notify_eq {σ : Type} (listeners : Listeners σ) (k : StoreId) (edit : Edit) :
    notify listeners k edit = promoteIn k >>= fun _ =>
      walk listeners k edit.location (changeOf k edit) >>= fun _ => notifyLoss listeners k edit :=
  rfl

theorem tells_notifyLoss {s : Store} (hu : u.store k = s) (hs : s.Formed) (edit : Edit) :
    Action.Tells (notifyLoss (recording reach) k edit) u
      ((s.lost edit).flatMap (s.heardLoss k)) () := by
  unfold notifyLoss lost
  cases edit.old with
  | none => exact Action.tells_pure _ _
  | some old =>
    cases old with
    | scalar v => exact Action.tells_pure _ _
    | cell id =>
      dsimp only
      split
      · have hshallow := (hs.shallow id).mono (Nat.le_add_right _ (recording reach).reach)
        have hall : ∀ e ∈ (s.tree (.cell id)).inside edit.location,
            e.1.toText ∉ ([] : List String) := fun _ _ => List.not_mem_nil
        obtain ⟨seen, htold, -⟩ := hs.sweeps_cascade _ id hshallow edit.location u [] hu hall
        refine Action.tells_getStore ?_
        rw [hu, ← List.append_nil (List.flatMap _ _)]
        exact htold.bind (Action.tells_pure () _)
      · exact Action.tells_pure _ _

theorem tells_notify {s : Store} (hu : (u.store k).promote = s) (hs : s.Formed) (edit : Edit) :
    (notify (recording reach) k edit).run u =
      (.ok (), (u.promoted k).tell (s.heardOf k edit)) := by
  have hstore := (u.store_promoted k).trans hu
  rw [notify_eq]
  refine (tells_walk hstore edit.location (changeOf k edit)).bind (tells_notifyLoss ?_ hs edit)
  rw [Universe.store_tell, hstore]

/-! ## Removed elements and loaded documents -/

/-- The node that a path finds first, if it finds any. -/
def found (s : Store) (path : String) : Option Slot := (s.lookup path).toOption.join

theorem lookup_eq_found (s : Store) (p : Path) : s.lookup p.toText = .ok (s.found p.toText) := by
  obtain ⟨slot, hslot⟩ := s.lookup_toText p
  rw [found, hslot]
  rfl

theorem exists_select_toText (s : Store) (p : Path) : ∃ tree, s.select p.toText none = .ok tree ∧
    s.found p.toText = tree.map slotOf := by
  obtain ⟨tree, hselect, hfound⟩ := map_eq_ok.mp (s.lookup_eq_found p)
  exact ⟨tree, hselect, hfound.symm⟩

/-- What is told when a listened path finds another node than before. -/
def shiftOf (s : Store) (k : StoreId) (before : String × Option Slot) : Change :=
  { op := if (s.found before.1).isSome then .set else .delete, path := before.1,
    old := before.2.map (Node.ofSlot k), new := (s.found before.1).map (Node.ofSlot k) }

/-- The calls for a listened path, by the node that it found before. -/
def heardShift (s : Store) (k : StoreId) (before : String × Option Slot) : List Call :=
  if sameOption (s.found before.1) before.2 then [] else s.heard before.1 (s.shiftOf k before)

/-- The calls that report a removal. -/
def heardRemoval (s : Store) (k : StoreId) (removal : Removal) : List Call :=
  match removal.edit.location.getLast? with
  | some (.index _) =>
    s.heardOutward removal.edit.location (changeOf k removal.edit) ++
      removal.shifted.flatMap (s.heardShift k)
  | _ => s.heardOf k removal.edit

/-- What is told at a listened path when a document was loaded. -/
def loadOf (s : Store) (k : StoreId) (path : String) : Change :=
  { op := .load, path, old := none, new := (s.found path).map (Node.ofSlot k) }

/-- The calls that report a loaded document. -/
def heardLoad (s : Store) (k : StoreId) : List Call :=
  s.registry.paths.flatMap fun path => s.heard path (s.loadOf k path)

/-- Looking up a listened path comes to a result. -/
theorem tells_lookup {s : Store} (hu : u.store k = s) {path : String}
    (hp : ∃ p : Path, path = p.toText) {next : Option Slot → Action Journal PUnit}
    {calls : List Call} (h : (next (s.found path)).Tells u calls ⟨⟩) : Action.Tells (do
      let store ← Action.getStore k
      let slot ← Action.ofPath (store.lookup path)
      next slot) u calls ⟨⟩ := by
  obtain ⟨p, rfl⟩ := hp
  refine Action.tells_getStore ?_
  rw [hu, lookup_eq_found]
  exact h

theorem run_promoteIn (k : StoreId) (u : Universe Journal) :
    (promoteIn k).run u = (.ok (), u.promoted k) := rfl

theorem tells_notifyRemoval {s : Store} (hu : (u.store k).promote = s) {removal : Removal}
    (h : ∀ e ∈ removal.shifted, ∃ p : Path, e.1 = p.toText) :
    (notifyRemoval (recording reach) k removal).run u = (.ok (), (u.promoted k).tell
      (s.heardOutward removal.edit.location (changeOf k removal.edit) ++
        removal.shifted.flatMap (s.heardShift k))) := by
  have hstore := (u.store_promoted k).trans hu
  rw [notifyRemoval, Action.run_bind, run_promoteIn]
  refine (tells_walk hstore _ _).bind (Action.tells_forM _ _ fun e he v hv => ?_)
  have hv : v.store k = s := (Universe.store_congr hv).trans hstore
  refine tells_lookup hv (h e he) ?_
  rw [heardShift]
  split
  · exact Action.tells_pure _ v
  · exact tells_dispatch hv _ _

theorem tells_notifyLoad {s : Store} (reach : Nat) (hu : (u.store k).promote = s)
    (hr : s.registry.WellFormed) :
    (notifyLoad (recording reach) k).run u = (.ok (), (u.promoted k).tell (s.heardLoad k)) := by
  have hstore := (u.store_promoted k).trans hu
  rw [notifyLoad, Action.run_bind, run_promoteIn]
  refine Action.tells_getStore ?_
  rw [hstore]
  refine Action.tells_forM _ _ fun path hpath v hv => ?_
  have hv : v.store k = s := (Universe.store_congr hv).trans hstore
  exact tells_lookup hv (hr.canonical hpath) (tells_dispatch hv _ _)

end Store

end LiveJson

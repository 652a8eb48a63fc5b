import LiveJson.Proofs.Run.Basic
import LiveJson.Proofs.Store.Action

/-! # Runs go by steps

Whatever callers and listeners do, every store at every recorded moment is reached from an empty one
by single steps, as long as the operations that have begun comply with its policy. An action leads
from one state to another if it only adds to the journal and keeps this so; actions that lead can be
put one after the other. -/

namespace LiveJson

open Store (Policy Step Reachable)

variable {A : StoreId → Policy} {J : Journal} {u v w : Universe Journal} {k : StoreId}

namespace Universe

/-- Every store has been reached by steps. -/
def Steady {σ : Type} (A : Policy) (u : Universe σ) : Prop := ∀ k, (u.store k).Reachable A

/-- Every store, now and at every recorded moment, has been reached by steps that its policy
allows. -/
def StepwiseBy (A : StoreId → Policy) (u : Universe Journal) : Prop :=
  ∀ stores, u.Passed stores → ∀ k, ((seen stores).store k).Reachable (A k)

/-- The same, where all stores have one policy. -/
def Stepwise (A : Policy) (u : Universe Journal) : Prop := u.StepwiseBy fun _ => A

theorem Stepwise.seen {A : Policy} (h : u.Stepwise A) {stores : Array Store}
    (hs : u.Passed stores) : (Universe.seen stores).Steady A := h stores hs

theorem Stepwise.steady {A : Policy} (h : u.Stepwise A) : u.Steady A := h.seen (.inl rfl)

theorem StepwiseBy.now (h : u.StepwiseBy A) (k : StoreId) : (u.store k).Reachable (A k) :=
  h u.stores (.inl rfl) k

theorem StepwiseBy.steady (h : u.StepwiseBy A) : u.Steady Policy.free :=
  fun k => (h.now k).mono fun _ _ _ => trivial

theorem StepwiseBy.setStore (h : u.StepwiseBy A) {s : Store} (hs : s.Reachable (A k)) :
    (u.setStore k s).StepwiseBy A := by
  rintro stores (rfl | hbefore) j
  · show ((u.setStore k s).store j).Reachable (A j)
    rcases u.store_setStore_cases k s j with hj | ⟨rfl, hj⟩
    · rw [hj]; exact h.now j
    · rw [hj]; exact hs
  · exact h stores (.inr hbefore) j

/-- The stores as they are, and as they were at the recorded moments, latest first. -/
def states (u : Universe Journal) : List (Array Store) := u.stores :: u.memory.map Moment.stores

/-- From each recorded moment to each later one, every store has gone by steps that its policy
allows. -/
def ChainedBy (A : StoreId → Policy) (u : Universe Journal) : Prop :=
  u.states.Pairwise fun later earlier => ∀ k,
    Relation.ReflTransGen (Step (A k)) ((seen earlier).store k) ((seen later).store k)

/-- `v` has come after `u` in a run whose journal in the end is `J`. -/
structure Leads (A : StoreId → Policy) (J : Journal) (u v : Universe Journal) : Prop where
  grows : u.memory <:+ v.memory
  keeps : v.memory <:+ J → u.StepwiseBy A → v.StepwiseBy A
  chains : v.memory <:+ J → u.StepwiseBy A → u.ChainedBy A → v.ChainedBy A

theorem Leads.refl (u : Universe Journal) : Leads A J u u :=
  ⟨List.suffix_refl _, fun _ h => h, fun _ _ h => h⟩

theorem Leads.trans (h : Leads A J u v) (h' : Leads A J v w) : Leads A J u w where
  grows := h.grows.trans h'.grows
  keeps hw hu := h'.keeps hw (h.keeps (h'.grows.trans hw) hu)
  chains hw hu hc :=
    have hv := h'.grows.trans hw
    h'.chains hw (h.keeps hv hu) (h.chains hv hu hc)

theorem Leads.setStore {s : Store}
    (h : u.memory <:+ J → u.StepwiseBy A → Step (A k) (u.store k) s) :
    Leads A J u (u.setStore k s) where
  grows := List.suffix_refl _
  keeps hJ hu := hu.setStore ((hu.now k).step (h hJ hu))
  chains hJ hu hc := by
    obtain ⟨now, past⟩ := List.pairwise_cons.mp hc
    refine List.pairwise_cons.mpr ⟨fun earlier he j => ?_, past⟩
    show Relation.ReflTransGen _ _ ((u.setStore k s).store j)
    rcases u.store_setStore_cases k s j with hs | ⟨rfl, hs⟩
    · rw [hs]; exact now earlier he j
    · rw [hs]; exact (now earlier he j).tail (h hJ hu)

end Universe

open Universe (StepwiseBy Leads)

/-! ## Actions -/

def Action.Leading (A : StoreId → Policy) (J : Journal) {α : Type} (act : Action Journal α) : Prop :=
  ∀ u, Leads A J u (act.run u).2

namespace Action

variable {α β : Type} {act : Action Journal α} {next : α → Action Journal β}

theorem leading_pure (a : α) : Leading A J (pure a) := fun u => .refl u

theorem leading_throw (e : StoreError) : Leading A J (throw e : Action Journal α) :=
  fun u => .refl u

theorem leads_bind (act : Action Journal α) (h : Leads A J u (act.run u).2)
    (h' : ∀ a v, act.run u = (.ok a, v) → Leads A J v ((next a).run v).2) :
    Leads A J u ((act >>= next).run u).2 := by
  rw [run_bind]
  rcases hr : act.run u with ⟨_ | a, v⟩
  · rw [hr] at h; exact h
  · rw [hr] at h; exact h.trans (h' a v hr)

theorem Leading.bind (h : Leading A J act) (h' : ∀ a, Leading A J (next a)) :
    Leading A J (act >>= next) := fun u => leads_bind act (h u) fun a v _ => h' a v

theorem leading_getStore {next : Store → Action Journal β}
    (h : ∀ u, Leads A J u ((next (u.store k)).run u).2) : Leading A J (getStore k >>= next) := h

theorem leading_ofPath (outcome : Except PathError α) : Leading A J (ofPath outcome) := by
  cases outcome with
  | ok a => exact leading_pure a
  | error e => exact leading_throw _

theorem leading_forM {next : α → Action Journal PUnit} (h : ∀ a, Leading A J (next a)) :
    ∀ l : List α, Leading A J (l.forM next)
  | [] => leading_pure _
  | a :: l => (h a).bind fun _ => leading_forM h l

theorem leading_foldlM {next : β → α → Action Journal β} (h : ∀ b a, Leading A J (next b a)) :
    ∀ (l : List α) (b : β), Leading A J (l.foldlM next b)
  | [], b => leading_pure b
  | a :: l, b => (h b a).bind fun b => leading_foldlM h l b

theorem leading_record (event : Event) : Leading A J (record event) := fun u => by
  refine ⟨List.suffix_cons _ _, fun _ hu => ?_, fun _ _ hc => ?_⟩
  · rintro stores (rfl | ⟨moment, hm, rfl⟩)
    · exact hu u.stores (.inl rfl)
    · rcases List.mem_cons.mp hm with rfl | hm
      · exact hu u.stores (.inl rfl)
      · exact hu moment.stores (.inr ⟨moment, hm, rfl⟩)
  · refine List.pairwise_cons.mpr ⟨fun earlier he k => ?_, hc⟩
    rcases List.mem_cons.mp he with rfl | he
    · exact .refl
    · exact (List.pairwise_cons.mp hc).1 earlier he k

end Action

namespace Universe

theorem incoming_eq_move {node : Node} {x : CellId} :
    u.incoming k node = .move x ↔
      node = .cell ⟨k, x⟩ ∧ ((u.store k).place? x).isSome = true := by
  cases node with
  | plain v => simp [incoming]
  | cell ref =>
    obtain ⟨j, y⟩ := ref
    simp only [incoming]
    split
    · next h =>
      obtain ⟨rfl, hp⟩ := h
      simp only [Incoming.move.injEq, Node.cell.injEq, CellRef.mk.injEq, true_and]
      exact ⟨fun h => ⟨h, h ▸ hp⟩, fun h => h.1⟩
    · next h =>
      simp only [Node.cell.injEq, CellRef.mk.injEq, reduceCtorEq, false_iff]
      intro h
      obtain ⟨⟨rfl, rfl⟩, hp⟩ := h
      exact h ⟨rfl, hp⟩

/-- What a caller writes is legal wherever it is written. -/
theorem Steady.legal {A : Policy} (h : u.Steady A) (k : StoreId) (value : Value) :
    (u.store k).Legal (u.incoming k value.node) := by
  cases value with
  | plain document => exact document.wellFormed
  | cell ref =>
    simp only [Value.node, incoming]
    split
    · next hm => exact Option.isSome_iff_exists.mp hm.2
    · exact (h ref.store).sound.toJson_wellFormed ref.cell

end Universe

/-! ## Operations -/

namespace Store

variable {listeners : Listeners Journal}

theorem leading_promoteIn : (promoteIn k).Leading A J := fun _ => .setStore fun _ _ => .promote

section
variable (hl : ∀ id change, (listeners.tell id change).Leading A J)
include hl

theorem leading_dispatch (path : String) (change : Change) :
    (dispatch listeners k path change).Leading A J := by
  refine Action.leading_getStore fun u => Action.leading_forM (fun id => ?_) _ u
  split
  · exact Action.leading_pure _
  · exact hl id change

theorem leading_walk (location : Path) (change : Change) :
    (walk listeners k location change).Leading A J :=
  Action.leading_forM (fun _ => leading_dispatch hl _ _) _

theorem leading_cascade : ∀ (fuel : Nat) (id : CellId) (path : Path) (seen : List String),
    (cascade listeners k fuel id path seen).Leading A J
  | 0, _, _, seen => Action.leading_pure seen
  | fuel + 1, id, path, seen => by
    refine Action.leading_getStore fun u => Action.leading_foldlM (fun seen entry => ?_) _ _ u
    obtain ⟨key, slot⟩ := entry
    refine Action.leading_getStore fun u => ?_
    cases slot with
    | cell child =>
      dsimp only
      split
      · exact (leading_dispatch hl _ _).bind (fun _ => leading_cascade fuel _ _ _) u
      · exact leading_cascade fuel _ _ _ u
    | scalar _ =>
      dsimp only
      split
      · exact (leading_dispatch hl _ _).bind (fun _ => Action.leading_pure _) u
      · exact .refl u

theorem leading_notify (edit : Edit) : (notify listeners k edit).Leading A J := by
  refine leading_promoteIn.bind fun _ => (leading_walk hl _ _).bind fun _ => ?_
  split
  · split
    · refine Action.leading_getStore fun u => ?_
      exact ((leading_cascade hl _ _ _ _).bind fun _ => Action.leading_pure _) u
    · exact Action.leading_pure _
  · exact Action.leading_pure _

theorem leading_notifyRemoval (removal : Removal) :
    (notifyRemoval listeners k removal).Leading A J := by
  refine leading_promoteIn.bind fun _ => (leading_walk hl _ _).bind fun _ => ?_
  refine Action.leading_forM (fun entry => ?_) _
  refine Action.leading_getStore fun u => (Action.leading_ofPath _).bind (fun new => ?_) u
  split
  · exact Action.leading_pure _
  · exact leading_dispatch hl _ _

theorem leading_notifyLoad : (notifyLoad listeners k).Leading A J := by
  refine leading_promoteIn.bind fun _ => Action.leading_getStore fun u => ?_
  refine Action.leading_forM (fun path => ?_) _ u
  refine Action.leading_getStore fun u => (Action.leading_ofPath _).bind (fun new => ?_) u
  exact leading_dispatch hl _ _

theorem leading_tick : (tick listeners k).Leading A J := by
  refine Action.leading_getStore fun u => ?_
  split
  · refine Action.leads_bind (Action.setStore k _) (.setStore fun _ _ => .reported) ?_
    exact fun _ v _ => leading_notifyLoad hl v
  · exact .refl u

/-- Writing leads on if the policy allows the move, should it be one. -/
theorem leads_write {ref : CellRef} {key : Key} {value : Value}
    (h : u.memory <:+ J → ∀ {x p location}, value = .cell ⟨ref.store, x⟩ →
      (u.store ref.store).place? x = some p →
      (u.store ref.store).keyAt ref.cell key = .ok location → A ref.store p location) :
    Leads A J u ((write listeners ref key value.node).run u).2 := by
  have step : ∀ {edit s}, (u.store ref.store).set ref.cell key (u.incoming ref.store value.node) =
      .ok (edit, s) → u.memory <:+ J → u.StepwiseBy A → Step (A ref.store) (u.store ref.store) s := by
    intro edit s hset hJ hu
    have legal := hu.steady.legal ref.store value
    refine .set legal (fun {x p} hx hp => ?_) hset
    obtain ⟨path, key', c, target, -, -, slot, t, -, rfl, -⟩ := Store.set_eq_ok hset
    obtain ⟨hnode, -⟩ := Universe.incoming_eq_move.mp hx
    cases value with
    | plain document => cases hnode
    | cell r => exact h hJ (by rw [Node.cell.inj hnode]) hp target.keyAt
  unfold write
  refine Action.leads_bind get (.refl u) ?_
  intro _ v heq
  cases heq
  split
  · exact .refl u
  · next edit s hset =>
    exact Action.leads_bind (Action.setStore _ _) (.setStore (step hset))
      fun _ v _ => leading_notify hl edit v

theorem leading_remove (ref : CellRef) (key : Key) : (remove listeners ref key).Leading A J := by
  refine Action.leading_getStore fun u => ?_
  split
  · exact .refl u
  · exact .refl u
  · next removal s hdelete =>
    refine Action.leads_bind (Action.setStore _ _) (.setStore fun _ _ => .delete hdelete)
      fun _ v _ => ?_
    split
    · exact leading_notifyRemoval hl removal v
    · exact leading_notify hl removal.edit v

theorem leads_push {ref : CellRef} {value : Value}
    (h : u.memory <:+ J → ∀ {x p location}, value = .cell ⟨ref.store, x⟩ →
      (u.store ref.store).place? x = some p →
      (u.store ref.store).keyAt ref.cell (.index ((u.store ref.store).length ref.cell)) =
        .ok location → A ref.store p location) :
    Leads A J u ((push listeners ref value.node).run u).2 := by
  unfold push
  refine Action.leads_bind (Action.getStore _) (.refl u) ?_
  intro _ v heq
  cases heq
  split
  · exact leads_write hl h
  · exact .refl u

theorem leads_change {path : String} {value : Value} {origin : Option ListenerId}
    (h : u.memory <:+ J → ∀ {id key x p location}, (u.store k).locate path = .ok (id, key) →
      value = .cell ⟨k, x⟩ → (u.store k).place? x = some p →
      (u.store k).keyAt id (.name key) = .ok location → A k p location) :
    Leads A J u ((change listeners k path value.node origin).run u).2 := by
  unfold change
  refine Action.leads_bind (Action.getStore _) (.refl u) ?_
  intro _ v heq
  cases heq
  split
  · exact .refl u
  · next id key hlocate =>
    refine Action.leads_bind (Action.setStore _ _) (.setStore fun _ _ => .origin origin) ?_
    intro _ v heq
    cases heq
    refine Action.leads_bind (Action.attempt _) (leads_write hl fun hJ {x p location} => ?_)
      fun outcome v _ => ?_
    · rcases u.store_setStore k { u.store k with origin } with hs | hs
      · dsimp only
        rw [hs]
        exact h hJ hlocate
      · dsimp only
        rw [hs]
        exact h hJ hlocate
    · refine Action.leading_getStore (fun v => ?_) v
      refine Action.leads_bind (Action.setStore _ _) (.setStore fun _ _ => .origin _) ?_
      intro _ w heq
      cases heq
      cases outcome <;> exact .refl _

end

theorem leading_loadIn (document : Document) : (loadIn k document.json).Leading A J := by
  refine Action.leading_getStore fun u => ?_
  split
  · next s hload => exact Leads.setStore fun _ _ => .load document.wellFormed hload
  · exact .refl u

theorem leading_subscribeIn (query : String) (listener : ListenerId) :
    (subscribeIn k query listener).Leading A J := by
  refine Action.leading_getStore fun u => ?_
  refine Action.leads_bind (Action.setStore _ _)
    (.setStore fun _ _ => .subscribe query listener) fun _ v _ => ?_
  exact Action.leading_ofPath _ v

theorem leading_unsubscribeIn (query : String) (listener : ListenerId) :
    (unsubscribeIn k query listener).Leading A J := by
  refine Action.leading_getStore fun u => ?_
  refine Action.leads_bind (Action.setStore _ _)
    (.setStore fun _ _ => .unsubscribe query listener) fun _ v _ => ?_
  exact Action.leading_ofPath _ v

end Store

section
variable {listeners : Listeners Journal}
  (hl : ∀ id change, (listeners.tell id change).Leading A J)
include hl

/-- An operation leads on if the policy allows it. -/
theorem Operation.leads_perform (op : Operation) (h : u.memory <:+ J → op.AllowedBy A u.stores) :
    Leads A J u ((op.perform listeners).run u).2 := by
  cases op with
  | load k document => exact Store.leading_loadIn document u
  | tick k => exact Store.leading_tick hl u
  | set ref key value =>
    refine Store.leads_write hl fun hJ {x p location} hvalue hp hk => h hJ _ _ ?_ hp hk
    rw [hvalue]
    rfl
  | push ref value =>
    refine Store.leads_push hl fun hJ {x p location} hvalue hp hk => h hJ _ _ ?_ hp hk
    rw [hvalue]
    rfl
  | delete ref key => exact Store.leading_remove hl ref key u
  | change k path value origin =>
    refine Store.leads_change hl fun hJ {id key x p location} hlocate hvalue hp hk => ?_
    refine h hJ ⟨k, id⟩ (.name key) ?_ hp hk
    unfold Universe.store at hlocate
    simp only [Operation.written, hlocate, hvalue]
  | subscribe k query listener => exact Store.leading_subscribeIn query listener u
  | unsubscribe k query listener => exact Store.leading_unsubscribeIn query listener u

theorem Operation.leading_run (op : Operation) (hJ : J.CompliesBy A) :
    (op.run listeners).Leading A J := by
  intro u
  refine Action.leads_bind (record _) (Action.leading_record _ u) ?_
  intro _ v heq
  cases heq
  refine Action.leads_bind (Action.attempt _) (op.leads_perform hl fun hv => ?_) fun _ v _ =>
    Action.leading_record _ v
  exact hJ _ (hv.subset List.mem_cons_self) op rfl

theorem Client.leading_run (hJ : J.CompliesBy A) : ∀ client : Client,
    (client.run listeners).Leading A J
  | .done => Action.leading_pure _
  | .fail error => Action.leading_throw error
  | .look next => fun u => by
    refine Action.leads_bind get (.refl u) ?_
    intro _ v heq
    cases heq
    exact Client.leading_run hJ (next u) u
  | .take op next => (op.leading_run hl hJ).bind fun _ => Client.leading_run hJ next

end

/-- The free policy allows everything. -/
theorem Journal.compliesBy_free (J : Journal) : Journal.CompliesBy (fun _ => Policy.free) J :=
  fun _ _ _ _ _ _ _ _ _ _ _ _ => trivial

theorem Client.leading_reacting (hJ : J.CompliesBy A) (react : ListenerId → Change → Client)
    (reach : Nat) : ∀ (depth : Nat) (id : ListenerId) (change : Change),
      ((reacting react reach depth).tell id change).Leading A J
  | 0, _, _ => Action.leading_record _
  | depth + 1, id, change =>
    (Action.leading_record _).bind fun _ =>
      (react id change).leading_run (leading_reacting hJ react reach depth) hJ

namespace Universe

@[simp] theorem store_start (count : Nat) (k : StoreId) : (start count).store k = {} := by
  simp only [start, store, Array.getElem?_replicate]
  split <;> rfl

theorem stepwise_start (count : Nat) : (start count).StepwiseBy A := by
  rintro stores (rfl | ⟨moment, hm, -⟩) k
  · have hstore : (seen (start count).stores).store k = {} := store_start count k
    rw [hstore]
    exact .empty
  · cases hm

theorem chained_start (count : Nat) : (start count).ChainedBy A := List.pairwise_singleton _ _

/-- **In a run whose operations comply with the policies, every store at every recorded moment is
reached by steps that its policy allows, from the stores of every moment before.** -/
theorem Reached.stepwiseBy_chainedBy {react : ListenerId → Change → Client} {reach depth : Nat}
    (h : u.Reached (Client.reacting react reach depth)) (hJ : Journal.CompliesBy A u.memory) :
    u.StepwiseBy A ∧ u.ChainedBy A := by
  suffices hs : ∀ J, Journal.CompliesBy A J → u.memory <:+ J → u.StepwiseBy A ∧ u.ChainedBy A from
    hs _ hJ (List.suffix_refl _)
  clear hJ
  intro J hJ hu
  induction h with
  | start count => exact ⟨stepwise_start count, chained_start count⟩
  | @next u h op ih =>
    have lead := op.leading_run (Client.leading_reacting hJ react reach depth) hJ u
    obtain ⟨stepwise, chained⟩ := ih (lead.grows.trans hu)
    exact ⟨lead.keeps hu stepwise, lead.chains hu stepwise chained⟩

theorem Reached.stepwiseBy {react : ListenerId → Change → Client} {reach depth : Nat}
    (h : u.Reached (Client.reacting react reach depth)) (hJ : Journal.CompliesBy A u.memory) :
    u.StepwiseBy A := (h.stepwiseBy_chainedBy hJ).1

theorem Reached.chainedBy {react : ListenerId → Change → Client} {reach depth : Nat}
    (h : u.Reached (Client.reacting react reach depth)) (hJ : Journal.CompliesBy A u.memory) :
    u.ChainedBy A := (h.stepwiseBy_chainedBy hJ).2

theorem Reached.stepwise {A : Policy} {react : ListenerId → Change → Client} {reach depth : Nat}
    (h : u.Reached (Client.reacting react reach depth)) (hJ : Journal.Complies A u.memory) :
    u.Stepwise A := h.stepwiseBy hJ

theorem Reached.stepwise_free {react : ListenerId → Change → Client} {reach depth : Nat}
    (h : u.Reached (Client.reacting react reach depth)) : u.Stepwise Policy.free :=
  h.stepwiseBy (Journal.compliesBy_free _)

end Universe

end LiveJson

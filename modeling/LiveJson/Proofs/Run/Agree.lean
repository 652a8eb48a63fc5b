import LiveJson.Proofs.Store.Action
import LiveJson.Proofs.Store.Surroundings
import LiveJson.Store.Write

/-! # Where listeners are called

Two kinds of listeners that take every change alike where a property holds make no difference to an
operation that begins where it holds, as long as the operation keeps the property up to each call.
So an operation that cannot tell them apart calls its listeners only where the property holds. The
operations on documents keep every property that does not look into stores further than to see
whether they are loading. -/

namespace LiveJson

variable {σ α β : Type} {P : Universe σ → Prop} {u v : Universe σ} {k : StoreId}

/-- The property stays with any change of a store that does not begin or end a fetch. -/
def Universe.Tolerant (P : Universe σ → Prop) : Prop :=
  ∀ u k s, P u → s.loading = (u.store k).loading → P (u.setStore k s)

namespace Action

variable {act act' : Action σ α} {next next' : α → Action σ β}

/-- Both actions do the same to a state, and the property holds afterwards. -/
def AgreesAt (P : Universe σ → Prop) (u : Universe σ) (act act' : Action σ α) : Prop :=
  act'.run u = act.run u ∧ P (act.run u).2

/-- Wherever the property holds both actions do the same, and it holds again afterwards. -/
def Agrees (P : Universe σ → Prop) (act act' : Action σ α) : Prop :=
  ∀ u, P u → AgreesAt P u act act'

theorem agrees_pure (a : α) : Agrees P (pure a) (pure a) := fun _ hu => ⟨rfl, hu⟩

theorem agrees_throw (e : StoreError) : Agrees P (throw e : Action σ α) (throw e) :=
  fun _ hu => ⟨rfl, hu⟩

/-- An action that only looks agrees with itself. -/
theorem agrees_of_quiet (h : ∀ u, (act.run u).2 = u) : Agrees P act act := fun u hu =>
  ⟨rfl, (h u).symm ▸ hu⟩

theorem AgreesAt.bind (h : AgreesAt P u act act')
    (h' : ∀ a v, act.run u = (.ok a, v) → P v → AgreesAt P v (next a) (next' a)) :
    AgreesAt P u (act >>= next) (act' >>= next') := by
  obtain ⟨same, hv⟩ := h
  unfold AgreesAt
  rw [run_bind, run_bind, same]
  rcases hr : act.run u with ⟨_ | a, v⟩
  · rw [hr] at hv
    exact ⟨rfl, hv⟩
  · rw [hr] at hv
    exact h' a v hr hv

theorem Agrees.bind (h : Agrees P act act') (h' : ∀ a, Agrees P (next a) (next' a)) :
    Agrees P (act >>= next) (act' >>= next') :=
  fun u hu => (h u hu).bind fun a v _ hv => h' a v hv

theorem agrees_getStore {next next' : Store → Action σ β}
    (h : AgreesAt P u (next (u.store k)) (next' (u.store k))) :
    AgreesAt P u (getStore k >>= next) (getStore k >>= next') := h

theorem agrees_get {next next' : Universe σ → Action σ β} (h : AgreesAt P u (next u) (next' u)) :
    AgreesAt P u (get >>= next) (get >>= next') := h

theorem agrees_setStore (hP : Universe.Tolerant P) {s : Store} (hu : P u)
    (hs : s.loading = (u.store k).loading) : AgreesAt P u (setStore k s) (setStore k s) :=
  ⟨rfl, hP u k s hu hs⟩

theorem Agrees.attempt (h : Agrees P act act') : Agrees P (attempt act) (attempt act') := by
  intro u hu
  obtain ⟨same, hv⟩ := h u hu
  refine ⟨?_, hv⟩
  rw [run_attempt, run_attempt, same]

theorem agrees_ofPath (outcome : Except PathError α) :
    Agrees P (ofPath outcome) (ofPath outcome) := by
  cases outcome with
  | ok a => exact agrees_pure a
  | error e => exact agrees_throw _

theorem agrees_forM {next next' : α → Action σ PUnit} (h : ∀ a, Agrees P (next a) (next' a)) :
    ∀ l : List α, Agrees P (l.forM next) (l.forM next')
  | [] => agrees_pure _
  | a :: l => (h a).bind fun _ => agrees_forM h l

theorem agrees_foldlM {next next' : β → α → Action σ β}
    (h : ∀ b a, Agrees P (next b a) (next' b a)) :
    ∀ (l : List α) (b : β), Agrees P (l.foldlM next b) (l.foldlM next' b)
  | [], b => agrees_pure b
  | a :: l, b => (h b a).bind fun b => agrees_foldlM h l b

end Action

namespace Store

open LiveJson.Action (Agrees AgreesAt)

theorem loading_of_surroundings {s t : Store} (h : t.surroundings = s.surroundings) :
    t.loading = s.loading := congrArg (fun rest => rest.2.2.1) h

variable {listeners listeners' : Listeners σ} (hP : Universe.Tolerant P)
include hP

theorem agrees_promoteIn : Agrees P (promoteIn k) (promoteIn k) := fun _ hu =>
  Action.agrees_getStore (Action.agrees_setStore hP hu rfl)

theorem agrees_loadIn (document : Json) : Agrees P (loadIn k document) (loadIn k document) := by
  intro u hu
  refine Action.agrees_getStore ?_
  split
  · next s h =>
    exact Action.agrees_setStore hP hu (loading_of_surroundings (surroundings_load h))
  · exact Action.agrees_throw _ u hu

theorem agrees_subscribeIn (query : String) (listener : ListenerId) :
    Agrees P (subscribeIn k query listener) (subscribeIn k query listener) := by
  intro u hu
  obtain ⟨registry, h⟩ := (u.store k).subscribe_frame query listener
  have loading : ((u.store k).subscribe query listener).2.loading = (u.store k).loading := by rw [h]
  exact Action.agrees_getStore ((Action.agrees_setStore hP hu loading).bind fun _ v _ hv =>
    Action.agrees_ofPath _ v hv)

theorem agrees_unsubscribeIn (query : String) (listener : ListenerId) :
    Agrees P (unsubscribeIn k query listener) (unsubscribeIn k query listener) := by
  intro u hu
  obtain ⟨registry, h⟩ := (u.store k).unsubscribe_frame query listener
  have loading : ((u.store k).unsubscribe query listener).2.loading = (u.store k).loading := by rw [h]
  exact Action.agrees_getStore ((Action.agrees_setStore hP hu loading).bind fun _ v _ hv =>
    Action.agrees_ofPath _ v hv)

variable (hl : ∀ id change, Agrees P (listeners.tell id change) (listeners'.tell id change))
include hl

omit hP in
theorem agrees_dispatch (path : String) (change : Change) :
    Agrees P (dispatch listeners k path change) (dispatch listeners' k path change) := by
  intro u hu
  refine Action.agrees_getStore (Action.agrees_forM (fun id => ?_) _ u hu)
  split
  · exact Action.agrees_pure _
  · exact hl id change

omit hP in
theorem agrees_walk (location : Path) (change : Change) :
    Agrees P (walk listeners k location change) (walk listeners' k location change) :=
  Action.agrees_forM (fun _ => agrees_dispatch hl _ _) _

omit hP in
theorem agrees_cascade : ∀ (fuel : Nat) (id : CellId) (path : Path) (seen : List String),
    Agrees P (cascade listeners k fuel id path seen) (cascade listeners' k fuel id path seen)
  | 0, _, _, seen => Action.agrees_pure seen
  | fuel + 1, id, path, seen => by
    intro u hu
    refine Action.agrees_getStore (Action.agrees_foldlM (fun seen entry => ?_) _ _ u hu)
    obtain ⟨key, slot⟩ := entry
    intro u hu
    refine Action.agrees_getStore ?_
    cases slot with
    | cell child =>
      dsimp only
      split
      · exact (agrees_dispatch hl _ _).bind (fun _ => agrees_cascade fuel _ _ _) u hu
      · exact agrees_cascade fuel _ _ _ u hu
    | scalar _ =>
      dsimp only
      split
      · exact (agrees_dispatch hl _ _).bind (fun _ => Action.agrees_pure _) u hu
      · exact Action.agrees_pure _ u hu

theorem agrees_notifyRemoval (removal : Removal) :
    Agrees P (notifyRemoval listeners k removal) (notifyRemoval listeners' k removal) := by
  refine (agrees_promoteIn hP).bind fun _ => (agrees_walk hl _ _).bind fun _ => ?_
  refine Action.agrees_forM (fun entry u hu => ?_) _
  refine Action.agrees_getStore ((Action.agrees_ofPath _).bind (fun new => ?_) u hu)
  split
  · exact Action.agrees_pure _
  · exact agrees_dispatch hl _ _

theorem agrees_notifyLoad : Agrees P (notifyLoad listeners k) (notifyLoad listeners' k) := by
  refine (agrees_promoteIn hP).bind fun _ u hu => Action.agrees_getStore ?_
  refine Action.agrees_forM (fun path u hu => ?_) _ u hu
  refine Action.agrees_getStore ((Action.agrees_ofPath _).bind (fun new => ?_) u hu)
  exact agrees_dispatch hl _ _

theorem agrees_tick : Agrees P (tick listeners k) (tick listeners' k) := by
  intro u hu
  refine Action.agrees_getStore ?_
  split
  · refine (Action.agrees_setStore hP hu ?_).bind fun _ v _ hv => agrees_notifyLoad hP hl v hv
    rfl
  · exact Action.agrees_pure _ u hu

variable (hr : listeners'.reach = listeners.reach)
include hr

theorem agrees_notify (edit : Edit) :
    Agrees P (notify listeners k edit) (notify listeners' k edit) := by
  refine (agrees_promoteIn hP).bind fun _ => (agrees_walk hl _ _).bind fun _ => ?_
  split
  · split
    · intro u hu
      refine Action.agrees_getStore ?_
      rw [hr]
      exact (agrees_cascade hl _ _ _ _).bind (fun _ => Action.agrees_pure _) u hu
    · exact Action.agrees_pure _
  · exact Action.agrees_pure _

theorem agrees_write (ref : CellRef) (key : Key) (value : Node) :
    Agrees P (write listeners ref key value) (write listeners' ref key value) := by
  intro u hu
  refine Action.agrees_get ?_
  split
  · exact Action.agrees_throw _ u hu
  · next edit s h =>
    have loading := loading_of_surroundings (surroundings_set h)
    exact (Action.agrees_setStore hP hu loading).bind fun _ v _ hv =>
      agrees_notify hP hl hr edit v hv

theorem agrees_remove (ref : CellRef) (key : Key) :
    Agrees P (remove listeners ref key) (remove listeners' ref key) := by
  intro u hu
  refine Action.agrees_getStore ?_
  split
  · exact Action.agrees_throw _ u hu
  · exact Action.agrees_pure _ u hu
  · next removal s h =>
    have loading := loading_of_surroundings (surroundings_delete h)
    refine (Action.agrees_setStore hP hu loading).bind fun _ v _ hv => ?_
    split
    · exact agrees_notifyRemoval hP hl removal v hv
    · exact agrees_notify hP hl hr removal.edit v hv

theorem agrees_push (ref : CellRef) (value : Node) :
    Agrees P (push listeners ref value) (push listeners' ref value) := by
  intro u hu
  refine Action.agrees_getStore ?_
  dsimp only
  split
  · exact agrees_write hP hl hr _ _ _ u hu
  · exact Action.agrees_throw _ u hu

theorem agrees_change (path : String) (value : Node) (origin : Option ListenerId) :
    Agrees P (change listeners k path value origin) (change listeners' k path value origin) := by
  intro u hu
  refine Action.agrees_getStore ?_
  split
  · exact Action.agrees_throw _ u hu
  · refine (Action.agrees_setStore hP hu ?_).bind fun _ v _ hv => ?_
    · rfl
    refine (agrees_write hP hl hr _ _ _).attempt.bind (fun outcome w hw => ?_) v hv
    refine Action.agrees_getStore ((Action.agrees_setStore hP hw ?_).bind fun _ w _ hw => ?_)
    · rfl
    cases outcome with
    | ok _ => exact Action.agrees_pure _ w hw
    | error e => exact Action.agrees_throw e w hw

end Store

end LiveJson

import LiveJson.Proofs.Run.Course

/-! # A store among others

What a deed does to its store, and whom it calls, depends on nothing but that store, once the cells
of other stores that it writes are replaced by what they read as. So a store goes through what it
would go through if it were the only one. -/

namespace LiveJson

open Store (Policy)

variable {A : Policy} {u w : Universe Journal} {k : StoreId} {reach : Nat} {s : Store}

/-- The value, with its document in place of a cell that is not of store `k`. -/
def Value.alone (k : StoreId) (read : CellRef → Document) : Value → Value
  | plain document => plain document
  | cell ref => if ref.store = k then cell ref else plain (read ref)

def Operation.alone (k : StoreId) (read : CellRef → Document) : Operation → Operation
  | set ref key value => set ref key (value.alone k read)
  | push ref value => push ref (value.alone k read)
  | change j path value origin => change j path (value.alone k read) origin
  | op => op

def Deed.alone (k : StoreId) (read : CellRef → Document) : Deed → Deed
  | operate op => operate (op.alone k read)
  | deed => deed

/-- Each cell is read as what it reads as. -/
def Universe.ReadBy (u : Universe Journal) (read : CellRef → Document) : Prop :=
  ∀ ref, (read ref).json = u.toJson (.cell ref)

theorem Universe.Steady.exists_readBy (hu : u.Steady A) : ∃ read, u.ReadBy read :=
  ⟨fun ref => ⟨_, (hu ref.store).sound.toJson_wellFormed ref.cell⟩, fun _ => rfl⟩

theorem Universe.incoming_alone {read : CellRef → Document} (hread : u.ReadBy read)
    (h : w.store k = u.store k) (value : Value) :
    w.incoming k (value.alone k read).node = u.incoming k value.node := by
  cases value with
  | plain document => rfl
  | cell ref =>
    by_cases hk : ref.store = k
    · have reads : w.toJson (.cell ref) = u.toJson (.cell ref) := by
        rw [toJson, toJson, hk, h]
      rw [Value.alone, if_pos hk]
      show (if _ then _ else _) = if _ then _ else _
      rw [h, reads]
    · have foreign : u.incoming k (.cell ref) = .copy (u.toJson (.cell ref)) :=
        if_neg fun h => hk h.1
      rw [Value.alone, if_neg hk]
      exact (congrArg Incoming.copy (hread ref)).trans foreign.symm

namespace Action

variable {act act' : Action Journal Unit} {outcome : Except StoreError Unit} {calls : List Call}

/-- The action comes to the outcome, store `k` becomes `s`, and the calls are made. -/
structure Leaves (k : StoreId) (act : Action Journal Unit) (u : Universe Journal)
    (outcome : Except StoreError Unit) (s : Store) (calls : List Call) : Prop where
  outcome_eq : (act.run u).1 = outcome
  store_eq : (act.run u).2.store k = s
  calls_eq : (act.run u).2.memory.calls = u.memory.calls ++ calls

/-- The two actions come to the same, leave the same of store `k`, and make the same calls. -/
def Matches (k : StoreId) (u w : Universe Journal) (act act' : Action Journal Unit) : Prop :=
  ∃ outcome s calls, act.Leaves k u outcome s calls ∧ act'.Leaves k w outcome s calls

theorem leaves_same (h : act.run u = (outcome, u)) : act.Leaves k u outcome (u.store k) [] where
  outcome_eq := by rw [h]
  store_eq := by rw [h]
  calls_eq := by rw [h, List.append_nil]

theorem leaves_tell (hk : k < u.stores.size)
    (h : act.run u = (outcome, (u.setStore k s).tell calls)) : act.Leaves k u outcome s calls where
  outcome_eq := by rw [h]
  store_eq := by rw [h, Universe.store_tell, Universe.store_setStore_self hk]
  calls_eq := by
    rw [h]
    exact Universe.calls_tell calls

theorem leaves_change {t : Store} (hk : k < u.stores.size)
    (h : act.run u = (outcome, ((u.setStore k s).tell calls).setStore k t)) :
    act.Leaves k u outcome t calls where
  outcome_eq := by rw [h]
  store_eq := by
    rw [h]
    exact Universe.store_setStore_self ((u.size_setStore k s).symm ▸ hk) t
  calls_eq := by
    rw [h]
    exact Universe.calls_tell calls

theorem leaves_setStore (hk : k < u.stores.size) (h : act.run u = (outcome, u.setStore k s)) :
    act.Leaves k u outcome s [] := leaves_tell hk h

theorem Matches.congr {act₀ act₀' : Action Journal Unit} (h : Matches k u w act act')
    (hrun : act₀.run u = act.run u) (hrun' : act₀'.run w = act'.run w) :
    Matches k u w act₀ act₀' := by
  obtain ⟨outcome, s, calls, h, h'⟩ := h
  exact ⟨outcome, s, calls, ⟨hrun ▸ h.outcome_eq, hrun ▸ h.store_eq, hrun ▸ h.calls_eq⟩,
    ⟨hrun' ▸ h'.outcome_eq, hrun' ▸ h'.store_eq, hrun' ▸ h'.calls_eq⟩⟩

theorem matches_same (hsame : w.store k = u.store k) (h : act.run u = (outcome, u))
    (h' : act'.run w = (outcome, w)) : Matches k u w act act' :=
  ⟨outcome, u.store k, [], leaves_same h, hsame ▸ leaves_same h'⟩

end Action

open LiveJson.Action (Matches)

namespace Store

variable (hu : u.Steady A) (hw : w.Steady A) (hk : k < u.stores.size)
  (hk' : k < w.stores.size) (hsame : w.store k = u.store k)

section
include hk hk' hsame

theorem matches_loadIn (document : Json) :
    Matches k u w (loadIn k document) (loadIn k document) := by
  have hrun := loadIn_run k document u
  have hrun' := loadIn_run k document w
  rw [hsame] at hrun'
  cases h : (u.store k).load document with
  | error e =>
    rw [h] at hrun hrun'
    exact Action.matches_same hsame hrun hrun'
  | ok s =>
    rw [h] at hrun hrun'
    exact ⟨_, _, _, Action.leaves_setStore hk hrun, Action.leaves_setStore hk' hrun'⟩

theorem matches_land (answer : Except StoreError Json) :
    Matches k u w (land k answer) (land k answer) := by
  have hrun := land_run k answer u
  have hrun' := land_run k answer w
  rw [hsame] at hrun'
  cases answer with
  | error e => exact ⟨_, _, _, Action.leaves_setStore hk hrun, Action.leaves_setStore hk' hrun'⟩
  | ok document =>
    have hrun := hrun.trans (loadIn_run k document _)
    have hrun' := hrun'.trans (loadIn_run k document _)
    rw [Universe.store_setStore_self hk] at hrun
    rw [Universe.store_setStore_self hk'] at hrun'
    split at hrun
    · next h =>
      rw [h] at hrun'
      exact ⟨_, _, _, Action.leaves_setStore hk hrun, Action.leaves_setStore hk' hrun'⟩
    · next h =>
      rw [h] at hrun'
      rw [Universe.setStore_setStore] at hrun
      dsimp only at hrun'
      rw [Universe.setStore_setStore] at hrun'
      exact ⟨_, _, _, Action.leaves_setStore hk hrun, Action.leaves_setStore hk' hrun'⟩

theorem matches_takeOff (location : Except StoreError Location) (method : Option String) :
    Matches k u w ((Deed.takeOff k location method).perform (recording reach))
      ((Deed.takeOff k location method).perform (recording reach)) := by
  have hrun := Deed.takeOff_run (recording reach) k location method u
  have hrun' := Deed.takeOff_run (recording reach) k location method w
  rw [hsame] at hrun'
  split at hrun
  · next h =>
    rw [h] at hrun'
    exact Action.matches_same hsame hrun hrun'
  · next h =>
    rw [h] at hrun'
    exact ⟨_, _, _, Action.leaves_setStore hk hrun, Action.leaves_setStore hk' hrun'⟩

theorem matches_subscribeIn (query : String) (listener : ListenerId) :
    Matches k u w (subscribeIn k query listener) (subscribeIn k query listener) := by
  have hrun' := subscribeIn_run k query listener w
  rw [hsame] at hrun'
  exact ⟨_, _, _, Action.leaves_setStore hk (subscribeIn_run k query listener u),
    Action.leaves_setStore hk' hrun'⟩

theorem matches_unsubscribeIn (query : String) (listener : ListenerId) :
    Matches k u w (unsubscribeIn k query listener) (unsubscribeIn k query listener) := by
  have hrun' := unsubscribeIn_run k query listener w
  rw [hsame] at hrun'
  exact ⟨_, _, _, Action.leaves_setStore hk (unsubscribeIn_run k query listener u),
    Action.leaves_setStore hk' hrun'⟩

end

section
include hu hw hk hk' hsame

theorem matches_write {value value' : Value}
    (hin : w.incoming k value'.node = u.incoming k value.node) (id : CellId) (key : Key) :
    Matches k u w (write (recording reach) ⟨k, id⟩ key value.node)
      (write (recording reach) ⟨k, id⟩ key value'.node) := by
  cases h : (u.store k).set id key (u.incoming k value.node) with
  | error e =>
    have h' : (w.store k).set id key (w.incoming k value'.node) = .error e := by rw [hin, hsame, h]
    exact Action.matches_same hsame (by rw [write_run, h]) (by rw [write_run, h'])
  | ok result =>
    obtain ⟨edit, s⟩ := result
    have h' : (w.store k).set id key (w.incoming k value'.node) = .ok (edit, s) := by
      rw [hin, hsame, h]
    exact ⟨_, _, _, Action.leaves_tell hk (recorded_write hu h),
      Action.leaves_tell hk' (recorded_write hw h')⟩

theorem matches_push {value value' : Value}
    (hin : w.incoming k value'.node = u.incoming k value.node) (id : CellId) :
    Matches k u w (push (recording reach) ⟨k, id⟩ value.node)
      (push (recording reach) ⟨k, id⟩ value'.node) := by
  have hrun := push_run (recording reach) ⟨k, id⟩ value.node u
  have hrun' := push_run (recording reach) ⟨k, id⟩ value'.node w
  rw [hsame] at hrun'
  dsimp only at hrun hrun'
  split at hrun
  · next harray =>
    rw [if_pos harray] at hrun'
    exact (matches_write hu hw hk hk' hsame hin id _).congr hrun hrun'
  · next harray =>
    rw [if_neg harray] at hrun'
    exact Action.matches_same hsame hrun hrun'

theorem matches_remove (id : CellId) (key : Key) :
    Matches k u w (remove (recording reach) ⟨k, id⟩ key)
      (remove (recording reach) ⟨k, id⟩ key) := by
  cases h : (u.store k).delete id key with
  | error e =>
    have h' : (w.store k).delete id key = .error e := by rw [hsame, h]
    exact Action.matches_same hsame (by rw [remove_run, h]) (by rw [remove_run, h'])
  | ok removed =>
    have h' : (w.store k).delete id key = .ok removed := by rw [hsame, h]
    cases removed with
    | none => exact Action.matches_same hsame (by rw [remove_run, h]) (by rw [remove_run, h'])
    | some removed =>
      obtain ⟨removal, s⟩ := removed
      exact ⟨_, _, _, Action.leaves_tell hk (recorded_remove reach hu h),
        Action.leaves_tell hk' (recorded_remove reach hw h')⟩

theorem matches_tick : Matches k u w (tick (recording reach) k) (tick (recording reach) k) := by
  cases h : (u.store k).reloadDue with
  | false =>
    have h' : (w.store k).reloadDue = false := by rw [hsame, h]
    exact Action.matches_same hsame (tick_run_of_not_due _ h) (tick_run_of_not_due _ h')
  | true =>
    have h' : (w.store k).reloadDue = true := by rw [hsame, h]
    have told := Action.leaves_tell hk (recorded_tick reach hu h)
    have told' := Action.leaves_tell hk' (recorded_tick reach hw h')
    rw [hsame] at told'
    exact ⟨_, _, _, told, told'⟩

theorem matches_change {value value' : Value}
    (hin : w.incoming k value'.node = u.incoming k value.node) (path : String)
    (origin : Option ListenerId) :
    Matches k u w (change (recording reach) k path value.node origin)
      (change (recording reach) k path value'.node origin) := by
  cases hlocate : (u.store k).locate path with
  | error e =>
    have hlocate' : (w.store k).locate path = .error e := by rw [hsame, hlocate]
    exact Action.matches_same hsame (by rw [change_run, hlocate]) (by rw [change_run, hlocate'])
  | ok located =>
    obtain ⟨id, name⟩ := located
    have hlocate' : (w.store k).locate path = .ok (id, name) := by rw [hsame, hlocate]
    cases h : ((u.store k).onBehalf origin).set id (.name name) (u.incoming k value.node) with
    | error e =>
      have h' : ((w.store k).onBehalf origin).set id (.name name) (w.incoming k value'.node) =
          .error e := by rw [hin, hsame, h]
      exact Action.matches_same hsame (change_run_of_refused hlocate h _)
        (change_run_of_refused hlocate' h' _)
    | ok result =>
      obtain ⟨edit, s⟩ := result
      have h' : ((w.store k).onBehalf origin).set id (.name name) (w.incoming k value'.node) =
          .ok (edit, s) := by rw [hin, hsame, h]
      have told := Action.leaves_change hk (recorded_change reach value hu hlocate h)
      have told' := Action.leaves_change hk' (recorded_change reach value' hw hlocate' h')
      rw [hsame] at told'
      exact ⟨_, _, _, told, told'⟩

end

end Store

theorem Operation.matches_alone {op : Operation} (hu : u.Steady A) (hw : w.Steady A)
    (hk : op.store < u.stores.size) (hk' : op.store < w.stores.size)
    (hsame : w.store op.store = u.store op.store) {read : CellRef → Document}
    (hread : u.ReadBy read) : Matches op.store u w (op.perform (recording reach))
      ((op.alone op.store read).perform (recording reach)) := by
  have hin := u.incoming_alone hread hsame
  cases op with
  | load k document => exact Store.matches_loadIn hk hk' hsame document.json
  | tick k => exact Store.matches_tick hu hw hk hk' hsame
  | set ref key value => exact Store.matches_write hu hw hk hk' hsame (hin value) ref.cell key
  | push ref value => exact Store.matches_push hu hw hk hk' hsame (hin value) ref.cell
  | delete ref key => exact Store.matches_remove hu hw hk hk' hsame ref.cell key
  | change k path value origin =>
    exact Store.matches_change hu hw hk hk' hsame (hin value) path origin
  | subscribe k query listener => exact Store.matches_subscribeIn hk hk' hsame query listener
  | unsubscribe k query listener => exact Store.matches_unsubscribeIn hk hk' hsame query listener

/-- **What a deed does to its store, and whom it calls, is the same wherever the store is as it is,
with the values of foreign cells in place of these cells.** -/
theorem Deed.matches_alone {deed : Deed} (hu : u.Steady A) (hw : w.Steady A)
    (hk : deed.store < u.stores.size) (hk' : deed.store < w.stores.size)
    (hsame : w.store deed.store = u.store deed.store) {read : CellRef → Document}
    (hread : u.ReadBy read) : Matches deed.store u w (deed.perform (recording reach))
      ((deed.alone deed.store read).perform (recording reach)) := by
  cases deed with
  | operate op => exact Operation.matches_alone hu hw hk hk' hsame hread
  | takeOff k location method => exact Store.matches_takeOff hk hk' hsame location method
  | land k answer => exact Store.matches_land hk hk' hsame _
  | giveUp k =>
    have hsame : w.store k = u.store k := hsame
    have hrun' : (Store.giveUpIn k).run w =
        (.ok (), w.setStore k { u.store k with loading := false }) := by
      rw [← hsame]
      rfl
    exact ⟨_, _, _, Action.leaves_setStore hk rfl, Action.leaves_setStore hk' hrun'⟩

/-- The turn is what it would be with nothing but store `k`. -/
def Turn.Alone (k : StoreId) (turn own : Turn) : Prop :=
  ∃ read, own = ⟨turn.deed.alone k read, turn.outcome⟩

theorem Deed.store_alone (k : StoreId) (read : CellRef → Document) (deed : Deed) :
    (deed.alone k read).store = deed.store := by
  cases deed with
  | operate op => cases op <;> rfl
  | _ => rfl

/-- **In every course each store goes through what it would go through alone: its own turns lead it
to where it is and come to the same, also if the values of foreign cells are written instead of these
cells and nothing happens to any other store.** -/
theorem Course.alone {count : Nat} {turns : List Turn} (h : Course reach (.start count) turns u)
    (hk : k < count) : ∃ own w, Course reach (.start count) own w ∧
      (∀ turn ∈ own, turn.deed.store = k) ∧
      List.Forall₂ (Turn.Alone k) (turns.filter fun turn => turn.deed.store = k) own ∧
      w.store k = u.store k := by
  have rest (w : Universe Journal) {own : List Turn} (h : Course reach (.start count) own w) :
      w.AtRest := h.atRest (Universe.atRest_start count)
  induction h with
  | here => exact ⟨[], _, .here, fun _ h => absurd h List.not_mem_nil, .nil, rfl⟩
  | @next turns v h deed ih =>
    obtain ⟨own, w, hw, hown, turnwise, hsame⟩ := ih
    by_cases hstore : deed.store = k
    · subst hstore
      obtain ⟨read, hread⟩ := (rest v h).steady.exists_readBy
      obtain ⟨outcome, s, calls, left, left'⟩ : Matches deed.store v w
          (deed.perform (recording reach)) ((deed.alone deed.store read).perform (recording reach)) :=
        deed.matches_alone (rest v h).steady (rest w hw).steady (h.lt_size hk)
          (hw.lt_size hk) hsame hread
      refine ⟨_, _, hw.next (deed.alone deed.store read),
        List.forall_mem_cons.mpr ⟨deed.store_alone _ read, hown⟩, ?_,
        left'.store_eq.trans left.store_eq.symm⟩
      rw [List.filter_cons_of_pos (by simp)]
      refine .cons ⟨read, ?_⟩ turnwise
      rw [left.outcome_eq, left'.outcome_eq]
    · obtain ⟨outcome, s, calls, does⟩ := deed.exists_does (rest v h).steady reach
      refine ⟨own, w, hw, hown, ?_, hsame.trans (does.store_of_ne fun h => hstore h.symm).symm⟩
      rw [List.filter_cons_of_neg (by simpa using hstore)]
      exact turnwise

end LiveJson

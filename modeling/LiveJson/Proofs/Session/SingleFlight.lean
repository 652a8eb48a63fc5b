import LiveJson.Proofs.Session.Acts

/-! # One load at a time

Whatever a session does, and whatever its listeners do meanwhile, a store is marked as loading
exactly while one load of it is in flight. A load that is turned away leaves all alone, one that is
given up or fails leaves the document alone, and one that is answered is the load of the answer. -/

namespace LiveJson.Session

open LiveJson.Action (Agrees)

variable {u v : Scene} {k : StoreId} {id : String}

/-! ## Loads in flight -/

/-- The load of that name is in flight for the store. -/
def Aloft (u : Scene) (k : StoreId) (id : String) : Prop :=
  ∃ flight, Members.get? id u.memory.flights = some flight ∧ flight.isAloft k = true

theorem released_of_aloft {flight : Flight} (u : Scene) (ha : flight.isAloft k = true) :
    released u (some flight) = setLoading u k false := by
  cases flight with
  | started j request => obtain rfl : j = k := of_decide_eq_true ha; rfl
  | pending j => obtain rfl : j = k := of_decide_eq_true ha; rfl
  | _ => cases ha

theorem unmarked (u : Scene) (k : StoreId) : ((setLoading u k false).store k).loading = false := by
  rw [loading_setLoading_false, decide_eq_true rfl, Bool.not_true, Bool.and_false]

theorem unmarked_ended {flight : Flight} (u : Scene) (id : String) (ha : flight.isAloft k = true) :
    ((ended u id flight).store k).loading = false := by
  cases flight with
  | started j request => obtain rfl : j = k := of_decide_eq_true ha; exact unmarked _ j
  | pending j => obtain rfl : j = k := of_decide_eq_true ha; exact unmarked _ j
  | _ => cases ha

/-- No two loads of a store are in flight, and one is if the store is marked as loading. -/
theorem InOrder.aloft_unique (hu : InOrder u) {id' : String} (h : Aloft u k id)
    (h' : Aloft u k id') : id = id' := by
  obtain ⟨flight, hf, ha⟩ := h
  obtain ⟨flight', hf', ha'⟩ := h'
  refine Classical.byContradiction fun hne => ?_
  -- Without the first there is none left, but the second would be.
  have counted := aloft_erase id k u.memory.flights
  rw [hf, Option.any_some, ha, hu.marked k, hu.loading_of_get? hf ha] at counted
  rw [← Members.get?_erase_of_ne u.memory.flights (Ne.symm hne)] at hf'
  have left : 0 < aloft (Members.erase id u.memory.flights) k :=
    List.countP_pos_iff.mpr ⟨_, Members.mem_of_get? hf', ha'⟩
  simp only [Bool.toNat_true] at counted
  omega

theorem InOrder.loading_iff (hu : InOrder u) (k : StoreId) :
    (u.store k).loading = true ↔ ∃ id, Aloft u k id := by
  constructor
  · intro loading
    have counted := hu.marked k
    rw [loading] at counted
    have some_aloft : 0 < aloft u.memory.flights k := by rw [counted]; exact Nat.one_pos
    obtain ⟨⟨id, flight⟩, hm, ha⟩ := List.countP_pos_iff.mp some_aloft
    exact ⟨id, flight, Members.get?_of_mem hu.distinct hm, ha⟩
  · rintro ⟨id, flight, hf, ha⟩
    exact hu.loading_of_get? hf ha

theorem modelOf_run_some {model : String} (hm : Members.get? model u.memory.models = some k) :
    (modelOf model).run u = (.ok k, u) := by
  unfold modelOf
  rw [Action.run_bind, Action.run_get]
  dsimp only
  rw [hm]
  rfl

theorem loading_sweep (u : Scene) (k : StoreId) :
    ((sweep u).store k).loading = (u.store k).loading := by
  simp only [sweep, Universe.store, Array.getElem?_mapIdx]
  cases u.stores[k]? <;> rfl

/-! ## Scenes of sessions -/

section
variable [UrlReader]

/-- Listeners with their scripts. -/
def scripted (reach depth : Nat) : Listeners Memory := { tell := tell reach depth, reach }

/-- Some listener is told of a change in scene `v` while the act runs from `u`: listeners that
differ nowhere else make another run. -/
def Tells (listeners : Listeners Memory) (model : String) (act : Act) (u v : Scene) : Prop :=
  ∃ other : ListenerId → Change → Play Unit,
    (∀ w, w ≠ v → ∀ id change, (other id change).run w = (listeners.tell id change).run w) ∧
      (perform { listeners with tell := other } model act).run u ≠
        (perform listeners model act).run u

/-- The scenes of all sessions, also those in the middle of a step, where a listener is told of a
change or has taken some steps of its script. Listeners may change their scripts at any time. -/
inductive Reached : Scene → Prop
  | start : Reached { memory := {} }
  | acted {u : Scene} (h : Reached u) (reach depth : Nat) (model : String) (act : Act) :
      Reached ((perform (scripted reach depth) model act).run u).2
  | told {u v : Scene} (h : Reached u) {reach depth : Nat} {model : String} {act : Act}
      (htells : Tells (scripted reach depth) model act u v) : Reached v
  | noted {u : Scene} (h : Reached u) (listeners : Array Listener) (log : List LogEntry) :
      Reached { u with memory := { u.memory with listeners, log } }
  | polled {u : Scene} (h : Reached u) (id : String) : Reached ((pollLoad id).run u).2
  | swept {u : Scene} (h : Reached u) : Reached (sweep u)

theorem Reached.takeStep (h : Reached u) (reach depth : Nat) (step : Step) :
    Reached (takeStep (scripted reach depth) u step).2 :=
  ((h.noted u.memory.listeners []).acted reach depth step.1 step.2).swept

/-- An act only ever tells listeners in scenes that are in order. -/
theorem InOrder.tells {listeners : Listeners Memory} {model : String} {act : Act} (h : InOrder u)
    (hl : ∀ id change, Agrees InOrder (listeners.tell id change) (listeners.tell id change))
    (htells : Tells listeners model act u v) : InOrder v := by
  obtain ⟨other, elsewhere, differs⟩ := htells
  refine Classical.byContradiction fun hv => ?_
  have agree : ∀ id change, Agrees InOrder (listeners.tell id change) (other id change) := by
    intro id change w hw
    have hne : w ≠ v := fun heq => hv (heq ▸ hw)
    exact ⟨elsewhere w hne id change, (hl id change w hw).2⟩
  have same := @agrees_perform _ listeners { listeners with tell := other } agree rfl model act u h
  exact differs same.1

theorem Reached.inOrder (h : Reached u) : InOrder u := by
  induction h with
  | start => exact InOrder.start
  | acted _ reach depth model act ih =>
    exact (agrees_perform (agrees_tell reach depth) rfl model act _ ih).2
  | told _ htells ih => exact ih.tells (agrees_tell _ _) htells
  | noted _ listeners log ih => exact ih.frame rfl (fun _ => rfl) rfl rfl rfl
  | polled _ id ih => exact ih.polled id
  | swept _ ih => exact ih.frame Array.size_mapIdx (loading_sweep _) rfl rfl rfl

/-! ## What loads do in a scene -/

/-- Where a load is turned away with `e`, the call itself changes nothing at all. What the name of
the load held is given up for it, and what takes its place hands on the error once it is polled. -/
structure TurnsAway (listeners : Listeners Memory) (u : Scene) (k : StoreId) (location : String)
    (e : StoreError) : Prop where
  call : ∀ method, (Store.takeOffIn k (Location.parse location) method).run u = (.error e, u)
  atOnce : ∀ {model}, Members.get? model u.memory.models = some k → ∀ method documents,
    (perform listeners model (.loadFrom location method documents)).run u = (.error e, u)
  polled : ∀ {model}, Members.get? model u.memory.models = some k → ∀ id method,
    (perform listeners model (.beginLoad id location method true)).run u =
      (.error e, holding (released u (Members.get? id u.memory.flights)) id .over)
  unpolled : ∀ {model}, Members.get? model u.memory.models = some k → ∀ id method,
    (perform listeners model (.beginLoad id location method false)).run u =
      (.ok (.begun false), holding (released u (Members.get? id u.memory.flights)) id (.rejected e))

/-- The request for a document at the location. -/
def requestFor (location : Location) (method : Option String) : Request :=
  { location, method := (method.getD "GET").map Char.toUpper }

/-- Where a load is accepted its store is marked as loading by the call, and asked for when it is
polled. A source that answers at once makes it the load of the answer. -/
structure TakesOff (listeners : Listeners Memory) (u : Scene) (k : StoreId) (location : String)
    (parsed : Location) : Prop where
  call : ∀ method, (Store.takeOffIn k (Location.parse location) method).run u =
    (.ok (requestFor parsed method), setLoading u k true)
  atOnce : ∀ {model}, Members.get? model u.memory.models = some k → ∀ method documents,
    (perform listeners model (.loadFrom location method documents)).run u =
      match Store.answer documents (requestFor parsed method) with
      | .ok document => (do Store.loadIn k document; return .done : Play Reply).run u
      | .error e => (.error e, u)
  polled : ∀ {model}, Members.get? model u.memory.models = some k → ∀ id method,
    (perform listeners model (.beginLoad id location method true)).run u =
      (.ok (.begun true),
        asking (holding (released (setLoading u k true) (Members.get? id u.memory.flights)) id
          (.pending k)) (requestFor parsed method))
  unpolled : ∀ {model}, Members.get? model u.memory.models = some k → ∀ id method,
    (perform listeners model (.beginLoad id location method false)).run u =
      (.ok (.begun false),
        holding (released (setLoading u k true) (Members.get? id u.memory.flights)) id
          (.started k (requestFor parsed method)))

/-- However a load in flight ends, the mark of its store goes with it. It is all that changes of the
store if the load is dropped or has failed, and otherwise the answer is loaded then. -/
structure Lands (listeners : Listeners Memory) (u : Scene) (k : StoreId) (id : String)
    (flight : Flight) : Prop where
  marked : (u.store k).loading = true
  unmarked : ((setLoading u k false).store k).loading = false ∧
    ((ended u id flight).store k).loading = false
  dropped : ∀ model, (perform listeners model (.dropLoad id)).run u =
    (.ok (.flag true), without (setLoading u k false) id)
  failed : ∀ model e, (perform listeners model (.endLoad id (.error e))).run u =
    (.error e, ended u id flight)
  answered : ∀ model document, (perform listeners model (.endLoad id (.ok document))).run u =
    (do Store.loadIn k document; return .loaded : Play Reply).run (ended u id flight)

theorem takeOff_of_error {s : Store} {location : String} {e : StoreError}
    (h : Location.parse location = .error e) (method : Option String) :
    s.takeOff (Location.parse location) method = .error e := by
  unfold Store.takeOff
  rw [h]
  rfl

theorem takeOff_of_busy {s : Store} {location : String} {parsed : Location}
    (h : Location.parse location = .ok parsed) (busy : s.loading = true)
    (method : Option String) : s.takeOff (Location.parse location) method = .error .busy := by
  unfold Store.takeOff
  rw [h]
  simp only [bind, Except.bind, busy, if_true]

theorem takeOff_of_idle {s : Store} {location : String} {parsed : Location}
    (h : Location.parse location = .ok parsed) (idle : s.loading = false)
    (method : Option String) :
    s.takeOff (Location.parse location) method =
      .ok (requestFor parsed method, { s with loading := true }) := by
  unfold Store.takeOff
  rw [h]
  simp only [bind, Except.bind, idle, Bool.false_eq_true, if_false]
  rfl

theorem invalidSource_of_error {location : String} {e : StoreError}
    (h : Location.parse location = .error e) : ∃ text, e = .invalidSource text := by
  unfold Location.parse at h
  dsimp only at h
  split at h
  · cases h; exact ⟨_, rfl⟩
  split at h
  · split at h
    · cases h
    · cases h; exact ⟨_, rfl⟩
  · cases h

variable (listeners : Listeners Memory)

theorem turnsAway {location : String} {e : StoreError}
    (h : ∀ method, (u.store k).takeOff (Location.parse location) method = .error e) :
    TurnsAway listeners u k location e where
  call method := by rw [Store.takeOffIn_run, h]
  atOnce hm method documents :=
    (run_bind_ok (modelOf_run_some hm)).trans (loadAtOnce_run_error (h method) documents)
  polled hm id method :=
    (run_bind_ok (modelOf_run_some hm)).trans (beginLoad_run_error (h method) id true)
  unpolled hm id method :=
    (run_bind_ok (modelOf_run_some hm)).trans (beginLoad_run_error (h method) id false)

theorem InOrder.takesOff (hu : InOrder u) {location : String} {parsed : Location}
    (h : ∀ method, (u.store k).takeOff (Location.parse location) method =
      .ok (requestFor parsed method, { u.store k with loading := true })) :
    TakesOff listeners u k location parsed where
  call method := by rw [Store.takeOffIn_run, h]; rfl
  atOnce hm method documents := by
    have hk := hu.models (Members.mem_of_get? hm)
    exact (run_bind_ok (modelOf_run_some hm)).trans (loadAtOnce_run_ok hk (h method) documents)
  polled hm id method :=
    (run_bind_ok (modelOf_run_some hm)).trans (beginLoad_run_ok (h method) id true)
  unpolled hm id method :=
    (run_bind_ok (modelOf_run_some hm)).trans (beginLoad_run_ok (h method) id false)

theorem InOrder.lands (hu : InOrder u) {flight : Flight}
    (hf : Members.get? id u.memory.flights = some flight) (ha : flight.isAloft k = true) :
    Lands listeners u k id flight where
  marked := hu.loading_of_get? hf ha
  unmarked := ⟨Session.unmarked u k, unmarked_ended u id ha⟩
  dropped model := by
    have hrun := dropLoad_run u id
    rw [hf, released_of_aloft u ha] at hrun
    exact hrun
  failed model e := finishLoad_run_error hf ha e
  answered model document := finishLoad_run_ok hf ha document

/-- **However URLs are read: in every scene of every session, at most one load of a store is in
flight, and the store is marked as loading exactly while one is. A call with a location that cannot
be read fails with `invalidSource` and one that finds the store loading fails with `busy`; neither
makes a request or changes anything. Any other call marks the store. A load that is dropped, polled
or not, and one that fails, whatever its error, takes the mark away and leaves the document alone;
one that is answered takes it away and then is the load of the answer.** -/
theorem Reached.single_flight (h : Reached u) (k : StoreId) :
    ((∀ {id id'}, Aloft u k id → Aloft u k id' → id = id') ∧
      ((u.store k).loading = true ↔ ∃ id, Aloft u k id)) ∧
    (∀ {location e}, Location.parse location = .error e →
      (∃ text, e = .invalidSource text) ∧ TurnsAway listeners u k location e) ∧
    (∀ {location parsed}, Location.parse location = .ok parsed → (u.store k).loading = true →
      TurnsAway listeners u k location .busy) ∧
    (∀ {location parsed}, Location.parse location = .ok parsed → (u.store k).loading = false →
      TakesOff listeners u k location parsed) ∧
    (∀ {id e}, Members.get? id u.memory.flights = some (.rejected e) → ∀ model answer,
      (perform listeners model (.endLoad id answer)).run u = (.error e, holding u id .over) ∧
        (perform listeners model (.dropLoad id)).run u = (.ok (.flag true), without u id)) ∧
    (∀ {id flight}, Members.get? id u.memory.flights = some flight → flight.isAloft k = true →
      Lands listeners u k id flight) := by
  have inOrder := h.inOrder
  refine ⟨⟨inOrder.aloft_unique, inOrder.loading_iff k⟩, fun hl => ?_, fun hl busy => ?_,
    fun hl idle => ?_, fun {id e} hf model answer => ⟨?_, ?_⟩, fun hf ha => ?_⟩
  · exact ⟨invalidSource_of_error hl, turnsAway listeners fun method => takeOff_of_error hl method⟩
  · exact turnsAway listeners fun method => takeOff_of_busy hl busy method
  · exact inOrder.takesOff listeners fun method => takeOff_of_idle hl idle method
  · exact finishLoad_run_rejected hf answer
  · have hrun := dropLoad_run u id
    rw [hf] at hrun
    exact hrun
  · exact inOrder.lands listeners hf ha

end

/-- Reads one URL, which is in its normal form. -/
local instance oneUrl : UrlReader where
  read? text := if text = "http://a.example/x.json" then some text else none

/-- A load of the first store is in flight. -/
def departed : Scene :=
  (takeStep (scripted 0 0) { memory := {} }
    ("m", .beginLoad "a" "http://a.example/x.json" none true)).2

theorem single_flight_departed :
    (departed.store 0).loading = true ∧
      TurnsAway (scripted 0 0) departed 0 "http://" (.invalidSource "http://") ∧
      TurnsAway (scripted 0 0) departed 0 "y.json" .busy ∧
      Lands (scripted 0 0) departed 0 "a" (.pending 0) := by
  have reached : Reached departed := Reached.start.takeStep 0 0 _
  obtain ⟨-, rejected, busy, -, -, lands⟩ := Reached.single_flight (scripted 0 0) reached 0
  have loading : (departed.store 0).loading = true := rfl
  have unread : Location.parse "http://" = .error (.invalidSource "http://") := rfl
  have parsed : Location.parse "y.json" = .ok (.relative "y.json") := rfl
  have pending : Members.get? "a" departed.memory.flights = some (.pending 0) := rfl
  exact ⟨loading, (rejected unread).2, busy parsed loading, lands pending rfl⟩

end LiveJson.Session

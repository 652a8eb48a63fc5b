import LiveJson.Proofs.Members
import LiveJson.Proofs.Run.Agree
import LiveJson.Session.Script

/-! # Loads in flight

A scene is in order if each store that is marked as loading has exactly one load in flight, and each
other store none. What beginning, finishing and dropping a load do to a scene is written down here,
and that all of it leaves a scene in order. -/

namespace LiveJson.Session

variable {u : Scene} {k j : StoreId} {id : String} {flight : Flight}

/-- Whether a load of the store is on its way: begun, and neither over nor turned away. -/
def Flight.isAloft (k : StoreId) : Flight → Bool
  | .started j _ | .pending j => j = k
  | .rejected _ | .over => false

theorem Flight.aloft_or_grounded (flight : Flight) :
    (∃ k, flight.isAloft k = true) ∨ (∃ e, flight = .rejected e) ∨ flight = .over := by
  cases flight with
  | rejected e => exact Or.inr (Or.inl ⟨e, rfl⟩)
  | started k request => exact Or.inl ⟨k, decide_eq_true rfl⟩
  | pending k => exact Or.inl ⟨k, decide_eq_true rfl⟩
  | _ => exact Or.inr (Or.inr rfl)

/-- How many loads of the store are in flight. -/
def aloft (flights : List (String × Flight)) (k : StoreId) : Nat :=
  flights.countP fun entry => entry.2.isAloft k

/-- Loads go by different names, a store has one in flight if it is marked as loading and none
otherwise, and whatever goes by a name is there. -/
structure InOrder (u : Scene) : Prop where
  distinct : (Members.names u.memory.flights).Nodup
  marked : ∀ k, aloft u.memory.flights k = (u.store k).loading.toNat
  models : ∀ {name k}, (name, k) ∈ u.memory.models → k < u.stores.size
  named : ∀ {name k}, (name, k) ∈ u.memory.named → k < u.stores.size

/-! ## Counting -/

theorem aloft_insert (id : String) (flight : Flight) (k : StoreId) :
    ∀ flights : List (String × Flight),
      aloft (Members.insert id flight flights) k +
          ((Members.get? id flights).any (Flight.isAloft k)).toNat =
        aloft flights k + (flight.isAloft k).toNat
  | [] => by cases hf : flight.isAloft k <;> simp [Members.insert, Members.get?, aloft, hf]
  | (name, held) :: rest => by
    have ih := aloft_insert id flight k rest
    by_cases h : name = id
    · cases hf : flight.isAloft k <;> cases hh : held.isAloft k <;>
        simp [Members.insert, Members.get?, aloft, h, hf, hh]
    · simp only [aloft] at ih
      simp only [Members.insert, Members.get?, aloft, h, if_false, List.countP_cons]
      omega

theorem aloft_erase (id : String) (k : StoreId) : ∀ flights : List (String × Flight),
    aloft (Members.erase id flights) k + ((Members.get? id flights).any (Flight.isAloft k)).toNat =
      aloft flights k
  | [] => rfl
  | (name, held) :: rest => by
    have ih := aloft_erase id k rest
    by_cases h : name = id
    · cases hh : held.isAloft k <;> simp [Members.erase, Members.get?, aloft, h, hh]
    · simp only [aloft] at ih
      simp only [Members.erase, Members.get?, aloft, h, if_false, List.countP_cons]
      omega

/-! ## What the acts on loads do -/

def setLoading (u : Scene) (k : StoreId) (loading : Bool) : Scene :=
  u.setStore k { u.store k with loading }

/-- The scene with a flight under the name. -/
def holding (u : Scene) (id : String) (flight : Flight) : Scene :=
  { u with memory := { u.memory with flights := Members.insert id flight u.memory.flights } }

def without (u : Scene) (id : String) : Scene :=
  { u with memory := { u.memory with flights := Members.erase id u.memory.flights } }

/-- The scene with one more request made. -/
def asking (u : Scene) (request : Request) : Scene :=
  { u with memory := { u.memory with requests := u.memory.requests ++ [request] } }

/-- The scene after a flight was given up, if it was under way. -/
def released (u : Scene) : Option Flight → Scene
  | some (.started k _) | some (.pending k) => setLoading u k false
  | _ => u

/-- What is left of a load whose source has answered, with its request made at the latest now. -/
def ended (u : Scene) (id : String) : Flight → Scene
  | .started k request => setLoading (asking (holding u id .over) request) k false
  | .pending k => setLoading (holding u id .over) k false
  | _ => holding u id .over

/-- Asks the source of a load that was begun and not asked for yet. -/
def pollLoad (id : String) : Play Unit := do
  match Members.get? id (← get).memory.flights with
  | some (.started k request) =>
    setFlight id (.pending k)
    recordRequest request
  | _ => pure ()

theorem release_run (flight : Option Flight) (u : Scene) :
    (release flight).run u = (.ok (), released u flight) := by
  rcases flight with _ | ⟨_ | _ | _ | _⟩ <;> rfl

/-- A load that is turned away makes no request; all it can change is the flight that had its name.
-/
theorem beginLoad_run_error {location : Except StoreError Location} {method : Option String}
    {e : StoreError}
    (h : (u.store k).takeOff location method = .error e) (id : String) (poll : Bool) :
    (beginLoad k id location method poll).run u =
      if poll then (.error e, holding (released u (Members.get? id u.memory.flights)) id .over)
      else
        (.ok (.begun false),
          holding (released u (Members.get? id u.memory.flights)) id (.rejected e)) := by
  have refused := Store.takeOffIn_run k location method u
  rw [h] at refused
  unfold beginLoad
  rw [Action.run_bind, Action.run_attempt, refused]
  change (release _ >>= _).run u = _
  rw [Action.run_bind, release_run]
  cases poll <;> rfl

theorem beginLoad_run_ok {location : Except StoreError Location} {method : Option String}
    {request : Request} {s : Store} (h : (u.store k).takeOff location method = .ok (request, s))
    (id : String) (poll : Bool) :
    (beginLoad k id location method poll).run u =
      if poll then
        (.ok (.begun true),
          asking (holding (released (u.setStore k s) (Members.get? id u.memory.flights)) id
            (.pending k)) request)
      else
        (.ok (.begun false),
          holding (released (u.setStore k s) (Members.get? id u.memory.flights)) id
            (.started k request)) := by
  have accepted := Store.takeOffIn_run k location method u
  rw [h] at accepted
  unfold beginLoad
  rw [Action.run_bind, Action.run_attempt, accepted]
  change (release _ >>= _).run _ = _
  rw [Action.run_bind, release_run]
  cases poll <;> rfl

theorem pollLoad_run (u : Scene) (id : String) :
    (pollLoad id).run u = (.ok (),
      match Members.get? id u.memory.flights with
      | some (.started k request) => asking (holding u id (.pending k)) request
      | _ => u) := by
  unfold pollLoad
  rw [Action.run_bind, Action.run_get]
  dsimp only
  rcases Members.get? id u.memory.flights with _ | ⟨_ | _ | _ | _⟩ <;> rfl

theorem dropLoad_run (u : Scene) (id : String) :
    (dropLoad id).run u =
      (.ok (.flag (Members.get? id u.memory.flights).isSome),
        without (released u (Members.get? id u.memory.flights)) id) := by
  unfold dropLoad
  change (release _ >>= _).run u = _
  rw [Action.run_bind, release_run]
  rfl

/-- There is nothing to finish under a name that no load has or had last. -/
theorem finishLoad_run_missing
    (h : Members.get? id u.memory.flights = none ∨ Members.get? id u.memory.flights = some .over)
    (answer : Except StoreError Json) :
    (finishLoad id answer).run u = (.ok (.missing (.load id)), u) := by
  unfold finishLoad
  rw [Action.run_bind, Action.run_get]
  dsimp only
  rcases h with h | h
  · rw [h]; rfl
  · rw [h]; rfl

theorem finishLoad_run_rejected {e : StoreError}
    (h : Members.get? id u.memory.flights = some (.rejected e)) (answer : Except StoreError Json) :
    (finishLoad id answer).run u = (.error e, ended u id (.rejected e)) := by
  unfold finishLoad
  rw [Action.run_bind, Action.run_get]
  dsimp only
  rw [h]
  rfl

/-- A load whose source has failed is over, and nothing else has changed. -/
theorem finishLoad_run_error (h : Members.get? id u.memory.flights = some flight)
    (haloft : flight.isAloft k = true) (e : StoreError) :
    (finishLoad id (.error e)).run u = (.error e, ended u id flight) := by
  unfold finishLoad
  rw [Action.run_bind, Action.run_get]
  dsimp only
  rw [h]
  cases flight with
  | started => rfl
  | pending => rfl
  | _ => cases haloft

/-- A load whose source has answered is over, and then the answer is loaded. -/
theorem finishLoad_run_ok (h : Members.get? id u.memory.flights = some flight)
    (haloft : flight.isAloft k = true) (document : Json) :
    (finishLoad id (.ok document)).run u =
      (do Store.loadIn k document; return .loaded : Play Reply).run (ended u id flight) := by
  unfold finishLoad
  rw [Action.run_bind, Action.run_get]
  dsimp only
  rw [h]
  cases flight with
  | started j request =>
    obtain rfl : j = k := of_decide_eq_true haloft
    rfl
  | pending j =>
    obtain rfl : j = k := of_decide_eq_true haloft
    rfl
  | _ => cases haloft

/-! ## Marks -/

theorem loading_of_size_le (hk : u.stores.size ≤ k) : (u.store k).loading = false := by
  rw [Universe.store, Array.getElem?_eq_none hk]
  rfl

theorem loading_setLoading_false (u : Scene) (k j : StoreId) :
    ((setLoading u k false).store j).loading = ((u.store j).loading && !decide (k = j)) := by
  by_cases hj : k = j
  · subst hj
    rcases Nat.lt_or_ge k u.stores.size with hk | hk
    · rw [setLoading, Universe.store_setStore_self hk]
      simp
    · rw [setLoading, Universe.store_setStore_of_le hk, loading_of_size_le hk]
      rfl
  · rw [setLoading, Universe.store_setStore_of_ne (Ne.symm hj)]
    simp [hj]

theorem loading_setLoading_true (hk : k < u.stores.size) (j : StoreId) :
    ((setLoading u k true).store j).loading = ((u.store j).loading || decide (k = j)) := by
  by_cases hj : k = j
  · subst hj
    rw [setLoading, Universe.store_setStore_self hk]
    simp
  · rw [setLoading, Universe.store_setStore_of_ne (Ne.symm hj)]
    simp [hj]

/-- Giving up a flight takes the mark from its store, and from no other. -/
theorem loading_released (u : Scene) (held : Option Flight) (j : StoreId) :
    ((released u held).store j).loading =
      ((u.store j).loading && !held.any (Flight.isAloft j)) := by
  have grounded : (u.store j).loading = ((u.store j).loading && !false) := by simp
  rcases held with _ | ⟨_ | ⟨k, request⟩ | k | _⟩
  · exact grounded
  · exact grounded
  · exact loading_setLoading_false u k j
  · exact loading_setLoading_false u k j
  · exact grounded

theorem size_released (u : Scene) (held : Option Flight) :
    (released u held).stores.size = u.stores.size := by
  rcases held with _ | ⟨_ | _ | _ | _⟩
  · rfl
  · rfl
  · exact u.size_setStore _ _
  · exact u.size_setStore _ _
  · rfl

theorem memory_released (u : Scene) (held : Option Flight) :
    (released u held).memory = u.memory := by
  rcases held with _ | ⟨_ | _ | _ | _⟩ <;> rfl

namespace InOrder

/-- A flight is only held for a store that is marked. -/
theorem loading_of_get? (h : InOrder u) (hf : Members.get? id u.memory.flights = some flight)
    (ha : flight.isAloft k = true) : (u.store k).loading = true := by
  have counted : 0 < aloft u.memory.flights k :=
    List.countP_pos_iff.mpr ⟨_, Members.mem_of_get? hf, ha⟩
  rw [h.marked k] at counted
  cases hl : (u.store k).loading with
  | true => rfl
  | false => rw [hl] at counted; cases counted

theorem marks_released (hf : ∀ j, (Members.get? id u.memory.flights).any (Flight.isAloft j) = true →
      (u.store j).loading = true) (j : StoreId) :
    ((released u (Members.get? id u.memory.flights)).store j).loading.toNat +
        ((Members.get? id u.memory.flights).any (Flight.isAloft j)).toNat =
      (u.store j).loading.toNat := by
  rw [loading_released]
  have hj := hf j
  cases ha : (Members.get? id u.memory.flights).any (Flight.isAloft j) with
  | false => simp
  | true => simp [hj ha]

theorem loading_of_any (h : InOrder u) (id : String) (j : StoreId)
    (ha : (Members.get? id u.memory.flights).any (Flight.isAloft j) = true) :
    (u.store j).loading = true := by
  cases hf : Members.get? id u.memory.flights with
  | none => rw [hf] at ha; cases ha
  | some flight => rw [hf] at ha; exact h.loading_of_get? hf ha

/-- Changes that concern neither loads nor names. -/
theorem frame {v : Scene} (h : InOrder u) (hsize : v.stores.size = u.stores.size)
    (hloading : ∀ j, (v.store j).loading = (u.store j).loading)
    (hflights : v.memory.flights = u.memory.flights) (hmodels : v.memory.models = u.memory.models)
    (hnamed : v.memory.named = u.memory.named) : InOrder v where
  distinct := hflights ▸ h.distinct
  marked j := by rw [hflights, hloading, h.marked]
  models hm := hsize ▸ h.models (hmodels ▸ hm)
  named hm := hsize ▸ h.named (hnamed ▸ hm)

/-- A flight under a name, new or not, with the marks that go with it. -/
theorem replace {v : Scene} (h : InOrder u) (id : String) (flight : Flight)
    (hsize : v.stores.size = u.stores.size)
    (hflights : v.memory.flights = Members.insert id flight u.memory.flights)
    (hmodels : v.memory.models = u.memory.models) (hnamed : v.memory.named = u.memory.named)
    (hmarks : ∀ j, (v.store j).loading.toNat +
        ((Members.get? id u.memory.flights).any (Flight.isAloft j)).toNat =
      (u.store j).loading.toNat + (flight.isAloft j).toNat) : InOrder v where
  distinct := hflights ▸ Members.nodup_insert id flight h.distinct
  marked j := by
    have counted := aloft_insert id flight j u.memory.flights
    rw [h.marked, ← hmarks] at counted
    rw [hflights]
    exact Nat.add_right_cancel counted
  models hm := hsize ▸ h.models (hmodels ▸ hm)
  named hm := hsize ▸ h.named (hnamed ▸ hm)

/-- What held the name is given up, and what takes its place is not under way. -/
theorem grounded (h : InOrder u) (id : String) (flight : Flight)
    (hf : ∀ j, flight.isAloft j = false) :
    InOrder (holding (released u (Members.get? id u.memory.flights)) id flight) := by
  have memory := memory_released u (Members.get? id u.memory.flights)
  refine h.replace id flight (size_released u _) ?_ ?_ ?_ fun j => ?_
  · simp only [holding, memory]
  · simp only [holding, memory]
  · simp only [holding, memory]
  · rw [hf j]
    exact marks_released (h.loading_of_any id) j

/-- What held the name is given up, and a load of a store that had none takes its place. -/
theorem begun (h : InOrder u) (id : String) (flight : Flight) (hk : k < u.stores.size)
    (hidle : (u.store k).loading = false) (hf : ∀ j, flight.isAloft j = decide (k = j)) :
    InOrder (holding (released (setLoading u k true) (Members.get? id u.memory.flights)) id
      flight) := by
  have memory := memory_released (setLoading u k true) (Members.get? id u.memory.flights)
  have marks := loading_setLoading_true hk
  refine h.replace id flight ?_ ?_ ?_ ?_ fun j => ?_
  · exact (size_released _ _).trans (u.size_setStore k _)
  · simp only [holding, memory]; rfl
  · simp only [holding, memory]; rfl
  · simp only [holding, memory]; rfl
  · refine (marks_released (u := setLoading u k true) (fun j ha => ?_) j).trans ?_
    · rw [marks, h.loading_of_any id j ha, Bool.true_or]
    · rw [marks, hf]
      by_cases hj : k = j
      · subst hj; simp [hidle]
      · simp [hj]

/-- A load that was under way is over, and its store is no longer marked. -/
theorem ended (h : InOrder u) (hf : Members.get? id u.memory.flights = some flight) :
    InOrder (Session.ended u id flight) := by
  have grounded := h.grounded id .over fun _ => rfl
  rw [hf] at grounded
  cases flight with
  | started k request => exact grounded.frame rfl (fun _ => rfl) rfl rfl rfl
  | pending k => exact grounded.frame rfl (fun _ => rfl) rfl rfl rfl
  | _ => exact grounded

theorem dropped (h : InOrder u) (id : String) :
    InOrder (without (released u (Members.get? id u.memory.flights)) id) := by
  have memory := memory_released u (Members.get? id u.memory.flights)
  have size := size_released u (Members.get? id u.memory.flights)
  refine ⟨?_, fun j => ?_, fun hm => ?_, fun hm => ?_⟩
  · simp only [without, memory]
    exact Members.nodup_erase id h.distinct
  · have counted := aloft_erase id j u.memory.flights
    rw [h.marked, ← marks_released (h.loading_of_any id)] at counted
    simp only [without, memory]
    exact Nat.add_right_cancel counted
  · simp only [without, memory] at hm
    exact size ▸ h.models hm
  · simp only [without, memory] at hm
    exact size ▸ h.named hm

/-- Asking the source leaves the load under way. -/
theorem polled (h : InOrder u) (id : String) : InOrder ((pollLoad id).run u).2 := by
  rw [pollLoad_run]
  dsimp only
  split
  · next k request hf =>
    refine h.replace id (.pending k) rfl rfl rfl rfl fun j => ?_
    rw [hf]
    rfl
  · exact h

theorem tolerant : Universe.Tolerant InOrder := by
  intro u k s h hs
  refine h.frame (u.size_setStore k s) (fun j => ?_) rfl rfl rfl
  rcases u.store_setStore_cases k s j with hj | ⟨rfl, hj⟩
  · rw [hj]
  · rw [hj, hs]

theorem start : InOrder { memory := {} } := 
  ⟨List.nodup_nil, fun _ => rfl, fun h => absurd h List.not_mem_nil,
    fun h => absurd h List.not_mem_nil⟩

end InOrder

end LiveJson.Session

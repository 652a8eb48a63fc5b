import LiveJson.Proofs.Run.Steps
import LiveJson.Proofs.Store.Walks

/-! # Telling what is lost below a cell

Listeners below a cell that went are told on the way down, and may edit the document meanwhile: what
lies below a cell is what it holds when the way down gets there. That way is written down here as
one announcement after the other, without any bound on their number. While no cell is edited it only
follows the members of cells, so it ends if the listeners that it tells cease to edit; and if it
ends, the bounded descent does the same for every bound that is large enough. -/

namespace LiveJson.Store

variable {σ : Type} {listeners : Listeners σ} {u v w : Universe σ} {k : StoreId} {path : Path}
  {seen : List String}

/-- Tells the listeners at a location that what they listen to is gone, unless they know. The paths
told so far are handed on. -/
def announce (listeners : Listeners σ) (k : StoreId) (location : Path) (slot : Slot)
    (seen : List String) : Action σ (List String) := do
  let store ← Action.getStore k
  if store.registry.isListened location.toText && !seen.contains location.toText then
    dispatch listeners k location.toText
      { op := .delete, path := location.toText, old := some (Node.ofSlot k slot), new := none }
    return location.toText :: seen
  else return seen

/-- A listener that is alone at a location is told, unless it knows. -/
theorem announce_run {location : Path} {slot : Slot} {id : ListenerId}
    (alone : (u.store k).registry.listenersAt location.toText = [id])
    (unwritten : (u.store k).origin = none) (new : location.toText ∉ seen)
    (told : (listeners.tell id
      ⟨.delete, location.toText, some (Node.ofSlot k slot), none⟩).run u = (.ok (), v)) :
    (announce listeners k location slot seen).run u = (.ok (location.toText :: seen), v) := by
  have listened : (u.store k).registry.isListened location.toText = true := by
    cases hget : Members.get? location.toText (u.store k).registry.registered with
    | none =>
      rw [Registry.listenersAt, hget] at alone
      cases alone
    | some here =>
      rw [Registry.isListened, hget]
      rfl
  have hdispatch : (dispatch listeners k location.toText
      ⟨.delete, location.toText, some (Node.ofSlot k slot), none⟩).run u = (.ok (), v) := by
    unfold dispatch
    rw [Action.run_bind, Action.run_getStore]
    dsimp only
    rw [alone, unwritten]
    change ((listeners.tell id _ >>= fun _ => pure ()) : Action σ Unit).run u = _
    rw [Action.run_bind, told]
    rfl
  unfold announce
  rw [Action.run_bind, Action.run_getStore]
  dsimp only
  rw [listened, if_pos (by simpa using new), Action.run_bind, hdispatch]
  rfl

/-! ## Going down -/

/-- What the cell at a location holds, each with its location. -/
def below (s : Store) : Path × Slot → List (Path × Slot)
  | (_, .scalar _) => []
  | (path, .cell id) => (s.entries id).map fun entry => (path ++ [entry.1], entry.2)

/-- How far the way down has come: it goes on with what is to be announced, first comes first, or it
is over. -/
inductive Descent (σ : Type) where
  | under (ahead : List (Path × Slot)) (seen : List String) (u : Universe σ)
  | finished (outcome : Except StoreError (List String)) (u : Universe σ)

namespace Descent

/-- The way down below a cell that was at `path`. -/
def start (k : StoreId) (id : CellId) (path : Path) (seen : List String) (u : Universe σ) :
    Descent σ :=
  under ((u.store k).below (path, .cell id)) seen u

/-- The universe as it has become on the way. -/
def now : Descent σ → Universe σ
  | under _ _ u => u
  | finished _ u => u

/-- Announces what comes next, and goes on with what lies below it by then. -/
def step (listeners : Listeners σ) (k : StoreId) : Descent σ → Descent σ
  | under [] seen u => finished (.ok seen) u
  | under ((location, slot) :: ahead) seen u =>
    match (announce listeners k location slot seen).run u with
    | (.ok heard, v) => under ((v.store k).below (location, slot) ++ ahead) heard v
    | (.error e, v) => finished (.error e) v
  | finished outcome u => finished outcome u

/-- The way down comes to an end. -/
def Ends (listeners : Listeners σ) (k : StoreId) (d : Descent σ)
    (outcome : Except StoreError (List String)) (v : Universe σ) : Prop :=
  ∃ n, (step listeners k)^[n] d = finished outcome v

/-- From some announcement on, no listener that is told edits the document. -/
def Settles (listeners : Listeners σ) (k : StoreId) (d : Descent σ) : Prop :=
  ∃ last, ∀ n, last ≤ n → (((step listeners k)^[n + 1] d).now.store k).cells =
    (((step listeners k)^[n] d).now.store k).cells

end Descent

open Descent (step under finished Ends Settles)

section
variable {location : Path} {slot : Slot} {ahead : List (Path × Slot)}

theorem step_under_ok {heard : List String}
    (told : (announce listeners k location slot seen).run u = (.ok heard, v)) :
    step listeners k (under ((location, slot) :: ahead) seen u) =
      under ((v.store k).below (location, slot) ++ ahead) heard v := by
  simp only [step, told]

theorem step_under_error {e : StoreError}
    (told : (announce listeners k location slot seen).run u = (.error e, v)) :
    step listeners k (under ((location, slot) :: ahead) seen u) = finished (.error e) v := by
  simp only [step, told]

end

theorem iterate_finished (n : Nat) (outcome : Except StoreError (List String)) (u : Universe σ) :
    (step listeners k)^[n] (finished outcome u) = finished outcome u :=
  Function.iterate_fixed rfl n

/-! ## The bounded descent -/

/-- Announces one entry of a cell and then, by `next`, all below it. -/
def descend (listeners : Listeners σ) (k : StoreId)
    (next : CellId → Path → List String → Action σ (List String)) (seen : List String) :
    Path × Slot → Action σ (List String)
  | (location, .scalar v) => announce listeners k location (.scalar v) seen
  | (location, .cell child) => do
    let seen ← announce listeners k location (.cell child) seen
    next child location seen

theorem cascade_succ (n : Nat) (id : CellId) (path : Path) (seen : List String)
    (u : Universe σ) : (cascade listeners k (n + 1) id path seen).run u =
      (((u.store k).below (path, .cell id)).foldlM (descend listeners k (cascade listeners k n))
        seen).run u := by
  unfold cascade below
  rw [Action.run_bind, Action.run_getStore, List.foldlM_map]
  refine congrArg (fun step : List String → Key × Slot → Action σ (List String) =>
    (((u.store k).entries id).foldlM step seen : Action σ (List String)).run u) ?_
  funext seen entry w
  obtain ⟨key, slot⟩ := entry
  cases slot with
  | scalar v =>
    change (Action.getStore k >>= _).run w = (Action.getStore k >>= _).run w
    rw [Action.run_bind, Action.run_bind, Action.run_getStore]
    dsimp only
    cases (w.store k).registry.isListened (path ++ [key]).toText &&
      !seen.contains (path ++ [key]).toText <;> rfl
  | cell child =>
    change (Action.getStore k >>= _).run w = ((Action.getStore k >>= _) >>= _).run w
    rw [Action.run_bind, Action.run_bind, Action.run_bind, Action.run_getStore]
    dsimp only
    cases (w.store k).registry.isListened (path ++ [key]).toText &&
      !seen.contains (path ++ [key]).toText with
    | false => rfl
    | true =>
      simp only [if_true]
      rw [Action.run_bind, Action.run_bind]
      rcases (dispatch listeners k _ _).run w with ⟨_ | _, v⟩ <;> rfl

section
variable {location : Path} {slot : Slot}

theorem descend_run_error {next : CellId → Path → List String → Action σ (List String)}
    {e : StoreError} (told : (announce listeners k location slot seen).run u = (.error e, v)) :
    (descend listeners k next seen (location, slot)).run u = (.error e, v) := by
  cases slot with
  | scalar value => exact told
  | cell child => rw [descend, Action.run_bind, told]

/-- An entry has been announced, and what lies below it is next. -/
theorem descend_run_ok {heard : List String}
    (told : (announce listeners k location slot seen).run u = (.ok heard, v)) (n : Nat) :
    (descend listeners k (cascade listeners k (n + 1)) seen (location, slot)).run u =
      (((v.store k).below (location, slot)).foldlM (descend listeners k (cascade listeners k n))
        heard).run v := by
  cases slot with
  | scalar value => exact told
  | cell child =>
    rw [descend, Action.run_bind, told]
    exact cascade_succ n child location heard v

end

/-- Where a way down ends, its first part is what the bounded descent does for every bound from some
number on: it fails and so ends the way, or the rest ends in no more steps. -/
theorem foldlM_of_iterate : ∀ (n : Nat) {front rest : List (Path × Slot)} {seen : List String}
    {outcome : Except StoreError (List String)} {u w : Universe σ},
    (step listeners k)^[n] (under (front ++ rest) seen u) = finished outcome w →
    ∃ depth result v, (∀ m, depth ≤ m →
        (front.foldlM (descend listeners k (cascade listeners k m)) seen).run u = (result, v)) ∧
      ((∃ e, result = .error e ∧ outcome = .error e ∧ v = w) ∨
        ∃ heard, result = .ok heard ∧ ∃ j ≤ n, (step listeners k)^[j] (under rest heard v) =
          finished outcome w) := by
  intro n
  induction n using Nat.strong_induction_on with
  | _ n ih =>
  intro front rest seen outcome u w h
  cases front with
  | nil => exact ⟨0, .ok seen, u, fun _ _ => rfl, .inr ⟨seen, rfl, n, Nat.le_refl n, h⟩⟩
  | cons entry front =>
    cases n with
    | zero => cases h
    | succ n =>
      obtain ⟨location, slot⟩ := entry
      rw [Function.iterate_succ_apply, List.cons_append] at h
      rcases told : (announce listeners k location slot seen).run u with ⟨e | heard, v⟩
      · rw [step_under_error told, iterate_finished] at h
        cases h
        refine ⟨0, .error e, w, fun m _ => ?_, .inl ⟨e, rfl, rfl, rfl⟩⟩
        rw [List.foldlM_cons, Action.run_bind, descend_run_error told]
      · rw [step_under_ok told] at h
        -- First the way goes through what lies below the entry, then on to the others.
        obtain ⟨depth, result, x, bounded, onward⟩ := ih n (Nat.lt_succ_self n) h
        have entered : ∀ m, depth + 1 ≤ m →
            (descend listeners k (cascade listeners k m) seen (location, slot)).run u =
              (result, x) := by
          intro m hm
          obtain ⟨m, rfl⟩ : ∃ j, m = j + 1 := ⟨m - 1, by omega⟩
          rw [descend_run_ok told, bounded m (Nat.le_of_succ_le_succ hm)]
        obtain ⟨e, rfl, rfl, rfl⟩ | ⟨found, rfl, j, hj, h⟩ := onward
        · refine ⟨depth + 1, .error e, x, fun m hm => ?_, .inl ⟨e, rfl, rfl, rfl⟩⟩
          rw [List.foldlM_cons, Action.run_bind, entered m hm]
        · obtain ⟨depth', result, y, bounded', onward⟩ := ih j (Nat.lt_succ_of_le hj) h
          refine ⟨max (depth + 1) depth', result, y, fun m hm => ?_, onward.imp_right ?_⟩
          · rw [List.foldlM_cons, Action.run_bind, entered m (by omega)]
            exact bounded' m (by omega)
          · rintro ⟨last, hresult, i, hi, h⟩
            exact ⟨last, hresult, i, by omega, h⟩

/-- A way down that ends is what the bounded descent does, for every bound from some number on. -/
theorem cascade_of_ends {id : CellId} {outcome : Except StoreError (List String)}
    (h : (Descent.start k id path seen u).Ends listeners k outcome v) :
    ∃ depth, ∀ n, depth ≤ n → (cascade listeners k n id path seen).run u = (outcome, v) := by
  obtain ⟨n, h⟩ := h
  rw [Descent.start, ← List.append_nil (below _ _)] at h
  obtain ⟨depth, result, x, bounded, onward⟩ := foldlM_of_iterate n h
  have same : (result, x) = (outcome, v) := by
    obtain ⟨e, rfl, rfl, rfl⟩ | ⟨heard, rfl, j, -, h⟩ := onward
    · rfl
    · cases j with
      | zero => cases h
      | succ j =>
        rw [Function.iterate_succ_apply, step, iterate_finished] at h
        cases h
        rfl
  refine ⟨depth + 1, fun m hm => ?_⟩
  obtain ⟨m, rfl⟩ : ∃ j, m = j + 1 := ⟨m - 1, by omega⟩
  rw [cascade_succ, bounded m (Nat.le_of_succ_le_succ hm), same]

/-! ## Ways down that come to an end -/

/-- Nothing that is told on the way down edits the cells any more. -/
def Descent.Still (listeners : Listeners σ) (k : StoreId) (s : Store) (d : Descent σ) : Prop :=
  ∀ n, (((step listeners k)^[n] d).now.store k).cells = s.cells

/-- From here the way down ends, unless cells are edited. -/
def Arrives (listeners : Listeners σ) (k : StoreId) (s : Store) (ahead : List (Path × Slot)) :
    Prop :=
  ∀ seen u, (under ahead seen u).Still listeners k s →
    ∃ outcome v, (under ahead seen u).Ends listeners k outcome v

section
variable {s : Store} {d : Descent σ} {ahead : List (Path × Slot)}

theorem below_frame {t : Store} (h : t.cells = s.cells) (entry : Path × Slot) :
    t.below entry = s.below entry := by
  obtain ⟨path, value | id⟩ := entry
  · rfl
  · rw [below, below, Store.entries, Store.entries, content?_frame h]

theorem Descent.Still.step (h : d.Still listeners k s) :
    (step listeners k d).Still listeners k s := fun n => h (n + 1)

theorem Descent.Ends.of_step {outcome : Except StoreError (List String)}
    (h : (step listeners k d).Ends listeners k outcome v) : d.Ends listeners k outcome v :=
  h.imp' (· + 1) fun _ h => h

theorem arrives_nil : Arrives listeners k s [] := fun seen u _ => ⟨.ok seen, u, 1, rfl⟩

theorem Arrives.cons {entry : Path × Slot} (h : Arrives listeners k s (s.below entry ++ ahead)) :
    Arrives listeners k s (entry :: ahead) := by
  intro seen u still
  obtain ⟨location, slot⟩ := entry
  have next := still.step
  rcases told : (announce listeners k location slot seen).run u with ⟨e | heard, v⟩
  · exact ⟨.error e, v, 1, step_under_error told⟩
  · rw [step_under_ok told] at next
    have same : (v.store k).below (location, slot) = s.below (location, slot) :=
      below_frame (next 0) _
    rw [same] at next
    obtain ⟨outcome, w, ends⟩ := h heard v next
    refine ⟨outcome, w, .of_step ?_⟩
    rwa [step_under_ok told, same]

/-- Until the next edit the way goes down in the cells as they are, and no cell lies below itself. -/
theorem Formed.arrives_below (hs : s.Formed) : ∀ (id : CellId) (path : Path) {ahead},
    Arrives listeners k s ahead → Arrives listeners k s (s.below (path, .cell id) ++ ahead) := by
  refine hs.induction fun id members path ahead h => ?_
  suffices hall : ∀ entries : List (Key × Slot), (∀ entry ∈ entries, entry ∈ s.entries id) →
      Arrives listeners k s
        (entries.map (fun entry => (path ++ [entry.1], entry.2)) ++ ahead) from
    hall _ fun _ hentry => hentry
  intro entries
  induction entries with
  | nil => exact fun _ => h
  | cons entry entries ih =>
    intro hmem
    obtain ⟨key, slot⟩ := entry
    have onward := ih fun entry hentry => hmem entry (List.mem_cons_of_mem _ hentry)
    refine .cons ?_
    cases slot with
    | scalar value => exact onward
    | cell child => exact members child ⟨key, hmem _ List.mem_cons_self⟩ _ onward

theorem Formed.arrives (hs : s.Formed) : ∀ ahead, Arrives listeners k s ahead
  | [] => arrives_nil
  | (_, .scalar _) :: ahead => .cons (hs.arrives ahead)
  | (path, .cell id) :: ahead => .cons (hs.arrives_below id path (hs.arrives ahead))

theorem Descent.Ends.settles {outcome : Except StoreError (List String)}
    (h : d.Ends listeners k outcome v) : d.Settles listeners k := by
  obtain ⟨last, h⟩ := h
  have still : ∀ n, last ≤ n → (Descent.step listeners k)^[n] d = finished outcome v := by
    intro n hn
    obtain ⟨m, rfl⟩ := Nat.exists_eq_add_of_le' hn
    rw [Function.iterate_add_apply, h, iterate_finished]
  refine ⟨last, fun n hn => ?_⟩
  rw [still n hn, still (n + 1) (Nat.le_succ_of_le hn)]

/-- A way down ends if the listeners that are told on it cease to edit. -/
theorem Descent.Settles.ends (h : d.Settles listeners k)
    (formed : ∀ n, (((Descent.step listeners k)^[n] d).now.store k).Formed) :
    ∃ outcome v, d.Ends listeners k outcome v := by
  obtain ⟨last, settled⟩ := h
  generalize hd : (Descent.step listeners k)^[last] d = d'
  have later : ∀ n, (Descent.step listeners k)^[n + last] d = (Descent.step listeners k)^[n] d' :=
    fun n => by rw [Function.iterate_add_apply, hd]
  have still : d'.Still listeners k (d'.now.store k) := by
    intro n
    induction n with
    | zero => rfl
    | succ n ih =>
      have same := settled (n + last) (Nat.le_add_left ..)
      rw [Nat.add_right_comm, later, later] at same
      exact same.trans ih
  cases d' with
  | finished outcome v => exact ⟨outcome, v, last, hd⟩
  | under ahead seen u =>
    have hu := formed last
    rw [hd] at hu
    obtain ⟨outcome, v, n, h⟩ := hu.arrives ahead seen u still
    exact ⟨outcome, v, n + last, (later n).trans h⟩

theorem leading_announce {A : StoreId → Policy} {J : Journal} {listeners : Listeners Journal}
    (hl : ∀ id change, (listeners.tell id change).Leading A J) (location : Path) (slot : Slot)
    (seen : List String) : (announce listeners k location slot seen).Leading A J := by
  refine Action.leading_getStore fun u => ?_
  split
  · exact (leading_dispatch hl _ _).bind (fun _ => Action.leading_pure _) u
  · exact .refl u

end

end LiveJson.Store

namespace LiveJson.Universe

open Store (Policy)

variable {react : ListenerId → Change → Client} {reach depth : Nat} {k : StoreId}

/-- Telling of a loss leaves every store reached by steps. -/
theorem Stepwise.announce {u : Universe Journal} (hu : u.Stepwise Policy.free) (location : Path)
    (slot : Slot) (seen : List String) :
    ((Store.announce (Client.reacting react reach depth) k location slot seen).run u).2.Stepwise
      Policy.free := by
  have free := Journal.compliesBy_free
  exact (Store.leading_announce (Client.leading_reacting (free _) react reach depth) location slot
    seen u).keeps (List.suffix_refl _) hu

theorem Stepwise.descends {d : Store.Descent Journal} (h : d.now.Stepwise Policy.free)
    (n : Nat) :
    ((Store.Descent.step (Client.reacting react reach depth) k)^[n] d).now.Stepwise
      Policy.free := by
  induction n with
  | zero => exact h
  | succ n ih =>
    rw [Function.iterate_succ_apply']
    generalize (Store.Descent.step _ _)^[n] d = d' at ih
    obtain ⟨_ | ⟨⟨location, slot⟩, ahead⟩, seen, u⟩ | ⟨outcome, u⟩ := d'
    · exact ih
    · have heard : ((Store.announce (Client.reacting react reach depth) k location slot seen).run
          u).2.Stepwise Policy.free := ih.announce location slot seen
      rw [Store.Descent.step]
      split
      all_goals
        next told =>
          rw [told] at heard
          exact heard
    · exact ih

end LiveJson.Universe

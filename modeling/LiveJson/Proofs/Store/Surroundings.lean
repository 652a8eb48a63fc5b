import LiveJson.Proofs.Store.Cells
import LiveJson.Store.Edit

/-! # What an edit leaves alone

An edit works on the cells of a store, and a load also on its root. Who listens, who is behind a
write, whether a document is being fetched and whether anybody can reach the store stay as they are,
whatever state the store is in. -/

namespace LiveJson.Store

variable {s t : Store} {id : CellId}

/-- The store without its cells. -/
def hollow (s : Store) : Store := { s with cells := #[] }

theorem rest_of_hollow (h : t.hollow = s.hollow) : t = { s with cells := t.cells } :=
  congrArg (fun u : Store => { u with cells := t.cells }) h

theorem surroundings_of_hollow (h : t.hollow = s.hollow) : t.surroundings = s.surroundings :=
  show t.hollow.surroundings = s.hollow.surroundings by rw [h]

/-! ## Walks change places only -/

section
variable {α β : Type} {view : Store → β}

theorem foldl_view {f : Store → α → Store} (h : ∀ s a, view (f s a) = view s) :
    ∀ (l : List α) (s : Store), view (l.foldl f s) = view s
  | [], _ => rfl
  | a :: l, s => (foldl_view h l (f s a)).trans (h s a)

variable (h : ∀ s id place, view (setPlace s id place) = view s)
include h

/-- What does not depend on places stays when a cell is relocated. -/
theorem relocateTo_view : ∀ (n : Nat) (id : CellId) (place : Path) (s : Store),
    view (relocateTo n id place s) = view s
  | 0, _, _, _ => rfl
  | n + 1, id, place, s => by
    refine (h _ id _).trans (foldl_view (fun s entry => ?_) (s.entries id) s)
    obtain ⟨key, slot⟩ := entry
    cases slot with
    | scalar v => rfl
    | cell child => exact relocateTo_view n child _ s

theorem forgetTo_view : ∀ (n : Nat) (id : CellId) (location : Path) (s : Store),
    view (forgetTo n id location s) = view s
  | 0, _, _, _ => rfl
  | n + 1, id, location, s => by
    unfold forgetTo
    split
    · refine (foldl_view (fun s entry => ?_) (s.entries id) (s.setPlace id none)).trans (h s id _)
      obtain ⟨key, slot⟩ := entry
      cases slot with
      | scalar v => rfl
      | cell child => exact forgetTo_view n child location s
    · rfl

end

theorem hollow_relocateTo : ∀ (n : Nat) (id : CellId) (place : Path) (s : Store),
    (relocateTo n id place s).hollow = s.hollow :=
  relocateTo_view fun _ _ _ => rfl

theorem hollow_forgetTo : ∀ (n : Nat) (id : CellId) (location : Path) (s : Store),
    (forgetTo n id location s).hollow = s.hollow :=
  forgetTo_view fun _ _ _ => rfl

theorem hollow_forgetSlot (slot : Slot) (location : Path) :
    (s.forgetSlot slot location).hollow = s.hollow := by
  cases slot with
  | scalar v => rfl
  | cell id => exact hollow_forgetTo _ id location s

mutual

theorem hollow_wrap (place : Path) : ∀ (v : Json) (s : Store),
    (wrap place v s).2.hollow = s.hollow
  | .array items, s => hollow_wrapItems place items 0 s
  | .object members, s => hollow_wrapMembers place members s
  | .null, _ | .bool _, _ | .number _, _ | .string _, _ => rfl

theorem hollow_wrapItems (place : Path) : ∀ (vs : List Json) (start : Nat) (s : Store),
    (wrapItems place start vs s).2.hollow = s.hollow
  | [], _, _ => rfl
  | v :: vs, start, s =>
    (hollow_wrapItems place vs (start + 1) _).trans (hollow_wrap _ v s)

theorem hollow_wrapMembers (place : Path) : ∀ (ms : List (String × Json)) (s : Store),
    (wrapMembers place ms s).2.hollow = s.hollow
  | [], _ => rfl
  | (_, v) :: ms, s => (hollow_wrapMembers place ms _).trans (hollow_wrap _ v s)

end

theorem hollow_place (location : Path) (incoming : Incoming) :
    (s.place location incoming).2.hollow = s.hollow := by
  cases incoming with
  | move child => exact hollow_relocateTo _ child location s
  | copy v => exact hollow_wrap location v s

/-! ## Whole edits -/

theorem rest_load {document : Json} (h : s.load document = .ok t) :
    t = { s with cells := t.cells, root := t.root, reloadDue := true } := by
  have wrapped := hollow_wrap [] document s
  unfold load at h
  split at h
  · cases h
  · next root u hwrap =>
    rw [hwrap] at wrapped
    have loaded : ∀ {t : Store}, t.hollow = { u.hollow with root := some root, reloadDue := true } →
        t = { s with cells := t.cells, root := t.root, reloadDue := true } := by
      intro t ht
      have hroot : t.root = some root := show t.hollow.root = some root by rw [ht]
      rw [show u.hollow = s.hollow from wrapped] at ht
      rw [hroot]
      exact congrArg (fun w : Store => { w with cells := t.cells }) ht
    split at h
    · cases h
      exact loaded (hollow_forgetTo _ _ _ _)
    · cases h
      exact loaded rfl

theorem hollow_set {key : Key} {incoming : Incoming} {edit : Edit}
    (h : s.set id key incoming = .ok (edit, t)) : t.hollow = s.hollow := by
  unfold set at h
  obtain ⟨path, -, h⟩ := bind_eq_ok.mp h
  obtain ⟨key, -, h⟩ := bind_eq_ok.mp h
  split at h
  · cases h
  split at h
  · cases h
  generalize s.get? id key = old at h
  cases old with
  | none =>
    cases h
    refine Eq.trans ?_ (hollow_place (path ++ [key]) incoming)
    dsimp only
    split <;> rfl
  | some old =>
    cases h
    refine Eq.trans ?_ ((hollow_place (path ++ [key]) incoming).trans
      (hollow_forgetSlot old (path ++ [key])))
    dsimp only
    split <;> rfl

theorem rest_set {key : Key} {incoming : Incoming} {edit : Edit}
    (h : s.set id key incoming = .ok (edit, t)) : t = { s with cells := t.cells } :=
  rest_of_hollow (hollow_set h)

theorem hollow_eraseAt (id : CellId) (key : Key) (location : Path) :
    (s.eraseAt id key location).hollow = s.hollow := by
  unfold eraseAt
  cases s.content? id <;> cases s.get? id key
  · rfl
  · exact hollow_forgetSlot _ _
  · rfl
  · exact hollow_forgetSlot _ _

theorem hollow_reseat (id : CellId) (path : Path) (start : Nat) :
    (s.reseat id path start).hollow = s.hollow := by
  refine foldl_view (fun s entry => ?_) _ s
  obtain ⟨key, slot⟩ := entry
  cases slot with
  | scalar v => rfl
  | cell child => exact hollow_relocateTo _ child _ s

theorem hollow_delete {key : Key} {removal : Removal}
    (h : s.delete id key = .ok (some (removal, t))) : t.hollow = s.hollow := by
  unfold delete at h
  obtain ⟨path, -, h⟩ := bind_eq_ok.mp h
  obtain ⟨key, -, h⟩ := bind_eq_ok.mp h
  split at h
  · cases h
  · cases key with
    | name n =>
      cases h
      exact hollow_eraseAt id _ _
    | index start =>
      dsimp only at h
      split at h
      · cases h
      · cases h
        exact (hollow_reseat id path start).trans (hollow_eraseAt id _ _)

theorem rest_delete {key : Key} {removal : Removal}
    (h : s.delete id key = .ok (some (removal, t))) : t = { s with cells := t.cells } :=
  rest_of_hollow (hollow_delete h)

theorem surroundings_load {document : Json} (h : s.load document = .ok t) :
    t.surroundings = s.surroundings := by
  rw [rest_load h]
  rfl

theorem surroundings_set {key : Key} {incoming : Incoming} {edit : Edit}
    (h : s.set id key incoming = .ok (edit, t)) : t.surroundings = s.surroundings :=
  surroundings_of_hollow (hollow_set h)

theorem surroundings_delete {key : Key} {removal : Removal}
    (h : s.delete id key = .ok (some (removal, t))) : t.surroundings = s.surroundings :=
  surroundings_of_hollow (hollow_delete h)

/-! ## Subscribing -/

theorem subscribe_frame (query : String) (listener : ListenerId) :
    ∃ registry, (s.subscribe query listener).2 = { s with registry } := by
  unfold subscribe
  simp only
  split <;> exact ⟨_, rfl⟩

theorem unsubscribe_frame (query : String) (listener : ListenerId) :
    ∃ registry, (s.unsubscribe query listener).2 = { s with registry } := by
  unfold unsubscribe
  simp only
  split <;> exact ⟨_, rfl⟩

theorem subscribe_origin (s : Store) (query : String) (listener : ListenerId) :
    (s.subscribe query listener).2.origin = s.origin := by
  obtain ⟨registry, h⟩ := s.subscribe_frame query listener
  rw [h]

theorem unsubscribe_origin (s : Store) (query : String) (listener : ListenerId) :
    (s.unsubscribe query listener).2.origin = s.origin := by
  obtain ⟨registry, h⟩ := s.unsubscribe_frame query listener
  rw [h]

end LiveJson.Store

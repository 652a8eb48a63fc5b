import LiveJson.Proofs.Run.Steps

/-! # Where cells are found in a run

At any time of a run, whoever writes and however listeners react, the place of a cell leads to it:
following the place from the root of the document arrives at the cell, and each stop on the way is a
cell whose place is the way so far. -/

namespace LiveJson

open Store (Policy)

namespace Universe

variable {σ : Type} {u : Universe σ}

/-- What a node holds at a key. -/
def member (u : Universe σ) (node : Node) (key : Key) : Option Node :=
  match node with
  | .plain _ => none
  | .cell ref => ((u.store ref.store).get? ref.cell key).map (Node.ofSlot ref.store)

/-- Follows a path key by key from the root of a document. -/
def follow (u : Universe σ) (k : StoreId) (path : Path) : Option Node :=
  ((u.store k).root.map fun id => Node.cell ⟨k, id⟩).bind fun root => path.foldlM u.member root

theorem follow_eq (u : Universe σ) (k : StoreId) (path : Path) :
    u.follow k path = ((u.store k).at? path).map (Node.ofSlot k) := by
  have walk : ∀ (path : Path) (slot : Slot), path.foldlM u.member (Node.ofSlot k slot) =
      (path.foldlM (u.store k).member slot).map (Node.ofSlot k) := by
    intro path
    induction path with
    | nil => intro slot; rfl
    | cons key path ih =>
      intro slot
      have hm : u.member (Node.ofSlot k slot) key =
          ((u.store k).member slot key).map (Node.ofSlot k) := by cases slot <;> rfl
      rw [List.foldlM_cons, List.foldlM_cons, hm]
      cases (u.store k).member slot key with
      | none => rfl
      | some slot => exact ih slot
  unfold follow Store.at?
  cases (u.store k).root with
  | none => rfl
  | some id => exact walk path (.cell id)

/-- **At every moment of every run, the place of a cell leads to it, by way of cells whose places
are the stops on the way; so no cell outside the document has a place.** -/
theorem Reached.place_leads {u : Universe Journal} {react : ListenerId → Change → Client}
    {reach depth : Nat} (h : u.Reached (Client.reacting react reach depth)) {stores : Array Store}
    (hs : u.Passed stores) :
    (∀ ref p, (seen stores).place? ref = some p →
      (seen stores).follow ref.store p = some (.cell ref) ∧
      ∀ q, q <+: p → ∃ e, (seen stores).follow ref.store q = some (.cell ⟨ref.store, e⟩) ∧
        (seen stores).place? ⟨ref.store, e⟩ = some q) ∧
    ∀ k d p, ((seen stores).store k).place? d = some p →
      ∃ root, ((seen stores).store k).root = some root ∧
        ((seen stores).store k).Reaches root d := by
  have hu : u.Stepwise Policy.free := h.stepwise_free
  have reachable := hu.seen hs
  have place : ∀ ref, (seen stores).place? ref = ((seen stores).store ref.store).place? ref.cell :=
    fun ref => if_pos (reachable ref.store).alive
  refine ⟨fun ref p hp => ?_, fun k d p hp => (reachable k).sound.reaches_root hp⟩
  have sound := (reachable ref.store).sound
  have follow : ∀ {e q}, ((seen stores).store ref.store).place? e = some q →
      (seen stores).follow ref.store q = some (.cell ⟨ref.store, e⟩) := by
    intro e q he
    rw [follow_eq, sound.at?_place he]
    rfl
  rw [place] at hp
  refine ⟨follow hp, ?_⟩
  intro q h
  obtain ⟨r, rfl⟩ := h
  obtain ⟨e, he⟩ := sound.place?_prefix r hp
  exact ⟨e, follow he, (place ⟨ref.store, e⟩).trans he⟩

/-- The document `{"a": {"b": {}}}`, of cells `0` to `2` from the inside out. -/
def nested : Document where
  json := .object [("a", .object [("b", .object [])])]
  wellFormed := by simp [Json.WellFormed, Json.MembersWellFormed, Members.names]

def afterLoad : Universe Journal := (((Operation.load 0 nested).run (recording 0)).run (start 1)).2

theorem reached_afterLoad : afterLoad.Reached (recording 0) := .next (.start 1) (.load 0 nested)

/-- The member `b` of the member `a` is written to the root, under `key`. -/
def nestedMove (key : String) : Operation := .set ⟨0, 2⟩ (.name key) (.cell ⟨0, 0⟩)

def afterMove (key : String) : Universe Journal :=
  (((nestedMove key).run (recording 0)).run afterLoad).2

theorem reached_afterMove (key : String) : (afterMove key).Reached (recording 0) :=
  .next reached_afterLoad (nestedMove key)

theorem place_leads_after_move :
    (seen (afterMove "c").stores).place? ⟨0, 0⟩ = some [.name "c"] ∧
      (seen (afterMove "c").stores).follow 0 [.name "c"] = some (.cell ⟨0, 0⟩) := by
  have hp : (seen (afterMove "c").stores).place? ⟨0, 0⟩ = some [.name "c"] := by rfl
  exact ⟨hp, (((reached_afterMove "c").place_leads (.inl rfl)).1 _ _ hp).1⟩

end Universe

end LiveJson

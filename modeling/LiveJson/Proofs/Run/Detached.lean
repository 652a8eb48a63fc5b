import LiveJson.Proofs.Run.Views
import LiveJson.Proofs.Store.Copied
import LiveJson.Proofs.Store.Severed

/-! # Cells that have left the document

In a run where no cell of a document is written into it again, a cell that does not lie in the
document at one moment is out for good: at that moment and at every later one it has no place, nothing
can be written through it, and it reads as it did. Whoever writes it somewhere writes its value: the
document takes up a copy, which shares nothing with it. -/

namespace LiveJson

open Store (Policy)

namespace Universe

variable {σ : Type} {u : Universe σ} {ref : CellRef} {value : Json}

/-- The cell is out of the document of its store, and reads as the value. -/
structure Detached (u : Universe σ) (ref : CellRef) (value : Json) : Prop where
  place : u.place? ref = none
  reads : u.toJson (.cell ref) = value
  write : ∀ listeners key node,
    (Store.write listeners ref key node).run u = (.error .detached, u)
  remove : ∀ listeners key, (Store.remove listeners ref key).run u = (.error .detached, u)
  push : ∀ listeners node, (Store.push listeners ref node).run u =
    (.error (if (u.store ref.store).isArray ref.cell then .detached
      else .invalidKey (toString ((u.store ref.store).length ref.cell))), u)
  written : ∀ listeners target key, (Store.write listeners target key (.cell ref)).run u =
    (Store.write listeners target key (.plain value)).run u
  pushed : ∀ listeners target, (Store.push listeners target (.cell ref)).run u =
    (Store.push listeners target (.plain value)).run u
  changed : ∀ listeners j path origin, (Store.change listeners j path (.cell ref) origin).run u =
    (Store.change listeners j path (.plain value) origin).run u
  copied : ∀ j id key {edit s},
    (u.store j).set id key (u.incoming j (.cell ref)) = .ok (edit, s) →
      ∃ x, edit.new = some (.cell x) ∧ Store.Copied (u.store j) s edit.location value x

/-! ## A cell without a place -/

theorem place?_eq_none (h : (u.store ref.store).place? ref.cell = none) : u.place? ref = none := by
  rw [place?]
  split
  · exact h
  · rfl

theorem incoming_of_unplaced (h : (u.store ref.store).place? ref.cell = none) (j : StoreId) :
    u.incoming j (.cell ref) = .copy (u.toJson (.cell ref)) := by
  rw [incoming, if_neg]
  rintro ⟨rfl, hsome⟩
  rw [h] at hsome
  cases hsome

theorem write_plain (h : (u.store ref.store).place? ref.cell = none) (listeners : Listeners σ)
    (target : CellRef) (key : Key) : (Store.write listeners target key (.cell ref)).run u =
      (Store.write listeners target key (.plain (u.toJson (.cell ref)))).run u := by
  rw [Store.write_run, Store.write_run, incoming_of_unplaced h]
  rfl

/-- Whoever is behind a change, the cells are the same. -/
theorem unplaced_setOrigin (u : Universe σ) (ref : CellRef) (j : StoreId)
    (origin : Option ListenerId) :
    ((u.setStore j { u.store j with origin }).store ref.store).place? ref.cell =
        (u.store ref.store).place? ref.cell ∧
      (u.setStore j { u.store j with origin }).toJson (.cell ref) = u.toJson (.cell ref) := by
  have hcells : ((u.setStore j { u.store j with origin }).store ref.store).cells =
      (u.store ref.store).cells := by
    rcases u.store_setStore_cases j { u.store j with origin } ref.store with h | ⟨hj, h⟩
    · rw [h]
    · rw [h, hj]
  constructor
  · rw [Store.place?, hcells]
    rfl
  · rw [toJson, toJson, Store.toJson_frame hcells]

theorem detached_of_unplaced (hsound : ∀ j, (u.store j).Sound)
    (hd : ref.cell < (u.store ref.store).cells.size)
    (h : (u.store ref.store).place? ref.cell = none) :
    u.Detached ref (u.toJson (.cell ref)) where
  place := place?_eq_none h
  reads := rfl
  write listeners key node := by rw [Store.write_run, Store.set_of_unplaced h]
  remove listeners key := by rw [Store.remove_run, Store.delete_of_unplaced h]
  push listeners node := by
    rw [Store.push_run, Store.write_run, Store.set_of_unplaced h]
    split <;> rfl
  written := write_plain h
  pushed listeners target := by rw [Store.push_run, Store.push_run, write_plain h]
  changed listeners j path origin := by
    rw [Store.change_run, Store.change_run]
    cases (u.store j).locate path with
    | error e => rfl
    | ok located =>
      obtain ⟨hplace, hreads⟩ := u.unplaced_setOrigin ref j origin
      dsimp only
      rw [write_plain (hplace.trans h), hreads]
  copied j id key edit s hset := by
    rw [incoming_of_unplaced h] at hset
    exact (hsound j).copied_set ((hsound ref.store).toJson_wellFormed ref.cell)
      ((hsound ref.store).isComposite_toJson hd) hset

/-! ## From moment to moment -/

/-- At some moment the stores were as they are in `earlier`, and at this moment or later as they are in
`later`. -/
def Since (u : Universe Journal) (earlier later : Array Store) : Prop :=
  ∃ newer older, u.states = newer ++ earlier :: older ∧ later ∈ newer ++ [earlier]

theorem Since.passed {u : Universe Journal} {earlier later : Array Store}
    (h : u.Since earlier later) : u.Passed earlier ∧ u.Passed later := by
  have passed : ∀ stores ∈ u.states, u.Passed stores := fun stores hs =>
    (List.mem_cons.mp hs).imp id List.mem_map.mp
  obtain ⟨newer, older, hstates, hlater⟩ := h
  refine ⟨passed _ (by simp [hstates]), passed _ ?_⟩
  rw [hstates, List.append_cons]
  exact List.mem_append_left _ hlater

theorem ChainedBy.since {A : StoreId → Policy} {u : Universe Journal} {earlier later : Array Store}
    (h : u.ChainedBy A) (hsince : u.Since earlier later) (k : StoreId) :
    Relation.ReflTransGen (Store.Step (A k)) ((seen earlier).store k) ((seen later).store k) := by
  obtain ⟨newer, older, hstates, hlater⟩ := hsince
  rw [ChainedBy, hstates, List.pairwise_append] at h
  rcases List.mem_append.mp hlater with hlater | hlater
  · exact h.2.2 later hlater earlier List.mem_cons_self k
  · rw [List.mem_singleton.mp hlater]

/-- **While no cell of a document is written into it again, a cell that does not lie in the document
stays out of it: from then on it has no place, takes no write, reads the same for ever, and is copied
wherever it is written.** -/
theorem Reached.detached_stays {u : Universe Journal} {react : ListenerId → Change → Client}
    {reach depth : Nat} (h : u.Reached (Client.reacting react reach depth)) {k : StoreId}
    (hJ : Journal.CompliesBy (Policy.never.onlyIn k) u.memory) {earlier later : Array Store}
    (hsince : u.Since earlier later) {d : CellId}
    (hd : d < ((seen earlier).store k).cells.size)
    (hout : ∀ p, ¬ ((seen earlier).store k).LiesAt p d) {w : Universe σ} (hw : w.stores = later) :
    w.Detached ⟨k, d⟩ ((seen earlier).toJson (.cell ⟨k, d⟩)) := by
  have stepwise := h.stepwiseBy hJ
  obtain ⟨hearlier, hlater⟩ := hsince.passed
  have never : ∀ p q, Policy.never.onlyIn k k p q → Policy.never p q := fun _ _ h => h rfl
  have hs := (stepwise earlier hearlier k).mono never
  have steps : Store.Later ((seen earlier).store k) ((seen later).store k) :=
    Relation.ReflTransGen.mono (fun _ _ h => h.mono never) _ _ ((h.chainedBy hJ).since hsince k)
  have hstore : ∀ j, w.store j = (seen later).store j := fun j => by rw [store, hw]; rfl
  have hnone : ((seen earlier).store k).place? d = none := by
    cases hp : ((seen earlier).store k).place? d with
    | none => rfl
    | some p => exact absurd (hs.sound.liesAt hp) (hout p)
  have hreads : w.toJson (.cell ⟨k, d⟩) = (seen earlier).toJson (.cell ⟨k, d⟩) := by
    rw [toJson, toJson, hstore]
    exact Store.Later.toJson steps hs hd hnone
  rw [← hreads]
  refine detached_of_unplaced (fun j => ?_) ?_ ?_
  · rw [hstore]
    exact (stepwise later hlater j).sound
  · rw [hstore]
    exact hd.trans_le (Store.Later.size_le steps hs)
  · rw [hstore]
    exact Store.Later.place? steps hs hd hnone

/-- The member `a` of `{"a": {"b": {}}}` is replaced, -/
def afterReplacing : Universe Journal :=
  (((Operation.set ⟨0, 2⟩ (.name "a") (.plain ⟨.bool true, trivial⟩)).run (recording 0)).run
    afterLoad).2

/-- and then written to the root again, under another name. -/
def afterReturning : Universe Journal :=
  (((Operation.set ⟨0, 2⟩ (.name "c") (.cell ⟨0, 1⟩)).run (recording 0)).run afterReplacing).2

theorem reached_afterReturning : afterReturning.Reached (recording 0) :=
  .next (.next reached_afterLoad _) _

theorem complies_afterReturning :
    Journal.CompliesBy (Policy.never.onlyIn 0) afterReturning.memory := by
  refine List.forall_mem_cons.mpr ⟨fun op hop => (by cases hop), ?_⟩
  refine List.forall_mem_cons.mpr ⟨fun op hop => ?_, ?_⟩
  · cases hop
    intro ref key x p location hw hp hk
    cases hw
    cases hp
  refine List.forall_mem_cons.mpr ⟨fun op hop => (by cases hop), ?_⟩
  refine List.forall_mem_cons.mpr ⟨fun op hop => ?_, ?_⟩
  · cases hop
    intro ref key x p location hw
    cases hw
  exact complies_afterLoad _

theorem detached_after_replacing :
    afterReturning.Detached ⟨0, 1⟩ (.object [("b", .object [])]) := by
  have hstates : afterReturning.Since afterReplacing.stores afterReturning.stores :=
    ⟨[_, _], _, rfl, List.mem_cons_self⟩
  have reachable := reached_afterReturning.stepwiseBy complies_afterReturning
    afterReplacing.stores hstates.passed.1 0
  have hout : ∀ p, ¬ ((seen afterReplacing.stores).store 0).LiesAt p 1 := by
    intro p hp
    have exact := (reachable.mono fun _ _ h => (h rfl).elim).exact
    have hplace := (reachable.sound.exact_iff.mp exact p 1).mp hp
    cases hplace
  exact reached_afterReturning.detached_stays complies_afterReturning hstates (by decide) hout rfl

end Universe

end LiveJson

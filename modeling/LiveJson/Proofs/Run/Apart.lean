import LiveJson.Proofs.Run.Alone
import LiveJson.Proofs.Run.Places
import LiveJson.Proofs.Store.Account
import LiveJson.Proofs.Store.Copied

/-! # Stores share nothing

Cells may be read from one store and written into another. What is read from a store, beginning at
its root, are cells of that store all the same, since whatever comes from elsewhere is copied, and no
deed for one store changes anything about another. -/

namespace LiveJson

open Store (Policy)

variable {u v w : Universe Journal} {k : StoreId} {reach : Nat}

namespace Universe

/-- A reader finds the cell `child` as a member of `parent`. -/
def Member (u : Universe Journal) (parent child : CellRef) : Prop :=
  ∃ key slot, (key, slot) ∈ (u.store parent.store).entries parent.cell ∧
    Node.ofSlot parent.store slot = .cell child

/-- The cell is the root of store `k`, or is read from it member by member. -/
def ReadsFrom (u : Universe Journal) (k : StoreId) (ref : CellRef) : Prop :=
  ∃ root, (u.store k).root = some root ∧ Relation.ReflTransGen u.Member ⟨k, root⟩ ref

/-- The cell is one of store `k` that lies in its document. -/
def Owns (u : Universe Journal) (k : StoreId) (ref : CellRef) : Prop :=
  ref.store = k ∧ ref.cell < (u.store k).cells.size ∧ ∃ p, (u.store k).LiesAt p ref.cell

theorem Member.parent {parent child : CellRef} (h : u.Member parent child) :
    child.store = parent.store ∧ (u.store parent.store).Parent parent.cell child.cell := by
  obtain ⟨key, slot, hm, hslot⟩ := h
  cases slot with
  | scalar value => cases hslot
  | cell d =>
    cases hslot
    exact ⟨rfl, key, hm⟩

theorem ReadsFrom.owns {ref : CellRef} (h : u.ReadsFrom k ref) (hu : (u.store k).Sound) :
    u.Owns k ref := by
  obtain ⟨root, hroot, hread⟩ := h
  have reaches : ref.store = k ∧ (u.store k).Reaches root ref.cell := by
    induction hread with
    | refl => exact ⟨rfl, .refl _ _⟩
    | tail _ hm ih =>
      obtain ⟨hstore, hreaches⟩ := ih
      obtain ⟨hchild, hparent⟩ := hm.parent
      rw [hstore] at hchild hparent
      exact ⟨hchild, hreaches.tail hparent⟩
  have hlt : root < (u.store k).cells.size := Store.lt_size_of_place? (hu.rooted.mpr hroot)
  exact ⟨reaches.1, hu.toFormed.reaches_lt reaches.2 hlt, Store.exists_liesAt hroot reaches.2⟩

end Universe

/-- If the operation was to write a cell of another store, its location now holds a copy. -/
def Operation.Copies (op : Operation) (u v : Universe Journal) : Prop :=
  ∀ ref key foreign, op.written u.stores = some (ref, key, .cell foreign) →
    foreign.store ≠ ref.store → foreign.cell < (u.store foreign.store).cells.size →
    ∃ location x, (u.store ref.store).keyAt ref.cell key = .ok location ∧
      (v.store ref.store).at? location = some (.cell x) ∧
      Store.Copied (u.store ref.store) (v.store ref.store) location (u.toJson (.cell foreign)) x

theorem Operation.copies {op : Operation} (hu : u.Steady Policy.free)
    (hrun : (op.perform (recording reach)).run u = (.ok (), v)) : op.Copies u v := by
  intro ref key foreign hop hforeign hcell
  obtain ⟨outcome, s, calls, does⟩ := op.exists_does hu reach
  have houtcome : outcome = .ok () := by
    have h := congrArg Prod.fst does.1
    rw [hrun] at h
    exact h.symm
  have hstore := Universe.store_congr (k := op.store) does.stores
  rw [hrun] at hstore
  cases does.2 with
  | refused op e => cases houtcome
  | @written op ref' key' value edit s hop' h =>
    rw [hop] at hop'
    cases hop'
    have copy : u.incoming ref.store (Value.cell foreign).node =
        .copy (u.toJson (.cell foreign)) := if_neg fun h => hforeign h.1
    rw [copy] at h
    have wellFormed := (hu foreign.store).sound.toJson_wellFormed foreign.cell
    have sound : ((u.store ref.store).onBehalf (op.behind u)).Sound :=
      ((hu ref.store).step (.origin (op.behind u))).sound
    have legal : ((u.store ref.store).onBehalf (op.behind u)).Legal
        (.copy (u.toJson (.cell foreign))) := wellFormed
    obtain ⟨x, hnew, copied⟩ := sound.copied_set wellFormed
      ((hu foreign.store).sound.isComposite_toJson hcell) h
    have acc := sound.accounts_set legal h
    obtain ⟨path, _, _, target, -, -, _, _, -, hedit, -⟩ := Store.set_eq_ok h
    have hk : ref.store < u.stores.size := Universe.lt_size_of_place? target.place
    rw [store_of_written hop, Universe.store_setStore_self hk] at hstore
    refine ⟨edit.location, x, ?_, ?_, copied.frame rfl (by rw [hstore]; rfl)⟩
    · rw [hedit]
      exact target.keyAt
    · have same : (v.store ref.store).at? = s.at? := by
        rw [hstore]
        exact Store.at?_frame rfl rfl
      rw [same, acc.new, hnew]
  | _ => cases hop

/-- **In every course, with any number of stores, what is read from a store are its own cells; what is
written into it from another store is copied; deeds for other stores change nothing about it; and all
that happens to it would also happen if it were the only store, with values in place of the cells of
the others.** -/
theorem Course.apart {count : Nat} {before later : List Turn}
    (h : Course reach (.start count) before u) (h' : Course reach u later v) :
    (∀ k ref, v.ReadsFrom k ref → v.Owns k ref) ∧
    (∀ (op : Operation) w, (op.perform (recording reach)).run v = (.ok (), w) → op.Copies v w) ∧
    (∀ k, (∀ turn ∈ later, turn.deed.store ≠ k) → v.store k = u.store k) ∧
    ∀ k < count, ∃ own w, Course reach (.start count) own w ∧ (∀ turn ∈ own, turn.deed.store = k) ∧
      List.Forall₂ (Turn.Alone k) ((later ++ before).filter fun turn => turn.deed.store = k) own ∧
      w.store k = v.store k := by
  have hu := h.atRest (Universe.atRest_start count)
  have hv := h'.atRest hu
  exact ⟨fun k ref href => href.owns (hv.steady k).sound, fun op w => op.copies hv.steady,
    fun k => h'.untouched hu, fun k hk => (h.trans h').alone hk⟩

namespace Universe

/-- The member `a` of `{"a": {"b": {}}}` in store `0` is written into the empty object of store
`1`. -/
def afterPassing : Universe Journal :=
  let loaded := (((Operation.load 0 nested).perform (recording 0)).run (start 2)).2
  let both := (((Operation.load 1 .empty).perform (recording 0)).run loaded).2
  (((Operation.set ⟨1, 0⟩ (.name "x") (.cell ⟨0, 1⟩)).perform (recording 0)).run both).2

/-- Then the member itself is written to. -/
def afterWriting : Universe Journal :=
  (((Operation.set ⟨0, 1⟩ (.name "b") (.plain ⟨.bool true, trivial⟩)).perform (recording 0)).run
    afterPassing).2

theorem apart_after_passing :
    afterWriting.toJson (.cell ⟨0, 1⟩) = .object [("b", .bool true)] ∧
    afterWriting.toJson (.cell ⟨1, 0⟩) = .object [("x", .object [("b", .object [])])] ∧
    afterWriting.store 1 = afterPassing.store 1 := by
  have passing : ∃ turns, Course 0 (.start 2) turns afterPassing :=
    ⟨_, .next (.next (.next .here (.operate (.load 0 nested))) (.operate (.load 1 .empty)))
      (.operate (.set ⟨1, 0⟩ (.name "x") (.cell ⟨0, 1⟩)))⟩
  obtain ⟨turns, passing⟩ := passing
  have writing : Course 0 afterPassing [_] afterWriting := .next .here (.operate (.set ⟨0, 1⟩ _ _))
  refine ⟨rfl, rfl, (passing.apart writing).2.2.1 1 ?_⟩
  exact List.forall_mem_singleton.mpr nofun

end Universe

end LiveJson

import LiveJson.Proofs.Match.Nodes
import LiveJson.Proofs.Run.Places

/-! # Moves

A cell that is written to another place of its document gets the new place, but the container that
it comes from keeps it. So every cell lies at one location as long as each move goes to the location
of the cell itself or to one above it, where it replaces the container that it comes from; any other
move leaves the cell at two locations, of which only the new one is its place. -/

namespace LiveJson

open Store (Policy Reachable)

namespace Store

variable {A : Policy} {s t : Store} {d root : CellId} {p : Path}

/-- Every cell of the document lies at one location, which is its place. -/
def SinglyPlaced (s : Store) : Prop :=
  ∀ root d, s.root = some root → s.Reaches root d →
    ∃ p, s.place? d = some p ∧ ∀ q, s.LiesAt q d ↔ q = p

theorem Sound.exact_iff_singlyPlaced (hs : s.Sound) : s.Exact ↔ s.SinglyPlaced := by
  constructor
  · intro he root d hroot hd
    obtain ⟨p, hp⟩ := exists_liesAt hroot hd
    have hplace := (hs.exact_iff.mp he p d).mp hp
    refine ⟨p, hplace, fun q => ?_⟩
    rw [hs.exact_iff.mp he q d, hplace, Option.some.injEq, eq_comm]
  · refine fun h => ⟨fun {e q k d} hq hk => ?_⟩
    have hlies := LiesAt.member (hs.liesAt hq) hk
    obtain ⟨root, hroot, hr⟩ := hlies.reaches
    obtain ⟨p, hp, hiff⟩ := h root d hroot hr
    rw [hp, (hiff _).mp hlies]

/-! ## What is found can be written -/

/-- A scalar, or a cell that the document reaches. -/
def InDocument (s : Store) (root : CellId) (t : Tree CellId) : Prop :=
  (∃ v, t = .leaf v) ∨ ∃ d, s.Reaches root d ∧ t = s.tree (.cell d)

theorem Formed.inward (hs : s.Formed) (root : CellId) : Tree.Inward (s.InDocument root) := by
  intro t key child h hm
  rcases h with ⟨v, rfl⟩ | ⟨d, hd, rfl⟩
  · cases hm
  · cases hc : s.content? d with
    | none => rw [tree, treeTo_of_none _ hc] at hm; cases hm
    | some c =>
      rw [hs.tree_cell hc, Content.entries_toTree] at hm
      obtain ⟨⟨k, slot⟩, hk, he⟩ := List.mem_map.mp hm
      cases he
      cases slot with
      | scalar v => exact Or.inl ⟨v, tree_scalar v⟩
      | cell e => exact Or.inr ⟨e, hd.tail ⟨k, holds_iff.mpr ⟨c, hc, hk⟩⟩, rfl⟩

theorem Formed.inDocument_of_findFrom (hs : s.Formed) {start : Option (Tree CellId)}
    (hstart : ∀ t ∈ start, s.InDocument root t) {path : String} {ts : List (Tree CellId)}
    (h : findFrom start path = .ok ts) : ∀ t ∈ ts, s.InDocument root t := by
  intro t ht
  cases start with
  | none => cases h; cases ht
  | some origin =>
    obtain ⟨ms, hms, h⟩ := bind_eq_ok.mp h
    cases h
    obtain ⟨m, hm, rfl⟩ := List.mem_map.mp ht
    cases hmatched : m.matched with
    | key k => exact Or.inl ⟨_, rfl⟩
    | node n => exact Tree.search_mem (hs.inward root) (hstart origin rfl) hms hm hmatched

/-- Whatever a path finds is part of the document. -/
theorem Formed.inDocument_of_selectAll (hs : s.Formed) (hroot : s.root = some root) {path : String}
    {origin : Option String} {ts : List (Tree CellId)} (h : s.selectAll path origin = .ok ts) :
    ∀ t ∈ ts, s.InDocument root t := by
  have whole : ∀ t ∈ s.rootTree?, s.InDocument root t := by
    intro t ht
    rw [rootTree?, hroot] at ht
    cases ht
    exact Or.inr ⟨root, .refl _ _, rfl⟩
  unfold selectAll at h
  cases origin with
  | none => exact hs.inDocument_of_findFrom whole h
  | some origin =>
    obtain ⟨start, hstart, h⟩ := bind_eq_ok.mp h
    refine hs.inDocument_of_findFrom (fun t ht => ?_) h
    cases start with
    | none => exact whole t ht
    | some first =>
      cases ht
      cases hfound : findFrom s.rootTree? origin with
      | error e => rw [hfound] at hstart; cases hstart
      | ok found =>
        rw [hfound] at hstart
        have hhead := Except.ok.inj hstart
        exact hs.inDocument_of_findFrom whole hfound _ (List.mem_of_head? hhead)

/-- Nothing is found where nothing is loaded. -/
theorem selectAll_of_root_none (hroot : s.root = none) {path : String} {origin : Option String}
    {ts : List (Tree CellId)} (h : s.selectAll path origin = .ok ts) : ts = [] := by
  have hnone : s.rootTree? = none := by rw [rootTree?, hroot]; rfl
  unfold selectAll at h
  rw [hnone] at h
  cases origin <;> cases h <;> rfl

theorem slotOf_tree {slot : Slot} (h : slotOf (s.tree slot) = .cell d) : slot = .cell d := by
  cases slot with
  | scalar v => rw [tree_scalar] at h; cases h
  | cell e =>
    cases hc : s.content? e with
    | none => rw [tree, treeTo_of_none _ hc] at h; cases h
    | some c =>
      rw [tree] at h
      cases hn : s.cells.size with
      | zero => rw [hn] at h; cases h
      | succ n => rw [hn, treeTo_succ, hc] at h; cases c <;> exact h

/-- A cell that a path finds can be written to. -/
theorem SinglyPlaced.attached (h : s.SinglyPlaced) (hs : s.Formed) (ha : s.alive = true)
    {path : String} {origin : Option String} {t : Tree CellId}
    (hsel : s.select path origin = .ok (some t)) (hd : slotOf t = .cell d) :
    ∃ p, s.attached d = .ok p := by
  cases hall : s.selectAll path origin with
  | error e => rw [select, hall] at hsel; cases hsel
  | ok ts =>
    rw [select, hall] at hsel
    have hhead : ts.head? = some t := Except.ok.inj hsel
    cases hroot : s.root with
    | none =>
      rw [selectAll_of_root_none hroot hall] at hhead
      cases hhead
    | some root =>
      rcases hs.inDocument_of_selectAll hroot hall t (List.mem_of_head? hhead) with
        ⟨v, rfl⟩ | ⟨e, he, rfl⟩
      · cases hd
      · cases slotOf_tree hd
        obtain ⟨p, hp, -⟩ := h root d hroot he
        exact ⟨p, attached_of_place? ha hp⟩

end Store

namespace Universe

/-- **As long as every move goes upward, each cell of a document lies at its place and nowhere else,
and what a path finds can be written to; and the next move keeps it so exactly if it goes upward.**
After any other move, the cell is still found where it came from. -/
theorem Reached.singlyPlaced_iff_upward {u : Universe Journal}
    {react : ListenerId → Change → Client} {reach depth : Nat}
    (h : u.Reached (Client.reacting react reach depth))
    (hJ : Journal.Complies Policy.upward u.memory) {stores : Array Store} (hs : u.Passed stores)
    (k : StoreId) :
    ((seen stores).store k).SinglyPlaced ∧
    (∀ path origin t d, ((seen stores).store k).select path origin = .ok (some t) →
      Store.slotOf t = .cell d → ∃ p, ((seen stores).store k).attached d = .ok p) ∧
    ∀ id key x p edit t, ((seen stores).store k).place? x = some p →
      ((seen stores).store k).set id key (.move x) = .ok (edit, t) →
      (t.SinglyPlaced ↔ edit.location <+: p) ∧
      (¬ edit.location <+: p →
        t.LiesAt p x ∧ t.LiesAt edit.location x ∧ t.place? x = some edit.location) := by
  have reachable := (h.stepwise hJ).seen hs k
  have sound := reachable.sound
  have exact := reachable.exact
  have single := sound.exact_iff_singlyPlaced.mp exact
  refine ⟨single, fun path origin t d hsel hd =>
    single.attached sound.toFormed reachable.alive hsel hd, ?_⟩
  intro id key x p edit t hx hset
  have legal : ((seen stores).store k).Legal (.move x) := ⟨p, hx⟩
  have after := sound.set legal hset
  refine ⟨after.exact_iff_singlyPlaced.symm.trans (exact.set_move_iff sound hx hset), fun hp => ?_⟩
  obtain ⟨path, key, c, slot, v, w, target, hr, lands, rfl, rfl⟩ := sound.set_eq_ok legal hset
  have landed := lands.landed sound target
  cases lands with
  | move vacant clear seated =>
    have hplace : (w.setContent id (c.insert key (.cell x))).place? x = some (path ++ [key]) :=
      Store.place?_setContent.trans (landed.arrived rfl).1
    exact ⟨vacant.stray_move sound target hr hx hp clear seated, after.liesAt hplace, hplace⟩

theorem complies_afterMove : Journal.Complies Policy.upward (afterMove "a").memory := by
  refine Journal.complies_cons.mpr ⟨fun op hop => (by cases hop), ?_⟩
  refine Journal.complies_cons.mpr ⟨fun op hop => ?_, ?_⟩
  · cases hop
    intro ref key x p location hw hp hk
    cases hw
    cases hp
    cases hk
    exact ⟨[.name "b"], rfl⟩
  refine Journal.complies_cons.mpr ⟨fun op hop => (by cases hop), ?_⟩
  refine Journal.complies_cons.mpr ⟨fun op hop => ?_, ?_⟩
  · cases hop
    intro ref key x p location hw
    cases hw
  · intro moment hm
    cases hm

theorem singlyPlaced_after_upward_move : ((seen (afterMove "a").stores).store 0).SinglyPlaced :=
  ((reached_afterMove "a").singlyPlaced_iff_upward complies_afterMove (.inl rfl) 0).1

/-- The cell that has moved is removed from its new place. -/
def afterRemoval : Universe Journal :=
  (((Operation.delete ⟨0, 2⟩ (.name "c")).run (recording 0)).run (afterMove "c")).2

/-- A move to another place leaves the cell where it was as well, and once the new place is gone the
cell that is still there has no place. -/
theorem moved_cell_lies_twice :
    (afterMove "c").Reached (recording 0) ∧
    ((seen (afterMove "c").stores).store 0).LiesAt [.name "a", .name "b"] 0 ∧
    ((seen (afterMove "c").stores).store 0).LiesAt [.name "c"] 0 ∧
    ¬ ((seen (afterMove "c").stores).store 0).SinglyPlaced ∧
    ((seen afterRemoval.stores).store 0).LiesAt [.name "a", .name "b"] 0 ∧
    ((seen afterRemoval.stores).store 0).attached 0 = .error .detached := by
  have hroot : ((seen (afterMove "c").stores).store 0).LiesAt [] 2 := .root rfl
  have ha : ((seen (afterMove "c").stores).store 0).Holds 2 (.name "a") 1 := .head _
  have hb : ((seen (afterMove "c").stores).store 0).Holds 1 (.name "b") 0 := .head _
  have hc : ((seen (afterMove "c").stores).store 0).Holds 2 (.name "c") 0 := .tail _ (.head _)
  have hold := (hroot.member ha).member hb
  have hnew := hroot.member hc
  refine ⟨reached_afterMove "c", hold, hnew, fun h => ?_, ?_, rfl⟩
  · obtain ⟨p, -, hp⟩ := h 2 0 rfl hc.reaches
    exact absurd (((hp _).mp hold).trans ((hp _).mp hnew).symm) (by decide)
  · have hroot : ((seen afterRemoval.stores).store 0).LiesAt [] 2 := .root rfl
    have ha : ((seen afterRemoval.stores).store 0).Holds 2 (.name "a") 1 := .head _
    have hb : ((seen afterRemoval.stores).store 0).Holds 1 (.name "b") 0 := .head _
    exact (hroot.member ha).member hb

end Universe

end LiveJson

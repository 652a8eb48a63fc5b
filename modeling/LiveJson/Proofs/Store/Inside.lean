import LiveJson.Proofs.Path.Read
import LiveJson.Proofs.Store.Sound
import LiveJson.Proofs.Store.Unfold

/-! # The locations inside a value

The locations strictly inside a tree, each before those below it. In a formed store no two of them
have one text: keys of one container differ in their names, and locations below different keys
differ where the ways part. -/

namespace LiveJson

namespace Tree

variable {ι : Type}

mutual

/-- The locations strictly inside a tree that is at `p`, with what is there. -/
def inside (p : Path) : Tree ι → List (Path × Tree ι)
  | leaf _ => []
  | array _ items => insideItems p 0 items
  | object _ members => insideMembers p members
termination_by structural t => t

def insideItems (p : Path) (start : Nat) : List (Tree ι) → List (Path × Tree ι)
  | [] => []
  | t :: ts =>
    (p ++ [.index start], t) :: (inside (p ++ [.index start]) t ++ insideItems p (start + 1) ts)
termination_by structural ts => ts

def insideMembers (p : Path) : List (String × Tree ι) → List (Path × Tree ι)
  | [] => []
  | (name, t) :: rest =>
    (p ++ [.name name], t) :: (inside (p ++ [.name name]) t ++ insideMembers p rest)
termination_by structural ts => ts

end

/-- The location of a member, and those inside the member. -/
def branch (p : Path) (entry : Key × Tree ι) : List (Path × Tree ι) :=
  (p ++ [entry.1], entry.2) :: entry.2.inside (p ++ [entry.1])

theorem insideItems_eq (p : Path) (start : Nat) (ts : List (Tree ι)) :
    insideItems p start ts = (enumerate start ts).flatMap (branch p) := by
  induction ts generalizing start with
  | nil => rfl
  | cons t ts ih => simp [insideItems, enumerate, branch, ih]

theorem insideMembers_eq (p : Path) (members : List (String × Tree ι)) :
    insideMembers p members =
      (members.map fun m => (Key.name m.1, m.2)).flatMap (branch p) := by
  induction members with
  | nil => rfl
  | cons m members ih => simp [insideMembers, branch, ih]

theorem inside_eq (p : Path) (t : Tree ι) : t.inside p = t.entries.flatMap (branch p) := by
  cases t with
  | leaf v => rfl
  | array label items => exact insideItems_eq p 0 items
  | object label members => exact insideMembers_eq p members

end Tree

/-- The keys of a content have different names. -/
theorem Content.WellFormed.nodup_keyNames {c : Content} (hc : c.WellFormed) :
    (c.entries.map fun e => e.1.toName).Nodup := by
  cases c with
  | array items =>
    have names : ∀ (start : Nat) (l : List Slot),
        (Tree.enumerate start l).map (fun e => e.1.toName) =
          (List.range' start l.length).map fun i => (Key.index i).toName := by
      intro start l
      induction l generalizing start with
      | nil => rfl
      | cons slot l ih =>
        rw [Tree.enumerate, List.map_cons, ih, List.length_cons, List.range'_succ, List.map_cons]
    rw [entries, names]
    exact List.Nodup.map (fun i j h => Key.toName_index_inj h) List.nodup_range'
  | object members =>
    have names : (object members).entries.map (fun e => e.1.toName) = Members.names members := by
      simp [entries, Members.names, Function.comp_def]
    rw [names]
    exact hc.1

namespace Store

variable {s t : Store} {d e id : CellId} {p q r : Path} {k : Key} {slot : Slot} {c : Content}

/-- The keys of `r` lead from the cell down to the slot. -/
inductive Descends (s : Store) : CellId → Path → Slot → Prop
  | member {e : CellId} {k : Key} {slot : Slot} (h : (k, slot) ∈ s.entries e) :
      Descends s e [k] slot
  | step {e d : CellId} {k : Key} {r : Path} {slot : Slot} (h : s.Holds e k d)
      (h' : Descends s d r slot) : Descends s e (k :: r) slot

theorem Formed.inside_cell (hs : s.Formed) (hc : s.content? id = some c) (p : Path) :
    (s.tree (.cell id)).inside p =
      c.entries.flatMap fun e => Tree.branch p (e.1, s.tree e.2) := by
  rw [hs.tree_cell hc, Tree.inside_eq, Content.entries_toTree, List.flatMap_map]

theorem inside_of_none (h : s.content? id = none) (p : Path) :
    (s.tree (.cell id)).inside p = [] := by
  rw [tree, treeTo_of_none _ h]
  rfl

theorem Formed.mem_inside (hs : s.Formed) {q : Path} {t : Tree CellId} :
    ∀ id p, (q, t) ∈ (s.tree (.cell id)).inside p ↔
      ∃ r slot, q = p ++ r ∧ t = s.tree slot ∧ s.Descends id r slot := by
  refine hs.induction fun id ih p => ?_
  cases hc : s.content? id with
  | none =>
    rw [inside_of_none hc]
    refine ⟨fun h => (by cases h), fun ⟨r, slot, _, _, h⟩ => ?_⟩
    have hnone : s.entries id = [] := by rw [Store.entries, hc]; rfl
    cases h with
    | member h => rw [hnone] at h; cases h
    | step h _ => rw [Holds, hnone] at h; cases h
  | some c =>
    have hentries : s.entries id = c.entries := by rw [Store.entries, hc]; rfl
    rw [hs.inside_cell hc, List.mem_flatMap]
    constructor
    · intro h
      obtain ⟨⟨k, slot⟩, hk, hm⟩ := h
      rw [← hentries] at hk
      rcases List.mem_cons.mp hm with heq | hm
      · obtain ⟨rfl, rfl⟩ := Prod.mk.inj heq
        exact ⟨[k], slot, rfl, rfl, .member hk⟩
      · cases slot with
        | scalar v => rw [tree_scalar] at hm; cases hm
        | cell d =>
          obtain ⟨r, slot, rfl, rfl, hr⟩ := (ih d ⟨k, hk⟩ _).mp hm
          exact ⟨k :: r, slot, by simp, rfl, .step hk hr⟩
    · intro h
      obtain ⟨r, slot, rfl, rfl, h⟩ := h
      cases h with
      | @member _ k _ h => exact ⟨(k, slot), hentries ▸ h, List.mem_cons_self⟩
      | @step _ d k r _ h h' =>
        refine ⟨(k, .cell d), hentries ▸ h, List.mem_cons_of_mem _ ?_⟩
        exact (ih d ⟨k, h⟩ _).mpr ⟨r, slot, by simp, rfl, h'⟩

theorem Descends.ne_nil (h : s.Descends id r slot) : r ≠ [] := by
  cases h <;> exact List.cons_ne_nil _ _

theorem Formed.mem_branch (hs : s.Formed) {q : Path} {t : Tree CellId}
    (h : (q, t) ∈ Tree.branch p (k, s.tree slot)) : ∃ r, q = p ++ k :: r := by
  rcases List.mem_cons.mp h with heq | h
  · exact ⟨[], (Prod.mk.inj heq).1⟩
  · cases slot with
    | scalar v => rw [tree_scalar] at h; cases h
    | cell d =>
      obtain ⟨r, slot, rfl, -, -⟩ := (hs.mem_inside d _).mp h
      exact ⟨r, by rw [List.append_assoc]; rfl⟩

/-- The texts of the locations inside a cell are different. -/
theorem Formed.nodup_inside (hs : s.Formed) :
    ∀ id p, (((s.tree (.cell id)).inside p).map fun e => e.1.toText).Nodup := by
  refine hs.induction fun id ih p => ?_
  cases hc : s.content? id with
  | none => rw [inside_of_none hc]; exact List.nodup_nil
  | some c =>
    rw [hs.inside_cell hc, List.map_flatMap, List.nodup_flatMap]
    constructor
    · intro entry hk
      obtain ⟨k, slot⟩ := entry
      rw [Tree.branch, List.map_cons, List.nodup_cons]
      cases slot with
      | scalar v => rw [tree_scalar]; exact ⟨List.not_mem_nil, List.nodup_nil⟩
      | cell d =>
        refine ⟨fun hm => ?_, ih d ⟨k, holds_iff.mpr ⟨c, hc, hk⟩⟩ _⟩
        obtain ⟨⟨q, t⟩, hm, htext⟩ := List.mem_map.mp hm
        obtain ⟨r, slot, rfl, -, hr⟩ := (hs.mem_inside d _).mp hm
        have hlength := congrArg List.length (Path.toText_eq_iff.mp htext)
        rw [List.map_append, List.length_append, List.length_map, List.length_map,
          Nat.add_eq_left, List.length_eq_zero_iff] at hlength
        exact hr.ne_nil hlength
    · have hnames := List.pairwise_map.mp (hs.wellFormed hc).nodup_keyNames
      refine hnames.imp fun {e e'} hne => ?_
      refine List.disjoint_left.mpr fun text h h' => ?_
      obtain ⟨⟨q, t⟩, hm, rfl⟩ := List.mem_map.mp h
      obtain ⟨⟨q', t'⟩, hm', htext⟩ := List.mem_map.mp h'
      obtain ⟨r, rfl⟩ := hs.mem_branch hm
      obtain ⟨r', rfl⟩ := hs.mem_branch hm'
      have hpath := Path.toText_eq_iff.mp htext
      rw [List.map_append, List.map_append, List.append_cancel_left_eq] at hpath
      exact hne (List.cons.inj hpath).1.symm

end Store

end LiveJson

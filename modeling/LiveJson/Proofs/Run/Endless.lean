import LiveJson.Proofs.Match.Located
import LiveJson.Proofs.Run.Descent
import LiveJson.Proofs.Run.Effect

/-! # A way down without end

A listener that adds a member to every object that it is told is gone, and listens to that member in
turn, is told of it as soon as the way down gets there. Each step down leads to an object like the
one before, so the way down never ends. The objects can be edited only as parts of the document, so
another listener first puts back what is gone. -/

namespace LiveJson

open Store (Policy Target Descent announce)
open Store.Descent (under finished)

/-! ## Deep locations -/

/-- The location that is `n` times a member `x` away from the root. -/
def deep (n : Nat) : Path := List.replicate n (.name "x")

theorem deep_succ (n : Nat) : deep (n + 1) = deep n ++ [.name "x"] := List.replicate_succ'

theorem toText_deep_succ (n : Nat) : (deep n).toText ++ "['x']" = (deep (n + 1)).toText := by
  rw [deep_succ, Path.toText, Path.toText, Path.canonical_append, String.ofList_append]
  rfl

theorem toText_deep_ne {n m : Nat} (h : n ≠ m) : (deep n).toText ≠ (deep m).toText := by
  intro heq
  have hlength := congrArg List.length (Path.toText_eq_iff.mp heq)
  rw [List.length_map, List.length_map, deep, deep, List.length_replicate,
    List.length_replicate] at hlength
  exact h hlength

namespace Store

variable {s : Store} {id : CellId} {name : String}

theorem Formed.get?_tree (hs : s.Formed) {slot : Slot}
    (hposition : Key.position? name.toList = none) (h : s.get? id (.name name) = some slot) :
    (s.tree (.cell id)).get? name = some (.name name, s.tree slot) := by
  obtain ⟨c, hc, hget⟩ := Option.bind_eq_some_iff.mp h
  rw [hs.tree_cell hc]
  cases c with
  | array items =>
    rw [Content.get?, Key.asIndex, hposition] at hget
    cases hget
  | object members =>
    rw [Content.get?, Key.toName] at hget
    rw [Content.toTree, Tree.get?, Members.get?_map, hget]
    rfl

theorem Formed.expand_deep (hs : s.Formed) : ∀ (n : Nat) {slot target : Slot}
    {stack : Stack CellId}, stack.top.value = s.tree slot →
    (deep n).foldlM s.member slot = some target →
    ∃ m, Tree.expand (deep n) stack = [m] ∧ m.path = stack.top.path ++ deep n
  | 0, slot, target, stack, _, _ => ⟨_, rfl, (List.append_nil _).symm⟩
  | n + 1, slot, target, stack, htop, h => by
    obtain ⟨next, hnext, hrest⟩ := Option.bind_eq_some_iff.mp h
    cases slot with
    | scalar value => cases hnext
    | cell id =>
      have hget := hs.get?_tree (by decide) hnext
      have hpicked : Tree.picked (.name "x") stack.top.value = [(.name "x", s.tree next)] := by
        rw [Tree.picked, if_neg (by decide), htop, Key.toName, hget]
        rfl
      have htop' : (stack.enter (.name "x") (s.tree next)).top.value = s.tree next := rfl
      obtain ⟨m, hm, hpath⟩ := hs.expand_deep n htop' hrest
      refine ⟨m, ?_, hpath.trans (List.append_assoc ..)⟩
      show (Tree.picked _ _).flatMap _ = _
      rw [hpicked, List.flatMap_singleton]
      exact hm

theorem Sound.resolve_deep (hs : s.Sound) {n : Nat} (h : s.place? id = some (deep n)) :
    s.resolve (deep n).toText = .ok (some (deep n).toText) := by
  obtain ⟨root, hroot, -⟩ := hs.reaches_root h
  have walk := hs.at?_place h
  rw [at?, hroot] at walk
  have htree : s.rootTree? = some (s.tree (.cell root)) := by
    rw [rootTree?, hroot]
    rfl
  obtain ⟨m, hm, hpath⟩ := @Formed.expand_deep s hs.toFormed n _ _
    ⟨⟨s.tree (.cell root), [], none, none⟩, []⟩ rfl walk
  rw [resolve_of_search htree (Tree.search_toText_eq _ _), hm]
  show Except.ok (some m.path.toText) = _
  rw [hpath]
  rfl

/-- Writes an empty object to an empty object. -/
theorem set_empty {path : Path} (alive : s.alive = true) (hp : s.place? id = some path)
    (hc : s.content? id = some (.object [])) (name : String) :
    ∃ edit t, s.set id (.name name) (.copy (.object [])) = .ok (edit, t) ∧
      t.content? id = some (.object [(name, .cell s.cells.size)]) ∧
      t.content? s.cells.size = some (.object []) ∧
      t.place? s.cells.size = some (path ++ [.name name]) ∧
      t.registry = s.registry ∧ t.origin = s.origin := by
  have lt := lt_size_of_place? hp
  have hnormal : s.normalize id (.name name) = .ok (.name name) := by
    rw [normalize, isArray_eq hc]
    rfl
  have target : Target s id (.name name) path (.name name) (.object []) :=
    ⟨alive, hp, hc, hnormal, trivial⟩
  obtain ⟨edit, t, hset⟩ := target.exists_set (fun i h => by cases h)
    (show s.isCyclic id (.copy (.object [])) = false from rfl)
  refine ⟨edit, t, hset, ?_⟩
  obtain ⟨path', key, c, target', -, -, slot, placed, hplace, -, ht⟩ := Store.set_eq_ok hset
  cases hp.symm.trans target'.place
  cases hc.symm.trans target'.content
  cases target.normal.symm.trans target'.normal
  obtain ⟨rfl, rfl⟩ : slot = .cell s.cells.size ∧
      placed = (s.install (.object []) (path ++ [.name name])).2 := by
    cases hplace
    exact ⟨rfl, rfl⟩
  have grown := grown_install s (.object []) (path ++ [.name name])
  rw [ht ((grown.content? lt).trans hc)]
  refine ⟨content?_setContent_self (Nat.lt_of_lt_of_le lt grown.size_le), ?_, ?_, rfl, rfl⟩
  · rw [content?_setContent_of_ne (Nat.ne_of_gt lt)]
    exact content?_install_self
  · rw [place?_setContent]
    exact place?_install_self

end Store

/-! ## Listeners that add members -/

/-- Adds a member `x` to the object that is gone, and listens to it. -/
def Client.extend (listener : ListenerId) (change : Change) : Client :=
  match change.old with
  | some (.cell ref) =>
    .take (.set ref (.name "x") (.plain .empty))
      (.take (.subscribe ref.store (change.path ++ "['x']") listener) .done)
  | _ => .done

/-- Writes a new object to the member `x` of the root `2`, and moves the object `0` into it. -/
def Client.restore : Client :=
  .take (.set ⟨0, 2⟩ (.name "x") (.plain .empty))
    (.take (.set ⟨0, 3⟩ (.name "x") (.cell ⟨0, 0⟩)) .done)

namespace Universe

variable {u v : Universe Journal} {id : CellId} {n : Nat} {seen : List String}
  {ahead : List (Path × Slot)}

/-- Listener `8` puts back what is gone, all others add members to it. -/
def extending : Listeners Journal :=
  Client.reacting (fun id change => if id = 8 then .restore else .extend id change) 0 1

theorem run_take (listeners : Listeners Journal) (op : Operation) (next : Client) :
    ((Client.take op next).run listeners).run u =
      (next.run listeners).run ((op.run listeners).run u).2 := rfl

theorem extending_run {ref : CellRef} {change : Change} (hu : u.Steady Policy.free)
    (hold : change.old = some (.cell ref)) {edit : Edit} {s : Store}
    (hset : (u.store ref.store).set ref.cell (.name "x") (.copy (.object [])) = .ok (edit, s)) :
    ∃ v, (extending.tell 7 change).run u = (.ok (), v) ∧
      v.store ref.store = (s.promote.subscribe (change.path ++ "['x']") 7).2 := by
  have hk : ref.store < u.stores.size := by
    obtain ⟨path, _, _, target, -⟩ := Store.set_eq_ok hset
    exact lt_size_of_place? target.place
  have began : ((u.note (.told 7 change)).note
      (.began (.set ref (.name "x") (.plain .empty)))).Steady Policy.free := hu
  have hwrite := @Store.recorded_write _ _ 0 s ref (.name "x") (.plain .empty) edit began hset
  have hrun : (extending.tell 7 change).run u =
      ((Client.extend 7 change).run (recording 0)).run (u.note (.told 7 change)) := rfl
  rw [hrun, Client.extend, hold]
  dsimp only
  rw [run_take, run_take, Operation.run_eq, Operation.run_eq]
  dsimp only [Operation.perform]
  rw [hwrite, Store.subscribeIn_run]
  refine ⟨_, rfl, ?_⟩
  have hwritten : (u.setStore ref.store s.promote).store ref.store = s.promote :=
    store_setStore_self hk _
  have hsubscribed (t : Store) :
      ((u.setStore ref.store s.promote).setStore ref.store t).store ref.store = t :=
    store_setStore_self ((size_setStore ..).symm ▸ hk) t
  refine (hsubscribed _).trans ?_
  exact congrArg (fun t : Store => (t.subscribe (change.path ++ "['x']") 7).2) hwritten

/-- The empty object `id` is `n` members deep, and of all that is as deep or deeper listener `7`
listens to it only. -/
structure Tip (u : Universe Journal) (id : CellId) (n : Nat) : Prop where
  stepwise : u.Stepwise Policy.free
  place : (u.store 0).place? id = some (deep n)
  content : (u.store 0).content? id = some (.object [])
  listens : (u.store 0).registry.listenersAt (deep n).toText = [7]
  deeper : ∀ m, n < m → (u.store 0).registry.listenersAt (deep m).toText = []
  settled : (u.store 0).registry.pending = []
  unwritten : (u.store 0).origin = none

/-- The listener adds a member to the object, and is registered at the place of the member. -/
theorem Tip.told (h : u.Tip id n) : ∃ v, ∃ s : Store,
    (extending.tell 7 ⟨.delete, (deep n).toText, some (.cell ⟨0, id⟩), none⟩).run u = (.ok (), v) ∧
      v.store 0 =
        { s with registry := s.registry.add (deep (n + 1)).toText ⟨7, (deep (n + 1)).toText⟩ } ∧
      s.content? id = some (.object [("x", .cell (u.store 0).cells.size)]) ∧
      s.content? (u.store 0).cells.size = some (.object []) ∧
      s.place? (u.store 0).cells.size = some (deep (n + 1)) ∧
      s.registry = (u.store 0).registry ∧ s.origin = none := by
  have steady := h.stepwise.steady
  obtain ⟨edit, s, hset, hcontent, hnext, hplace, hregistry, horigin⟩ :=
    Store.set_empty (steady 0).alive h.place h.content "x"
  have sound := (steady 0).sound.set (steady.legal 0 (.plain .empty)) hset
  have settled : s.registry.pending = [] := by rw [hregistry, h.settled]
  rw [← deep_succ] at hplace
  obtain ⟨v, hrun, hv⟩ := @extending_run u ⟨0, id⟩
    ⟨.delete, (deep n).toText, some (.cell ⟨0, id⟩), none⟩ steady rfl edit s hset
  dsimp only at hv
  rw [Store.promote_of_settled settled, toText_deep_succ,
    Store.subscribe_of_settled 7 (sound.resolve_deep hplace) settled] at hv
  exact ⟨v, s, hrun, hv, hcontent, hnext, hplace, hregistry, horigin.trans h.unwritten⟩

/-- When the loss of the object is announced, it gets a member that is like it was itself. -/
theorem Tip.announced (h : u.Tip id n) (new : (deep n).toText ∉ seen) : ∃ v next,
    (announce extending 0 (deep n) (.cell id) seen).run u = (.ok ((deep n).toText :: seen), v) ∧
      (v.store 0).entries id = [(.name "x", .cell next)] ∧ v.Tip next (n + 1) := by
  obtain ⟨v, s, hrun, hv, hcontent, hnext, hplace, hregistry, horigin⟩ := h.told
  have announced := @Store.announce_run _ extending u v 0 seen (deep n) (.cell id) 7
    h.listens h.unwritten new hrun
  have stepwise : v.Stepwise Policy.free := by
    have after : ((announce extending 0 (deep n) (.cell id) seen).run u).2.Stepwise Policy.free :=
      h.stepwise.announce (deep n) (.cell id) seen
    rwa [announced] at after
  have hentries : (v.store 0).entries id = [(.name "x", .cell (u.store 0).cells.size)] := by
    rw [hv]
    change ((s.content? id).map Content.entries).getD [] = _
    rw [hcontent]
    rfl
  have listeners : ∀ m, (v.store 0).registry.listenersAt (deep m).toText =
      if (deep (n + 1)).toText = (deep m).toText then
        Registry.joined ((u.store 0).registry.listenersAt (deep m).toText) [7]
      else (u.store 0).registry.listenersAt (deep m).toText := by
    intro m
    rw [hv, Registry.listenersAt_add, hregistry]
  refine ⟨v, _, announced, hentries, stepwise, ?_, ?_, ?_, fun m hm => ?_, ?_, ?_⟩
  · rw [hv]
    exact hplace
  · rw [hv]
    exact hnext
  · rw [listeners, if_pos rfl, h.deeper _ (Nat.lt_succ_self n)]
    rfl
  · rw [listeners, if_neg (toText_deep_ne (Nat.ne_of_lt hm)), h.deeper m (Nat.lt_of_succ_lt hm)]
  · rw [hv]
    exact (Registry.pending_add ..).trans (hregistry ▸ h.settled)
  · rw [hv]
    exact horigin

/-- So the way down leads on to the member. No deeper location has been told of then. -/
theorem Tip.step (h : u.Tip id n) (new : ∀ m, n ≤ m → (deep m).toText ∉ seen) :
    ∃ told v next, Descent.step extending 0 (under ((deep n, .cell id) :: ahead) seen u) =
        under ((deep (n + 1), .cell next) :: ahead) told v ∧
      v.Tip next (n + 1) ∧ ∀ m, n + 1 ≤ m → (deep m).toText ∉ told := by
  obtain ⟨v, next, announced, hnext, tip⟩ := h.announced (new n (Nat.le_refl n))
  refine ⟨(deep n).toText :: seen, v, next, ?_, tip, fun m hm hmem => ?_⟩
  · rw [Store.step_under_ok announced, Store.below, hnext, deep_succ]
    rfl
  · rcases List.mem_cons.mp hmem with heq | hmem
    · exact toText_deep_ne (Nat.ne_of_gt hm) heq
    · exact new m (Nat.le_of_succ_le hm) hmem

/-- Wherever such an object is to be announced, the way down does not end, because it only ever
leads to another one. -/
theorem Tip.endless (j : Nat) : ∀ {u : Universe Journal} {id : CellId} {n : Nat}
    {seen : List String} {outcome : Except StoreError (List String)} {v : Universe Journal},
    u.Tip id n → (∀ m, n ≤ m → (deep m).toText ∉ seen) →
    (Descent.step extending 0)^[j] (under ((deep n, .cell id) :: ahead) seen u) ≠
      finished outcome v := by
  induction j with
  | zero =>
    intro u id n seen outcome v _ _ h
    cases h
  | succ j ih =>
    intro u id n seen outcome v tip new h
    obtain ⟨told, w, next, hstep, tip', new'⟩ := @Tip.step u id n seen ahead tip new
    rw [Function.iterate_succ_apply, hstep] at h
    exact ih tip' new' h

end Universe

end LiveJson

import LiveJson.Proofs.Run.Failure
import LiveJson.Proofs.Run.Nesting

/-! # What can be read off the journal of a run

A listener is told of a change by the report of the operation that is innermost then, the change is
what this operation had done by the next moment after it began, and the listener is not the one that
the innermost change of the same store names. By the time that a write ends well, everybody else who
listened at its location has been told of it; where no listener ever fails, an operation on a
document that ends badly has told nobody and changed nothing. -/

namespace LiveJson

open Store (Policy Telling)

variable {listeners : Listeners Journal} {react : ListenerId → Change → Client}
  {u v : Universe Journal} {k : StoreId} {s : Store} {n : Nat} {ops : List Operation}
  {w past : Journal} {stack named named' : List Journal} {op : Operation} {before : Array Store}
  {earlier : Journal}

/-! ## Who is behind a write -/

/-- The operations that are under way at the end of a journal, innermost first. -/
def Journal.under : Journal → List Operation
  | [] => []
  | moment :: past =>
    match moment.event with
    | .began op => op :: under past
    | .told .. => under past
    | .ended .. => (under past).tail

namespace Operation

/-- What a change of store `k` names: a listener, or nobody. -/
def names? (k : StoreId) : Operation → Option (Option ListenerId)
  | change j _ _ origin => if j = k then some origin else none
  | _ => none

/-- The listener that the innermost change of a store names. -/
def innermost (ops : List Operation) (k : StoreId) : Option ListenerId :=
  (ops.findSome? (names? k)).join

theorem innermost_cons_of_none (h : op.names? k = none) :
    innermost (op :: ops) k = innermost ops k := by
  rw [innermost, List.findSome?_cons, h]
  rfl

theorem innermost_change (path : String) (value : Value) (origin : Option ListenerId) :
    innermost (change k path value origin :: ops) k = origin := by
  simp [innermost, names?]

/-- A journal that ends with the beginning of the operation. -/
abbrev outset (op : Operation) (before : Array Store) (earlier : Journal) : Journal :=
  ⟨.began op, before⟩ :: earlier

end Operation

open Operation (innermost)

namespace Journal

/-- The listener behind what is written in store `k` at the end of a journal. -/
def behind (journal : Journal) (k : StoreId) : Option ListenerId :=
  innermost journal.under k

/-- The operation that begins with the last moment of the journal. -/
def operation? : Journal → Option Operation
  | ⟨.began op, _⟩ :: _ => some op
  | _ => none

/-- The operations of a stack of them. -/
def operations (stack : List Journal) : List Operation := stack.filterMap operation?

theorem under_eq : ∀ J : Journal, J.under = operations J.underway
  | [] => rfl
  | ⟨event, stores⟩ :: past => by
    cases event with
    | began op => exact congrArg (op :: ·) (under_eq past)
    | told listener change => exact under_eq past
    | ended op outcome =>
      refine (congrArg List.tail (under_eq past)).trans ?_
      show (operations (underway past)).tail = operations (underway past).tail
      cases hpast : underway past with
      | nil => rfl
      | cons w stack =>
        obtain ⟨-, op, before, earlier, rfl⟩ := mem_underway (hpast ▸ List.mem_cons_self)
        rfl

theorem behind_eq (h : w.underway = stack) (k : StoreId) :
    w.behind k = innermost (operations stack) k := by
  rw [behind, under_eq, h]

end Journal

open Journal (operations)

/-! ## What is told -/

namespace Operation

section
variable {σ τ : Type} {u u' : Universe σ} {v v' : Universe τ}

theorem aim_congr (h : v.stores = u.stores) (op : Operation) : op.aim v = op.aim u := by
  obtain ⟨stores, memory⟩ := v
  cases h
  cases op <;> rfl

theorem writes_congr (h : v.stores = u.stores) (op : Operation) : op.Writes v ↔ op.Writes u := by
  obtain ⟨stores, memory⟩ := v
  cases h
  cases op <;> exact Iff.rfl

theorem WritesAt.congr {location : Path} (writes : op.WritesAt u k location)
    (h : v.stores = u.stores) : op.WritesAt v k location := by
  rw [WritesAt, writes_congr h, aim_congr h]
  exact writes

/-- What an operation can tell depends on what it has found and on what the locations hold now. -/
theorem Tells.congr {change : Change} (tells : op.Tells u u' change) (h : v.stores = u.stores)
    (hafter : ∀ k p, (v'.store k).nodeAt k p = (u'.store k).nodeAt k p) : op.Tells v v' change := by
  have hstore : ∀ k, v.store k = u.store k := fun k => by rw [Universe.store, h]; rfl
  cases tells with
  | written writes haim =>
    rw [← hafter, ← hstore]
    exact .written ((writes_congr h op).mpr writes) ((aim_congr h op).trans haim)
  | lost writes haim hlost =>
    exact .lost ((writes_congr h op).mpr writes) ((aim_congr h op).trans haim) hlost
  | removed hkey =>
    rw [← hstore] at hkey ⊢
    exact .removed hkey
  | shifted hkey hpath hop => exact .shifted (hstore _ ▸ hkey) hpath hop
  | loaded hop => exact .loaded hop

open Universe (seen)

theorem Tells.seen {u v : Universe σ} {change : Change} (h : op.Tells u v change) :
    op.Tells (seen u.stores) (seen v.stores) change := h.congr rfl fun _ _ => rfl

end

end Operation

open Universe (seen)

/-- A client that never fails, whatever it finds. -/
def Client.Tolerant : Client → Prop
  | done => True
  | fail _ => False
  | look next => ∀ u, Tolerant (next u)
  | take _ next => Tolerant next

/-- By the end of the journal the operation that began with `w` has told the listener of a change at
the path. -/
def Journal.HasTold (journal w : Journal) (listener : ListenerId) (path : String) : Prop :=
  ∃ (n : Journal) (change : Change), n <:+ journal ∧ n.Tells w listener change ∧ change.path = path

/-- Everybody who listened at the location that the operation writes at, when it began with the last
moment of `w`, has been told of a change there, except the one who is behind the write. -/
def Operation.ToldAll (op : Operation) (before : Array Store) (w past : Journal) : Prop :=
  ∀ k location, op.WritesAt (seen before) k location →
    ∀ l ∈ ((seen before).store k).registry.listenersAt location.toText, past.behind k ≠ some l →
      past.HasTold w l location.toText

/-- What the outcome of an operation says, if it began at `began` and has come to `v`. -/
def Operation.Concludes (react : ListenerId → Change → Client) (op : Operation)
    (began v : Universe Journal) : Except StoreError Unit → Prop
  | .ok () => op.ToldAll began.stores began.memory v.memory
  | .error _ => (∀ id change, (react id change).Tolerant) → ¬ op.Registers → v = began

/-- What happens at a moment is the doing of the innermost operation under way. -/
def Moment.Faithful (react : ListenerId → Change → Client) (moment : Moment) (past : Journal) :
    Prop :=
  match moment.event with
  | .began _ => ∀ k, ((seen moment.stores).store k).origin = past.behind k
  | .told listener change =>
    ∃ (op : Operation) (before : Array Store) (earlier : Journal),
      past.underway.head? = some (op.outset before earlier) ∧
      past.behind op.store ≠ some listener ∧
      ∃ next, next :: op.outset before earlier <:+ moment :: past ∧
        op.Tells (seen before) (seen next.stores) change
  | .ended op outcome =>
    ∃ before earlier, past.underway.head? = some (op.outset before earlier) ∧
      op.Concludes react ⟨before, op.outset before earlier⟩ ⟨moment.stores, past⟩ outcome

def Journal.Faithful (react : ListenerId → Change → Client) (journal : Journal) : Prop :=
  ∀ moment past, (moment :: past) <:+ journal → moment.Faithful react past

theorem Journal.faithful_cons {moment : Moment} (h : moment.Faithful react past)
    (hpast : past.Faithful react) : Journal.Faithful react (moment :: past) := by
  intro moment' past' hsuffix
  rcases List.suffix_cons_iff.mp hsuffix with heq | hsuffix
  · cases heq
    exact h
  · exact hpast moment' past' hsuffix

/-! ## What is kept while operations are under way -/

namespace Universe

/-- There are `n` stores and the operations of `stack` under way; behind what is written in a store
is whom those of `named` name; and all moments so far are faithful. -/
structure Amid (react : ListenerId → Change → Client) (n : Nat) (stack named : List Journal)
    (u : Universe Journal) : Prop where
  size : u.stores.size = n
  steady : u.Steady Policy.free
  underway : u.memory.underway = stack
  origin : ∀ k, (u.store k).origin = innermost (operations named) k
  faithful : u.memory.Faithful react

theorem Amid.setStore (h : u.Amid react n stack named) (hs : s.Reachable Policy.free)
    (horigin : s.origin = (u.store k).origin) : (u.setStore k s).Amid react n stack named where
  size := (u.size_setStore k s).trans h.size
  steady := h.steady.setStore hs
  underway := h.underway
  origin j := by
    rcases u.store_setStore_cases k s j with hj | ⟨rfl, hj⟩
    · rw [hj]
      exact h.origin j
    · rw [hj, horigin]
      exact h.origin j
  faithful := h.faithful

/-- Putting another listener behind what is written in a store. -/
theorem Amid.onBehalf (h : u.Amid react n stack named) (hk : k < n)
    (heq : ∀ j, j ≠ k → innermost (operations named') j = innermost (operations named) j) :
    (u.setStore k ((u.store k).onBehalf (innermost (operations named') k))).Amid react n stack
      named' where
  size := (u.size_setStore k _).trans h.size
  steady := h.steady.setStore ((h.steady k).step (.origin _))
  underway := h.underway
  origin j := by
    by_cases hj : j = k
    · rw [hj, store_setStore_self (h.size ▸ hk)]
      rfl
    · rw [store_setStore_of_ne hj, heq j hj]
      exact h.origin j
  faithful := h.faithful

theorem Amid.congr (h : u.Amid react n stack named)
    (heq : ∀ k, innermost (operations named') k = innermost (operations named) k) :
    u.Amid react n stack named' :=
  { h with origin := fun k => (h.origin k).trans (heq k).symm }

theorem Amid.note (h : u.Amid react n stack named) {event : Event} {stack' : List Journal}
    (faithful : Moment.Faithful react ⟨event, u.stores⟩ u.memory)
    (hstack : Journal.underway (⟨event, u.stores⟩ :: u.memory) = stack') :
    (u.note event).Amid react n stack' named :=
  { h with underway := hstack, faithful := Journal.faithful_cons faithful h.faithful }

theorem Amid.began (h : u.Amid react n stack stack) (op : Operation) :
    (u.note (.began op)).Amid react n ((⟨.began op, u.stores⟩ :: u.memory) :: stack) stack :=
  h.note (fun k => (h.origin k).trans (Journal.behind_eq h.underway k).symm)
    (congrArg (_ :: ·) h.underway)

theorem Amid.ended (h : u.Amid react n (op.outset before earlier :: stack) named)
    {outcome : Except StoreError Unit}
    (concludes : op.Concludes react ⟨before, op.outset before earlier⟩ u outcome) :
    (u.note (.ended op outcome)).Amid react n stack named :=
  h.note ⟨before, earlier, by rw [h.underway]; rfl, concludes⟩ (congrArg List.tail h.underway)

/-- The innermost operation is making its report, and by the next moment after it began, or by now
if there is none yet, it had done what the news tells of. -/
structure Reporting (react : ListenerId → Change → Client) (n : Nat) (op : Operation)
    (before : Array Store) (earlier : Journal) (stack : List Journal) (news : Change → Prop)
    (u : Universe Journal) : Prop where
  amid : u.Amid react n (op.outset before earlier :: stack) (op.outset before earlier :: stack)
  effected : (u.memory = op.outset before earlier ∧
      ∀ change, news change → op.Tells (seen before) (seen u.stores) change) ∨
    ∃ next, next :: op.outset before earlier <:+ u.memory ∧
      ∀ change, news change → op.Tells (seen before) (seen next.stores) change

variable {news : Change → Prop}

theorem Reporting.promoted (h : u.Reporting react n op before earlier stack news) (k : StoreId) :
    (u.promoted k).Reporting react n op before earlier stack news where
  amid := h.amid.setStore ((h.amid.steady k).step .promote) rfl
  effected := by
    refine h.effected.imp_left fun ⟨hmemory, hnews⟩ => ⟨hmemory, fun change hchange => ?_⟩
    refine (hnews change hchange).congr rfl fun j p => ?_
    show ((u.promoted k).store j).nodeAt j p = (u.store j).nodeAt j p
    rcases u.store_setStore_cases k (u.store k).promote j with hj | ⟨rfl, hj⟩
    · rw [Universe.promoted, hj]
    · rw [Universe.promoted, hj]
      rfl

/-- A listener that is told now of something new is told by the innermost operation. -/
theorem Reporting.faithful (h : u.Reporting react n op before earlier stack news) {id : ListenerId}
    {change : Change} (hid : (u.store op.store).origin ≠ some id) (hchange : news change) :
    Moment.Faithful react ⟨.told id change, u.stores⟩ u.memory := by
  have behind : u.memory.behind op.store ≠ some id := by
    rw [Journal.behind_eq h.amid.underway, ← h.amid.origin]
    exact hid
  refine ⟨op, before, earlier, by rw [h.amid.underway]; rfl, behind, ?_⟩
  rcases h.effected with ⟨hmemory, hnews⟩ | ⟨next, hnext, hnews⟩
  · exact ⟨_, by rw [hmemory], hnews change hchange⟩
  · exact ⟨next, hnext.trans (List.suffix_cons _ _), hnews change hchange⟩

end Universe

namespace Action

/-- The action keeps the invariant, however it ends. -/
def Maintains (I : Universe Journal → Prop) {α : Type} (act : Action Journal α) : Prop :=
  ∀ u, I u → I (act.run u).2

variable {I : Universe Journal → Prop} {α β : Type} {act : Action Journal α}
  {next : α → Action Journal β}

theorem maintains_pure (a : α) : Maintains I (pure a) := fun _ h => h

theorem Maintains.bind (h : Maintains I act) (h' : ∀ a, Maintains I (next a)) :
    Maintains I (act >>= next) := by
  intro u hu
  have first := h u hu
  rw [run_bind]
  rcases hact : act.run u with ⟨_ | a, v⟩
  · rw [hact] at first
    exact first
  · rw [hact] at first
    exact h' a v first

theorem maintains_forM {next : α → Action Journal PUnit} (h : ∀ a, Maintains I (next a)) :
    ∀ l : List α, Maintains I (l.forM next)
  | [] => maintains_pure _
  | a :: l => (h a).bind fun _ => maintains_forM h l

theorem maintains_of_made {parts : Action Journal Unit → Prop}
    (h : ∀ part, parts part → Maintains I part) (made : Made parts act) : Maintains I act := by
  induction made with
  | pure a => exact maintains_pure a
  | look k => exact fun u hu => hu
  | part hpart => exact h _ hpart
  | bind _ _ ih ih' => exact ih.bind ih'

/-- A sequence that comes to its end has taken each step, from a state with the invariant. -/
theorem exists_of_forM {next : α → Action Journal PUnit} (h : ∀ a, Maintains I (next a))
    (grows : ∀ a u, u.memory <:+ ((next a).run u).2.memory) :
    ∀ {l : List α} {u : Universe Journal}, I u → (l.forM next).run u = (.ok ⟨⟩, v) →
      ∀ a ∈ l, ∃ w, I w ∧ ((next a).run w).2.memory <:+ v.memory
  | [], _, _, _, a, ha => absurd ha List.not_mem_nil
  | b :: l, u, hu, hrun, a, ha => by
    have first := h b u hu
    replace hrun : (next b >>= fun _ => l.forM next).run u = (.ok ⟨⟩, v) := hrun
    rw [run_bind] at hrun
    rcases hb : (next b).run u with ⟨_ | _, between⟩
    · rw [hb] at hrun
      cases hrun
    rw [hb] at hrun first
    replace hrun : (l.forM next).run between = (.ok ⟨⟩, v) := hrun
    rcases List.mem_cons.mp ha with rfl | ha
    · have later : Maintains (fun v => between.memory <:+ v.memory) (l.forM next) :=
        maintains_forM (fun a u hu => hu.trans (grows a u)) l
      have hlater := later between (List.suffix_refl _)
      rw [hrun] at hlater
      exact ⟨u, hu, by rw [hb]; exact hlater⟩
    · exact exists_of_forM h grows first hrun a ha

end Action

open LiveJson.Action (Maintains)

/-- Listeners that keep what is kept while operations are under way, that take note of what they are
told, and of which none fails unless some reaction can. -/
structure Listeners.Keeping (react : ListenerId → Change → Client) (listeners : Listeners Journal) :
    Prop where
  keeps : ∀ {n w stack id change u}, u.Amid react n (w :: stack) (w :: stack) →
    Moment.Faithful react ⟨.told id change, u.stores⟩ u.memory →
      ((listeners.tell id change).run u).2.Amid react n (w :: stack) (w :: stack)
  notes : ∀ id change u,
    ⟨.told id change, u.stores⟩ :: u.memory <:+ ((listeners.tell id change).run u).2.memory
  fails : ∀ {id change u e v}, (listeners.tell id change).run u = (.error e, v) →
    ¬ ∀ id change, (react id change).Tolerant

/-- Tells a listener of a change, unless it is behind it. -/
def Listeners.tellBut (listeners : Listeners Journal) (behind : Option ListenerId) (change : Change)
    (id : ListenerId) : Action Journal Unit :=
  if behind = some id then pure () else listeners.tell id change

theorem Listeners.Growing.tellBut (growing : listeners.Growing) (behind : Option ListenerId)
    (change : Change) (id : ListenerId) (u : Universe Journal) :
    u.memory <:+ ((listeners.tellBut behind change id).run u).2.memory := by
  unfold Listeners.tellBut
  split
  · exact List.suffix_refl _
  · exact growing id change u

theorem Listeners.Keeping.growing (keeping : listeners.Keeping react) : listeners.Growing :=
  fun id change u => (List.suffix_cons _ _).trans (keeping.notes id change u)

namespace Store

theorem dispatch_run (listeners : Listeners Journal) (k : StoreId) (path : String) (change : Change)
    (u : Universe Journal) : (dispatch listeners k path change).run u =
      (((u.store k).registry.listenersAt path).forM
        (listeners.tellBut (u.store k).origin change)).run u := rfl

variable (keeping : listeners.Keeping react) {news : Change → Prop}
include keeping

theorem maintains_tellBut (id : ListenerId) {change : Change} (hchange : news change) :
    Maintains (Universe.Reporting react n op before earlier stack news)
      (listeners.tellBut (innermost (operations (op.outset before earlier :: stack)) op.store)
        change id) := by
  intro u hu
  unfold Listeners.tellBut
  split
  · exact hu
  next hid =>
  have faithful := hu.faithful (by rw [hu.amid.origin]; exact hid) hchange
  have noted := keeping.notes id change u
  refine ⟨keeping.keeps hu.amid faithful, .inr ?_⟩
  rcases hu.effected with ⟨hmemory, hnews⟩ | ⟨next, hnext, hnews⟩
  · exact ⟨_, hmemory ▸ noted, hnews⟩
  · exact ⟨next, hnext.trans ((List.suffix_cons _ _).trans noted), hnews⟩

theorem maintains_telling {part : Action Journal Unit} (h : Telling listeners op.store news part) :
    Maintains (Universe.Reporting react n op before earlier stack news) part := by
  intro u hu
  cases h with
  | promote => exact hu.promoted op.store
  | dispatch path hchange =>
    rw [dispatch_run, hu.amid.origin]
    exact Action.maintains_forM (fun id => maintains_tellBut keeping id hchange) _ u hu

/-- When the listeners at a path have been told, each of them has been, save the one behind the
write. -/
theorem told_of_dispatch {path : String} {change : Change} (hchange : news change)
    (hu : u.Reporting react n op before earlier stack news)
    (hrun : (dispatch listeners op.store path change).run u = (.ok (), v)) :
    ∀ l ∈ (u.store op.store).registry.listenersAt path, (u.store op.store).origin ≠ some l →
      ∃ m : Journal, m <:+ v.memory ∧ m.Tells (op.outset before earlier) l change := by
  intro l hl hid
  rw [dispatch_run] at hrun
  rw [hu.amid.origin] at hrun hid
  obtain ⟨t, ht, hsuffix⟩ := Action.exists_of_forM
    (fun id => maintains_tellBut keeping id hchange) (keeping.growing.tellBut _ change) hu hrun l hl
  rw [Listeners.tellBut, if_neg hid] at hsuffix
  refine ⟨_, (keeping.notes l change t).trans hsuffix, t.stores, t.memory, rfl, ?_⟩
  rw [ht.amid.underway]
  rfl

/-- A report that comes to its end has told everybody who listened at the location that it opens
with. -/
theorem told_of_opens {location : Path} {report : Action Journal Unit}
    (opens : Opens listeners op.store news location report)
    (hu : u.Reporting react n op before earlier stack news) (hrun : report.run u = (.ok (), v)) :
    ∀ l ∈ (u.store op.store).registry.listenersAt location.toText,
      (u.store op.store).origin ≠ some l →
        v.memory.HasTold (op.outset before earlier) l location.toText := by
  obtain ⟨change, rest, hpath, hchange, made, rfl⟩ := opens
  intro l hl hid
  rw [Action.run_bind, run_promoteIn] at hrun
  dsimp only at hrun
  rw [Action.run_bind] at hrun
  rcases hfirst : (dispatch listeners op.store location.toText change).run (u.promoted op.store)
    with ⟨_ | _, t⟩
  · rw [hfirst] at hrun
    cases hrun
  rw [hfirst] at hrun
  have hstore := u.store_promoted op.store
  have hl : l ∈ ((u.promoted op.store).store op.store).registry.listenersAt location.toText := by
    rw [hstore, promote_listenersAt, Registry.mem_joined]
    exact .inl hl
  obtain ⟨m, hm, tells⟩ := told_of_dispatch keeping hchange (hu.promoted op.store) hfirst l hl
    (by rw [hstore]; exact hid)
  have grows := (Action.relays_of_made keeping.growing made).grows t
  rw [show rest.run t = (.ok (), v) from hrun] at grows
  exact ⟨m, change, hm.trans grows, tells, hpath⟩

theorem Acts.concludes {news : Store → Change → Prop} {opening : Path → Prop}
    {act : Action Journal Unit} (acts : Acts listeners op.store u news opening act)
    (hu : u.Amid react n (op.outset before earlier :: stack) (op.outset before earlier :: stack))
    (hmemory : u.memory = op.outset before earlier)
    (hnews : ∀ s change, news s change →
      op.Tells (seen before) (seen (u.setStore op.store s).stores) change) :
    (act.run u).2.Amid react n (op.outset before earlier :: stack)
        (op.outset before earlier :: stack) ∧
      ((act.run u).1 = .ok () → ∀ location, opening location →
        ∀ l ∈ (u.store op.store).registry.listenersAt location.toText,
          (u.store op.store).origin ≠ some l →
            (act.run u).2.memory.HasTold (op.outset before earlier) l location.toText) := by
  rcases acts with ⟨e, refused⟩ | ⟨s, report, acted⟩
  · rw [refused]
    exact ⟨hu, nofun⟩
  rw [acted.run_eq]
  have reporting : (u.setStore op.store s).Reporting react n op before earlier stack (news s) :=
    ⟨hu.setStore acted.reachable acted.origin, .inl ⟨hmemory, hnews s⟩⟩
  refine ⟨?_, fun hok location hopening l hl hid => ?_⟩
  · refine (Action.maintains_of_made (fun _ => ?_) acted.made _ reporting).amid
    exact maintains_telling keeping
  · have same : ((u.setStore op.store s).store op.store).registry = (u.store op.store).registry ∧
        ((u.setStore op.store s).store op.store).origin = (u.store op.store).origin := by
      rcases u.store_setStore op.store s with hs | hs
      · rw [hs]
        exact ⟨acted.registry, acted.origin⟩
      · rw [hs]
        exact ⟨rfl, rfl⟩
    have opens := acted.opens location hopening
    refine told_of_opens keeping opens reporting (Prod.ext hok rfl) l ?_ ?_
    · rw [same.1]
      exact hl
    · rw [same.2]
      exact hid

end Store

namespace Operation

theorem WritesAt.store_eq {σ : Type} {u : Universe σ} {location : Path}
    (h : op.WritesAt u k location) : k = op.store := by
  have aimed : ∀ {j id key o origin aim}, Operation.aim.aimAt u j id key o origin = some (k, aim) →
      k = j := by
    intro j id key o origin aim h
    rw [Operation.aim.aimAt] at h
    obtain ⟨location, -, h⟩ := Option.map_eq_some_iff.mp h
    exact (Prod.mk.inj h).1.symm
  obtain ⟨writes, aim, haim, -⟩ := h
  cases op with
  | set | push | delete => exact aimed haim
  | change j path value origin =>
    rw [Operation.aim] at haim
    split at haim
    · exact aimed haim
    · cases haim
  | load | tick | subscribe | unsubscribe => exact writes.elim

/-- The operation that began at `u` has kept what is kept while others are under way, and if it ended
well it has told whom it was to tell. -/
structure Performed (react : ListenerId → Change → Client) (n : Nat) (stack : List Journal)
    (op : Operation) (u : Universe Journal) (result : Except StoreError Unit × Universe Journal) :
    Prop where
  amid : result.2.Amid react n (op.outset u.stores u.memory :: stack) stack
  told : result.1 = .ok () →
    op.ToldAll u.stores (op.outset u.stores u.memory) result.2.memory

variable (keeping : listeners.Keeping react)
include keeping

theorem concludes_of_error (hu : u.Steady Policy.free) {e : StoreError}
    (hrun : (op.perform listeners).run u = (.error e, v)) : op.Concludes react u v (.error e) := by
  intro tolerant registers
  refine (failed_perform keeping.growing hu registers hrun).resolve_right ?_
  rintro ⟨w, origin, ⟨listener, change, before, -, hfailed⟩, -⟩
  exact keeping.fails hfailed tolerant

theorem performed_change (path : String) (value : Value) (origin : Option ListenerId)
    (hu : u.Amid react n stack stack) {op : Operation} (hop : op = change k path value origin) :
    op.Performed react n stack u ((op.perform listeners).run (u.note (.began op))) := by
  have began := hu.began op
  have hstore : op.store = k := by rw [hop]; rfl
  have others : ∀ j, j ≠ k → innermost (operations (op.outset u.stores u.memory :: stack)) j =
      innermost (operations stack) j := by
    intro j hj
    refine innermost_cons_of_none ?_
    rw [hop, names?, if_neg (Ne.symm hj)]
  have hnamed : innermost (operations (op.outset u.stores u.memory :: stack)) k = origin := by
    rw [hop]
    exact innermost_change path value origin
  have hperform : op.perform listeners = Store.change listeners k path value.node origin := by
    rw [hop]
    rfl
  rw [hperform]
  rcases Store.acts_change began.steady listeners k path value origin with
    ⟨e, refused⟩ | ⟨act, hk, acts, hact⟩
  · rw [refused]
    exact ⟨began, nofun⟩
  · have entered := began.onBehalf (began.size ▸ hk) others
    rw [← hop, ← hstore] at acts
    rw [hnamed, ← hstore] at entered
    obtain ⟨amid, told⟩ := acts.concludes keeping entered rfl fun s change tells => by
      rw [Universe.setStore_setStore]
      exact tells.seen
    rw [hstore] at amid told
    have left := amid.onBehalf (began.size ▸ hk) fun j hj => (others j hj).symm
    rw [hact, began.origin k]
    refine ⟨left, fun hok j location writes l hl hid => ?_⟩
    obtain rfl : j = k := writes.store_eq.trans hstore
    rw [Journal.behind_eq left.underway, hnamed] at hid
    rw [Universe.store_setStore_self hk] at told
    exact told hok location (writes.congr rfl).2 l hl hid

omit keeping in
/-- Whoever subscribes or unsubscribes tells nobody. -/
theorem performed_registers (hu : u.Amid react n stack stack) (registers : op.Registers) :
    op.Performed react n stack u ((op.perform listeners).run (u.note (.began op))) := by
  have began := hu.began op
  cases op with
  | subscribe k query listener =>
    have reachable := (began.steady k).step (.subscribe query listener)
    rw [perform, Store.subscribeIn_run]
    exact ⟨began.setStore reachable (Store.subscribe_origin _ query listener),
      fun _ _ _ writes => writes.1.elim⟩
  | unsubscribe k query listener =>
    have reachable := (began.steady k).step (.unsubscribe query listener)
    rw [perform, Store.unsubscribeIn_run]
    exact ⟨began.setStore reachable (Store.unsubscribe_origin _ query listener),
      fun _ _ _ writes => writes.1.elim⟩
  | _ => exact registers.elim

theorem performed (op : Operation) (hu : u.Amid react n stack stack) :
    op.Performed react n stack u ((op.perform listeners).run (u.note (.began op))) := by
  by_cases registers : op.Registers
  · exact performed_registers hu registers
  by_cases names : op.Names
  · cases op with
    | change k path value origin => exact performed_change keeping path value origin hu rfl
    | _ => exact names.elim
  have began := hu.began op
  have same : ∀ k, innermost (operations (op.outset u.stores u.memory :: stack)) k =
      innermost (operations stack) k := by
    refine fun k => innermost_cons_of_none ?_
    cases op with
    | change => exact absurd trivial names
    | _ => rfl
  obtain ⟨amid, told⟩ := (acts_perform listeners began.steady registers names).concludes keeping
    (began.congr same) rfl fun s change tells => tells.seen
  refine ⟨amid.congr fun k => (same k).symm, fun hok k location writes l hl hid => ?_⟩
  obtain rfl : k = op.store := writes.store_eq
  rw [Journal.behind_eq amid.underway, same, ← began.origin] at hid
  exact told hok location (writes.congr rfl) l hl hid

theorem keeps_run (op : Operation) :
    Maintains (Universe.Amid react n stack stack) (op.run listeners) := by
  intro u hu
  obtain ⟨amid, told⟩ := performed keeping op hu
  rw [run_eq]
  refine amid.ended ?_
  rcases hrun : (op.perform listeners).run (u.note (.began op)) with ⟨_ | _, v⟩
  · exact concludes_of_error keeping (hu.began op).steady hrun
  · rw [hrun] at told
    exact told rfl

end Operation

namespace Client

theorem keeps_run (keeping : listeners.Keeping react) :
    ∀ client : Client, Maintains (Universe.Amid react n stack stack) (client.run listeners)
  | done => Action.maintains_pure _
  | fail _ => fun _ hu => hu
  | look next => fun u hu => keeps_run keeping (next u) u hu
  | take op next => (op.keeps_run keeping).bind fun _ => keeps_run keeping next

/-- A tolerant client never fails. -/
theorem run_eq_ok (listeners : Listeners Journal) : ∀ client : Client, client.Tolerant →
    ∀ u, ((client.run listeners).run u).1 = .ok ()
  | done, _, _ => rfl
  | look next, h, u => run_eq_ok listeners (next u) (h u) u
  | take op next, h, u => run_eq_ok listeners next h ((op.run listeners).run u).2

theorem keeping_reacting (react : ListenerId → Change → Client) (reach : Nat) :
    ∀ depth, (reacting react reach depth).Keeping react
  | 0 => {
    keeps := fun hu faithful => hu.note faithful hu.underway
    notes := fun id change u => List.suffix_refl _
    fails := nofun }
  | depth + 1 => {
    keeps := fun hu faithful =>
      (react _ _).keeps_run (keeping_reacting react reach depth) _ (hu.note faithful hu.underway)
    notes := fun id change u =>
      have free := Journal.compliesBy_free []
      ((react id change).leading_run (leading_reacting free react reach depth) free
        (u.note (.told id change))).grows
    fails := by
      intro id change u e v hrun tolerant
      have hok := run_eq_ok (reacting react reach depth) (react id change) (tolerant id change)
        (u.note (.told id change))
      cases hok.symm.trans (congrArg Prod.fst hrun) }

end Client

namespace Universe

/-- Between operations nobody is behind anything, and all moments are faithful. -/
theorem Reached.amid {note depth : Nat} (h : u.Reached (Client.reacting react note depth)) :
    u.Amid react u.stores.size [] [] := by
  induction h with
  | start count =>
    refine ⟨rfl, fun k => ?_, rfl, fun k => ?_, fun _ _ hsuffix => ?_⟩
    · exact (stepwise_start (A := fun _ => Policy.free) count).now k
    · rw [Universe.store_start]
      rfl
    · exact absurd hsuffix.length_le (Nat.not_succ_le_zero _)
  | @next u h op ih =>
    have kept := op.keeps_run (Client.keeping_reacting react note depth) u ih
    exact kept.size.symm ▸ kept

end Universe

end LiveJson

import LiveJson.Proofs.Run.Delivery
import LiveJson.Proofs.Run.Effect
import LiveJson.Proofs.Store.Shifted

/-! # What reports are made of

Whatever listeners do while they are told of a change, an operation that is refused changes nothing,
and any other first changes its store and then makes a report. A report is made of nothing but
promotions of pending subscriptions and tellings of the listeners at single paths, so what these
keep is kept by every report. What is told follows from what the operation has done to its store,
also if listeners have done more to it in the meantime, and a write is told first to the listeners
at its location. -/

namespace LiveJson

open Store (Policy Step Reachable)

variable {listeners : Listeners Journal} {parts : Action Journal Unit → Prop}
  {u : Universe Journal} {k : StoreId}

namespace Action

/-- Actions that are made of the given ones, with looks at the stores in between. -/
inductive Made (parts : Action Journal Unit → Prop) : ∀ {α : Type}, Action Journal α → Prop
  | pure {α : Type} (a : α) : Made parts (pure a)
  | look (k : StoreId) : Made parts (getStore k)
  | part {act : Action Journal Unit} (h : parts act) : Made parts act
  | bind {α β : Type} {act : Action Journal α} {next : α → Action Journal β} (h : Made parts act)
      (h' : ∀ a, Made parts (next a)) : Made parts (act >>= next)

variable {α β : Type}

theorem made_forM {next : α → Action Journal PUnit} :
    ∀ l : List α, (∀ a ∈ l, Made parts (next a)) → Made parts (l.forM next)
  | [], _ => .pure _
  | a :: l, h => (h a List.mem_cons_self).bind fun _ =>
      made_forM l fun b hb => h b (List.mem_cons_of_mem _ hb)

theorem made_foldlM {next : β → α → Action Journal β} (h : ∀ b a, Made parts (next b a)) :
    ∀ (l : List α) (b : β), Made parts (l.foldlM next b)
  | [], b => .pure b
  | a :: l, b => (h b a).bind fun b => made_foldlM h l b

theorem Made.mono {parts' : Action Journal Unit → Prop} {act : Action Journal α}
    (h : Made parts act) (hparts : ∀ act, parts act → parts' act) : Made parts' act := by
  induction h with
  | pure a => exact .pure a
  | look k => exact .look k
  | part h => exact .part (hparts _ h)
  | bind _ _ ih ih' => exact ih.bind ih'

end Action

open LiveJson.Action (Made)

namespace Store

/-- What reports of store `k` are made of, where everything told is one of the things to say. -/
inductive Telling (listeners : Listeners Journal) (k : StoreId) (news : Change → Prop) :
    Action Journal Unit → Prop
  | promote : Telling listeners k news (promoteIn k)
  | dispatch (path : String) {change : Change} (h : news change) :
      Telling listeners k news (dispatch listeners k path change)

variable {news : Change → Prop}

theorem Telling.mono {news' : Change → Prop} {act : Action Journal Unit}
    (h : Telling listeners k news act) (hnews : ∀ change, news change → news' change) :
    Telling listeners k news' act := by
  cases h with
  | promote => exact .promote
  | dispatch path h => exact .dispatch path (hnews _ h)

/-- The change is the loss of something inside a location. -/
def Loses (location : Path) (change : Change) : Prop :=
  change.op = .delete ∧ change.new = none ∧
    ∃ below, below ≠ [] ∧ change.path = (location ++ below).toText

theorem Loses.of_concat {location : Path} {key : Key} {change : Change}
    (h : Loses (location ++ [key]) change) : Loses location change := by
  obtain ⟨hop, hnew, below, -, hpath⟩ := h
  refine ⟨hop, hnew, key :: below, List.cons_ne_nil _ _, ?_⟩
  rw [hpath, List.append_assoc, List.singleton_append]

/-! ## Reports -/

theorem made_walk (location : Path) {change : Change} (h : news change) :
    Made (Telling listeners k news) (walk listeners k location change) :=
  Action.made_forM _ fun _ _ => .part (.dispatch _ h)

theorem made_cascade : ∀ (fuel : Nat) (id : CellId) {path : Path} (seen : List String),
    (∀ change, Loses path change → news change) →
    Made (Telling listeners k news) (cascade listeners k fuel id path seen)
  | 0, _, _, seen, _ => .pure seen
  | fuel + 1, id, path, seen, h => by
    refine (Made.look k).bind fun s => Action.made_foldlM (fun seen entry => ?_) _ _
    obtain ⟨key, slot⟩ := entry
    have hlost : news { op := .delete, path := (path ++ [key]).toText,
                        old := some (Node.ofSlot k slot), new := none } :=
      h _ ⟨rfl, rfl, [key], List.cons_ne_nil _ _, rfl⟩
    have hbelow : ∀ change, Loses (path ++ [key]) change → news change :=
      fun change hchange => h change hchange.of_concat
    refine (Made.look k).bind fun now => ?_
    cases slot with
    | cell child =>
      dsimp only
      split
      · exact (Made.part (.dispatch _ hlost)).bind fun _ => made_cascade fuel _ _ hbelow
      · exact made_cascade fuel _ _ hbelow
    | scalar _ =>
      dsimp only
      split
      · exact (Made.part (.dispatch _ hlost)).bind fun _ => .pure _
      · exact .pure _

/-- The report tells the listeners at the location of a change there, as soon as it has promoted the
waiting ones. -/
def Opens (listeners : Listeners Journal) (k : StoreId) (news : Change → Prop) (location : Path)
    (report : Action Journal Unit) : Prop :=
  ∃ change rest, change.path = location.toText ∧ news change ∧
    Made (Telling listeners k news) rest ∧ report = promoteIn k >>= fun _ =>
      dispatch listeners k location.toText change >>= fun _ => rest

theorem Opens.mono {news' : Change → Prop} {location : Path} {report : Action Journal Unit}
    (h : Opens listeners k news location report) (hnews : ∀ change, news change → news' change) :
    Opens listeners k news' location report := by
  obtain ⟨change, rest, hpath, hchange, made, rfl⟩ := h
  exact ⟨change, rest, hpath, hnews _ hchange, made.mono fun _ part => part.mono hnews, rfl⟩

theorem outward_eq_cons (location : Path) : ∃ above, outward location = location :: above := by
  refine ⟨((List.range location.length).reverse.map location.take), ?_⟩
  rw [outward, List.range_succ, List.reverse_append, List.map_append, List.reverse_singleton,
    List.map_singleton, List.take_length, List.singleton_append]

theorem made_notifyLoss {edit : Edit} (h : ∀ change, Loses edit.location change → news change) :
    Made (Telling listeners k news) (notifyLoss listeners k edit) := by
  unfold notifyLoss
  split
  · split
    · exact (Made.look k).bind fun _ => (made_cascade _ _ _ h).bind fun _ => .pure _
    · exact .pure _
  · exact .pure _

theorem made_notify (edit : Edit) : Made (Telling listeners k fun change =>
    change = changeOf k edit ∨ Loses edit.location change) (notify listeners k edit) :=
  (Made.part .promote).bind fun _ => (made_walk _ (.inl rfl)).bind fun _ =>
    made_notifyLoss fun _ => .inr

theorem opens_notify (listeners : Listeners Journal) (k : StoreId) (edit : Edit) :
    Opens listeners k (fun change => change = changeOf k edit ∨ Loses edit.location change)
      edit.location (notify listeners k edit) := by
  obtain ⟨above, habove⟩ := outward_eq_cons edit.location
  let beyond := above.forM fun path => dispatch listeners k path.toText (changeOf k edit)
  refine ⟨changeOf k edit, beyond >>= fun _ => notifyLoss listeners k edit, rfl, .inl rfl, ?_, ?_⟩
  · refine (Action.made_forM _ fun _ _ => .part (.dispatch _ (.inl rfl))).bind fun _ => ?_
    exact made_notifyLoss fun _ => .inr
  · have hwalk : walk listeners k edit.location (changeOf k edit) =
        dispatch listeners k edit.location.toText (changeOf k edit) >>= fun _ => beyond := by
      rw [walk, habove]
      rfl
    rw [notify_eq, hwalk, bind_assoc]

/-- A canonical path is looked up without an error, whatever has become of the store. -/
theorem made_lookup {path : String} (hp : ∃ p : Path, path = p.toText)
    {next : Option Slot → Action Journal PUnit} (h : ∀ slot, Made parts (next slot)) :
    Made parts (do
      let store ← Action.getStore k
      let slot ← Action.ofPath (store.lookup path)
      next slot) := by
  obtain ⟨p, rfl⟩ := hp
  refine (Made.look k).bind fun s => ?_
  obtain ⟨slot, hslot⟩ := s.lookup_toText p
  rw [hslot]
  exact h slot

theorem made_notifyRemoval {removal : Removal}
    (h : ∀ entry ∈ removal.shifted, ∃ p : Path, entry.1 = p.toText) :
    Made (Telling listeners k fun change => change = changeOf k removal.edit ∨
      change.op ≠ .load ∧ ∃ entry ∈ removal.shifted, change.path = entry.1)
      (notifyRemoval listeners k removal) := by
  refine (Made.part .promote).bind fun _ => (made_walk _ (.inl rfl)).bind fun _ => ?_
  refine Action.made_forM _ fun entry hentry => made_lookup (h entry hentry) fun new => ?_
  split
  · exact .pure _
  · refine .part (.dispatch _ (.inr ⟨?_, entry, hentry, rfl⟩))
    cases new <;> nofun

/-- The paths at which to report a loaded document are known before anybody is told. -/
theorem made_notifyLoad (listeners : Listeners Journal) (hr : (u.store k).registry.WellFormed) :
    ∃ report : Action Journal Unit,
      Made (Telling listeners k fun change => change.op = .load) report ∧
        (notifyLoad listeners k).run u = report.run u := by
  refine ⟨promoteIn k >>= fun _ => (u.promoted k |>.store k).registry.paths.forM fun path => do
      let store ← Action.getStore k
      let new ← Action.ofPath (store.lookup path)
      dispatch listeners k path
        { op := .load, path, old := none, new := new.map (Node.ofSlot k) }, ?_, rfl⟩
  refine (Made.part .promote).bind fun _ => Action.made_forM _ fun path hpath => ?_
  rw [Universe.store_promoted] at hpath
  exact made_lookup ((wellFormed_promote hr).canonical hpath) fun _ => .part (.dispatch _ rfl)

/-! ## Operations -/

/-- What there is to tell of a write at a location: what was there and is there, and the loss of
what was inside. -/
def Recounts (s t : Store) (k : StoreId) (op : Op) (location : Path) (change : Change) : Prop :=
  change = { op, path := location.toText, old := s.nodeAt k location, new := t.nodeAt k location } ∨
    Loses location change

theorem Target.isArray_of_name {s : Store} {id : CellId} {key : Key} {path : Path} {name : String}
    {c : Content} (target : Target s id key path (.name name) c) : s.isArray id = false := by
  refine Bool.eq_false_iff.mpr fun harray => ?_
  have hnormal := target.normal
  rw [normalize, harray, if_pos rfl] at hnormal
  split at hnormal <;> cases hnormal

theorem Accounts.recounts {s t : Store} {edit : Edit} {op : Op} {change : Change}
    (acc : Accounts s t edit) (hop : edit.op = op)
    (h : change = changeOf k edit ∨ Loses edit.location change) :
    Recounts s t k op edit.location change := by
  refine h.imp_left fun heq => ?_
  rw [heq, changeOf, nodeAt, nodeAt, acc.old, acc.new, hop]

end Store

namespace Operation

/-- What an operation can tell of what it has done, from `before` to `after`. -/
inductive Tells {σ : Type} (before after : Universe σ) : Operation → Change → Prop
  | written {op : Operation} {k : StoreId} {aim : Aim} (writes : op.Writes before)
      (haim : op.aim before = some (k, aim)) :
      Tells before after op
        { op := aim.op, path := aim.location.toText,
          old := (before.store k).nodeAt k aim.location,
          new := (after.store k).nodeAt k aim.location }
  | lost {op : Operation} {k : StoreId} {aim : Aim} {change : Change} (writes : op.Writes before)
      (haim : op.aim before = some (k, aim)) (hlost : Store.Loses aim.location change) :
      Tells before after op change
  | removed {ref : CellRef} {key : Key} {array : Path} {i : Nat}
      (hkey : (before.store ref.store).keyAt ref.cell key = .ok (array ++ [.index i])) :
      Tells before after (.delete ref key)
        { op := .delete, path := Path.toText (array ++ [.index i]),
          old := (before.store ref.store).nodeAt ref.store (array ++ [.index i]), new := none }
  | shifted {ref : CellRef} {key : Key} {array : Path} {i : Nat} {change : Change}
      (hkey : (before.store ref.store).keyAt ref.cell key = .ok (array ++ [.index i]))
      (hpath : Store.RunsThrough array i change.path) (hop : change.op ≠ .load) :
      Tells before after (.delete ref key) change
  | loaded {k : StoreId} {change : Change} (hop : change.op = .load) :
      Tells before after (.tick k) change

variable {op : Operation} {aim : Aim} {change : Change}

theorem Tells.of_recounts {σ : Type} {before after : Universe σ} (writes : op.Writes before)
    (haim : op.aim before = some (k, aim))
    (h : Store.Recounts (before.store k) (after.store k) k aim.op aim.location change) :
    op.Tells before after change := by
  rcases h with rfl | hlost
  · exact .written writes haim
  · exact .lost writes haim hlost

theorem keyAt_of_aimAt {σ : Type} {u : Universe σ} {id : CellId} {key : Key} {op : Op}
    {origin : Option ListenerId} (h : Operation.aim.aimAt u k id key op origin = some (k, aim)) :
    ∃ location, (u.store k).keyAt id key = .ok location ∧ aim = ⟨op, location, origin⟩ := by
  cases hkey : (u.store k).keyAt id key with
  | error e =>
    rw [Operation.aim.aimAt, hkey] at h
    cases h
  | ok location =>
    rw [aimAt_eq_some hkey] at h
    cases h
    exact ⟨location, rfl, rfl⟩

end Operation

namespace Store

theorem lt_size_of_keyAt {id : CellId} {key : Key} {location : Path}
    (h : (u.store k).keyAt id key = .ok location) : k < u.stores.size := by
  obtain ⟨path, hattached, -⟩ := bind_eq_ok.mp h
  exact Universe.lt_size_of_place? (attached_eq_ok hattached).2

/-- The action takes store `k` to the state `s`, with the same listener behind it, and then makes
the report, which tells of nothing but the news and opens with each location with the property. -/
structure Acted (listeners : Listeners Journal) (k : StoreId) (u : Universe Journal)
    (news : Store → Change → Prop) (opening : Path → Prop) (act : Action Journal Unit) (s : Store)
    (report : Action Journal Unit) : Prop where
  reachable : s.Reachable Policy.free
  origin : s.origin = (u.store k).origin
  registry : s.registry = (u.store k).registry
  made : Made (Telling listeners k (news s)) report
  opens : ∀ location, opening location → Opens listeners k (news s) location report
  run_eq : act.run u = report.run (u.setStore k s)

/-- The action is refused and changes nothing, or it changes store `k` and makes a report of that.
-/
def Acts (listeners : Listeners Journal) (k : StoreId) (u : Universe Journal)
    (news : Store → Change → Prop) (opening : Path → Prop) (act : Action Journal Unit) : Prop :=
  (∃ e, act.run u = (.error e, u)) ∨
    ∃ s report, Acted listeners k u news opening act s report

section
variable {news' : Store → Change → Prop} {opening opening' : Path → Prop}
  {act : Action Journal Unit}

theorem Acts.mono {news : Store → Change → Prop} (h : Acts listeners k u news opening act)
    (hnews : ∀ s change, news s change → news' s change)
    (hopening : ∀ location, opening' location → opening location) :
    Acts listeners k u news' opening' act := by
  refine h.imp_right fun ⟨s, report, acted⟩ => ⟨s, report, { acted with
    made := acted.made.mono fun _ part => part.mono (hnews s)
    opens := fun location h => (acted.opens location (hopening location h)).mono (hnews s) }⟩

end

variable (hu : u.Steady Policy.free)
include hu

theorem acts_write (listeners : Listeners Journal) (ref : CellRef) (key : Key) (value : Value) :
    Acts listeners ref.store u
      (fun s change => ∃ location, (u.store ref.store).keyAt ref.cell key = .ok location ∧
        Recounts (u.store ref.store) s ref.store .set location change)
      (fun location => (u.store ref.store).keyAt ref.cell key = .ok location)
      (write listeners ref key value.node) := by
  have hrun := write_run listeners ref key value.node u
  cases hset : (u.store ref.store).set ref.cell key (u.incoming ref.store value.node) with
  | error e =>
    rw [hset] at hrun
    exact Or.inl ⟨e, hrun⟩
  | ok result =>
    obtain ⟨edit, s⟩ := result
    rw [hset] at hrun
    have legal := hu.legal ref.store value
    have step : Step Policy.free (u.store ref.store) s := .set legal (fun _ _ => trivial) hset
    have rest := Store.rest_set hset
    have acc := (hu ref.store).sound.accounts_set legal hset
    obtain ⟨path, key', c, target, -, -, slot, t, -, hedit, -⟩ := Store.set_eq_ok hset
    have hop : edit.op = .set := by rw [hedit]
    have hkey : (u.store ref.store).keyAt ref.cell key = .ok edit.location := by
      rw [hedit]
      exact target.keyAt
    have hnews : ∀ change, change = changeOf ref.store edit ∨ Loses edit.location change →
        ∃ location, (u.store ref.store).keyAt ref.cell key = .ok location ∧
          Recounts (u.store ref.store) s ref.store .set location change :=
      fun change hchange => ⟨_, hkey, acc.recounts hop hchange⟩
    refine Or.inr ⟨s, _, (hu ref.store).step step, by rw [rest], by rw [rest], ?_,
      fun location h => ?_, hrun⟩
    · exact (made_notify edit).mono fun _ part => part.mono hnews
    · cases hkey.symm.trans h
      exact (opens_notify listeners ref.store edit).mono hnews

theorem acts_push (listeners : Listeners Journal) (ref : CellRef) (value : Value) :
    Acts listeners ref.store u
      (fun s change => ∃ location, (u.store ref.store).keyAt ref.cell
        (.index ((u.store ref.store).length ref.cell)) = .ok location ∧
          Recounts (u.store ref.store) s ref.store .set location change)
      (fun location => (u.store ref.store).keyAt ref.cell
        (.index ((u.store ref.store).length ref.cell)) = .ok location)
      (push listeners ref value.node) := by
  have hrun := push_run listeners ref value.node u
  split at hrun
  · refine (acts_write hu listeners ref _ value).imp
      (fun ⟨e, refused⟩ => ⟨e, hrun.trans refused⟩) ?_
    exact fun ⟨s, report, acted⟩ => ⟨s, report, { acted with run_eq := hrun.trans acted.run_eq }⟩
  · exact Or.inl ⟨_, hrun⟩

theorem acts_remove (listeners : Listeners Journal) (ref : CellRef) (key : Key) :
    Acts listeners ref.store u
      (fun s change => (Operation.delete ref key).Tells u (u.setStore ref.store s) change)
      (fun location => (Operation.delete ref key).Writes u ∧
        (u.store ref.store).keyAt ref.cell key = .ok location)
      (remove listeners ref key) := by
  have hrun := remove_run listeners ref key u
  cases hdelete : (u.store ref.store).delete ref.cell key with
  | error e =>
    rw [hdelete] at hrun
    exact Or.inl ⟨e, hrun⟩
  | ok removed =>
    rw [hdelete] at hrun
    cases removed with
    | none =>
      obtain ⟨path, key', c, target, hnone⟩ := delete_eq_none hdelete
      refine Or.inr ⟨u.store ref.store, pure (), hu ref.store, rfl, rfl, .pure _, fun _ h => ?_, ?_⟩
      · have there := h.1.2
        rw [get?_eq target.content, ← target.key_eq_name h.1.1, hnone] at there
        cases there
      · rw [Universe.setStore_store]
        exact hrun
    | some removed =>
      obtain ⟨removal, s⟩ := removed
      obtain ⟨path, key', c, old, target, hold, hedit, hshifts, -⟩ := Store.delete_eq_ok hdelete
      have hlocation : removal.edit.location = path ++ [key'] := by rw [hedit]
      have hlast : removal.edit.location.getLast? = some key' := by
        rw [hlocation, List.getLast?_concat]
      have hself := Universe.store_setStore_self (Universe.lt_size_of_place? target.place) s
      have reachable := (hu ref.store).step (.delete hdelete)
      have rest := Store.rest_delete hdelete
      dsimp only at hrun
      rw [hlast] at hrun
      refine Or.inr ⟨s, ?_⟩
      cases key' with
      | index i =>
        have registry := (hu ref.store).registry
        have hcanonical := listenedFrom_canonical registry hshifts
        refine ⟨_, reachable, by rw [rest], by rw [rest], ?_, fun _ h => ?_, hrun⟩
        · refine (made_notifyRemoval hcanonical).mono fun _ part => part.mono ?_
          rintro change (rfl | ⟨hop, entry, hentry, hpath⟩)
          · have hnode : some (Node.ofSlot ref.store old) =
                (u.store ref.store).nodeAt ref.store (path ++ [.index i]) := by
              have hold := ((hu ref.store).sound.at?_key target.place target.content _).trans hold
              rw [nodeAt, hold]
              rfl
            rw [hedit, changeOf, Option.map_some, hnode]
            exact .removed target.keyAt
          · refine .shifted target.keyAt ?_ hop
            rw [hpath, runsThrough_iff (hcanonical entry hentry)]
            exact (mem_listenedFrom hshifts entry hentry).2
        · cases target.key_eq_name h.1.1
      | name n =>
        have acc := (hu ref.store).sound.accounts_delete hlocation hdelete
        have harray := target.isArray_of_name
        have writes : (Operation.delete ref key).Writes u := by
          refine ⟨harray, ?_⟩
          rw [get?_eq target.content, ← target.key_eq_name harray, hold]
          rfl
        have hnews : ∀ change,
            change = changeOf ref.store removal.edit ∨ Loses removal.edit.location change →
            (Operation.delete ref key).Tells u (u.setStore ref.store s) change := by
          intro change hchange
          refine .of_recounts writes (Operation.aimAt_eq_some target.keyAt) ?_
          rw [hself, ← hlocation]
          exact acc.recounts (by rw [hedit]) hchange
        refine ⟨_, reachable, by rw [rest], by rw [rest], ?_, fun location h => ?_, hrun⟩
        · exact (made_notify removal.edit).mono fun _ part => part.mono hnews
        · cases (hlocation ▸ target.keyAt).symm.trans h.2
          exact (opens_notify listeners ref.store removal.edit).mono hnews

theorem acts_tick (listeners : Listeners Journal) (k : StoreId) :
    Acts listeners k u (fun s change => (Operation.tick k).Tells u (u.setStore k s) change)
      (fun _ => False) (tick listeners k) := by
  cases hdue : (u.store k).reloadDue with
  | false =>
    refine Or.inr ⟨u.store k, pure (), hu k, rfl, rfl, .pure _, fun _ => False.elim, ?_⟩
    rw [Universe.setStore_store]
    exact tick_run_of_not_due listeners hdue
  | true =>
    have hrun : (tick listeners k).run u =
        (notifyLoad listeners k).run (u.setStore k (u.store k).reported) := by
      unfold tick
      rw [Action.run_bind, Action.run_getStore]
      dsimp only
      rw [hdue, if_pos rfl]
      rfl
    have registry : ((u.setStore k (u.store k).reported).store k).registry.WellFormed := by
      rcases u.store_setStore k (u.store k).reported with hs | hs
      · rw [hs]
        exact (hu k).registry
      · rw [hs]
        exact (hu k).registry
    obtain ⟨report, made, hreport⟩ := made_notifyLoad listeners registry
    refine Or.inr ⟨_, report, (hu k).step .reported, rfl, rfl, ?_, fun _ => False.elim,
      hrun.trans hreport⟩
    exact made.mono fun _ part => part.mono fun _ => .loaded

theorem acts_loadIn (listeners : Listeners Journal) (k : StoreId) (document : Document)
    (news : Store → Change → Prop) :
    Acts listeners k u news (fun _ => False) (loadIn k document.json) := by
  have hrun := loadIn_run k document.json u
  cases hload : (u.store k).load document.json with
  | error e =>
    rw [hload] at hrun
    exact Or.inl ⟨e, hrun⟩
  | ok s =>
    rw [hload] at hrun
    have rest := Store.rest_load hload
    have reachable := (hu k).step (.load document.wellFormed hload)
    exact Or.inr
      ⟨s, pure (), reachable, by rw [rest], by rw [rest], .pure _, fun _ => False.elim, hrun⟩

/-- A change is refused, or it puts a listener behind an action and takes it away again. -/
theorem acts_change (listeners : Listeners Journal) (k : StoreId) (path : String) (value : Value)
    (origin : Option ListenerId) :
    (∃ e, (change listeners k path value.node origin).run u = (.error e, u)) ∨
      ∃ act, k < u.stores.size ∧
        Acts listeners k (u.setStore k ((u.store k).onBehalf origin))
          (fun s => (Operation.change k path value origin).Tells u (u.setStore k s))
          (fun location => ∃ aim, (Operation.change k path value origin).aim u = some (k, aim) ∧
            aim.location = location) act ∧
        (change listeners k path value.node origin).run u =
          let acted := act.run (u.setStore k ((u.store k).onBehalf origin))
          (acted.1, acted.2.setStore k ((acted.2.store k).onBehalf (u.store k).origin)) := by
  cases hlocate : (u.store k).locate path with
  | error e =>
    refine Or.inl ⟨e, ?_⟩
    rw [change_run, hlocate]
  | ok located =>
    obtain ⟨id, name⟩ := located
    have hk := lt_size_of_locate hlocate
    have steady : (u.setStore k ((u.store k).onBehalf origin)).Steady Policy.free :=
      hu.setStore ((hu k).step (.origin _))
    have acts := acts_write steady listeners ⟨k, id⟩ (.name name) value
    have haim : (Operation.change k path value origin).aim u =
        Operation.aim.aimAt u k id (.name name) .set origin := by
      rw [Operation.aim, hlocate]
    rw [Universe.store_setStore_self hk] at acts
    refine Or.inr ⟨_, hk, acts.mono (fun s change => ?_) fun location => ?_,
      change_run_of_locate hlocate ..⟩
    · rintro ⟨location, hkey, recounts⟩
      refine .of_recounts trivial (haim.trans (Operation.aimAt_eq_some hkey)) ?_
      rw [Universe.store_setStore_self hk]
      exact recounts
    · rintro ⟨aim, haim', rfl⟩
      rw [haim] at haim'
      obtain ⟨location, hkey, rfl⟩ := Operation.keyAt_of_aimAt haim'
      exact hkey

end Store

namespace Operation

/-- Whether the operation is about who listens. -/
def Registers : Operation → Prop
  | subscribe .. | unsubscribe .. => True
  | _ => False

/-- Whether the operation puts a listener behind what it writes. -/
def Names : Operation → Prop
  | change .. => True
  | _ => False

/-- Where the report of an operation opens: at the location that it writes at. -/
def WritesAt {σ : Type} (op : Operation) (u : Universe σ) (k : StoreId) (location : Path) : Prop :=
  op.Writes u ∧ ∃ aim, op.aim u = some (k, aim) ∧ aim.location = location

theorem acts_perform (listeners : Listeners Journal) (hu : u.Steady Policy.free) {op : Operation}
    (registers : ¬ op.Registers) (names : ¬ op.Names) :
    Store.Acts listeners op.store u (fun s => op.Tells u (u.setStore op.store s))
      (op.WritesAt u op.store) (op.perform listeners) := by
  have recounted : ∀ (op : Operation) {id : CellId} {key : Key}, op.Writes u →
      op.aim u = aim.aimAt u op.store id key .set (u.store op.store).origin → ∀ s change,
      (∃ location, (u.store op.store).keyAt id key = .ok location ∧
        Store.Recounts (u.store op.store) s op.store .set location change) →
      op.Tells u (u.setStore op.store s) change := by
    rintro op id key writes haim s change ⟨location, hkey, recounts⟩
    refine .of_recounts writes (haim.trans (aimAt_eq_some hkey)) ?_
    rw [Universe.store_setStore_self (Store.lt_size_of_keyAt hkey)]
    exact recounts
  cases op with
  | load k document =>
    exact (Store.acts_loadIn hu listeners k document _).mono (fun _ _ => id) fun _ h => h.1.elim
  | tick k => exact (Store.acts_tick hu listeners k).mono (fun _ _ => id) fun _ h => h.1.elim
  | set ref key value =>
    refine (Store.acts_write hu listeners ref key value).mono
      (recounted (.set ref key value) trivial rfl) ?_
    rintro location ⟨-, aim, haim, rfl⟩
    obtain ⟨location, hkey, rfl⟩ := keyAt_of_aimAt haim
    exact hkey
  | push ref value =>
    refine (Store.acts_push hu listeners ref value).mono
      (recounted (.push ref value) trivial rfl) ?_
    rintro location ⟨-, aim, haim, rfl⟩
    obtain ⟨location, hkey, rfl⟩ := keyAt_of_aimAt haim
    exact hkey
  | delete ref key =>
    refine (Store.acts_remove hu listeners ref key).mono (fun _ _ => id) ?_
    rintro location ⟨writes, aim, haim, rfl⟩
    obtain ⟨location, hkey, rfl⟩ := keyAt_of_aimAt haim
    exact ⟨writes, hkey⟩
  | change => exact absurd trivial names
  | subscribe | unsubscribe => exact absurd trivial registers

end Operation

end LiveJson

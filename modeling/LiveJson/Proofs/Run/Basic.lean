import LiveJson.Proofs.Store.Step
import LiveJson.Store.Write

/-! # Runs

Callers work on any number of stores by the operations below, in any order, and so do listeners
while they are told of a change. What happens is written into a journal, each entry with the stores
at that moment, and what a listener does next may depend on everything that has happened. -/

namespace LiveJson

/-- A value as a reader of JSON hands it over. -/
structure Document where
  json : Json
  wellFormed : json.WellFormed

/-- The empty object. -/
def Document.empty : Document where
  json := .object []
  wellFormed := by simp [Json.WellFormed, Json.MembersWellFormed, Members.names]

/-- What a caller writes. -/
inductive Value where
  | plain (document : Document)
  | cell (ref : CellRef)

def Value.node : Value → Node
  | plain document => .plain document.json
  | cell ref => .cell ref

inductive Operation where
  | load (k : StoreId) (document : Document)
  | tick (k : StoreId)
  | set (ref : CellRef) (key : Key) (value : Value)
  | push (ref : CellRef) (value : Value)
  | delete (ref : CellRef) (key : Key)
  | change (k : StoreId) (path : String) (value : Value) (origin : Option ListenerId)
  | subscribe (k : StoreId) (query : String) (listener : ListenerId)
  | unsubscribe (k : StoreId) (query : String) (listener : ListenerId)

inductive Event where
  | began (op : Operation)
  | told (listener : ListenerId) (change : Change)
  | ended (op : Operation) (outcome : Except StoreError Unit)

structure Moment where
  event : Event
  stores : Array Store

/-- What has happened so far, latest first. -/
abbrev Journal := List Moment

def record (event : Event) : Action Journal Unit :=
  modify fun u => { u with memory := ⟨event, u.stores⟩ :: u.memory }

namespace Operation

def perform {σ : Type} (listeners : Listeners σ) : Operation → Action σ Unit
  | load k document => Store.loadIn k document.json
  | tick k => Store.tick listeners k
  | set ref key value => Store.write listeners ref key value.node
  | push ref value => Store.push listeners ref value.node
  | delete ref key => Store.remove listeners ref key
  | change k path value origin => Store.change listeners k path value.node origin
  | subscribe k query listener => Store.subscribeIn k query listener
  | unsubscribe k query listener => Store.unsubscribeIn k query listener

/-- Performs the operation and records when it began and how it ended. -/
def run (listeners : Listeners Journal) (op : Operation) : Action Journal Unit := do
  record (.began op)
  let outcome ← Action.attempt (op.perform listeners)
  record (.ended op outcome)

/-- The cell and the key that an operation is to write at, and what it is to write there. -/
def written (stores : Array Store) : Operation → Option (CellRef × Key × Value)
  | set ref key value => some (ref, key, value)
  | push ref value => some (ref, .index ((stores[ref.store]?.getD {}).length ref.cell), value)
  | change k path value _ =>
    match (stores[k]?.getD {}).locate path with
    | .ok (id, key) => some (⟨k, id⟩, .name key, value)
    | .error _ => none
  | _ => none

/-- Whether the policy allows the operation to move the cell that it is to write, if it is to write
a cell of the same document. -/
def Allowed (A : Store.Policy) (stores : Array Store) (op : Operation) : Prop :=
  ∀ ref key {x p location}, op.written stores = some (ref, key, .cell ⟨ref.store, x⟩) →
    (stores[ref.store]?.getD {}).place? x = some p →
    (stores[ref.store]?.getD {}).keyAt ref.cell key = .ok location → A p location

/-- The same, where each store has a policy of its own. -/
def AllowedBy (A : StoreId → Store.Policy) (stores : Array Store) (op : Operation) : Prop :=
  ∀ ref key {x p location}, op.written stores = some (ref, key, .cell ⟨ref.store, x⟩) →
    (stores[ref.store]?.getD {}).place? x = some p →
    (stores[ref.store]?.getD {}).keyAt ref.cell key = .ok location → A ref.store p location

end Operation

/-- What a listener does when it is told of a change: it looks at what has become of the stores and
takes its next step, until it is done or fails. -/
inductive Client where
  | done
  | fail (error : StoreError)
  | look (next : Universe Journal → Client)
  | take (op : Operation) (next : Client)

namespace Client

def run (listeners : Listeners Journal) : Client → Action Journal Unit
  | done => pure ()
  | fail error => throw error
  | look next => do run listeners (next (← get))
  | take op next => do
    op.run listeners
    run listeners next
termination_by structural client => client

/-- Listeners that react to what they are told. Changes made in a reaction are told to the listeners
in turn, up to the given depth; those told deeper only take note. -/
def reacting (react : ListenerId → Change → Client) (reach : Nat) : Nat → Listeners Journal
  | 0 => { tell := fun id change => record (.told id change), reach }
  | depth + 1 =>
    { tell := fun id change => do
        record (.told id change)
        (react id change).run (reacting react reach depth)
      reach }

end Client

/-- Listeners that only record. -/
def recording (reach : Nat) : Listeners Journal := Client.reacting (fun _ _ => .done) reach 0

/-- `count` empty stores and nothing that has happened yet. -/
def Universe.start (count : Nat) : Universe Journal :=
  { stores := Array.replicate count {}, memory := [] }

/-- What is reached by operations one after the other. -/
inductive Universe.Reached (listeners : Listeners Journal) : Universe Journal → Prop
  | start (count : Nat) : Reached listeners (.start count)
  | next {u : Universe Journal} (h : Reached listeners u) (op : Operation) :
      Reached listeners ((op.run listeners).run u).2

/-- What operations one after the other come to. -/
def Universe.after (listeners : Listeners Journal) (u : Universe Journal) (ops : List Operation) :
    Universe Journal := ops.foldl (fun u op => ((op.run listeners).run u).2) u

/-- The stores of a moment, seen from outside. -/
def Universe.seen (stores : Array Store) : Universe Unit := { stores, memory := () }

/-- The stores as they are, or as they were at a recorded moment. -/
def Universe.Passed (u : Universe Journal) (stores : Array Store) : Prop :=
  stores = u.stores ∨ ∃ moment ∈ u.memory, moment.stores = stores

/-- Every operation that has begun was allowed. -/
def Journal.Complies (A : Store.Policy) (journal : Journal) : Prop :=
  ∀ moment ∈ journal, ∀ op, moment.event = .began op → op.Allowed A moment.stores

/-- Every operation that has begun was allowed by the policy of the store that it works on. -/
def Journal.CompliesBy (A : StoreId → Store.Policy) (journal : Journal) : Prop :=
  ∀ moment ∈ journal, ∀ op, moment.event = .began op → op.AllowedBy A moment.stores

/-- The policy for one store, while the others are free. -/
def Store.Policy.onlyIn (A : Store.Policy) (k : StoreId) : StoreId → Store.Policy :=
  fun j source location => j = k → A source location

theorem Journal.complies_cons {A : Store.Policy} {moment : Moment} {journal : Journal} :
    Journal.Complies A (moment :: journal) ↔
      (∀ op, moment.event = .began op → op.Allowed A moment.stores) ∧ Journal.Complies A journal :=
  List.forall_mem_cons

end LiveJson

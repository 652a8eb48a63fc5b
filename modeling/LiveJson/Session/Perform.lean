import LiveJson.Session.Reply

/-! The acts of a session, one by one. -/

namespace LiveJson.Session

def updateMemory (f : Memory → Memory) : Play Unit :=
  modify fun u => { u with memory := f u.memory }

/-- The store that goes by the name, which is made when it is first asked for. -/
def modelOf (name : String) : Play StoreId := do
  let u ← get
  match Members.get? name u.memory.models with
  | some k => return k
  | none =>
    let (k, u) := u.addStore
    set { u with memory := { u.memory with models := Members.insert name k u.memory.models } }
    return k

/-- A new listener, which takes its name over from any other. -/
def addListener (listener : Listener) : Play ListenerId := do
  let u ← get
  let id := u.memory.listeners.size
  updateMemory fun m =>
    { m with
      listeners := m.listeners.push listener
      listenerNames := Members.insert listener.name id m.listenerNames }
  return id

/-- The listener of that name; one that is not known yet only records. -/
def listenerOf (name : String) : Play ListenerId := do
  match Members.get? name (← get).memory.listenerNames with
  | some id => return id
  | none => addListener { name }

/-- Stores a node under a name, if there is a node. -/
def keep (name : Option String) (node : Option Node) : Play Unit :=
  match name, node with
  | some name, some node =>
    updateMemory fun m => { m with nodes := Members.insert name node m.nodes }
  | _, _ => pure ()

def viewOf (node : Option Node) : Play Reply := do
  let u ← get
  return .node (node.map (view u))

/-- The stored cell of that name, or the root of the model. -/
def targetOf (k : StoreId) : Option String → Play (Option CellRef)
  | none => do
    let store ← Action.getStore k
    return store.root.map fun id => ⟨k, id⟩
  | some name => do
    match Members.get? name (← get).memory.nodes with
    | some (.cell ref) => return some ref
    | _ => return none

/-- What is to be written, unless it is a stored node that is not there. -/
def writtenOf : Written → Play (Option Node)
  | .value v => return some (.plain v)
  | .stored name => return Members.get? name (← get).memory.nodes

def withTarget (k : StoreId) (on : Option String) (act : CellRef → Play Reply) : Play Reply := do
  match ← targetOf k on with
  | some ref => act ref
  | none => return .missing .cell

def withNode (name : String) (act : Node → Play Reply) : Play Reply := do
  match Members.get? name (← get).memory.nodes with
  | some node => act node
  | none => return .missing .node

def withWritten (value : Written) (act : Node → Play Unit) : Play Reply := do
  match ← writtenOf value with
  | some node =>
    act node
    return .done
  | none => return .missing .node

/-- The path of a node in a given store. -/
def pathIn (u : Scene) (k : StoreId) : Node → Option Path
  | .plain _ => none
  | .cell ref => if ref.store = k then (u.store k).place? ref.cell else none

def infoOf (u : Scene) (k : StoreId) (ref : CellRef) : Info :=
  let s := u.store ref.store
  { id := ref.cell
    isArray := s.isArray ref.cell
    length := s.length ref.cell
    children := (s.entries ref.cell).map fun (key, slot) => (key, viewSlot u ref.store slot)
    value := s.toJson (.cell ref.cell)
    path := u.place? ref
    modelPath := pathIn u k (.cell ref)
    atZero := (s.get? ref.cell (.index 0)).map (viewSlot u ref.store) }

def setFlight (id : String) (flight : Flight) : Play Unit :=
  updateMemory fun m => { m with flights := Members.insert id flight m.flights }

def recordRequest (request : Request) : Play Unit :=
  updateMemory fun m => { m with requests := m.requests ++ [request] }

/-- Gives up a load that is still under way. -/
def release : Option Flight → Play Unit
  | some (.started k _) | some (.pending k) => Store.giveUpIn k
  | _ => pure ()

/-- A load that takes the place of another is begun before the other is given up. -/
def beginLoad (k : StoreId) (id : String) (location : Except StoreError Location)
    (method : Option String) (poll : Bool) : Play Reply := do
  let outcome ← Action.attempt (Store.takeOffIn k location method)
  release (Members.get? id (← get).memory.flights)
  match outcome, poll with
  | .ok request, true =>
    setFlight id (.pending k)
    recordRequest request
    return .begun true
  | .ok request, false =>
    setFlight id (.started k request)
    return .begun false
  | .error e, true =>
    setFlight id .over
    throw e
  | .error e, false =>
    setFlight id (.rejected e)
    return .begun false

/-- The source of a load answers, and the load is over. -/
def finishLoad (id : String) (answer : Except StoreError Json) : Play Reply := do
  match Members.get? id (← get).memory.flights with
  | some (.rejected e) =>
    setFlight id .over
    throw e
  | some (.started k request) =>
    setFlight id .over
    recordRequest request
    Store.land k answer
    return .loaded
  | some (.pending k) =>
    setFlight id .over
    Store.land k answer
    return .loaded
  | _ => return .missing (.load id)

def dropLoad (id : String) : Play Reply := do
  let flight := Members.get? id (← get).memory.flights
  release flight
  updateMemory fun m => { m with flights := Members.erase id m.flights }
  return .flag flight.isSome

/-- Makes the store go by the name of the model. -/
def nameModel (model : String) (k : StoreId) : Play Unit :=
  updateMemory fun m => { m with models := Members.insert model k m.models }

/-- The shared store of that name, which is made if it is not there. -/
def sharedStore (name : String) : Play StoreId := do
  let u ← get
  match Members.get? name u.memory.named with
  | some k => return k
  | none =>
    let (k, u) := u.addStore
    set { u with memory := { u.memory with named := Members.insert name k u.memory.named } }
    return k

def query (k : StoreId) (on : Option String) (detached : Option Json) (plan : Option QueryPlan)
    (callback : Bool) : Play Reply := do
  match plan with
  | none => return .badOptions
  | some plan =>
    let perform := fun t : Tree CellId =>
      Reply.queried plan.options.resultType (plan.perform (fun _ v => .leaf v) (some t)) callback
    match detached with
    | some v => return perform (.leaf v)
    | none =>
      withTarget k on fun ref => do
        let store ← Action.getStore ref.store
        return perform (store.tree (.cell ref.cell))

/-- One act on the model of the given name. -/
def perform [UrlReader] (listeners : Listeners Memory) (model : String) : Act → Play Reply
  | .load document => do
    let k ← modelOf model
    Store.loadIn k document
    return .done
  | .tick => do
    let k ← modelOf model
    Store.tick listeners k
    return .done
  | .state => do
    let store ← Action.getStore (← modelOf model)
    return .state store.root.isSome store.reloadDue store.loading
  | .root name => do
    let k ← modelOf model
    let store ← Action.getStore k
    let node := store.root.map fun id => Node.cell ⟨k, id⟩
    keep name node
    viewOf node
  | .select path origin name => do
    let k ← modelOf model
    let store ← Action.getStore k
    let found ← Action.ofPath (store.select path origin)
    let node := found.map (Node.ofTree k)
    keep name node
    viewOf node
  | .selectAll path origin => do
    let k ← modelOf model
    let store ← Action.getStore k
    let found ← Action.ofPath (store.selectAll path origin)
    let u ← get
    return .nodes (found.map fun t => view u (Node.ofTree k t))
  | .listener name script temper => do
    let _ ← addListener { name, script, temper }
    return .done
  | .subscribe path listener => do
    Store.subscribeIn (← modelOf model) path (← listenerOf listener)
    return .done
  | .unsubscribe path listener => do
    Store.unsubscribeIn (← modelOf model) path (← listenerOf listener)
    return .done
  | .change path value origin => do
    let k ← modelOf model
    let origin ← origin.mapM listenerOf
    withWritten value fun node => Store.change listeners k path node origin
  | .set on key value => do
    let k ← modelOf model
    withTarget k on fun ref => withWritten value fun node => Store.write listeners ref key node
  | .delete on key => do
    let k ← modelOf model
    withTarget k on fun ref => do
      Store.remove listeners ref key
      return .done
  | .push on value => do
    let k ← modelOf model
    withTarget k on fun ref => withWritten value fun node => Store.push listeners ref node
  | .member on key name => do
    let k ← modelOf model
    withTarget k on fun ref => do
      let store ← Action.getStore ref.store
      let node := (store.get? ref.cell key).map (Node.ofSlot ref.store)
      keep name node
      viewOf node
  | .info on => do
    let k ← modelOf model
    withTarget k on fun ref => do
      return .info (infoOf (← get) k ref)
  | .pathOf name => do
    let k ← modelOf model
    withNode name fun node => do
      return .path (pathIn (← get) k node)
  | .contains on name => do
    let k ← modelOf model
    withTarget k on fun ref => withTarget k (some name) fun other => do
      let store ← Action.getStore ref.store
      return .flag (ref.store = other.store && store.contains ref.cell other.cell)
  | .same a b =>
    withNode a fun x => withNode b fun y => return .flag (x.same y)
  | .query on detached plan callback => do
    let k ← modelOf model
    query k on detached plan callback
  | .loadFrom location method documents => do
    let k ← modelOf model
    let request ← Store.takeOffIn k (Location.parse location) method
    Store.land k (Store.answer documents request)
    return .done
  | .beginLoad id location method poll => do
    let k ← modelOf model
    beginLoad k id (Location.parse location) method poll
  | .endLoad id answer => finishLoad id answer
  | .dropLoad id => dropLoad id
  | .requests => do
    let made := (← get).memory.requests
    updateMemory fun m => { m with requests := [] }
    return .requests made
  | .namedCreate name => do
    let k ← sharedStore name
    nameModel model k
    return .document (rootOf (← get) k)
  | .namedGet name => do
    match Members.get? name (← get).memory.named with
    | some k =>
      nameModel model k
      return .document (rootOf (← get) k)
    | none => return .noStore
  | .namedRemove name => do
    let found := Members.get? name (← get).memory.named
    updateMemory fun m => { m with named := Members.erase name m.named }
    return .flag found.isSome
  | .namedNames => do
    let names := Members.names (← get).memory.named
    return .names (names.mergeSort fun a b => a ≤ b)
  | .namedClear => do
    updateMemory fun m => { m with named := [] }
    return .done
  | .bindingModel declaration => do
    let binding ← Action.ofPath (Binding.parse declaration)
    let k ← sharedStore binding.model
    nameModel model k
    return .binding binding (rootOf (← get) k)
  | .dropModel => do
    let found := Members.get? model (← get).memory.models
    updateMemory fun m => { m with models := Members.erase model m.models }
    return .flag found.isSome

end LiveJson.Session

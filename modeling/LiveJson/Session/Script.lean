import LiveJson.Session.Perform

/-! Steps taken one after the other, with listeners that take steps of their own while they are told
of a change. -/

namespace LiveJson.Session

variable [UrlReader]

def record (entry : LogEntry) : Play Unit :=
  updateMemory fun m => { m with log := m.log ++ [entry] }

/-- Counts a call of a listener and gives the listener as it is then. -/
def called (id : ListenerId) : Play Listener := do
  let listener := (← get).memory.listeners[id]?.getD default
  let listener := { listener with calls := listener.calls + 1 }
  updateMemory fun m => { m with listeners := m.listeners.modify id fun _ => listener }
  return listener

/-- Takes the steps of a script; a strict one ends with the first that fails. -/
def playSteps (listeners : Listeners Memory) (name : String) (strict : Bool) :
    List Step → Play Unit
  | [] => pure ()
  | (model, act) :: steps => do
    let outcome ← Action.attempt (perform listeners model act)
    record (.stepped name outcome)
    match strict, outcome with
    | true, .error e => throw e
    | _, _ => playSteps listeners name strict steps

/-- Whether a call of a listener ends with its own failure. -/
def failure? (listener : Listener) (op : Op) : Option String :=
  let temper := listener.temper
  if temper.failAfter < listener.calls && temper.failOp.all (· == op) then temper.fail else none

/-- Takes note of a call of a listener. -/
def hear (id : ListenerId) (change : Change) : Play Listener := do
  let listener ← called id
  let u ← get
  record (.told listener.name change.op change.path (change.old.map (view u))
    (change.new.map (view u)))
  return listener

def endCall (listener : Listener) (op : Op) : Play Unit :=
  match failure? listener op with
  | some text => throw (.listener text)
  | none => pure ()

/-- How a listener takes a change, with scripts nested at most `depth` deep. -/
def tell (reach : Nat) : Nat → ListenerId → Change → Play Unit
  | 0, id, change => do
    let listener ← hear id change
    endCall listener change.op
  | depth + 1, id, change => do
    let listener ← hear id change
    match listener.script with
    | some steps =>
      if listener.calls ≤ listener.temper.times then
        playSteps { tell := tell reach depth, reach } listener.name listener.temper.strict steps
    | none => pure ()
    endCall listener change.op

/-- A step with how it ended, what the listeners did meanwhile, and the document of its model
afterwards if the step is one that can change it. -/
structure StepReport where
  outcome : Except StoreError Reply
  log : List LogEntry
  document : Option (Option Json)

def changesDocument : Act → Bool
  | .load _ | .tick | .change .. | .set .. | .delete .. | .push .. | .loadFrom ..
  | .endLoad .. => true
  | _ => false

def isHeld (m : Memory) (k : StoreId) : Bool :=
  (m.models.any fun e => e.2 = k) || (m.named.any fun e => e.2 = k) ||
    m.flights.any fun e =>
      match e.2 with
      | .started j _ | .pending j => j = k
      | .rejected _ | .over => false

/-- Stores that nobody holds any more are gone. -/
def sweep (u : Scene) : Scene :=
  let stores := u.stores.mapIdx fun k s => { s with alive := s.alive && isHeld u.memory k }
  { u with stores }

def takeStep (listeners : Listeners Memory) (u : Scene) (step : Step) : StepReport × Scene :=
  let (model, act) := step
  let u := { u with memory := { u.memory with log := [] } }
  let (outcome, u) := (perform listeners model act).run u
  let document :=
    if changesDocument act then
      some ((Members.get? model u.memory.models).bind (rootOf u))
    else none
  ({ outcome, log := u.memory.log, document }, sweep u)

def takeAll (listeners : Listeners Memory) (u : Scene) : List Step → List StepReport
  | [] => []
  | step :: steps =>
    let (report, u) := takeStep listeners u step
    report :: takeAll listeners u steps

end LiveJson.Session

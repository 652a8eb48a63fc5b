import LiveJson.Query.Plan
import LiveJson.Store.Edit

/-! Scripted sessions: the steps that can be taken with several live documents, and the scripts of
listeners, which are made of the same steps. -/

namespace LiveJson.Session

/-- What a step writes: a value, or the node that an earlier step stored under a name. -/
inductive Written where
  | value (value : Json)
  | stored (name : String)

/-- The parts of a listener's script other than its steps. -/
structure Temper where
  /-- How often the steps are taken at most. -/
  times : Nat := 1
  /-- Whether the first step that fails ends the script with its error. -/
  strict : Bool := false
  fail : Option String := none
  failAfter : Nat := 0
  failOp : Option Op := none

/-- `on` names the stored cell that a step works on, in place of the root of the model. -/
inductive Act where
  | load (document : Json)
  | tick
  | state
  | root (store : Option String)
  | select (path : String) (origin : Option String) (store : Option String)
  | selectAll (path : String) (origin : Option String)
  | listener (name : String) (script : Option (List (String × Act))) (temper : Temper)
  | subscribe (path listener : String)
  | unsubscribe (path listener : String)
  | change (path : String) (value : Written) (origin : Option String)
  | set (on : Option String) (key : Key) (value : Written)
  | delete (on : Option String) (key : Key)
  | push (on : Option String) (value : Written)
  | member (on : Option String) (key : Key) (store : Option String)
  | info (on : Option String)
  | pathOf (node : String)
  | contains (on : Option String) (node : String)
  | same (a b : String)
  /-- A plan without options is one whose options cannot be read. -/
  | query (on : Option String) (detached : Option Json) (plan : Option QueryPlan)
    (callback : Bool)
  | loadFrom (location : String) (method : Option String) (documents : List (String × Json))
  | beginLoad (id location : String) (method : Option String) (poll : Bool)
  | endLoad (id : String) (answer : Except StoreError Json)
  | dropLoad (id : String)
  | requests
  | namedCreate (name : String)
  | namedGet (name : String)
  | namedRemove (name : String)
  | namedNames
  | namedClear
  | bindingModel (declaration : String)
  | dropModel

/-- An act and the name of the model that it works on. -/
abbrev Step := String × Act

/-- Ends a load with a document, or with a message of its source. -/
def Act.finishLoad (id : String) (answer : Except String Json) : Act :=
  .endLoad id (answer.mapError .load)

mutual

/-- How often the scripts of the listeners that an act brings in can run at most. -/
def Act.runs : Act → Nat
  | .listener _ (some script) temper => temper.times * (1 + runsOfAll script)
  | _ => 0
termination_by structural act => act

def runsOfAll : List Step → Nat
  | [] => 0
  | (_, act) :: rest => act.runs + runsOfAll rest
termination_by structural steps => steps

end

end LiveJson.Session

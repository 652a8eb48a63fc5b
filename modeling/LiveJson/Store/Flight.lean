import LiveJson.Store.Location
import LiveJson.Store.Write

/-! Fetching a document from elsewhere. A store has at most one fetch under way; the fetch ends
when the source answers or when it is given up, and an answer is loaded like any other document.
-/

namespace LiveJson

structure Request where
  location : Location
  method : String
deriving DecidableEq, Repr

namespace Store

variable {σ : Type}

/-- Begins a fetch, unless the location was refused or another fetch is under way. -/
def takeOff (store : Store) (location : Except StoreError Location) (method : Option String) :
    Except StoreError (Request × Store) := do
  let location ← location
  if store.loading then .error .busy
  else
    return ({ location, method := (method.getD "GET").map Char.toUpper },
      { store with loading := true })

def takeOffIn (k : StoreId) (location : Except StoreError Location) (method : Option String) :
    Action σ Request := do
  let store ← Action.getStore k
  match store.takeOff location method with
  | .error e => throw e
  | .ok (request, store) =>
    Action.setStore k store
    return request

/-- Ends the fetch that is under way. -/
def giveUpIn (k : StoreId) : Action σ Unit := do
  let store ← Action.getStore k
  Action.setStore k { store with loading := false }

/-- Ends the fetch with the answer of the source. -/
def land (k : StoreId) (answer : Except StoreError Json) : Action σ Unit := do
  giveUpIn k
  match answer with
  | .ok document => loadIn k document
  | .error e => throw e

/-- The answer of a source that holds documents by the text of their locations. -/
def answer (documents : List (String × Json)) (request : Request) : Except StoreError Json :=
  match Members.get? request.location.toText documents with
  | some document => .ok document
  | none => .error (.load ("404 " ++ request.location.toText ++ " not found"))

end Store

end LiveJson

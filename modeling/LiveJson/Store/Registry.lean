import LiveJson.Members

/-! Subscriptions. A listener is registered under the canonical text of a location, and under each
location at most once; what its query could not be resolved to waits among the pending ones. -/

namespace LiveJson

/-- Listeners are known by number. -/
abbrev ListenerId := Nat

structure Subscription where
  listener : ListenerId
  query : String
deriving DecidableEq, Repr

structure Registry where
  registered : List (String × List Subscription) := []
  pending : List Subscription := []
deriving DecidableEq, Repr

namespace Registry

def listenersAt (registry : Registry) (path : String) : List ListenerId :=
  ((Members.get? path registry.registered).getD []).map (·.listener)

def isListened (registry : Registry) (path : String) : Bool :=
  (Members.get? path registry.registered).isSome

def paths (registry : Registry) : List String := Members.names registry.registered

/-- A listener that is registered at the path already stays where it is. -/
def add (registry : Registry) (path : String) (subscription : Subscription) : Registry :=
  let here := (Members.get? path registry.registered).getD []
  if here.any fun s => s.listener = subscription.listener then registry
  else
    { registry with
      registered := Members.insert path (here ++ [subscription]) registry.registered }

/-- A path goes with its last listener. -/
def remove (registry : Registry) (path : String) (listener : ListenerId) : Registry :=
  match Members.get? path registry.registered with
  | none => registry
  | some here =>
    let kept := here.filter fun s => s.listener ≠ listener
    { registry with
      registered :=
        if kept.isEmpty then Members.erase path registry.registered
        else Members.insert path kept registry.registered }

def addPending (registry : Registry) (subscription : Subscription) : Registry :=
  if subscription ∈ registry.pending then registry
  else { registry with pending := registry.pending ++ [subscription] }

def removePending (registry : Registry) (subscription : Subscription) : Registry :=
  { registry with pending := registry.pending.filter (· ≠ subscription) }

end Registry

end LiveJson

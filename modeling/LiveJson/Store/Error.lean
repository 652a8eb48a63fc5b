import LiveJson.PathError

/-! What can go wrong with a live document. -/

namespace LiveJson

/-- Why a path names no place that can be written. -/
inductive Unresolved where
  | noKeyAtEnd
  | nothingLoaded
  | noContainer
  | noMember
deriving DecidableEq, Repr

def Unresolved.reason : Unresolved → String
  | noKeyAtEnd => "path does not end with a name or index"
  | nothingLoaded => "nothing loaded"
  | noContainer => "could not find the parent of"
  | noMember => "path does not resolve"

inductive StoreError where
  | path (error : PathError)
  | unresolved (path : String) (why : Unresolved)
  | invalidDocument
  | invalidSource (location : String)
  | busy
  | load (message : String)
  | detached
  | cycle (path : String)
  | invalidKey (key : String)
  | listener (message : String)
deriving DecidableEq, Repr

def StoreError.message : StoreError → String
  | path e => e.message
  | unresolved text why => "model#change failed: " ++ why.reason ++ " '" ++ text ++ "'"
  | invalidDocument => "model#load failed: the document root must be an object or an array"
  | invalidSource location =>
    "model#loadFrom failed: Please pass a valid URL, instead of " ++ location
  | busy => "model#loadFrom failed: We're already attempting to load data. Please hold."
  | load text => "model#loadFrom failed: " ++ text
  | detached => "node is no longer attached to its model"
  | cycle text => "cannot attach a node inside its own subtree at '" ++ text ++ "'"
  | invalidKey key => "'" ++ key ++ "' is not a valid array index"
  | listener text => "listener error: " ++ text

end LiveJson

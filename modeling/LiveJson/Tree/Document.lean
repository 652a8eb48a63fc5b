import LiveJson.Tree.Basic

/-! Plain documents as trees: each array and object is labelled by its document and its location in
it, and no two of them have the same label. -/

namespace LiveJson

structure Spot where
  document : Nat
  path : Path
deriving DecidableEq, Repr, Inhabited

namespace Tree

mutual

/-- The tree of a value that stands at `path` of document number `document`. -/
def ofJson (document : Nat) (path : Path) : Json → Tree Spot
  | .array items => array ⟨document, path⟩ (ofItems document path 0 items)
  | .object members => object ⟨document, path⟩ (ofMembers document path members)
  | .null => leaf .null
  | .bool b => leaf (.bool b)
  | .number n => leaf (.number n)
  | .string s => leaf (.string s)
termination_by structural v => v

def ofItems (document : Nat) (path : Path) (start : Nat) : List Json → List (Tree Spot)
  | [] => []
  | v :: vs =>
    ofJson document (path ++ [.index start]) v :: ofItems document path (start + 1) vs
termination_by structural vs => vs

def ofMembers (document : Nat) (path : Path) :
    List (String × Json) → List (String × Tree Spot)
  | [] => []
  | (name, v) :: rest =>
    (name, ofJson document (path ++ [.name name]) v) :: ofMembers document path rest
termination_by structural ms => ms

end

mutual

theorem toJson_ofJson (document : Nat) (path : Path) :
    ∀ v : Json, (ofJson document path v).toJson = v
  | .array items => by simp [ofJson, toJson, itemsToJson_ofItems document path 0 items]
  | .object members => by simp [ofJson, toJson, membersToJson_ofMembers document path members]
  | .null => rfl
  | .bool _ => rfl
  | .number _ => rfl
  | .string _ => rfl

theorem itemsToJson_ofItems (document : Nat) (path : Path) (start : Nat) :
    ∀ vs : List Json, itemsToJson (ofItems document path start vs) = vs
  | [] => rfl
  | v :: vs => by
    simp [ofItems, itemsToJson, toJson_ofJson document _ v,
      itemsToJson_ofItems document path (start + 1) vs]

theorem membersToJson_ofMembers (document : Nat) (path : Path) :
    ∀ ms : List (String × Json), membersToJson (ofMembers document path ms) = ms
  | [] => rfl
  | (_, v) :: rest => by
    simp [ofMembers, membersToJson, toJson_ofJson document _ v,
      membersToJson_ofMembers document path rest]

end

end Tree

end LiveJson

import LiveJson.Path.Basic
import LiveJson.Proofs.Members

/-! # Editing a plain value

What it means to write or remove at a key of an array or object, and to do so at a path within a
value. An array takes a key by the position that it spells, an object by its name. -/

namespace LiveJson.Json

def member (k : Key) : Json → Option Json
  | array items => k.asIndex.bind fun i => items[i]?
  | object members => Members.get? k.toName members
  | _ => none

/-- The value at a path. -/
def follow (p : Path) (v : Json) : Option Json := p.foldlM (fun v k => v.member k) v

/-- Writing at a key: a known name keeps its place and a new one goes to the end; the position just
behind the last element appends, and there is nothing to write at further behind. -/
def put (k : Key) (w : Json) : Json → Json
  | array items =>
    match k.asIndex with
    | some i =>
      if i < items.length then array (items.set i w)
      else if i = items.length then array (items ++ [w])
      else array items
    | none => array items
  | object members => object (Members.insert k.toName w members)
  | v => v

/-- Appending to an array. -/
def push (w : Json) : Json → Json
  | array items => array (items ++ [w])
  | v => v

/-- Removing a key: the other members keep their order, and later elements move up. -/
def drop (k : Key) : Json → Json
  | array items =>
    match k.asIndex with
    | some i => array (items.eraseIdx i)
    | none => array items
  | object members => object (Members.erase k.toName members)
  | v => v

/-- Changes the value at a path and leaves the rest as it is. -/
def edit (f : Json → Json) : Path → Json → Json
  | [], v => f v
  | k :: p, v =>
    match v.member k with
    | some w => put k (edit f p w) v
    | none => v

theorem follow_append (p q : Path) (v : Json) :
    v.follow (p ++ q) = (v.follow p).bind (follow q) := by
  unfold follow
  rw [List.foldlM_append]
  rfl

theorem follow_concat (p : Path) (k : Key) (v : Json) :
    v.follow (p ++ [k]) = (v.follow p).bind (member k) := by
  rw [follow_append]
  congr 1
  funext w
  simp [follow]

/-- Only the value at the path counts for how it is changed. -/
theorem edit_congr {f g : Json → Json} :
    ∀ {p : Path} {v w : Json}, v.follow p = some w → f w = g w → edit f p v = edit g p v
  | [], v, w, hv, h => by
    cases hv
    exact h
  | k :: p, v, w, hv, h => by
    unfold follow at hv
    rw [List.foldlM_cons] at hv
    obtain ⟨x, hx, hv⟩ := Option.bind_eq_some_iff.mp hv
    rw [edit, edit, hx]
    dsimp only
    rw [edit_congr hv h]

theorem put_length (items : List Json) (w : Json) :
    put (.index items.length) w (array items) = push w (array items) := by
  simp only [put, push, Key.asIndex_index, Nat.lt_irrefl, if_false, if_true]

theorem drop_of_member_none {k : Key} {v : Json} (h : v.member k = none) : v.drop k = v := by
  cases v with
  | array items =>
    cases hk : k.asIndex with
    | none => simp only [drop, hk]
    | some i =>
      simp only [member, hk, Option.bind_some, List.getElem?_eq_none_iff] at h
      simp only [drop, hk, List.eraseIdx_of_length_le h]
  | object members => exact congrArg object (Members.erase_of_get?_none h)
  | _ => rfl

end LiveJson.Json

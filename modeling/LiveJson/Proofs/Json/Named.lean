import LiveJson.Proofs.Json.Edit
import LiveJson.Proofs.Path.Read

/-! # Editing by names

The text of a canonical path has the names of its keys, and not whether a key is a position or the
name of a member. Whoever has the value that the path leads through can tell: what is looked up in
an array is a position. So a change of the value at a path can be made from the text alone. -/

namespace LiveJson

theorem Decimal.ofDigits_toDigits (n : Nat) : ofDigits (Nat.toDigits 10 n) = n :=
  Nat.ofDigitChars_ten_toDigits

/-- The digits of a number are read as a number. -/
theorem Decimal.all_isDigit_toDigits (n : Nat) :
    (!(Nat.toDigits 10 n).isEmpty && (Nat.toDigits 10 n).all isDigit) = true := by
  have hdigits : ∀ c ∈ Nat.toDigits 10 n, isDigit c = true := fun c hc =>
    (Key.isDigit_eq c).trans (Nat.isDigit_of_mem_toDigits (by decide) (by decide) hc)
  rw [List.isEmpty_eq_false_iff.mpr Nat.toDigits_ne_nil, List.all_eq_true.mpr hdigits]
  rfl

/-- The names of the keys of a path in writing, and none if it cannot be read. -/
def Path.names (text : String) : List String :=
  match Segment.read text with
  | .ok [.root] => []
  | .ok segments => segments.map Segment.keyName
  | .error _ => []

theorem Path.names_toText (p : Path) : names p.toText = p.map Key.toName := by
  have hkeys : (p.map Key.segment).map Segment.keyName = p.map Key.toName := by
    rw [List.map_map]
    exact List.map_congr_left fun key _ => key.keyName_segment
  by_cases hp : p = []
  · rw [hp, names, Segment.read_root]
    rfl
  · rw [names, Segment.read_toText hp, ← hkeys]
    split
    · next h =>
      obtain ⟨key, -, hkey⟩ := List.mem_map.mp (Except.ok.inj h ▸ List.mem_singleton_self Segment.root)
      exact (key.segment_ne_root hkey).elim
    · next h => rw [Except.ok.inj h]
    · next h => cases h

namespace Json

variable {v w : Json} {k : Key} {p q : Path} {f : Key → Json → Json}

/-- The key that a name stands for: in an array the position that it spells. -/
def keyNamed (name : String) : Json → Key
  | array _ =>
    let cs := name.toList
    if !cs.isEmpty && cs.all Decimal.isDigit then .index (Decimal.ofDigits cs) else .name name
  | _ => .name name

/-- Makes an edit at the key that the last name stands for, where the others lead. -/
def editAt (f : Key → Json → Json) : List String → Json → Json
  | [], v => v
  | [name], v => f (v.keyNamed name) v
  | name :: names, v =>
    match v.member (v.keyNamed name) with
    | some w => put (v.keyNamed name) (editAt f names w) v
    | none => v

/-- Whether a key has the form of the keys of the value. -/
def Takes : Json → Key → Prop
  | array _, .index _ => True
  | object _, .name _ => True
  | _, _ => False

/-- Each key of the path has the form of the keys of the value that it is looked up in. -/
def Spells : Json → Path → Prop
  | _, [] => True
  | v, k :: p => v.Takes k ∧ ∀ w, v.member k = some w → w.Spells p

theorem keyNamed_toName (h : v.Takes k) : v.keyNamed k.toName = k := by
  cases v with
  | array items =>
    cases k with
    | name n => exact h.elim
    | index i =>
      simp only [keyNamed, Key.toName_index_toList, if_pos (Decimal.all_isDigit_toDigits i),
        Decimal.ofDigits_toDigits]
  | object members =>
    cases k with
    | name n => rfl
    | index i => exact h.elim
  | _ => exact h.elim

theorem spells_append : v.Spells (p ++ q) ↔
    v.Spells p ∧ ∀ w, v.follow p = some w → w.Spells q := by
  induction p generalizing v with
  | nil =>
    refine ⟨fun h => ⟨trivial, fun w hw => ?_⟩, fun h => h.2 v rfl⟩
    cases hw
    exact h
  | cons k p ih =>
    simp only [List.cons_append, Spells, follow, List.foldlM_cons, Option.bind_eq_bind,
      Option.bind_eq_some_iff]
    constructor
    · intro h
      refine ⟨⟨h.1, fun w hw => (ih.mp (h.2 w hw)).1⟩, ?_⟩
      intro x hx
      obtain ⟨w, hw, hx⟩ := hx
      exact (ih.mp (h.2 w hw)).2 x hx
    · intro h
      exact ⟨h.1.1, fun w hw => ih.mpr ⟨h.1.2 w hw, fun x hx => h.2 x ⟨w, hw, hx⟩⟩⟩

/-- Where the keys have the form of those of the values, their names are enough for an edit. -/
theorem editAt_toName (h : v.Spells (p ++ [k])) :
    v.editAt f ((p ++ [k]).map Key.toName) = edit (f k) p v := by
  induction p generalizing v with
  | nil =>
    show f (v.keyNamed k.toName) v = f k v
    rw [keyNamed_toName h.1]
  | cons j p ih =>
    obtain ⟨n, names, hnames⟩ : ∃ n names, (p ++ [k]).map Key.toName = n :: names :=
      List.exists_cons_of_ne_nil (by simp)
    rw [List.cons_append, List.map_cons, hnames, editAt, ← hnames, keyNamed_toName h.1, edit]
    · cases hmember : v.member j with
      | none => rfl
      | some w =>
        dsimp only
        rw [ih (h.2 w hmember)]
    · exact fun h => List.cons_ne_nil n names h

end Json

end LiveJson

import LiveJson.Path.Basic
import LiveJson.Proofs.Match.Located

/-! # What a pointer leads to

A JSON pointer is cut at its slashes. In each piece `~1` stands for a slash and `~0` for a tilde,
and they have to be resolved in this order: the other way round `~01` would become a slash. The
names of a location come back from its pointer. In an array a name leads to the position that it
spells without a leading zero, in an object to the member of that name; so the pointer of a match
leads along the keys of its path to the node that is there. -/

namespace LiveJson

/-! ## Reading pointers -/

namespace Pointer

/-- Puts `c` for each `a` that has a `b` behind it, from the left. -/
def replacePair (a b c : Char) : List Char → List Char
  | x :: y :: cs =>
    if x = a ∧ y = b then c :: replacePair a b c cs else x :: replacePair a b c (y :: cs)
  | cs => cs

/-- What a piece between two slashes stands for. -/
def unescape (piece : List Char) : List Char :=
  replacePair '~' '0' '~' (replacePair '~' '1' '/' piece)

/-- The names in a pointer, which has a slash in front of each. -/
def names? : List Char → Option (List String)
  | [] => some []
  | '/' :: cs => some ((cs.splitOn '/').map fun piece => String.ofList (unescape piece))
  | _ => none

/-- The position that is written without leading zeros. -/
def position? : List Char → Option Nat
  | ['0'] => some 0
  | '0' :: _ => none
  | cs => if !cs.isEmpty && cs.all Decimal.isDigit then some (Decimal.ofDigits cs) else none

/-- The element or member that a name leads to, with its key. -/
def step? (name : String) : Json → Option (Key × Json)
  | .array items => do
    let i ← position? name.toList
    let v ← items[i]?
    some (.index i, v)
  | .object members => (Members.get? name members).map fun v => (.name name, v)
  | _ => none

/-- What the names lead to, and the keys on the way. -/
def follow? : List String → Json → Option (Path × Json)
  | [], v => some ([], v)
  | name :: names, v => do
    let (key, w) ← step? name v
    let (path, x) ← follow? names w
    some (key :: path, x)

/-- The value that a pointer leads to, and its location. -/
def resolve? (pointer : String) (v : Json) : Option (Path × Json) := do
  let names ← names? pointer.toList
  follow? names v

/-! ### Escapes -/

variable {a b c x : Char} {cs : List Char}

theorem replacePair_cons_of_ne (h : x ≠ a) (cs : List Char) :
    replacePair a b c (x :: cs) = x :: replacePair a b c cs := by
  cases cs with
  | nil => rfl
  | cons y cs => rw [replacePair, if_neg fun hxy => h hxy.1]

theorem replacePair_pair (a b c : Char) (cs : List Char) :
    replacePair a b c (a :: b :: cs) = c :: replacePair a b c cs := by
  rw [replacePair, if_pos ⟨rfl, rfl⟩]

/-- A tilde with any other character behind it stays. -/
theorem replacePair_other (h : x ≠ b) (hx : x ≠ a) (cs : List Char) :
    replacePair a b c (a :: x :: cs) = a :: x :: replacePair a b c cs := by
  rw [replacePair, if_neg fun hxy => h hxy.2, replacePair_cons_of_ne hx]

/-- Only the tildes escaped. -/
def escapeTildes : List Char → List Char
  | [] => []
  | c :: cs => if c = '~' then '~' :: '0' :: escapeTildes cs else c :: escapeTildes cs

theorem escapePointer_cons (hslash : c ≠ '/') (htilde : c ≠ '~') (cs : List Char) :
    Path.escapePointer (c :: cs) = c :: Path.escapePointer cs := by
  rw [Path.escapePointer.eq_def]
  split
  · next heq => cases heq
  · next heq => exact absurd (List.cons.inj heq).1 htilde
  · next heq => exact absurd (List.cons.inj heq).1 hslash
  · next heq => cases heq; rfl

theorem replacePair_slashes (cs : List Char) :
    replacePair '~' '1' '/' (Path.escapePointer cs) = escapeTildes cs := by
  induction cs with
  | nil => rfl
  | cons c cs ih =>
    by_cases htilde : c = '~'
    · -- A tilde is written with a zero behind it, which makes no slash.
      subst htilde
      rw [Path.escapePointer, replacePair_other (by decide) (by decide), ih, escapeTildes,
        if_pos rfl]
    · rw [escapeTildes, if_neg htilde]
      by_cases hslash : c = '/'
      · subst hslash
        rw [Path.escapePointer, replacePair_pair, ih]
      · rw [escapePointer_cons hslash htilde, replacePair_cons_of_ne htilde, ih]

theorem replacePair_tildes (cs : List Char) : replacePair '~' '0' '~' (escapeTildes cs) = cs := by
  induction cs with
  | nil => rfl
  | cons c cs ih =>
    rw [escapeTildes]
    split
    · next htilde => rw [htilde, replacePair_pair, ih]
    · next htilde => rw [replacePair_cons_of_ne htilde, ih]

theorem unescape_escapePointer (cs : List Char) : unescape (Path.escapePointer cs) = cs := by
  rw [unescape, replacePair_slashes, replacePair_tildes]

theorem slash_not_mem_escapePointer (cs : List Char) : '/' ∉ Path.escapePointer cs := by
  fun_induction Path.escapePointer cs with
  | case1 => exact List.not_mem_nil
  | case2 cs ih => simpa using ih
  | case3 cs ih => simpa using ih
  | case4 c cs _ hslash ih =>
    rw [List.mem_cons, not_or]
    exact ⟨fun hc => hslash hc.symm, ih⟩

/-! ### Names -/

/-- A pointer is the escaped names, with slashes between them and one in front. -/
theorem pointer_cons (k : Key) (p : Path) : Path.pointer (k :: p) =
    '/' :: ['/'].intercalate ((k :: p).map fun key => Path.escapePointer key.toName.toList) := by
  induction p generalizing k with
  | nil => simp [Path.pointer]
  | cons j p ih =>
    have hpointer : Path.pointer (k :: j :: p) =
        '/' :: (Path.escapePointer k.toName.toList ++ Path.pointer (j :: p)) := rfl
    rw [hpointer, ih, List.map_cons, List.map_cons, List.map_cons, List.intercalate_cons_cons]
    simp

theorem names?_pointer (p : Path) : names? p.pointer = some (p.map Key.toName) := by
  cases p with
  | nil => rfl
  | cons k p =>
    rw [pointer_cons, names?, List.splitOn_intercalate _ ?_ (by simp), List.map_map]
    · congr 2
      funext key
      rw [Function.comp, unescape_escapePointer, String.ofList_toList]
    · intro piece hpiece
      obtain ⟨key, -, rfl⟩ := List.mem_map.mp hpiece
      exact slash_not_mem_escapePointer _

/-! ### Locations -/

theorem head_toDigits {n : Nat} (h : 0 < n) : ∃ c cs, Nat.toDigits 10 n = c :: cs ∧ c ≠ '0' := by
  have hdigit : ∀ m < 10, 0 < m → m.digitChar ≠ '0' := by decide
  induction n using Nat.strongRecOn with
  | ind n ih =>
    by_cases hn : n < 10
    · exact ⟨n.digitChar, [], Nat.toDigits_of_lt_base hn, hdigit n hn h⟩
    · obtain ⟨c, cs, hdigits, hc⟩ := ih (n / 10) (by omega) (by omega)
      refine ⟨c, cs ++ [(n % 10).digitChar], ?_, hc⟩
      rw [Nat.toDigits_of_base_le (by decide) (by omega), hdigits, List.cons_append]

theorem position?_toDigits (i : Nat) : position? (Nat.toDigits 10 i) = some i := by
  rcases Nat.eq_zero_or_pos i with rfl | hi
  · rfl
  · obtain ⟨c, cs, hdigits, hc⟩ := head_toDigits hi
    have hall := Decimal.all_isDigit_toDigits i
    have hvalue := Decimal.ofDigits_toDigits i
    rw [hdigits] at hall hvalue ⊢
    unfold position?
    split
    · next heq => exact absurd (List.cons.inj heq).1 hc
    · next heq => exact absurd (List.cons.inj heq).1 hc
    · rw [if_pos (by simpa using hall), hvalue]

variable {v w : Json} {k : Key} {p : Path}

theorem step?_toName (hk : v.Takes k) (hm : v.member k = some w) :
    step? k.toName v = some (k, w) := by
  cases v with
  | array items =>
    cases k with
    | name n => exact hk.elim
    | index i =>
      have hi : items[i]? = some w := hm
      rw [step?, Key.toName_index_toList, position?_toDigits]
      simp [hi]
  | object members =>
    cases k with
    | index i => exact hk.elim
    | name n =>
      have hn : Members.get? n members = some w := hm
      rw [Key.toName_name, step?, hn, Option.map_some]
  | _ => exact hk.elim

/-- The names of a location lead to what stands there. -/
theorem follow?_names (h : v.Holds p w) : follow? (p.map Key.toName) v = some (p, w) := by
  induction p generalizing v with
  | nil => rw [Json.holds_nil.mp h]; rfl
  | cons k p ih =>
    obtain ⟨hk, x, hx, hw⟩ := Json.holds_cons.mp h
    rw [List.map_cons, follow?, step?_toName hk hx]
    simp [ih hw]

theorem resolve?_toPointer (h : v.Holds p w) : resolve? p.toPointer v = some (p, w) := by
  rw [resolve?, Path.toPointer, String.toList_ofList, names?_pointer]
  exact follow?_names h

end Pointer

/-! ## The pointer of a match -/

/-- **The names of a location come back from its pointer, so two locations have the same pointer
exactly if their keys have the same names; and in a document the pointer of a match leads to the
location of the match and the node that is there.** -/
theorem Path.toPointer_locates :
    (∀ p : Path, Pointer.names? p.toPointer.toList = some (p.map Key.toName)) ∧
    (∀ p q : Path, p.toPointer = q.toPointer ↔ p.map Key.toName = q.map Key.toName) ∧
    ∀ (d : Document) (query : String) (ms : List (Match Spot)), find query d.json = .ok ms →
      ∀ m ∈ ms, ∃ v, Pointer.resolve? m.path.toPointer d.json = some (m.path, v) ∧
        d.json.Holds m.path v ∧ ∀ t, m.matched = .node t → t = Tree.ofJson 0 m.path v := by
  have names : ∀ p : Path, Pointer.names? p.toPointer.toList = some (p.map Key.toName) :=
    fun p => by
    rw [toPointer, String.toList_ofList, Pointer.names?_pointer]
  refine ⟨names, fun p q => ⟨fun h => ?_, fun h => ?_⟩, fun d query ms hfind m hm => ?_⟩
  · exact Option.some.inj (by rw [← names p, ← names q, h])
  · have hpointer : ∀ p : Path, p.toPointer = String.ofList
        ((p.map Key.toName).flatMap fun name => '/' :: escapePointer name.toList) := fun p => by
      rw [toPointer, pointer, List.flatMap_map]
    rw [hpointer, hpointer, h]
  · obtain ⟨v, hv, hnode⟩ := stands_of_mem_find hfind hm
    exact ⟨v, Pointer.resolve?_toPointer hv, hv, hnode⟩

/-- Names with a slash and with the escape of one. -/
def slashed : Document where
  json := .object [("a/b", .object [("~1", .array [.null])])]
  wellFormed := by
    simp [Json.WellFormed, Json.MembersWellFormed, Json.ItemsWellFormed, Members.names]

theorem toPointer_of_slashed : ∃ ms m, find "$..[0]" slashed.json = .ok ms ∧ m ∈ ms ∧
    m.path = [.name "a/b", .name "~1", .index 0] ∧ m.path.toPointer = "/a~1b/~01/0" ∧
    ∃ v, Pointer.resolve? "/a~1b/~01/0" slashed.json =
      some ([.name "a/b", .name "~1", .index 0], v) := by
  have hfind : find "$..[0]" slashed.json = .ok [_] := rfl
  obtain ⟨v, hv, -⟩ :=
    Path.toPointer_locates.2.2 slashed _ _ hfind _ (List.mem_singleton_self _)
  exact ⟨_, _, hfind, List.mem_singleton_self _, rfl, rfl, v, hv⟩

end LiveJson

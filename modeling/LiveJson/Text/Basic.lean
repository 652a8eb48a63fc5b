/-! Text as a list of characters. Pieces of text are given by spans, which count UTF-8 bytes. A blank
character is one of Unicode's class `White_Space`, 25 code points, which is wider than the ASCII blanks
that the expression language skips. Between quotes a backslash makes the next character stand for
itself. -/

namespace LiveJson

/-- The first byte of a piece of text and the byte after its last. -/
structure Span where
  start : Nat
  stop : Nat
deriving DecidableEq, Repr, Inhabited

namespace Text

/-! ## Lengths -/

/-- The length in UTF-8 bytes. -/
def byteLength (cs : List Char) : Nat := cs.foldr (fun c n => c.utf8Size + n) 0

/-- The length in UTF-16 units: one for a character of the basic plane, two for any other. -/
def units16 (cs : List Char) : Nat :=
  cs.foldr (fun c n => (if c.toNat < 0x10000 then 1 else 2) + n) 0

@[simp] theorem byteLength_nil : byteLength [] = 0 := rfl

@[simp] theorem byteLength_cons (c : Char) (cs : List Char) :
    byteLength (c :: cs) = c.utf8Size + byteLength cs := rfl

@[simp] theorem byteLength_append (cs ds : List Char) :
    byteLength (cs ++ ds) = byteLength cs + byteLength ds := by
  induction cs with
  | nil => simp
  | cons c cs ih => rw [List.cons_append, byteLength_cons, byteLength_cons, ih, Nat.add_assoc]

/-! ## Blanks -/

def isBlank (c : Char) : Bool :=
  let n := c.toNat
  (9 ≤ n && n ≤ 13) || n == 0x20 || n == 0x85 || n == 0xA0 || n == 0x1680 ||
    (0x2000 ≤ n && n ≤ 0x200A) || n == 0x2028 || n == 0x2029 || n == 0x202F || n == 0x205F ||
    n == 0x3000

def trimStart (cs : List Char) : List Char := cs.dropWhile isBlank

/-- Drops the longest run at the end whose characters all satisfy `p`. -/
def dropTrailing (p : Char → Bool) : List Char → List Char
  | [] => []
  | c :: cs =>
    match dropTrailing p cs with
    | [] => if p c then [] else [c]
    | rest => c :: rest

def trimEnd (cs : List Char) : List Char := dropTrailing isBlank cs

def trim (cs : List Char) : List Char := trimEnd (trimStart cs)

theorem dropTrailing_append_of_all {p : Char → Bool} {cs : List Char} (ds : List Char)
    (h : cs.all p = true) : dropTrailing p (ds ++ cs) = dropTrailing p ds := by
  induction ds with
  | nil =>
    induction cs with
    | nil => rfl
    | cons c cs ih =>
      simp only [List.all_cons, Bool.and_eq_true] at h
      have := ih h.2
      simp only [List.nil_append] at this ⊢
      simp [dropTrailing, this, h.1]
  | cons d ds ih => simp [dropTrailing, ih]

/-! ## Quotes -/

/-- Puts a backslash before every backslash and every `quote`. -/
def escape (quote : Char) : List Char → List Char
  | [] => []
  | c :: cs => if c = '\\' || c = quote then '\\' :: c :: escape quote cs else c :: escape quote cs

/-- Drops each backslash that makes the next character stand for itself, and one at the end. -/
def unescape : List Char → List Char
  | [] => []
  | ['\\'] => []
  | '\\' :: c :: cs => c :: unescape cs
  | c :: cs => c :: unescape cs

theorem unescape_escape (quote : Char) (cs : List Char) : unescape (escape quote cs) = cs := by
  induction cs with
  | nil => rfl
  | cons c cs ih =>
    by_cases h : c = '\\' ∨ c = quote
    · simp [escape, h, unescape, ih]
    · simp only [not_or] at h
      simp [escape, h.1, h.2, unescape, ih]

end Text

end LiveJson

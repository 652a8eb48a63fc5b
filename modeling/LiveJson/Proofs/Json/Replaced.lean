import LiveJson.Proofs.Json.Named

/-! # Replacing the value at a location

A value stands at a location if the keys on the way have the form of those of the values that they
are looked up in. When a member that is there is written, the new value stands at its location, the
locations that neither lie behind it nor lead to it have what they had, and no others come up. -/

namespace LiveJson.Json

variable {v w x y : Json} {j k : Key} {p q : Path}

/-- The value `w` stands at the location `q`. -/
def Holds (v : Json) (q : Path) (w : Json) : Prop := v.Spells q ∧ v.follow q = some w

theorem holds_nil : v.Holds [] w ↔ v = w := by
  simp [Holds, Spells, follow]

theorem holds_cons : v.Holds (k :: q) w ↔ v.Takes k ∧ ∃ x, v.member k = some x ∧ x.Holds q w := by
  simp only [Holds, Spells, follow, List.foldlM_cons, Option.bind_eq_bind,
    Option.bind_eq_some_iff]
  constructor
  · rintro ⟨⟨htakes, hspells⟩, x, hx, hw⟩
    exact ⟨htakes, x, hx, hspells x hx, hw⟩
  · rintro ⟨htakes, x, hx, hspells, hw⟩
    refine ⟨⟨htakes, fun y hy => ?_⟩, x, hx, hw⟩
    rw [hx] at hy
    cases hy
    exact hspells

theorem holds_concat (hq : v.Holds q x) (htakes : x.Takes k) (hw : x.member k = some w) :
    v.Holds (q ++ [k]) w := by
  refine ⟨spells_append.mpr ⟨hq.1, fun y hy => ?_⟩, ?_⟩
  · rw [hq.2] at hy
    cases hy
    exact ⟨htakes, fun _ _ => trivial⟩
  · rw [follow_concat, hq.2]
    exact hw

theorem holds_concat_iff : v.Holds (p ++ [k]) w ↔
    ∃ x, v.Holds p x ∧ x.Takes k ∧ x.member k = some w := by
  refine ⟨fun ⟨hspells, hfollow⟩ => ?_, fun ⟨x, hp, htakes, hw⟩ => holds_concat hp htakes hw⟩
  rw [follow_concat] at hfollow
  obtain ⟨x, hx, hw⟩ := Option.bind_eq_some_iff.mp hfollow
  obtain ⟨hp, hk⟩ := spells_append.mp hspells
  exact ⟨x, ⟨hp, hx⟩, (hk x hx).1, hw⟩

/-! ## One member -/

theorem takes_put : (put k x v).Takes j ↔ v.Takes j := by
  cases v with
  | array items =>
    unfold put
    dsimp only
    split
    · split
      · cases j <;> rfl
      · split <;> cases j <;> rfl
    · rfl
  | object members => cases j <;> rfl
  | _ => rfl

theorem member_put_self (hk : v.Takes k) (hm : v.member k = some y) :
    (put k x v).member k = some x := by
  cases v with
  | array items =>
    cases k with
    | name n => exact hk.elim
    | index i =>
      obtain ⟨hlt, -⟩ := List.getElem?_eq_some_iff.mp hm
      simp [put, member, hlt]
  | object members => exact Members.get?_insert_self ..
  | _ => exact hk.elim

theorem member_put_of_ne (hk : v.Takes k) (hj : v.Takes j) (hm : v.member k = some y)
    (hne : j ≠ k) : (put k x v).member j = v.member j := by
  cases v with
  | array items =>
    cases k with
    | name n => exact hk.elim
    | index i =>
      cases j with
      | name n => exact hj.elim
      | index i' =>
        obtain ⟨hlt, -⟩ := List.getElem?_eq_some_iff.mp hm
        have hi : i ≠ i' := fun heq => hne (congrArg Key.index heq.symm)
        simp [put, member, hlt, List.getElem?_set_ne hi]
  | object members =>
    cases k with
    | index i => exact hk.elim
    | name n =>
      cases j with
      | index i => exact hj.elim
      | name m => exact Members.get?_insert_of_ne _ _ fun heq => hne (congrArg Key.name heq)
  | _ => exact hk.elim

/-! ## At a location -/

/-- From `v` to `w`, the value at the location `q` has been replaced by `x`, and nothing else. -/
structure Replaced (v w : Json) (q : Path) (x : Json) : Prop where
  before : ∃ y, v.Holds q y
  after : w.Holds q x
  apart : ∀ {p y}, ¬ q <+: p → ¬ p <+: q → (w.Holds p y ↔ v.Holds p y)

theorem replaced_put (hk : v.Takes k) (hm : v.member k = some y) :
    v.Replaced (put k x v) [k] x where
  before := ⟨y, holds_cons.mpr ⟨hk, y, hm, holds_nil.mpr rfl⟩⟩
  after := holds_cons.mpr ⟨takes_put.mpr hk, x, member_put_self hk hm, holds_nil.mpr rfl⟩
  apart {p z} hbehind hlead := by
    cases p with
    | nil => exact absurd List.nil_prefix hlead
    | cons j p =>
      have hne : j ≠ k := by
        rintro rfl
        exact hbehind (List.prefix_append [j] p)
      simp only [holds_cons, takes_put]
      exact and_congr_right fun hj => by rw [member_put_of_ne hk hj hm hne]

/-- What is replaced in a member is replaced in the whole. -/
theorem Replaced.put (hk : v.Takes k) (hm : v.member k = some y) (h : y.Replaced w q x) :
    v.Replaced (put k w v) (k :: q) x where
  before := h.before.imp fun _ hz => holds_cons.mpr ⟨hk, y, hm, hz⟩
  after := holds_cons.mpr ⟨takes_put.mpr hk, w, member_put_self hk hm, h.after⟩
  apart {p z} hbehind hlead := by
    cases p with
    | nil => exact absurd List.nil_prefix hlead
    | cons j p =>
      simp only [holds_cons, takes_put]
      refine and_congr_right fun hj => ?_
      by_cases hne : j = k
      · subst hne
        rw [List.prefix_cons_inj] at hbehind hlead
        rw [member_put_self hk hm, hm]
        simp only [Option.some.injEq, exists_eq_left', h.apart hbehind hlead]
      · rw [member_put_of_ne hk hj hm hne]

/-- Writing a member of the value at `p` replaces it. -/
theorem replaced_edit : ∀ {p : Path} {v : Json}, v.Holds p w → w.Takes k → w.member k = some y →
    v.Replaced (edit (Json.put k x) p v) (p ++ [k]) x
  | [], v, hw, hk, hm => by
    obtain rfl := holds_nil.mp hw
    exact replaced_put hk hm
  | j :: p, v, hw, hk, hm => by
    obtain ⟨hj, z, hz, hw⟩ := holds_cons.mp hw
    rw [edit, hz]
    exact (replaced_edit hw hk hm).put hj hz

end LiveJson.Json

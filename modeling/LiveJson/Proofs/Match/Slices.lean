import Mathlib
import LiveJson.Match.Trace

/-! # Slices

A slice takes every `t`-th element from its start on, before its end, where both bounds count from
the end of the array when they are negative and are cut to it. The bounds and the step are 64-bit
words, and so is the length: a bound is added to the length only when it is negative, so that no sum
leaves the words and the bounds are those of exact arithmetic. -/

namespace LiveJson

namespace Progression

variable {p : Progression} {i : Nat}

theorem mem_toList : i ∈ p.toList ↔ ∃ k < p.count, p.first + k * p.step = i := by
  rw [toList, take, Nat.min_self, List.mem_map]
  simp only [List.mem_range]

theorem pairwise_toList (h : 0 < p.step) : p.toList.Pairwise (· < ·) := by
  refine List.Pairwise.map _ (fun j k hjk => ?_) List.pairwise_lt_range
  exact Nat.add_lt_add_left (Nat.mul_lt_mul_of_pos_right hjk h) _

end Progression

namespace Slice

/-- A bound from the start of `len` elements, negative ones counted from the end, cut to `0..len`.
-/
def bound (len : Nat) (i : Int) : Int := max 0 (min (if i < 0 then len + i else i) len)

/-- A step that is not positive counts as one. -/
def stride : Option Int → Int
  | some t => if 0 < t then t else 1
  | none => 1

/-- Element `i` of an array of `len` elements is asked for. -/
def Selects (len : Nat) (start stop step : Option Int) (i : Nat) : Prop :=
  let s := bound len (start.getD 0)
  s ≤ i ∧ i < bound len (stop.getD len) ∧ stride step ∣ i - s

/-! ## In words -/

/-- The bound as it is computed in words. -/
def boundWord (len i : Int64) : UInt64 := (if i < 0 then max (i + len) 0 else min i len).toUInt64

def strideWord : Option Int64 → UInt64
  | some t => if 0 < t then t.toUInt64 else 1
  | none => 1

/-- No sum of a bound and the length leaves the words, and what is computed in them is exact. -/
structure Exact (len : Nat) (bounds : List Int64) (step : Option Int64) : Prop where
  length : (Int64.ofNat len).toInt = len
  sum : ∀ i ∈ bounds, i < 0 → (i + Int64.ofNat len).toInt = i.toInt + len
  bound : ∀ i ∈ bounds, (boundWord (.ofNat len) i).toNat = clamp len i.toInt
  stride : (strideWord step).toNat = stepOf (step.map Int64.toInt)

variable {len i : Nat} {start stop step : Option Int}

theorem clamp_eq (len : Nat) (i : Int) : (clamp len i : Int) = bound len i := by
  unfold clamp bound
  split <;> omega

theorem stepOf_eq (step : Option Int) : (stepOf step : Int) = stride step := by
  cases step with
  | none => rfl
  | some t =>
    simp only [stepOf, stride]
    split <;> omega

theorem stepOf_pos (step : Option Int) : 0 < stepOf step := by
  cases step with
  | none => exact Nat.one_pos
  | some t =>
    simp only [stepOf]
    split <;> omega

theorem toInt_max (a b : Int64) : (max a b).toInt = max a.toInt b.toInt := by
  have hmax : max a b = if a ≤ b then b else a := rfl
  simp only [hmax, Int64.le_iff_toInt_le]
  split <;> omega

theorem toInt_min (a b : Int64) : (min a b).toInt = min a.toInt b.toInt := by
  have hmin : min a b = if a ≤ b then a else b := rfl
  simp only [hmin, Int64.le_iff_toInt_le]
  split <;> omega

theorem toNat_toUInt64 {w : Int64} (h : 0 ≤ w.toInt) : (w.toUInt64.toNat : Int) = w.toInt := by
  rw [Int64.toNat_toUInt64_of_le (Int64.le_iff_toInt_le.mpr h)]
  exact Int.toNat_of_nonneg h

/-- A negative word and the length of an array have a sum in the words. -/
theorem toInt_add_length (hlen : len < 2 ^ 63) {w : Int64} (hw : w < 0) :
    (w + Int64.ofNat len).toInt = w.toInt + len := by
  have hneg : w.toInt < 0 := Int64.lt_iff_toInt_lt.mp hw
  have hlow := Int64.le_toInt w
  rw [Int64.toInt_add, Int64.toInt_ofNat_of_lt hlen]
  refine Int.bmod_eq_of_le_mul_two ?_ ?_ <;> omega

theorem toNat_boundWord (hlen : len < 2 ^ 63) (i : Int64) :
    ((boundWord (.ofNat len) i).toNat : Int) = bound len i.toInt := by
  have hlength := Int64.toInt_ofNat_of_lt hlen
  have hzero : (0 : Int64).toInt = 0 := rfl
  simp only [boundWord, bound, Int64.lt_iff_toInt_lt, hzero]
  split
  · next hneg =>
    have hsum := toInt_add_length hlen (Int64.lt_iff_toInt_lt.mpr hneg)
    rw [toNat_toUInt64 (by rw [toInt_max]; omega), toInt_max, hsum, hzero]
    omega
  · rw [toNat_toUInt64 (by rw [toInt_min, hlength]; omega), toInt_min, hlength]
    omega

theorem toNat_strideWord (step : Option Int64) :
    ((strideWord step).toNat : Int) = stride (step.map Int64.toInt) := by
  cases step with
  | none => rfl
  | some t =>
    have hzero : (0 : Int64).toInt = 0 := rfl
    simp only [strideWord, Option.map_some, stride, Int64.lt_iff_toInt_lt, hzero]
    split
    · next hpos => exact toNat_toUInt64 (Int.le_of_lt hpos)
    · rfl

theorem exact_of_lt (hlen : len < 2 ^ 63) (bounds : List Int64) (step : Option Int64) :
    Exact len bounds step where
  length := Int64.toInt_ofNat_of_lt hlen
  sum _ _ hneg := toInt_add_length hlen hneg
  bound i _ := Int.ofNat.inj ((toNat_boundWord hlen i).trans (clamp_eq len _).symm)
  stride := Int.ofNat.inj ((toNat_strideWord step).trans (stepOf_eq _).symm)

/-! ## The progression -/

/-- A progression below `last` in steps of `t` has this many terms. -/
theorem lt_count_iff {n t k : Nat} (ht : 0 < t) : k < (n + t - 1) / t ↔ k * t < n := by
  rw [← Nat.add_one_le_iff, Nat.le_div_iff_mul_le ht, Nat.add_one_mul]
  omega

theorem mem_positions : i ∈ (positions len start stop step).toList ↔
    Selects len start stop step i := by
  have ht := stepOf_pos step
  rw [Progression.mem_toList, positions, Selects, ← clamp_eq, ← clamp_eq, ← stepOf_eq]
  simp only [lt_count_iff ht]
  constructor
  · rintro ⟨k, hk, rfl⟩
    refine ⟨by omega, by omega, k, ?_⟩
    push_cast
    rw [Int.mul_comm]
    omega
  · rintro ⟨hfirst, hlast, k, hk⟩
    -- An element that is not before the start is a natural number of steps behind it.
    have hnat : 0 ≤ k := Int.nonneg_of_mul_nonneg_right (by omega) (Int.natCast_pos.mpr ht)
    obtain ⟨k, rfl⟩ := Int.eq_ofNat_of_zero_le hnat
    rw [Int.mul_comm, ← Int.natCast_mul] at hk
    exact ⟨k, by omega, by omega⟩

theorem pairwise_positions (len : Nat) (start stop step : Option Int) :
    (positions len start stop step).toList.Pairwise (· < ·) :=
  Progression.pairwise_toList (stepOf_pos step)

theorem Selects.lt (h : Selects len start stop step i) : i < len := by
  obtain ⟨-, hlast, -⟩ := h
  unfold bound at hlast
  omega

theorem lt_of_mem_positions (h : i ∈ (positions len start stop step).toList) : i < len :=
  (mem_positions.mp h).lt

/-! ## The elements -/

/-- Positions within a list lead to an element each. -/
theorem map_filterMap_getElem? {α : Type} (items : List α) :
    ∀ positions : List Nat, (∀ i ∈ positions, i < items.length) →
      ((positions.filterMap fun i => items[i]?.map fun a => (Key.index i, a)).map
        fun e => (e.1, some e.2)) = positions.map fun i => (.index i, items[i]?)
  | [], _ => rfl
  | i :: positions, h => by
    obtain ⟨hi, hrest⟩ := List.forall_mem_cons.mp h
    rw [List.filterMap_cons, List.getElem?_eq_getElem hi, Option.map_some, List.map_cons,
      map_filterMap_getElem? items positions hrest, List.map_cons, List.getElem?_eq_getElem hi]

theorem traceFrame_slice {ι : Type} [DecidableEq ι] (tracer : Tracer ι) (fuel : Nat)
    (rest : List Segment) (frame : Frame ι) :
    tracer.traceFrame (fuel + 1) (.slice start stop step :: rest) frame =
      tracer.step (tracer.traceFrame fuel rest) (tracer.traceFrame fuel) frame
        (.slice start stop step) := rfl

open Trail in
/-- **For bounds and a step in 64-bit words and any length that an array can have, a slice selects
in increasing order the elements of an arithmetic progression and no others, without leaving the
words on the way; traced on an array it goes on at exactly these elements, and on anything else it
finds nothing.** -/
theorem positions_progression (len : Nat) (hlen : len < 2 ^ 63) (start stop step : Option Int64) :
    let first := start.map Int64.toInt
    let last := stop.map Int64.toInt
    let every := step.map Int64.toInt
    let is := (positions len first last every).toList
    is.Pairwise (· < ·) ∧ (∀ i, i ∈ is ↔ Selects len first last every i) ∧ (∀ i ∈ is, i < len) ∧
    Exact len [start.getD 0, stop.getD (.ofNat len)] step ∧
    ∀ {ι : Type} [DecidableEq ι] (tracer : Tracer ι) (fuel : Nat) (rest : List Segment)
      (frame : Frame ι),
      (∀ label items, frame.value = .array label items → items.length = len → ∃ es,
        es.map (fun e => (e.1, some e.2)) = is.map (fun i => (.index i, items[i]?)) ∧
        tracer.traceFrame (fuel + 1) (.slice first last every :: rest) frame =
          visitAll (tracer.traceFrame fuel rest) (tracer.traceFrame fuel) frame es) ∧
      (frame.value.length? = none →
        tracer.traceFrame (fuel + 1) (.slice first last every :: rest) frame = pure []) := by
  intro first last every is
  refine ⟨pairwise_positions .., fun i => mem_positions, fun i => lt_of_mem_positions,
    exact_of_lt hlen _ step, fun tracer fuel rest frame => ⟨fun label items hvalue hitems => ?_,
      fun hvalue => ?_⟩⟩
  · refine ⟨_, map_filterMap_getElem? items is fun i hi => hitems ▸ lt_of_mem_positions hi, ?_⟩
    rw [traceFrame_slice, Tracer.step, hvalue, Tree.length?, hitems]
    rfl
  · rw [traceFrame_slice, Tracer.step, hvalue]

/-- From the second element before the end on, whatever the end and the step are. -/
theorem positions_of_extremes : 5 < 2 ^ 63 ∧
    (positions 5 (some (-2)) (some Int64.maxValue.toInt) (some Int64.minValue.toInt)).toList =
    [3, 4] ∧
    Exact 5 [-2, Int64.maxValue] (some Int64.minValue) := by
  have hall := positions_progression 5 (by decide) (some (-2)) (some Int64.maxValue)
    (some Int64.minValue)
  exact ⟨by decide, rfl, hall.2.2.2.1⟩

end Slice

end LiveJson

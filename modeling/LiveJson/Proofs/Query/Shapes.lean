import LiveJson.Proofs.Match.Plain
import LiveJson.Proofs.Tree
import LiveJson.Query.Basic

/-! # Wrapping and flattening

Without flattening a result has one entry for each match, in order; with it, an entry that is an
array gives way to its elements. Wrapping decides only what stands around the entries: a list, the
one entry by itself, or nothing. There is one exception. A lone match stands by itself unless the
*node* is an array, and then its *entry* is not looked at again; so the parent of a lone match, if
it is an array, is not flattened without wrapping. -/

namespace LiveJson

variable {ι : Type}

namespace Output

/-- The elements of an entry that is an array, as entries. -/
def elements? : Output ι → Option (List (Output ι))
  | value (.array _ items) => some (items.map value)
  | parent (some (.array _ items)) => some (items.map fun t => parent (some t))
  | _ => none

/-- What stands in a flattened list for an entry. -/
def flattened (output : Output ι) : List (Output ι) := output.elements?.getD [output]

theorem map_entries_array {α : Type} (f : Tree ι → α) (label : ι) (items : List (Tree ι)) :
    (Tree.array label items).entries.map (fun entry => f entry.2) = items.map f := by
  have hsnd := congrArg (List.map f) (Tree.map_snd_enumerate 0 items)
  rwa [List.map_map] at hsnd

theorem splice_eq_flattened (output : Output ι) : output.splice = output.flattened := by
  cases output with
  | value t =>
    cases t with
    | array label items => exact map_entries_array value label items
    | _ => rfl
  | parent t =>
    cases t with
    | none => rfl
    | some t =>
      cases t with
      | array label items => exact map_entries_array (fun t => parent (some t)) label items
      | _ => rfl
  | _ => rfl

/-- An array is not among its own elements. -/
theorem ne_of_mem_elements? {output o : Output ι} {os : List (Output ι)}
    (h : output.elements? = some os) (ho : o ∈ os) : o ≠ output := by
  have smaller : ∀ {label : ι} {items : List (Tree ι)} {t : Tree ι}, t ∈ items →
      t ≠ .array label items := by
    rintro label items t ht rfl
    have := List.sizeOf_lt_of_mem ht
    rw [Tree.array.sizeOf_spec] at this
    omega
  unfold elements? at h
  split at h
  · cases h
    obtain ⟨t, ht, rfl⟩ := List.mem_map.mp ho
    exact fun heq => smaller ht (value.inj heq)
  · cases h
    obtain ⟨t, ht, rfl⟩ := List.mem_map.mp ho
    exact fun heq => smaller ht (Option.some.inj (parent.inj heq))
  · cases h

/-- Only an array is changed by flattening. -/
theorem flattened_eq_self_iff {output : Output ι} :
    output.flattened = [output] ↔ output.elements? = none := by
  unfold flattened
  cases h : output.elements? with
  | none => exact iff_of_true rfl rfl
  | some os =>
    refine iff_of_false (fun heq => ?_) nofun
    have hmem : output ∈ os := by
      rw [show os = [output] from heq]
      exact List.mem_singleton_self _
    exact ne_of_mem_elements? h hmem rfl

end Output

namespace Result

variable {type : ResultType} {wrap flatten : Bool} {ms : List (Match ι)}

/-- The entries that are asked for. -/
def formatted (type : ResultType) (flatten : Bool) (ms : List (Match ι)) : List (Output ι) :=
  if flatten then ms.flatMap fun m => (Output.ofMatch type m).flattened
  else ms.map (Output.ofMatch type)

/-- One match, whose node is no array. -/
def Lone (ms : List (Match ι)) : Prop :=
  ∃ m, ms = [m] ∧ ∀ label items, m.matched ≠ .node (.array label items)

/-- One match, whose node is no array but whose parent, which is asked for, is one. -/
def LoneInArray (type : ResultType) (ms : List (Match ι)) : Prop :=
  type = .parent ∧ Lone ms ∧ ∃ m ∈ ms, ∃ label items, m.parent = some (.array label items)

theorem entries_eq_formatted : entries type flatten ms = formatted type flatten ms := by
  unfold entries formatted
  cases flatten with
  | false => exact List.map_eq_flatMap.symm
  | true => simp only [if_true, Output.splice_eq_flattened]

theorem isArrayMatch_eq_false_iff {m : Match ι} :
    isArrayMatch m = false ↔ ∀ label items, m.matched ≠ .node (.array label items) := by
  unfold isArrayMatch
  cases m.matched with
  | key k => exact iff_of_true rfl nofun
  | node t =>
    cases t with
    | array label items => exact iff_of_false nofun fun h => h label items rfl
    | _ => exact iff_of_true rfl nofun

/-- Unwrapped, a lone match stands by itself. -/
theorem ofMatches_of_lone {m : Match ι}
    (h : ∀ label items, m.matched ≠ .node (.array label items)) :
    ofMatches type false flatten [m] = single (Output.ofMatch type m) := by
  simp [ofMatches, isArrayMatch_eq_false_iff.mpr h]

theorem ofMatches_of_not_lone (h : ¬ Lone ms) (hne : ms ≠ []) :
    ofMatches type false flatten ms = list (entries type flatten ms) := by
  unfold ofMatches
  split
  · rfl
  · split
    · exact absurd rfl hne
    · next m =>
      have harray : isArrayMatch m = true := by
        by_contra hfalse
        exact h ⟨m, rfl, isArrayMatch_eq_false_iff.mp (Bool.eq_false_iff.mpr hfalse)⟩
      rw [if_pos harray]
    · rfl

/-- The entry of a match whose node is no array is an array exactly if it is a parent that is one.
-/
theorem elements?_ofMatch_eq_none_iff {m : Match ι}
    (h : ∀ label items, m.matched ≠ .node (.array label items)) :
    (Output.ofMatch type m).elements? = none ↔
      ¬ (type = .parent ∧ ∃ label items, m.parent = some (.array label items)) := by
  cases type with
  | value =>
    refine iff_of_true ?_ nofun
    unfold Output.ofMatch
    dsimp only
    split
    · next t ht =>
      cases t with
      | array label items => exact absurd ht (h label items)
      | _ => rfl
    · rfl
  | parent =>
    unfold Output.ofMatch
    cases m.parent with
    | none => exact iff_of_true rfl nofun
    | some t =>
      cases t with
      | array label items => exact iff_of_false nofun fun hnot => hnot ⟨rfl, label, items, rfl⟩
      | _ => exact iff_of_true rfl nofun
  | _ => exact iff_of_true rfl nofun

/-- The entries of a result, whichever way it is wrapped. -/
theorem toList_ofMatches_iff : (ofMatches type wrap flatten ms).toList = formatted type flatten ms ↔
    ¬ (wrap = false ∧ flatten = true ∧ LoneInArray type ms) := by
  cases wrap with
  | true => exact iff_of_true entries_eq_formatted nofun
  | false =>
    by_cases hlone : Lone ms
    · obtain ⟨m, rfl, hm⟩ := hlone
      rw [ofMatches_of_lone hm, toList]
      cases flatten with
      | false => exact iff_of_true rfl nofun
      | true =>
        -- The entry is taken as it is, so it has to be one that flattening leaves alone.
        have hformatted : formatted type true [m] = (Output.ofMatch type m).flattened := by
          simp [formatted]
        rw [hformatted, eq_comm, Output.flattened_eq_self_iff, elements?_ofMatch_eq_none_iff hm]
        simp only [LoneInArray, List.mem_singleton, exists_eq_left, true_and]
        exact not_congr (and_congr_right fun _ =>
          ⟨fun h => ⟨⟨m, rfl, hm⟩, h⟩, And.right⟩)
    · refine iff_of_true ?_ fun h => hlone h.2.2.2.1
      by_cases hne : ms = []
      · subst hne
        cases flatten <;> rfl
      · rw [ofMatches_of_not_lone hlone hne]
        exact entries_eq_formatted

/-- **The entries of a result are those that are asked for, and the same with and without wrapping,
except for the parent of a lone match that is asked for, unwrapped and flattened, and is an array
while the match is none: it stays as it is. Otherwise wrapping decides only the shape.** -/
theorem ofMatches_policy (type : ResultType) (wrap flatten : Bool) (ms : List (Match ι)) :
    ((ofMatches type wrap flatten ms).toList = formatted type flatten ms ↔
      ¬ (wrap = false ∧ flatten = true ∧ LoneInArray type ms)) ∧
    ((ofMatches type false flatten ms).toList = (ofMatches type true flatten ms).toList ↔
      ¬ (flatten = true ∧ LoneInArray type ms)) ∧
    ((∃ outputs, ofMatches type wrap flatten ms = list outputs) ↔
      wrap = true ∨ ms ≠ [] ∧ ¬ Lone ms) ∧
    (∀ output, ofMatches type wrap flatten ms = single output ↔
      wrap = false ∧ Lone ms ∧ ms.map (Output.ofMatch type) = [output]) ∧
    (ofMatches type wrap flatten ms = nothing ↔ wrap = false ∧ ms = []) := by
  have hwrapped : (ofMatches type true flatten ms).toList = formatted type flatten ms :=
    toList_ofMatches_iff.mpr nofun
  refine ⟨toList_ofMatches_iff, ?_, ?_⟩
  · rw [hwrapped, toList_ofMatches_iff]
    simp only [true_and]
  · cases wrap with
    | true => simp [ofMatches]
    | false =>
      by_cases hlone : Lone ms
      · obtain ⟨m, rfl, hm⟩ := hlone
        have hlone : Lone [m] := ⟨m, rfl, hm⟩
        simp [ofMatches_of_lone hm, hlone]
      · by_cases hne : ms = []
        · subst hne
          simp [ofMatches, hlone]
        · simp [ofMatches_of_not_lone hlone hne, hlone, hne]

/-- An array of two elements. -/
def pair : Json := .array [.null, .bool true]

/-- The parent of a lone match is flattened with wrapping and is not without it. -/
theorem lone_parent_not_flattened : ∃ ms, find "$[0]" pair = .ok ms ∧
    (ofMatches .parent true true ms).toList =
      [.parent (some (.leaf .null)), .parent (some (.leaf (.bool true)))] ∧
    (ofMatches .parent false true ms).toList = [.parent (some (Tree.ofJson 0 [] pair))] := by
  have hfind : find "$[0]" pair = .ok [_] := rfl
  exact ⟨_, hfind, rfl, rfl⟩

end Result

end LiveJson

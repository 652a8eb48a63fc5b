import LiveJson.Path.Basic
import LiveJson.Proofs.Members
import LiveJson.Store.Registry
import Mathlib.Data.List.Nodup

/-! # The registry

What is registered stays well-formed: the paths are canonical and distinct, each has a listener and
none has one twice, and no subscription waits twice. -/

namespace LiveJson.Registry

variable {r : Registry} {path other : String} {s : Subscription} {listener : ListenerId}

structure WellFormed (r : Registry) : Prop where
  canonical : ∀ {path}, path ∈ r.paths → ∃ p : Path, path = p.toText
  distinct : r.paths.Nodup
  listened : ∀ {path here}, (path, here) ∈ r.registered → here ≠ []
  once : ∀ {path here}, (path, here) ∈ r.registered → (here.map (·.listener)).Nodup
  pending : r.pending.Nodup

theorem wellFormed_empty : WellFormed {} where
  canonical h := by cases h
  distinct := List.nodup_nil
  listened h := by cases h
  once h := by cases h
  pending := List.nodup_nil

/-- Putting listeners at a canonical path. -/
theorem WellFormed.insert (hr : r.WellFormed) {here : List Subscription} (p : Path)
    (hne : here ≠ []) (honce : (here.map (·.listener)).Nodup) :
    WellFormed { r with registered := Members.insert p.toText here r.registered } where
  canonical {path} h := by
    simp only [paths, Members.names_insert] at h
    split at h
    · exact hr.canonical h
    · rcases List.mem_append.mp h with h | h
      · exact hr.canonical h
      · exact ⟨p, List.mem_singleton.mp h⟩
  distinct := Members.nodup_insert _ _ hr.distinct
  listened h := by
    rcases (Members.mem_insert_iff hr.distinct).mp h with ⟨-, rfl⟩ | ⟨-, h⟩
    · exact hne
    · exact hr.listened h
  once h := by
    rcases (Members.mem_insert_iff hr.distinct).mp h with ⟨-, rfl⟩ | ⟨-, h⟩
    · exact honce
    · exact hr.once h
  pending := hr.pending

theorem WellFormed.erase (hr : r.WellFormed) (path : String) :
    WellFormed { r with registered := Members.erase path r.registered } where
  canonical h := hr.canonical ((Members.names_erase_subset path r.registered).subset h)
  distinct := Members.nodup_erase path hr.distinct
  listened h := hr.listened ((Members.mem_erase_iff hr.distinct).mp h).2
  once h := hr.once ((Members.mem_erase_iff hr.distinct).mp h).2
  pending := hr.pending

theorem WellFormed.once_get? (hr : r.WellFormed) (path : String) :
    (((Members.get? path r.registered).getD []).map (·.listener)).Nodup := by
  cases h : Members.get? path r.registered with
  | none => exact List.nodup_nil
  | some here => exact hr.once (Members.mem_of_get? h)

theorem WellFormed.add (hr : r.WellFormed) (p : Path) (s : Subscription) :
    (r.add p.toText s).WellFormed := by
  unfold Registry.add
  dsimp only
  split
  · exact hr
  · next hnew =>
    refine hr.insert p (by simp) ?_
    rw [List.map_append, List.nodup_append]
    refine ⟨hr.once_get? p.toText, by simp, fun a ha b hb hab => hnew ?_⟩
    obtain ⟨t, ht, rfl⟩ := List.mem_map.mp ha
    rw [List.map_singleton, List.mem_singleton] at hb
    exact List.any_eq_true.mpr ⟨t, ht, by simp [hab, hb]⟩

theorem WellFormed.remove (hr : r.WellFormed) (path : String) (listener : ListenerId) :
    (r.remove path listener).WellFormed := by
  unfold Registry.remove
  split
  · exact hr
  · next here hhere =>
    have hmem := Members.mem_of_get? hhere
    obtain ⟨p, rfl⟩ := hr.canonical (Members.mem_names_of_mem hmem)
    dsimp only
    split
    · exact hr.erase _
    · next hkept =>
      refine hr.insert p (by simpa using hkept) ?_
      exact (hr.once hmem).sublist (List.filter_sublist.map _)

theorem WellFormed.addPending (hr : r.WellFormed) (s : Subscription) :
    (r.addPending s).WellFormed := by
  unfold Registry.addPending
  split
  · exact hr
  · next hnew =>
    refine ⟨hr.canonical, hr.distinct, hr.listened, hr.once, ?_⟩
    refine List.nodup_append.mpr ⟨hr.pending, by simp, fun a ha b hb hab => hnew ?_⟩
    rw [List.mem_singleton] at hb
    exact hb ▸ hab ▸ ha

theorem WellFormed.removePending (hr : r.WellFormed) (s : Subscription) :
    (r.removePending s).WellFormed :=
  ⟨hr.canonical, hr.distinct, hr.listened, hr.once, hr.pending.sublist List.filter_sublist⟩

/-! ## Who listens at a path -/

/-- Puts listeners behind those that are there already, each of them once. -/
def joined (here : List ListenerId) : List ListenerId → List ListenerId
  | [] => here
  | listener :: rest => joined (if listener ∈ here then here else here ++ [listener]) rest

@[simp] theorem pending_add : (r.add path s).pending = r.pending := by
  unfold add
  dsimp only
  split <;> rfl

@[simp] theorem pending_remove : (r.remove path listener).pending = r.pending := by
  unfold remove
  split <;> rfl

theorem listenersAt_add (r : Registry) (path : String) (s : Subscription) (other : String) :
    (r.add path s).listenersAt other =
      if path = other then joined (r.listenersAt other) [s.listener] else r.listenersAt other := by
  have hknown : (((Members.get? path r.registered).getD []).any fun t =>
      t.listener = s.listener) = true ↔ s.listener ∈ r.listenersAt path := by
    simp [listenersAt]
  unfold add
  by_cases hs : s.listener ∈ r.listenersAt path
  · dsimp only
    rw [if_pos (hknown.mpr hs)]
    split
    · next ho =>
      subst ho
      rw [joined, if_pos hs, joined]
    · rfl
  · dsimp only
    rw [if_neg fun h => hs (hknown.mp h)]
    split
    · next ho =>
      subst ho
      rw [joined, if_neg hs, joined, listenersAt, Members.get?_insert_self]
      simp [listenersAt]
    · next ho => rw [listenersAt, Members.get?_insert_of_ne _ _ (Ne.symm ho), listenersAt]

theorem WellFormed.listenersAt_remove (hr : r.WellFormed) (path : String) (listener : ListenerId)
    (other : String) : (r.remove path listener).listenersAt other =
      if path = other then (r.listenersAt other).filter (· ≠ listener)
      else r.listenersAt other := by
  unfold Registry.remove
  split
  · next hnone =>
    split
    · next ho => rw [← ho, listenersAt, hnone]; rfl
    · rfl
  · next here hhere =>
    have hkept : (here.filter fun s => s.listener ≠ listener).map (·.listener) =
        (r.listenersAt path).filter (· ≠ listener) := by
      rw [listenersAt, hhere, Option.getD_some, List.filter_map]
      rfl
    dsimp only
    by_cases ho : path = other
    · subst ho
      rw [if_pos rfl, ← hkept]
      split
      · next hempty =>
        rw [listenersAt, Members.get?_erase_self _ hr.distinct, List.isEmpty_iff.mp hempty]
        rfl
      · rw [listenersAt, Members.get?_insert_self]
        rfl
    · rw [if_neg ho]
      split
      · rw [listenersAt, Members.get?_erase_of_ne _ (Ne.symm ho), listenersAt]
      · rw [listenersAt, Members.get?_insert_of_ne _ _ (Ne.symm ho), listenersAt]

theorem WellFormed.nodup_listenersAt (hr : r.WellFormed) (path : String) :
    (r.listenersAt path).Nodup := hr.once_get? path

theorem mem_joined : ∀ (new : List ListenerId) {here : List ListenerId},
    listener ∈ joined here new ↔ listener ∈ here ∨ listener ∈ new
  | [], here => by simp [joined]
  | l :: new, here => by
    have first : listener ∈ (if l ∈ here then here else here ++ [l]) ↔
        listener ∈ here ∨ listener = l := by
      split
      · next h => exact ⟨Or.inl, fun h' => h'.elim id fun he => he ▸ h⟩
      · rw [List.mem_append, List.mem_singleton]
    rw [joined, mem_joined new, first, List.mem_cons, or_assoc]

/-! ## One listener -/

/-- The listener is registered at the paths with the property, and does not wait. -/
structure Knows (r : Registry) (listener : ListenerId) (P : String → Prop) : Prop where
  listens : ∀ path, listener ∈ r.listenersAt path ↔ P path
  settled : ∀ s ∈ r.pending, s.listener ≠ listener

variable {P : String → Prop}

theorem listener_mem_add : listener ∈ (r.add path s).listenersAt other ↔
    listener ∈ r.listenersAt other ∨ path = other ∧ listener = s.listener := by
  rw [listenersAt_add]
  split
  · next ho => simp [mem_joined, ho]
  · next ho => simp [ho]

theorem knows_empty : Knows {} listener fun _ => False :=
  ⟨fun _ => iff_of_false List.not_mem_nil id, fun _ hs => absurd hs List.not_mem_nil⟩

theorem Knows.congr {Q : String → Prop} (h : r.Knows listener P) (hPQ : ∀ path, P path ↔ Q path) :
    r.Knows listener Q := ⟨fun path => (h.listens path).trans (hPQ path), h.settled⟩

theorem Knows.join (h : r.Knows listener P) (path query : String) :
    (r.add path { listener, query }).Knows listener fun other => P other ∨ path = other where
  listens other := by
    rw [listener_mem_add, h.listens]
    exact or_congr_right (and_iff_left rfl)
  settled t ht := by
    rw [pending_add] at ht
    exact h.settled t ht

theorem Knows.add (h : r.Knows listener P) (hs : s.listener ≠ listener) :
    (r.add path s).Knows listener P where
  listens other := by
    rw [listener_mem_add, h.listens]
    exact or_iff_left fun hl => hs hl.2.symm
  settled t ht := by
    rw [pending_add] at ht
    exact h.settled t ht

theorem Knows.addPending (h : r.Knows listener P) (hs : s.listener ≠ listener) :
    (r.addPending s).Knows listener P := by
  unfold Registry.addPending
  split
  · exact h
  · refine ⟨h.listens, fun t ht => ?_⟩
    rcases List.mem_append.mp ht with ht | ht
    · exact h.settled t ht
    · rw [List.mem_singleton.mp ht]
      exact hs

theorem Knows.removePending (h : r.Knows listener P) (s : Subscription) :
    (r.removePending s).Knows listener P :=
  ⟨h.listens, fun t ht => h.settled t (List.mem_filter.mp ht).1⟩

theorem Knows.remove (h : r.Knows listener P) (hr : r.WellFormed) {l : ListenerId}
    (hl : l ≠ listener) : (r.remove path l).Knows listener P where
  listens other := by
    rw [hr.listenersAt_remove]
    split
    · rw [List.mem_filter, h.listens]
      exact and_iff_left (by simpa using hl.symm)
    · exact h.listens other
  settled t ht := by
    rw [pending_remove] at ht
    exact h.settled t ht

end LiveJson.Registry

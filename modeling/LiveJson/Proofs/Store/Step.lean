import LiveJson.Proofs.Store.Exact
import LiveJson.Proofs.Store.Surroundings

/-! # Steps of a store

All that ever changes a store, one change at a time, and the stores that are reached by such steps
from an empty one. A policy says which moves there may be. -/

namespace LiveJson.Store

/-- Whether a cell may move from one location to another. -/
abbrev Policy := Path → Path → Prop

def Policy.free : Policy := fun _ _ => True

def Policy.never : Policy := fun _ _ => False

/-- A cell may move to its own location or to one above it. -/
def Policy.upward : Policy := fun source location => location <+: source

inductive Step (A : Policy) (s : Store) : Store → Prop
  | load {document : Json} {t : Store} (hd : document.WellFormed) (h : s.load document = .ok t) :
      Step A s t
  | set {id : CellId} {key : Key} {incoming : Incoming} {edit : Edit} {t : Store}
      (legal : s.Legal incoming)
      (allowed : ∀ {x p}, incoming = .move x → s.place? x = some p → A p edit.location)
      (h : s.set id key incoming = .ok (edit, t)) : Step A s t
  | delete {id : CellId} {key : Key} {removal : Removal} {t : Store}
      (h : s.delete id key = .ok (some (removal, t))) : Step A s t
  | promote : Step A s s.promote
  | subscribe (query : String) (listener : ListenerId) : Step A s (s.subscribe query listener).2
  | unsubscribe (query : String) (listener : ListenerId) :
      Step A s (s.unsubscribe query listener).2
  | origin (origin : Option ListenerId) : Step A s { s with origin }
  | reported : Step A s { s with reloadDue := false }
  | fetching (loading : Bool) : Step A s { s with loading }

inductive Reachable (A : Policy) : Store → Prop
  | empty : Reachable A {}
  | step {s t : Store} (hs : Reachable A s) (h : Step A s t) : Reachable A t

variable {A B : Policy} {s t : Store}

theorem Step.mono (h : Step A s t) (hAB : ∀ p q, A p q → B p q) : Step B s t := by
  cases h with
  | load hd h => exact .load hd h
  | set legal allowed h => exact .set legal (fun hx hp => hAB _ _ (allowed hx hp)) h
  | delete h => exact .delete h
  | promote => exact .promote
  | subscribe query listener => exact .subscribe query listener
  | unsubscribe query listener => exact .unsubscribe query listener
  | origin o => exact .origin o
  | reported => exact .reported
  | fetching loading => exact .fetching loading

theorem Reachable.mono (h : s.Reachable A) (hAB : ∀ p q, A p q → B p q) : s.Reachable B := by
  induction h with
  | empty => exact .empty
  | step _ h ih => exact ih.step (h.mono hAB)

/-! ## Every place of a reachable store is sound -/

theorem Sound.empty : Sound {} where
  wellFormed h := absurd (lt_size_of_content? h) (Nat.not_lt_zero _)
  closed h := absurd h.lt_size (Nat.not_lt_zero _)
  acyclic d h := by
    rcases Relation.TransGen.head'_iff.mp h with ⟨e, hp, -⟩
    exact absurd hp.lt_size (Nat.not_lt_zero _)
  rooted {d} := by simp [place?]
  anchored h := absurd (lt_size_of_place? h) (Nat.not_lt_zero _)

theorem Step.sound (h : Step A s t) (hs : s.Sound) : t.Sound := by
  cases h with
  | load hd h => exact hs.load hd h
  | set legal _ h => exact hs.set legal h
  | delete h => exact hs.delete h
  | promote => exact hs.frame rfl rfl
  | subscribe query listener =>
    obtain ⟨registry, hr⟩ := s.subscribe_frame query listener
    rw [hr]
    exact hs.frame rfl rfl
  | unsubscribe query listener =>
    obtain ⟨registry, hr⟩ := s.unsubscribe_frame query listener
    rw [hr]
    exact hs.frame rfl rfl
  | origin o => exact hs.frame rfl rfl
  | reported => exact hs.frame rfl rfl
  | fetching loading => exact hs.frame rfl rfl

theorem Reachable.sound (h : s.Reachable A) : s.Sound := by
  induction h with
  | empty => exact .empty
  | step _ h ih => exact h.sound ih

theorem Step.alive (h : Step A s t) : t.alive = s.alive := by
  have of_surroundings : t.surroundings = s.surroundings → t.alive = s.alive :=
    fun h => congrArg (fun x => x.2.2.2) h
  cases h with
  | load _ h => exact of_surroundings (surroundings_load h)
  | set _ _ h => exact of_surroundings (surroundings_set h)
  | delete h => exact of_surroundings (surroundings_delete h)
  | promote => rfl
  | subscribe query listener =>
    obtain ⟨registry, hr⟩ := s.subscribe_frame query listener
    rw [hr]
  | unsubscribe query listener =>
    obtain ⟨registry, hr⟩ := s.unsubscribe_frame query listener
    rw [hr]
  | origin _ => rfl
  | reported => rfl
  | fetching _ => rfl

theorem Reachable.alive (h : s.Reachable A) : s.alive = true := by
  induction h with
  | empty => rfl
  | step hs h ih => exact h.alive.trans ih

/-! ## Moving upward keeps one location for each cell -/

theorem Exact.empty : Exact {} := ⟨fun h => absurd (lt_size_of_place? h) (Nat.not_lt_zero _)⟩

theorem Step.exact (h : Step Policy.upward s t) (hs : s.Sound) (he : s.Exact) : t.Exact := by
  cases h with
  | load hd h =>
    obtain ⟨root, u, -, loaded⟩ := hs.load_eq_ok hd h
    exact loaded.exact
  | @set id key incoming edit t legal allowed h =>
    cases incoming with
    | copy value => exact he.set_copy hs legal h
    | move x =>
      obtain ⟨p, hp⟩ := legal
      exact (he.set_move_iff hs hp h).mpr (allowed rfl hp)
  | delete h =>
    obtain ⟨path, key, c, old, v, target, -, -, -, removes⟩ := hs.delete_eq_ok h
    exact removes.exact hs he target
  | promote => exact he.frame rfl
  | subscribe query listener =>
    obtain ⟨registry, hr⟩ := s.subscribe_frame query listener
    rw [hr]
    exact he.frame rfl
  | unsubscribe query listener =>
    obtain ⟨registry, hr⟩ := s.unsubscribe_frame query listener
    rw [hr]
    exact he.frame rfl
  | origin o => exact he.frame rfl
  | reported => exact he.frame rfl
  | fetching loading => exact he.frame rfl

theorem Reachable.exact (h : s.Reachable Policy.upward) : s.Exact := by
  induction h with
  | empty => exact .empty
  | step hs h ih => exact h.exact hs.sound ih

end LiveJson.Store

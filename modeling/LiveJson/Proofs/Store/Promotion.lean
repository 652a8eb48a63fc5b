import LiveJson.Proofs.Store.Listening

/-! # Promotion

Promotion takes all waiting subscriptions out of the registry and puts each back in, either at the
first match of its query or among the waiting ones. None is lost on the way, none comes to be twice,
and none comes from elsewhere. -/

namespace LiveJson

namespace Registry

variable {r : Registry} {s sub : Subscription}

theorem mem_pending_addPending :
    sub ∈ (r.addPending s).pending ↔ sub ∈ r.pending ∨ sub = s := by
  unfold addPending
  split
  · next hs => exact ⟨Or.inl, fun h => h.elim id fun he => he ▸ hs⟩
  · rw [List.mem_append, List.mem_singleton]

end Registry

namespace Store

variable {s t : Store} {sub : Subscription} {query path : String}

/-- The first match of the query in the document is at the location that `path` is the canonical
text of. -/
def FirstFound (s : Store) (query path : String) : Prop :=
  ∃ tree m ms, s.rootTree? = some tree ∧ tree.search query = .ok (m :: ms) ∧
    path = Path.toText m.path

theorem resolve_eq_some_iff : s.resolve query = .ok (some path) ↔ s.FirstFound query path := by
  unfold resolve
  constructor
  · intro h
    split at h
    · cases h
    · next tree htree =>
      obtain ⟨ms, hms, h⟩ := bind_eq_ok.mp h
      obtain ⟨m, hm, hpath⟩ := Option.map_eq_some_iff.mp (Except.ok.inj h)
      obtain ⟨rest, rfl⟩ := List.head?_eq_some_iff.mp hm
      exact ⟨tree, m, rest, htree, hms, hpath.symm⟩
  · rintro ⟨tree, m, ms, htree, hms, rfl⟩
    rw [htree]
    exact bind_eq_ok.mpr ⟨_, hms, rfl⟩

theorem firstFound_frame (hc : t.cells = s.cells) (hr : t.root = s.root) :
    t.FirstFound query path ↔ s.FirstFound query path := by
  rw [← resolve_eq_some_iff, resolve_frame hc hr, resolve_eq_some_iff]

theorem mem_pending_promoteOne {resolved : Except PathError (Option String)} {r : Registry}
    {other : Subscription} : sub ∈ (promoteOne resolved r other).pending ↔
      sub ∈ r.pending ∨ sub = other ∧ ∀ path, resolved ≠ .ok (some path) := by
  unfold promoteOne
  split
  · next path =>
    rw [Registry.pending_add]
    exact ⟨Or.inl, fun h => h.elim id fun hs => absurd rfl (hs.2 path)⟩
  · next hnone =>
    rw [Registry.mem_pending_addPending]
    exact or_congr_right (and_iff_left hnone).symm

/-- After promotion a subscription waits if it has waited before and its query finds nothing, or
fails. -/
theorem mem_pending_promote : sub ∈ s.promote.registry.pending ↔
    sub ∈ s.registry.pending ∧ ∀ path, ¬ s.FirstFound sub.query path := by
  have fold : ∀ (subs : List Subscription) (r : Registry),
      sub ∈ (subs.foldl (fun r sub => promoteOne (s.resolve sub.query) r sub) r).pending ↔
        sub ∈ r.pending ∨ sub ∈ subs ∧ ∀ path, ¬ s.FirstFound sub.query path := by
    intro subs
    induction subs with
    | nil => exact fun r => ⟨Or.inl, fun h => h.elim id fun hs => absurd hs.1 List.not_mem_nil⟩
    | cons other subs ih =>
      intro r
      rw [List.foldl_cons, ih, mem_pending_promoteOne, List.mem_cons, or_assoc, or_and_right]
      refine or_congr_right (or_congr_left (and_congr_right ?_))
      rintro rfl
      exact forall_congr' fun path => not_congr resolve_eq_some_iff
  exact (fold s.registry.pending { s.registry with pending := [] }).trans
    (or_iff_right List.not_mem_nil)

theorem mem_listenersAt_promote {listener : ListenerId} :
    listener ∈ s.promote.registry.listenersAt path ↔ listener ∈ s.registry.listenersAt path ∨
      ∃ sub ∈ s.registry.pending, sub.listener = listener ∧ s.FirstFound sub.query path := by
  rw [promote_listenersAt, Registry.mem_joined, arrivals, List.mem_map]
  refine or_congr_right (exists_congr fun sub => ?_)
  rw [List.mem_filter, decide_eq_true_iff, resolve_eq_some_iff, and_assoc]
  exact and_congr_right fun _ => and_comm

/-- From `s` to `t` no subscription is lost and none is gained: who is registered stays so, who waits
goes on waiting or is registered at the first match of its query, and nobody else is registered or
waits. -/
structure Conserves (s t : Store) : Prop where
  stays : ∀ path, ∀ listener ∈ s.registry.listenersAt path, listener ∈ t.registry.listenersAt path
  arrives : ∀ sub ∈ s.registry.pending, sub ∈ t.registry.pending ∨
    sub ∉ t.registry.pending ∧
      ∃ path, t.FirstFound sub.query path ∧ sub.listener ∈ t.registry.listenersAt path
  registered : ∀ path, ∀ listener ∈ t.registry.listenersAt path,
    listener ∈ s.registry.listenersAt path ∨ ∃ sub ∈ s.registry.pending,
      sub ∉ t.registry.pending ∧ sub.listener = listener ∧ t.FirstFound sub.query path
  waiting : ∀ sub ∈ t.registry.pending, sub ∈ s.registry.pending

/-- Nothing happens to the subscriptions as long as the registry is left alone. -/
theorem conserves_of_registry (h : t.registry = s.registry) : s.Conserves t where
  stays _ _ hl := h ▸ hl
  arrives _ hs := Or.inl (h ▸ hs)
  registered _ _ hl := Or.inl (h ▸ hl)
  waiting _ hs := h ▸ hs

theorem conserves_promote (h : t.registry = s.registry) : s.Conserves t.promote := by
  have first : ∀ {query path}, t.promote.FirstFound query path ↔ t.FirstFound query path :=
    firstFound_frame rfl rfl
  refine ⟨fun path listener hl => ?_, fun sub hs => ?_, fun path listener hl => ?_, fun sub hs => ?_⟩
  · exact mem_listenersAt_promote.mpr (Or.inl (h ▸ hl))
  · rw [← h] at hs
    by_cases found : ∃ path, t.FirstFound sub.query path
    · obtain ⟨path, hpath⟩ := found
      refine Or.inr ⟨fun hw => (mem_pending_promote.mp hw).2 path hpath, path, first.mpr hpath, ?_⟩
      exact mem_listenersAt_promote.mpr (Or.inr ⟨sub, hs, rfl, hpath⟩)
    · exact Or.inl (mem_pending_promote.mpr ⟨hs, not_exists.mp found⟩)
  · rcases mem_listenersAt_promote.mp hl with hl | ⟨sub, hs, hl, hpath⟩
    · exact Or.inl (h ▸ hl)
    · refine Or.inr ⟨sub, h ▸ hs, fun hw => ?_, hl, first.mpr hpath⟩
      exact (mem_pending_promote.mp hw).2 path hpath
  · exact h ▸ (mem_pending_promote.mp hs).1

/-- Whether subscriptions are conserved does not depend on who is behind a write. -/
theorem Conserves.onBehalf (h : s.Conserves t) (origin : Option ListenerId) :
    s.Conserves { t with origin } := by
  have first : ∀ {query path}, FirstFound { t with origin } query path ↔ t.FirstFound query path :=
    firstFound_frame rfl rfl
  refine ⟨h.stays, fun sub hs => (h.arrives sub hs).imp_right ?_,
    fun path listener hl => (h.registered path listener hl).imp_right ?_, h.waiting⟩
  · rintro ⟨hw, path, hpath, hl⟩
    exact ⟨hw, path, first.mpr hpath, hl⟩
  · rintro ⟨sub, hs, hw, hl, hpath⟩
    exact ⟨sub, hs, hw, hl, first.mpr hpath⟩

end Store

end LiveJson

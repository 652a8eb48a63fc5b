import LiveJson.Proofs.Store.Sound

/-! # Clearing a location

Before a location is written or removed, the cell there and all that have their places below it
lose them. Every such cell hangs from the one at the location by cells that lose their places as
well, so forgetting misses none of them, and it touches no other. -/

namespace LiveJson.Store

variable {s t u : Store} {d e x id : CellId} {path location : Path} {k key : Key}

/-- The places of `t` are those of `s` without the ones at the location and below it. -/
structure Cleared (s t : Store) (location : Path) : Prop where
  gone : ∀ {d}, s.Under location d → t.place? d = none
  kept : ∀ {d}, ¬ s.Under location d → t.place? d = s.place? d

theorem Cleared.of_some {p : Path} (h : Cleared s t location) (hd : t.place? d = some p) :
    s.place? d = some p ∧ ¬ location <+: p := by
  by_cases hu : s.Under location d
  · rw [h.gone hu] at hd; cases hd
  · have hp := h.kept hu ▸ hd
    exact ⟨hp, fun hl => hu ⟨p, hp, hl⟩⟩

theorem Cleared.place? {p : Path} (h : Cleared s t location) (hd : s.place? d = some p)
    (hp : ¬ location <+: p) : t.place? d = some p := by
  refine (h.kept fun hu => ?_).trans hd
  obtain ⟨p', hp', hl⟩ := hu
  rw [hd] at hp'
  cases hp'
  exact hp hl

theorem Cleared.of_vacant (h : ∀ d, t.place? d = s.place? d) (hv : ∀ d, ¬ s.Under location d) :
    Cleared s t location := ⟨fun hu => absurd hu (hv _), fun _ => h _⟩

/-- Forgetting the cell at a location, in a store that agrees with `s` on all below it. -/
theorem Sound.gone_forget (hs : s.Sound) (ht : t.Formed) (hx : s.place? x = some location)
    (hbelow : ∀ e, s.Reaches x e → t.content? e = s.content? e ∧ t.place? e = s.place? e)
    (hd : s.Under location d) : (t.forget x location).place? d = none := by
  have hu : ∀ {d}, s.Reaches x d → s.Under location d → t.Under location d :=
    fun hr ⟨p, hp, hl⟩ => ⟨p, (hbelow _ hr).2.trans hp, hl⟩
  obtain ⟨x', hx', hchain⟩ := hs.chain_of_under hd
  obtain rfl := hs.place_unique hx' hx
  refine ht.place?_forget (hu (.refl _ _) ⟨_, hx, List.prefix_refl _⟩) ?_
  suffices h : s.Reaches x' d ∧ Relation.ReflTransGen
      (fun e d => t.Parent e d ∧ t.Under location d) x' d from h.2
  clear hd
  induction hchain with
  | refl => exact ⟨.refl _ _, .refl⟩
  | tail _ he ih =>
    obtain ⟨⟨k, hk⟩, hue⟩ := he
    obtain ⟨hr, hch⟩ := ih
    have hrd := hr.trans hk.reaches
    exact ⟨hrd, hch.tail ⟨⟨k, (holds_congr (hbelow _ hr).1).mpr hk⟩, hu hrd hue⟩⟩

theorem Formed.kept_forget (ht : t.Formed)
    (hbelow : ∀ e, s.Reaches x e → t.content? e = s.content? e ∧ t.place? e = s.place? e)
    (hd : ¬ s.Under location d) : (t.forget x location).place? d = t.place? d := by
  rcases (ht.forgot x location).place d with h | ⟨-, ⟨p, hp, hl⟩, hr⟩
  · exact h
  · rw [reaches_congr fun e he => (hbelow e he).1] at hr
    exact absurd ⟨p, (hbelow d hr).2 ▸ hp, hl⟩ hd

theorem Sound.cleared_forget (hs : s.Sound) (ht : t.Formed) (hplace : ∀ d, t.place? d = s.place? d)
    (hx : s.place? x = some location) (hbelow : ∀ e, s.Reaches x e → t.content? e = s.content? e) :
    Cleared s (t.forget x location) location where
  gone hd := hs.gone_forget ht hx (fun e he => ⟨hbelow e he, hplace e⟩) hd
  kept hd := (ht.kept_forget (fun e he => ⟨hbelow e he, hplace e⟩) hd).trans (hplace _)

end LiveJson.Store

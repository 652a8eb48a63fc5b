import LiveJson.Proofs.Run.Delivery
import LiveJson.Proofs.Run.Report
import LiveJson.Proofs.Store.Promotion

/-! # No subscription is lost

An operation that is not about who listens leaves the registry alone, apart from the promotion that
comes before its report. -/

namespace LiveJson

open Store (Policy)

variable {A : Policy} {u : Universe Journal} {s : Store} {reach : Nat}

namespace Operation

variable {op : Operation} {outcome : Except StoreError Unit} {calls : List Call}

theorem Effect.conserves (h : op.Effect u outcome s calls) (registers : ¬ op.Registers) :
    (u.store op.store).Conserves s := by
  cases h with
  | @loaded k document s h =>
    refine Store.conserves_of_registry ?_
    rw [Store.rest_load h]
    rfl
  | reported h => exact Store.conserves_promote rfl
  | @written op ref key value edit s hop h =>
    rw [store_of_written hop]
    refine Store.conserves_promote ?_
    rw [rest_written h]
  | @removed ref key removal s h =>
    refine Store.conserves_promote ?_
    rw [Store.rest_delete h]
    rfl
  | subscribed => exact absurd trivial registers
  | unsubscribed => exact absurd trivial registers
  | _ => exact Store.conserves_of_registry rfl

/-- Whatever comes of an operation, it conserves the subscriptions of every store. -/
theorem conserves_perform (hu : u.Steady A) (reach : Nat) (registers : ¬ op.Registers)
    (k : StoreId) :
    (u.store k).Conserves (((op.perform (recording reach)).run u).2.store k) := by
  obtain ⟨outcome, s, calls, does⟩ := op.exists_does hu reach
  rw [Universe.store_congr does.stores]
  rcases u.store_setStore_cases op.store (s.onBehalf (u.store op.store).origin) k with h | ⟨rfl, h⟩
  · rw [h]
    exact Store.conserves_of_registry rfl
  · rw [h]
    exact (does.2.conserves registers).onBehalf _

end Operation

namespace Universe

/-- **At every moment of every run, each path that is registered has listeners, each of them once,
and nothing waits twice. Whichever operation on the documents comes next, whether it fails or not,
it conserves the subscriptions if the listeners only record what they are told: who is registered
stays registered, who waits goes on waiting or is registered at the first match of its query in the
document as it then is, and nobody else is registered or waits.** -/
theorem Reached.subscriptions_conserved {w : Universe Journal}
    {react : ListenerId → Change → Client} {reach depth : Nat}
    (h : u.Reached (Client.reacting react reach depth)) (hw : u.Passed w.stores) :
    (∀ k, (w.store k).registry.paths.Nodup ∧
      (∀ path here, (path, here) ∈ (w.store k).registry.registered →
        here ≠ [] ∧ (here.map (·.listener)).Nodup) ∧
      (w.store k).registry.pending.Nodup) ∧
    ∀ op : Operation, ¬ op.Registers → ∀ note k,
      (w.store k).Conserves (((op.perform (recording note)).run w).2.store k) := by
  have stepwise : u.Stepwise Policy.free := h.stepwise_free
  have steady : w.Steady Policy.free := stepwise.seen hw
  refine ⟨fun k => ?_, fun op registers note k => op.conserves_perform steady note registers k⟩
  have registry := (steady k).registry
  exact ⟨registry.distinct, fun path here hmem => ⟨registry.listened hmem, registry.once hmem⟩,
    registry.pending⟩

/-- Two listeners wait for members of the root that are not there yet. -/
def afterWaiting : Universe Journal :=
  afterLoad.after (recording 0) [.subscribe 0 "$.c" 7, .subscribe 0 "$.d" 8]

theorem subscriptions_after_move :
    (afterWaiting.store 0).registry.pending = [⟨7, "$.c"⟩, ⟨8, "$.d"⟩] ∧
    let s := (((nestedMove "c").perform (recording 0)).run afterWaiting).2.store 0
    (s.registry.listenersAt (Path.toText [.name "c"]) = [7] ∧ s.registry.pending = [⟨8, "$.d"⟩]) ∧
      (afterWaiting.store 0).Conserves s := by
  have reached : afterWaiting.Reached (recording 0) :=
    .next (.next reached_afterLoad (.subscribe 0 "$.c" 7)) (.subscribe 0 "$.d" 8)
  exact ⟨rfl, ⟨rfl, rfl⟩, (reached.subscriptions_conserved (.inl rfl)).2 (nestedMove "c") id 0 0⟩

end Universe

end LiveJson

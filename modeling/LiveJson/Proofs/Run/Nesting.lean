import LiveJson.Proofs.Run.Basic
import Mathlib.Data.List.Infix

/-! # Operations within operations

An operation that a listener takes while another is reported begins and ends within that one. So at
every moment of a journal the operations under way form a stack, a notification belongs to the
innermost of them, and the notifications of two operations can only come in another order than the
operations have begun if one of the two is taken within the other. -/

namespace LiveJson

namespace Journal

variable {J n m w v : Journal} {moment : Moment} {past : Journal}

/-- The operations that are under way at the end of a journal, innermost first, each as the journal
up to its beginning. -/
def underway : Journal → List Journal
  | [] => []
  | moment :: past =>
    match moment.event with
    | .began _ => (moment :: past) :: underway past
    | .told .. => underway past
    | .ended .. => (underway past).tail

/-- What is under way began before, and what was under way at its beginning is still so. -/
theorem mem_underway : w ∈ underway J →
    w <:+ J ∧ ∃ op stores past, w = ⟨.began op, stores⟩ :: past := by
  induction J with
  | nil => exact fun h => absurd h List.not_mem_nil
  | cons moment past ih =>
    obtain ⟨event, stores⟩ := moment
    intro h
    cases event with
    | began op =>
      rcases List.mem_cons.mp h with rfl | h
      · exact ⟨List.suffix_refl _, op, stores, past, rfl⟩
      · exact ⟨(ih h).1.trans (List.suffix_cons _ _), (ih h).2⟩
    | told listener change => exact ⟨(ih h).1.trans (List.suffix_cons _ _), (ih h).2⟩
    | ended op outcome =>
      have h := ih (List.mem_of_mem_tail h)
      exact ⟨h.1.trans (List.suffix_cons _ _), h.2⟩

/-- What is under way has been so since it began. -/
theorem mem_underway_of_suffix : ∀ {J : Journal},
    w ∈ J.underway → n <:+ J → w <:+ n → w ∈ n.underway
  | [], h, _, _ => absurd h List.not_mem_nil
  | ⟨event, stores⟩ :: past, h, hn, hw => by
    rcases List.suffix_cons_iff.mp hn with rfl | hpast
    · exact h
    have older : w ∈ underway past → w ∈ n.underway := fun h => mem_underway_of_suffix h hpast hw
    cases event with
    | began op =>
      rcases List.mem_cons.mp h with rfl | h
      · exact absurd (hw.trans hpast).length_le (Nat.not_succ_le_self past.length)
      · exact older h
    | told listener change => exact older h
    | ended op outcome => exact older (List.mem_of_mem_tail h)

/-- What has begun is under way until it has ended. -/
theorem mem_underway_or_ended {op : Operation} {stores : Array Store} : ∀ {J : Journal},
    ⟨.began op, stores⟩ :: past <:+ J → (⟨.began op, stores⟩ :: past) ∈ J.underway ∨
      ∃ op' outcome stores' past', ⟨.ended op' outcome, stores'⟩ :: past' <:+ J ∧
        (underway past').head? = some (⟨.began op, stores⟩ :: past)
  | [], h => absurd h.length_le (Nat.not_succ_le_zero _)
  | ⟨event, now⟩ :: recent, h => by
    rcases List.suffix_cons_iff.mp h with heq | h
    · cases heq
      exact .inl List.mem_cons_self
    rcases mem_underway_or_ended h with hunder | ⟨op', outcome, stores', past', hpast', hhead⟩
    · cases event with
      | began other => exact .inl (List.mem_cons_of_mem _ hunder)
      | told listener change => exact .inl hunder
      | ended other outcome =>
        cases hrecent : underway recent with
        | nil =>
          rw [hrecent] at hunder
          cases hunder
        | cons top below =>
          rw [hrecent] at hunder
          rcases List.mem_cons.mp hunder with rfl | hbelow
          · exact .inr ⟨other, outcome, now, recent, List.suffix_refl _, by rw [hrecent]; rfl⟩
          · refine .inl ?_
            show _ ∈ (underway recent).tail
            rw [hrecent]
            exact hbelow
    · exact .inr ⟨op', outcome, stores', past', hpast'.trans (List.suffix_cons _ _), hhead⟩

/-- Below an operation in the stack is what was under way when it began. -/
theorem underway_eq_cons : ∀ {J : Journal} {rest : List Journal}, J.underway = w :: rest →
    ∃ moment past, w = moment :: past ∧ underway past = rest := by
  intro J
  induction h : J.length using Nat.strong_induction_on generalizing J w with
  | _ length ih =>
    intro rest hJ
    match J with
    | [] => cases hJ
    | ⟨event, stores⟩ :: past =>
      have shorter : past.length < length := h ▸ Nat.lt_succ_self _
      cases event with
      | began op =>
        cases hJ
        exact ⟨_, past, rfl, rfl⟩
      | told listener change => exact ih _ shorter rfl hJ
      | ended op outcome =>
        -- The operation that has ended is on top of the others until then.
        change (underway past).tail = w :: rest at hJ
        cases hpast : underway past with
        | nil =>
          rw [hpast] at hJ
          cases hJ
        | cons top below =>
          obtain ⟨moment, earlier, rfl, hearlier⟩ := ih _ shorter rfl hpast
          have hlength := (mem_underway (hpast ▸ List.mem_cons_self)).1.length_le
          rw [hpast, List.tail_cons, ← hearlier] at hJ
          exact ih earlier.length (Nat.lt_of_lt_of_le (Nat.lt_succ_self _)
            (hlength.trans shorter.le)) rfl hJ

/-- Whatever else is under way began before the innermost operation. -/
theorem suffix_of_mem_underway (h : J.underway.head? = some w) (hv : v ∈ J.underway) :
    v = w ∨ v <:+ w.tail := by
  obtain ⟨rest, hJ⟩ := List.head?_eq_some_iff.mp h
  obtain ⟨moment, past, rfl, rfl⟩ := underway_eq_cons hJ
  rw [hJ] at hv
  exact (List.mem_cons.mp hv).imp_right fun hv => (mem_underway hv).1

/-- The last moment of the journal is one at which a listener is told of a change, by the report of
the operation that began with `w`. -/
def Tells (n w : Journal) (listener : ListenerId) (change : Change) : Prop :=
  ∃ stores past, n = ⟨.told listener change, stores⟩ :: past ∧ (underway past).head? = some w

variable {l l' : ListenerId} {c c' : Change}

theorem Tells.began (h : n.Tells w l c) : ∃ op stores past, w = ⟨.began op, stores⟩ :: past := by
  obtain ⟨stores, past, rfl, hhead⟩ := h
  exact (mem_underway (List.mem_of_mem_head? hhead)).2

theorem Tells.ne_nil (h : n.Tells w l c) : n ≠ [] := by
  obtain ⟨stores, past, rfl, -⟩ := h
  exact List.cons_ne_nil _ _

theorem Tells.suffix_tail (h : n.Tells w l c) : w <:+ n.tail := by
  obtain ⟨stores, past, rfl, hhead⟩ := h
  exact (mem_underway (List.mem_of_mem_head? hhead)).1

/-- Of two parts of a journal that do not end with the same moment, one ends before the other does.
-/
theorem suffix_tail_or (hn : n <:+ J) (hm : m <:+ J) : n = m ∨ n <:+ m.tail ∨ m <:+ n.tail := by
  have strict : ∀ {x y : Journal}, x <:+ y → x = y ∨ x <:+ y.tail := by
    intro x y h
    cases y with
    | nil => exact .inl (List.suffix_nil.mp h)
    | cons moment past => exact List.suffix_cons_iff.mp h
  rcases List.suffix_or_suffix_of_suffix hn hm with h | h
  · exact (strict h).imp_right .inl
  · exact (strict h).elim (fun heq => .inl heq.symm) fun h => .inr (.inr h)

/-- The notifications of two operations come in the order in which the operations have begun, unless
the later operation was taken within the earlier one: then the earlier one is told of either before
the later one begins, or after the last notification of it. -/
theorem Tells.order (hn : n.Tells w l c) (hm : m.Tells v l' c') (hnJ : n <:+ J) (hmJ : m <:+ J)
    (hwv : w <:+ v.tail) :
    n <:+ v.tail ∨ w ∈ underway v.tail ∧ m <:+ n.tail := by
  obtain ⟨op, stores, before, rfl⟩ := hm.began
  have hvm := hm.suffix_tail
  obtain ⟨stores₁, past, rfl, hhead⟩ := hn
  obtain ⟨stores₂, past', rfl, hhead'⟩ := hm
  have hvJ : ⟨.began op, stores⟩ :: before <:+ J := hvm.trans ((List.suffix_cons _ _).trans hmJ)
  rcases suffix_tail_or hnJ hvJ with heq | hnv | hvn
  · cases heq
  · exact .inl hnv
  -- Now the first notification is made after the second operation has begun.
  refine .inr ⟨?_, ?_⟩
  · have hpast := (List.suffix_cons _ _).trans hvn
    exact mem_underway_of_suffix (List.mem_of_mem_head? hhead) hpast hwv
  rcases suffix_tail_or hnJ hmJ with heq | hnm | hmn
  · cases heq
    cases hhead.symm.trans hhead'
    exact absurd hwv.length_le (Nat.not_succ_le_self _)
  · have hv := mem_underway_of_suffix (List.mem_of_mem_head? hhead')
      ((List.suffix_cons _ _).trans hnm) hvn
    -- It would be under way then, and not be the innermost.
    rcases suffix_of_mem_underway hhead hv with heq | hvw
    · rw [← heq] at hwv
      exact absurd hwv.length_le (Nat.not_succ_le_self _)
    · have hlength := (hvw.trans (List.tail_suffix _)).length_le.trans hwv.length_le
      exact absurd hlength (Nat.not_succ_le_self _)
  · exact hmn

end Journal

end LiveJson

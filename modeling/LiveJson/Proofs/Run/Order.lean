import Mathlib
import LiveJson.Proofs.Run.Faithful

/-! # In which order listeners hear of writes

A write that a listener makes while an earlier one is reported is reported itself before the earlier
one goes on. So whoever the earlier write has not told yet hears of the later one first, and in no
other way are two writes told in another order than they took effect in. A listener at a location
that is only written directly has last been told what the location holds, unless that was the later
of two notifications that came so. -/

namespace LiveJson

open Universe (seen)

variable {react : ListenerId → Change → Client} {u : Universe Journal} {k : StoreId}
  {location : Path} {l : ListenerId} {op : Operation} {J n m w v past : Journal} {c c' : Change}

namespace Operation

theorem getLast?_keyAt {s : Store} {id : CellId} {key : Key} (harray : s.isArray id = false)
    (hkey : s.keyAt id key = .ok location) : location.getLast? = some (.name key.toName) := by
  obtain ⟨path, -, hkey⟩ := bind_eq_ok.mp hkey
  rw [Store.normalize, harray, if_neg Bool.false_ne_true] at hkey
  cases hkey
  exact List.getLast?_concat

/-- What a write tells of at its location is what it has put there. -/
theorem Tells.new_eq {σ : Type} {before after : Universe σ} (tells : op.Tells before after c)
    (writes : op.WritesAt before k location) (hpath : c.path = location.toText) :
    c.new = (after.store k).nodeAt k location := by
  obtain ⟨writes, aim, haim, rfl⟩ := writes
  -- An array element that is removed is no member, which is what a removal writes at.
  have noElement : ∀ {ref : CellRef} {key : Key} {array : Path} {i : Nat},
      (Operation.delete ref key).Writes before →
      (before.store ref.store).keyAt ref.cell key ≠ .ok (array ++ [.index i]) := by
    intro ref key array i writes hkey
    have hlast := getLast?_keyAt writes.1 hkey
    rw [List.getLast?_concat] at hlast
    cases hlast
  cases tells with
  | written _ haim' =>
    cases haim.symm.trans haim'
    rfl
  | lost _ haim' hlost =>
    cases haim.symm.trans haim'
    obtain ⟨-, -, below, hne, hpath'⟩ := hlost
    have hlength := congrArg List.length (Path.toText_eq_iff.mp (hpath'.symm.trans hpath))
    have hpos := List.length_pos_iff.mpr hne
    rw [List.length_map, List.length_map, List.length_append] at hlength
    omega
  | removed hkey => exact absurd hkey (noElement writes)
  | shifted hkey => exact absurd hkey (noElement writes)
  | loaded => exact writes.elim

end Operation

namespace Journal

/-- The stores at the last moment of the journal. -/
def stores : Journal → Array Store
  | [] => #[]
  | moment :: _ => moment.stores

/-- What a location holds at the last moment of the journal. -/
def holds (journal : Journal) (k : StoreId) (location : Path) : Option Node :=
  ((seen journal.stores).store k).nodeAt k location

/-- The last moment of the journal begins an operation that is to write at the location. -/
def WritesAt (journal : Journal) (k : StoreId) (location : Path) : Prop :=
  ∃ op, journal.operation? = some op ∧ op.WritesAt (seen journal.stores) k location

/-- The listener is registered at the location at the last moment of the journal. -/
def Listens (journal : Journal) (l : ListenerId) (k : StoreId) (location : Path) : Prop :=
  l ∈ ((seen journal.stores).store k).registry.listenersAt location.toText

/-- The last moment of `n` tells a listener of the write at the location that began with `w`. -/
structure TellsWrite (n w : Journal) (l : ListenerId) (k : StoreId) (location : Path) (c : Change) :
    Prop where
  tells : n.Tells w l c
  writes : w.WritesAt k location
  path : c.path = location.toText

/-- No change that has begun names a listener. -/
def Anonymous (journal : Journal) : Prop :=
  ∀ moment ∈ journal, ∀ k path value origin,
    moment.event = .began (.change k path value origin) → origin = none

/-- Since `w` what the location holds has changed only as operations began that write there. -/
def WrittenDirectly (journal : Journal) (k : StoreId) (location : Path) (w : Journal) : Prop :=
  ∀ moment past, (moment :: past) <:+ journal → w <:+ past →
    holds (moment :: past) k location ≠ holds past k location → WritesAt past k location

theorem operation?_eq_some (h : w.operation? = some op) : ∃ before earlier,
    w = op.outset before earlier := by
  match w, h with
  | ⟨.began _, before⟩ :: earlier, rfl => exact ⟨before, earlier, rfl⟩

/-- Two journals that go on one are the same if they are of the same length. -/
theorem eq_of_suffix {moment moment' : Moment} (h : (moment :: w) <:+ J)
    (h' : (moment' :: w) <:+ J) : moment = moment' := by
  have heq : moment :: w = moment' :: w :=
    (List.suffix_of_suffix_length_le h h' (Nat.le_refl _)).eq_of_length rfl
  exact (List.cons.inj heq).1

theorem event_drop {moment : Moment} {i : Nat} (h : J.drop i = moment :: past) :
    (J.map Moment.event)[i]? = some moment.event := by
  rw [List.getElem?_map, ← List.head?_drop, h]
  rfl

theorem tells_drop {i : Nat} (hevent : (J.map Moment.event)[i]? = some (.told l c))
    (hw : (underway (J.drop (i + 1))).head? = some w) : Tells (J.drop i) w l c := by
  rw [List.getElem?_map, Option.map_eq_some_iff] at hevent
  obtain ⟨⟨event, stores⟩, hmoment, rfl⟩ := hevent
  obtain ⟨hi, hmoment⟩ := List.getElem?_eq_some_iff.mp hmoment
  exact ⟨stores, J.drop (i + 1), by rw [← hmoment, List.drop_eq_getElem_cons hi], hw⟩

theorem exists_drop (h : n <:+ J) : ∃ i, n = J.drop i :=
  ⟨J.length - n.length, List.suffix_iff_eq_drop.mp h⟩

theorem Anonymous.behind (h : J.Anonymous) (k : StoreId) : J.behind k = none := by
  have names : ∀ op ∈ operations J.underway, ∀ origin,
      op.names? k = some origin → origin = none := by
    intro op hop origin hnames
    obtain ⟨w, hw, hop⟩ := List.mem_filterMap.mp hop
    obtain ⟨before, earlier, rfl⟩ := operation?_eq_some hop
    have hmoment := (mem_underway hw).1.subset List.mem_cons_self
    cases op with
    | change j path value other =>
      rw [Operation.names?] at hnames
      split at hnames
      · cases hnames
        exact h _ hmoment _ path value _ rfl
      · cases hnames
    | _ => cases hnames
  rw [behind_eq rfl, Operation.innermost]
  cases hfound : (operations J.underway).findSome? (Operation.names? k) with
  | none => rfl
  | some origin =>
    obtain ⟨op, hop, hnames⟩ := List.exists_of_findSome?_eq_some hfound
    exact names op hop origin hnames

/-- A location that is only written directly, by writes that change nothing, holds what it held. -/
theorem WrittenDirectly.holds_eq {next : Moment} (direct : J.WrittenDirectly k location w)
    (idle : ∀ v : Journal, v <:+ J → w <:+ v.tail → v.WritesAt k location →
      ∀ moment, (moment :: v) <:+ J → holds (moment :: v) k location = v.holds k location) :
    ∀ {n : Journal}, n <:+ J → (next :: w) <:+ n → n.holds k location = holds (next :: w) k location
  | [], _, hw => absurd hw.length_le (Nat.not_succ_le_zero _)
  | moment :: past, hn, hw => by
    rcases List.suffix_cons_iff.mp hw with heq | hw
    · rw [heq]
    have hpast := (List.suffix_cons _ _).trans hn
    rw [← direct.holds_eq idle hpast hw]
    by_contra hne
    have hwpast : w <:+ past.tail := by
      obtain ⟨recent, rfl⟩ := hw
      cases recent with
      | nil => exact List.suffix_refl _
      | cons _ recent => exact (List.suffix_cons _ _).trans (List.suffix_append _ _)
    have writes := direct moment past hn ((List.suffix_cons _ _).trans hw) hne
    exact hne (idle past hpast hwpast writes moment hn)

end Journal

open Journal (Anonymous)

namespace Universe

/-- Notifications come in the order of the operations that they tell of, save around nested ones. -/
structure TellsInOrder (u : Universe Journal) : Prop where
  /-- Every notification tells of what an operation had done by the moment after it began. -/
  attributed : ∀ (stores : Array Store) (past : Journal) (l : ListenerId) (c : Change),
    (⟨.told l c, stores⟩ :: past) <:+ u.memory → ∃ (op : Operation) (w : Journal) (next : Moment),
      Journal.Tells (⟨.told l c, stores⟩ :: past) w l c ∧ w.operation? = some op ∧
        (next :: w) <:+ (⟨.told l c, stores⟩ :: past) ∧
          op.Tells (seen w.stores) (seen next.stores) c
  /-- Of two operations the one that took effect first is told first, unless the other was taken
  while it was reported: then all that is still to be told of it comes after all that is told of the
  other. -/
  ordered : ∀ (n m w v : Journal) (l l' : ListenerId) (c c' : Change),
    n <:+ u.memory → m <:+ u.memory → n.Tells w l c → m.Tells v l' c' → w <:+ v.tail →
      n <:+ v.tail ∨ w ∈ Journal.underway v.tail ∧ m <:+ n.tail
  /-- If since a write at a location this was only written directly and a listener listened there,
  and has heard of no write there after that one, it has been told what the location holds in the
  end, unless another write there was taken while that one was reported and before it was told. -/
  settled : ∀ (n w : Journal) (l : ListenerId) (k : StoreId) (location : Path) (c : Change),
    n <:+ u.memory → n.TellsWrite w l k location c →
      (∀ (m v : Journal) (c' : Change), m <:+ u.memory → m.TellsWrite v l k location c' → m <:+ n) →
      Journal.WrittenDirectly u.memory k location w →
      (∀ v : Journal, v <:+ u.memory → w <:+ v.tail → v.WritesAt k location →
        v.Listens l k location) →
        c.new = (u.store k).nodeAt k location ∨
          ∃ v : Journal, v <:+ n.tail ∧ v.WritesAt k location ∧ w ∈ Journal.underway v.tail

section
variable {note depth : Nat} (h : u.Reached (Client.reacting react note depth))
include h

/-- A write is told to whoever listens at its location, or it was refused and changed nothing. -/
theorem Reached.told_or_refused (anonymous : u.memory.Anonymous)
    (tolerant : ∀ id change, (react id change).Tolerant) (hv : v <:+ u.memory)
    (writes : v.WritesAt k location) (hl : v.Listens l k location) :
    (∃ (m : Journal) (c : Change), m <:+ u.memory ∧ m.TellsWrite v l k location c) ∨
      ∃ moment, (moment :: v) <:+ u.memory ∧ moment.stores = v.stores := by
  have hwrites := writes
  obtain ⟨op, hop, writes⟩ := writes
  obtain ⟨before, earlier, rfl⟩ := Journal.operation?_eq_some hop
  rcases Journal.mem_underway_or_ended hv with hunder | ⟨op', outcome, stores, past, hpast, hhead⟩
  · rw [h.amid.underway] at hunder
    cases hunder
  obtain ⟨before', earlier', hhead', concludes⟩ := h.amid.faithful _ _ hpast
  cases hhead.symm.trans hhead'
  cases outcome with
  | ok =>
    have nobody : Journal.Anonymous past := fun moment hm =>
      anonymous moment (hpast.subset (List.mem_cons_of_mem _ hm))
    obtain ⟨m, c, hm, tells, hpath⟩ :=
      concludes k location writes l hl (by rw [Anonymous.behind nobody]; nofun)
    exact .inl ⟨m, c, hm.trans ((List.suffix_cons _ _).trans hpast), tells, hwrites, hpath⟩
  | error e =>
    have registers : ¬ op.Registers := fun registers => by
      cases op with
      | subscribe | unsubscribe => exact writes.1
      | _ => exact registers
    cases concludes tolerant registers
    exact .inr ⟨_, hpast, rfl⟩

/-- When the last operation has ended, the stores are as they were then. -/
theorem Reached.stores_eq (hn : n <:+ u.memory) (hne : n ≠ []) : u.memory.stores = u.stores := by
  cases h with
  | start count => exact absurd (List.suffix_nil.mp hn) hne
  | next h op => rfl

theorem Reached.attributed {stores : Array Store}
    (hn : (⟨.told l c, stores⟩ :: past) <:+ u.memory) :
    ∃ (op : Operation) (w : Journal) (next : Moment),
      Journal.Tells (⟨.told l c, stores⟩ :: past) w l c ∧ w.operation? = some op ∧
        (next :: w) <:+ (⟨.told l c, stores⟩ :: past) ∧
          op.Tells (seen w.stores) (seen next.stores) c := by
  obtain ⟨op, before, earlier, hhead, -, next, hnext, tells⟩ := h.amid.faithful _ _ hn
  exact ⟨op, _, next, ⟨stores, past, rfl, hhead⟩, rfl, hnext, tells⟩

/-- What a write is told to have put at its location was there by the moment after it began. -/
theorem Reached.exists_new_eq (hn : n <:+ u.memory) (told : n.TellsWrite w l k location c) :
    ∃ next, (next :: w) <:+ n ∧ c.new = Journal.holds (next :: w) k location := by
  obtain ⟨⟨stores, past, rfl, hhead⟩, ⟨op, hop, writes⟩, hpath⟩ := told
  obtain ⟨op', w', next, ⟨stores', past', heq, hhead'⟩, hop', hnext, tells⟩ := h.attributed hn
  cases heq
  cases hhead.symm.trans hhead'
  cases hop.symm.trans hop'
  exact ⟨next, hnext, tells.new_eq writes hpath⟩

/-- If a listener has heard of no later write at a location, such a write has changed nothing there,
or it was taken while the one that it heard of last was reported and had not reached it. -/
theorem Reached.nested_or_unchanged (anonymous : u.memory.Anonymous)
    (tolerant : ∀ id change, (react id change).Tolerant) (hn : n <:+ u.memory)
    (told : n.TellsWrite w l k location c)
    (last : ∀ (m v : Journal) (c' : Change), m <:+ u.memory → m.TellsWrite v l k location c' →
      m <:+ n)
    (hv : v <:+ u.memory) (hwv : w <:+ v.tail) (writes : v.WritesAt k location)
    (hl : v.Listens l k location) :
    (v <:+ n.tail ∧ w ∈ Journal.underway v.tail) ∨ ∀ moment, (moment :: v) <:+ u.memory →
      Journal.holds (moment :: v) k location = v.holds k location := by
  rcases h.told_or_refused anonymous tolerant hv writes hl with
    ⟨m, c', hm, told'⟩ | ⟨ended, hended, hstores⟩
  · have hmn := last m v c' hm told'
    have hvm := told'.tells.suffix_tail
    rcases told.tells.order told'.tells hn hm hwv with hbefore | ⟨hunder, hafter⟩
    · -- The last notification would have been made before this write began.
      have hmtail := hmn.trans (hbefore.trans ((List.tail_suffix _).trans hvm))
      obtain ⟨stores, past, rfl, -⟩ := told'.tells
      exact absurd hmtail.length_le (Nat.not_succ_le_self _)
    · exact .inl ⟨hvm.trans ((List.tail_suffix _).trans hafter), hunder⟩
  · refine .inr fun moment hmoment => ?_
    rw [Journal.eq_of_suffix hmoment hended]
    show Store.nodeAt ((seen ended.stores).store k) k location = _
    rw [hstores]
    rfl

/-- **In every run without failing listeners and without anybody behind a write, however writes are
nested in notifications: every notification tells of what an operation had done when it began; two
operations are told in the order in which they took effect, except that what is still to be told of
one when a listener takes the other is told after all that is told of the other; and what a listener
at a location was last told of a write there is what the location holds, if this was only written
directly since and the listener went on listening, except if another write there was taken while
that last one was reported and before the listener was told of it.** -/
theorem Reached.tellsInOrder (anonymous : u.memory.Anonymous)
    (tolerant : ∀ id change, (react id change).Tolerant) : u.TellsInOrder where
  attributed _ _ _ _ hn := h.attributed hn
  ordered _ _ _ _ _ _ _ _ hn hm tells tells' hwv := tells.order tells' hn hm hwv
  settled n w l k location c hn told last direct listens := by
    refine or_iff_not_imp_right.mpr fun nested => ?_
    obtain ⟨next, hnext, hnew⟩ := h.exists_new_eq hn told
    have idle : ∀ v : Journal, v <:+ u.memory → w <:+ v.tail → v.WritesAt k location →
        ∀ moment, (moment :: v) <:+ u.memory →
          Journal.holds (moment :: v) k location = v.holds k location := by
      intro v hv hwv writes
      refine (h.nested_or_unchanged anonymous tolerant hn told last hv hwv writes
        (listens v hv hwv writes)).resolve_left fun ⟨hvn, hunder⟩ => ?_
      exact nested ⟨v, hvn, writes, hunder⟩
    have hstores := h.stores_eq hn told.tells.ne_nil
    rw [hnew, ← direct.holds_eq idle (List.suffix_refl _) (hnext.trans hn), Journal.holds, hstores]
    rfl

end

/-- Writes `null` to the member `a` of the root. -/
def nullWrite : Operation := .set ⟨0, 0⟩ (.name "a") (.plain ⟨.null, trivial⟩)

/-- Writes `true` there. -/
def trueWrite : Operation := .set ⟨0, 0⟩ (.name "a") (.plain ⟨.bool true, trivial⟩)

/-- Listener `7` overwrites whatever it is told of; all others take note. -/
def overwrite (id : ListenerId) (_ : Change) : Client :=
  if id = 7 then .take trueWrite .done else .done

/-- Both listeners listen to the member, which is then written. -/
def afterRace : Universe Journal :=
  (start 1).after (Client.reacting overwrite 0 1)
    [.load 0 .empty, .subscribe 0 "$.a" 7, .subscribe 0 "$.a" 8, nullWrite]

theorem reached_afterRace : afterRace.Reached (Client.reacting overwrite 0 1) :=
  .next (.next (.next (.next (.start 1) _) _) _) _

theorem events_afterRace : afterRace.memory.map Moment.event =
    [.ended nullWrite (.ok ()), .told 8 ⟨.set, "$['a']", none, some (.plain .null)⟩,
      .ended trueWrite (.ok ()),
      .told 8 ⟨.set, "$['a']", some (.plain .null), some (.plain (.bool true))⟩,
      .told 7 ⟨.set, "$['a']", some (.plain .null), some (.plain (.bool true))⟩, .began trueWrite,
      .told 7 ⟨.set, "$['a']", none, some (.plain .null)⟩, .began nullWrite,
      .ended (.subscribe 0 "$.a" 8) (.ok ()), .began (.subscribe 0 "$.a" 8),
      .ended (.subscribe 0 "$.a" 7) (.ok ()), .began (.subscribe 0 "$.a" 7),
      .ended (.load 0 .empty) (.ok ()), .began (.load 0 .empty)] := by
  cbv

theorem anonymous_afterRace : afterRace.memory.Anonymous := by
  intro moment hm k path value origin hevent
  have hmem := List.mem_map_of_mem (f := Moment.event) hm
  rw [events_afterRace, hevent] at hmem
  simp [nullWrite, trueWrite] at hmem

theorem tolerant_overwrite (id : ListenerId) (change : Change) :
    (overwrite id change).Tolerant := by
  unfold overwrite
  split <;> trivial

theorem writesAt_afterRace : Journal.WritesAt (afterRace.memory.drop 5) 0 [.name "a"] :=
  ⟨trueWrite, by cbv, trivial, ⟨.set, [.name "a"], none⟩, by cbv, rfl⟩

/-- The last that listener `7` hears is what the member holds. -/
theorem heard_last_of_race : ∃ c,
    Journal.TellsWrite (afterRace.memory.drop 4) (afterRace.memory.drop 5) 7 0 [.name "a"] c ∧
      c.new = some (.plain (.bool true)) ∧ c.new = (afterRace.store 0).nodeAt 0 [.name "a"] := by
  have told : Journal.TellsWrite (afterRace.memory.drop 4) (afterRace.memory.drop 5) 7 0 [.name "a"]
      ⟨.set, "$['a']", some (.plain .null), some (.plain (.bool true))⟩ :=
    ⟨Journal.tells_drop (by rw [events_afterRace]; rfl) (by cbv), writesAt_afterRace, by cbv⟩
  have hlength : afterRace.memory.length = 14 := by
    rw [← List.length_map Moment.event, events_afterRace]
    rfl
  -- After the second write nothing begins, and what is told is told to the other listener.
  have idle : ∀ i < 5, ∀ op, (afterRace.memory.map Moment.event)[i]? ≠ some (.began op) := by
    intro i hi op hevent
    rw [events_afterRace] at hevent
    interval_cases i <;> cases hevent
  have held : ∀ i < 5, Journal.holds (afterRace.memory.drop i) 0 [.name "a"] =
      some (.plain (.bool true)) := by
    intro i hi
    interval_cases i <;> cbv
  have others : ∀ i < 4, ∀ c, (afterRace.memory.map Moment.event)[i]? ≠ some (.told 7 c) := by
    intro i hi c hevent
    rw [events_afterRace] at hevent
    interval_cases i <;> cases hevent
  have inOrder := reached_afterRace.tellsInOrder anonymous_afterRace tolerant_overwrite
  refine ⟨_, told, rfl, ?_⟩
  refine (inOrder.settled _ _ 7 0 [.name "a"] _ (List.drop_suffix _ _) told
    ?_ ?_ ?_).resolve_right ?_
  · intro m v c' hm told'
    obtain ⟨i, rfl⟩ := Journal.exists_drop hm
    obtain ⟨stores, past, hdrop, -⟩ := told'.tells
    by_contra hne
    refine others i (Nat.lt_of_not_le fun hi => hne ?_) c' (Journal.event_drop hdrop)
    exact List.drop_suffix_drop_left _ hi
  · intro moment past hm hw hne
    obtain ⟨i, hi⟩ := Journal.exists_drop hm
    have hpast : past = afterRace.memory.drop (i + 1) := by
      rw [← List.tail_drop, ← hi, List.tail_cons]
    have hle := hw.length_le
    rw [hpast] at hle ⊢
    simp only [List.length_drop, hlength] at hle
    rcases Nat.lt_or_ge (i + 1) 5 with hlt | hge
    · refine absurd ?_ hne
      rw [hi, hpast, held i (by omega), held (i + 1) hlt]
    · obtain rfl : i = 4 := by omega
      exact writesAt_afterRace
  · intro v hv hw writes
    obtain ⟨i, rfl⟩ := Journal.exists_drop hv
    obtain ⟨op, hop, -⟩ := writes
    obtain ⟨before, earlier, hdrop⟩ := Journal.operation?_eq_some hop
    have hle := hw.length_le
    simp only [List.length_tail, List.length_drop, hlength] at hle
    exact absurd (Journal.event_drop hdrop) (idle i (by omega) op)
  · rintro ⟨v, hv, -, hunder⟩
    have hle := hv.length_le
    have hlt := (Journal.mem_underway hunder).1.length_le
    simp only [List.length_tail, List.length_drop, hlength] at hle hlt
    omega

/-- Listener `8` hears of `true` before it hears of `null`, which was written first, and is left
with `null` where the member holds `true`. -/
theorem heard_out_of_order :
    afterRace.Reached (Client.reacting overwrite 0 1) ∧ afterRace.memory.Anonymous ∧
    (∀ id change, (overwrite id change).Tolerant) ∧
    (∃ n m w v : Journal, n <:+ afterRace.memory ∧ m <:+ afterRace.memory ∧
      n.Tells w 8 ⟨.set, "$['a']", none, some (.plain .null)⟩ ∧
      m.Tells v 8 ⟨.set, "$['a']", some (.plain .null), some (.plain (.bool true))⟩ ∧
      w <:+ v.tail ∧ m <:+ n.tail) ∧
    (afterRace.memory.map Moment.event).take 2 =
      [.ended nullWrite (.ok ()), .told 8 ⟨.set, "$['a']", none, some (.plain .null)⟩] ∧
    (afterRace.store 0).nodeAt 0 [.name "a"] = some (.plain (.bool true)) := by
  refine ⟨reached_afterRace, anonymous_afterRace, tolerant_overwrite, ?_, ?_, ?_⟩
  · refine ⟨afterRace.memory.drop 1, afterRace.memory.drop 3, afterRace.memory.drop 7,
      afterRace.memory.drop 5, List.drop_suffix _ _, List.drop_suffix _ _, ?_, ?_, ?_, ?_⟩
    · exact Journal.tells_drop (by rw [events_afterRace]; rfl) (by cbv)
    · exact Journal.tells_drop (by rw [events_afterRace]; rfl) (by cbv)
    · rw [List.tail_drop]
      exact List.drop_suffix_drop_left _ (by decide)
    · rw [List.tail_drop]
      exact List.drop_suffix_drop_left _ (by decide)
  · rw [events_afterRace]
    rfl
  · cbv

end Universe

end LiveJson

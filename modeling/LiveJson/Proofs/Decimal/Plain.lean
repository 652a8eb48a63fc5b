import LiveJson.Proofs.Decimal.Shortest
import LiveJson.Proofs.Json.Named

/-! # The text of a number reads back

A number in an expression is printed with the digits of its shortest decimal around a point. Read
again, the digits give the decimal, and the decimal gives the number. -/

namespace LiveJson.Decimal

variable {cs ds fs : List Char} {c : Char} {x : Float} {m : Nat} {q : Int} {tie : Tie}

/-! ## Numerals -/

/-- Digits, and perhaps a point with more digits behind it. -/
inductive Numeral : List Char → Prop
  | whole {ds : List Char} (hne : ds ≠ []) (h : ∀ c ∈ ds, isDigit c = true) : Numeral ds
  | fraction {ds fs : List Char} (hne : ds ≠ []) (h : ∀ c ∈ ds, isDigit c = true) (hne' : fs ≠ [])
      (h' : ∀ c ∈ fs, isDigit c = true) : Numeral (ds ++ '.' :: fs)

theorem Numeral.head (h : Numeral cs) : ∃ c ds, cs = c :: ds ∧ isDigit c = true := by
  cases h with
  | whole hne hds =>
    obtain ⟨c, ds, rfl⟩ := List.exists_cons_of_ne_nil hne
    exact ⟨c, ds, rfl, hds c List.mem_cons_self⟩
  | fraction hne hds =>
    obtain ⟨c, ds, rfl⟩ := List.exists_cons_of_ne_nil hne
    exact ⟨c, _, rfl, hds c List.mem_cons_self⟩

theorem ofDigits_append (cs ds : List Char) :
    ofDigits (cs ++ ds) = 10 ^ ds.length * ofDigits cs + ofDigits ds :=
  (Nat.ofDigitChars_append 0).trans Nat.ofDigitChars_eq_ofDigitChars_zero

theorem ofDigits_replicate_zero (n : Nat) : ofDigits (List.replicate n '0') = 0 :=
  Nat.ofDigitChars_replicate_zero

theorem readUnsigned_whole (hne : ds ≠ []) (hds : ∀ c ∈ ds, isDigit c = true) :
    readUnsigned ds = some (ofDecimal (ofDigits ds) 0) := by
  have htake : ds.takeWhile isDigit = ds := List.takeWhile_eq_self_iff.mpr hds
  have hdrop : ds.dropWhile isDigit = [] := List.dropWhile_eq_nil_iff.mpr hds
  unfold readUnsigned
  simp [htake, hdrop, hne]

theorem readUnsigned_fraction (hne : ds ≠ []) (hds : ∀ c ∈ ds, isDigit c = true)
    (hfs : ∀ c ∈ fs, isDigit c = true) :
    readUnsigned (ds ++ '.' :: fs) =
      some (ofDecimal (ofDigits (ds ++ fs)) (-(fs.length : Int))) := by
  have htake : fs.takeWhile isDigit = fs := List.takeWhile_eq_self_iff.mpr hfs
  have hdrop : fs.dropWhile isDigit = [] := List.dropWhile_eq_nil_iff.mpr hfs
  have hpoint : isDigit '.' = false := by decide
  unfold readUnsigned
  rw [List.takeWhile_append_of_pos hds, List.dropWhile_append_of_pos hds,
    List.takeWhile_cons_of_neg (by simp [hpoint]), List.dropWhile_cons_of_neg (by simp [hpoint])]
  simp [htake, hdrop, hne]

theorem not_sign_of_isDigit (hc : isDigit c = true) : c ≠ '-' ∧ c ≠ '+' ∧ c.toLower = c := by
  refine ⟨?_, ?_, ?_⟩
  · rintro rfl
    exact absurd hc (by decide)
  · rintro rfl
    exact absurd hc (by decide)
  · rw [Char.toLower, dif_neg]
    rintro ⟨hle, -⟩
    simp only [isDigit, Bool.and_eq_true, decide_eq_true_eq, Char.le_def] at hc
    exact absurd (UInt32.le_trans hle hc.2) (by decide)

/-- What begins with a digit has no sign and is none of the words. -/
theorem read_eq_readUnsigned (hc : isDigit c = true) (cs : List Char) :
    read (c :: cs) = readUnsigned (c :: cs) := by
  obtain ⟨hsign, hsign', hlower⟩ := not_sign_of_isDigit hc
  have hword : ∀ word ∈ ["inf", "infinity", "nan"],
      ¬(String.ofList ((c :: cs).map Char.toLower) == word) = true := fun word hword h => by
    have hhead : word.toList.head? = some c := by
      rw [← beq_iff_eq.mp h, String.toList_ofList, List.map_cons, List.head?_cons, hlower]
    have hletter : ∀ c ∈ ['i', 'n'], ¬isDigit c = true := by simp [isDigit]
    refine hletter c ?_ hc
    simp only [List.mem_cons, List.not_mem_nil, or_false] at hword
    rcases hword with rfl | rfl | rfl <;> cases hhead <;> decide
  have hinf := hword "inf" (by decide)
  have hinfinity := hword "infinity" (by decide)
  have hnan := hword "nan" (by decide)
  unfold read
  dsimp only
  split
  next heq => exact absurd (List.cons.inj heq).1 hsign
  next heq => exact absurd (List.cons.inj heq).1 hsign'
  next =>
    simp only [hinf, hinfinity, hnan, Bool.or_self, Bool.false_eq_true, if_false]
    exact Option.map_id'

/-! ## Digits around a point -/

theorem isDigit_of_mem_replicate {n : Nat} (hc : c ∈ List.replicate n '0') : isDigit c = true := by
  rw [List.eq_of_mem_replicate hc]
  rfl

theorem isDigit_zero : ∀ c ∈ ['0'], isDigit c = true := fun c => @isDigit_of_mem_replicate c 1

theorem isDigit_of_mem_append (hcs : ∀ c ∈ cs, isDigit c = true)
    (hds : ∀ c ∈ ds, isDigit c = true) :
    ∀ c ∈ cs ++ ds, isDigit c = true :=
  fun c hc => (List.mem_append.mp hc).elim (hcs c) (hds c)

/-- Digits around a point are a numeral, and denote the digits times the power of ten of the point.
-/
theorem readUnsigned_positional (hne : ds ≠ []) (hds : ∀ c ∈ ds, isDigit c = true) (point : Int) :
    Numeral (positional ds point) ∧ ∃ n k,
      readUnsigned (positional ds point) = some (ofDecimal n k) ∧
      (n : ℚ) * 10 ^ k = ofDigits ds * 10 ^ (point - ds.length) := by
  have hlength := List.length_pos_iff.mpr hne
  unfold positional
  split_ifs with hsmall hlarge
  · have hfs := isDigit_of_mem_append (fun c => @isDigit_of_mem_replicate c (-point).toNat) hds
    have hne' := List.append_ne_nil_of_right_ne_nil (List.replicate (-point).toNat '0') hne
    refine ⟨.fraction (List.cons_ne_nil _ _) isDigit_zero hne' hfs, _, _,
      readUnsigned_fraction (List.cons_ne_nil _ _) isDigit_zero hfs, ?_⟩
    have hdigits : ofDigits (['0'] ++ (List.replicate (-point).toNat '0' ++ ds)) = ofDigits ds := by
      rw [ofDigits_append, ofDigits_append, ofDigits_replicate_zero,
        show ofDigits ['0'] = 0 from rfl]
      omega
    rw [hdigits, List.length_append, List.length_replicate]
    congr 2
    omega
  · have hwhole :=
      isDigit_of_mem_append hds fun c => @isDigit_of_mem_replicate c (point - ds.length).toNat
    have hne' :=
      List.append_ne_nil_of_left_ne_nil hne (List.replicate (point - ds.length).toNat '0')
    refine ⟨.whole hne' hwhole, _, _, readUnsigned_whole hne' hwhole, ?_⟩
    rw [ofDigits_append, ofDigits_replicate_zero, List.length_replicate, zpow_zero, mul_one,
      Nat.add_zero, mul_comm (ofDigits ds : ℚ)]
    have hpower : (10 : ℚ) ^ (point - ds.length) = 10 ^ (point - ds.length).toNat := by
      rw [← zpow_natCast, show ((point - ds.length).toNat : Int) = point - ds.length by omega]
    rw [hpower]
    push_cast
    rfl
  · have hne' : ds.take point.toNat ≠ [] := by
      rw [← List.length_pos_iff, List.length_take]
      omega
    have hfs : ds.drop point.toNat ≠ [] := by
      rw [← List.length_pos_iff, List.length_drop]
      omega
    have htake : ∀ c ∈ ds.take point.toNat, isDigit c = true :=
      fun c hc => hds c (List.mem_of_mem_take hc)
    have hdrop : ∀ c ∈ ds.drop point.toNat, isDigit c = true :=
      fun c hc => hds c (List.mem_of_mem_drop hc)
    refine ⟨.fraction hne' htake hfs hdrop, _, _, readUnsigned_fraction hne' htake hdrop, ?_⟩
    rw [List.take_append_drop, List.length_drop]
    congr 2
    omega

/-! ## The digits of a double -/

/-- Digits without their trailing zeros. -/
theorem exists_zeros (digits : List Char) : ∃ z,
    digits = (digits.reverse.dropWhile (· == '0')).reverse ++ List.replicate z '0' := by
  refine ⟨(digits.reverse.takeWhile (· == '0')).length, ?_⟩
  have hzeros : digits.reverse.takeWhile (· == '0') =
      List.replicate (digits.reverse.takeWhile (· == '0')).length '0' :=
    List.eq_replicate_iff.mpr ⟨rfl, fun c hc => by
      have hzero := List.mem_takeWhile_imp hc
      exact beq_iff_eq.mp hzero⟩
  calc digits = digits.reverse.reverse := (List.reverse_reverse _).symm
    _ = (digits.reverse.takeWhile (· == '0') ++ digits.reverse.dropWhile (· == '0')).reverse := by
      rw [List.takeWhile_append_dropWhile]
    _ = (digits.reverse.dropWhile (· == '0')).reverse ++
      (digits.reverse.takeWhile (· == '0')).reverse :=
      List.reverse_append
    _ = _ := by rw [hzeros, List.reverse_replicate, List.length_replicate]

theorem significant_near (tie : Tie) (hc : Canonical m q) :
    ∃ ds point, significant tie m q = (ds, point) ∧
      ds ≠ [] ∧ (∀ c ∈ ds, isDigit c = true) ∧
      Near m q (ofDigits ds * 10 ^ (point - ds.length)) := by
  obtain ⟨d, k, hshortest, hnear⟩ := shortest_near tie hc
  have hd := hnear.digits_pos hc
  obtain ⟨z, hz⟩ := exists_zeros (Nat.toDigits 10 d)
  have hdigits : ∀ c ∈ Nat.toDigits 10 d, isDigit c = true := by
    have hall := all_isDigit_toDigits d
    rw [Bool.and_eq_true, List.all_eq_true] at hall
    exact hall.2
  have hvalue := ofDigits_toDigits d
  unfold significant
  rw [hshortest]
  dsimp only
  generalize ((Nat.toDigits 10 d).reverse.dropWhile (· == '0')).reverse = kept at hz
  rw [hz] at hdigits hvalue ⊢
  rw [ofDigits_append, ofDigits_replicate_zero, List.length_replicate, Nat.add_zero] at hvalue
  refine ⟨kept, _, rfl, ?_, fun c hc => hdigits c (List.mem_append_left _ hc), ?_⟩
  · rintro rfl
    rw [show ofDigits [] = 0 from rfl] at hvalue
    omega
  · rw [List.length_append, List.length_replicate]
    have hpower : (ofDigits kept : ℚ) * 10 ^ (k + (kept.length + z : ℕ) - kept.length : Int) =
        d * 10 ^ k := by
      rw [← hvalue, show k + (kept.length + z : ℕ) - kept.length = k + z by omega,
        zpow_add₀ (by norm_num), zpow_natCast]
      push_cast
      ring
    rwa [hpower]

/-! ## Reading back -/

theorem plain_of_finite (hx : parts x = .finite false m q) :
    plain x = if m == 0 then ['0']
      else positional (significant .away m q).1 (significant .away m q).2 := by
  unfold plain
  rw [hx]
  rfl

/-- **The text of a finite number is a numeral that denotes the number.** -/
theorem readUnsigned_plain (hx : parts x = .finite false m q) :
    Numeral (plain x) ∧ readUnsigned (plain x) = some x := by
  rw [plain_of_finite hx]
  rcases Nat.eq_zero_or_pos m with rfl | hm
  · have hread := readUnsigned_whole (List.cons_ne_nil _ _) isDigit_zero
    refine ⟨.whole (List.cons_ne_nil _ _) isDigit_zero, hread.trans ?_⟩
    have hunpack : x.toModel.unpack = (0.0 : Float).toModel.unpack :=
      (unpack_of_parts hx).trans (unpack_of_parts parts_zero).symm
    rw [← pack_unpack_toModel x, hunpack, pack_unpack_toModel]
    rfl
  · obtain ⟨ds, point, hsignificant, hne, hds, hnear⟩ :=
      significant_near .away (canonical_of_parts hx hm)
    obtain ⟨hnumeral, n, k, hread, hvalue⟩ := readUnsigned_positional hne hds point
    rw [if_neg (by simpa using hm.ne'), hsignificant]
    rw [← hvalue] at hnear
    exact ⟨hnumeral, hread.trans (congrArg some (ofDecimal_of_near hx hm hnear))⟩

theorem exists_ofDecimal_of_readUnsigned (h : readUnsigned cs = some x) :
    ∃ n k, x = ofDecimal n k := by
  unfold readUnsigned at h
  dsimp only at h
  split at h
  all_goals
    split at h
    · cases h
    · split at h
      · exact ⟨_, _, (Option.some.inj h).symm⟩
      · split at h
        · obtain ⟨k, -, rfl⟩ := Option.map_eq_some_iff.mp h
          exact ⟨_, _, rfl⟩
        · cases h

/-- What begins with a digit is read as a number without a sign. -/
theorem parts_of_read (hc : isDigit c = true) (h : read (c :: cs) = some x) :
    (∃ m q, parts x = .finite false m q) ∨ parts x = .infinite false := by
  have hread : ∃ n k, x = ofDecimal n k := by
    rw [read_eq_readUnsigned hc] at h
    exact exists_ofDecimal_of_readUnsigned h
  obtain ⟨n, k, rfl⟩ := hread
  exact parts_ofDecimal n k

theorem numeral_plain (hc : isDigit c = true) (h : read (c :: cs) = some x)
    (hx : isFinite x = true) :
    Numeral (plain x) := by
  rcases parts_of_read hc h with ⟨m, q, hparts⟩ | hparts
  · exact (readUnsigned_plain hparts).1
  · rw [isFinite, hparts] at hx
    cases hx

theorem read_plain (hc : isDigit c = true) (h : read (c :: cs) = some x) (hx : isFinite x = true) :
    read (plain x) = some x := by
  rcases parts_of_read hc h with ⟨m, q, hparts⟩ | hparts
  · obtain ⟨hnumeral, hread⟩ := readUnsigned_plain hparts
    obtain ⟨d, ds, hds, hd⟩ := hnumeral.head
    rw [hds] at hread ⊢
    rw [read_eq_readUnsigned hd, hread]
  · rw [isFinite, hparts] at hx
    cases hx

theorem plain_of_not_finite (hc : isDigit c = true) (h : read (c :: cs) = some x)
    (hx : ¬isFinite x = true) : plain x = "inf".toList := by
  rcases parts_of_read hc h with ⟨m, q, hparts⟩ | hparts
  · rw [isFinite, hparts] at hx
    exact absurd rfl hx
  · rw [plain, hparts]
    rfl

end LiveJson.Decimal

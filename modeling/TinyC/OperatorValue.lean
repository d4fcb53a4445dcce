import TinyC.OperatorSelection
import TinyC.Lib.SignedDivision

/-!
# The value of integer operators

The C99 value of an integer operator beside what the selected instructions compute. On
canonical operands they agree, except that division, remainder and right shift of 64-bit
unsigned numbers are computed as signed ones.
-/

namespace TinyC

open TwosComplement SignedDivision

/-- The integer types that promotion leaves alone. -/
def promotedKinds : List ScalarKind := [.int, .uint, .long, .ulong, .llong, .ullong]

namespace ScalarKind

def bits (k : ScalarKind) : ℕ := 8 * k.size.toNat

def signed (k : ScalarKind) : Bool := typeIsSigned (.scalar k .none)

end ScalarKind

/-- A result brought into the type: reduced if unsigned, undefined on signed overflow. -/
def reduceTo (signed : Bool) (w : ℕ) (v : ℤ) : Option ℤ :=
  if signed then if InRange true w v then some v else none else some (v % 2 ^ w)

def truth (p : Bool) : ℤ := if p then 1 else 0

/-- The C99 value of `a op b` for operands of a `w`-bit type, `none` where it is undefined.
The right shift of a negative value is the arithmetic one. -/
def c99Binop (signed : Bool) (w : ℕ) (tk : TokenKind) (a b : ℤ) : Option ℤ :=
  match tk with
  | .plus => reduceTo signed w (a + b)
  | .minus => reduceTo signed w (a - b)
  | .star => reduceTo signed w (a * b)
  | .slash => if b = 0 then none else reduceTo signed w (a.tdiv b)
  | .percent => if b = 0 then none else (reduceTo signed w (a.tdiv b)).map fun _ => a.tmod b
  | .amp => some (Int.land a b)
  | .pipe => some (Int.lor a b)
  | .caret => some (Int.xor a b)
  | .lshift =>
      if 0 ≤ b ∧ b < w ∧ (signed = true → 0 ≤ a) then reduceTo signed w (a * 2 ^ b.toNat) else none
  | .rshift => if 0 ≤ b ∧ b < w then some (a / 2 ^ b.toNat) else none
  | .eq => some (truth (a = b))
  | .neq => some (truth (a ≠ b))
  | .lt => some (truth (a < b))
  | .le => some (truth (a ≤ b))
  | .gt => some (truth (a > b))
  | .ge => some (truth (a ≥ b))
  | _ => none

/-! ### Operands that fit a signed word -/

theorem reduceTo_ofInt {signed : Bool} {w : ℕ} {v r : ℤ} (h : reduceTo signed w v = some r) :
    BitVec.ofInt w v = BitVec.ofInt w r := by
  cases signed with
  | false =>
    simp only [reduceTo, Bool.false_eq_true, if_false, Option.some.injEq] at h
    rw [← h]
    exact ofInt_eq_ofInt_iff.mpr (Int.emod_emod_of_dvd v (dvd_refl _)).symm
  | true =>
    simp only [reduceTo, if_true, Option.ite_none_right_eq_some, Option.some.injEq] at h
    rw [h.2]

theorem cqtoHigh_value (x : BitVec 64) : (cqtoHigh x).toInt * 2 ^ 64 + x.toNat = x.toInt := by
  have hx := BitVec.toInt_eq_msb_cond x
  have hones : (BitVec.allOnes 64).toInt = -1 := by decide
  unfold cqtoHigh
  by_cases h : x.msb = true
  · rw [if_pos h] at hx ⊢
    rw [hones]
    omega
  · rw [if_neg h] at hx ⊢
    rw [hx]
    simp

theorem idivq_cqto_eq_some {x y : BitVec 64} {qr : BitVec 64 × BitVec 64} :
    idivq (cqtoHigh x) x y = some qr ↔
      y ≠ 0 ∧ NoOverflow (x.toInt.tdiv y.toInt) ∧
        qr = (BitVec.ofInt 64 (x.toInt.tdiv y.toInt), BitVec.ofInt 64 (x.toInt.tmod y.toInt)) := by
  simp only [idivq, cqtoHigh_value, NoOverflow]
  constructor
  · intro h
    split at h
    · cases h
    · rename_i hno
      exact ⟨by tauto, ⟨by omega, by omega⟩, (Option.some.inj h).symm⟩
  · rintro ⟨hy, ⟨hlo, hhi⟩, rfl⟩
    rw [if_neg]
    rintro (h | h | h)
    · exact hy h
    · omega
    · omega

/-- The selected code meets the C99 result `r` on the operand words `x` and `y`. -/
def Computes (signed : Bool) (w : ℕ) (tk : TokenKind) (x y : BitVec 64) (r : ℤ) : Prop :=
  ∃ v, machineBinop (tokToIrBinop tk) (!signed) x y = some v ∧ v.setWidth w = BitVec.ofInt w r

section Word

variable {signed : Bool} {w : ℕ} {a b r : ℤ}

private theorem computes_of_ofInt {tk : TokenKind} {x y : BitVec 64} {v : ℤ} (hw : w ≤ 64)
    (hm : machineBinop (tokToIrBinop tk) (!signed) x y = some (BitVec.ofInt 64 v))
    (hr : BitVec.ofInt w v = BitVec.ofInt w r) : Computes signed w tk x y r :=
  ⟨_, hm, by rw [setWidth_ofInt hw, hr]⟩

private theorem computes_arith (hw : w ≤ 64) {tk : TokenKind}
    (htk : tk = .plus ∨ tk = .minus ∨ tk = .star) (hr : c99Binop signed w tk a b = some r) :
    Computes signed w tk (BitVec.ofInt 64 a) (BitVec.ofInt 64 b) r := by
  rcases htk with rfl | rfl | rfl
  · refine computes_of_ofInt hw ?_ (reduceTo_ofInt hr)
    rw [BitVec.ofInt_add]
    rfl
  · refine computes_of_ofInt hw ?_ (reduceTo_ofInt hr)
    rw [ofInt_sub]
    rfl
  · refine computes_of_ofInt hw ?_ (reduceTo_ofInt hr)
    rw [BitVec.ofInt_mul]
    rfl

private theorem computes_bitwise (hw : w ≤ 64) {tk : TokenKind}
    (htk : tk = .amp ∨ tk = .pipe ∨ tk = .caret) (hr : c99Binop signed w tk a b = some r) :
    Computes signed w tk (BitVec.ofInt 64 a) (BitVec.ofInt 64 b) r := by
  rcases htk with rfl | rfl | rfl
  · obtain rfl := Option.some.inj hr
    exact computes_of_ofInt hw (by rw [ofInt_land]; rfl) rfl
  · obtain rfl := Option.some.inj hr
    exact computes_of_ofInt hw (by rw [ofInt_lor]; rfl) rfl
  · obtain rfl := Option.some.inj hr
    exact computes_of_ofInt hw (by rw [ofInt_xor]; rfl) rfl

/-- A shift count in range reaches `%cl` unchanged. -/
private theorem shift_count (hw : w ≤ 64) (hb : 0 ≤ b) (hbw : b < w) :
    (BitVec.ofInt 64 b).toNat % 64 = b.toNat := by
  have hnat := toNat_ofInt_of_range hb (by omega)
  omega

private theorem computes_shl (hw : w ≤ 64) (hr : c99Binop signed w .lshift a b = some r) :
    Computes signed w .lshift (BitVec.ofInt 64 a) (BitVec.ofInt 64 b) r := by
  obtain ⟨⟨hb, hbw, -⟩, hred⟩ := Option.ite_none_right_eq_some.mp hr
  refine computes_of_ofInt hw ?_ (reduceTo_ofInt hred)
  rw [← ofInt_shiftLeft, ← shift_count hw hb hbw]
  rfl

private theorem ofInt_ne_zero (hb : -2 ^ 63 ≤ b) (hb' : b < 2 ^ 64) (hne : b ≠ 0) :
    BitVec.ofInt 64 b ≠ 0 := by
  intro h
  have hzero : BitVec.ofInt 64 b = BitVec.ofInt 64 0 := by
    rw [h]
    rfl
  have hmod := ofInt_eq_ofInt_iff.mp hzero
  omega

/-! The shift and the division go by the signed readings of the words. -/

private theorem computes_rshift_iff (hw : w ≤ 64) (x : BitVec 64) (hb : 0 ≤ b) (hbw : b < w) :
    Computes signed w .rshift x (BitVec.ofInt 64 b) r ↔
      x.toInt / 2 ^ b.toNat % 2 ^ w = r % 2 ^ w := by
  have hval : machineBinop (tokToIrBinop .rshift) (!signed) x (BitVec.ofInt 64 b) =
      some (BitVec.ofInt 64 (x.toInt / 2 ^ b.toNat)) := by
    rw [← sshiftRight_eq_ofInt, ← shift_count hw hb hbw]
    rfl
  rw [← ofInt_eq_ofInt_iff, ← setWidth_ofInt hw]
  constructor
  · rintro ⟨v, hv, hlow⟩
    rw [hval] at hv
    rwa [Option.some.inj hv]
  · exact fun h => ⟨_, hval, h⟩

private theorem computes_division_iff (hw : w ≤ 64) {tk : TokenKind} {x y : BitVec 64}
    {pick : ℤ → ℤ → ℤ}
    (htk : tk = .slash ∧ pick = Int.tdiv ∨ tk = .percent ∧ pick = Int.tmod) :
    Computes signed w tk x y r ↔
      y ≠ 0 ∧ NoOverflow (x.toInt.tdiv y.toInt) ∧
        pick x.toInt y.toInt % 2 ^ w = r % 2 ^ w := by
  have hval : ∀ v, machineBinop (tokToIrBinop tk) (!signed) x y = some v ↔
      y ≠ 0 ∧ NoOverflow (x.toInt.tdiv y.toInt) ∧ v = BitVec.ofInt 64 (pick x.toInt y.toInt) := by
    intro v
    rcases htk with ⟨rfl, rfl⟩ | ⟨rfl, rfl⟩ <;>
      simp only [tokToIrBinop, machineBinop, Option.map_eq_some_iff, idivq_cqto_eq_some] <;>
      constructor
    · rintro ⟨_, ⟨hy, hno, rfl⟩, rfl⟩
      exact ⟨hy, hno, rfl⟩
    · rintro ⟨hy, hno, rfl⟩
      exact ⟨_, ⟨hy, hno, rfl⟩, rfl⟩
    · rintro ⟨_, ⟨hy, hno, rfl⟩, rfl⟩
      exact ⟨hy, hno, rfl⟩
    · rintro ⟨hy, hno, rfl⟩
      exact ⟨_, ⟨hy, hno, rfl⟩, rfl⟩
  rw [← ofInt_eq_ofInt_iff, ← setWidth_ofInt hw]
  constructor
  · rintro ⟨v, hv, hlow⟩
    obtain ⟨hy, hno, rfl⟩ := (hval v).mp hv
    exact ⟨hy, hno, hlow⟩
  · rintro ⟨hy, hno, hlow⟩
    exact ⟨_, (hval _).mpr ⟨hy, hno, rfl⟩, hlow⟩

/-- Integers whose pattern the machine reads as themselves. -/
def Fits (v : ℤ) : Prop := -2 ^ 63 ≤ v ∧ v < 2 ^ 63

private theorem fits_of_inRange (hw : w ≤ 64) (h64 : w = 64 → signed = true)
    (ha : InRange signed w a) : Fits a := by
  have hpow : (2 : ℤ) ^ (w - 1) ≤ 2 ^ 63 := pow_le_pow_right₀ (by norm_num) (by omega)
  cases signed with
  | true =>
    simp only [InRange, if_true] at ha
    exact ⟨by omega, by omega⟩
  | false =>
    have hlt : w ≤ 63 := by
      by_contra h
      exact absurd (h64 (by omega)) (by simp)
    have hpow' : (2 : ℤ) ^ w ≤ 2 ^ 63 := pow_le_pow_right₀ (by norm_num) hlt
    simp only [InRange, Bool.false_eq_true, if_false] at ha
    exact ⟨by omega, by omega⟩

private theorem inRange_bounds (hw : w ≤ 64) (ha : InRange signed w a) :
    -2 ^ 63 ≤ a ∧ a < 2 ^ 64 := by
  have hpow : (2 : ℤ) ^ (w - 1) ≤ 2 ^ 63 := pow_le_pow_right₀ (by norm_num) (by omega)
  have hpow' : (2 : ℤ) ^ w ≤ 2 ^ 64 := pow_le_pow_right₀ (by norm_num) hw
  cases signed with
  | true =>
    simp only [InRange, if_true] at ha
    exact ⟨by omega, by omega⟩
  | false =>
    simp only [InRange, Bool.false_eq_true, if_false] at ha
    exact ⟨by omega, by omega⟩

/-- A defined quotient of fitting operands does not fault. -/
private theorem noOverflow_of_reduceTo (hw : w ≤ 64) (h64 : w = 64 → signed = true)
    (ha : InRange signed w a) (hr : reduceTo signed w (a.tdiv b) = some r) :
    NoOverflow (a.tdiv b) := by
  cases signed with
  | true =>
    obtain ⟨hrange, -⟩ := Option.ite_none_right_eq_some.mp hr
    exact fits_of_inRange hw h64 hrange
  | false =>
    have hfit := fits_of_inRange hw h64 ha
    have hle := Int.natAbs_tdiv_le_natAbs a b
    simp only [InRange, Bool.false_eq_true, if_false] at ha
    unfold Fits at hfit
    unfold NoOverflow
    omega

/-- The C99 quotient and remainder, up to reduction of the result. -/
private theorem c99_division {tk : TokenKind} {pick : ℤ → ℤ → ℤ}
    (htk : tk = .slash ∧ pick = Int.tdiv ∨ tk = .percent ∧ pick = Int.tmod)
    (hr : c99Binop signed w tk a b = some r) :
    b ≠ 0 ∧ (∃ q, reduceTo signed w (a.tdiv b) = some q) ∧ pick a b % 2 ^ w = r % 2 ^ w := by
  rcases htk with ⟨rfl, rfl⟩ | ⟨rfl, rfl⟩
  · obtain ⟨hb, hred⟩ := Option.ite_none_left_eq_some.mp hr
    exact ⟨hb, ⟨r, hred⟩, ofInt_eq_ofInt_iff.mp (reduceTo_ofInt hred)⟩
  · obtain ⟨hb, hmap⟩ := Option.ite_none_left_eq_some.mp hr
    obtain ⟨q, hred, rfl⟩ := Option.map_eq_some_iff.mp hmap
    exact ⟨hb, ⟨q, hred⟩, rfl⟩

private theorem computes_division_fits (hw : w ≤ 64) (h64 : w = 64 → signed = true)
    (ha : InRange signed w a) (hb : InRange signed w b) {tk : TokenKind}
    (htk : tk = .slash ∨ tk = .percent) (hr : c99Binop signed w tk a b = some r) :
    Computes signed w tk (BitVec.ofInt 64 a) (BitVec.ofInt 64 b) r := by
  obtain ⟨pick, hpick⟩ : ∃ pick : ℤ → ℤ → ℤ,
      tk = .slash ∧ pick = Int.tdiv ∨ tk = .percent ∧ pick = Int.tmod := by
    rcases htk with rfl | rfl
    · exact ⟨_, Or.inl ⟨rfl, rfl⟩⟩
    · exact ⟨_, Or.inr ⟨rfl, rfl⟩⟩
  obtain ⟨hne, ⟨q, hq⟩, hval⟩ := c99_division hpick hr
  have hfa := fits_of_inRange hw h64 ha
  have hfb := fits_of_inRange hw h64 hb
  rw [computes_division_iff hw hpick, toInt_ofInt_of_range hfa.1 hfa.2,
    toInt_ofInt_of_range hfb.1 hfb.2]
  have hbound := inRange_bounds hw hb
  exact ⟨ofInt_ne_zero hbound.1 hbound.2 hne, noOverflow_of_reduceTo hw h64 ha hq, hval⟩

/-! ### Comparisons -/

private theorem ofInt_beq (hw : 0 < w) (hw' : w ≤ 64) (ha : InRange signed w a)
    (hb : InRange signed w b) :
    (BitVec.ofInt 64 a == BitVec.ofInt 64 b) = decide (a = b) := by
  rw [beq_eq_decide]
  apply decide_eq_decide.mpr
  constructor
  · intro h
    have hval := congrArg (value signed w) h
    rwa [value_ofInt hw hw' ha, value_ofInt hw hw' hb] at hval
  · exact congrArg _

/-- The flag a comparison of the type goes by. -/
private theorem ofInt_less (hw : w ≤ 64) (ha : InRange signed w a) (hb : InRange signed w b) :
    (if signed then (BitVec.ofInt 64 a).slt (BitVec.ofInt 64 b)
      else (BitVec.ofInt 64 a).ult (BitVec.ofInt 64 b)) = decide (a < b) := by
  have hba := inRange_bounds hw ha
  have hbb := inRange_bounds hw hb
  cases signed with
  | true =>
    have hfa := fits_of_inRange hw (fun _ => rfl) ha
    have hfb := fits_of_inRange hw (fun _ => rfl) hb
    rw [if_pos rfl, slt_ofInt hfa.1 hfa.2 hfb.1 hfb.2]
  | false =>
    simp only [InRange, Bool.false_eq_true, if_false] at ha hb ⊢
    rw [ult_ofInt ha.1 hba.2 hb.1 hbb.2]

private theorem ofInt_truth (hw : w ≤ 64) (p : Bool) :
    (if p then 1 else 0 : BitVec 64).setWidth w = BitVec.ofInt w (truth p) := by
  rw [← setWidth_ofInt hw]
  cases p <;> rfl

/-- The condition code of the operator, on the flags `cmpq` leaves. -/
private theorem cmpCond_holds {tk : TokenKind} (htk : isComparison tk = true) {u l : Bool}
    (hless : (if signed then l else u) = decide (a < b)) (hr : c99Binop signed w tk a b = some r) :
    r = truth ((cmpCond (!signed) (tokToIrBinop tk)).holds ⟨decide (a = b), u, l⟩) := by
  cases signed <;> simp only [Bool.false_eq_true, if_false, if_true] at hless <;> subst hless <;>
    cases tk <;> simp only [isComparison, Bool.false_eq_true] at htk <;>
    obtain rfl := Option.some.inj hr <;>
    simp only [tokToIrBinop, cmpCond, Cond.holds, Bool.not_false, Bool.not_true, if_true,
      Bool.false_eq_true, if_false] <;>
    congr 1 <;> grind

private theorem computes_comparison (hw : 0 < w) (hw' : w ≤ 64) (ha : InRange signed w a)
    (hb : InRange signed w b) {tk : TokenKind} (htk : isComparison tk = true)
    (hr : c99Binop signed w tk a b = some r) :
    Computes signed w tk (BitVec.ofInt 64 a) (BitVec.ofInt 64 b) r := by
  have hless := ofInt_less hw' ha hb
  refine ⟨_, machineBinop_comparison htk _ _ _, ?_⟩
  rw [ofInt_truth hw', ofInt_beq hw hw' ha hb, cmpCond_holds htk hless hr]

/-! ### The operators together -/

/-- When the instructions selected for type `k` give the C99 result: 64-bit unsigned
division, remainder and right shift must not depend on reading the operands as signed. -/
def SelectionAgrees (k : ScalarKind) (tk : TokenKind) (a b : ℤ) : Prop :=
  k = .ulong ∨ k = .ullong →
    match tk with
    | .slash => QuotAgrees a b
    | .percent => RemAgrees a b
    | .rshift => ShiftAgrees a b
    | _ => True

private theorem computes_of_operator (hw : 0 < w) (hw' : w ≤ 64) (ha : InRange signed w a)
    (hb : InRange signed w b) {tk : TokenKind} (htk : tk ∈ binaryOperators)
    (hsel : (w = 64 → signed = true) ∨ tk ≠ .slash ∧ tk ≠ .percent ∧ tk ≠ .rshift)
    (hr : c99Binop signed w tk a b = some r) :
    Computes signed w tk (BitVec.ofInt 64 a) (BitVec.ofInt 64 b) r := by
  have hdiv : tk = .slash ∨ tk = .percent ∨ tk = .rshift → w = 64 → signed = true := by
    rintro h
    rcases hsel with hsel | hsel
    · exact hsel
    · tauto
  simp only [binaryOperators, List.mem_cons, List.not_mem_nil, or_false] at htk
  rcases htk with rfl | rfl | rfl | rfl | rfl | rfl | rfl | rfl | rfl | rfl | hcmp
  · exact computes_arith hw' (by tauto) hr
  · exact computes_arith hw' (by tauto) hr
  · exact computes_arith hw' (by tauto) hr
  · exact computes_division_fits hw' (hdiv (by tauto)) ha hb (by tauto) hr
  · exact computes_division_fits hw' (hdiv (by tauto)) ha hb (by tauto) hr
  · exact computes_bitwise hw' (by tauto) hr
  · exact computes_bitwise hw' (by tauto) hr
  · exact computes_bitwise hw' (by tauto) hr
  · exact computes_shl hw' hr
  · have hfit := fits_of_inRange hw' (hdiv (by tauto)) ha
    obtain ⟨⟨hb₀, hbw⟩, hval⟩ := Option.ite_none_right_eq_some.mp hr
    rw [computes_rshift_iff hw' _ hb₀ hbw, toInt_ofInt_of_range hfit.1 hfit.2, Option.some.inj hval]
  · refine computes_comparison hw hw' ha hb ?_ hr
    rcases hcmp with rfl | rfl | rfl | rfl | rfl | rfl <;> rfl

/-- The three operators that are selected as signed ones, on 64-bit unsigned operands. -/
private theorem computes_unsigned_iff (ha : InRange false 64 a) (hb : InRange false 64 b)
    {tk : TokenKind} (htk : tk = .slash ∨ tk = .percent ∨ tk = .rshift)
    (hr : c99Binop false 64 tk a b = some r) :
    Computes false 64 tk (BitVec.ofInt 64 a) (BitVec.ofInt 64 b) r ↔
      SelectionAgrees .ulong tk a b := by
  simp only [InRange, Bool.false_eq_true, if_false] at ha hb
  have hreada := SignedDivision.toInt_ofInt ha.1 ha.2
  have hreadb := SignedDivision.toInt_ofInt hb.1 hb.2
  rcases htk with rfl | rfl | rfl
  · have htk : TokenKind.slash = .slash ∧ Int.tdiv = Int.tdiv ∨
      TokenKind.slash = .percent ∧ Int.tdiv = Int.tmod := Or.inl ⟨rfl, rfl⟩
    obtain ⟨hne, -, hval⟩ := c99_division htk hr
    have hy := ofInt_ne_zero (by omega) hb.2 hne
    rw [computes_division_iff le_rfl htk, hreada, hreadb, ← hval, and_iff_right hy,
      Int.tdiv_eq_ediv_of_nonneg ha.1, quot_agrees_iff ha.1 ha.2 (by omega) hb.2]
    simp [SelectionAgrees]
  · have htk : TokenKind.percent = .slash ∧ Int.tmod = Int.tdiv ∨
      TokenKind.percent = .percent ∧ Int.tmod = Int.tmod := Or.inr ⟨rfl, rfl⟩
    obtain ⟨hne, -, hval⟩ := c99_division htk hr
    have hy := ofInt_ne_zero (by omega) hb.2 hne
    rw [computes_division_iff le_rfl htk, hreada, hreadb, ← hval, and_iff_right hy,
      Int.tmod_eq_emod_of_nonneg ha.1, rem_agrees_iff ha.1 ha.2 (by omega) hb.2]
    simp [SelectionAgrees]
  · obtain ⟨⟨hb₀, hbw⟩, hval⟩ := Option.ite_none_right_eq_some.mp hr
    have hnat : (b.toNat : ℤ) = b := Int.toNat_of_nonneg hb₀
    rw [computes_rshift_iff le_rfl _ hb₀ hbw, hreada, ← Option.some.inj hval,
      shift_agrees_iff (by omega), hnat]
    simp [SelectionAgrees]

end Word

private theorem promoted_facts {k : ScalarKind} (hk : k ∈ promotedKinds) (q : TypeQual) :
    0 < k.bits ∧ k.bits ≤ 64 ∧ typeIsUnsignedInteger (.scalar k q) = !k.signed ∧
      isFpType (some (.scalar k q)) = false := by
  simp only [promotedKinds, List.mem_cons, List.not_mem_nil, or_false] at hk
  rcases hk with rfl | rfl | rfl | rfl | rfl | rfl <;> exact ⟨by decide, by decide, rfl, rfl⟩

/-- Only the two 64-bit unsigned kinds are read as what they are not. -/
private theorem promoted_cases {k : ScalarKind} (hk : k ∈ promotedKinds) :
    (k = .ulong ∨ k = .ullong) ∧ k.signed = false ∧ k.bits = 64 ∨
      ¬ (k = .ulong ∨ k = .ullong) ∧ (k.bits = 64 → k.signed = true) := by
  simp only [promotedKinds, List.mem_cons, List.not_mem_nil, or_false] at hk
  rcases hk with rfl | rfl | rfl | rfl | rfl | rfl <;> decide

private theorem computes_iff {k : ScalarKind} (hk : k ∈ promotedKinds) {tk : TokenKind}
    (htk : tk ∈ binaryOperators) {a b r : ℤ} (ha : InRange k.signed k.bits a)
    (hb : InRange k.signed k.bits b) (hr : c99Binop k.signed k.bits tk a b = some r) :
    Computes k.signed k.bits tk (BitVec.ofInt 64 a) (BitVec.ofInt 64 b) r ↔
      SelectionAgrees k tk a b := by
  obtain ⟨hpos, hle, -, -⟩ := promoted_facts hk .none
  rcases promoted_cases hk with ⟨hku, hsigned, hbits⟩ | ⟨hku, h64⟩
  · have hsame : SelectionAgrees k tk a b ↔ SelectionAgrees .ulong tk a b := by
      simp only [SelectionAgrees, hku, true_or]
    rw [hsigned, hbits] at ha hb hr ⊢
    rw [hsame]
    by_cases hthree : tk = .slash ∨ tk = .percent ∨ tk = .rshift
    · exact computes_unsigned_iff ha hb hthree hr
    · have hcomp := computes_of_operator (by omega) le_rfl ha hb htk (Or.inr (by tauto)) hr
      refine iff_of_true hcomp fun _ => ?_
      split <;> simp_all
  · exact iff_of_true (computes_of_operator hpos hle ha hb htk (Or.inl h64) hr)
      fun h => absurd h hku

/-- The instruction selected for operands of type `k`, run on canonical operands for which
C99 defines the result: its code ends with the low bits of the result in the destination
slot exactly when `SelectionAgrees` holds. -/
theorem binop_result_iff (E : Env) (Γ : TypeEnv) (f : IRFunc) (ra : RegAlloc) (s : MState)
    {k : ScalarKind} (hk : k ∈ promotedKinds) (q : TypeQual) {tk : TokenKind}
    (htk : tk ∈ binaryOperators) (dstTy : CType) (td t1 t2 : ℕ) {a b r : ℤ}
    (ha : InRange k.signed k.bits a) (hb : InRange k.signed k.bits b)
    (hsa : slotOf ra s t1 = BitVec.ofInt 64 a) (hsb : slotOf ra s t2 = BitVec.ofInt 64 b)
    (hr : c99Binop k.signed k.bits tk a b = some r) :
    (∃ s', exec E (codegenInstr Γ f ra (binopInstr tk (.scalar k q)
          (if isComparison tk then dstTy else .scalar k q) td t1 t2)) s = some (s', .fall) ∧
        (slotOf ra s' td).setWidth k.bits = BitVec.ofInt k.bits r) ↔
      SelectionAgrees k tk a b := by
  obtain ⟨-, -, hu, hfp⟩ := promoted_facts hk q
  have hcode := exec_binopInstr E Γ f ra s htk hfp dstTy td t1 t2
  rw [hu, hsa, hsb] at hcode
  rw [← computes_iff hk htk ha hb hr, Computes]
  constructor
  · rintro ⟨s', hs', hlow⟩
    rw [hs', Option.map_some] at hcode
    obtain ⟨v, hv, hvs⟩ := Option.map_eq_some_iff.mp hcode.symm
    exact ⟨v, hv, by rwa [(Prod.mk.inj hvs).1]⟩
  · rintro ⟨v, hv, hlow⟩
    rw [hv, Option.map_some] at hcode
    obtain ⟨⟨s', e⟩, hs', hres⟩ := Option.map_eq_some_iff.mp hcode
    obtain ⟨hslot, rfl⟩ := Prod.mk.inj hres
    exact ⟨s', hs', by rwa [hslot]⟩

/-! A frame with three temps, for inputs that can be followed by hand. -/

def slotsState (x y : BitVec 64) : MState where
  reg _ := 0
  xmm _ := 0
  flags := {}
  mem := ByteMemory.store (ByteMemory.store (fun _ => 0) (BitVec.ofInt 64 (-8)) 8 x)
    (BitVec.ofInt 64 (-16)) 8 y

def emptyFunc : IRFunc := { name := "f", funcType := none, nextTemp := 4 }

def idleEnv : Env where
  fp := ⟨fun _ _ _ _ => 0, fun _ _ => {}, fun _ _ => 0, fun _ _ => 0⟩
  sym _ := 0
  call _ s := s

/-- `18446744073709551615ul / 2ul` is `9223372036854775807`, not `0`. -/
theorem ulong_division_as_signed :
    ¬ ∀ (E : Env) (Γ : TypeEnv) (f : IRFunc) (s : MState) (tk : TokenKind) (a b r : ℤ),
      tk ∈ binaryOperators → InRange false 64 a → InRange false 64 b →
      slotOf (regallocRun f) s 1 = BitVec.ofInt 64 a →
      slotOf (regallocRun f) s 2 = BitVec.ofInt 64 b →
      c99Binop false 64 tk a b = some r →
      ∃ s', exec E (codegenInstr Γ f (regallocRun f)
          (binopInstr tk typeUlong (if isComparison tk then typeInt else typeUlong) 3 1 2)) s =
            some (s', .fall) ∧
        (slotOf (regallocRun f) s' 3).setWidth 64 = BitVec.ofInt 64 r := by
  intro h
  have hx : slotOf (regallocRun emptyFunc) (slotsState (BitVec.ofInt 64 (2 ^ 64 - 1)) 2) 1 =
      BitVec.ofInt 64 (2 ^ 64 - 1) := by decide
  have hy : slotOf (regallocRun emptyFunc) (slotsState (BitVec.ofInt 64 (2 ^ 64 - 1)) 2) 2 =
      BitVec.ofInt 64 2 := by decide
  obtain ⟨s', hs', hlow⟩ := h idleEnv .empty emptyFunc _ .slash (2 ^ 64 - 1) 2 (2 ^ 63 - 1)
    (by decide) (by decide) (by decide) hx hy (by decide)
  have hcode := exec_binopInstr idleEnv .empty emptyFunc (regallocRun emptyFunc)
    (slotsState (BitVec.ofInt 64 (2 ^ 64 - 1)) 2) (show .slash ∈ binaryOperators by decide) (T := typeUlong)
    rfl typeInt 3 1 2
  have hzero : machineBinop (tokToIrBinop .slash) true (BitVec.ofInt 64 (2 ^ 64 - 1))
      (BitVec.ofInt 64 2) = some 0 := by decide
  rw [hs', hx, hy, show typeIsUnsignedInteger typeUlong = true from rfl, hzero] at hcode
  have hslot : slotOf (regallocRun emptyFunc) s' 3 = 0 := congrArg Prod.fst (Option.some.inj hcode)
  rw [hslot] at hlow
  revert hlow
  decide

/-- `7ul / 2ul` meets the condition. -/
theorem ulong_division_small :
    ∃ s', exec idleEnv (codegenInstr .empty emptyFunc (regallocRun emptyFunc)
        (binopInstr .slash typeUlong typeUlong 3 1 2)) (slotsState 7 2) = some (s', .fall) ∧
      (slotOf (regallocRun emptyFunc) s' 3).setWidth 64 = BitVec.ofInt 64 3 :=
  (binop_result_iff idleEnv .empty emptyFunc (regallocRun emptyFunc) (slotsState 7 2)
    (k := .ulong) (by decide) .none (show .slash ∈ binaryOperators by decide) typeInt 3 1 2
    (a := 7) (b := 2) (by decide) (by decide) (by decide) (by decide) (by decide)).mpr
    (by simp [SelectionAgrees, QuotAgrees])

end TinyC

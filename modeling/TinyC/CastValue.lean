import TinyC.IrGenExpr
import TinyC.OperatorValue

/-!
# The value of casts

What the code of a cast makes of the word in its source slot, beside the C99 conversion. The
instruction is chosen by the two types; an extension goes by the type of the temp it extends.
-/

namespace TinyC

open TwosComplement

namespace CType

/-- `_Bool`. -/
def isBool : CType → Bool
  | .scalar .bool _ => true
  | _ => false

/-- The integer types, enums and pointers. -/
def isWord (ty : CType) : Bool := typeIsInteger ty || ty.isPointer

/-- The bits of a type that a slot can hold. -/
def bits (Γ : TypeEnv) (ty : CType) : ℕ := 8 * (typeSizeof Γ ty).toNat

/-- The values of a type. Those of an enum are unsigned, as its objects are loaded. -/
def Holds (Γ : TypeEnv) (ty : CType) (v : ℤ) : Prop :=
  if ty.isBool then v = 0 ∨ v = 1 else InRange (typeIsSigned ty) (ty.bits Γ) v

end CType

/-- The conversion of 6.3.1, integers wrapping round. -/
def c99Convert (Γ : TypeEnv) (ty : CType) (v : ℤ) : ℤ :=
  if ty.isBool then truth (v ≠ 0) else wrap (typeIsSigned ty) (ty.bits Γ) v

section Types

variable {Γ : TypeEnv} {ty : CType} {v : ℤ}

/-- What there is to know of the widths. -/
theorem word_size (h : ty.isWord = true) : typeSizeof Γ ty = 1 ∨ typeSizeof Γ ty = 2 ∨
    typeSizeof Γ ty = 4 ∨ typeSizeof Γ ty = 8 := by
  cases ty with
  | scalar k q =>
    cases k <;> first | (simp [typeSizeof, ScalarKind.size]; done) | cases h
  | pointer p q => exact .inr (.inr (.inr rfl))
  | enum id q => exact .inr (.inr (.inl rfl))
  | _ => cases h

theorem word_bits (h : ty.isWord = true) :
    ty.bits Γ = 8 ∨ ty.bits Γ = 16 ∨ ty.bits Γ = 32 ∨ ty.bits Γ = 64 := by
  have hsize := word_size (Γ := Γ) h
  unfold CType.bits
  omega

theorem word_bits_le (h : ty.isWord = true) : 0 < ty.bits Γ ∧ ty.bits Γ ≤ 64 := by
  have hbits := word_bits (Γ := Γ) h
  omega

theorem word_not_fp (h : ty.isWord = true) : isFpType (some ty) = false := by
  cases ty with
  | scalar k q => cases k <;> first | rfl | cases h
  | _ => rfl

theorem bool_facts (h : ty.isBool = true) : ty.isPointer = false ∧ typeIsInteger ty = true ∧
    typeIsSigned ty = false ∧ typeSizeof Γ ty = 1 := by
  cases ty with
  | scalar k q =>
    cases k <;> first | exact ⟨rfl, rfl, rfl, rfl⟩ | cases h
  | _ => cases h

theorem pointer_facts (h : ty.isPointer = true) :
    typeIsInteger ty = false ∧ typeIsArithmetic ty = false ∧ typeIsSigned ty = false ∧
      ty.isBool = false ∧ typeSizeof Γ ty = 8 := by
  cases ty with
  | pointer p q => exact ⟨rfl, rfl, rfl, rfl, rfl⟩
  | _ => cases h

/-- A value is in the range of the bits. -/
theorem CType.Holds.inRange (h : ty.Holds Γ v) :
    InRange (typeIsSigned ty) (ty.bits Γ) v := by
  unfold CType.Holds at h
  split at h
  · rename_i hbool
    obtain ⟨-, -, hsigned, hsize⟩ := bool_facts (Γ := Γ) hbool
    have hbits : ty.bits Γ = 8 := by rw [CType.bits, hsize]; rfl
    rw [hsigned, hbits]
    rcases h with rfl | rfl <;> decide
  · exact h

/-- A value of the type is its own conversion. -/
theorem c99Convert_of_holds (hty : ty.isWord = true) (h : ty.Holds Γ v) :
    c99Convert Γ ty v = v := by
  unfold c99Convert
  split
  · rename_i hbool
    rw [CType.Holds, if_pos hbool] at h
    rcases h with rfl | rfl <;> rfl
  · exact wrap_of_inRange (word_bits_le hty).1 (word_bits_le hty).2 h.inRange

/-- Zero is the only value of a type that converts to zero in a wider one. -/
theorem wrap_eq_zero_iff {signed signed' : Bool} {w w' : ℕ} (hw : 0 < w) (hle : w ≤ w')
    (h : InRange signed w v) : wrap signed' w' v = 0 ↔ v = 0 := by
  constructor
  · intro hzero
    have hmod : v % 2 ^ w' = 0 := by
      have hemod : wrap signed' w' v % 2 ^ w' = v % 2 ^ w' := wrap_emod
      rw [← hemod, hzero, Int.zero_emod]
    have hdvd : (2 : ℤ) ^ w' ∣ v := Int.dvd_of_emod_eq_zero hmod
    have hpow : (2 : ℤ) ^ w ≤ 2 ^ w' := pow_le_pow_right₀ (by norm_num) hle
    have hhalf : (2 : ℤ) ^ (w - 1) < 2 ^ w := pow_lt_pow_right₀ (by norm_num) (by omega)
    apply Int.eq_zero_of_abs_lt_dvd hdvd
    rw [abs_lt]
    cases signed <;> simp only [InRange, if_true, Bool.false_eq_true, if_false] at h <;>
      constructor <;> omega
  · rintro rfl
    cases signed' <;> simp [wrap]

/-- Converting through a type that is as wide as both others changes nothing. -/
theorem c99Convert_through {src mid dst : CType} (hsrc : src.isWord = true)
    (hmid : mid.isBool = false) (hle : src.bits Γ ≤ mid.bits Γ) (hle' : dst.bits Γ ≤ mid.bits Γ)
    (h : src.Holds Γ v) : c99Convert Γ dst (c99Convert Γ mid v) = c99Convert Γ dst v := by
  have hconv : c99Convert Γ mid v = wrap (typeIsSigned mid) (mid.bits Γ) v := by
    rw [c99Convert, hmid]
    rfl
  have hzero : wrap (typeIsSigned mid) (mid.bits Γ) v = 0 ↔ v = 0 :=
    wrap_eq_zero_iff (word_bits_le (Γ := Γ) hsrc).1 hle h.inRange
  rw [hconv, c99Convert, c99Convert]
  split
  · simp only [ne_eq, hzero]
  · exact wrap_wrap hle'

end Types

/-! ### The code -/

/-- What `extendRax` makes of a word. -/
def extendWord (sz : ℤ) (isSigned : Bool) (x : BitVec 64) : BitVec 64 :=
  if sz = 1 ∨ sz = 2 ∨ sz = 4 then extend isSigned (8 * sz.toNat) x else x

/-- What the conversion `op` makes of the word in a temp of type `tv`. -/
def castWord (Γ : TypeEnv) (op : IROp) (tv dst : CType) (x : BitVec 64) : BitVec 64 :=
  match op with
  | .sext => extendWord (sizeOrEight Γ (some tv)) true x
  | .zext => if sizeOrEight Γ (some tv) = 4 then x
      else extendWord (sizeOrEight Γ (some tv)) false x
  | .trunc => extendWord (typeSizeof Γ dst) (typeIsSigned dst) x
  | _ => x

section Exec

variable (E : Env) (Γ : TypeEnv) (f : IRFunc) (ra : RegAlloc)

theorem setReg_reg_eq_self (s : MState) (r : Reg) : s.setReg r (s.reg r) = s := by
  rw [MState.setReg, Function.update_eq_self]

/-- One instruction extends the low bytes. -/
theorem step_extend (isSigned : Bool) (w : Width) (s : MState) :
    (if isSigned then Instr.movsx w (.reg .rax) .rax else .movzx w (.reg .rax) .rax).step E s =
      some (s.setReg .rax (extend isSigned (8 * w.bytes) (s.reg .rax))) := by
  have hbytes : w.bytes ≤ 8 := by cases w <;> decide
  cases isSigned with
  | true =>
    rw [if_pos rfl, Instr.step, MState.get, ByteMemory.signExt_zeroExt hbytes]
    rfl
  | false => rfl

theorem exec_extendRax (sz : ℤ) (isSigned : Bool) (is : List Instr) (s : MState) :
    exec E (extendRax sz isSigned ++ is) s =
      exec E is (s.setReg .rax (extendWord sz isSigned (s.reg .rax))) := by
  unfold extendRax extendWord
  by_cases h1 : sz = 1
  · subst h1
    exact exec_cons (step_extend E isSigned .byte s)
  · by_cases h2 : sz = 2
    · subst h2
      exact exec_cons (step_extend E isSigned .word s)
    · by_cases h4 : sz = 4
      · subst h4
        cases isSigned with
        | true => exact exec_cons (step_extend E true .long s)
        | false =>
          have hmov : (Instr.mov .long (.reg .rax) (.reg .rax)).step E s =
              some (s.setReg .rax (ByteMemory.zeroExt 4 (s.reg .rax))) :=
            congrArg (fun v => some (s.setReg .rax v)) (ByteMemory.zeroExt_zeroExt (by omega) _)
          exact exec_cons hmov
      · simp only [h1, h2, h4, if_false, or_self, List.nil_append]
        rw [setReg_reg_eq_self]

/-- The code of a conversion leaves its word in the slot of the destination. -/
theorem exec_cast {op : IROp} (hop : op = .copy ∨ op = .sext ∨ op = .zext ∨ op = .trunc)
    {tv dst : CType} (htv : isFpType (some tv) = false) (hdst : isFpType (some dst) = false)
    (td ts : ℕ) (s : MState) :
    (exec E (codegenInstr Γ f ra { op := op, dst := irvTemp td dst, src1 := irvTemp ts tv }) s).map
        (result ra td) = some (castWord Γ op tv dst (slotOf ra s ts), .fall) := by
  have hload : ∀ is, exec E (loadReg ra (irvTemp ts tv) .rax ++ is) s =
      exec E is (s.setReg .rax (slotOf ra s ts)) := exec_loadReg E ra s ts (some tv) .rax
  have hstore : ∀ s' : MState, (exec E (storeReg ra (irvTemp td dst) .rax) s').map (result ra td) =
      some (s'.reg .rax, .fall) := by
    intro s'
    rw [irvTemp, exec_storeReg_end, Option.map_some, result, slotOf_setSlot_self]
  have hext : ∀ sz b, (exec E (loadReg ra (irvTemp ts tv) .rax ++ extendRax sz b ++
      storeReg ra (irvTemp td dst) .rax) s).map (result ra td) =
        some (extendWord sz b (slotOf ra s ts), .fall) := by
    intro sz b
    rw [List.append_assoc, hload, exec_extendRax, hstore, setReg_reg_self, setReg_reg_self]
  rcases hop with rfl | rfl | rfl | rfl
  · have hcode : codegenInstr Γ f ra { op := .copy, dst := irvTemp td dst, src1 := irvTemp ts tv } =
        loadReg ra (irvTemp ts tv) .rax ++ storeReg ra (irvTemp td dst) .rax := by
      have hfp : (isFpType (irvTemp td dst).type || isFpType (irvTemp ts tv).type) = false := by
        rw [Bool.or_eq_false_iff]
        exact ⟨hdst, htv⟩
      simp only [codegenInstr, hfp, Bool.false_eq_true, if_false]
      rfl
    rw [hcode, hload, hstore, setReg_reg_self]
    rfl
  · exact hext _ _
  · by_cases h4 : sizeOrEight Γ (some tv) = 4
    · have hcode : codegenInstr Γ f ra { op := .zext, dst := irvTemp td dst, src1 := irvTemp ts tv } =
          loadReg ra (irvTemp ts tv) .rax ++ storeReg ra (irvTemp td dst) .rax := by
        have h4' : sizeOrEight Γ (irvTemp ts tv).type = 4 := h4
        simp only [codegenInstr, h4', if_true, List.append_nil]
      rw [hcode, hload, hstore, setReg_reg_self, castWord, if_pos h4]
    · have hcode : codegenInstr Γ f ra { op := .zext, dst := irvTemp td dst, src1 := irvTemp ts tv } =
          loadReg ra (irvTemp ts tv) .rax ++ extendRax (sizeOrEight Γ (some tv)) false ++
            storeReg ra (irvTemp td dst) .rax := by
        have h4' : ¬sizeOrEight Γ (irvTemp ts tv).type = 4 := h4
        simp only [codegenInstr, h4', if_false]
        rfl
      rw [hcode, hext, castWord, if_neg h4]
  · exact hext _ _

end Exec

/-! ### When it is the conversion -/

/-- The bits an extension goes by, for a temp of type `tv`. -/
def tempBits (Γ : TypeEnv) (tv : CType) : ℕ :=
  if sizeOrEight Γ (some tv) = 1 ∨ sizeOrEight Γ (some tv) = 2 ∨ sizeOrEight Γ (some tv) = 4 then
    8 * (sizeOrEight Γ (some tv)).toNat
  else 64

/-- When the code of a cast from `src` to `dst` is right for `v`, the operand's temp having the type
`tv`: a number other than 0 and 1 stays one when it becomes a `_Bool`, a pointer is not cut down,
and an extension to an unsigned type narrower than 64 bits goes on with the sign. -/
def CastAgrees (Γ : TypeEnv) (tv src dst : CType) (v : ℤ) : Prop :=
  if dst.isBool then if src.isPointer then v = 0 ∨ v = 1 else v % 2 ^ 8 = truth (v ≠ 0)
  else if src.isPointer then
    dst.bits Γ < 64 → InRange (typeIsSigned dst) (dst.bits Γ) (wrap true 64 v)
  else if dst.isPointer then True
  else src.bits Γ < dst.bits Γ →
    if typeIsSigned src then InRange true (tempBits Γ tv) v ∧
      (typeIsSigned dst = false → dst.bits Γ < 64 → 0 ≤ v)
    else tempBits Γ tv < 32 → v < 2 ^ tempBits Γ tv

instance (Γ : TypeEnv) (tv src dst : CType) (v : ℤ) : Decidable (CastAgrees Γ tv src dst v) := by
  unfold CastAgrees
  infer_instance

section Word

variable {Γ : TypeEnv} {tv src dst : CType} {v : ℤ}

theorem tempBits_cases : tempBits Γ tv = 8 ∨ tempBits Γ tv = 16 ∨ tempBits Γ tv = 32 ∨
    tempBits Γ tv = 64 := by
  unfold tempBits
  split <;> omega

theorem extend_full (signed : Bool) (x : BitVec 64) : extend signed 64 x = x := by
  cases signed <;> simp [extend]

/-- An extension that goes by the temp's own type. -/
theorem extendWord_temp (isSigned : Bool) (x : BitVec 64) :
    extendWord (sizeOrEight Γ (some tv)) isSigned x = extend isSigned (tempBits Γ tv) x := by
  unfold extendWord tempBits
  split
  · rfl
  · exact (extend_full isSigned x).symm

/-- An extension that goes by the type converted to. -/
theorem extendWord_type (hdst : dst.isWord = true) (isSigned : Bool) (x : BitVec 64) :
    extendWord (typeSizeof Γ dst) isSigned x = extend isSigned (dst.bits Γ) x := by
  unfold extendWord CType.bits
  rcases word_size (Γ := Γ) hdst with h | h | h | h
  · rw [if_pos (by omega)]
  · rw [if_pos (by omega)]
  · rw [if_pos (by omega)]
  · rw [h, if_neg (by omega)]
    exact (extend_full isSigned x).symm

theorem c99Convert_of_not_bool (h : dst.isBool = false) :
    c99Convert Γ dst v = wrap (typeIsSigned dst) (dst.bits Γ) v := by
  rw [c99Convert, h]
  rfl

theorem castWord_copy (x : BitVec 64) : castWord Γ .copy tv dst x = x := rfl

theorem castOp_of_pointer (h : src.isPointer = true ∨ dst.isPointer = true) :
    castOp Γ src dst = .copy := by
  rcases h with h | h
  · obtain ⟨hint, harith, -⟩ := pointer_facts (Γ := Γ) h
    simp [castOp, hint, harith]
  · obtain ⟨hint, harith, -⟩ := pointer_facts (Γ := Γ) h
    simp [castOp, hint, harith]

/-- Every number is `castOp`'s to convert by size and sign. -/
theorem castOp_of_integer (hsrc : typeIsInteger src = true) (hdst : typeIsInteger dst = true) :
    castOp Γ src dst =
      if src.bits Γ < dst.bits Γ then if typeIsSigned src then .sext else .zext
      else if dst.bits Γ < src.bits Γ then .trunc
      else if dst.bits Γ < 64 ∧ typeIsSigned src ≠ typeIsSigned dst then .trunc
      else .copy := by
  have hsrc' : src.isWord = true := by rw [CType.isWord, hsrc]; rfl
  have hdst' : dst.isWord = true := by rw [CType.isWord, hdst]; rfl
  have hs := word_size (Γ := Γ) hsrc'
  have hd := word_size (Γ := Γ) hdst'
  have hlt : src.bits Γ < dst.bits Γ ↔ typeSizeof Γ dst > typeSizeof Γ src := by
    unfold CType.bits
    omega
  have hgt : dst.bits Γ < src.bits Γ ↔ typeSizeof Γ dst < typeSizeof Γ src := by
    unfold CType.bits
    omega
  have hfull : dst.bits Γ < 64 ↔ typeSizeof Γ dst < 8 := by
    unfold CType.bits
    omega
  simp [castOp, hsrc, hdst, hlt, hgt, hfull]

/-- A number that is not widened is brought into the type. -/
theorem castWord_narrow (hsrc : typeIsInteger src = true) (hdst : typeIsInteger dst = true)
    (hle : dst.bits Γ ≤ src.bits Γ) (hv : src.Holds Γ v) :
    castWord Γ (castOp Γ src dst) tv dst (BitVec.ofInt 64 v) =
      BitVec.ofInt 64 (wrap (typeIsSigned dst) (dst.bits Γ) v) := by
  have hsrc' : src.isWord = true := by rw [CType.isWord, hsrc]; rfl
  have hdst' : dst.isWord = true := by rw [CType.isWord, hdst]; rfl
  have hbits := word_bits_le (Γ := Γ) hdst'
  have htrunc : castWord Γ .trunc tv dst (BitVec.ofInt 64 v) =
      BitVec.ofInt 64 (wrap (typeIsSigned dst) (dst.bits Γ) v) := by
    rw [castWord, extendWord_type hdst', extend_ofInt hbits.2]
  rw [castOp_of_integer hsrc hdst, if_neg (by omega)]
  split
  · exact htrunc
  · rename_i hge
    split
    · exact htrunc
    · rename_i hsame
      rcases Nat.lt_or_ge (dst.bits Γ) 64 with hlt | hfull
      · -- one width and one sign: the value is already in the range
        have hsign : typeIsSigned src = typeIsSigned dst := by
          by_contra hne
          exact hsame ⟨hlt, hne⟩
        have hrange := hv.inRange
        rw [hsign, show src.bits Γ = dst.bits Γ by omega] at hrange
        rw [wrap_of_inRange hbits.1 hbits.2 hrange]
        rfl
      · obtain hw : dst.bits Γ = 64 := by omega
        rw [hw, ofInt_wrap_full]
        rfl

/-- A number that is widened is extended by the bits of its temp. -/
theorem castWord_widen (hsrc : typeIsInteger src = true) (hdst : typeIsInteger dst = true)
    (hlt : src.bits Γ < dst.bits Γ) (hv : src.Holds Γ v) :
    castWord Γ (castOp Γ src dst) tv dst (BitVec.ofInt 64 v) =
        BitVec.ofInt 64 (wrap (typeIsSigned dst) (dst.bits Γ) v) ↔
      if typeIsSigned src then InRange true (tempBits Γ tv) v ∧
        (typeIsSigned dst = false → dst.bits Γ < 64 → 0 ≤ v)
      else tempBits Γ tv < 32 → v < 2 ^ tempBits Γ tv := by
  have hsrc' : src.isWord = true := by rw [CType.isWord, hsrc]; rfl
  have hdst' : dst.isWord = true := by rw [CType.isWord, hdst]; rfl
  have hs := word_bits (Γ := Γ) hsrc'
  have hd := word_bits (Γ := Γ) hdst'
  have ht : tempBits Γ tv = 8 ∨ tempBits Γ tv = 16 ∨ tempBits Γ tv = 32 ∨ tempBits Γ tv = 64 :=
    tempBits_cases
  have hrange := hv.inRange
  rw [castOp_of_integer hsrc hdst, if_pos hlt]
  cases hsign : typeIsSigned src with
  | true =>
    rw [hsign] at hrange
    rw [if_pos rfl, if_pos rfl, castWord, extendWord_temp, extend_ofInt (by omega),
      ofInt_wrap_true_iff (by omega) (by omega) (by omega) hlt (by omega) hrange]
  | false =>
    rw [hsign] at hrange
    rw [if_neg Bool.false_ne_true, if_neg Bool.false_ne_true, castWord]
    have hsmall : v < 2 ^ 32 := by
      have hpow : (2 : ℤ) ^ src.bits Γ ≤ 2 ^ 32 := pow_le_pow_right₀ (by norm_num) (by omega)
      simp only [InRange, Bool.false_eq_true, if_false] at hrange
      omega
    split
    · -- the word is taken to be extended already
      rename_i h4
      have ht4 : tempBits Γ tv = 32 := by rw [tempBits, h4]; rfl
      rw [wrap_of_inRange (by omega) (by omega) (hrange.widen hlt), ht4]
      simp
    · rename_i h4
      have ht4 : tempBits Γ tv ≠ 32 := by
        unfold tempBits
        split <;> omega
      rw [extendWord_temp, extend_ofInt (by omega),
        ofInt_wrap_false_iff (by omega) (by omega) (by omega) hlt hrange]
      rcases ht with h | h | h | h
      · simp [h]
      · simp [h]
      · exact absurd h ht4
      · rw [h]
        constructor
        · intro _ hno
          omega
        · intro _
          omega

/-- The word of a cast between different types is the one of the converted value exactly when
`CastAgrees` says so. -/
theorem castWord_iff (hsrc : src.isWord = true) (hdst : dst.isWord = true) (hv : src.Holds Γ v) :
    castWord Γ (castOp Γ src dst) tv dst (BitVec.ofInt 64 v) =
        BitVec.ofInt 64 (c99Convert Γ dst v) ↔ CastAgrees Γ tv src dst v := by
  have hrange := hv.inRange
  unfold CastAgrees
  cases hbool : dst.isBool with
  | true =>
    obtain ⟨hnp, hint, hsign, hsize⟩ := bool_facts (Γ := Γ) hbool
    have hbits : dst.bits Γ = 8 := by rw [CType.bits, hsize]; rfl
    have hconv : c99Convert Γ dst v = truth (v ≠ 0) := by rw [c99Convert, hbool]; rfl
    have htruth : InRange false 8 (truth (v ≠ 0)) := by
      unfold truth
      split <;> decide
    rw [hconv, if_pos rfl]
    cases hp : src.isPointer with
    | true =>
      obtain ⟨-, -, hsign', -, hsize'⟩ := pointer_facts (Γ := Γ) hp
      have hbits' : src.bits Γ = 64 := by rw [CType.bits, hsize']; rfl
      rw [hsign', hbits'] at hrange
      rw [castOp_of_pointer (.inl hp), if_pos rfl, castWord_copy]
      have hinj : BitVec.ofInt 64 v = BitVec.ofInt 64 (truth (v ≠ 0)) ↔ v = truth (v ≠ 0) :=
        ⟨ofInt_inj_of_inRange (by omega) le_rfl hrange (htruth.mono (by omega)), congrArg _⟩
      rw [hinj]
      unfold truth
      split <;> rename_i hz <;> simp only [decide_eq_true_eq] at hz <;> omega
    | false =>
      have hint' : typeIsInteger src = true := by
        rwa [CType.isWord, hp, Bool.or_false] at hsrc
      rw [castWord_narrow hint' hint (by have := word_bits (Γ := Γ) hsrc; omega) hv, hsign, hbits,
        if_neg Bool.false_ne_true]
      constructor
      · exact ofInt_inj_of_inRange (by omega) (by omega) (wrap_inRange (by omega) (by omega)) htruth
      · exact congrArg _
  | false =>
    rw [c99Convert_of_not_bool hbool, if_neg Bool.false_ne_true]
    cases hp : src.isPointer with
    | true =>
      have hd := word_bits (Γ := Γ) hdst
      rw [castOp_of_pointer (.inl hp), if_pos rfl, castWord_copy, ← canonical_ofInt_wrap_iff (by omega)]
      rcases Nat.lt_or_ge (dst.bits Γ) 64 with hlt | hge
      · have hwrap : InRange true 64 (wrap true 64 v) := wrap_inRange (by omega) le_rfl
        simp only [InRange, if_true] at hwrap
        have hfull : BitVec.ofInt 64 (wrap true 64 v) = BitVec.ofInt 64 v := ofInt_wrap_full
        rw [← hfull, canonical_ofInt_iff (by omega) hlt (by omega) (by omega)]
        simp [hlt]
      · rw [show dst.bits Γ = 64 by omega]
        simp [Canonical, extend_full]
    | false =>
      have hint' : typeIsInteger src = true := by
        rwa [CType.isWord, hp, Bool.or_false] at hsrc
      rw [if_neg Bool.false_ne_true]
      cases hpd : dst.isPointer with
      | true =>
        obtain ⟨-, -, -, -, hsize⟩ := pointer_facts (Γ := Γ) hpd
        have hbits : dst.bits Γ = 64 := by rw [CType.bits, hsize]; rfl
        rw [castOp_of_pointer (.inr hpd), castWord_copy, hbits, ofInt_wrap_full]
        simp
      | false =>
        have hint : typeIsInteger dst = true := by
          rwa [CType.isWord, hpd, Bool.or_false] at hdst
        rw [if_neg Bool.false_ne_true]
        rcases Nat.lt_or_ge (src.bits Γ) (dst.bits Γ) with hlt | hge
        · rw [castWord_widen hint' hint hlt hv]
          simp [hlt]
        · rw [castWord_narrow hint' hint hge hv]
          simp [Nat.not_lt.mpr hge]

/-- Between one type and itself there is nothing to convert. -/
theorem castAgrees_self (hv : src.Holds Γ v) : CastAgrees Γ tv src src v := by
  unfold CastAgrees
  split
  · rename_i hbool
    obtain ⟨hnp, -⟩ := bool_facts (Γ := Γ) hbool
    rw [hnp, if_neg Bool.false_ne_true]
    rw [CType.Holds, if_pos hbool] at hv
    rcases hv with rfl | rfl <;> rfl
  · split
    · rename_i hp
      obtain ⟨-, -, -, -, hsize⟩ := pointer_facts (Γ := Γ) hp
      intro hlt
      have hbits : src.bits Γ = 64 := by rw [CType.bits, hsize]; rfl
      omega
    · intro hlt
      exact absurd hlt (lt_irrefl _)

end Word

/-! ### The cast node -/

/-- The code of the cast that follows the operand's leaves the converted value in a slot. -/
def CastConverts (E : Env) (Γ : TypeEnv) (f : IRFunc) (ra : RegAlloc) (s : MState) (g : IrGen)
    (i : Info) (e : Expr) (dst : CType) (v : ℤ) : Prop :=
  ∃ code td s',
    (genExpr Γ (.cast i dst e) g).2.func.instrs = (genExpr Γ e g).2.func.instrs ++ code ∧
    (genExpr Γ (.cast i dst e) g).1.kind = .temp td ∧
    exec E (code.flatMap (codegenInstr Γ f ra)) s = some (s', .fall) ∧
    slotOf ra s' td = BitVec.ofInt 64 (c99Convert Γ dst v)

section Cast

variable (E : Env) (Γ : TypeEnv) (f : IRFunc) (ra : RegAlloc) (s : MState) (g : IrGen)

theorem castOp_cases {src dst : CType} (hsrc : src.isWord = true) (hdst : dst.isWord = true) :
    castOp Γ src dst = .copy ∨ castOp Γ src dst = .sext ∨ castOp Γ src dst = .zext ∨
      castOp Γ src dst = .trunc := by
  cases hp : src.isPointer || dst.isPointer with
  | true => exact .inl (castOp_of_pointer (by simpa using hp))
  | false =>
    obtain ⟨hs, hd⟩ := Bool.or_eq_false_iff.mp hp
    rw [CType.isWord, hs, Bool.or_false] at hsrc
    rw [CType.isWord, hd, Bool.or_false] at hdst
    rw [castOp_of_integer hsrc hdst]
    split_ifs <;> simp

theorem run_genCast (i : Info) {e : Expr} {src : CType} (dst : CType) (he : e.type = some src)
    (hne : src ≠ dst) :
    genExpr Γ (.cast i dst e) g =
      emitTo dst (castOp Γ src dst) (genExpr Γ e g).1 irvNone (genExpr Γ e g).2 := by
  change (genExpr Γ e >>= fun v => _) g = _
  rw [he]
  simp only [hne, if_false]
  rfl

theorem run_genCast_self (i : Info) {e : Expr} {src : CType} (he : e.type = some src) :
    genExpr Γ (.cast i src e) g = genExpr Γ e g := by
  change (genExpr Γ e >>= fun v => _) g = _
  rw [he]
  simp only [if_true]
  rfl

theorem castConverts_iff (i : Info) {e : Expr} {src dst tv : CType} {ts : ℕ} {v : ℤ}
    (hsrc : src.isWord = true) (hdst : dst.isWord = true) (he : e.type = some src)
    (htv : isFpType (some tv) = false) (hval : (genExpr Γ e g).1 = irvTemp ts tv)
    (hv : src.Holds Γ v) (hslot : slotOf ra s ts = BitVec.ofInt 64 v) :
    CastConverts E Γ f ra s g i e dst v ↔ CastAgrees Γ tv src dst v := by
  by_cases heq : src = dst
  · subst heq
    rw [iff_true_right (castAgrees_self hv)]
    refine ⟨[], ts, s, ?_, ?_, rfl, ?_⟩
    · rw [run_genCast_self Γ g i he, List.append_nil]
    · rw [run_genCast_self Γ g i he, hval]
      rfl
    · rw [hslot, c99Convert_of_holds hsrc hv]
  · have hrun := run_genCast Γ g i dst he heq
    rw [hval] at hrun
    have hcode := exec_cast E Γ f ra (castOp_cases Γ hsrc hdst) htv (word_not_fp hdst)
      (genExpr Γ e g).2.func.nextTemp ts s
    rw [hslot] at hcode
    rw [← castWord_iff hsrc hdst hv]
    constructor
    · rintro ⟨code, td, s', hinstrs, hkind, hexec, hword⟩
      rw [hrun] at hinstrs hkind
      obtain rfl := List.append_cancel_left hinstrs
      obtain rfl := IRVKind.temp.inj hkind
      rw [List.flatMap_cons, List.flatMap_nil, List.append_nil] at hexec
      rw [hexec] at hcode
      rw [← hword]
      exact (congrArg Prod.fst (Option.some.inj hcode)).symm
    · intro hword
      obtain ⟨⟨s', x⟩, hexec, hres⟩ := Option.map_eq_some_iff.mp hcode
      obtain ⟨hslot', rfl⟩ := Prod.mk.inj hres
      refine ⟨_, (genExpr Γ e g).2.func.nextTemp, s', by rw [hrun]; rfl, by rw [hrun]; rfl, ?_, ?_⟩
      · rw [List.flatMap_cons, List.flatMap_nil, List.append_nil]
        exact hexec
      · rw [← hword]
        exact hslot'

/-- The code of a cast between the integer types, enums and pointers gives the C99 conversion of the
value in its source slot exactly when `CastAgrees`; the conversions themselves compose. -/
theorem cast_value_iff (i : Info) {e : Expr} {src dst tv : CType} {ts : ℕ} {v : ℤ}
    (hsrc : src.isWord = true) (hdst : dst.isWord = true) (he : e.type = some src)
    (htv : isFpType (some tv) = false) (hval : (genExpr Γ e g).1 = irvTemp ts tv)
    (hv : src.Holds Γ v) (hslot : slotOf ra s ts = BitVec.ofInt 64 v) :
    (CastConverts E Γ f ra s g i e dst v ↔ CastAgrees Γ tv src dst v) ∧
      ∀ mid : CType, mid.isWord = true → mid.isBool = false → src.bits Γ ≤ mid.bits Γ →
        dst.bits Γ ≤ mid.bits Γ →
          c99Convert Γ dst (c99Convert Γ mid v) = c99Convert Γ dst v :=
  ⟨castConverts_iff E Γ f ra s g i hsrc hdst he htv hval hv hslot,
    fun _ _ hbool hle hle' => c99Convert_through hsrc hbool hle hle' hv⟩

end Cast

/-! `(unsigned int)c` for a local `signed char c`, whose address is in temp 1. -/

def charIdent : Expr := .ident { type := some (.scalar .schar .none) } "c"

def charGen : IrGen where
  func := { emptyFunc with nextTemp := 2 }
  scope := ScopeChain.define vtabBuckets [fun _ => []] "c"
    ⟨irvTemp 1 (typePointer (.scalar .schar .none) .none), false⟩

theorem charGen_value : (genExpr .empty charIdent charGen).1 = irvTemp 2 (.scalar .schar .none) := by
  decide

theorem schar_holds {v : ℤ} (h : InRange true 8 v) : (CType.scalar .schar .none).Holds .empty v := h

/-- `5` meets the condition. -/
theorem cast_value_five :
    CastConverts idleEnv .empty emptyFunc (regallocRun emptyFunc) (slotsState 0 5) charGen {}
        charIdent typeUint 5 :=
  (cast_value_iff idleEnv .empty emptyFunc (regallocRun emptyFunc) (slotsState 0 5) charGen {}
    (by decide) (by decide) rfl (by decide) charGen_value (schar_holds (by decide))
    (by decide)).1.mpr (by decide)

/-- `-1` becomes `18446744073709551615`, not `4294967295`. -/
theorem cast_of_minus_one :
    ¬ ∀ (E : Env) (Γ : TypeEnv) (f : IRFunc) (ra : RegAlloc) (s : MState) (g : IrGen) (i : Info)
      (e : Expr) (src dst tv : CType) (ts : ℕ) (v : ℤ), src.isWord = true → dst.isWord = true →
      e.type = some src → (genExpr Γ e g).1 = irvTemp ts tv → src.Holds Γ v →
      slotOf ra s ts = BitVec.ofInt 64 v → CastConverts E Γ f ra s g i e dst v := by
  intro h
  have hslot : slotOf (regallocRun emptyFunc) (slotsState 0 (BitVec.ofInt 64 (-1))) 2 =
      BitVec.ofInt 64 (-1) := by decide
  have hcast := h idleEnv .empty emptyFunc (regallocRun emptyFunc) _ charGen {} charIdent _ typeUint
    _ 2 (-1) (by decide) (by decide) rfl charGen_value (schar_holds (by decide)) hslot
  rw [castConverts_iff idleEnv .empty emptyFunc _ _ charGen {} (by decide) (by decide) rfl
    (by decide) charGen_value (schar_holds (by decide)) hslot] at hcast
  revert hcast
  decide

end TinyC

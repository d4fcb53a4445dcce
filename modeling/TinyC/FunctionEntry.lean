import TinyC.BlockCopies
import TinyC.CallLocations
import TinyC.CodegenCorrect
import TinyC.ExprWords

/-!
# The entry of a function

The prologue sets up the frame. The storage of each parameter is found and its word captured, from
the register or the place on the caller's stack where the caller left it.
-/

namespace TinyC

open ByteMemory StateTransition Relation

/-! ### Memory -/

/-- A store of fewer bytes is one of all eight as they are then. -/
theorem store_eq_store_load (m : Mem) (a : Addr) {n : ℕ} (hn : n ≤ 8) (x : BitVec 64) :
    store m a n x = store m a 8 (load (store m a n x) a 8) := by
  funext y
  by_cases hy : (y - a).toNat < 8
  · have hat : y = a + BitVec.ofNat 64 (y - a).toNat := by
      rw [BitVec.ofNat_toNat, BitVec.setWidth_eq, add_comm, BitVec.sub_add_cancel]
    rw [hat, store_apply_add hy le_rfl, byteOf_load _ _ _ _ hy, if_pos hy]
  · rw [store_apply_of_not_lt hy, store_apply_of_not_lt (by omega)]

/-- Only the low bytes are stored. -/
theorem store_congr {n : ℕ} {x y : BitVec 64} (h : ∀ k < n, byteOf x k = byteOf y k) (m : Mem)
    (a : Addr) : store m a n x = store m a n y := by
  funext z
  unfold store
  split
  · exact h _ ‹_›
  · rfl

/-- The low bytes of a slot are written. -/
theorem SlotFrame.Holds.setLow {F : SlotFrame} {s s' : MState} {τ : ℕ → BitVec 64} {m : Mem}
    {t n : ℕ} {w : BitVec 64} (h : F.Holds s ⟨τ, m⟩) (ht : 1 ≤ t) (ht' : t < F.temps) (hn : n ≤ 8)
    (hbp : s'.reg .rbp = s.reg .rbp) (hmem : s'.mem = ByteMemory.store s.mem (F.addr t) n w) :
    ∃ x, F.Holds s' ⟨Function.update τ t x, m⟩ ∧ ∀ k < n, byteOf x k = byteOf w k := by
  refine ⟨ByteMemory.load s'.mem (F.addr t) 8, h.setTemp ht ht' hbp ?_, fun k hk => ?_⟩
  · rw [hmem]
    exact store_eq_store_load _ _ hn _
  · rw [byteOf_load _ _ _ _ (by omega), if_pos (by omega), hmem, store_apply_add hk hn]

/-! ### Where the parameters are -/

/-- Parameter `i` in the registers, or on the stack where the base pointer is `bp`. -/
def paramWord (reg : Reg → BitVec 64) (m : Mem) (bp : BitVec 64) (i : ℕ) : BitVec 64 :=
  if i < 6 then reg (paramReg i) else load m (bp + BitVec.ofInt 64 (16 + 8 * (i - 6 : ℕ))) 8

section

variable {Γ : TypeEnv} {ty : CType}

theorem stackBytes_word (h : ty.isWord = true) : stackBytes Γ ty = 8 := by
  unfold stackBytes
  rcases word_size (Γ := Γ) h with hs | hs | hs | hs <;> rw [hs] <;> decide +kernel

/-- The eightbyte of a word takes a register while there are any. -/
theorem ArgState.next_word (h : ty.isWord = true) (i : ℕ) (off : ℤ) :
    ArgState.next Γ ⟨i, 0, off⟩ ty = if i < 6 then ⟨i + 1, 0, off⟩ else ⟨i, 0, off + 8⟩ := by
  have hclass := classes_of_word (Γ := Γ) h
  have hmem : abiInMemory (abiClassify Γ ty) = false := by
    rw [abiInMemory, hclass]
    rfl
  have hneeds : (abiClassify Γ ty).needs = (1, 0) := by
    rw [ABIClassification.needs, hclass]
    rfl
  have hfits : fitsRegs i 0 (abiClassify Γ ty) = decide (i < 6) := by
    rw [fitsRegs, hneeds]
    exact Bool.and_true _
  by_cases hi : i < 6 <;> simp [ArgState.next, hmem, hneeds, hfits, hi, stackBytes_word h]

theorem foldl_next_words {tys : List CType} (h : ∀ ty ∈ tys, ty.isWord = true) :
    tys.foldl (ArgState.next Γ) ⟨0, 0, 16⟩ =
      ⟨min tys.length 6, 0, 16 + 8 * (tys.length - 6 : ℕ)⟩ := by
  induction tys using List.reverseRecOn with
  | nil => rfl
  | append_singleton tys ty ih =>
    rw [List.foldl_append, ih fun ty hty => h ty (List.mem_append_left _ hty), List.foldl_cons,
      List.foldl_nil, ArgState.next_word (h ty (by simp)), List.length_append, List.length_singleton]
    split
    · have hlt : tys.length < 6 := by omega
      rw [Nat.min_eq_left (by omega), Nat.min_eq_left (by omega)]
      simp [show tys.length - 6 = 0 by omega, show tys.length + 1 - 6 = 0 by omega]
    · have hle : 6 ≤ tys.length := by omega
      rw [Nat.min_eq_right hle, Nat.min_eq_right (by omega)]
      simp only [ArgState.mk.injEq, true_and]
      omega

theorem emitStoreChunk_word (h : ty.isWord = true) (off : ℤ) (r : Reg) :
    emitStoreChunk .rbp off (typeSizeof Γ ty) r =
      [.mov (storeWidth (typeSizeof Γ ty)) (.reg r) (.mem off .rbp)] := by
  rcases word_size (Γ := Γ) h with hs | hs | hs | hs <;> rw [hs] <;> rfl

theorem emitCopyBytes_word (h : ty.isWord = true) (dst src : Reg) :
    emitCopyBytes dst src (max (typeSizeof Γ ty) 0) =
      copyChunk (storeWidth (typeSizeof Γ ty)) dst src 0 := by
  rcases word_size (Γ := Γ) h with hs | hs | hs | hs <;> rw [hs] <;> rfl

theorem word_not_aggregate (h : ty.isWord = true) : isAggregateType (some ty) = false := by
  cases ty with
  | agg u id q => cases h
  | _ => rfl

variable (Γ) in
/-- The code that captures parameter `idx`, of type `ty`, in the slot at `slot`. -/
def captureWord (ty : CType) (idx : ℕ) (slot : ℤ) : List Instr :=
  if idx < 6 then [.mov (storeWidth (typeSizeof Γ ty)) (.reg (paramReg idx)) (.mem slot .rbp)]
  else [.lea (.mem slot .rbp) .r11, .lea (.mem (16 + 8 * (idx - 6 : ℕ)) .rbp) .r10] ++
    copyChunk (storeWidth (typeSizeof Γ ty)) .r11 .r10 0

theorem codegen_paramCopy (f : IRFunc) (ra : RegAlloc) {idx : ℕ} (hty : ty.isWord = true)
    (hret : abiInMemory (abiClassify Γ f.retType) = false) (hidx : idx ≤ f.params.length)
    (hparams : ∀ q ∈ f.params.take idx, q.2.isWord = true) (addr t : ℕ) :
    codegenInstr Γ f ra (paramCopy idx ty addr t) = captureWord Γ ty idx (ra.slot t) := by
  have hst : computeArgState Γ f idx = ⟨min idx 6, 0, 16 + 8 * (idx - 6 : ℕ)⟩ := by
    have hwords : ∀ ty ∈ (f.params.take idx).map Prod.snd, ty.isWord = true := by
      intro ty hmem
      obtain ⟨q, hq, rfl⟩ := List.mem_map.mp hmem
      exact hparams q hq
    have hfold := foldl_next_words (Γ := Γ) hwords
    rw [List.length_map, List.length_take, Nat.min_eq_left hidx] at hfold
    simp only [computeArgState, hret, Bool.false_eq_true, if_false]
    exact hfold
  have hagg := word_not_aggregate hty
  have hclass := classes_of_word (Γ := Γ) hty
  have hmem : abiInMemory (abiClassify Γ ty) = false := by
    rw [abiInMemory, hclass]
    rfl
  have hneeds : (abiClassify Γ ty).needs = (1, 0) := by
    rw [ABIClassification.needs, hclass]
    rfl
  have hnone : isAggregateType none = false := rfl
  have hcode : codegenInstr Γ f ra (paramCopy idx ty addr t) =
      if fitsRegs (min idx 6) 0 (abiClassify Γ ty) then
        captureEightbytes (ra.slot t) (typeSizeof Γ ty) false [.integer] 0 (min idx 6) 0
      else captureFromStack ra (irvTemp t ty) (ra.slot t) (typeSizeof Γ ty)
        (16 + 8 * (idx - 6 : ℕ)) false := by
    simp [codegenInstr, paramCopy, hagg, irvNone, codegenParam, hst, irvTemp, hnone, hmem, hclass]
  rw [hcode, fitsRegs, hneeds, captureWord]
  by_cases hi : idx < 6
  · rw [if_pos hi, Nat.min_eq_left (by omega), if_pos (by simp; omega)]
    simp [captureEightbytes, emitStoreChunk_word hty]
  · rw [if_neg hi, Nat.min_eq_right (by omega), if_neg (by simp), captureFromStack,
      emitCopyBytes_word hty]
    rfl

end

/-! ### The code of the entry -/

section

variable {Γ : TypeEnv} {E : Env} {K : ObjectLayout} {F : SlotFrame} {f : IRFunc} {s : MState}
  {m : Mem} {τ : ℕ → BitVec 64} {t idx : ℕ} {ty : CType}

theorem exec_prologue (ra : RegAlloc) (s : MState) :
    ∃ s', exec E (prologue ra) s = some (s', .fall) ∧ s'.reg .rbp = s.reg .rsp - 8 ∧
      s'.mem = store s.mem (s.reg .rsp - 8) 8 (s.reg .rbp) ∧
      ∀ r, r ≠ .rbp → r ≠ .rsp → s'.reg r = s.reg r := by
  let sp := s.reg .rsp - 8
  let s₁ : MState := { s.setReg .rsp sp with mem := store s.mem sp 8 (s.reg .rbp) }
  let s₂ : MState := s₁.setReg .rbp (zeroExt 8 sp)
  have hpush : (Instr.push .rbp).step E s = some s₁ := by
    simp only [Instr.step, setReg_reg_self, setReg_mem]
    rfl
  have hmov : (Instr.mov .quad (.reg .rsp) (.reg .rbp)).step E s₁ = some s₂ := by
    have hsp : s₁.reg .rsp = sp := setReg_reg_self s .rsp sp
    simp only [Instr.step, MState.get, MState.put, MState.writeReg, hsp]
    rfl
  refine ⟨_, by rw [prologue, exec_cons hpush, exec_cons hmov, exec_cons rfl]; rfl, ?_, rfl, ?_⟩
  · rw [setReg_reg_of_ne _ _ (by decide), setReg_reg_self, zeroExt_eight]
  · intro r hbp hsp
    rw [setReg_reg_of_ne _ _ hsp, setReg_reg_of_ne _ _ hbp]
    exact setReg_reg_of_ne _ _ hsp

/-- The storage of a variable is found. -/
theorem exec_allocaHead (h : F.Holds s ⟨τ, m⟩) (hK : F.Houses E K) (ht : 1 ≤ t) (ht' : t < F.temps)
    {i : IRInstr} (hop : i.op = .alloca) (hdst : i.dst.kind = .temp t) :
    ∃ s', exec E (codegenInstr Γ f F.ra i) s = some (s', .fall) ∧
      F.Holds s' ⟨Function.update τ t (K.place t), m⟩ ∧ ∀ r, r ≠ .rax → s'.reg r = s.reg r := by
  have hw : s.ea (F.ra.allocaOff t) .rbp = K.place t := by rw [MState.ea, h.bp, ← hK.place t]
  let s₁ := s.setReg .rax (K.place t)
  have hlea : (Instr.lea (.mem (F.ra.allocaOff t) .rbp) .rax).step E s = some s₁ := by
    rw [Instr.step, hw]
  have hrbp : s₁.reg .rbp = s.reg .rbp := setReg_reg_of_ne _ _ (by decide)
  have hlines : codegenInstr Γ f F.ra i =
      [.lea (.mem (F.ra.allocaOff t) .rbp) .rax] ++ storeReg F.ra (irvTemp t typeInt) .rax := by
    simp [codegenInstr, hop, hdst, storeReg, irvTemp]
  refine ⟨setSlot F.ra s₁ t (s₁.reg .rax), ?_, ?_, fun r hr => setReg_reg_of_ne _ _ hr⟩
  · have hhead : exec E [.lea (.mem (F.ra.allocaOff t) .rbp) .rax] s = some (s₁, .fall) := by
      rw [exec_cons hlea]
      rfl
    rw [hlines, exec_append hhead]
    exact exec_storeReg_end E F.ra s₁ t typeInt .rax
  · refine h.setTemp ht ht' hrbp ?_
    rw [setSlot, MState.ea, hrbp, h.bp, setReg_reg_self]
    rfl

theorem storeWidth_bytes (hty : ty.isWord = true) :
    (storeWidth (typeSizeof Γ ty)).bytes = (typeSizeof Γ ty).toNat := by
  rcases word_size (Γ := Γ) hty with h | h | h | h <;> rw [h] <;> rfl

/-- One chunk goes from where `src` points to where `dst` points. -/
theorem exec_copyChunk (s : MState) (w : Width) {dst src : Reg} (hdst : dst ≠ .rax) :
    ∃ s', exec E (copyChunk w dst src 0) s = some (s', .fall) ∧
      s'.mem = store s.mem (s.reg dst) w.bytes (load s.mem (s.reg src) w.bytes) ∧
      ∀ r, r ≠ .rax → s'.reg r = s.reg r := by
  have hea : ∀ (t : MState) r, t.ea 0 r = t.reg r := fun t r => by simp [MState.ea]
  let u := s.writeReg w .rax (load s.mem (s.reg src) w.bytes)
  have hreg : ∀ r, r ≠ .rax → u.reg r = s.reg r := fun r hr => writeReg_reg_of_ne _ _ _ hr
  have hmem : u.mem = s.mem := by
    cases w <;> rfl
  have hload : (Instr.mov w (.mem 0 src) (.reg .rax)).step E s = some u := by
    rw [Instr.step, MState.get, hea]
    rfl
  have hvalue : zeroExt w.bytes (u.reg .rax) =
      zeroExt w.bytes (load s.mem (s.reg src) w.bytes) := zeroExt_writeReg _ _ _ _
  refine ⟨{ u with mem := store u.mem (u.ea 0 dst) w.bytes (zeroExt w.bytes (u.reg .rax)) }, ?_, ?_,
    hreg⟩
  · rw [copyChunk, exec_cons hload, exec_cons rfl]
    rfl
  · rw [hvalue, store_zeroExt _ _ _ (Width.bytes_le w), hea, hreg dst hdst, hmem]

theorem byteOf_load_low (m : Mem) (a : Addr) {n k : ℕ} (hk : k < n) (hn : n ≤ 8) :
    byteOf (load m a n) k = byteOf (load m a 8) k := by
  rw [byteOf_load _ _ _ _ (by omega), byteOf_load _ _ _ _ (by omega), if_pos hk, if_pos (by omega)]

/-- The word of a parameter comes to a slot, up to the bytes beyond its type. -/
theorem exec_captureWord (h : F.Holds s ⟨τ, m⟩) (ht : 1 ≤ t) (ht' : t < F.temps)
    (hty : ty.isWord = true)
    (hstack : 6 ≤ idx → F.Clear (F.bp + BitVec.ofInt 64 (16 + 8 * (idx - 6 : ℕ))) 8) :
    ∃ s' x, exec E (captureWord Γ ty idx (F.ra.slot t)) s = some (s', .fall) ∧
      F.Holds s' ⟨Function.update τ t x, m⟩ ∧
      (∀ k < (typeSizeof Γ ty).toNat, byteOf x k = byteOf (paramWord s.reg m F.bp idx) k) ∧
      ∀ r, r ≠ .rax → r ≠ .r10 → r ≠ .r11 → s'.reg r = s.reg r := by
  have hsize := storeWidth_bytes (Γ := Γ) hty
  unfold captureWord paramWord
  generalize storeWidth (typeSizeof Γ ty) = w at hsize ⊢
  by_cases hidx : idx < 6
  · let v := zeroExt w.bytes (s.reg (paramReg idx))
    let s' : MState := { s with mem := store s.mem (s.ea (F.ra.slot t) .rbp) w.bytes v }
    have hmem : s'.mem = store s.mem (F.addr t) w.bytes (s.reg (paramReg idx)) := by
      change store s.mem (s.ea (F.ra.slot t) .rbp) w.bytes _ = _
      rw [store_zeroExt _ _ _ (Width.bytes_le w), SlotFrame.slot_ea h.bp]
    have hrbp : s'.reg .rbp = s.reg .rbp := rfl
    obtain ⟨x, hholds, hx⟩ := h.setLow ht ht' (Width.bytes_le w) hrbp hmem
    refine ⟨s', x, ?_, hholds, ?_, fun _ _ _ _ => rfl⟩
    · rw [if_pos hidx]
      exact exec_cons rfl
    · rw [if_pos hidx, ← hsize]
      exact hx
  · let a := F.bp + BitVec.ofInt 64 (16 + 8 * (idx - 6 : ℕ))
    let s₁ := s.setReg .r11 (s.ea (F.ra.slot t) .rbp)
    let s₂ := s₁.setReg .r10 (s₁.ea (16 + 8 * (idx - 6 : ℕ)) .rbp)
    obtain ⟨s', hexec, hmem, hreg⟩ := @exec_copyChunk E s₂ w .r11 .r10 (by decide)
    have hother : ∀ r, r ≠ .r10 → r ≠ .r11 → s₂.reg r = s.reg r := fun r h10 h11 => by
      rw [setReg_reg_of_ne _ _ h10, setReg_reg_of_ne _ _ h11]
    have hdst : s₂.reg .r11 = F.addr t := by
      rw [setReg_reg_of_ne _ _ (by decide), setReg_reg_self, SlotFrame.slot_ea h.bp]
    have hsrc : s₂.reg .r10 = a := by
      rw [setReg_reg_self, MState.ea, setReg_reg_of_ne _ _ (by decide), h.bp]
    rw [hdst, hsrc] at hmem
    have hrbp : s'.reg .rbp = s.reg .rbp :=
      (hreg .rbp (by decide)).trans (hother .rbp (by decide) (by decide))
    obtain ⟨x, hholds, hx⟩ := h.setLow ht ht' (Width.bytes_le w) hrbp hmem
    refine ⟨s', x, ?_, hholds, fun k hk => ?_, fun r hax h10 h11 =>
      (hreg r hax).trans (hother r h10 h11)⟩
    · rw [if_neg hidx, List.cons_append, List.cons_append, exec_cons rfl, exec_cons rfl]
      exact hexec
    · rw [← hsize] at hk
      have hbytes := Width.bytes_le w
      rw [if_neg hidx, hx k hk, byteOf_load_low _ _ hk hbytes, ← h.load (hstack (by omega)) le_rfl]
      rfl

end

end TinyC

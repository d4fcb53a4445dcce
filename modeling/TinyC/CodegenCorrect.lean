import TinyC.AsmRuns
import TinyC.FrameLayout
import TinyC.WordCode

/-!
# The assembly of a function runs as its IR

From the end of the prologue on, the lines of a function of integer code follow the runs of its
instructions: they come to the same returns, and run on forever with them.
-/

namespace TinyC

open ByteMemory StateTransition Relation

/-! ### Positions -/

section

variable {α β : Type} {xs : List α} {k : ℕ} {a : α}

theorem flatMap_take_succ (h : xs[k]? = some a) (c : α → List β) :
    (xs.take (k + 1)).flatMap c = (xs.take k).flatMap c ++ c a := by
  obtain ⟨hk, rfl⟩ := List.getElem?_eq_some_iff.mp h
  rw [List.take_succ_eq_append_getElem hk, List.flatMap_append, List.flatMap_singleton]

theorem flatMap_split (h : xs[k]? = some a) (c : α → List β) :
    xs.flatMap c = (xs.take k).flatMap c ++ c a ++ (xs.drop (k + 1)).flatMap c := by
  rw [← flatMap_take_succ h, ← List.flatMap_append, List.take_append_drop]

end

section

variable (Γ : TypeEnv) (f : IRFunc)

/-- The lines before the code of the instruction at `k`. -/
def asmBefore (k : ℕ) : List Instr :=
  prologue (regallocRun f) ++ (f.instrs.take k).flatMap (codegenInstr Γ f (regallocRun f))

/-- Where the code of the instruction at `k` begins. -/
def asmPos (k : ℕ) : ℕ := (asmBefore Γ f k).length

def asmAfter (k : ℕ) : List Instr :=
  (f.instrs.drop k).flatMap (codegenInstr Γ f (regallocRun f)) ++ [.leave, .ret]

variable {Γ f} {k : ℕ} {i : IRInstr}

theorem codegenFunc_split (hi : f.instrs[k]? = some i) :
    codegenFunc Γ f =
      asmBefore Γ f k ++ codegenInstr Γ f (regallocRun f) i ++ asmAfter Γ f (k + 1) := by
  have hflat := flatMap_split hi (codegenInstr Γ f (regallocRun f))
  unfold codegenFunc asmBefore asmAfter
  dsimp only
  rw [hflat]
  simp only [List.append_assoc]

theorem asmPos_succ (hi : f.instrs[k]? = some i) :
    asmPos Γ f (k + 1) = asmPos Γ f k + (codegenInstr Γ f (regallocRun f) i).length := by
  have hflat := flatMap_take_succ hi (codegenInstr Γ f (regallocRun f))
  unfold asmPos asmBefore
  rw [hflat, ← List.append_assoc, List.length_append]

/-- After the last instruction. -/
theorem codegenFunc_end (hk : f.instrs[k]? = none) :
    codegenFunc Γ f = asmBefore Γ f k ++ [.leave, .ret] := by
  have hle : f.instrs.length ≤ k := List.getElem?_eq_none_iff.mp hk
  unfold codegenFunc asmBefore
  rw [List.take_of_length_le hle]

end

/-! ### Labels -/

/-- No line is a label. -/
def Unlabelled (is : List Instr) : Prop := ∀ l, Instr.label l ∉ is

namespace Unlabelled

variable {is js : List Instr} (ra : RegAlloc) (v : IRValue) (r : Reg)

theorem nil : Unlabelled [] := fun _ => List.not_mem_nil

theorem append (h : Unlabelled is) (h' : Unlabelled js) : Unlabelled (is ++ js) := fun l hl =>
  (List.mem_append.mp hl).elim (h l) (h' l)

theorem loadReg : Unlabelled (loadReg ra v r) := by
  intro l
  unfold TinyC.loadReg
  cases v.kind <;> simp

theorem storeReg : Unlabelled (storeReg ra v r) := by
  intro l
  unfold TinyC.storeReg
  cases v.kind <;> simp

theorem extendRax (sz : ℤ) (b : Bool) : Unlabelled (extendRax sz b) := by
  intro l
  unfold TinyC.extendRax
  split_ifs <;> simp

theorem cons {i : Instr} (hi : ∀ l, i ≠ .label l) (h : Unlabelled is) : Unlabelled (i :: is) :=
  fun l hl => (List.mem_cons.mp hl).elim (fun he => hi l he.symm) (h l)

theorem ite {p : Prop} [Decidable p] (h : Unlabelled is) (h' : Unlabelled js) :
    Unlabelled (if p then is else js) := by
  split
  · exact h
  · exact h'

theorem copyBytes (dst src : Reg) (size : ℤ) : Unlabelled (emitCopyBytes dst src size) := by
  have hchunk : ∀ w off, Unlabelled (copyChunk w dst src off) := fun w off l => by simp [copyChunk]
  have hquads : Unlabelled ((List.range (size / 8).toNat).flatMap fun i =>
      copyChunk .quad dst src (8 * i)) := by
    intro l hl
    obtain ⟨k, -, hk⟩ := List.mem_flatMap.mp hl
    exact hchunk _ _ l hk
  exact ((hquads.append (.ite (hchunk _ _) .nil)).append (.ite (hchunk _ _) .nil)).append
    (.ite (hchunk _ _) .nil)

theorem captureEightbytes (slot size : ℤ) (toAddr : Bool) (cs : List ABIClass) (j i x : ℕ) :
    Unlabelled (captureEightbytes slot size toAddr cs j i x) := by
  induction cs generalizing j i x with
  | nil => exact .nil
  | cons c cs ih =>
    cases c with
    | integer =>
      refine .append ?_ (ih _ _ _)
      intro l
      unfold emitStoreEightbyteToMem emitStoreChunk
      split_ifs <;> simp
    | sse => exact .cons (fun l => by simp) (ih _ _ _)
    | _ => exact ih _ _ _

theorem captureFromStack (dst : IRValue) (slot size off : ℤ) (toAddr : Bool) :
    Unlabelled (captureFromStack ra dst slot size off toAddr) := by
  have hlea : ∀ d r, Unlabelled [Instr.lea (.mem d .rbp) r] := fun d r l => by simp
  exact ((ite (loadReg ra dst .r11) (hlea _ _)).append (hlea _ _)).append (copyBytes _ _ _)

theorem codegenParam (Γ : TypeEnv) (f : IRFunc) (ins : IRInstr) :
    Unlabelled (codegenParam Γ f ra ins) := by
  unfold TinyC.codegenParam
  refine .ite (storeReg ra _ _) (.ite (captureFromStack ra _ _ _ _ _) (.ite ?_
    (captureFromStack ra _ _ _ _ _)))
  exact (ite (loadReg ra _ _) .nil).append (captureEightbytes _ _ _ _ _ _ _)

end Unlabelled

theorem loadExtended_ne_label (sz : ℤ) (b : Bool) (l : ℤ) : loadExtended sz b ≠ .label l := by
  unfold loadExtended
  split_ifs <;> simp

/-! ### Returns -/

/-- The word a function returns for the word `x` of the returned expression. -/
def returnedWord (Γ : TypeEnv) (f : IRFunc) (x : BitVec 64) : BitVec 64 :=
  match f.funcType with
  | some (.func ret _ _ _) =>
      if typeIsInteger ret then extendWord (typeSizeof Γ ret) (typeIsSigned ret) x else x
  | _ => x

/-- The lines that bring a returned word into the return type. -/
def returnLines (Γ : TypeEnv) (f : IRFunc) : List Instr :=
  match f.funcType with
  | some (.func ret _ _ _) => normalizeRaxToType Γ (some ret)
  | _ => []

theorem classes_of_word {Γ : TypeEnv} {ty : CType} (h : ty.isWord = true) :
    (abiClassify Γ ty).classes = [.integer] := by
  cases ty with
  | scalar k q => cases k <;> first | rfl | cases h
  | pointer p q => rfl
  | enum id q => rfl
  | _ => cases h

section

variable {Γ : TypeEnv} {f : IRFunc} (ra : RegAlloc) {v : IRValue}

theorem returnValue_none (h : v.kind = .none) : returnValue Γ f ra v = [] := by
  rw [returnValue, h]

theorem returnValue_word (hv : v.kind ≠ .none) (hf : f.retType.isWord = true) :
    returnValue Γ f ra v = loadReg ra v .rax ++ returnLines Γ f := by
  have hclass := classes_of_word (Γ := Γ) hf
  have hagg : isAggregateType (some f.retType) = false := by
    cases hty : f.retType with
    | agg u id q => rw [hty] at hf; cases hf
    | _ => rfl
  have hmem : abiInMemory (abiClassify Γ f.retType) = false := by
    rw [abiInMemory, hclass]
    rfl
  unfold returnValue
  cases hk : v.kind with
  | none => exact absurd hk hv
  | _ =>
    simp only [hmem, hagg, hclass, Bool.false_eq_true, if_false, if_true, reduceCtorEq,
      List.cons.injEq, and_true]
    rfl

theorem unlabelled_returnLines : Unlabelled (returnLines Γ f) := by
  unfold returnLines normalizeRaxToType
  split
  · dsimp only
    split
    · exact .extendRax _ _
    · exact .nil
  · exact .nil

theorem Carries.returnLines {E : Env} {is : List Instr} {s s' : MState} {x : BitVec 64}
    (h : Carries E is s .rax x s') :
    ∃ s'', Carries E (is ++ returnLines Γ f) s .rax (returnedWord Γ f x) s'' := by
  unfold TinyC.returnLines normalizeRaxToType returnedWord
  split
  · dsimp only
    split
    · exact ⟨_, h.extendRax _ _⟩
    · exact ⟨s', by simpa using h⟩
  · exact ⟨s', by simpa using h⟩

theorem unlabelled_returnValue (h : v.kind = .none ∨ f.retType.isWord = true) :
    Unlabelled (returnValue Γ f ra v) := by
  by_cases hv : v.kind = .none
  · rw [returnValue_none ra hv]
    exact .nil
  · rw [returnValue_word ra hv (h.resolve_left hv)]
    exact (Unlabelled.loadReg ra v .rax).append unlabelled_returnLines

end

/-! ### Integer functions -/

/-- A function of integer code: its instructions are known to the machine on words, its temps have
slots, and what it returns is an integer or a pointer. -/
structure IRFunc.WordFunc (f : IRFunc) : Prop where
  code : ∀ i ∈ f.instrs, i.isWordCode = true
  within : ∀ i ∈ f.instrs, i.Within f.nextTemp
  returns : ∀ i ∈ f.instrs, i.op = .ret → i.src1.kind = .none ∨ f.retType.isWord = true

section

variable {Γ : TypeEnv} {f : IRFunc} (ra : RegAlloc) {i : IRInstr} {l : ℤ}

/-- Only the code of a label is one. -/
theorem unlabelled_codegenInstr (hcode : i.isWordCode = true) (hop : i.op ≠ .label)
    (hret : i.op = .ret → i.src1.kind = .none ∨ f.retType.isWord = true) :
    Unlabelled (codegenInstr Γ f ra i) := by
  have hload := fun v r => Unlabelled.loadReg ra v r
  have hstore := fun v r => Unlabelled.storeReg ra v r
  have hext := Unlabelled.extendRax
  intro l hl
  unfold IRInstr.isWordCode at hcode
  cases h : i.op with
  | ret =>
    have hval := unlabelled_returnValue (Γ := Γ) ra (hret h) l
    simp [codegenInstr, h, hval] at hl
  | label => exact hop h
  | zext =>
    simp only [codegenInstr, h, List.mem_append, List.append_assoc] at hl
    split at hl <;> simp [hload _ _ l, hstore _ _ l, hext _ _ l] at hl
  | trunc =>
    simp only [codegenInstr, h, List.mem_append, List.append_assoc] at hl
    split at hl <;> simp [hload _ _ l, hstore _ _ l, hext _ _ l] at hl
  | load =>
    simp [h] at hcode
    simp [codegenInstr, h, hload _ _ l, hstore _ _ l, hcode, (loadExtended_ne_label _ _ l).symm] at hl
  | alloca =>
    simp only [codegenInstr, h] at hl
    split at hl <;> simp [hstore _ _ l] at hl
  | copy =>
    by_cases hsrc : i.src1.kind = .none
    · simp only [codegenInstr, h, hsrc, and_self, if_true] at hl
      exact Unlabelled.codegenParam ra Γ f i l hl
    · simp [h, hsrc] at hcode
      simp [codegenInstr, h, hsrc, hload _ _ l, hstore _ _ l, hcode] at hl
  | _ =>
    simp [h] at hcode <;>
      simp [codegenInstr, h, hload _ _ l, hstore _ _ l, hext _ _ l, hcode, binaryInstr] at hl

end

theorem asmLabel_eq {Γ : TypeEnv} {f : IRFunc} (hf : f.WordFunc) {l : ℤ} {k : ℕ}
    (hl : labelIndex f.instrs l = some k) :
    asmLabel (codegenFunc Γ f) l = some (asmPos Γ f k) ∧
      (codegenFunc Γ f)[asmPos Γ f k]? = some (.label l) := by
  obtain ⟨hk, hat, hbefore⟩ := List.findIdx?_eq_some_iff_getElem.mp hl
  obtain ⟨hop, rfl⟩ : f.instrs[k].op = .label ∧ f.instrs[k].labelId = l := by simpa using hat
  have hlines : codegenInstr Γ f (regallocRun f) f.instrs[k] = [.label f.instrs[k].labelId] := by
    simp [codegenInstr, hop]
  have hsplit := codegenFunc_split (Γ := Γ) (List.getElem?_eq_getElem hk)
  rw [hlines] at hsplit
  have hnone : ∀ i ∈ asmBefore Γ f k, ¬i = .label f.instrs[k].labelId := by
    rintro i hi rfl
    rcases List.mem_append.mp hi with hi | hi
    · simp [prologue] at hi
    · obtain ⟨j, hj, hmem⟩ := List.mem_flatMap.mp hi
      obtain ⟨n, hn, rfl⟩ := List.mem_take_iff_getElem.mp hj
      have hin : f.instrs[n] ∈ f.instrs := List.getElem_mem _
      have hne := hbefore n (by omega)
      by_cases hlabel : f.instrs[n].op = .label
      · have hid : f.instrs[n].labelId ≠ f.instrs[k].labelId := by simpa [hlabel] using hne
        simp [codegenInstr, hlabel, hid.symm] at hmem
      · exact unlabelled_codegenInstr _ (hf.code _ hin) hlabel (hf.returns _ hin) _ hmem
  have hfirst : List.findIdx? (fun i => decide (i = Instr.label f.instrs[k].labelId))
      (asmBefore Γ f k) = none := by
    rw [List.findIdx?_eq_none_iff]
    intro i hi
    simpa using hnone i hi
  constructor
  · rw [asmLabel, hsplit, List.append_assoc, List.findIdx?_append, hfirst]
    simp [asmPos, List.findIdx?_cons]
  · rw [hsplit, asmPos]
    simp

/-! ### Steps -/

/-- The assembly stands at the code of the instruction that comes next, and its slots hold the
temps. -/
structure Tracks (Γ : TypeEnv) (f : IRFunc) (F : SlotFrame)
    (s : IrState (Option Mem) (BitVec 64)) (t : AsmState) : Prop where
  pc : t.pc = asmPos Γ f s.pc
  holds : ∃ m, s.world = some m ∧ F.Holds t.machine ⟨s.temps, m⟩

section

variable {Γ : TypeEnv} {E : Env} {K : ObjectLayout} {F : SlotFrame} {f : IRFunc} {i : IRInstr}
  {s s' : IrState (Option Mem) (BitVec 64)} {t : AsmState} {M M' : MState} {m : Mem}
  {τ τ' : ℕ → BitVec 64} {k : ℕ} {l : ℤ}

theorem codegenInstr_ne_nil (ra : RegAlloc) (hcode : i.isWordCode = true)
    (hsrc : i.op = .copy → i.src1.kind ≠ .none) : codegenInstr Γ f ra i ≠ [] := by
  by_cases hop : i.op ∈ [.label, .jmp, .ret, .jz, .jnz, .store]
  · simp only [List.mem_cons, List.not_mem_nil, or_false] at hop
    rcases hop with h | h | h | h | h | h <;> simp [codegenInstr, h]
    split <;> simp
  · obtain ⟨t, ht⟩ := isWordCode_dst hcode hop
    unfold IRInstr.isWordCode at hcode
    cases h : i.op with
    | copy =>
      simp [h] at hcode hsrc
      simp [hsrc] at hcode
      simp [codegenInstr, h, ht, storeReg, hsrc, hcode]
    | _ => simp [h] at hcode hop <;> simp [codegenInstr, h, ht, storeReg, hcode]

/-- The code of an instruction that falls through. -/
theorem reaches_fall (hi : f.instrs[k]? = some i) (hcode : i.isWordCode = true)
    (hsrc : i.op = .copy → i.src1.kind ≠ .none)
    (hexec : exec E (codegenInstr Γ f (regallocRun f) i) M = some (M', .fall)) :
    Reaches₁ (asmStep E (codegenFunc Γ f)) ⟨asmPos Γ f k, M⟩ ⟨asmPos Γ f (k + 1), M'⟩ := by
  have hland := lands_of_exec (codegenFunc_split hi) hexec
  have hpos : 0 < (codegenInstr Γ f (regallocRun f) i).length :=
    List.length_pos_iff.mpr (codegenInstr_ne_nil _ hcode hsrc)
  rw [asmPos_succ hi]
  refine (reflTransGen_iff_eq_or_transGen.mp hland).resolve_left fun heq => ?_
  have hpc := congrArg AsmState.pc heq
  change asmPos Γ f k + _ = asmPos Γ f k at hpc
  omega

/-- The code of an instruction that jumps to a label. -/
theorem reaches_jump (hf : f.WordFunc) (hi : f.instrs[k]? = some i) (hop : i.op ≠ .label)
    (hsrc : i.op = .copy → i.src1.kind ≠ .none)
    (hexec : exec E (codegenInstr Γ f (regallocRun f) i) M = some (M', .jump l)) {n : ℕ}
    (hl : labelIndex f.instrs l = some n) :
    Reaches₁ (asmStep E (codegenFunc Γ f)) ⟨asmPos Γ f k, M⟩ ⟨asmPos Γ f n, M'⟩ := by
  have hmem : i ∈ f.instrs := List.mem_of_getElem? hi
  obtain ⟨hlabel, hat⟩ := asmLabel_eq (Γ := Γ) hf hl
  have hland := lands_of_exec (codegenFunc_split hi) hexec _ hlabel
  refine (reflTransGen_iff_eq_or_transGen.mp hland).resolve_left fun heq => ?_
  -- a label would be the first line of the jump
  have hpc : asmPos Γ f n = asmPos Γ f k := congrArg AsmState.pc heq
  obtain ⟨j, js, hjs⟩ := List.exists_cons_of_ne_nil
    (codegenInstr_ne_nil (Γ := Γ) (f := f) (regallocRun f) (hf.code i hmem) hsrc)
  rw [hpc, codegenFunc_split hi, hjs, asmPos, block_getElem?, Option.some.injEq] at hat
  refine unlabelled_codegenInstr (Γ := Γ) (regallocRun f) (hf.code i hmem) hop
    (hf.returns i hmem) l ?_
  rw [hjs, hat]
  exact List.mem_cons_self

/-- The test of a conditional jump. -/
theorem exec_test (h : F.Holds M ⟨τ, m⟩) (hK : F.Houses E K) {v : IRValue} (hv : F.Usable v)
    (c : Cond) (hc : c = .e ∨ c = .ne) (l : ℤ) :
    ∃ M', exec E (loadReg F.ra v .rax ++ [.test .rax .rax, .jcc c l]) M =
        some (M', if (K.operand τ v = 0) ↔ c = .e then .jump l else .fall) ∧
      F.Holds M' ⟨τ, m⟩ := by
  have hload := Carries.loadReg (E := E) (s := M) F.ra v (r := .rax) (by decide)
  rw [h.operand_eq hK hv] at hload
  generalize M.setReg .rax (K.operand τ v) = M₁ at hload
  generalize K.operand τ v = x at hload ⊢
  let M₂ : MState := { M₁ with flags := ⟨x == 0, false, x.msb⟩ }
  have htest : (Instr.test .rax .rax).step E M₁ = some M₂ := by
    have hself : M₁.reg .rax &&& M₁.reg .rax = x := by rw [hload.word, BitVec.and_self]
    rw [Instr.step, hself]
  refine ⟨M₂, ?_, ?_⟩
  · rw [hload.runs, exec_cons htest, exec]
    by_cases hx : x = 0#64 <;> rcases hc with rfl | rfl <;> simp [M₂, Cond.holds, hx, exec]
  · exact ⟨hload.rbp.trans h.bp, fun t ht ht' => by
      rw [← h.temp t ht ht', slotOf, slotOf, MState.ea, MState.ea]
      change load M₁.mem (M₁.reg .rbp + _) 8 = _
      rw [hload.mem, hload.rbp], fun x hx => by
      rw [← h.mem x hx, ← hload.mem]⟩

theorem Tracks.fall (hi : f.instrs[k]? = some i) (hcode : i.isWordCode = true)
    (hsrc : i.op = .copy → i.src1.kind ≠ .none)
    (hexec : exec E (codegenInstr Γ f (regallocRun f) i) M = some (M', .fall))
    (hholds : F.Holds M' ⟨τ, m⟩) :
    ∃ t', Tracks Γ f F ⟨k + 1, some m, τ⟩ t' ∧
      Reaches₁ (asmStep E (codegenFunc Γ f)) ⟨asmPos Γ f k, M⟩ t' :=
  ⟨⟨asmPos Γ f (k + 1), M'⟩, ⟨rfl, m, rfl, hholds⟩, reaches_fall hi hcode hsrc hexec⟩

theorem Tracks.jump (hf : f.WordFunc) (hi : f.instrs[k]? = some i)
    (hop : i.op ≠ .label ∧ i.op ≠ .copy)
    (hexec : exec E (codegenInstr Γ f (regallocRun f) i) M = some (M', .jump l))
    (hholds : F.Holds M' ⟨τ, m⟩)
    (hs : IrMachine.jump f.instrs ⟨k, some m, τ⟩ l = some s') :
    ∃ t', Tracks Γ f F s' t' ∧
      Reaches₁ (asmStep E (codegenFunc Γ f)) ⟨asmPos Γ f k, M⟩ t' := by
  obtain ⟨n, hn, rfl⟩ := Option.map_eq_some_iff.mp hs
  exact ⟨⟨asmPos Γ f n, M'⟩, ⟨rfl, m, rfl, hholds⟩,
    reaches_jump hf hi hop.1 (fun h => absurd h hop.2) hexec hn⟩

theorem condJump_step (hi : f.instrs[s.pc]? = some i) (hop : i.op = .jz ∨ i.op = .jnz) :
    (K.machine Γ).step f.instrs s =
      if K.operand s.temps i.src1 = 0 ↔ i.op = .jz then IrMachine.jump f.instrs s i.labelId
      else some (IrMachine.next s) := by
  have htrue : ∀ w, (K.machine Γ).isTrue w = decide (w ≠ 0) := fun _ => rfl
  have hand := ObjectLayout.machine_operand (Γ := Γ) (K := K) s.temps i.src1
  rcases hop with h | h <;> simp only [IrMachine.step, hi, h, hand, htrue] <;>
    by_cases hx : K.operand s.temps i.src1 = 0 <;> simp [hx]

theorem condJump_code (hop : i.op = .jz ∨ i.op = .jnz) :
    ∃ c, (c = .e ∨ c = .ne) ∧ (c = .e ↔ i.op = .jz) ∧
      codegenInstr Γ f (regallocRun f) i =
        loadReg (regallocRun f) i.src1 .rax ++ [.test .rax .rax, .jcc c i.labelId] := by
  rcases hop with h | h
  · exact ⟨.e, .inl rfl, by simp [h], by rw [codegenInstr, h]⟩
  · exact ⟨.ne, .inr rfl, by simp [h], by rw [codegenInstr, h]⟩

/-- The code of a conditional jump. -/
theorem Tracks.condJump (hf : f.WordFunc) (hra : F.ra = regallocRun f) (hK : F.Houses E K)
    (hi : f.instrs[k]? = some i) (hin : i.Within F.temps) (hholds : F.Holds M ⟨τ, m⟩)
    (hop : i.op = .jz ∨ i.op = .jnz)
    (hs : (K.machine Γ).step f.instrs ⟨k, some m, τ⟩ = some s') :
    ∃ t', Tracks Γ f F s' t' ∧
      Reaches₁ (asmStep E (codegenFunc Γ f)) ⟨asmPos Γ f k, M⟩ t' := by
  have hcode : i.isWordCode = true := hf.code i (List.mem_of_getElem? hi)
  have hne : (i.op ≠ .label ∧ i.op ≠ .copy) ∧ i.src1.kind ≠ .none := by
    unfold IRInstr.isWordCode at hcode
    rcases hop with h | h <;> simpa [h] using hcode
  have hv : F.Usable i.src1 := hin.usable (by simp [IRInstr.values]) hne.2
  obtain ⟨c, hc, hiff, hlines⟩ := condJump_code (Γ := Γ) (f := f) hop
  obtain ⟨M', hexec, hholds'⟩ := exec_test hholds hK hv c hc i.labelId
  rw [hra, ← hlines] at hexec
  simp only [hiff] at hexec
  rw [condJump_step hi hop] at hs
  by_cases hjump : K.operand τ i.src1 = 0 ↔ i.op = .jz
  · rw [if_pos hjump] at hexec hs
    exact Tracks.jump hf hi hne.1 hexec hholds' hs
  · rw [if_neg hjump] at hexec hs
    obtain rfl := Option.some.inj hs
    exact Tracks.fall hi hcode (fun h => absurd h hne.1.2) hexec hholds'

/-- The code of one instruction follows its step. -/
theorem Tracks.step (hf : f.WordFunc) (hra : F.ra = regallocRun f) (htemps : F.temps = f.nextTemp)
    (hK : F.Houses E K) (h : Tracks Γ f F s t) (hstep : (K.machine Γ).step f.instrs s = some s')
    (hsafe : s'.world.isSome) :
    ∃ t', Tracks Γ f F s' t' ∧ Reaches₁ (asmStep E (codegenFunc Γ f)) t t' := by
  obtain ⟨pc, M⟩ := t
  obtain ⟨k, world, τ⟩ := s
  obtain ⟨hpc, m, hworld, hholds⟩ := h
  obtain rfl : pc = asmPos Γ f k := hpc
  obtain rfl : world = some m := hworld
  replace hholds : F.Holds M ⟨τ, m⟩ := hholds
  cases hi : f.instrs[k]? with
  | none =>
    rw [IrMachine.step, hi] at hstep
    cases hstep
  | some i =>
    have hmem : i ∈ f.instrs := List.mem_of_getElem? hi
    have hcode := hf.code i hmem
    have hin : i.Within F.temps := htemps ▸ hf.within i hmem
    by_cases hcond : i.op = .jz ∨ i.op = .jnz
    · exact Tracks.condJump hf hra hK hi hin hholds hcond hstep
    by_cases hlabel : i.op = .label
    · have hs : s' = ⟨k + 1, some m, τ⟩ := by
        simpa [IrMachine.step, hi, hlabel, IrMachine.next, eq_comm] using hstep
      have hexec : exec E (codegenInstr Γ f (regallocRun f) i) M = some (M, .fall) := by
        rw [codegenInstr, hlabel]
        rfl
      exact hs ▸ Tracks.fall hi hcode (by simp [hlabel]) hexec hholds
    by_cases hjmp : i.op = .jmp
    · have hexec : exec E (codegenInstr Γ f (regallocRun f) i) M = some (M, .jump i.labelId) := by
        rw [codegenInstr, hjmp]
        rfl
      refine Tracks.jump hf hi (by simp [hjmp]) hexec hholds ?_
      rw [← hstep]
      simp [IrMachine.step, hi, hjmp]
    by_cases hret : i.op = .ret
    · simp [IrMachine.step, hi, hret] at hstep
    by_cases hcopy : i.op = .copy ∧ i.src1.kind ≠ .none
    · have hs : s' = ⟨k + 1, some m, IrMachine.writeTemp τ i.dst (K.operand τ i.src1)⟩ := by
        simpa [IrMachine.step, hi, hcopy.1, hcopy.2, ObjectLayout.machine_operand, eq_comm]
          using hstep
      obtain ⟨M', hexec, hholds'⟩ := exec_copyCode (Γ := Γ) f hholds hK hin hcode hcopy.1 hcopy.2
      rw [hra] at hexec
      exact hs ▸ Tracks.fall hi hcode (fun _ => hcopy.2) hexec hholds'
    · have hs : s' = (K.machine Γ).perform ⟨k, some m, τ⟩ i := by
        unfold IRInstr.isWordCode at hcode
        unfold IrMachine.step at hstep
        cases h : i.op <;> simp [h] at hcode hcond hlabel hjmp hret hcopy <;>
          simpa [hi, h, hcopy, eq_comm] using hstep
      obtain ⟨m', hm'⟩ := Option.isSome_iff_exists.mp hsafe
      have heff : (K.machine Γ).effect i (some m) τ = (some m', s'.temps) := by
        rw [hs] at hm' ⊢
        exact Prod.ext hm' rfl
      obtain ⟨M', hexec, hholds'⟩ := exec_effectCode f hholds hK hin hcode heff
      rw [hra] at hexec
      have hshape : s' = ⟨k + 1, some m', s'.temps⟩ := by
        rw [← hm', hs]
        rfl
      -- the capture of a parameter leaves no memory
      have hsrc : i.op = .copy → i.src1.kind ≠ .none := fun hop => by
        obtain ⟨m₀, -, hstore | ⟨-, -, w, hw, -⟩⟩ := ObjectLayout.effect_cases heff
        · exact absurd hstore.1 (by simp [hop])
        · simp [ObjectLayout.irValue, irWord, hop] at hw
      rw [hshape]
      exact Tracks.fall hi hcode hsrc hexec hholds'

/-- A step moves on in the same world, or performs an instruction. -/
theorem step_world {W V : Type} {N : IrMachine W V} {P : List IRInstr} {s s' : IrState W V}
    (hstep : N.step P s = some s') : s'.world = s.world ∨ ∃ i, s' = N.perform s i := by
  have hjump : ∀ l, IrMachine.jump P s l = some s' → s'.world = s.world := by
    intro l hl
    obtain ⟨n, -, rfl⟩ := Option.map_eq_some_iff.mp hl
    rfl
  have hmove : ∀ {n τ}, some (⟨n, s.world, τ⟩ : IrState W V) = some s' → s'.world = s.world := by
    intro n τ h
    cases h
    rfl
  have hperform : ∀ i, some (N.perform s i) = some s' → ∃ i, s' = N.perform s i :=
    fun i h => ⟨i, (Option.some.inj h).symm⟩
  unfold IrMachine.step at hstep
  split at hstep
  · cases hstep
  · split at hstep
    · exact .inl (hmove hstep)
    · exact .inl (hmove hstep)
    · exact .inl (hjump _ hstep)
    · split at hstep
      · exact .inl (hmove hstep)
      · exact .inl (hjump _ hstep)
    · split at hstep
      · exact .inl (hjump _ hstep)
      · exact .inl (hmove hstep)
    · cases hstep
    · split at hstep
      · exact .inr (hperform _ hstep)
      · exact .inl (hmove hstep)
    · exact .inr (hperform _ hstep)

/-- From none of the states without memory is there a way back. -/
theorem world_isSome_of_step (hstep : (K.machine Γ).step f.instrs s = some s')
    (hsafe : s'.world.isSome) : s.world.isSome := by
  rcases step_world hstep with hw | ⟨i, rfl⟩
  · rwa [hw] at hsafe
  · obtain ⟨m', hm'⟩ := Option.isSome_iff_exists.mp hsafe
    obtain ⟨m, hm, -⟩ := ObjectLayout.effect_cases (Prod.ext hm' rfl)
    exact Option.isSome_iff_exists.mpr ⟨m, hm⟩

/-- A step writes only bytes that may be accessed. -/
theorem mem_of_step {m' : Mem} {x : Addr} (hx : ∀ a n, K.valid a n = true → ¬(x - a).toNat < n)
    (hstep : (K.machine Γ).step f.instrs s = some s') (hm : s.world = some m)
    (hm' : s'.world = some m') : m' x = m x := by
  rcases step_world hstep with hw | ⟨i, rfl⟩
  · rw [hw, hm] at hm'
    rw [Option.some.inj hm']
  · obtain ⟨m₀, hm₀, ⟨-, hstore, -⟩ | ⟨-, hsame, -⟩⟩ :=
      ObjectLayout.effect_cases (Prod.ext hm' rfl)
    · obtain rfl := Option.some.inj (hm₀.symm.trans hm)
      obtain ⟨hvalid, hval⟩ := Option.ite_none_right_eq_some.mp hstore
      rw [← Option.some.inj hval]
      exact store_apply_of_not_lt (hx _ _ hvalid)
    · obtain rfl := Option.some.inj (hm₀.symm.trans hm)
      rw [hsame]

/-- The lines of a function follow its instructions for as long as these leave the memory. -/
theorem follows_codegen (hf : f.WordFunc) (hra : F.ra = regallocRun f)
    (htemps : F.temps = f.nextTemp) (hK : F.Houses E K) :
    Simulation.Follows ((K.machine Γ).step f.instrs) (asmStep E (codegenFunc Γ f))
      (fun s => s.world.isSome) (Tracks Γ f F) where
  step hR hs hsafe := hR.step hf hra htemps hK hs hsafe
  back hs hsafe := world_isSome_of_step hs hsafe

end

/-! ### Ends -/

/-- The processor as the caller finds it: the registers of its frame are back, the word returned is
in `%rax`, and off the slots the memory is `m`. -/
structure Returned (Γ : TypeEnv) (f : IRFunc) (F : SlotFrame) (x : Option (BitVec 64)) (m : Mem)
    (t : MState) : Prop where
  word : ∀ w, x = some w → t.reg .rax = returnedWord Γ f w
  rbp : t.reg .rbp = load m F.bp 8
  rsp : t.reg .rsp = F.bp + 8
  mem : ∀ a, ¬F.Owns a → t.mem a = m a

section

variable {Γ : TypeEnv} {E : Env} {K : ObjectLayout} {F : SlotFrame} {f : IRFunc} {i : IRInstr}
  {s : IrState (Option Mem) (BitVec 64)} {t : AsmState} {M M₁ : MState} {m : Mem}
  {τ : ℕ → BitVec 64} {k : ℕ} {x : Option (BitVec 64)} {is : List Instr}

/-- Lines that bring the word returned into `%rax`, and the epilogue. -/
theorem returned_of_exec (hclear : F.Clear F.bp 8) (h : F.Holds M ⟨τ, m⟩)
    (hrun : RunsTo E is M M₁) (hmem : M₁.mem = M.mem)
    (hrbp : M₁.reg .rbp = M.reg .rbp) (hword : ∀ w, x = some w → M₁.reg .rax = returnedWord Γ f w) :
    ∃ t, exec E (is ++ [.leave, .ret]) M = some (t, .ret) ∧ Returned Γ f F x m t := by
  have hbp : M₁.reg .rbp = F.bp := hrbp.trans h.bp
  refine ⟨(M₁.setReg .rbp (load M₁.mem (M₁.reg .rbp) 8)).setReg .rsp (M₁.reg .rbp + 8), ?_, ?_⟩
  · rw [hrun]
    rfl
  · refine ⟨fun w hw => ?_, ?_, ?_, fun a ha => ?_⟩
    · rw [setReg_reg_of_ne _ _ (by decide), setReg_reg_of_ne _ _ (by decide), hword w hw]
    · rw [setReg_reg_of_ne _ _ (by decide), setReg_reg_self, hmem, hbp]
      exact h.load hclear (by decide)
    · rw [setReg_reg_self, hbp]
    · rw [setReg_mem, setReg_mem, hmem, h.mem a ha]

/-- The code of a return. -/
theorem exec_retCode (hf : f.WordFunc) (hK : F.Houses E K) (hclear : F.Clear F.bp 8)
    (hi : i ∈ f.instrs) (hin : i.Within F.temps) (hop : i.op = .ret) (h : F.Holds M ⟨τ, m⟩) :
    ∃ t, exec E (codegenInstr Γ f F.ra i) M = some (t, .ret) ∧
      Returned Γ f F (if i.src1.kind = .none then none else some (K.operand τ i.src1)) m t := by
  have hlines : codegenInstr Γ f F.ra i = returnValue Γ f F.ra i.src1 ++ [.leave, .ret] := by
    rw [codegenInstr, hop]
  rw [hlines]
  by_cases hnone : i.src1.kind = .none
  · rw [if_pos hnone, returnValue_none _ hnone]
    refine returned_of_exec hclear h (fun _ => rfl) rfl rfl ?_
    rintro w ⟨⟩
  · rw [if_neg hnone, returnValue_word _ hnone ((hf.returns i hi hop).resolve_left hnone)]
    have hload := Carries.loadReg (E := E) (s := M) F.ra i.src1 (r := .rax) (by decide)
    rw [h.operand_eq hK (hin.usable (by simp [IRInstr.values]) hnone)] at hload
    obtain ⟨M₁, hval⟩ := hload.returnLines (Γ := Γ) (f := f)
    refine returned_of_exec hclear h hval.runs hval.mem hval.rbp fun w hw => ?_
    cases hw
    exact hval.word

/-- Where the instructions end, so does the assembly. -/
theorem Tracks.exit (hf : f.WordFunc) (hra : F.ra = regallocRun f) (htemps : F.temps = f.nextTemp)
    (hK : F.Houses E K) (hclear : F.Clear F.bp 8) (h : Tracks Γ f F s t) {e : IrExit (BitVec 64)}
    (hexit : (K.machine Γ).exit f.instrs s = some e) (hm : s.world = some m) :
    ∃ t', AsmReturns E (codegenFunc Γ f) t t' ∧ Returned Γ f F e.word m t' := by
  obtain ⟨pc, M⟩ := t
  obtain ⟨k, world, τ⟩ := s
  obtain ⟨hpc, m₀, hworld, hholds⟩ := h
  obtain rfl : pc = asmPos Γ f k := hpc
  obtain rfl : m₀ = m := Option.some.inj (hworld.symm.trans hm)
  replace hholds : F.Holds M ⟨τ, m₀⟩ := hholds
  cases hi : f.instrs[k]? with
  | none =>
    have he : e = .fallThrough := by simpa [IrMachine.exit, hi, eq_comm] using hexit
    subst he
    have hlines : RunsTo E [] M M := fun _ => rfl
    have hnone : ∀ w, (none : Option (BitVec 64)) = some w → M.reg .rax = returnedWord Γ f w := by
      rintro w ⟨⟩
    obtain ⟨t, hexec, hret⟩ := returned_of_exec hclear hholds hlines rfl rfl hnone
    have hcode : codegenFunc Γ f = asmBefore Γ f k ++ [.leave, .ret] ++ [] := by
      rw [codegenFunc_end hi, List.append_nil]
    exact ⟨t, lands_of_exec hcode hexec, hret⟩
  | some i =>
    have hmem : i ∈ f.instrs := List.mem_of_getElem? hi
    by_cases hop : i.op = .ret
    · have he : e = .ret (if i.src1.kind = .none then none else some (K.operand τ i.src1)) := by
        simpa [IrMachine.exit, hi, hop, ObjectLayout.machine_operand, eq_comm] using hexit
      obtain ⟨t, hexec, hret⟩ := exec_retCode (Γ := Γ) hf hK hclear hmem
        (htemps ▸ hf.within i hmem) hop hholds
      rw [hra] at hexec
      subst he
      exact ⟨t, lands_of_exec (codegenFunc_split hi) hexec, hret⟩
    · simp [IrMachine.exit, hi, hop] at hexit

/-- The runs of the machine as runs of its step. -/
theorem reaches_of_steps {W V : Type} {N : IrMachine W V} {P : List IRInstr} {n : ℕ}
    {s s' : IrState W V} (h : N.Steps P n s s') : StateTransition.Reaches (N.step P) s s' := by
  induction h with
  | refl s => exact .refl
  | head hstep _ ih => exact .head hstep ih

theorem steps_of_reaches {W V : Type} {N : IrMachine W V} {P : List IRInstr} {s s' : IrState W V}
    (h : StateTransition.Reaches (N.step P) s s') : ∃ n, N.Steps P n s s' := by
  induction h using ReflTransGen.head_induction_on with
  | refl => exact ⟨0, .refl s'⟩
  | head hstep _ ih =>
    obtain ⟨n, hn⟩ := ih
    exact ⟨n + 1, .head hstep hn⟩

/-- The last step of a longer run. -/
theorem last_step {W V : Type} {N : IrMachine W V} {P : List IRInstr} {n : ℕ} {s s' s'' : IrState W V}
    (h : N.Steps P n s s') (h' : N.Steps P (n + 1) s s'') : N.step P s' = some s'' := by
  induction h with
  | refl s =>
    cases h' with
    | head hstep hrest =>
      cases hrest
      exact hstep
  | head hstep _ ih =>
    cases h' with
    | head hstep' hrest =>
      obtain rfl := Option.some.inj (hstep.symm.trans hstep')
      exact ih hrest

/-- A run of the IR that never leaves the memory behind. -/
def RunsForever (Γ : TypeEnv) (K : ObjectLayout) (P : List IRInstr)
    (s : IrState (Option Mem) (BitVec 64)) : Prop :=
  ∀ n, ∃ s', (K.machine Γ).Steps P n s s' ∧ s'.world.isSome

theorem RunsForever.safeForever (h : RunsForever Γ K f.instrs s) :
    Simulation.SafeForever ((K.machine Γ).step f.instrs) (fun s => s.world.isSome) s := by
  intro s' hs'
  obtain ⟨n, hn⟩ := steps_of_reaches hs'
  obtain ⟨s'', hlater, hsafe⟩ := h (n + 1)
  exact ⟨s'', last_step hn hlater, hsafe⟩

/-- Where a run of the instructions comes to an exit, the function returns. -/
theorem codegen_returns (Γ : TypeEnv) (E : Env) (hf : f.WordFunc) {bp : BitVec 64}
    (htemps : f.nextTemp ≤ 2 ^ 60) (hK : (SlotFrame.ofFunc f bp htemps).Houses E K)
    (h : Tracks Γ f (.ofFunc f bp htemps) s t) {n : ℕ} {e : IrExit (BitVec 64)} {m : Mem}
    (hsteps : (K.machine Γ).Steps f.instrs n s s') (hexit : (K.machine Γ).exit f.instrs s' = some e)
    (hm : s'.world = some m) :
    ∃ t', AsmReturns E (codegenFunc Γ f) t t' ∧
      Returned Γ f (.ofFunc f bp htemps) e.word m t' := by
  have hclear : (SlotFrame.ofFunc f bp htemps).Clear bp 8 :=
    SlotFrame.ofFunc_clear (by rw [BitVec.sub_self, BitVec.toNat_ofNat]; omega)
  obtain ⟨t₁, htracks, hreach⟩ :=
    (follows_codegen hf rfl rfl hK).reaches h (reaches_of_steps hsteps) (by simp [hm])
  obtain ⟨t', hret, hstate⟩ := htracks.exit hf rfl rfl hK hclear hexit hm
  exact ⟨t', hret.after hreach, hstate⟩

/-- From where the assembly stands at the code of an instruction and its slots hold the temps, the
function returns what its instructions return, and runs on if they do. -/
theorem codegen_correct (Γ : TypeEnv) (E : Env) (hf : f.WordFunc) {bp : BitVec 64}
    (htemps : f.nextTemp ≤ 2 ^ 60) (hK : (SlotFrame.ofFunc f bp htemps).Houses E K)
    (h : Tracks Γ f (.ofFunc f bp htemps) s t) :
    (∀ n s' e m, (K.machine Γ).Steps f.instrs n s s' → (K.machine Γ).exit f.instrs s' = some e →
      s'.world = some m → ∃ t', AsmReturns E (codegenFunc Γ f) t t' ∧
        Returned Γ f (.ofFunc f bp htemps) e.word m t') ∧
    (RunsForever Γ K f.instrs s → AsmDiverges E (codegenFunc Γ f) t) := by
  constructor
  · intro n s' e m hsteps hexit hm
    exact codegen_returns Γ E hf htemps hK h hsteps hexit hm
  · intro hforever
    exact (follows_codegen hf rfl rfl hK).diverges h hforever.safeForever

end

/-- The frame of `loopFrame` at `4096`, with its parameter the only object. -/
def loopObjects : ObjectLayout where
  sym _ := 0
  place t := 4096 + BitVec.ofInt 64 ((regallocRun loopFrame).allocaOff t)
  valid a n := a = 4052 ∧ n ≤ 4

theorem loopFrame_temps : loopFrame.nextTemp = 5 := by decide +kernel

theorem loopFrame_wordFunc : loopFrame.WordFunc where
  code := by decide +kernel
  within := (genFunc_numbered .empty {} loopFunc (fileScope_irgenDecls .empty [])).within
  returns := by
    have hret : loopFrame.retType.isWord = true := by decide +kernel
    exact fun _ _ _ => .inr hret

theorem loopObjects_houses (h : loopFrame.nextTemp ≤ 2 ^ 60) :
    (SlotFrame.ofFunc loopFrame 4096 h).Houses idleEnv loopObjects where
  sym := rfl
  place _ := rfl
  clear a n hvalid := by
    obtain ⟨rfl, hn⟩ : a = 4052 ∧ n ≤ 4 := by simpa [loopObjects] using hvalid
    refine SlotFrame.ofFunc_clear ?_
    rw [loopFrame_temps]
    change 18446744073709551572 + n + 8 * 5 ≤ 2 ^ 64
    omega

/-- The address of `x` is in its slot, and `x` is 7. -/
def loopState : MState where
  reg r := if r = .rbp then 4096 else 0
  xmm _ := 0
  flags := {}
  mem := store (store (fun _ => 0) 4088 8 4052) 4052 4 7

/-- From the head of its loop on, which it goes around once, `loopFrame` returns 0. -/
theorem codegen_correct_loop :
    ∃ t, AsmReturns idleEnv (codegenFunc .empty loopFrame)
      ⟨asmPos .empty loopFrame 3, loopState⟩ t ∧ t.reg .rax = 0 := by
  have htemps : loopFrame.nextTemp ≤ 2 ^ 60 := by rw [loopFrame_temps]; decide
  let τ := slotOf (regallocRun loopFrame) loopState
  have hrun : ((fun o => o.bind ((loopObjects.machine .empty).step loopFrame.instrs))^[11]
      (some ⟨3, some loopState.mem, τ⟩)).any
        (fun s => s.pc = 11 ∧ s.temps 4 = 0 ∧ s.world.isSome) = true := by
    decide +kernel
  obtain ⟨s, hs, hend⟩ := (Option.any_eq_true _ _).mp hrun
  obtain ⟨hpc, htemp, hworld⟩ := of_decide_eq_true hend
  obtain ⟨m, hm⟩ := Option.isSome_iff_exists.mp hworld
  have hret : loopFrame.instrs[s.pc]? = some { op := .ret, src1 := irvTemp 4 typeInt } := by
    rw [hpc]
    decide +kernel
  have hexit : (loopObjects.machine .empty).exit loopFrame.instrs s = some (.ret (some 0)) := by
    rw [IrMachine.exit_of_ret hret (irvTemp_kind_ne_none 4 typeInt)]
    exact congrArg (fun w => some (IrExit.ret (some w))) htemp
  obtain ⟨t, hreturns, hreturned⟩ := (codegen_correct .empty idleEnv loopFrame_wordFunc htemps
    (loopObjects_houses htemps) (s := ⟨3, some loopState.mem, τ⟩) (t := ⟨_, loopState⟩)
    ⟨rfl, _, rfl, SlotFrame.holds_view _ rfl⟩).1 11 _ _ _ (.of_iterate hs) hexit hm
  have hword : returnedWord .empty loopFrame 0 = 0 := by decide +kernel
  exact ⟨t, hreturns, (hreturned.word 0 rfl).trans hword⟩

end TinyC

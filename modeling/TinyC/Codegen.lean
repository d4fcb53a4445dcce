import TinyC.AbiClassify
import TinyC.RegAlloc
import TinyC.Machine
import TinyC.Lib.FloatFormat

/-!
# x86-64 code generation

`codegenInstr` is the body of the instruction-selection loop: the lines printed for one
IR instruction. Integer arguments travel in `paramRegs`, floating-point ones in the
`%xmm` registers, the rest on the stack.
-/

namespace TinyC

open FloatFormat

def paramRegs : List Reg := [.rdi, .rsi, .rdx, .rcx, .r8, .r9]

/-- `param_regs[i]`; the index stays below 6. -/
def paramReg (i : ℕ) : Reg := paramRegs.getD i .rdi

/-- `xmm_regs[i]`; the index stays below 8. -/
def xmmReg (i : ℕ) : Xmm := Fin.ofNat 8 i

/-- `(sz + 7) & ~7` of a size, a negative size counting as zero. The source counts the bytes of stack
arguments in an `int`; `2 ^ 31` or more of them, which overflow it, are not considered here, in
`ArgState.stackOffset` and in `stackArgsBytes`. -/
def stackBytes (Γ : TypeEnv) (ty : CType) : ℤ :=
  Int.land (max (typeSizeof Γ ty) 0 + 7) (Int.lnot 7)

structure ArgState where
  intRegsUsed : ℕ
  sseRegsUsed : ℕ
  stackOffset : ℤ
  deriving DecidableEq, Repr

/-- Do the eightbytes fit in the registers that are left? -/
def fitsRegs (intUsed sseUsed : ℕ) (c : ABIClassification) : Bool :=
  intUsed + c.needs.1 ≤ 6 && sseUsed + c.needs.2 ≤ 8

/-- One turn of the loop of `compute_arg_state`. -/
def ArgState.next (Γ : TypeEnv) (st : ArgState) (ty : CType) : ArgState :=
  let cls := abiClassify Γ ty
  if abiInMemory cls then { st with stackOffset := st.stackOffset + stackBytes Γ ty }
  else if fitsRegs st.intRegsUsed st.sseRegsUsed cls then
    { st with intRegsUsed := st.intRegsUsed + cls.needs.1
              sseRegsUsed := st.sseRegsUsed + cls.needs.2 }
  else { st with stackOffset := st.stackOffset + stackBytes Γ ty }

def computeArgState (Γ : TypeEnv) (f : IRFunc) (upToParam : ℕ) : ArgState :=
  let intUsed := if abiInMemory (abiClassify Γ f.retType) then 1 else 0
  ((f.params.take upToParam).map Prod.snd).foldl (ArgState.next Γ) ⟨intUsed, 0, 16⟩

def emitLoadEightbyteFromMem (base : Reg) (byteOff remaining : ℤ) (dst : Reg) : List Instr :=
  if remaining ≥ 8 then [.mov .quad (.mem byteOff base) (.reg dst)]
  else if remaining ≥ 4 then [.mov .long (.mem byteOff base) (.reg dst)]
  else if remaining ≥ 2 then [.movzx .word (.mem byteOff base) dst]
  else [.movzx .byte (.mem byteOff base) dst]

def emitStoreEightbyteToMem (base : Reg) (byteOff remaining : ℤ) (src : Reg) : List Instr :=
  if remaining ≥ 8 then [.mov .quad (.reg src) (.mem byteOff base)]
  else if remaining ≥ 4 then [.mov .long (.reg src) (.mem byteOff base)]
  else if remaining ≥ 2 then [.mov .word (.reg src) (.mem byteOff base)]
  else if remaining ≥ 1 then [.mov .byte (.reg src) (.mem byteOff base)]
  else []

/-- The same store where a remainder below 2 is always taken for one byte. -/
def emitStoreChunk (base : Reg) (byteOff remaining : ℤ) (src : Reg) : List Instr :=
  if remaining ≥ 8 then [.mov .quad (.reg src) (.mem byteOff base)]
  else if remaining ≥ 4 then [.mov .long (.reg src) (.mem byteOff base)]
  else if remaining ≥ 2 then [.mov .word (.reg src) (.mem byteOff base)]
  else [.mov .byte (.reg src) (.mem byteOff base)]

def copyChunk (w : Width) (dst src : Reg) (off : ℤ) : List Instr :=
  [.mov w (.mem off src) (.reg .rax), .mov w (.reg .rax) (.mem off dst)]

def emitCopyBytes (dst src : Reg) (size : ℤ) : List Instr :=
  let quads := (size / 8).toNat
  let off₈ : ℤ := 8 * quads
  let off₄ := if off₈ + 4 ≤ size then off₈ + 4 else off₈
  let off₂ := if off₄ + 2 ≤ size then off₄ + 2 else off₄
  (List.range quads).flatMap (fun i => copyChunk .quad dst src (8 * i)) ++
    (if off₈ + 4 ≤ size then copyChunk .long dst src off₈ else []) ++
    (if off₄ + 2 ≤ size then copyChunk .word dst src off₄ else []) ++
    (if off₂ < size then copyChunk .byte dst src off₂ else [])

/-- A floating-point constant comes out as zero here. -/
def loadReg (ra : RegAlloc) (v : IRValue) (r : Reg) : List Instr :=
  match v.kind with
  | .none => []
  | .temp t => [.mov .quad (.mem (ra.slot t) .rbp) (.reg r)]
  | .constInt c => [.mov .quad (.imm c) (.reg r)]
  | .constFloat _ => [.alu .xor (.reg r) r]
  | .global name => [.lea (.sym name) r]

def storeReg (ra : RegAlloc) (dst : IRValue) (r : Reg) : List Instr :=
  match dst.kind with
  | .temp t => [.mov .quad (.reg r) (.mem (ra.slot t) .rbp)]
  | _ => []

/-- Extends the low `sz` bytes of `%rax`; `long`'s zero extension is `movl %eax, %eax`. -/
def extendRax (sz : ℤ) (isSigned : Bool) : List Instr :=
  if sz = 1 then [if isSigned then .movsx .byte (.reg .rax) .rax else .movzx .byte (.reg .rax) .rax]
  else if sz = 2 then
    [if isSigned then .movsx .word (.reg .rax) .rax else .movzx .word (.reg .rax) .rax]
  else if sz = 4 then
    [if isSigned then .movsx .long (.reg .rax) .rax else .mov .long (.reg .rax) (.reg .rax)]
  else []

def normalizeRaxToType (Γ : TypeEnv) : Option CType → List Instr
  | some ty => if typeIsInteger ty then extendRax (typeSizeof Γ ty) (typeIsSigned ty) else []
  | none => []

def loadXmm (ra : RegAlloc) (v : IRValue) (x : Xmm) : List Instr :=
  let dbl := isDoubleType v.type
  match v.kind with
  | .none => []
  | .temp t => [.movsLoad dbl (ra.slot t) .rbp x]
  | .constFloat c =>
      if dbl then [.movabs c .rax, .movToXmm true .rax x]
      else [.mov .long (.imm ((singleOfDouble c).setWidth 64)) (.reg .rax), .movToXmm false .rax x]
  | .constInt c => [.mov .quad (.imm c) (.reg .rax), .cvtsi2s dbl .rax x]
  | .global name => [.lea (.sym name) .rax, .movsLoad dbl 0 .rax x]

def storeXmm (ra : RegAlloc) (dst : IRValue) (x : Xmm) : List Instr :=
  match dst.kind with
  | .temp t => [.movsStore (isDoubleType dst.type) x (ra.slot t) .rbp]
  | _ => []

/-! ### Parameters -/

/-- The loop over the eightbytes of a register parameter: to the object `%r11` points at
(`toAddr`), or to the temp's slot. -/
def captureEightbytes (slot size : ℤ) (toAddr : Bool) :
    List ABIClass → ℕ → ℕ → ℕ → List Instr
  | [], _, _, _ => []
  | c :: cs, j, intUsed, sseUsed =>
      let byteOff : ℤ := 8 * j
      let remaining := size - byteOff
      match c with
      | .integer =>
          (if toAddr then emitStoreEightbyteToMem .r11 byteOff remaining (paramReg intUsed)
            else emitStoreChunk .rbp (slot + byteOff) remaining (paramReg intUsed)) ++
            captureEightbytes slot size toAddr cs (j + 1) (intUsed + 1) sseUsed
      | .sse =>
          .movsStore (remaining ≥ 8) (xmmReg sseUsed) (if toAddr then byteOff else slot + byteOff)
              (if toAddr then .r11 else .rbp) ::
            captureEightbytes slot size toAddr cs (j + 1) intUsed (sseUsed + 1)
      | _ => captureEightbytes slot size toAddr cs (j + 1) intUsed sseUsed

/-- A parameter that is read from the caller's stack at `stackOffset(%rbp)`. -/
def captureFromStack (ra : RegAlloc) (dst : IRValue) (slot size stackOffset : ℤ)
    (toAddr : Bool) : List Instr :=
  (if toAddr then loadReg ra dst .r11 else [.lea (.mem slot .rbp) .r11]) ++
    [.lea (.mem stackOffset .rbp) .r10] ++ emitCopyBytes .r11 .r10 (max size 0)

/-- An `IR_COPY` without a source captures the incoming parameter `labelId`. -/
def codegenParam (Γ : TypeEnv) (f : IRFunc) (ra : RegAlloc) (ins : IRInstr) : List Instr :=
  if ins.labelId < 0 then storeReg ra ins.dst .rdi
  else
    let st := computeArgState Γ f ins.labelId.toNat
    let toAddr := isAggregateType ins.src2.type
    let pty := if toAddr then ins.src2.type.getD typeInt else ins.dst.type.getD typeInt
    let cls := abiClassify Γ pty
    let slot := match ins.dst.kind with | .temp t => ra.slot t | _ => 0
    if abiInMemory cls then captureFromStack ra ins.dst slot (typeSizeof Γ pty) st.stackOffset toAddr
    else if fitsRegs st.intRegsUsed st.sseRegsUsed cls then
      (if toAddr then loadReg ra ins.dst .r11 else []) ++
        captureEightbytes slot (typeSizeof Γ pty) toAddr cls.classes 0
          st.intRegsUsed st.sseRegsUsed
    else captureFromStack ra ins.dst slot (typeSizeof Γ pty) st.stackOffset toAddr

/-! ### Calls -/

def argType (v : IRValue) : CType := v.type.getD typeInt

/-- The register counts after passing over some arguments; the fold that the counting
pass, the push pass and the register pass each make. -/
def argRegs (Γ : TypeEnv) (used : ℕ × ℕ) (ty : CType) : ℕ × ℕ :=
  let cls := abiClassify Γ ty
  if abiInMemory cls then used
  else if fitsRegs used.1 used.2 cls then (used.1 + cls.needs.1, used.2 + cls.needs.2)
  else used

def sretRegs (sret : Bool) : ℕ × ℕ := (if sret then 1 else 0, 0)

/-- First pass: `stack_args_bytes`. -/
def stackArgsBytes (Γ : TypeEnv) (sret : Bool) (args : List IRValue) : ℤ :=
  (args.foldl (fun (st : (ℕ × ℕ) × ℤ) a =>
      let ty := argType a
      let cls := abiClassify Γ ty
      if abiInMemory cls then (st.1, st.2 + stackBytes Γ ty)
      else if fitsRegs st.1.1 st.1.2 cls then (argRegs Γ st.1 ty, st.2)
      else (st.1, st.2 + stackBytes Γ ty)) (sretRegs sret, 0)).2

/-- Does argument `a` go to the stack, the ones before it being `before`? -/
def goesToStack (Γ : TypeEnv) (sret : Bool) (before : List IRValue) (a : IRValue) : Bool :=
  let cls := abiClassify Γ (argType a)
  if abiInMemory cls then true
  else
    let used := (before.map argType).foldl (argRegs Γ) (sretRegs sret)
    used.1 + cls.needs.1 > 6 || used.2 + cls.needs.2 > 8

/-- Second pass, one argument. -/
def pushArg (Γ : TypeEnv) (ra : RegAlloc) (sret : Bool) (before : List IRValue) (a : IRValue) :
    List Instr :=
  if goesToStack Γ sret before a then
    .alu .sub (.imm (BitVec.ofInt 64 (stackBytes Γ (argType a)))) .rsp ::
      (if isAggregateType a.type then
        loadReg ra a .r11 ++ emitCopyBytes .rsp .r11 (max (typeSizeof Γ (argType a)) 0)
      else loadReg ra a .rax ++ [.mov .quad (.reg .rax) (.mem 0 .rsp)])
  else []

/-- Second pass: the arguments are pushed from the last to the first. -/
def pushArgs (Γ : TypeEnv) (ra : RegAlloc) (sret : Bool) : List IRValue → List IRValue → List Instr
  | _, [] => []
  | before, a :: rest =>
      pushArgs Γ ra sret (before ++ [a]) rest ++ pushArg Γ ra sret before a

/-- The eightbytes of an aggregate that `%r11` points at, loaded into argument registers. -/
def loadEightbytes (size : ℤ) : List ABIClass → ℕ → ℕ → ℕ → List Instr
  | [], _, _, _ => []
  | c :: cs, j, intUsed, sseUsed =>
      let byteOff : ℤ := 8 * j
      let remaining := size - byteOff
      match c with
      | .integer =>
          emitLoadEightbyteFromMem .r11 byteOff remaining (paramReg intUsed) ++
            loadEightbytes size cs (j + 1) (intUsed + 1) sseUsed
      | .sse =>
          .movsLoad (remaining ≥ 8) byteOff .r11 (xmmReg sseUsed) ::
            loadEightbytes size cs (j + 1) intUsed (sseUsed + 1)
      | _ => loadEightbytes size cs (j + 1) intUsed sseUsed

/-- Third pass, one argument that `used` leaves room for. -/
def loadRegArg (Γ : TypeEnv) (ra : RegAlloc) (used : ℕ × ℕ) (a : IRValue) : List Instr :=
  let cls := abiClassify Γ (argType a)
  if isAggregateType a.type then
    loadReg ra a .r11 ++ loadEightbytes (typeSizeof Γ (argType a)) cls.classes 0 used.1 used.2
  else if cls.classes = [.sse] then loadXmm ra a (xmmReg used.2)
  else loadReg ra a (paramReg used.1)

/-- What the third pass adds to the counts for one argument. -/
def loadRegArgUse (Γ : TypeEnv) (a : IRValue) : ℕ × ℕ :=
  let cls := abiClassify Γ (argType a)
  if isAggregateType a.type then cls.needs
  else if cls.classes = [.sse] then (0, 1)
  else (1, 0)

/-- Third pass: the code and the final register counts. -/
def loadRegArgs (Γ : TypeEnv) (ra : RegAlloc) : ℕ × ℕ → List IRValue → List Instr × (ℕ × ℕ)
  | used, [] => ([], used)
  | used, a :: rest =>
      let cls := abiClassify Γ (argType a)
      if abiInMemory cls || !fitsRegs used.1 used.2 cls then loadRegArgs Γ ra used rest
      else
        let use := loadRegArgUse Γ a
        let (code, final) := loadRegArgs Γ ra (used.1 + use.1, used.2 + use.2) rest
        (loadRegArg Γ ra used a ++ code, final)

def retIntReg (i : ℕ) : Reg := if i = 0 then .rax else .rdx

/-- The eightbytes of a returned aggregate, stored to the object `%r10` points at. -/
def storeResultEightbytes (size : ℤ) : List ABIClass → ℕ → ℕ → ℕ → List Instr
  | [], _, _, _ => []
  | c :: cs, j, ri, rs =>
      let byteOff : ℤ := 8 * j
      let remaining := size - byteOff
      match c with
      | .integer =>
          emitStoreChunk .r10 byteOff remaining (retIntReg ri) ++
            storeResultEightbytes size cs (j + 1) (ri + 1) rs
      | .sse =>
          -- always eight bytes, whatever remains
          .movsStore true (xmmReg rs) byteOff .r10 ::
            storeResultEightbytes size cs (j + 1) ri (rs + 1)
      | _ => storeResultEightbytes size cs (j + 1) ri rs

def storeCallResult (Γ : TypeEnv) (ra : RegAlloc) (ins : IRInstr) : List Instr :=
  match ins.callSret, ins.dst.kind with
  | false, .temp t =>
      let rty := (ins.callRetTy <|> ins.dst.type).getD typeInt
      let rcls := abiClassify Γ rty
      if abiInMemory rcls then []
      else if isAggregateType (some rty) then
        .mov .quad (.mem (ra.slot t) .rbp) (.reg .r10) ::
          storeResultEightbytes (typeSizeof Γ rty) rcls.classes 0 0 0
      else if rcls.classes = [.sse] then storeXmm ra ins.dst 0
      else if rcls.classes = [.integer] then
        normalizeRaxToType Γ (some rty) ++ storeReg ra ins.dst .rax
      else []
  | _, _ => []

/-- Padding that keeps `%rsp` a multiple of 16 at the call. -/
def alignPad (frameSize stackArgs : ℤ) : ℤ :=
  if (frameSize + stackArgs).tmod 16 ≠ 0 then 16 - (frameSize + stackArgs).tmod 16 else 0

def callAlign (Γ : TypeEnv) (ra : RegAlloc) (ins : IRInstr) : List Instr :=
  let pad := alignPad ra.frameSize (stackArgsBytes Γ ins.callSret ins.callArgs)
  if pad ≠ 0 then [.alu .sub (.imm (BitVec.ofInt 64 pad)) .rsp] else []

/-- Between the register arguments and the `callq`: the hidden pointer, the number of
`%xmm` registers used, and the callee's address if it is not a name. -/
def callTail (ra : RegAlloc) (ins : IRInstr) (sseUsed : ℕ) : List Instr :=
  (match ins.callSret, ins.dst.kind with
    | true, .temp t => [.mov .quad (.mem (ra.slot t) .rbp) (.reg .rdi)]
    | _, _ => []) ++
  [.mov .byte (.imm (BitVec.ofNat 64 (min sseUsed 8))) (.reg .rax)] ++
  (match ins.src1.kind with
    | .global _ => []
    | _ => loadReg ra ins.src1 .r10)

/-- The code up to the `callq`. -/
def callSetup (Γ : TypeEnv) (ra : RegAlloc) (ins : IRInstr) : List Instr :=
  let regArgs := loadRegArgs Γ ra (sretRegs ins.callSret) ins.callArgs
  callAlign Γ ra ins ++ pushArgs Γ ra ins.callSret [] ins.callArgs ++ regArgs.1 ++
    callTail ra ins regArgs.2.2

def callInstr (ins : IRInstr) : Instr :=
  match ins.src1.kind with
  | .global name => .callSym name
  | _ => .callReg .r10

def callCleanup (Γ : TypeEnv) (ra : RegAlloc) (ins : IRInstr) : List Instr :=
  let bytes := stackArgsBytes Γ ins.callSret ins.callArgs
  let pad := alignPad ra.frameSize bytes
  if bytes + pad > 0 then [.alu .add (.imm (BitVec.ofInt 64 (bytes + pad))) .rsp] else []

def codegenCall (Γ : TypeEnv) (ra : RegAlloc) (ins : IRInstr) : List Instr :=
  callSetup Γ ra ins ++ [callInstr ins] ++ callCleanup Γ ra ins ++ storeCallResult Γ ra ins

/-! ### Returns -/

/-- The eightbytes of the object `%r10` points at, loaded into the return registers. -/
def loadReturnEightbytes (size : ℤ) : List ABIClass → ℕ → ℕ → ℕ → List Instr
  | [], _, _, _ => []
  | c :: cs, j, ri, rs =>
      let byteOff : ℤ := 8 * j
      let remaining := size - byteOff
      match c with
      | .integer =>
          emitLoadEightbyteFromMem .r10 byteOff remaining (retIntReg ri) ++
            loadReturnEightbytes size cs (j + 1) (ri + 1) rs
      | .sse =>
          .movsLoad (remaining ≥ 8) byteOff .r10 (xmmReg rs) ::
            loadReturnEightbytes size cs (j + 1) ri (rs + 1)
      | _ => loadReturnEightbytes size cs (j + 1) ri rs

/-- The code that puts the returned value in place, before `leave; retq`. -/
def returnValue (Γ : TypeEnv) (f : IRFunc) (ra : RegAlloc) (v : IRValue) : List Instr :=
  match v.kind with
  | .none => []
  | _ =>
      let rty := f.retType
      let rcls := abiClassify Γ rty
      if abiInMemory rcls then
        let sret : IRValue := ⟨.temp f.sretTemp, none⟩
        loadReg ra sret .rdi ++ loadReg ra v .rsi ++
          [.mov .quad (.imm (BitVec.ofInt 64 (typeSizeof Γ rty))) (.reg .rdx), .callSym "memcpy"] ++
          loadReg ra sret .rax
      else if isAggregateType (some rty) then
        match v.kind with
        | .temp _ =>
            loadReg ra v .r10 ++ loadReturnEightbytes (typeSizeof Γ rty) rcls.classes 0 0 0
        | _ => []
      else if rcls.classes = [.sse] then loadXmm ra v 0
      else if rcls.classes = [.integer] then
        loadReg ra v .rax ++
          (match f.funcType with
            | some (.func ret _ _ _) => normalizeRaxToType Γ (some ret)
            | _ => [])
      else []

/-! ### Instruction selection -/

def loadExtended (sz : ℤ) (isSigned : Bool) : Instr :=
  if sz = 1 then
    if isSigned then .movsx .byte (.mem 0 .rax) .rdx else .movzx .byte (.mem 0 .rax) .rdx
  else if sz = 2 then
    if isSigned then .movsx .word (.mem 0 .rax) .rdx else .movzx .word (.mem 0 .rax) .rdx
  else if sz = 4 then
    if isSigned then .movsx .long (.mem 0 .rax) .rdx
    else .mov .long (.mem 0 .rax) (.reg .rdx)
  else .mov .quad (.mem 0 .rax) (.reg .rdx)

def storeWidth (sz : ℤ) : Width :=
  if sz = 1 then .byte else if sz = 2 then .word else if sz = 4 then .long else .quad

/-- The type a store goes by: the pointee of the address if it has a pointer type. -/
def storeType (ins : IRInstr) : Option CType :=
  match ins.dst.type with
  | some (.pointer pointee _) => some pointee
  | _ => ins.src1.type

/-- The register operation of an integer binary instruction, `%rax` with `%rcx`. -/
def binaryInstr : IROp → Option Instr
  | .add => some (.alu .add (.reg .rcx) .rax)
  | .sub => some (.alu .sub (.reg .rcx) .rax)
  | .mul => some (.alu .imul (.reg .rcx) .rax)
  | .and => some (.alu .and (.reg .rcx) .rax)
  | .or => some (.alu .or (.reg .rcx) .rax)
  | .xor => some (.alu .xor (.reg .rcx) .rax)
  | .shl => some (.sal .rax)
  | .shr => some (.sar .rax)
  | _ => none

def sseInstr (dbl : Bool) : IROp → List Instr
  | .add => [.sse .add dbl 1 0]
  | .sub => [.sse .sub dbl 1 0]
  | .mul => [.sse .mul dbl 1 0]
  | _ => []

def cmpCond (useUnsigned : Bool) : IROp → Cond
  | .eq => .e
  | .ne => .ne
  | .lt => if useUnsigned then .b else .l
  | .le => if useUnsigned then .be else .le
  | .gt => if useUnsigned then .a else .g
  | _ => if useUnsigned then .ae else .ge

def isUnsigned (ty : Option CType) : Bool := ty.any typeIsUnsignedInteger

def codegenInstr (Γ : TypeEnv) (f : IRFunc) (ra : RegAlloc) (ins : IRInstr) : List Instr :=
  match ins.op with
  | .nop => []
  | .label => [.label ins.labelId]
  | .alloca =>
      match ins.dst.kind with
      | .temp t => .lea (.mem (ra.allocaOff t) .rbp) .rax :: storeReg ra ins.dst .rax
      | _ => []
  | .load =>
      loadReg ra ins.src1 .rax ++
        if isFpType ins.dst.type then
          .movsLoad (isDoubleType ins.dst.type) 0 .rax 0 :: storeXmm ra ins.dst 0
        else
          loadExtended (sizeOrEight Γ ins.dst.type) (ins.dst.type.all typeIsSigned) ::
            storeReg ra ins.dst .rdx
  | .store =>
      -- %r10 keeps the address clear of the argument registers
      loadReg ra ins.dst .r10 ++
        let ty := storeType ins
        if isFpType ty then
          loadXmm ra { ins.src1 with type := ty } 0 ++ [.movsStore (isDoubleType ty) 0 0 .r10]
        else
          loadReg ra ins.src1 .rax ++
            [.mov (storeWidth (sizeOrEight Γ ty)) (.reg .rax) (.mem 0 .r10)]
  | .copy | .loadImm =>
      if ins.src1.kind = .none ∧ ins.op = .copy then codegenParam Γ f ra ins
      else if isFpType ins.dst.type || isFpType ins.src1.type then
        loadXmm ra ins.src1 0 ++ storeXmm ra ins.dst 0
      else loadReg ra ins.src1 .rax ++ storeReg ra ins.dst .rax
  | .addr =>
      (match ins.src1.kind with
        | .temp t => [.lea (.mem (ra.slot t) .rbp) .rax]
        | _ => loadReg ra ins.src1 .rax) ++ storeReg ra ins.dst .rax
  | .add | .sub | .mul | .and | .or | .xor | .shl | .shr =>
      if isFpType ins.dst.type then
        loadXmm ra ins.src1 0 ++ loadXmm ra ins.src2 1 ++
          sseInstr (isDoubleType ins.dst.type) ins.op ++ storeXmm ra ins.dst 0
      else
        loadReg ra ins.src1 .rax ++ loadReg ra ins.src2 .rcx ++ (binaryInstr ins.op).toList ++
          storeReg ra ins.dst .rax
  | .div =>
      if isFpType ins.dst.type then
        loadXmm ra ins.src1 0 ++ loadXmm ra ins.src2 1 ++
          .sse .div (isDoubleType ins.dst.type) 1 0 :: storeXmm ra ins.dst 0
      else
        loadReg ra ins.src1 .rax ++ .cqto :: loadReg ra ins.src2 .rcx ++
          .idiv .rcx :: storeReg ra ins.dst .rax
  | .mod =>
      loadReg ra ins.src1 .rax ++ .cqto :: loadReg ra ins.src2 .rcx ++
        .idiv .rcx :: storeReg ra ins.dst .rdx
  | .neg => loadReg ra ins.src1 .rax ++ .neg .rax :: storeReg ra ins.dst .rax
  | .not => loadReg ra ins.src1 .rax ++ .not .rax :: storeReg ra ins.dst .rax
  | .eq | .ne | .lt | .le | .gt | .ge =>
      if isFpType ins.src1.type || isFpType ins.src2.type then
        loadXmm ra ins.src1 0 ++ loadXmm ra ins.src2 1 ++
          [.ucomisd 1 0, .set (cmpCond true ins.op), .movzx .byte (.reg .rax) .rax] ++
          storeReg ra ins.dst .rax
      else
        loadReg ra ins.src1 .rax ++ loadReg ra ins.src2 .rcx ++
          [.cmp .rcx .rax,
            .set (cmpCond (isUnsigned ins.src1.type || isUnsigned ins.src2.type) ins.op),
            .movzx .byte (.reg .rax) .rax] ++
          storeReg ra ins.dst .rax
  | .sext =>
      loadReg ra ins.src1 .rax ++ extendRax (sizeOrEight Γ ins.src1.type) true ++
        storeReg ra ins.dst .rax
  | .zext =>
      let fsz := sizeOrEight Γ ins.src1.type
      -- nothing is printed for a 4-byte source
      loadReg ra ins.src1 .rax ++ (if fsz = 4 then [] else extendRax fsz false) ++
        storeReg ra ins.dst .rax
  | .trunc =>
      loadReg ra ins.src1 .rax ++
        (match ins.dst.type with
          | some ty => extendRax (typeSizeof Γ ty) (typeIsSigned ty)
          | none => []) ++
        storeReg ra ins.dst .rax
  | .itof =>
      loadReg ra ins.src1 .rax ++
        .cvtsi2s (isDoubleType ins.dst.type) .rax 0 :: storeXmm ra ins.dst 0
  | .ftoi =>
      loadXmm ra ins.src1 0 ++
        .cvtts2si (isDoubleType ins.src1.type) 0 .rax :: storeReg ra ins.dst .rax
  | .jmp => [.jmp ins.labelId]
  | .jz => loadReg ra ins.src1 .rax ++ [.test .rax .rax, .jcc .e ins.labelId]
  | .jnz => loadReg ra ins.src1 .rax ++ [.test .rax .rax, .jcc .ne ins.labelId]
  | .call => codegenCall Γ ra ins
  | .ret => returnValue Γ f ra ins.src1 ++ [.leave, .ret]
  | .memcpy =>
      loadReg ra ins.dst .rdi ++ loadReg ra ins.src1 .rsi ++ loadReg ra ins.src2 .rdx ++
        [.callSym "memcpy"]
  | .globalDef => []

/-- `pushq %rbp; movq %rsp, %rbp; subq $frame_size, %rsp`. -/
def prologue (ra : RegAlloc) : List Instr :=
  [.push .rbp, .mov .quad (.reg .rsp) (.reg .rbp),
    .alu .sub (.imm (BitVec.ofInt 64 ra.frameSize)) .rsp]

def codegenFunc (Γ : TypeEnv) (f : IRFunc) : List Instr :=
  let ra := regallocRun f
  prologue ra ++ f.instrs.flatMap (codegenInstr Γ f ra) ++ [.leave, .ret]

end TinyC

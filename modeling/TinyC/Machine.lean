import TinyC.Lib.ByteMemory

/-!
# The x86-64 instructions the code generator prints

Each constructor of `Instr` is one AT&T line of the output, operands in the order they
are printed. Floating-point arithmetic, the addresses of symbols and what a called
function does are left to an `Env`.
-/

namespace TinyC

open ByteMemory

inductive Reg where
  | rax | rcx | rdx | rbx | rsi | rdi | rbp | rsp | r8 | r9 | r10 | r11
  deriving DecidableEq, Repr

abbrev Xmm := Fin 8

/-- The suffixes `b`, `w`, `l` and `q`. -/
inductive Width where
  | byte | word | long | quad
  deriving DecidableEq, Repr

def Width.bytes : Width → ℕ
  | .byte => 1
  | .word => 2
  | .long => 4
  | .quad => 8

inductive Opnd where
  | reg (r : Reg)
  /-- `disp(base)`. -/
  | mem (disp : ℤ) (base : Reg)
  | imm (v : BitVec 64)
  /-- `name(%rip)`. -/
  | sym (name : String)
  deriving DecidableEq, Repr

inductive AluOp where
  | add | sub | imul | and | or | xor
  deriving DecidableEq, Repr

inductive Cond where
  | e | ne | l | le | g | ge | b | be | a | ae
  deriving DecidableEq, Repr

inductive SseOp where
  | add | sub | mul | div
  deriving DecidableEq, Repr

inductive Instr where
  | mov (w : Width) (src dst : Opnd)
  /-- `movzbq`, `movzwq`. -/
  | movzx (w : Width) (src : Opnd) (dst : Reg)
  /-- `movsbq`, `movswq`, `movslq`. -/
  | movsx (w : Width) (src : Opnd) (dst : Reg)
  | movabs (v : BitVec 64) (dst : Reg)
  | lea (src : Opnd) (dst : Reg)
  | alu (op : AluOp) (src : Opnd) (dst : Reg)
  /-- `salq %cl` and `sarq %cl`. -/
  | sal (dst : Reg)
  | sar (dst : Reg)
  | neg (dst : Reg)
  | not (dst : Reg)
  | cqto
  | idiv (src : Reg)
  | cmp (src dst : Reg)
  | test (src dst : Reg)
  /-- `sete %al` and its kin. -/
  | set (c : Cond)
  /-- `movsd` (`dbl`) or `movss` from memory. -/
  | movsLoad (dbl : Bool) (disp : ℤ) (base : Reg) (dst : Xmm)
  | movsStore (dbl : Bool) (src : Xmm) (disp : ℤ) (base : Reg)
  /-- `movq %rax, %xmm` (`dbl`) or `movd %eax, %xmm`. -/
  | movToXmm (dbl : Bool) (src : Reg) (dst : Xmm)
  | sse (op : SseOp) (dbl : Bool) (src dst : Xmm)
  | ucomisd (src dst : Xmm)
  | cvtsi2s (dbl : Bool) (src : Reg) (dst : Xmm)
  | cvtts2si (dbl : Bool) (src : Xmm) (dst : Reg)
  | push (src : Reg)
  | callSym (name : String)
  | callReg (r : Reg)
  | leave
  | ret
  | jmp (l : ℤ)
  | jcc (c : Cond) (l : ℤ)
  | label (l : ℤ)
  deriving DecidableEq, Repr

/-- `lt` is `SF ≠ OF`. -/
structure Flags where
  zf : Bool := false
  cf : Bool := false
  lt : Bool := false
  deriving DecidableEq, Repr

def Cond.holds (c : Cond) (f : Flags) : Bool :=
  match c with
  | .e => f.zf
  | .ne => !f.zf
  | .l => f.lt
  | .le => f.zf || f.lt
  | .g => !(f.zf || f.lt)
  | .ge => !f.lt
  | .b => f.cf
  | .be => f.cf || f.zf
  | .a => !(f.cf || f.zf)
  | .ae => !f.cf

/-- An `%xmm` register is kept to its low 64 bits. -/
structure MState where
  reg : Reg → BitVec 64
  xmm : Xmm → BitVec 64
  flags : Flags
  mem : Mem

/-- Floating-point operations on bit patterns; a single-precision result is the low half. The
comparison is that of doubles, the only one the code generator prints. -/
structure FpUnit where
  arith : SseOp → Bool → BitVec 64 → BitVec 64 → BitVec 64
  compare : BitVec 64 → BitVec 64 → Flags
  ofInt : Bool → BitVec 64 → BitVec 64
  truncate : Bool → BitVec 64 → BitVec 64

inductive CallTarget where
  | symbol (name : String)
  | address (a : Addr)

structure Env where
  fp : FpUnit
  sym : String → Addr
  /-- From the state at the `callq` to the state after the return. -/
  call : CallTarget → MState → MState

namespace MState

def setReg (s : MState) (r : Reg) (v : BitVec 64) : MState :=
  { s with reg := Function.update s.reg r v }

def setXmm (s : MState) (x : Xmm) (v : BitVec 64) : MState :=
  { s with xmm := Function.update s.xmm x v }

/-- A single-precision result takes the low half of the register and leaves the rest. -/
def writeXmm (s : MState) (dbl : Bool) (x : Xmm) (v : BitVec 64) : MState :=
  s.setXmm x (if dbl then v else (s.xmm x &&& ~~~0xffffffff#64) ||| zeroExt 4 v)

def ea (s : MState) (disp : ℤ) (base : Reg) : Addr := s.reg base + BitVec.ofInt 64 disp

/-- A write of a 32-bit register clears the upper half; narrower writes keep the rest. -/
def writeReg (s : MState) (w : Width) (r : Reg) (v : BitVec 64) : MState :=
  match w with
  | .quad => s.setReg r v
  | .long => s.setReg r (zeroExt 4 v)
  | .word => s.setReg r ((s.reg r &&& ~~~0xffff#64) ||| zeroExt 2 v)
  | .byte => s.setReg r ((s.reg r &&& ~~~0xff#64) ||| zeroExt 1 v)

/-- The low bytes of an operand, zero-extended. -/
def get (E : Env) (s : MState) (w : Width) : Opnd → BitVec 64
  | .reg r => zeroExt w.bytes (s.reg r)
  | .mem d b => load s.mem (s.ea d b) w.bytes
  | .imm v => zeroExt w.bytes v
  | .sym name => load s.mem (E.sym name) w.bytes

def put (E : Env) (s : MState) (w : Width) (v : BitVec 64) : Opnd → MState
  | .reg r => s.writeReg w r v
  | .mem d b => { s with mem := store s.mem (s.ea d b) w.bytes v }
  | .imm _ => s
  | .sym name => { s with mem := store s.mem (E.sym name) w.bytes v }

end MState

def AluOp.eval (op : AluOp) (dst src : BitVec 64) : BitVec 64 :=
  match op with
  | .add => dst + src
  | .sub => dst - src
  | .imul => dst * src
  | .and => dst &&& src
  | .or => dst ||| src
  | .xor => dst ^^^ src

/-- The signed quotient and remainder of `%rdx:%rax`; `none` is the divide error. -/
def idivq (hi lo d : BitVec 64) : Option (BitVec 64 × BitVec 64) :=
  let n : ℤ := hi.toInt * 2 ^ 64 + lo.toNat
  let q := n.tdiv d.toInt
  if d = 0 ∨ q < -2 ^ 63 ∨ 2 ^ 63 ≤ q then none
  else some (BitVec.ofInt 64 q, BitVec.ofInt 64 (n.tmod d.toInt))

/-- One instruction other than a jump or a return; `none` is a fault. -/
def Instr.step (E : Env) (i : Instr) (s : MState) : Option MState :=
  match i with
  | .mov w src dst => some (s.put E w (s.get E w src) dst)
  | .movzx w src dst => some (s.setReg dst (s.get E w src))
  | .movsx w src dst => some (s.setReg dst (signExt w.bytes (s.get E w src)))
  | .movabs v dst => some (s.setReg dst v)
  | .lea (.mem d b) dst => some (s.setReg dst (s.ea d b))
  | .lea (.sym name) dst => some (s.setReg dst (E.sym name))
  | .lea _ _ => none
  | .alu op src dst => some (s.setReg dst (op.eval (s.reg dst) (s.get E .quad src)))
  | .sal dst => some (s.setReg dst (s.reg dst <<< ((s.reg .rcx).toNat % 64)))
  | .sar dst => some (s.setReg dst ((s.reg dst).sshiftRight ((s.reg .rcx).toNat % 64)))
  | .neg dst => some (s.setReg dst (-(s.reg dst)))
  | .not dst => some (s.setReg dst (~~~(s.reg dst)))
  | .cqto => some (s.setReg .rdx (if (s.reg .rax).msb then BitVec.allOnes 64 else 0))
  | .idiv src =>
      (idivq (s.reg .rdx) (s.reg .rax) (s.reg src)).map fun qr =>
        (s.setReg .rax qr.1).setReg .rdx qr.2
  | .cmp src dst =>
      let (a, b) := (s.reg dst, s.reg src)
      some { s with flags := ⟨a == b, a.ult b, a.slt b⟩ }
  | .test src dst =>
      let r := s.reg dst &&& s.reg src
      some { s with flags := ⟨r == 0, false, r.msb⟩ }
  | .set c => some (s.writeReg .byte .rax (if c.holds s.flags then 1 else 0))
  | .movsLoad dbl d b dst => some (s.setXmm dst (load s.mem (s.ea d b) (if dbl then 8 else 4)))
  | .movsStore dbl src d b =>
      some { s with mem := store s.mem (s.ea d b) (if dbl then 8 else 4) (s.xmm src) }
  | .movToXmm dbl src dst => some (s.setXmm dst (zeroExt (if dbl then 8 else 4) (s.reg src)))
  | .sse op dbl src dst => some (s.writeXmm dbl dst (E.fp.arith op dbl (s.xmm dst) (s.xmm src)))
  | .ucomisd src dst => some { s with flags := E.fp.compare (s.xmm dst) (s.xmm src) }
  | .cvtsi2s dbl src dst => some (s.writeXmm dbl dst (E.fp.ofInt dbl (s.reg src)))
  | .cvtts2si dbl src dst => some (s.setReg dst (E.fp.truncate dbl (s.xmm src)))
  | .push src =>
      let s' := s.setReg .rsp (s.reg .rsp - 8)
      some { s' with mem := store s'.mem (s'.reg .rsp) 8 (s.reg src) }
  | .callSym name => some (E.call (.symbol name) s)
  | .callReg r => some (E.call (.address (s.reg r)) s)
  | .leave =>
      let fp := s.reg .rbp
      some ((s.setReg .rbp (load s.mem fp 8)).setReg .rsp (fp + 8))
  | .label _ => some s
  | .jmp _ | .jcc _ _ | .ret => none

/-- How the code of one IR instruction is left. -/
inductive Exit where
  | fall
  | jump (l : ℤ)
  | ret
  deriving DecidableEq, Repr

/-- Runs a block of instructions in which jumps only leave. -/
def exec (E : Env) : List Instr → MState → Option (MState × Exit)
  | [], s => some (s, .fall)
  | .jmp l :: _, s => some (s, .jump l)
  | .jcc c l :: is, s => if c.holds s.flags then some (s, .jump l) else exec E is s
  | .ret :: _, s => some (s, .ret)
  | i :: is, s => (i.step E s).bind fun s' => exec E is s'

end TinyC

import TinyC.StringPool
import TinyC.Codegen
import TinyC.IrGenModule

/-!
# The assembly of a translation unit

`codegen` writes the functions, the string constants and the globals of a module one after the
other. An assembler makes a symbol of every label and puts the data after it there.
-/

namespace TinyC

/-- The labels of functions and objects are their names; those that the compiler makes up start
with a dot. -/
inductive AsmLabel where
  | symbol (name : String)
  | dot (name : String)
  deriving DecidableEq, Repr

inductive AsmLine where
  | section (name : String)
  | globl (name : String)
  | type (name : String) (isFunction : Bool)
  | label (l : AsmLabel)
  /-- The instructions of a function. -/
  | code (instrs : List Instr)
  | size (name : String)
  | asciz (operand : List Byte)
  | bytes (data : List (BitVec 8))
  /-- `.byte`, `.short`, `.long` and `.quad`. -/
  | int (w : Width) (val : BitVec 64)
  | zero (n : ℤ)
  deriving Repr

/-- `codegen_func`. -/
def emitFunc (Γ : TypeEnv) (f : IRFunc) : List AsmLine :=
  (if f.isStatic then [] else [.globl f.name]) ++
    [.type f.name true, .label (.symbol f.name), .code (codegenFunc Γ f), .size f.name]

/-- The size a global is given. -/
def globalSize (Γ : TypeEnv) (ty : CType) : ℤ := if typeSizeof Γ ty > 0 then typeSizeof Γ ty else 8

def emitInitData (Γ : TypeEnv) (gv : IRGlobalVar) : AsmLine :=
  let sz := globalSize Γ gv.type
  match gv.initData.filter (·.length > 0) with
  | some data => .bytes data
  | none =>
    if gv.hasInit && gv.initVal ≠ 0 then
      if sz = 1 then .int .byte gv.initVal
      else if sz = 2 then .int .word gv.initVal
      else if sz = 4 then .int .long gv.initVal
      else .int .quad gv.initVal
    else .zero sz

def emitGlobalVar (Γ : TypeEnv) (gv : IRGlobalVar) : List AsmLine :=
  (if gv.isStatic then [] else [.globl gv.name, .type gv.name false]) ++
    [.label (.symbol gv.name), emitInitData Γ gv]

def emitStrConst (s : IRStrConst) : List AsmLine := [.label (.dot s.label), .asciz (emitAsciz s.data)]

/-- A function without instructions is passed over. -/
def codegen (Γ : TypeEnv) (m : IRModule) : List AsmLine :=
  .section ".text" :: ((m.funcs.filter fun f => f.instrs.length ≠ 0).flatMap (emitFunc Γ) ++
    (if m.strConsts = [] then [] else
      .section ".rodata" :: m.strConsts.flatMap emitStrConst) ++
    (if m.globalVars = [] then [] else
      .section ".data" :: m.globalVars.flatMap (emitGlobalVar Γ)))

/-! ### Symbols -/

/-- The bytes of data a line reserves. -/
def AsmLine.dataSize : AsmLine → ℤ
  | .asciz operand => ((TinyC.asciz operand).map fun s => (s.length : ℤ)).getD 0
  | .bytes data => data.length
  | .int w _ => w.bytes
  | .zero n => n
  | _ => 0

/-- The data before the first label, and the labels with the data up to the next one. -/
def segments : List AsmLine → ℤ × List (AsmLabel × ℤ)
  | [] => (0, [])
  | .label l :: rest => (0, (l, (segments rest).1) :: (segments rest).2)
  | line :: rest => (line.dataSize + (segments rest).1, (segments rest).2)

def symbolTable (lines : List AsmLine) : List (AsmLabel × ℤ) := (segments lines).2

def globlNames (lines : List AsmLine) : List String :=
  lines.filterMap fun | .globl name => some name | _ => none

section Segments

variable {Γ : TypeEnv} {rest : List AsmLine}

theorem segments_globl (isStatic : Bool) (lines : List AsmLine)
    (h : ∀ line ∈ lines, (∃ name, line = .globl name) ∨ ∃ name b, line = .type name b) :
    segments ((if isStatic then [] else lines) ++ rest) = segments rest := by
  split
  · rfl
  · induction lines with
    | nil => rfl
    | cons line lines ih =>
      obtain ⟨hline, hlines⟩ := List.forall_mem_cons.mp h
      have ih := ih hlines
      rcases hline with ⟨name, rfl⟩ | ⟨name, b, rfl⟩
      · simp only [List.cons_append, segments, AsmLine.dataSize, zero_add]
        exact ih
      · simp only [List.cons_append, segments, AsmLine.dataSize, zero_add]
        exact ih

theorem segments_emitFunc (f : IRFunc) :
    segments (emitFunc Γ f ++ rest) =
      (0, (.symbol f.name, (segments rest).1) :: (segments rest).2) := by
  rw [emitFunc, List.append_assoc, segments_globl _ _ (by simp)]
  simp [segments, AsmLine.dataSize]

theorem segments_emitStrConst (s : IRStrConst) :
    segments (emitStrConst s ++ rest) =
      (0, (.dot s.label, (emitStrConst s).getLast?.elim 0 AsmLine.dataSize + (segments rest).1) ::
        (segments rest).2) := rfl

theorem emitInitData_ne_label (gv : IRGlobalVar) :
    segments (emitInitData Γ gv :: rest) =
      ((emitInitData Γ gv).dataSize + (segments rest).1, (segments rest).2) := by
  unfold emitInitData
  dsimp only
  repeat' split
  all_goals rfl

theorem segments_emitGlobalVar (gv : IRGlobalVar) :
    segments (emitGlobalVar Γ gv ++ rest) =
      (0, (.symbol gv.name, (emitInitData Γ gv).dataSize + (segments rest).1) ::
        (segments rest).2) := by
  rw [emitGlobalVar, List.append_assoc, segments_globl _ _ (by simp)]
  change segments (.label (.symbol gv.name) :: emitInitData Γ gv :: rest) = _
  rw [segments, emitInitData_ne_label]

/-- Blocks that begin with their label, one after the other. -/
theorem segments_flatMap {α : Type} {emit : α → List AsmLine} {entry : α → AsmLabel × ℤ}
    (h : ∀ a rest, segments (emit a ++ rest) =
      (0, ((entry a).1, (entry a).2 + (segments rest).1) :: (segments rest).2))
    (hrest : (segments rest).1 = 0) (as : List α) :
    segments (as.flatMap emit ++ rest) = (0, as.map entry ++ (segments rest).2) := by
  induction as with
  | nil => exact Prod.ext hrest rfl
  | cons a as ih => rw [List.flatMap_cons, List.append_assoc, h, ih, add_zero]; rfl

theorem segments_section (name : String) : segments (.section name :: rest) = segments rest := by
  simp [segments, AsmLine.dataSize]

end Segments

def strConstEntry (s : IRStrConst) : AsmLabel × ℤ :=
  (.dot s.label, (AsmLine.asciz (emitAsciz s.data)).dataSize)

def globalVarEntry (Γ : TypeEnv) (gv : IRGlobalVar) : AsmLabel × ℤ :=
  (.symbol gv.name, (emitInitData Γ gv).dataSize)

/-- The symbols of a module. -/
theorem symbolTable_codegen (Γ : TypeEnv) (m : IRModule) :
    symbolTable (codegen Γ m) =
      (m.funcs.filter fun f => f.instrs.length ≠ 0).map (fun f => (.symbol f.name, 0)) ++
        m.strConsts.map strConstEntry ++ m.globalVars.map (globalVarEntry Γ) := by
  have hglobals : segments (if m.globalVars = [] then [] else
      .section ".data" :: m.globalVars.flatMap (emitGlobalVar Γ)) =
      (0, m.globalVars.map (globalVarEntry Γ)) := by
    split
    case isTrue h => simp [h, segments]
    case isFalse h =>
      have hflat : segments (m.globalVars.flatMap (emitGlobalVar Γ) ++ []) =
          (0, m.globalVars.map (globalVarEntry Γ) ++ []) :=
        segments_flatMap (fun gv rest => segments_emitGlobalVar gv) rfl m.globalVars
      rw [List.append_nil] at hflat
      rw [segments_section, hflat]
      simp
  have hstrs : ∀ rest, (segments rest).1 = 0 → segments ((if m.strConsts = [] then [] else
      .section ".rodata" :: m.strConsts.flatMap emitStrConst) ++ rest) =
      (0, m.strConsts.map strConstEntry ++ (segments rest).2) := by
    intro rest hrest
    split
    case isTrue h => simp [h, ← hrest]
    case isFalse h =>
      rw [List.cons_append, segments_section]
      exact segments_flatMap (fun s rest => segments_emitStrConst s) hrest m.strConsts
  have hfuncs : ∀ rest, (segments rest).1 = 0 →
      segments ((m.funcs.filter fun f => f.instrs.length ≠ 0).flatMap (emitFunc Γ) ++ rest) =
        (0, (m.funcs.filter fun f => f.instrs.length ≠ 0).map (fun f => (.symbol f.name, 0)) ++
          (segments rest).2) := fun rest hrest =>
    segments_flatMap (fun f rest => by rw [segments_emitFunc, zero_add]) hrest _
  rw [symbolTable, codegen, segments_section, List.append_assoc,
    hfuncs _ (by rw [hstrs _ (by rw [hglobals])]), hstrs _ (by rw [hglobals]), hglobals,
    List.append_assoc]

theorem globlNames_append (a b : List AsmLine) :
    globlNames (a ++ b) = globlNames a ++ globlNames b := List.filterMap_append

theorem globlNames_flatMap {α : Type} (emit : α → List AsmLine) (as : List α) :
    globlNames (as.flatMap emit) = as.flatMap fun a => globlNames (emit a) :=
  List.filterMap_flatMap

theorem flatMap_exported {α : Type} (isStatic : α → Bool) (name : α → String) (as : List α) :
    (as.flatMap fun a => if isStatic a then [] else [name a]) =
      (as.filter fun a => !isStatic a).map name := by
  induction as with
  | nil => rfl
  | cons a as ih =>
    rw [List.flatMap_cons, ih, List.filter_cons]
    cases isStatic a <;> rfl

theorem globlNames_emitFunc (Γ : TypeEnv) (f : IRFunc) :
    globlNames (emitFunc Γ f) = if f.isStatic then [] else [f.name] := by
  rw [emitFunc]
  cases f.isStatic <;> rfl

theorem globlNames_emitGlobalVar (Γ : TypeEnv) (gv : IRGlobalVar) :
    globlNames (emitGlobalVar Γ gv) = if gv.isStatic then [] else [gv.name] := by
  have hdata : globlNames [emitInitData Γ gv] = [] := by
    unfold emitInitData
    dsimp only
    repeat' split
    all_goals rfl
  have hlabel : globlNames [.label (.symbol gv.name), emitInitData Γ gv] = [] := hdata
  rw [emitGlobalVar, globlNames_append, hlabel, List.append_nil]
  cases gv.isStatic <;> rfl

/-- The global symbols of a module. -/
theorem globlNames_codegen (Γ : TypeEnv) (m : IRModule) :
    globlNames (codegen Γ m) =
      ((m.funcs.filter fun f => f.instrs.length ≠ 0).filter fun f => !f.isStatic).map IRFunc.name ++
        (m.globalVars.filter fun gv => !gv.isStatic).map IRGlobalVar.name := by
  have hfuncs : ∀ fs : List IRFunc, globlNames (fs.flatMap (emitFunc Γ)) =
      (fs.filter fun f => !f.isStatic).map IRFunc.name := fun fs => by
    rw [globlNames_flatMap, ← flatMap_exported]
    exact congrArg fs.flatMap (funext fun f => globlNames_emitFunc Γ f)
  have hstrs : globlNames (if m.strConsts = [] then [] else
      .section ".rodata" :: m.strConsts.flatMap emitStrConst) = [] := by
    have hnil : ∀ ss : List IRStrConst, globlNames (ss.flatMap emitStrConst) = [] := fun ss => by
      rw [globlNames_flatMap, List.flatMap_eq_nil_iff]
      exact fun s _ => rfl
    split
    · rfl
    · exact hnil m.strConsts
  have hglobals : globlNames (if m.globalVars = [] then [] else
      .section ".data" :: m.globalVars.flatMap (emitGlobalVar Γ)) =
      (m.globalVars.filter fun gv => !gv.isStatic).map IRGlobalVar.name := by
    have hflat : globlNames (m.globalVars.flatMap (emitGlobalVar Γ)) =
        (m.globalVars.filter fun gv => !gv.isStatic).map IRGlobalVar.name := by
      rw [globlNames_flatMap, ← flatMap_exported]
      exact congrArg m.globalVars.flatMap (funext fun gv => globlNames_emitGlobalVar Γ gv)
    split
    case isTrue h => simp [h, globlNames]
    case isFalse h => exact hflat
  have hhead : globlNames (codegen Γ m) = globlNames (_ ++ _ ++ _) := rfl
  rw [hhead, globlNames_append, globlNames_append, hfuncs, hstrs, hglobals, List.append_nil]

end TinyC

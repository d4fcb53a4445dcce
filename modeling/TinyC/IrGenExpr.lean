import TinyC.IrGenState

/-!
# Lowering of expressions and initializers

`gen_expr`, `gen_lvalue`, `gen_aggregate_expr_addr` and `gen_initializer` call each other
on one node and on its children. `genNode` makes the generators of a node from those of
its children; `genExpr` and its kin pick one.
-/

namespace TinyC

/-! ### Members -/

/-- The member and the ones after it, with its offset as far as the search keeps it: for a
member of an anonymous aggregate the two offsets are added. -/
@[semireducible] def findFieldWithOffset (Γ : TypeEnv) (ty : CType) (name : String) :
    Option (List StructField × ℤ) :=
  match ty with
  | .agg _ id _ =>
      (Γ.agg id).fields.tails.attach.findSome? fun suffix =>
        match _hs : suffix.1 with
        | [] => none
        | f :: _ =>
            if f.name = some name then some (suffix.1, f.offset)
            else if f.name = none ∧ isAggregateType (some f.type) then
              (findFieldWithOffset Γ f.type name).map fun r => (r.1, f.offset + r.2)
            else none
  | _ => none
termination_by ty.depth Γ.rank
decreasing_by
  have hmem : f ∈ (Γ.agg id).fields :=
    ((List.mem_tails _ _).mp suffix.2).subset (_hs ▸ List.mem_cons_self)
  exact Γ.contained id f hmem

/-- `find_field`: the offset found on the way is dropped. -/
def findField (Γ : TypeEnv) (ty : Option CType) (name : String) : List StructField :=
  match ty with
  | some t => ((findFieldWithOffset Γ t name).map Prod.fst).getD []
  | none => []

/-- `pt->ptr.pointee` of a pointer type, the type itself otherwise. -/
def pointeeOrSelf : Option CType → Option CType
  | some (.pointer p _) => some p
  | ty => ty

def memberField (Γ : TypeEnv) : Expr → Option StructField
  | .member _ base field => (findField Γ base.type field).head?
  | .memberPtr _ base field => (findField Γ (pointeeOrSelf base.type) field).head?
  | _ => none

def pointerPointeeSize (Γ : TypeEnv) : Option CType → ℤ
  | some (.pointer p _) => if typeSizeof Γ p > 0 then typeSizeof Γ p else 1
  | _ => 1

def bitMask (width : ℤ) : BitVec 64 :=
  if width ≤ 0 then 0
  else if width ≥ 63 then BitVec.allOnes 64
  else BitVec.ofNat 64 (2 ^ width.toNat - 1)

/-- The shift by `bit_offset`, left out for the lowest field of a unit. -/
def genFieldShift (op : IROp) (v : IRValue) (field : StructField) : Gen IRValue :=
  if field.bitOffset > 0 then
    emitTo field.type op v (irvInt (BitVec.ofInt 64 field.bitOffset) typeInt)
  else return v

def genBitfieldLoad (storageAddr : IRValue) (field : StructField) : Gen IRValue := do
  let raw ← genLoad storageAddr field.type
  let shifted ← genFieldShift .shr raw field
  emitTo field.type .and shifted (irvInt (bitMask field.bitWidth) field.type)

def genBitfieldStore (storageAddr : IRValue) (field : StructField) (value : IRValue) :
    Gen IRValue := do
  let mask := bitMask field.bitWidth
  let shiftedMask := mask <<< field.bitOffset.toNat
  let current ← genLoad storageAddr field.type
  let cleared ← emitTo field.type .and current (irvInt (~~~shiftedMask) field.type)
  let clipped ← emitTo field.type .and value (irvInt mask field.type)
  let shifted ← genFieldShift .shl clipped field
  let next ← emitTo field.type .or cleared shifted
  genStore storageAddr next
  return value

/-! ### Constants -/

/-- `eval_const_expr`, for the labels of a switch and scalar globals. -/
def evalConstExpr : Expr → BitVec 64
  | .intLit _ v _ | .charLit _ v => v
  | .unop _ .minus e => -evalConstExpr e
  | .unop _ _ e => evalConstExpr e
  | _ => 0

/-- `const_int_value`, for initializers. -/
def constIntValue : Expr → BitVec 64
  | .intLit _ v _ | .charLit _ v => v
  | .unop _ .minus e => -constIntValue e
  | .unop _ .plus e => constIntValue e
  | _ => 0

/-! ### Initializers -/

/-- The size initializers step by. -/
def elemSize (Γ : TypeEnv) (elem : CType) : ℤ :=
  if typeSizeof Γ elem ≤ 0 then 1 else typeSizeof Γ elem

@[semireducible] def genZeroInitializer (Γ : TypeEnv) (addr : IRValue) (ty : CType) : Gen Unit :=
  match ty with
  | .array elem count _ =>
      (List.range count.toNat).forM fun i => do
        let elemAddr ← genAddrOffset addr (toInt32 (i * elemSize Γ elem)) elem
        genZeroInitializer Γ elemAddr elem
  | .agg _ id _ =>
      (Γ.agg id).fields.attach.forM fun f => do
        let fieldAddr ← genAddrOffset addr f.1.offset f.1.type
        genZeroInitializer Γ fieldAddr f.1.type
  | ty => genStore addr (irvInt 0 ty)
termination_by ty.depth Γ.rank
decreasing_by
  · simp [CType.depth]
  · exact Γ.contained id f.1 f.2

/-- What the functions of irgen do with one node. -/
structure NodeGen where
  lvalue : Gen IRValue
  expr : Gen IRValue
  aggAddr : Gen IRValue
  init : IRValue → CType → Gen Unit

/-- The designation of an item of an initializer list. -/
inductive ItemKind where
  | plain
  | field (name : String)
  | index (val : BitVec 64)
  deriving DecidableEq, Repr

structure ItemGen where
  kind : ItemKind
  /-- Is the value itself an initializer list? -/
  isList : Bool
  value : NodeGen

def genScalarOrNestedInit (Γ : TypeEnv) (it : ItemGen) (addr : IRValue) (ty : CType) : Gen Unit :=
  if it.isList then it.value.init addr ty
  else if isAggregateType (some ty) then do
    let src ← it.value.aggAddr
    genMemcpy Γ addr src ty
  else do
    let v ← it.value.expr
    genStore addr v

/-- `gen_array_initializer`; `count` is missing for an array without a bound. -/
def genArrayItems (Γ : TypeEnv) (addr : IRValue) (elem : CType) (count : Option ℤ) :
    List ItemGen → ℤ → Gen Unit
  | [], _ => return
  | it :: rest, nextIndex =>
      match it.kind with
      | .field _ => genArrayItems Γ addr elem count rest nextIndex
      | kind => do
          let index := match kind with
            | .index v => v.toInt
            | _ => nextIndex
          if count.any fun n => index < 0 || index ≥ n then
            genArrayItems Γ addr elem count rest (index + 1)
          else
            let elemAddr ← genAddrOffset addr (toInt32 (index * elemSize Γ elem)) elem
            genScalarOrNestedInit Γ it elemAddr elem
            genArrayItems Γ addr elem count rest (index + 1)

/-- `gen_aggregate_initializer`; `nextField` is the list that starts at `next_field`. -/
def genAggregateItems (Γ : TypeEnv) (addr : IRValue) (ty : CType) :
    List ItemGen → List StructField → Gen Unit
  | [], _ => return
  | it :: rest, nextField =>
      match it.kind with
      | .index _ => genAggregateItems Γ addr ty rest nextField
      | kind =>
          let fields := match kind with
            | .field name => findField Γ (some ty) name
            | _ => nextField
          match fields with
          | [] => return
          | field :: after => do
              let fieldAddr ← genAddrOffset addr field.offset field.type
              genScalarOrNestedInit Γ it fieldAddr field.type
              genAggregateItems Γ addr ty rest after

/-- `gen_initializer` of a brace-enclosed list. -/
def genListInit (Γ : TypeEnv) (items : List ItemGen) (addr : IRValue) (ty : CType) : Gen Unit := do
  genZeroInitializer Γ addr ty
  match ty with
  | .array elem count _ => genArrayItems Γ addr elem (some count) items 0
  | .arrayUnsized elem _ => genArrayItems Γ addr elem none items 0
  | .agg _ id _ => genAggregateItems Γ addr ty items (Γ.agg id).fields
  | _ =>
      match items with
      | [] => return
      | first :: _ => genScalarOrNestedInit Γ first addr ty

/-- `gen_initializer` of an expression. -/
def genExprInit (Γ : TypeEnv) (expr aggAddr : Gen IRValue) (addr : IRValue) (ty : CType) :
    Gen Unit := do
  if isAggregateType (some ty) then
    let src ← aggAddr
    genMemcpy Γ addr src ty
  else
    let v ← expr
    genStore addr v

namespace NodeGen

/-- A node that is an lvalue of its own form. -/
def ofLvalue (Γ : TypeEnv) (lvalue expr : Gen IRValue) : NodeGen :=
  ⟨lvalue, expr, lvalue, genExprInit Γ expr lvalue⟩

/-- A node for which `gen_lvalue` falls back to `gen_expr`. -/
def ofExpr (Γ : TypeEnv) (expr : Gen IRValue) : NodeGen := ofLvalue Γ expr expr

end NodeGen

/-! ### Expressions -/

def genIdent (name : String) (nodeType : Option CType) : Gen IRValue := do
  match ← vscopeLookup name with
  | some e =>
      let ty := nodeType.getD typeInt
      if ty.isArray || ty.isFunc || isAggregateType (some ty) then return e.addr
      else genLoad e.addr ty
  | none => return irvGlobal name (nodeType.getD typeInt)

def genIdentLvalue (name : String) : Gen IRValue := do
  match ← vscopeLookup name with
  | some e => return e.addr
  | none => return irvGlobal name (typePointer typeInt .none)

/-- The value of an lvalue node of the given type, once its address is known. -/
def loadUnlessAggregate (nodeType : Option CType) (addr : IRValue) : Gen IRValue :=
  if isAggregateType nodeType then return addr else genLoad addr (nodeType.getD typeInt)

/-- The new value of `++` and `--`; returned are the old and the new one. -/
def genStep (Γ : TypeEnv) (op : TokenKind) (nodeType : Option CType) (lvalue : Gen IRValue) :
    Gen (IRValue × IRValue) := do
  let addr ← lvalue
  let ty := nodeType.getD typeInt
  let old ← genLoad addr ty
  let one := irvInt (BitVec.ofInt 64 (pointerPointeeSize Γ (some ty))) typeInt
  let new ← emitTo ty (if op = .plusplus then .add else .sub) old one
  genStore addr new
  return (old, new)

def genUnop (Γ : TypeEnv) (op : TokenKind) (nodeType : Option CType) (operand : NodeGen) :
    Gen IRValue :=
  match op with
  | .amp => operand.lvalue
  | .star => do
      let addr ← operand.expr
      loadUnlessAggregate nodeType addr
  | .plusplus | .minusminus => do
      let r ← genStep Γ op nodeType operand.lvalue
      return r.2
  | _ => do
      let v ← operand.expr
      let t ← newTemp
      let dst := irvTemp t (nodeType.getD typeInt)
      match op with
      | .minus => emit { op := .neg, dst := dst, src1 := v }; return dst
      | .tilde => emit { op := .not, dst := dst, src1 := v }; return dst
      | .bang => emit { op := .eq, dst := dst, src1 := v, src2 := irvInt 0 typeInt }; return dst
      | .plus => return v
      | _ => emit { op := .copy, dst := dst, src1 := v }; return dst

/-- The jumps of `&&` and `||`: to `trueLabel` if the value is 1, on into the next line
if it is 0. -/
def genShortCircuitTest (isAnd : Bool) (lv : IRValue) (right : Gen IRValue)
    (falseLabel trueLabel : ℕ) : Gen Unit :=
  if isAnd then do
    emitJz lv falseLabel
    let rv ← right
    emitJnz rv trueLabel
    emitJmp falseLabel
    emitLabel falseLabel
  else do
    emitJnz lv trueLabel
    let rv ← right
    emitJnz rv trueLabel

/-- `&&` and `||`. -/
def genShortCircuit (isAnd : Bool) (left right : Gen IRValue) : Gen IRValue := do
  let resultT ← newTemp
  let result := irvTemp resultT typeInt
  let endLabel ← newLabel
  let falseLabel ← newLabel
  let trueLabel ← newLabel
  let lv ← left
  genShortCircuitTest isAnd lv right falseLabel trueLabel
  emit { op := .copy, dst := result, src1 := irvInt 0 typeInt }
  emitJmp endLabel
  emitLabel trueLabel
  emit { op := .copy, dst := result, src1 := irvInt 1 typeInt }
  emitLabel endLabel
  return result

/-- The operand of pointer arithmetic, scaled by the size of what is pointed to. -/
def genScaled (v : IRValue) (size : ℤ) : Gen IRValue :=
  if size = 1 then return v
  else emitTo typeLong .mul v (irvInt (BitVec.ofInt 64 size) typeLong)

def isPointerType (ty : Option CType) : Bool := ty.any CType.isPointer

def genBinop (Γ : TypeEnv) (op : TokenKind) (nodeType lt rt : Option CType)
    (left right : Gen IRValue) : Gen IRValue :=
  if op = .and ∨ op = .or then genShortCircuit (op = .and) left right
  else do
    let lv ← left
    let rv ← right
    let t ← newTemp
    let ty := nodeType.getD typeInt
    let dst := irvTemp t ty
    if op = .plus && isPointerType lt && !isPointerType rt then
      let rv ← genScaled rv (pointerPointeeSize Γ lt)
      emit { op := .add, dst := dst, src1 := lv, src2 := rv }
      return dst
    else if op = .plus && isPointerType rt && !isPointerType lt then
      let lv ← genScaled lv (pointerPointeeSize Γ rt)
      emit { op := .add, dst := dst, src1 := rv, src2 := lv }
      return dst
    else if op = .minus && isPointerType lt && isPointerType rt then
      emit { op := .sub, dst := dst, src1 := lv, src2 := rv }
      let esz := pointerPointeeSize Γ lt
      if esz = 1 then return dst
      else emitTo ty .div dst (irvInt (BitVec.ofInt 64 esz) typeLong)
    else if op = .minus && isPointerType lt then
      let rv ← genScaled rv (pointerPointeeSize Γ lt)
      emit { op := .sub, dst := dst, src1 := lv, src2 := rv }
      return dst
    else
      emit { op := tokToIrBinop op, dst := dst, src1 := lv, src2 := rv }
      return dst

/-- The right operand of a compound assignment, scaled if it moves a pointer. -/
def genCompoundOperand (Γ : TypeEnv) (op : TokenKind) (ty : CType) (rv : IRValue) : Gen IRValue :=
  if ty.isPointer && (op = .plusAssign || op = .minusAssign) then
    genScaled rv (pointerPointeeSize Γ (some ty))
  else return rv

/-- `lhsTy` is the type of the left side, or the node's if it has none; `bf` its member. -/
def genAssign (Γ : TypeEnv) (op : TokenKind) (nodeType lhsTy : Option CType)
    (bf : Option StructField) (left right : NodeGen) : Gen IRValue := do
  let addr ← left.lvalue
  let bitField := bf.filter fun f => f.bitWidth > 0
  if op = .assign && isAggregateType lhsTy then
    let src ← right.aggAddr
    genMemcpy Γ addr src (lhsTy.getD typeInt)
    return addr
  else if op = .assign then
    let rval ← right.expr
    match bitField with
    | some f => genBitfieldStore addr f rval
    | none =>
        genStore addr rval
        return rval
  else
    let ty := nodeType.getD typeInt
    let lval ← genLoad addr ty
    let rv ← right.expr
    let t ← newTemp
    let dst := irvTemp t ty
    let rv ← genCompoundOperand Γ op ty rv
    emit { op := tokToIrBinop (compoundBase op), dst := dst, src1 := lval, src2 := rv }
    genStore addr dst
    return dst

def genTernary (nodeType : Option CType) (cond thenExpr elseExpr : Gen IRValue) :
    Gen IRValue := do
  let thenLabel ← newLabel
  let elseLabel ← newLabel
  let endLabel ← newLabel
  let resT ← newTemp
  let result := irvTemp resT (nodeType.getD typeInt)
  let c ← cond
  emitJz c elseLabel
  emitLabel thenLabel
  let tv ← thenExpr
  emit { op := .copy, dst := result, src1 := tv }
  emitJmp endLabel
  emitLabel elseLabel
  let ev ← elseExpr
  emit { op := .copy, dst := result, src1 := ev }
  emitLabel endLabel
  return result

/-- An argument whose node has type `ty`; an aggregate is its address under that type. -/
def genArg (ty : CType) (a : NodeGen) : Gen IRValue :=
  if isAggregateType (some ty) then do
    let addr ← a.aggAddr
    return { addr with type := some ty }
  else a.expr

def genArgs : List (CType × NodeGen) → Gen (List IRValue)
  | [] => return []
  | (ty, a) :: rest => do
      let v ← genArg ty a
      let vs ← genArgs rest
      return v :: vs

/-- Where a call's result goes: new storage for an aggregate, a new temp for the rest. -/
def genCallDst (Γ : TypeEnv) (retTy : CType) : Gen IRValue :=
  if isAggregateType (some retTy) then genAlloca Γ retTy
  else do
    let t ← newTemp
    return irvTemp t retTy

def genCall (Γ : TypeEnv) (nodeType : Option CType) (func : Gen IRValue)
    (args : List (CType × NodeGen)) : Gen IRValue := do
  let vs ← genArgs args
  let callee ← func
  let retTy := nodeType.getD typeInt
  let dst ← genCallDst Γ retTy
  emit (irCall Γ dst callee vs retTy)
  return dst

/-- The address of an element: the index is scaled by the size of the node's type. -/
def genSubscriptLvalue (Γ : TypeEnv) (nodeType : Option CType) (base index : Gen IRValue) :
    Gen IRValue := do
  let b ← base
  let idx ← index
  let t ← newTemp
  let ty := nodeType.getD typeInt
  let dst := irvTemp t (typePointer ty .none)
  let idx ← genScaled idx (elemSize Γ ty)
  emit { op := .add, dst := dst, src1 := b, src2 := idx }
  return dst

/-- The address of a member; a member that is not found leaves the base address. -/
def genMemberLvalue (Γ : TypeEnv) (aggTy : Option CType) (field : String) (base : Gen IRValue) :
    Gen IRValue := do
  let addr ← base
  match aggTy with
  | some t =>
      match findFieldWithOffset Γ t field with
      | some (f :: _, offset) => genAddrOffset addr offset f.type
      | _ => return addr
  | none => return addr

def genMemberExpr (nodeType : Option CType) (bf : Option StructField) (lvalue : Gen IRValue) :
    Gen IRValue := do
  let addr ← lvalue
  match bf.filter fun f => f.bitWidth > 0 with
  | some f => genBitfieldLoad addr f
  | none =>
      if nodeType.any CType.isArray then return addr
      else loadUnlessAggregate nodeType addr

/-- The conversion a cast between different types is lowered to. -/
def castOp (Γ : TypeEnv) (src dst : CType) : IROp :=
  if typeIsInteger src && typeIsInteger dst then
    if typeSizeof Γ dst > typeSizeof Γ src then if typeIsSigned src then .sext else .zext
    else if typeSizeof Γ dst < typeSizeof Γ src then .trunc
    else if typeSizeof Γ dst < 8 && typeIsSigned src != typeIsSigned dst then .trunc
    else .copy
  else if typeIsInteger src && typeIsArithmetic dst then .itof
  else if typeIsArithmetic src && typeIsInteger dst then .ftoi
  else .copy

/-- Types are compared as types: between two nodes of one type irgen.c emits a copy. -/
def genCast (Γ : TypeEnv) (srcTy : Option CType) (dstTy : CType) (expr : Gen IRValue) :
    Gen IRValue := do
  let src ← expr
  match srcTy with
  | none => return src
  | some ty => if ty = dstTy then return src else emitTo dstTy (castOp Γ ty dstTy) src

def sizeofValue (Γ : TypeEnv) : Option CType → IRValue
  | some ty => irvInt (BitVec.ofInt 64 (max (typeSizeof Γ ty) 0)) typeUlong
  | none => irvInt 0 typeUlong

def genCompoundLitLvalue (Γ : TypeEnv) (litType : CType) (init : NodeGen) : Gen IRValue := do
  let addr ← genAlloca Γ litType
  init.init addr litType
  return addr

def genCompoundLit (nodeType : Option CType) (lvalue : Gen IRValue) : Gen IRValue := do
  let addr ← lvalue
  let ty := nodeType.getD typeInt
  if isAggregateType (some ty) || ty.isArray then return addr else genLoad addr ty

mutual

/-- The generators of a node, from those of its children. -/
def genNode (Γ : TypeEnv) : Expr → NodeGen
  | .intLit i v _ | .charLit i v => .ofExpr Γ (return irvInt v (i.type.getD typeInt))
  | .floatLit i v _ => .ofExpr Γ (return irvFloat v (i.type.getD typeDouble))
  | .strLit i s => .ofExpr Γ do
      let label ← addStringConst s
      return irvGlobal label (i.type.getD (typePointer typeChar .none))
  | .ident i name => .ofLvalue Γ (genIdentLvalue name) (genIdent name i.type)
  | .unop i op e =>
      let expr := genUnop Γ op i.type (genNode Γ e)
      .ofLvalue Γ (if op = .star then (genNode Γ e).expr else expr) expr
  | .postop i op e => .ofExpr Γ do
      let r ← genStep Γ op i.type (genNode Γ e).lvalue
      return r.1
  | .binop i op l r =>
      .ofExpr Γ (genBinop Γ op i.type l.type r.type (genNode Γ l).expr (genNode Γ r).expr)
  | .assign i op l r =>
      .ofExpr Γ (genAssign Γ op i.type (l.type <|> i.type) (memberField Γ l) (genNode Γ l)
        (genNode Γ r))
  | .ternary i c t e =>
      .ofExpr Γ (genTernary i.type (genNode Γ c).expr (genNode Γ t).expr (genNode Γ e).expr)
  | .call i func args => .ofExpr Γ (genCall Γ i.type (genNode Γ func).expr (genNodes Γ args))
  | .subscript i b x =>
      let lvalue := genSubscriptLvalue Γ i.type (genNode Γ b).expr (genNode Γ x).expr
      .ofLvalue Γ lvalue (lvalue >>= loadUnlessAggregate i.type)
  | .member i b field =>
      let lvalue := genMemberLvalue Γ b.type field (genNode Γ b).lvalue
      .ofLvalue Γ lvalue (genMemberExpr i.type (findField Γ b.type field).head? lvalue)
  | .memberPtr i b field =>
      let pt := pointeeOrSelf b.type
      let lvalue := genMemberLvalue Γ pt field (genNode Γ b).expr
      .ofLvalue Γ lvalue (genMemberExpr i.type (findField Γ pt field).head? lvalue)
  | .cast _ ty e => .ofExpr Γ (genCast Γ e.type ty (genNode Γ e).expr)
  | .sizeofExpr _ e => .ofExpr Γ (return sizeofValue Γ e.type)
  | .sizeofType _ ty => .ofExpr Γ (return sizeofValue Γ (some ty))
  | .comma _ l r => .ofExpr Γ do
      let _ ← (genNode Γ l).expr
      (genNode Γ r).expr
  | .initList _ items =>
      let none : Gen IRValue := return irvInt 0 typeInt
      ⟨none, none, none, genListInit Γ (genItems Γ items)⟩
  | .fieldDesig _ _ _ | .indexDesig _ _ _ => .ofExpr Γ (return irvInt 0 typeInt)
  | .compoundLit i ty init =>
      let lvalue := genCompoundLitLvalue Γ ty (genNode Γ init)
      let expr := genCompoundLit i.type lvalue
      ⟨lvalue, expr, expr, fun addr ty =>
        if isAggregateType (some ty) then (genNode Γ init).init addr ty
        else do
          let v ← expr
          genStore addr v⟩

def genNodes (Γ : TypeEnv) : List Expr → List (CType × NodeGen)
  | [] => []
  | a :: rest => (a.typeOrInt, genNode Γ a) :: genNodes Γ rest

def genItems (Γ : TypeEnv) : List Expr → List ItemGen
  | [] => []
  | .fieldDesig _ field value :: rest =>
      ⟨.field field, value.isInitList, genNode Γ value⟩ :: genItems Γ rest
  | .indexDesig _ index value :: rest =>
      ⟨.index (constIntValue index), value.isInitList, genNode Γ value⟩ :: genItems Γ rest
  | it :: rest => ⟨.plain, it.isInitList, genNode Γ it⟩ :: genItems Γ rest

end

def genExpr (Γ : TypeEnv) (e : Expr) : Gen IRValue := (genNode Γ e).expr

def genLvalue (Γ : TypeEnv) (e : Expr) : Gen IRValue := (genNode Γ e).lvalue

def genAggregateExprAddr (Γ : TypeEnv) (e : Expr) : Gen IRValue := (genNode Γ e).aggAddr

def genInitializer (Γ : TypeEnv) (addr : IRValue) (ty : CType) : Option Expr → Gen Unit
  | some init => (genNode Γ init).init addr ty
  | none => return

end TinyC

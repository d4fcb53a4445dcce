import TinyC.StructLayout
import Mathlib.Logic.Function.Basic

/-!
# The type table

Types as the arena holds them: nodes that point to each other, and hash buckets that link the
nodes of derived types. The parser works on these; a node can be changed after others point to it.
-/

namespace TinyC

/-- Stands for the address of a `Type`. The static scalars come first, the others in the order of
their allocation; `NULL` is `none`. -/
abbrev TypeRef := ℕ

/-- A `StructField`; its list is the one that starts at `agg.fields`. -/
structure FieldNode where
  name : Option String
  type : Option TypeRef
  offset : ℤ := 0
  bitWidth : ℤ := -1
  bitOffset : ℤ := 0
  deriving DecidableEq, Repr

structure ParamNode where
  name : Option String
  type : Option TypeRef
  deriving DecidableEq, Repr

/-- The member `agg` of a struct or union node. -/
structure AggNode where
  tag : Option String
  fields : List FieldNode := []
  /-- `-1` while the type is incomplete. -/
  size : ℤ := -1
  align : ℤ := 1
  deriving DecidableEq, Repr

/-- The kind of a node with the member of the union that goes with it. -/
inductive TypeBody where
  | scalar (kind : ScalarKind)
  | pointer (pointee : Option TypeRef)
  | array (elem : Option TypeRef) (count : ℤ)
  | arrayUnsized (elem : Option TypeRef)
  | func (ret : Option TypeRef) (params : List ParamNode) (variadic : Bool)
  | agg (isUnion : Bool) (a : AggNode)
  | enum (e : EnumDef)
  deriving DecidableEq, Repr

structure TypeNode where
  body : TypeBody
  qual : TypeQual := .none
  deriving DecidableEq, Repr

namespace TypeBody

/-- The kinds that the table interns. -/
def isDerived : TypeBody → Bool
  | pointer _ | array _ _ | arrayUnsized _ | func _ _ _ => true
  | _ => false

/-- `TY_STRUCT` or `TY_UNION`. -/
def isAgg : TypeBody → Bool
  | agg _ _ => true
  | _ => false

/-- What `parse_declarator` makes of the type of a grouped declarator: a missing base becomes
`base`. -/
def fill (base : Option TypeRef) : TypeBody → TypeBody
  | pointer none => pointer base
  | func none ps v => func base ps v
  | array none n => array base n
  | arrayUnsized none => arrayUnsized base
  | b => b

/-- The assignments to `agg.fields`, `agg.size` and `agg.align`. -/
def complete (fields : List FieldNode) (size align : ℤ) : TypeBody → TypeBody
  | agg u a => agg u { a with fields := fields, size := size, align := align }
  | b => b

/-- The assignments to `enm.consts` and `enm.complete`. -/
def enumerate (consts : List (String × ℤ)) : TypeBody → TypeBody
  | enum e => enum { e with consts := consts, complete := true }
  | b => b

end TypeBody

/-- A change of the table that a function of the compiler asks for. -/
inductive TypeCall where
  | pointer (pointee : Option TypeRef) (qual : TypeQual)
  | array (elem : Option TypeRef) (count : ℤ)
  | arrayUnsized (elem : Option TypeRef)
  | func (ret : Option TypeRef) (params : List ParamNode) (variadic : Bool)
  | qualify (base : TypeRef) (added : TypeQual)
  | agg (isUnion : Bool) (tag : Option String)
  | enum (tag : Option String)
  /-- What is assigned to `r` once it has been made. -/
  | fill (r : TypeRef) (base : Option TypeRef)
  | complete (r : TypeRef) (fields : List FieldNode) (size align : ℤ)
  | enumerate (r : TypeRef) (consts : List (String × ℤ))
  deriving DecidableEq, Repr

structure TypeTable where
  /-- Where the arena has put the nodes. -/
  addr : TypeRef → BitVec 64
  nodes : List TypeNode
  /-- The chains through `next_interned`, each from its latest entry on. -/
  buckets : ℕ → List TypeRef := fun _ => []
  /-- A history variable, which nothing reads: the calls so far. -/
  calls : List TypeCall := []
  /-- Another one: the node that a node is a qualified version of, or the node itself. -/
  origin : TypeRef → TypeRef := id

/-- The static scalars, in the order of `TypeKind`. -/
def scalarKinds : List ScalarKind :=
  [.void, .bool, .char, .schar, .uchar, .short, .ushort, .int, .uint, .long, .ulong, .llong,
    .ullong, .float, .double, .ldouble]

/-- `type_int()` and the like. -/
def scalarRef (k : ScalarKind) : TypeRef := scalarKinds.idxOf k

/-- `type_table_init`. -/
def typeTableInit (addr : TypeRef → BitVec 64) : TypeTable where
  addr := addr
  nodes := scalarKinds.map fun k => { body := .scalar k }

def typeTableBuckets : ℕ := 256

/-- The slot of two words, `typeTableBuckets` being a power of two. -/
def ptrHash (a b : BitVec 64) : ℕ := (a ^^^ (a >>> 16) ^^^ b ^^^ (b >>> 8)).toNat % typeTableBuckets

def TypeQual.bits (q : TypeQual) : BitVec 64 :=
  (if q.isConst then 1 else 0) ||| (if q.isVolatile then 2 else 0) |||
    (if q.isRestrict then 4 else 0)

namespace TypeTable

variable (t : TypeTable)

/-- Dereferences a pointer. -/
def node? (r : Option TypeRef) : Option TypeNode := r.bind fun r => t.nodes[r]?

def word (r : Option TypeRef) : BitVec 64 := r.elim 0 t.addr

/-- The slot that the components of a node hash to. -/
def slotOf : TypeNode → ℕ
  | ⟨.pointer pointee, q⟩ => ptrHash (t.word pointee) q.bits
  | ⟨.array elem count, _⟩ => ptrHash (t.word elem) (BitVec.ofInt 64 count)
  | ⟨.arrayUnsized elem, _⟩ => ptrHash (t.word elem) 0xFFFF
  | ⟨.func ret params variadic, _⟩ =>
      ptrHash (t.word ret) (BitVec.ofNat 64 (params.length <<< 1 ||| variadic.toNat))
  | _ => 0

/-- `arena_alloc` of one `Type`. -/
def alloc (n : TypeNode) : TypeRef × TypeTable :=
  (t.nodes.length, { t with nodes := t.nodes ++ [n] })

/-- The first entry of a slot with this property. -/
def findInterned (slot : ℕ) (p : TypeNode → Bool) : Option TypeRef :=
  (t.buckets slot).find? fun r => (t.nodes[r]?).any p

/-- The shape of `type_pointer` and the others: the entry that is there, or a new one. -/
def intern (n : TypeNode) (same : TypeNode → Bool) : TypeRef × TypeTable :=
  match t.findInterned (t.slotOf n) same with
  | some r => (r, t)
  | none =>
      let (r, t) := t.alloc n
      (r, { t with buckets := Function.update t.buckets (t.slotOf n) (r :: t.buckets (t.slotOf n)) })

def typePointer (pointee : Option TypeRef) (qual : TypeQual) : TypeRef × TypeTable :=
  t.intern ⟨.pointer pointee, qual⟩ fun n => n.body = .pointer pointee ∧ n.qual = qual

def typeArray (elem : Option TypeRef) (count : ℤ) : TypeRef × TypeTable :=
  t.intern { body := .array elem count } fun n => n.body = .array elem count

def typeArrayUnsized (elem : Option TypeRef) : TypeRef × TypeTable :=
  t.intern { body := .arrayUnsized elem } fun n => n.body = .arrayUnsized elem

def typeFunc (ret : Option TypeRef) (params : List ParamNode) (variadic : Bool) :
    TypeRef × TypeTable :=
  t.intern { body := .func ret params variadic } fun n => n.body = .func ret params variadic

/-- `type_struct` and `type_union`. -/
def typeAgg (isUnion : Bool) (tag : Option String) : TypeRef × TypeTable :=
  t.alloc { body := .agg isUnion { tag := tag } }

def typeEnum (tag : Option String) : TypeRef × TypeTable :=
  t.alloc { body := .enum { tag := tag } }

def typeQualify (base : TypeRef) (added : TypeQual) : TypeRef × TypeTable :=
  match t.nodes[base]? with
  | none => (base, t)
  | some n =>
      let combined := n.qual.merge added
      if combined = n.qual then (base, t)
      else
        let (r, t) := t.alloc { n with qual := combined }
        (r, { t with origin := Function.update t.origin r (t.origin base) })

/-- Changes what a node holds; its qualifiers and its links stay. -/
def setBody (r : TypeRef) (f : TypeBody → TypeBody) : TypeTable :=
  { t with nodes := t.nodes.modify r fun n => { n with body := f n.body } }

/-- What a call does, and the node it gives. -/
def perform : TypeCall → TypeRef × TypeTable
  | .pointer pointee qual => t.typePointer pointee qual
  | .array elem count => t.typeArray elem count
  | .arrayUnsized elem => t.typeArrayUnsized elem
  | .func ret params variadic => t.typeFunc ret params variadic
  | .qualify base added => t.typeQualify base added
  | .agg isUnion tag => t.typeAgg isUnion tag
  | .enum tag => t.typeEnum tag
  | .fill r base => (r, t.setBody r (.fill base))
  | .complete r fields size align => (r, t.setBody r (.complete fields size align))
  | .enumerate r consts => (r, t.setBody r (.enumerate consts))

/-- A call, noted down. -/
def call (c : TypeCall) : TypeRef × TypeTable :=
  let (r, t') := t.perform c
  (r, { t' with calls := t.calls ++ [c] })

/-- The table after some calls. -/
def run (cs : List TypeCall) : TypeTable := cs.foldl (fun t c => (t.call c).2) t

end TypeTable

/-! ### Layout

The functions that read a layout follow the pointers between nodes. -/

/-- Why a run of the compiler has no result: it needs more steps than it was given, dereferences
`NULL`, goes round in a cycle of nodes, or divides so that the processor traps. -/
inductive Stuck where
  | fuel | null | cycle | trap
  deriving DecidableEq, Repr

namespace TypeTable

variable (t : TypeTable)

/-- `type_sizeof` along `n` nodes. -/
def sizeofAlong : ℕ → Option TypeRef → Except Stuck ℤ
  | 0, _ => throw .cycle
  | n + 1, r =>
      match t.node? r with
      | none => throw .null
      | some ⟨body, _⟩ =>
          match body with
          | .scalar k => return k.size
          | .pointer _ => return 8
          | .array elem count =>
              if count ≤ 0 then return -1
              else return toInt32 ((← sizeofAlong n elem) * toInt32 count)
          | .arrayUnsized _ | .func _ _ _ => return -1
          | .agg _ a => return a.size
          | .enum _ => return 4

/-- `type_alignof` along `n` nodes. -/
def alignofAlong : ℕ → Option TypeRef → Except Stuck ℤ
  | 0, _ => throw .cycle
  | n + 1, r =>
      match t.node? r with
      | none => throw .null
      | some ⟨body, _⟩ =>
          match body with
          | .scalar k => return k.align
          | .pointer _ => return 8
          | .array elem _ | .arrayUnsized elem => alignofAlong n elem
          | .func _ _ _ => return 1
          | .agg _ a => return if a.align > 0 then a.align else 1
          | .enum _ => return 4

/-- A walk that meets more nodes than there are meets one of them twice. -/
def sizeof (r : Option TypeRef) : Except Stuck ℤ := t.sizeofAlong (t.nodes.length + 1) r

def alignof (r : Option TypeRef) : Except Stuck ℤ := t.alignofAlong (t.nodes.length + 1) r

end TypeTable

/-- One turn of the loop of `type_seal_struct`, for a field of alignment `fa` and size `fs`: the
byte and bit offset the field gets, unless it has no width. -/
def sealSlot (st : SealState) (fa fs bitWidth : ℤ) : Option (ℤ × Option ℤ) × SealState :=
  let st := { st with maxAlign := if fa > st.maxAlign then fa else st.maxAlign }
  if bitWidth ≥ 0 then
    let unitBits := if fs > 0 then toInt32 (fs * 8) else 32
    if bitWidth = 0 then
      let offset := if st.bitNext > 0 then toInt32 (st.bitUnitOff + st.bitUnitSize) else st.offset
      (none, { st with offset := alignUp32 offset fa, bitNext := 0 })
    else
      let st :=
        if st.bitNext = 0 ∨ toInt32 (st.bitNext + bitWidth) > unitBits ∨
            fa ≠ st.bitUnitAlign ∨ fs ≠ st.bitUnitSize then
          let offset := alignUp32 st.offset fa
          { st with
            offset := toInt32 (offset + fs), bitUnitOff := offset, bitUnitSize := fs,
            bitUnitAlign := fa, bitNext := 0 }
        else st
      (some (st.bitUnitOff, some st.bitNext), { st with bitNext := toInt32 (st.bitNext + bitWidth) })
  else
    let offset := alignUp32 st.offset fa
    (some (offset, none), { st with bitNext := 0, offset := toInt32 (offset + fs) })

/-- It is the turn that `sealField` takes. -/
theorem sealField_eq_sealSlot (Γ : TypeEnv) (st : SealState) (f : StructField) :
    sealField Γ st f =
      let r := sealSlot st (typeAlignof Γ f.type) (typeSizeof Γ f.type) f.bitWidth
      (r.1.elim f fun o => { f with offset := o.1, bitOffset := o.2.getD f.bitOffset }, r.2) := by
  unfold sealField sealSlot
  dsimp only
  split
  · split <;> rfl
  · rfl

namespace TypeTable

variable (t : TypeTable)

/-- The loop of `type_seal_struct`. -/
def sealFields : SealState → List FieldNode → Except Stuck (List FieldNode × SealState)
  | st, [] => return ([], st)
  | st, f :: fs => do
      let fa ← t.alignof f.type
      let fsz ← t.sizeof f.type
      let (o, st) := sealSlot st fa fsz f.bitWidth
      let f := o.elim f fun o => { f with offset := o.1, bitOffset := o.2.getD f.bitOffset }
      let (fs, st) ← sealFields st fs
      return (f :: fs, st)

/-- What `type_seal_struct` assigns to a node with these fields. -/
def sealStruct (r : TypeRef) (fields : List FieldNode) : Except Stuck TypeCall := do
  let (fields, st) ← t.sealFields {} fields
  return .complete r fields (alignUp32 st.offset st.maxAlign) st.maxAlign

/-- The loop of `type_seal_union`, with its `max_size` and `max_align`. -/
def sealMembers : ℤ → ℤ → List FieldNode → Except Stuck (List FieldNode × ℤ × ℤ)
  | maxSize, maxAlign, [] => return ([], maxSize, maxAlign)
  | maxSize, maxAlign, f :: fs => do
      let fa ← t.alignof f.type
      let fsz ← t.sizeof f.type
      let f := { f with offset := 0, bitOffset := if f.bitWidth ≥ 0 then 0 else f.bitOffset }
      let (fs, m) ← sealMembers (if fsz > maxSize then fsz else maxSize)
        (if fa > maxAlign then fa else maxAlign) fs
      return (f :: fs, m)

def sealUnion (r : TypeRef) (fields : List FieldNode) : Except Stuck TypeCall := do
  let (fields, maxSize, maxAlign) ← t.sealMembers 0 1 fields
  return .complete r fields (alignUp32 maxSize maxAlign) maxAlign

end TypeTable

end TinyC

import TinyC.Types

/-!
# Classification of argument and return types

The eightbyte classes of the System V AMD64 calling convention, for aggregates of at
most two eightbytes.
-/

namespace TinyC

inductive ABIClass where
  | none | memory | integer | sse | sseup | x87 | x87up
  deriving DecidableEq, Repr

def maxEightbytes : ℤ := 2

/-- `n_eightbytes` is the length of the list. -/
structure ABIClassification where
  classes : List ABIClass
  deriving DecidableEq, Repr

def mergeClass (a b : ABIClass) : ABIClass :=
  if a = b then a
  else if a = .none then b
  else if b = .none then a
  else if a = .memory ∨ b = .memory then .memory
  else if a = .integer ∨ b = .integer then .integer
  else if a = .x87 ∨ b = .x87 ∨ a = .x87up ∨ b = .x87up then .memory
  else .sse

/-- `classes[eb] = merge_class(classes[eb], c)`. -/
def mergeAt (classes : List ABIClass) (eb : ℕ) (c : ABIClass) : List ABIClass :=
  classes.modify eb (mergeClass · c)

def allMemory (classes : List ABIClass) : List ABIClass := classes.map fun _ => .memory

/-- An eightbyte that sends the whole aggregate to memory after its members have been
merged: a `MEMORY` one, or an `X87UP` one that does not follow an `X87` one. -/
def needsMemory (classes : List ABIClass) : Bool :=
  (List.range classes.length).any fun i =>
    classes[i]? == some .memory ||
      (classes[i]? == some .x87up && (i == 0 || classes[i - 1]? != some .x87))

/-- Merges the classes of the bytes `[offset, offset + size)` into the eightbytes. -/
@[semireducible] def classifyRange (Γ : TypeEnv) (ty : CType) (offset : ℤ)
    (classes : List ABIClass) : List ABIClass :=
  let eb := (offset / 8).toNat
  if classes.length ≤ eb then classes else
  match ty with
  | .scalar .void _ => classes
  | .scalar .float _ | .scalar .double _ => mergeAt classes eb .sse
  | .scalar .ldouble _ =>
      -- the second merge is out of range when there is one eightbyte only
      mergeAt (mergeAt classes eb .x87) (eb + 1) .x87up
  | .scalar _ _ | .enum _ _ => mergeAt classes eb .integer
  | .pointer _ _ => mergeAt classes eb .integer
  | .array elem count _ =>
      (List.range count.toNat).foldl
        (fun cs (i : ℕ) => classifyRange Γ elem (offset + i * typeSizeof Γ elem) cs) classes
  | .agg _ id _ =>
      if ((Γ.agg id).size + 7) / 8 > maxEightbytes then allMemory classes
      else if (Γ.agg id).fields.any fun f => f.offset % typeAlignof Γ f.type != 0 then
        allMemory classes
      else
        let merged := (Γ.agg id).fields.attach.foldl
          (fun cs f => classifyRange Γ f.1.type (offset + f.1.offset) cs) classes
        if needsMemory merged then allMemory merged else merged
  | .func _ _ _ _ => mergeAt classes eb .integer
  | .arrayUnsized _ _ => allMemory classes
termination_by ty.depth Γ.rank
decreasing_by
  · simp [CType.depth]
  · exact Γ.contained id f.1 f.2

def abiClassify (Γ : TypeEnv) (ty : CType) : ABIClassification :=
  let total := typeSizeof Γ ty
  if total ≤ 0 then ⟨[]⟩
  else if (total + 7) / 8 > maxEightbytes then ⟨[.memory]⟩
  else ⟨classifyRange Γ ty 0 (List.replicate ((total + 7) / 8).toNat .none)⟩

def abiInMemory (c : ABIClassification) : Bool := c.classes.any (· == .memory)

/-- How many integer and SSE registers the eightbytes take. -/
def ABIClassification.needs (c : ABIClassification) : ℕ × ℕ :=
  (c.classes.count .integer, c.classes.count .sse)

end TinyC

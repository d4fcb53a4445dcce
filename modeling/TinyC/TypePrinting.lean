import TinyC.StringPool
import TinyC.Types
import TinyC.Lib.BoundedBuffer

/-!
# Printing types

`type_print` appends the pieces of a type's spelling one after the other. The first that does not
fit moves the position to the last byte of the buffer, and what is before it stays as it was.
-/

namespace TinyC

open BoundedBuffer

/-- The characters that `strlen` and `memcpy` see. -/
def cText (s : String) : List Byte := cBytes (stringBytes s)

/-- The spellings of `type_print_inner`. -/
def ScalarKind.spelling : ScalarKind → String
  | .void => "void"
  | .bool => "_Bool"
  | .char => "char"
  | .schar => "signed char"
  | .uchar => "unsigned char"
  | .short => "short"
  | .ushort => "unsigned short"
  | .int => "int"
  | .uint => "unsigned int"
  | .long => "long"
  | .ulong => "unsigned long"
  | .llong => "long long"
  | .ullong => "unsigned long long"
  | .float => "float"
  | .double => "double"
  | .ldouble => "long double"

/-- `APPEND`. -/
def appendText (bufsz : ℕ) (b : Buffer Byte) (s : String) : Buffer Byte := append bufsz b (cText s)

/-- `APPENDF("[%lld]", …)`: `snprintf` keeps 63 characters. -/
def appendCount (bufsz : ℕ) (b : Buffer Byte) (count : ℤ) : Buffer Byte :=
  append bufsz b ((cText ("[" ++ toString count ++ "]")).take 63)

def printQual (bufsz : ℕ) (b : Buffer Byte) (q : TypeQual) : Buffer Byte :=
  let b := if q.isConst then appendText bufsz b "const " else b
  let b := if q.isVolatile then appendText bufsz b "volatile " else b
  if q.isRestrict then appendText bufsz b "restrict " else b

mutual

def typePrintInner (Γ : TypeEnv) (bufsz : ℕ) (b : Buffer Byte) : CType → Buffer Byte
  | .scalar k q => appendText bufsz (printQual bufsz b q) k.spelling
  | .pointer pointee q =>
      appendText bufsz (typePrintInner Γ bufsz (printQual bufsz b q) pointee) "*"
  | .array elem count q =>
      appendCount bufsz (typePrintInner Γ bufsz (printQual bufsz b q) elem) count
  | .arrayUnsized elem q =>
      appendText bufsz (typePrintInner Γ bufsz (printQual bufsz b q) elem) "[]"
  | .func ret params variadic q =>
      let b := appendText bufsz (typePrintInner Γ bufsz (printQual bufsz b q) ret) "("
      appendText bufsz (printParams Γ bufsz b true variadic params) ")"
  | .agg isUnion id q =>
      let b := appendText bufsz (printQual bufsz b q) (if isUnion then "union " else "struct ")
      appendText bufsz b ((Γ.agg id).tag.getD "<anon>")
  | .enum id q =>
      let b := appendText bufsz (printQual bufsz b q) "enum "
      appendText bufsz b ((Γ.enm id).tag.getD "<anon>")

/-- The loop over the parameters and the `...` after it. -/
def printParams (Γ : TypeEnv) (bufsz : ℕ) (b : Buffer Byte) (first variadic : Bool) :
    FuncParams → Buffer Byte
  | .nil =>
      if variadic then
        appendText bufsz (if first then b else appendText bufsz b ", ") "..."
      else b
  | .cons name type next =>
      let b := if first then b else appendText bufsz b ", "
      let b := typePrintInner Γ bufsz b type
      let b := match name with
        | some name => appendText bufsz (appendText bufsz b " ") name
        | none => b
      printParams Γ bufsz b false variadic next

end

/-- The memory from `buf` on, for a `bufsz` other than 0. -/
def typePrint (Γ : TypeEnv) (ty : CType) (bufsz : ℕ) (buf : ℕ → Byte) : ℕ → Byte :=
  let b := typePrintInner Γ bufsz ⟨buf, 0⟩ ty
  Function.update b.bytes (if b.pos < bufsz then b.pos else bufsz - 1) 0

/-! ### The pieces -/

def qualPieces (q : TypeQual) : List (List Byte) :=
  (if q.isConst then [cText "const "] else []) ++
    (if q.isVolatile then [cText "volatile "] else []) ++
      (if q.isRestrict then [cText "restrict "] else [])

mutual

def typePieces (Γ : TypeEnv) : CType → List (List Byte)
  | .scalar k q => qualPieces q ++ [cText k.spelling]
  | .pointer pointee q => qualPieces q ++ typePieces Γ pointee ++ [cText "*"]
  | .array elem count q =>
      qualPieces q ++ typePieces Γ elem ++ [(cText ("[" ++ toString count ++ "]")).take 63]
  | .arrayUnsized elem q => qualPieces q ++ typePieces Γ elem ++ [cText "[]"]
  | .func ret params variadic q =>
      qualPieces q ++ typePieces Γ ret ++ [cText "("] ++ paramPieces Γ true variadic params ++
        [cText ")"]
  | .agg isUnion id q =>
      qualPieces q ++ [cText (if isUnion then "union " else "struct ")] ++
        [cText ((Γ.agg id).tag.getD "<anon>")]
  | .enum id q => qualPieces q ++ [cText "enum "] ++ [cText ((Γ.enm id).tag.getD "<anon>")]

def paramPieces (Γ : TypeEnv) (first variadic : Bool) : FuncParams → List (List Byte)
  | .nil =>
      if variadic then (if first then [] else [cText ", "]) ++ [cText "..."] else []
  | .cons name type next =>
      (if first then [] else [cText ", "]) ++ typePieces Γ type ++
        (match name with
          | some name => [cText " ", cText name]
          | none => []) ++
          paramPieces Γ false variadic next

end

/-- The spelling of a type. -/
def rendering (Γ : TypeEnv) (ty : CType) : List Byte := (typePieces Γ ty).flatten

variable {Γ : TypeEnv} {bufsz : ℕ}

theorem printQual_eq (b : Buffer Byte) (q : TypeQual) :
    printQual bufsz b q = (qualPieces q).foldl (append bufsz) b := by
  obtain ⟨c, v, r⟩ := q
  cases c <;> cases v <;> cases r <;> rfl

mutual

theorem typePrintInner_eq (b : Buffer Byte) (ty : CType) :
    typePrintInner Γ bufsz b ty = (typePieces Γ ty).foldl (append bufsz) b := by
  cases ty with
  | scalar k q =>
    rw [typePrintInner, typePieces, List.foldl_append, ← printQual_eq]
    rfl
  | pointer pointee q =>
    rw [typePrintInner, typePieces, List.foldl_append, List.foldl_append, ← printQual_eq,
      ← typePrintInner_eq _ pointee]
    rfl
  | array elem count q =>
    rw [typePrintInner, typePieces, List.foldl_append, List.foldl_append, ← printQual_eq,
      ← typePrintInner_eq _ elem]
    rfl
  | arrayUnsized elem q =>
    rw [typePrintInner, typePieces, List.foldl_append, List.foldl_append, ← printQual_eq,
      ← typePrintInner_eq _ elem]
    rfl
  | func ret params variadic q =>
    simp only [typePrintInner, typePieces, List.foldl_append]
    rw [← printQual_eq, ← typePrintInner_eq _ ret, ← printParams_eq _ _ _ params]
    rfl
  | agg isUnion id q =>
    rw [typePrintInner, typePieces, List.foldl_append, List.foldl_append, ← printQual_eq]
    rfl
  | «enum» id q =>
    rw [typePrintInner, typePieces, List.foldl_append, List.foldl_append, ← printQual_eq]
    rfl

theorem printParams_eq (b : Buffer Byte) (first variadic : Bool) (params : FuncParams) :
    printParams Γ bufsz b first variadic params =
      (paramPieces Γ first variadic params).foldl (append bufsz) b := by
  cases params with
  | nil => cases first <;> cases variadic <;> rfl
  | cons name type next =>
    cases name with
    | none =>
      simp only [printParams, paramPieces, List.foldl_append]
      rw [← printParams_eq _ _ _ next, ← typePrintInner_eq _ type]
      cases first <;> rfl
    | some name =>
      simp only [printParams, paramPieces, List.foldl_append]
      rw [← printParams_eq _ _ _ next, ← typePrintInner_eq _ type]
      cases first <;> rfl

end

theorem cText_ne_zero (s : String) : ∀ c ∈ cText s, c ≠ 0 := by
  intro c hc
  have h := List.mem_takeWhile_imp hc
  exact of_decide_eq_true h

/-- No piece has a NUL in it. -/
def NulFree (pieces : List (List Byte)) : Prop := ∀ s ∈ pieces, ∀ c ∈ s, c ≠ 0

@[simp]
theorem nulFree_append {ss ss' : List (List Byte)} :
    NulFree (ss ++ ss') ↔ NulFree ss ∧ NulFree ss' := List.forall_mem_append

@[simp]
theorem nulFree_nil : NulFree [] := fun _ h => absurd h List.not_mem_nil

theorem nulFree_cText (s : String) : NulFree [cText s] := fun _ h =>
  List.mem_singleton.mp h ▸ cText_ne_zero s

theorem nulFree_qualPieces (q : TypeQual) : NulFree (qualPieces q) := by
  obtain ⟨c, v, r⟩ := q
  simp only [qualPieces, nulFree_append]
  refine ⟨⟨?_, ?_⟩, ?_⟩
  all_goals
    split
    · exact nulFree_cText _
    · exact nulFree_nil

theorem nulFree_separator (first : Bool) :
    NulFree (if first then [] else [cText ", "]) := by
  cases first with
  | true => exact nulFree_nil
  | false => exact nulFree_cText _

mutual

theorem nulFree_typePieces (ty : CType) : NulFree (typePieces Γ ty) := by
  cases ty with
  | scalar k q => exact nulFree_append.mpr ⟨nulFree_qualPieces q, nulFree_cText _⟩
  | pointer pointee q =>
    simp only [typePieces, nulFree_append]
    exact ⟨⟨nulFree_qualPieces q, nulFree_typePieces pointee⟩, nulFree_cText _⟩
  | array elem count q =>
    simp only [typePieces, nulFree_append]
    refine ⟨⟨nulFree_qualPieces q, nulFree_typePieces elem⟩, ?_⟩
    intro s hs c hc
    rw [List.mem_singleton.mp hs] at hc
    exact cText_ne_zero _ c (List.mem_of_mem_take hc)
  | arrayUnsized elem q =>
    simp only [typePieces, nulFree_append]
    exact ⟨⟨nulFree_qualPieces q, nulFree_typePieces elem⟩, nulFree_cText _⟩
  | func ret params variadic q =>
    simp only [typePieces, nulFree_append]
    exact ⟨⟨⟨⟨nulFree_qualPieces q, nulFree_typePieces ret⟩, nulFree_cText _⟩,
      nulFree_paramPieces true variadic params⟩, nulFree_cText _⟩
  | agg isUnion id q =>
    simp only [typePieces, nulFree_append]
    exact ⟨⟨nulFree_qualPieces q, nulFree_cText _⟩, nulFree_cText _⟩
  | «enum» id q =>
    simp only [typePieces, nulFree_append]
    exact ⟨⟨nulFree_qualPieces q, nulFree_cText _⟩, nulFree_cText _⟩

theorem nulFree_paramPieces (first variadic : Bool) (params : FuncParams) :
    NulFree (paramPieces Γ first variadic params) := by
  cases params with
  | nil =>
    rw [paramPieces]
    split
    · exact nulFree_append.mpr ⟨nulFree_separator first, nulFree_cText _⟩
    · exact nulFree_nil
  | cons name type next =>
    simp only [paramPieces, nulFree_append]
    refine ⟨⟨⟨nulFree_separator first, nulFree_typePieces type⟩, ?_⟩,
      nulFree_paramPieces false variadic next⟩
    cases name with
    | none => exact nulFree_nil
    | some name => exact nulFree_append.mpr ⟨nulFree_cText _, nulFree_cText name⟩

end

theorem rendering_ne_zero (ty : CType) : ∀ c ∈ rendering Γ ty, c ≠ 0 := by
  intro c hc
  obtain ⟨s, hs, hcs⟩ := List.mem_flatten.mp hc
  exact nulFree_typePieces ty s hs c hcs

/-! ### What the buffer holds -/

/-- Where the pieces end that the buffer holds as a whole. -/
def wholePieces (Γ : TypeEnv) (ty : CType) (bufsz : ℕ) : ℕ := wholeLength bufsz 0 (typePieces Γ ty)

/-- The string is this one in every buffer that is large enough. -/
def Renders (Γ : TypeEnv) (ty : CType) (R : List Byte) : Prop :=
  ∃ n, ∀ bufsz ≥ n, ∀ buf, text bufsz (typePrint Γ ty bufsz buf) = R

/-- Only the buffer is written, it holds a string, and the string is what of `R` fits. -/
structure PrintsClean (R : List Byte) (bufsz : ℕ) (buf buf' : ℕ → Byte) : Prop where
  outside : ∀ i, bufsz ≤ i → buf' i = buf i
  terminated : ∃ i < bufsz, buf' i = 0
  truncated : text bufsz buf' = R.take (bufsz - 1)

/-- What `type_print` leaves in memory. -/
theorem typePrint_byte (ty : CType) (hsize : 1 ≤ bufsz) (buf : ℕ → Byte) (i : ℕ) :
    typePrint Γ ty bufsz buf i =
      if i = min (rendering Γ ty).length (bufsz - 1) then 0
      else if i < wholePieces Γ ty bufsz then (rendering Γ ty).getD i 0
      else buf i := by
  have hpos : ((typePieces Γ ty).foldl (append bufsz) ⟨buf, 0⟩).pos = _ := foldl_append_pos hsize
  have hbytes : ((typePieces Γ ty).foldl (append bufsz) ⟨buf, 0⟩).bytes i = _ :=
    foldl_append_bytes hsize
  simp only [Nat.zero_add, Nat.zero_le, true_and, Nat.sub_zero] at hpos hbytes
  have hend : (if (typePrintInner Γ bufsz ⟨buf, 0⟩ ty).pos < bufsz then
      (typePrintInner Γ bufsz ⟨buf, 0⟩ ty).pos else bufsz - 1) =
      min (rendering Γ ty).length (bufsz - 1) := by
    rw [typePrintInner_eq, hpos, rendering]
    by_cases hfit : (typePieces Γ ty).flatten.length < bufsz
    · rw [if_pos hfit, if_pos hfit]
      omega
    · rw [if_neg hfit, if_pos (by omega)]
      omega
  rw [typePrint, hend, Function.update_apply, typePrintInner_eq, hbytes]
  rfl

theorem typePrint_outside (ty : CType) (hsize : 1 ≤ bufsz) (buf : ℕ → Byte) {i : ℕ}
    (hi : bufsz ≤ i) : typePrint Γ ty bufsz buf i = buf i := by
  have hlt : wholePieces Γ ty bufsz < bufsz := wholeLength_lt hsize
  rw [typePrint_byte ty hsize, if_neg (by omega), if_neg (by omega)]

theorem typePrint_terminated (ty : CType) (hsize : 1 ≤ bufsz) (buf : ℕ → Byte) :
    ∃ i < bufsz, typePrint Γ ty bufsz buf i = 0 :=
  ⟨min (rendering Γ ty).length (bufsz - 1), by omega, by rw [typePrint_byte ty hsize, if_pos rfl]⟩

/-- A buffer that is too small holds what fits if the bytes that were skipped happen to be right. -/
theorem typePrint_text_iff (ty : CType) (hsize : 1 ≤ bufsz) (buf : ℕ → Byte) :
    text bufsz (typePrint Γ ty bufsz buf) = (rendering Γ ty).take (bufsz - 1) ↔
      ∀ i < min (rendering Γ ty).length (bufsz - 1), wholePieces Γ ty bufsz ≤ i →
        buf i = (rendering Γ ty).getD i 0 := by
  have hlen : ((rendering Γ ty).take (bufsz - 1)).length =
      min (rendering Γ ty).length (bufsz - 1) := by
    rw [List.length_take, Nat.min_comm]
  have hnonzero : ∀ c ∈ (rendering Γ ty).take (bufsz - 1), c ≠ 0 := fun c hc =>
    rendering_ne_zero ty c (List.mem_of_mem_take hc)
  rw [text_eq_iff hnonzero (by omega) (by rw [hlen, typePrint_byte ty hsize, if_pos rfl]), hlen]
  apply forall₂_congr
  intro i hi
  have htake : ((rendering Γ ty).take (bufsz - 1)).getD i 0 = (rendering Γ ty).getD i 0 := by
    rw [List.getD_eq_getElem?_getD, List.getD_eq_getElem?_getD, List.getElem?_take,
      if_pos (by omega)]
  rw [typePrint_byte ty hsize, if_neg (by omega), htake]
  by_cases hwhole : i < wholePieces Γ ty bufsz
  · rw [if_pos hwhole]
    exact iff_of_true rfl fun h => absurd hwhole (by omega)
  · rw [if_neg hwhole]
    exact ⟨fun h _ => h, fun h => h (by omega)⟩

theorem typePrint_fits (ty : CType) (h : (rendering Γ ty).length < bufsz) (buf : ℕ → Byte) :
    text bufsz (typePrint Γ ty bufsz buf) = rendering Γ ty := by
  have hwhole : wholePieces Γ ty bufsz = (rendering Γ ty).length := by
    rw [wholePieces, wholeLength_eq (by rw [Nat.zero_add]; exact h), Nat.zero_add]
    rfl
  have htake : (rendering Γ ty).take (bufsz - 1) = rendering Γ ty :=
    List.take_of_length_le (by omega)
  have htext : text bufsz (typePrint Γ ty bufsz buf) = (rendering Γ ty).take (bufsz - 1) ↔ _ :=
    typePrint_text_iff ty (by omega) buf
  rw [htake] at htext
  apply htext.mpr
  intro i hi hle
  omega

theorem typePrint_renders (ty : CType) : Renders Γ ty (rendering Γ ty) :=
  ⟨(rendering Γ ty).length + 1, fun _ h buf => typePrint_fits ty h buf⟩

/-- A type is printed as it should be if its spelling fits, or the bytes of the buffer from the
first piece on that does not fit are the ones of the spelling already. -/
theorem typePrint_clean_iff (Γ : TypeEnv) (ty : CType) (bufsz : ℕ) (hsize : 1 ≤ bufsz)
    (buf : ℕ → Byte) : Renders Γ ty (rendering Γ ty) ∧
      (PrintsClean (rendering Γ ty) bufsz buf (typePrint Γ ty bufsz buf) ↔
        (rendering Γ ty).length < bufsz ∨
          ∀ i, wholePieces Γ ty bufsz ≤ i → i < bufsz - 1 → buf i = (rendering Γ ty).getD i 0) := by
  refine ⟨typePrint_renders ty, ?_⟩
  constructor
  · intro h
    by_cases hfit : (rendering Γ ty).length < bufsz
    · exact .inl hfit
    · refine .inr fun i hle hi => ?_
      exact (typePrint_text_iff ty hsize buf).mp h.truncated i (by omega) hle
  · intro h
    refine ⟨fun i => typePrint_outside ty hsize buf, typePrint_terminated ty hsize buf, ?_⟩
    rcases h with hfit | hrest
    · rw [typePrint_fits ty hfit buf, List.take_of_length_le (by omega)]
    · apply (typePrint_text_iff ty hsize buf).mpr
      intro i hi hle
      exact hrest i hle (by omega)

theorem typePrint_clean_pointer :
    PrintsClean (rendering .empty (.pointer typeInt .none)) 5 (fun _ => 65)
      (typePrint .empty (.pointer typeInt .none) 5 fun _ => 65) :=
  (typePrint_clean_iff .empty (.pointer typeInt .none) 5 (by decide) fun _ => 65).2.mpr
    (.inl (by decide +kernel))

/-- Nothing of `int` gets into a buffer of three bytes. -/
theorem short_buffer_stale : ∃ R, Renders .empty typeInt R ∧
    ¬PrintsClean R 3 (fun _ => 65) (typePrint .empty typeInt 3 fun _ => 65) := by
  refine ⟨_, typePrint_renders typeInt, fun h => ?_⟩
  have hstale : text 3 (typePrint .empty typeInt 3 fun _ => 65) ≠
      (rendering .empty typeInt).take 2 := by decide +kernel
  exact hstale h.truncated

end TinyC

import TinyC.StringLiterals
import TinyC.GenFrame
import Mathlib.Data.List.TakeWhile

/-!
# The strings of `.rodata`

`ir_add_string_const` gives equal C strings one label, `emit_asciz` spells a C string for the
assembler, and the assembler reads it back. A literal reaches the object file if the C string
that the parser takes for it is the literal.
-/

namespace TinyC

open Lexer

/-! ### C strings -/

/-- The string that `str_lit.str` shows of an interned text. -/
def cString (buf : List Byte) : String :=
  String.ofList ((cBytes buf).map fun b => Char.ofNat b.toNat)

/-- The bytes of a C string. -/
def stringBytes (data : String) : List Byte := data.toList.map ch

theorem ch_ofNat (b : Byte) : ch (Char.ofNat b.toNat) = b := (byte_of_char rfl).symm

theorem stringBytes_cString (buf : List Byte) : stringBytes (cString buf) = cBytes buf := by
  rw [stringBytes, cString, String.toList_ofList, List.map_map]
  exact (List.map_congr_left fun b _ => ch_ofNat b).trans (List.map_id _)

theorem zero_notMem_cBytes (buf : List Byte) : ∀ b ∈ cBytes buf, b ≠ 0 := by
  intro b hb
  simpa using List.mem_takeWhile_imp hb

/-! ### The assembler -/

/-- The three digits of `\\%03o`. -/
def octalDigits (c : Byte) : List Byte :=
  [BitVec.ofNat 8 (48 + c.toNat / 64), BitVec.ofNat 8 (48 + c.toNat / 8 % 8),
    BitVec.ofNat 8 (48 + c.toNat % 8)]

/-- The `switch` of `emit_asciz`. -/
def ascizChar (c : Byte) : List Byte :=
  if c = ch '\n' then [ch '\\', ch 'n']
  else if c = ch '\r' then [ch '\\', ch 'r']
  else if c = ch '\t' then [ch '\\', ch 't']
  else if c = ch '\\' then [ch '\\', ch '\\']
  else if c = ch '"' then [ch '\\', ch '"']
  else if c.toNat < 32 ∨ c.toNat > 126 then ch '\\' :: octalDigits c
  else [c]

/-- `emit_asciz`; the loop stops at a NUL. -/
def emitAsciz (data : String) : List Byte :=
  ch '"' :: ((cBytes (stringBytes data)).flatMap ascizChar ++ [ch '"'])

/-- The escapes of one letter that the assembler knows. -/
def asmEscape (c : Byte) : Option Byte :=
  if c = ch 'b' then some 8
  else if c = ch 'f' then some 12
  else if c = ch 'n' then some 10
  else if c = ch 'r' then some 13
  else if c = ch 't' then some 9
  else if c = ch '\\' ∨ c = ch '"' then some c
  else none

/-- At most `n` more octal digits. -/
def asmOctal : ℕ → ℕ → List Byte → ℕ × List Byte
  | n + 1, v, c :: s => if isOctal c then asmOctal n (v * 8 + (c.toNat - 48)) s else (v, c :: s)
  | _, v, s => (v, s)

theorem length_asmOctal_le (n v : ℕ) (s : List Byte) : (asmOctal n v s).2.length ≤ s.length := by
  fun_induction asmOctal n v s with
  | case1 n v c s h ih => exact ih.trans (Nat.le_succ _)
  | case2 n v c s h => exact le_rfl
  | case3 n v s => exact le_rfl

/-- A string operand after its opening quote. -/
def asmString : List Byte → Option (List Byte)
  | [] => none
  | c :: s =>
    if c = ch '"' then if s = [] then some [] else none
    else if c = ch '\\' then
      match s with
      | [] => none
      | e :: s =>
        if isOctal e then
          let r := asmOctal 2 (e.toNat - 48) s
          (asmString r.2).map (BitVec.ofNat 8 r.1 :: ·)
        else (asmEscape e).bind fun b => (asmString s).map (b :: ·)
    else (asmString s).map (c :: ·)
termination_by s => s.length
decreasing_by
  · exact (length_asmOctal_le _ _ _).trans_lt (by simp only [List.length_cons]; omega)
  · simp only [List.length_cons]; omega
  · simp

/-- What `.asciz` puts into the section. -/
def asciz (operand : List Byte) : Option (List Byte) :=
  match operand with
  | [] => none
  | c :: s => if c = ch '"' then (asmString s).map (· ++ [0]) else none

section Assembler

variable {c e : Byte} {s : List Byte}

theorem asmString_plain (hquote : c ≠ ch '"') (hslash : c ≠ ch '\\') :
    asmString (c :: s) = (asmString s).map (c :: ·) := by
  rw [asmString.eq_def]
  dsimp only
  rw [if_neg hquote, if_neg hslash]

theorem asmString_escape {b : Byte} (hoct : isOctal e = false) (he : asmEscape e = some b) :
    asmString (ch '\\' :: e :: s) = (asmString s).map (b :: ·) := by
  rw [asmString, if_neg (by decide), if_pos rfl]
  dsimp only
  rw [if_neg (by simp [hoct]), he, Option.bind_some]

theorem asmString_octal (c : Byte) :
    asmString (ch '\\' :: (octalDigits c ++ s)) = (asmString s).map (c :: ·) := by
  have hlt := c.isLt
  have hdigit : ∀ n < 8, isOctal (BitVec.ofNat 8 (48 + n)) = true ∧
      (BitVec.ofNat 8 (48 + n)).toNat - 48 = n := by decide
  obtain ⟨ho₁, hn₁⟩ := hdigit (c.toNat / 64) (by omega)
  obtain ⟨ho₂, hn₂⟩ := hdigit (c.toNat / 8 % 8) (by omega)
  obtain ⟨ho₃, hn₃⟩ := hdigit (c.toNat % 8) (by omega)
  rw [octalDigits, List.cons_append, List.cons_append, List.cons_append, List.nil_append,
    asmString, if_neg (by decide), if_pos rfl]
  dsimp only
  rw [if_pos ho₁, asmOctal, if_pos ho₂, asmOctal, if_pos ho₃, hn₁, hn₂, hn₃]
  simp only [asmOctal]
  have hvalue : (c.toNat / 64 * 8 + c.toNat / 8 % 8) * 8 + c.toNat % 8 = c.toNat := by omega
  rw [hvalue, BitVec.ofNat_toNat, BitVec.setWidth_eq]

/-- The assembler undoes the escape of a byte. -/
theorem asmString_ascizChar (c : Byte) (s : List Byte) :
    asmString (ascizChar c ++ s) = (asmString s).map (c :: ·) := by
  unfold ascizChar
  split
  case isTrue h => rw [h]; exact asmString_escape (by decide) (by decide)
  split
  case isTrue h => rw [h]; exact asmString_escape (by decide) (by decide)
  split
  case isTrue h => rw [h]; exact asmString_escape (by decide) (by decide)
  split
  case isTrue h => rw [h]; exact asmString_escape (by decide) (by decide)
  split
  case isTrue h => rw [h]; exact asmString_escape (by decide) (by decide)
  split
  · exact asmString_octal c
  · rename_i hslash hquote _
    exact asmString_plain hquote hslash

theorem asmString_flatMap (bytes : List Byte) :
    asmString (bytes.flatMap ascizChar ++ [ch '"']) = some bytes := by
  induction bytes with
  | nil =>
    rw [List.flatMap_nil, List.nil_append, asmString]
    rfl
  | cons c bytes ih =>
    rw [List.flatMap_cons, List.append_assoc, asmString_ascizChar, ih, Option.map_some]

theorem asciz_emitAsciz (data : String) :
    asciz (emitAsciz data) = some (cBytes (stringBytes data) ++ [0]) := by
  rw [emitAsciz, asciz, if_pos rfl, asmString_flatMap, Option.map_some]

end Assembler

/-! ### The pool -/

/-- The entries of `.rodata` as `codegen` writes them: a label and the operand of `.asciz`. -/
def emitRodata (m : IRModule) : List (String × List Byte) :=
  m.strConsts.map fun s => (s.label, emitAsciz s.data)

/-- What the assembler puts at each definition of a label. -/
def rodataAt (m : IRModule) (label : String) : List (Option (List Byte)) :=
  ((emitRodata m).filter fun e => e.1 = label).map fun e => asciz e.2

/-- The labels of the pool are those given out, each to one string. -/
structure PoolOk (m : IRModule) : Prop where
  label : ∀ s ∈ m.strConsts, ∃ k < m.nextStrId, s.label = ".Lstr" ++ toString k
  nodup : (m.strConsts.map IRStrConst.label).Nodup

theorem strLabel_injective {j k : ℕ} (h : ".Lstr" ++ toString j = ".Lstr" ++ toString k) :
    j = k := by
  have hrepr : toString j = toString k := String.append_right_inj _ |>.mp h
  have hdigits : Nat.toDigits 10 j = Nat.toDigits 10 k := String.ofList_injective hrepr
  rw [← Nat.ofDigitChars_ten_toDigits (n := j), hdigits, Nat.ofDigitChars_ten_toDigits]

theorem addStringConst_eq (data : String) (g : IrGen) :
    addStringConst data g =
      match g.module.strConsts.find? fun s => s.data == data with
      | some s => (s.label, g)
      | none => (".Lstr" ++ toString g.module.nextStrId, { g with module := { g.module with
          nextStrId := g.module.nextStrId + 1
          strConsts := ⟨".Lstr" ++ toString g.module.nextStrId, data⟩ :: g.module.strConsts } }) := by
  cases hfind : g.module.strConsts.find? fun s => s.data == data with
  | none =>
    simp only [addStringConst, bind, StateT.bind, get, getThe, MonadStateOf.get, StateT.get, pure,
      hfind]
    rfl
  | some s =>
    simp only [addStringConst, bind, StateT.bind, get, getThe, MonadStateOf.get, StateT.get, pure,
      hfind]
    rfl

/-- `ir_add_string_const` keeps the pool and finds or puts the string there. -/
theorem addStringConst_pool {g : IrGen} (hg : PoolOk g.module) (data : String) :
    PoolOk (addStringConst data g).2.module ∧
      (⟨(addStringConst data g).1, data⟩ : IRStrConst) ∈
        (addStringConst data g).2.module.strConsts ∧
      g.module.strConsts ⊆ (addStringConst data g).2.module.strConsts := by
  rw [addStringConst_eq]
  cases hfind : g.module.strConsts.find? fun s => s.data == data with
  | some s =>
    have hdata : s.data = data := by simpa using List.find?_some hfind
    subst hdata
    exact ⟨hg, List.mem_of_find?_eq_some hfind, List.Subset.refl _⟩
  | none =>
    dsimp only
    refine ⟨⟨?_, ?_⟩, List.mem_cons_self, List.subset_cons_self _ _⟩
    · rw [List.forall_mem_cons]
      refine ⟨⟨_, Nat.lt_succ_self _, rfl⟩, fun s hs => ?_⟩
      obtain ⟨k, hk, hlabel⟩ := hg.label s hs
      exact ⟨k, Nat.lt_succ_of_lt hk, hlabel⟩
    · rw [List.map_cons, List.nodup_cons]
      refine ⟨?_, hg.nodup⟩
      intro hmem
      obtain ⟨s, hs, heq⟩ := List.mem_map.mp hmem
      obtain ⟨k, hk, hlabel⟩ := hg.label s hs
      exact hk.ne (strLabel_injective (hlabel.symm.trans heq))

/-- A string of the pool is defined once, as it is. -/
theorem rodataAt_of_mem {m : IRModule} (hm : PoolOk m) {s : IRStrConst} (hs : s ∈ m.strConsts) :
    rodataAt m s.label = [some (cBytes (stringBytes s.data) ++ [0])] := by
  have hnodup := hm.nodup
  rw [rodataAt, emitRodata, ← asciz_emitAsciz]
  clear hm
  generalize m.strConsts = pool at hs hnodup
  induction pool with
  | nil => cases hs
  | cons t rest ih =>
    rw [List.map_cons, List.nodup_cons] at hnodup
    rw [List.map_cons, List.filter_cons]
    rcases List.mem_cons.mp hs with rfl | hs
    · have hrest : (rest.map fun s => (s.label, emitAsciz s.data)).filter
          (fun e => e.1 = s.label) = [] := by
        rw [List.filter_eq_nil_iff]
        intro e he hlabel
        obtain ⟨u, hu, rfl⟩ := List.mem_map.mp he
        exact hnodup.1 (List.mem_map.mpr ⟨u, hu, by simpa using hlabel⟩)
      rw [if_pos (by simp), hrest]
      rfl
    · have hne : t.label ≠ s.label := fun h => hnodup.1 (List.mem_map.mpr ⟨s, hs, h.symm⟩)
      rw [if_neg (by simpa using hne)]
      exact ih hs hnodup.2

/-! ### Literals of a unit -/

/-- The node that `nud` makes of a string literal at the cursor. -/
def nudStrLit (strtod : List Byte → BitVec 64) (i : Info) (l : Lexer) : Option Expr :=
  let (t, l') := scanToken strtod l
  if t.kind = .strLit then
    (strtabGet l'.strings t.strIdx).map fun buf => .strLit i (cString buf)
  else none

/-- A string literal of a unit: the lexer before it, and what the generator does between the
literal before and this one. -/
structure LiteralUse where
  items : List LitItem
  wellFormed : WellFormed items
  lexer : Lexer
  after : List Byte
  rest : lexer.rest = ch '"' :: (litText items ++ ch '"' :: after)
  info : Info
  between : IrGen → IrGen
  keepsPool : ∀ g, (between g).module.strConsts = g.module.strConsts ∧
    (between g).module.nextStrId = g.module.nextStrId

/-- The labels that the literals evaluate to, if all of them are read. -/
def literalLabels (strtod : List Byte → BitVec 64) (Γ : TypeEnv) :
    List LiteralUse → IrGen → Option (List String × IrGen)
  | [], g => some ([], g)
  | u :: us, g =>
    match nudStrLit strtod u.info u.lexer with
    | none => none
    | some node =>
      let (v, g) := genExpr Γ node (u.between g)
      match v.kind with
      | .global label => (literalLabels strtod Γ us g).map fun r => (label :: r.1, r.2)
      | _ => none

section Uses

variable {l : Lexer} {tail after : List Byte} {its : List LitItem}
  {strtod : List Byte → BitVec 64} {Γ : TypeEnv} {i : Info}

theorem skipWs_eq_self (hend : l.atEnd = false) (hspace : isSpace l.peekc = false)
    (hslash : l.peekc ≠ ch '/') (hhash : l.peekc ≠ ch '#') : skipWs l = l := by
  rw [skipWs, dif_pos hend, if_neg (by simp [hspace]), if_neg fun h => hslash h.1,
    if_neg fun h => hslash h.1, if_neg hhash]

theorem scanToken_string (hrest : l.rest = ch '"' :: tail) :
    scanToken strtod l = scanStr l l.cur l.line l.col false := by
  obtain ⟨hpeek, hend, -⟩ := peekc_of_rest hrest
  have hskip : skipWs l = l := skipWs_eq_self hend (by rw [hpeek]; decide)
    (by rw [hpeek]; decide) (by rw [hpeek]; decide)
  have hback := rewind hend (by rw [hpeek]; decide)
  rw [scanToken, hskip]
  dsimp only
  rw [if_neg (by simp [hend]), hback, hpeek, if_neg (by decide), if_neg (by decide),
    if_pos rfl]

theorem scanToken_char (hrest : l.rest = ch '\'' :: tail) :
    scanToken strtod l = scanChr l l.cur l.line l.col false := by
  obtain ⟨hpeek, hend, -⟩ := peekc_of_rest hrest
  have hskip : skipWs l = l := skipWs_eq_self hend (by rw [hpeek]; decide)
    (by rw [hpeek]; decide) (by rw [hpeek]; decide)
  have hback := rewind hend (by rw [hpeek]; decide)
  rw [scanToken, hskip]
  dsimp only
  rw [if_neg (by simp [hend]), hback, hpeek, if_neg (by decide), if_neg (by decide),
    if_neg (by decide), if_pos rfl]

theorem strtabGet_strtabIntern (st : StringTable) (s : List Byte) :
    strtabGet (strtabIntern st s).2 (strtabIntern st s).1 = some s := by
  unfold strtabIntern strtabGet
  cases hfind : st.findIdx? (· == s) with
  | none => simp
  | some j =>
    obtain ⟨hj, hs, -⟩ := List.findIdx?_eq_some_iff_getElem.mp hfind
    dsimp only
    rw [List.getElem?_eq_getElem hj]
    simpa using hs

/-- The parser takes the C string of the buffer. -/
theorem nudStrLit_string (hrest : l.rest = ch '"' :: tail) :
    nudStrLit strtod i l =
      if (scanStrBody [] l.adv).1 && !(scanStrBody [] l.adv).2.2.atEnd then
        some (.strLit i (cString (scanStrBody [] l.adv).2.1))
      else none := by
  rw [nudStrLit, scanToken_string hrest, scanStr]
  obtain ⟨oneLine, buf, l'⟩ := scanStrBody [] l.adv
  dsimp only
  cases oneLine with
  | false => rfl
  | true =>
    cases hend : l'.atEnd with
    | true => rfl
    | false =>
      simp only [Bool.not_true, Bool.or_self, Bool.false_eq_true, if_false, Bool.not_false,
        Bool.and_self, if_true, strtabGet_strtabIntern, Option.map_some]
      exact if_pos rfl

/-- The literals that reach the object file. -/
def FitsBuffer (its : List LitItem) : Prop := its.length ≤ 4095 ∧ ∀ it ∈ its, it.Kept

theorem litBytes_ne_zero (hwf : WellFormed its) (hkept : ∀ it ∈ its, it.Kept) :
    ∀ b ∈ litBytes its, b ≠ 0 := by
  induction its with
  | nil => simp [litBytes]
  | cons it its ih =>
    obtain ⟨hv, -, hwf⟩ := hwf
    obtain ⟨hk, hkept⟩ := List.forall_mem_cons.mp hkept
    rw [litBytes, List.map_cons, List.forall_mem_cons]
    exact ⟨fun h => hk.1 (hv.byte_eq_zero.mp h), ih hwf hkept⟩

/-- The C string of a literal is the literal exactly if it fits. -/
theorem cBytes_scanStrBody_iff (hwf : WellFormed its)
    (hrest : l.rest = litText its ++ ch '"' :: after) :
    cBytes (scanStrBody [] l).2.1 = litBytes its ↔ FitsBuffer its := by
  constructor
  · intro heq
    have hlen : its.length ≤ 4095 := by
      have hle := length_cBytes_le (scanStrBody [] l).2.1
      have hbuf := (prefix_scanStrBody [] l).2 (by simp)
      rw [heq, litBytes, List.length_map] at hle
      omega
    refine ⟨hlen, ?_⟩
    by_contra hlost
    have hroom : ([] : List Byte).length + its.length ≤ 4095 := by simpa using hlen
    have hlt := length_cBytes_lost hwf (by simpa using hlost) hroom (by simp) hrest
    rw [heq, litBytes, List.length_map, List.length_nil] at hlt
    omega
  · rintro ⟨hlen, hkept⟩
    have hroom : ([] : List Byte).length + its.length ≤ 4095 := by simpa using hlen
    obtain ⟨l', hscan, -⟩ := scanStrBody_literal hwf (fun it hit => (hkept it hit).2) hroom hrest
    rw [hscan, List.nil_append]
    exact cBytes_eq_self (litBytes_ne_zero hwf hkept)

/-- What the parser takes for the literal. -/
def LiteralUse.data (u : LiteralUse) : String := cString (scanStrBody [] u.lexer.adv).2.1

theorem LiteralUse.data_iff (u : LiteralUse) :
    cBytes (stringBytes u.data) = litBytes u.items ↔ FitsBuffer u.items := by
  obtain ⟨-, -, hrest⟩ := peekc_of_rest u.rest
  rw [LiteralUse.data, stringBytes_cString, cBytes_eq_self (zero_notMem_cBytes _)]
  exact cBytes_scanStrBody_iff u.wellFormed hrest

theorem LiteralUse.read (u : LiteralUse) (hfits : FitsBuffer u.items) :
    nudStrLit strtod u.info u.lexer = some (.strLit u.info u.data) := by
  obtain ⟨-, -, hrest⟩ := peekc_of_rest u.rest
  have hroom : ([] : List Byte).length + u.items.length ≤ 4095 := by simpa using hfits.1
  obtain ⟨l', hscan, hafter⟩ := scanStrBody_literal u.wellFormed
    (fun it hit => (hfits.2 it hit).2) hroom hrest
  obtain ⟨-, hend, -⟩ := peekc_of_rest hafter
  rw [nudStrLit_string u.rest, LiteralUse.data, hscan]
  simp [hend]

theorem LiteralUse.node_eq (u : LiteralUse) {node : Expr}
    (h : nudStrLit strtod u.info u.lexer = some node) : node = .strLit u.info u.data := by
  rw [nudStrLit_string u.rest] at h
  split at h
  · exact (Option.some.inj h).symm
  · cases h

theorem genExpr_strLit (data : String) (g : IrGen) :
    genExpr Γ (.strLit i data) g =
      (irvGlobal (addStringConst data g).1 (i.type.getD (typePointer typeChar .none)),
        (addStringConst data g).2) := rfl

/-- The generator keeps the pool between two literals. -/
theorem LiteralUse.between_pool (u : LiteralUse) {g : IrGen} (hg : PoolOk g.module) :
    PoolOk (u.between g).module := by
  obtain ⟨hconsts, hid⟩ := u.keepsPool g
  exact ⟨by rw [hconsts, hid]; exact hg.label, by rw [hconsts]; exact hg.nodup⟩

/-- After a run over the literals, each is in the pool with its label. -/
theorem literalLabels_pool {us : List LiteralUse} {g g' : IrGen} {labels : List String}
    (hg : PoolOk g.module) (hrun : literalLabels strtod Γ us g = some (labels, g')) :
    PoolOk g'.module ∧ g.module.strConsts ⊆ g'.module.strConsts ∧
      List.Forall₂ (fun u label => (⟨label, u.data⟩ : IRStrConst) ∈ g'.module.strConsts)
        us labels := by
  induction us generalizing g labels with
  | nil =>
    rw [literalLabels, Option.some.injEq, Prod.mk.injEq] at hrun
    obtain ⟨rfl, rfl⟩ := hrun
    exact ⟨hg, List.Subset.refl _, .nil⟩
  | cons u us ih =>
    rw [literalLabels] at hrun
    split at hrun
    · cases hrun
    · rename_i node hnode
      rw [u.node_eq hnode, genExpr_strLit] at hrun
      dsimp only [irvGlobal] at hrun
      obtain ⟨⟨rest, g₁⟩, hrest, heq⟩ := Option.map_eq_some_iff.mp hrun
      obtain ⟨rfl, rfl⟩ := Prod.mk.inj heq
      obtain ⟨hpool, hmem, hsub⟩ := addStringConst_pool (u.between_pool hg) u.data
      obtain ⟨hpool', hsub', hall⟩ := ih hpool hrest
      rw [(u.keepsPool g).1] at hsub
      exact ⟨hpool', fun s hs => hsub' (hsub hs), .cons (hsub' hmem) hall⟩

theorem literalLabels_of_fits {us : List LiteralUse} (hfits : ∀ u ∈ us, FitsBuffer u.items) (g : IrGen) :
    ∃ r, literalLabels strtod Γ us g = some r := by
  induction us generalizing g with
  | nil => exact ⟨_, rfl⟩
  | cons u us ih =>
    obtain ⟨hu, hfits⟩ := List.forall_mem_cons.mp hfits
    rw [literalLabels, u.read hu]
    dsimp only
    rw [genExpr_strLit]
    obtain ⟨r, hr⟩ := ih hfits (addStringConst u.data (u.between g)).2
    exact ⟨_, by dsimp only [irvGlobal]; rw [hr]; rfl⟩

end Uses

/-- Every literal is at its label, and shares it only with literals of the same content. -/
def Survive (strtod : List Byte → BitVec 64) (Γ : TypeEnv) (us : List LiteralUse) (g : IrGen) :
    Prop :=
  ∃ labels g', literalLabels strtod Γ us g = some (labels, g') ∧
    List.Forall₂ (fun u label => rodataAt g'.module label = [some (litBytes u.items ++ [0])])
      us labels ∧
    ∀ a ∈ us.zip labels, ∀ b ∈ us.zip labels, a.2 = b.2 → litBytes a.1.items = litBytes b.1.items

theorem survive_iff (strtod : List Byte → BitVec 64) (Γ : TypeEnv) (us : List LiteralUse)
    {g : IrGen} (hg : g.module.strConsts = []) :
    Survive strtod Γ us g ↔ ∀ u ∈ us, FitsBuffer u.items := by
  have hpool : PoolOk g.module := ⟨by simp [hg], by simp [hg]⟩
  -- what a run leaves at a label is the C string of its literal
  have hat : ∀ {labels g'}, literalLabels strtod Γ us g = some (labels, g') →
      List.Forall₂ (fun u label => rodataAt g'.module label =
        [some (cBytes (stringBytes u.data) ++ [0])]) us labels := by
    intro labels g' hrun
    obtain ⟨hpool', -, hall⟩ := literalLabels_pool hpool hrun
    exact hall.imp fun u label hmem => rodataAt_of_mem hpool' hmem
  constructor
  · rintro ⟨labels, g', hrun, hdata, -⟩
    obtain ⟨hlen, hcstring⟩ := List.forall₂_iff_zip.mp (hat hrun)
    intro u hu
    obtain ⟨n, hn, rfl⟩ := List.mem_iff_getElem.mp hu
    have hmem : (us[n], labels[n]) ∈ us.zip labels :=
      List.mem_iff_getElem.mpr ⟨n, by rw [List.length_zip]; omega, List.getElem_zip⟩
    have heq := (hcstring hmem).symm.trans (List.forall₂_zip hdata hmem)
    exact us[n].data_iff.mp (by simpa using heq)
  · intro hfits
    obtain ⟨⟨labels, g'⟩, hrun⟩ : ∃ r, literalLabels strtod Γ us g = some r :=
      literalLabels_of_fits hfits g
    obtain ⟨hlen, hcstring⟩ := List.forall₂_iff_zip.mp (hat hrun)
    have hdata : List.Forall₂ (fun u label => rodataAt g'.module label =
        [some (litBytes u.items ++ [0])]) us labels := by
      refine List.forall₂_iff_zip.mpr ⟨hlen, fun {u label} hmem => ?_⟩
      rw [hcstring hmem, u.data_iff.mpr (hfits u (List.of_mem_zip hmem).1)]
    refine ⟨labels, g', hrun, hdata, ?_⟩
    intro a ha b hb hlabel
    have hsame := (List.forall₂_zip hdata ha).symm.trans (hlabel ▸ List.forall₂_zip hdata hb)
    simpa using hsame

/-! ### Character constants -/

/-- The token of a character constant has the value of its character, a signed `char`. -/
def CharRead (strtod : List Byte → BitVec 64) (l : Lexer) (it : LitItem) : Prop :=
  (scanToken strtod l).1.kind = .charLit ∧
    (scanToken strtod l).1.intVal = it.byte.signExtend 64

section Chars

variable {l : Lexer} {it : LitItem} {after : List Byte} {strtod : List Byte → BitVec 64}

theorem LitItem.separate_quote (it : LitItem) : it.Separate (ch '\'' :: after) := by
  have hhead : ∀ b, (ch '\'' :: after).head? = some b → b = ch '\'' :=
    fun b hb => (Option.some.inj hb).symm
  cases it with
  | plain b => trivial
  | simple c => trivial
  | octal ds => exact .inr fun b hb => by rw [hhead b hb]; decide
  | hex ds => exact fun b hb => by rw [hhead b hb]; decide

/-- A constant that is not cut short has the value of its item as it is. -/
theorem scanChr_item (hv : it.Valid (ch '\'')) (hz : ¬it.LeadingZero)
    (hrest : l.rest = ch '\'' :: (it.text ++ ch '\'' :: after)) :
    (scanToken strtod l).1.kind = .charLit ∧
      (scanToken strtod l).1.intVal = BitVec.ofInt 64 it.value := by
  obtain ⟨-, -, hbody⟩ := peekc_of_rest hrest
  rw [scanToken_char hrest, scanChr]
  rcases hv.text_head with ⟨tail, htext⟩ | ⟨b, rfl, hquote, hslash, -⟩
  · have hhead : l.adv.rest = ch '\\' :: (tail ++ ch '\'' :: after) := by
      rw [hbody, htext, List.cons_append]
    obtain ⟨hpeek, hend, htail⟩ := peekc_of_rest hhead
    obtain ⟨hvalue, hclose⟩ := scanEsc_item (l := l.adv.adv) hv it.separate_quote hz
      (by rw [htail, htext, List.cons_append])
    obtain ⟨hpeek', hend', -⟩ := peekc_of_rest hclose
    dsimp only
    rw [if_neg (by rw [hpeek, hend]; decide), if_pos hpeek]
    rw [if_neg (by rw [hpeek', hend']; decide), hvalue]
    exact ⟨rfl, rfl⟩
  · obtain ⟨hpeek, hend, htail⟩ := peekc_of_rest hbody
    obtain ⟨hpeek', hend', -⟩ := peekc_of_rest htail
    have hnotEsc : ¬l.adv.peekc = ch '\\' := by rw [hpeek]; exact hslash
    dsimp only
    rw [if_neg (by simp [hpeek, hend, hquote])]
    simp only [hnotEsc, if_false]
    rw [if_neg (by rw [hpeek', hend']; decide), hpeek]
    exact ⟨rfl, rfl⟩

theorem scanChr_leadingZero (hv : it.Valid (ch '\'')) (hz : it.LeadingZero)
    (hrest : l.rest = ch '\'' :: (it.text ++ ch '\'' :: after)) :
    (scanToken strtod l).1.kind = .error := by
  obtain ⟨-, -, hbody⟩ := peekc_of_rest hrest
  rw [scanToken_char hrest, scanChr]
  rcases hv.text_head with ⟨tail, htext⟩ | ⟨b, rfl, -⟩
  · have hhead : l.adv.rest = ch '\\' :: (tail ++ ch '\'' :: after) := by
      rw [hbody, htext, List.cons_append]
    obtain ⟨hpeek, hend, htail⟩ := peekc_of_rest hhead
    have hesc : ch '\\' :: l.adv.adv.rest = it.text ++ ch '\'' :: after := by
      rw [htail, htext, List.cons_append]
    obtain ⟨-, d, ds, rfl, hnext⟩ := scanEsc_leadingZero hz hesc
    obtain ⟨hpeek', hend', -⟩ := peekc_of_rest hnext
    have hd : isOctal d = true := hv.1 d (by simp)
    have hne : d ≠ ch '\'' := fun h => by rw [h] at hd; exact absurd hd (by decide)
    dsimp only
    rw [if_neg (by rw [hpeek, hend]; decide), if_pos hpeek]
    rw [if_pos (by simp [hpeek', hend', hne])]
    rfl
  · exact hz.elim

theorem charRead_iff (hv : it.Valid (ch '\''))
    (hrest : l.rest = ch '\'' :: (it.text ++ ch '\'' :: after)) :
    CharRead strtod l it ↔ it.value < 128 ∧ ¬it.LeadingZero := by
  have hrange := hv.value_range
  have hbyte := hv.byte_toNat
  by_cases hz : it.LeadingZero
  · have herr : (scanToken strtod l).1.kind = .error := scanChr_leadingZero hv hz hrest
    constructor
    · rintro ⟨hkind, -⟩
      rw [herr] at hkind
      cases hkind
    · exact fun h => absurd hz h.2
  · obtain ⟨hkind, hval⟩ : (scanToken strtod l).1.kind = .charLit ∧
        (scanToken strtod l).1.intVal = BitVec.ofInt 64 it.value := scanChr_item hv hz hrest
    have htoInt : it.byte.toInt = if it.value < 128 then it.value else it.value - 256 := by
      rw [BitVec.toInt_eq_toNat_cond]
      split <;> split <;> omega
    have hext : it.byte.signExtend 64 = BitVec.ofInt 64 it.byte.toInt := rfl
    constructor
    · rintro ⟨-, heq⟩
      refine ⟨?_, hz⟩
      by_contra hlarge
      rw [hval, hext, htoInt, if_neg hlarge, ← BitVec.toNat_inj, BitVec.toNat_ofInt,
        BitVec.toNat_ofInt] at heq
      omega
    · rintro ⟨hsmall, -⟩
      refine ⟨hkind, ?_⟩
      rw [hval, hext, htoInt, if_pos hsmall]

end Chars

/-- The literals of a unit survive exactly if each is shorter than the buffer and has no NUL
and no escape that goes on after a zero; a character constant keeps its value exactly if it is
ASCII and not such an escape. -/
theorem string_literals_survive (strtod : List Byte → BitVec 64) (Γ : TypeEnv)
    (us : List LiteralUse) (g : IrGen) (hg : g.module.strConsts = []) :
    (Survive strtod Γ us g ↔
      ∀ u ∈ us, u.items.length ≤ 4095 ∧ ∀ it ∈ u.items, it.value ≠ 0 ∧ ¬it.LeadingZero) ∧
    ∀ (it : LitItem) (l : Lexer) (after : List Byte), it.Valid (ch '\'') →
      l.rest = ch '\'' :: (it.text ++ ch '\'' :: after) →
      (CharRead strtod l it ↔ it.value < 128 ∧ ¬it.LeadingZero) :=
  ⟨survive_iff strtod Γ us hg, fun _ _ _ hv hrest => charRead_iff hv hrest⟩

/-- The literal `"a\tb";`. -/
def tabUse : LiteralUse where
  items := [.plain (ch 'a'), .simple (ch 't'), .plain (ch 'b')]
  wellFormed := by
    refine ⟨?_, trivial, ?_, trivial, ?_, trivial, trivial⟩
    · exact ⟨by decide, by decide, by decide⟩
    · exact rfl
    · exact ⟨by decide, by decide, by decide⟩
  lexer := lexerInit ("\"a\\tb\";".toList.map ch) []
  after := [ch ';']
  rest := by decide
  info := {}
  between g := g
  keepsPool _ := ⟨rfl, rfl⟩

/-- The literal `"a\0b";`. -/
def nulUse : LiteralUse where
  items := [.plain (ch 'a'), .octal [ch '0'], .plain (ch 'b')]
  wellFormed := by
    refine ⟨?_, trivial, ?_, ?_, ?_, trivial, trivial⟩
    · exact ⟨by decide, by decide, by decide⟩
    · exact ⟨by decide, by decide, by decide, by decide⟩
    · exact .inr fun b hb => by rw [← Option.some.inj hb]; decide
    · exact ⟨by decide, by decide, by decide⟩
  lexer := lexerInit ("\"a\\0b\";".toList.map ch) []
  after := [ch ';']
  rest := by decide
  info := {}
  between g := g
  keepsPool _ := ⟨rfl, rfl⟩

def emptyGen : IrGen := { func := { name := "main", funcType := none } }

theorem string_literals_survive_tab :
    Survive (fun _ => 0) .empty [tabUse] emptyGen ∧
      CharRead (fun _ => 0) (lexerInit ("'\\n'".toList.map ch) []) (.simple (ch 'n')) := by
  obtain ⟨hstrings, hchars⟩ :=
    string_literals_survive (fun _ => 0) .empty [tabUse] emptyGen rfl
  exact ⟨hstrings.mpr (by decide),
    (hchars (.simple (ch 'n')) (lexerInit ("'\\n'".toList.map ch) []) [] rfl (by decide)).mpr
      (by decide)⟩

/-- A NUL in a literal cuts it short. -/
theorem literal_with_nul_is_cut : ¬Survive (fun _ => 0) .empty [nulUse] emptyGen := by
  rw [survive_iff (fun _ => 0) .empty [nulUse] rfl]
  intro h
  have hkept := (h nulUse List.mem_cons_self).2 (.octal [ch '0']) (by simp [nulUse])
  exact hkept.1 (by decide)

end TinyC

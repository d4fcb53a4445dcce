import TinyC.LexerSpans
import TinyC.IrGenExpr
import TinyC.GenFrame
import Mathlib.Algebra.Order.Ring.Int

/-!
# String literals from the source to `.rodata`

A literal is scanned into a buffer and interned; the tree holds it as a C string, the pool
compares C strings, and `.asciz` spells them with escapes that the assembler undoes.
-/

namespace TinyC

open Lexer

/-! ### Literals of the source -/

/-- A character of a string or character constant as it is written. -/
inductive LitItem where
  | plain (b : Byte)
  | simple (c : Byte)
  | octal (digits : List Byte)
  | hex (digits : List Byte)
  deriving DecidableEq, Repr

/-- The escapes of one letter. -/
def simpleEscapeValue (c : Byte) : Option ℤ :=
  if c = ch '?' then some 63
  else if c = ch '0' then none
  else simpleEscape c

def octalValue (digits : List Byte) : ℤ := digits.foldl (fun v d => v * 8 + digitVal d) 0

def hexValue (digits : List Byte) : ℤ := digits.foldl (fun v d => v * 16 + digitVal d) 0

namespace LitItem

def text : LitItem → List Byte
  | .plain b => [b]
  | .simple c => [ch '\\', c]
  | .octal ds => ch '\\' :: ds
  | .hex ds => ch '\\' :: ch 'x' :: ds

def value : LitItem → ℤ
  | .plain b => b.toNat
  | .simple c => (simpleEscapeValue c).getD 0
  | .octal ds => octalValue ds
  | .hex ds => hexValue ds

def byte (it : LitItem) : Byte := BitVec.ofInt 8 it.value

/-- What C99 allows between two `quote`s, with values that fit a byte. -/
def Valid (quote : Byte) : LitItem → Prop
  | .plain b => b ≠ quote ∧ b ≠ ch '\\' ∧ b ≠ ch '\n'
  | .simple c => (simpleEscapeValue c).isSome
  | .octal ds => (∀ d ∈ ds, isOctal d = true) ∧ 1 ≤ ds.length ∧ ds.length ≤ 3 ∧ octalValue ds ≤ 255
  | .hex ds => (∀ d ∈ ds, isHex d = true) ∧ 1 ≤ ds.length ∧ hexValue ds ≤ 255

/-- The escape is not continued by what follows it. -/
def Separate (rest : List Byte) : LitItem → Prop
  | .octal ds => ds.length = 3 ∨ ∀ b, rest.head? = some b → isOctal b = false
  | .hex _ => ∀ b, rest.head? = some b → isHex b = false
  | _ => True

/-- An octal escape that goes on after a zero. -/
def LeadingZero : LitItem → Prop
  | .octal (d :: _ :: _) => d = ch '0'
  | _ => False

instance : DecidablePred LeadingZero
  | .octal (d :: _ :: _) => inferInstanceAs (Decidable (d = ch '0'))
  | .octal [] | .octal [_] | .plain _ | .simple _ | .hex _ => .isFalse id

end LitItem

/-- The text between the quotes. -/
def litText (its : List LitItem) : List Byte := its.flatMap LitItem.text

/-- The characters of a string literal. -/
def WellFormed : List LitItem → Prop
  | [] => True
  | it :: its => it.Valid (ch '"') ∧ it.Separate (litText its ++ [ch '"']) ∧ WellFormed its

/-- What C99 says a literal stands for, without the NUL at its end. -/
def litBytes (its : List LitItem) : List Byte := its.map LitItem.byte

/-! ### Scanning -/

section Scan

variable {l : Lexer} {v : ℤ} {c : Byte} {ds rest : List Byte}

theorem digitVal_isOctal (h : isOctal c = true) : digitVal c = c.toNat - 48 ∧ 0 ≤ digitVal c := by
  have hle : 48 ≤ c.toNat ∧ c.toNat ≤ 55 := by simpa [isOctal] using h
  rw [digitVal, if_pos (by omega)]
  omega

theorem digitVal_isHex (h : isHex c = true) : 0 ≤ digitVal c ∧ digitVal c < 16 := by
  have hall : ∀ n < 256, isHex (BitVec.ofNat 8 n) = true →
      0 ≤ digitVal (BitVec.ofNat 8 n) ∧ digitVal (BitVec.ofNat 8 n) < 16 := by decide +kernel
  have h' := hall c.toNat c.isLt
  rw [BitVec.ofNat_toNat, BitVec.setWidth_eq] at h'
  exact h' h

/-- A digit more does not make the value smaller. -/
theorem le_foldl_digits (base : ℤ) (hbase : 1 ≤ base) (hv : 0 ≤ v)
    (hds : ∀ d ∈ ds, 0 ≤ digitVal d) :
    v ≤ ds.foldl (fun v d => v * base + digitVal d) v := by
  induction ds generalizing v with
  | nil => exact le_rfl
  | cons d ds ih =>
    have hd := hds d List.mem_cons_self
    have hmul : v ≤ v * base := le_mul_of_one_le_right hv hbase
    exact (show v ≤ v * base + digitVal d by omega).trans
      (ih (by omega) fun e he => hds e (List.mem_cons_of_mem d he))

theorem scanHex_digits (hrest : l.rest = ds ++ rest) (hds : ∀ d ∈ ds, isHex d = true)
    (hstop : ∀ b, rest.head? = some b → isHex b = false) (hv : 0 ≤ v)
    (hfit : ds.foldl (fun v d => v * 16 + digitVal d) v ≤ 255) :
    (scanHex v l).1 = ds.foldl (fun v d => v * 16 + digitVal d) v ∧ (scanHex v l).2.rest = rest := by
  induction ds generalizing l v with
  | nil =>
    have hno : ¬(l.atEnd = false ∧ isHex l.peekc = true) := by
      rintro ⟨hend, hhex⟩
      have hhead := rest_adv hend
      rw [hrest, List.nil_append] at hhead
      rw [hstop l.peekc (by rw [hhead]; rfl)] at hhex
      cases hhex
    rw [scanHex, dif_neg hno]
    exact ⟨rfl, hrest⟩
  | cons d ds ih =>
    obtain ⟨hpeek, hend, htail⟩ := peekc_of_rest hrest
    have hd := hds d List.mem_cons_self
    have hds' := fun e he => hds e (List.mem_cons_of_mem d he)
    have hval := digitVal_isHex hd
    have hnext : 0 ≤ v * 16 + digitVal d := by omega
    have hle := le_foldl_digits 16 (by omega) hnext fun e he => (digitVal_isHex (hds' e he)).1
    rw [List.foldl_cons] at hfit ⊢
    rw [scanHex, dif_pos ⟨hend, by rw [hpeek]; exact hd⟩, hpeek,
      toInt32_of_nonneg hnext (by omega)]
    exact ih htail hds' hnext hfit

theorem scanOctal_digits {n : ℕ} (hrest : l.rest = ds ++ rest) (hds : ∀ d ∈ ds, isOctal d = true)
    (hlen : ds.length ≤ n) (hstop : ds.length = n ∨ ∀ b, rest.head? = some b → isOctal b = false) :
    (scanOctal n v l).1 = ds.foldl (fun v d => v * 8 + digitVal d) v ∧
      (scanOctal n v l).2.rest = rest := by
  induction ds generalizing l v n with
  | nil =>
    cases n with
    | zero => exact ⟨rfl, hrest⟩
    | succ n =>
      have hno : ¬(l.atEnd = false ∧ isOctal l.peekc = true) := by
        rintro ⟨hend, hoct⟩
        have hhead := rest_adv hend
        rw [hrest, List.nil_append] at hhead
        rw [hstop.resolve_left nofun l.peekc (by rw [hhead]; rfl)] at hoct
        cases hoct
      rw [scanOctal, if_neg hno]
      exact ⟨rfl, hrest⟩
  | cons d ds ih =>
    obtain ⟨hpeek, hend, htail⟩ := peekc_of_rest hrest
    cases n with
    | zero => simp at hlen
    | succ n =>
      rw [scanOctal, if_pos ⟨hend, by rw [hpeek]; exact hds d List.mem_cons_self⟩, hpeek,
        List.foldl_cons]
      refine ih htail (fun e he => hds e (List.mem_cons_of_mem d he)) (by simpa using hlen) ?_
      rcases hstop with hstop | hstop
      · exact .inl (by simpa using hstop)
      · exact .inr hstop

theorem simpleEscape_of_isOctal (hc : isOctal c = true) (h0 : c ≠ ch '0') :
    simpleEscape c = none ∧ c ≠ ch 'x' := by
  have hall : ∀ n < 256, isOctal (BitVec.ofNat 8 n) = true → BitVec.ofNat 8 n ≠ ch '0' →
      simpleEscape (BitVec.ofNat 8 n) = none ∧ BitVec.ofNat 8 n ≠ ch 'x' := by decide +kernel
  have h' := hall c.toNat c.isLt
  rw [BitVec.ofNat_toNat, BitVec.setWidth_eq] at h'
  exact h' hc h0

theorem scanEsc_simple (hc : simpleEscapeValue c = some v) (hrest : l.rest = c :: rest) :
    (scanEsc l).1 = v ∧ (scanEsc l).2.rest = rest := by
  obtain ⟨hpeek, -, htail⟩ := peekc_of_rest hrest
  rw [scanEsc, hpeek]
  by_cases hq : c = ch '?'
  · subst hq
    obtain rfl : 63 = v := by simpa [simpleEscapeValue] using hc
    exact ⟨rfl, htail⟩
  · have hsimple : simpleEscape c = some v := by
      rw [simpleEscapeValue, if_neg hq] at hc
      split at hc
      · cases hc
      · exact hc
    rw [hsimple]
    exact ⟨rfl, htail⟩

theorem scanEsc_octal (hds : ∀ d ∈ c :: ds, isOctal d = true) (hlen : ds.length ≤ 2)
    (hstop : ds.length = 2 ∨ ∀ b, rest.head? = some b → isOctal b = false)
    (hz : ¬LitItem.LeadingZero (.octal (c :: ds))) (hrest : l.rest = c :: (ds ++ rest)) :
    (scanEsc l).1 = octalValue (c :: ds) ∧ (scanEsc l).2.rest = rest := by
  obtain ⟨hpeek, -, htail⟩ := peekc_of_rest hrest
  obtain ⟨hc, hds'⟩ := List.forall_mem_cons.mp hds
  rw [scanEsc, hpeek]
  by_cases h0 : c = ch '0'
  · cases ds with
    | nil =>
      subst h0
      exact ⟨rfl, htail⟩
    | cons d ds => exact absurd h0 hz
  · obtain ⟨hnone, hx⟩ := simpleEscape_of_isOctal hc h0
    rw [hnone]
    dsimp only
    rw [if_neg hx, if_pos hc, octalValue, List.foldl_cons, zero_mul, zero_add]
    exact scanOctal_digits htail hds' hlen hstop

theorem scanEsc_hex (hds : ∀ d ∈ ds, isHex d = true)
    (hstop : ∀ b, rest.head? = some b → isHex b = false) (hfit : hexValue ds ≤ 255)
    (hrest : l.rest = ch 'x' :: (ds ++ rest)) :
    (scanEsc l).1 = hexValue ds ∧ (scanEsc l).2.rest = rest := by
  obtain ⟨hpeek, -, htail⟩ := peekc_of_rest hrest
  rw [scanEsc, hpeek]
  exact scanHex_digits htail hds hstop le_rfl hfit

/-- `scan_esc` reads an escape for what it is, unless it goes on after a zero. -/
theorem scanEsc_item {quote : Byte} {it : LitItem} (hv : it.Valid quote) (hsep : it.Separate rest)
    (hz : ¬it.LeadingZero) (hrest : ch '\\' :: l.rest = it.text ++ rest) :
    (scanEsc l).1 = it.value ∧ (scanEsc l).2.rest = rest := by
  cases it with
  | plain b =>
    obtain ⟨hb, -⟩ := List.cons.inj hrest
    exact absurd hb.symm hv.2.1
  | simple c =>
    obtain ⟨v, hc⟩ := Option.isSome_iff_exists.mp hv
    rw [LitItem.value, hc]
    exact scanEsc_simple hc (List.cons.inj hrest).2
  | octal ds =>
    obtain ⟨hds, hone, hthree, -⟩ := hv
    cases ds with
    | nil => cases hone
    | cons d ds =>
      refine scanEsc_octal hds (Nat.le_of_succ_le_succ hthree) ?_ hz (List.cons.inj hrest).2
      exact hsep.imp_left fun h => by simpa using h
  | hex ds => exact scanEsc_hex hv.1 hsep hv.2.2 (List.cons.inj hrest).2

/-- After a zero `scan_esc` stops. -/
theorem scanEsc_leadingZero {it : LitItem} (hz : it.LeadingZero)
    (hrest : ch '\\' :: l.rest = it.text ++ rest) :
    (scanEsc l).1 = 0 ∧ ∃ d ds, it = .octal (ch '0' :: d :: ds) ∧
      (scanEsc l).2.rest = d :: (ds ++ rest) := by
  match it, hz with
  | .octal (c :: d :: ds), hz =>
    obtain rfl : c = ch '0' := hz
    have hrest' : l.rest = ch '0' :: d :: (ds ++ rest) := (List.cons.inj hrest).2
    obtain ⟨hpeek, -, htail⟩ := peekc_of_rest hrest'
    rw [scanEsc, hpeek]
    exact ⟨rfl, d, ds, rfl, htail⟩

/-! ### The buffer -/

/-- The item reaches the object file: it is not a NUL, and no zero cuts it short. -/
def LitItem.Kept (it : LitItem) : Prop := it.value ≠ 0 ∧ ¬it.LeadingZero

instance : DecidablePred LitItem.Kept := fun it =>
  inferInstanceAs (Decidable (it.value ≠ 0 ∧ ¬it.LeadingZero))

theorem LitItem.Valid.value_range {quote : Byte} {it : LitItem} (hv : it.Valid quote) :
    0 ≤ it.value ∧ it.value ≤ 255 := by
  cases it with
  | plain b =>
    have hlt := b.isLt
    simp only [LitItem.value]
    omega
  | simple c =>
    have hall : ∀ n < 256, 0 ≤ (simpleEscapeValue (BitVec.ofNat 8 n)).getD 0 ∧
        (simpleEscapeValue (BitVec.ofNat 8 n)).getD 0 ≤ 255 := by decide +kernel
    have h' := hall c.toNat c.isLt
    rw [BitVec.ofNat_toNat, BitVec.setWidth_eq] at h'
    exact h'
  | octal ds =>
    exact ⟨le_foldl_digits 8 (by omega) le_rfl fun d hd => (digitVal_isOctal (hv.1 d hd)).2,
      hv.2.2.2⟩
  | hex ds =>
    exact ⟨le_foldl_digits 16 (by omega) le_rfl fun d hd => (digitVal_isHex (hv.1 d hd)).1,
      hv.2.2⟩

theorem LitItem.Valid.byte_toNat {quote : Byte} {it : LitItem} (hv : it.Valid quote) :
    (it.byte.toNat : ℤ) = it.value := by
  have hrange := hv.value_range
  rw [LitItem.byte, BitVec.toNat_ofInt]
  omega

theorem LitItem.Valid.byte_eq_zero {quote : Byte} {it : LitItem} (hv : it.Valid quote) :
    it.byte = 0 ↔ it.value = 0 := by
  rw [← hv.byte_toNat, ← BitVec.toNat_inj]
  simp

/-- The text of an item does not start with a quote or a newline. -/
theorem LitItem.Valid.text_head {quote : Byte} {it : LitItem} (hv : it.Valid quote) :
    (∃ tail, it.text = ch '\\' :: tail) ∨
      ∃ b, it = .plain b ∧ b ≠ quote ∧ b ≠ ch '\\' ∧ b ≠ ch '\n' := by
  cases it with
  | plain b => exact .inr ⟨b, rfl, hv⟩
  | simple c => exact .inl ⟨_, rfl⟩
  | octal ds => exact .inl ⟨_, rfl⟩
  | hex ds => exact .inl ⟨_, rfl⟩

variable {buf : List Byte} {it : LitItem}

/-- An escape in the text with room for it. -/
theorem scanStrBody_escape {tail : List Byte} (hroom : buf.length < 4095)
    (hrest : l.rest = ch '\\' :: tail) :
    scanStrBody buf l =
      scanStrBody (buf ++ [BitVec.ofInt 8 (scanEsc l.adv).1]) (scanEsc l.adv).2 := by
  obtain ⟨hpeek, hend, -⟩ := peekc_of_rest hrest
  rw [scanStrBody, dif_pos ⟨hend, by rw [hpeek]; decide⟩, if_neg (by rw [hpeek]; decide),
    if_pos hpeek, if_pos hroom]

theorem scanStrBody_kept (hroom : buf.length < 4095) (hv : it.Valid (ch '"'))
    (hsep : it.Separate rest) (hz : ¬it.LeadingZero) (hrest : l.rest = it.text ++ rest) :
    ∃ l', scanStrBody buf l = scanStrBody (buf ++ [it.byte]) l' ∧ l'.rest = rest := by
  rcases hv.text_head with ⟨tail, htext⟩ | ⟨b, rfl, hquote, hslash, hnl⟩
  · have hhead : l.rest = ch '\\' :: (tail ++ rest) := by rw [hrest, htext, List.cons_append]
    obtain ⟨-, -, htail⟩ := peekc_of_rest hhead
    obtain ⟨hvalue, hafter⟩ :=
      scanEsc_item (l := l.adv) hv hsep hz (by rw [htail, htext, List.cons_append])
    exact ⟨_, by rw [scanStrBody_escape hroom hhead, hvalue, LitItem.byte], hafter⟩
  · obtain ⟨hpeek, hend, htail⟩ := peekc_of_rest hrest
    refine ⟨l.adv, ?_, htail⟩
    have hbyte : (LitItem.plain b).byte = b := by
      rw [← BitVec.toNat_inj]
      exact Int.ofNat.inj hv.byte_toNat
    rw [scanStrBody, dif_pos ⟨hend, by rw [hpeek]; exact hquote⟩,
      if_neg (by rw [hpeek]; exact hnl), if_neg (by rw [hpeek]; exact hslash), if_pos hroom,
      hpeek, hbyte]

/-- The buffer only grows, up to its size. -/
theorem prefix_scanStrBody (buf : List Byte) (l : Lexer) :
    buf <+: (scanStrBody buf l).2.1 ∧
      (buf.length ≤ 4095 → (scanStrBody buf l).2.1.length ≤ 4095) := by
  fun_induction scanStrBody buf l with
  | case1 buf l h hnl => exact ⟨List.prefix_rfl, id⟩
  | case2 buf l h hnl hslash hroom ih =>
    refine ⟨(List.prefix_append _ _).trans ih.1, fun _ => ih.2 ?_⟩
    rw [List.length_append]
    exact hroom
  | case3 buf l h hnl hslash hroom ih => exact ih
  | case4 buf l h hnl hslash ih =>
    by_cases hroom : buf.length < 4095
    · rw [dif_pos hroom] at ih
      rw [if_pos hroom]
      refine ⟨(List.prefix_append _ _).trans ih.1, fun _ => ih.2 ?_⟩
      rw [List.length_append]
      exact hroom
    · rw [dif_neg hroom] at ih
      rw [if_neg hroom]
      exact ih
  | case5 buf l h => exact ⟨List.prefix_rfl, id⟩

/-- A NUL goes into the buffer for an item that is lost. -/
theorem scanStrBody_lost (hroom : buf.length < 4095) (hv : it.Valid (ch '"'))
    (hsep : it.Separate rest) (hlost : ¬it.Kept) (hrest : l.rest = it.text ++ rest) :
    buf ++ [0] <+: (scanStrBody buf l).2.1 := by
  by_cases hz : it.LeadingZero
  · rcases hv.text_head with ⟨tail, htext⟩ | ⟨b, rfl, -⟩
    · have hhead : l.rest = ch '\\' :: (tail ++ rest) := by rw [hrest, htext, List.cons_append]
      obtain ⟨-, -, htail⟩ := peekc_of_rest hhead
      have hesc : ch '\\' :: l.adv.rest = it.text ++ rest := by
        rw [htail, htext, List.cons_append]
      obtain ⟨hzero, -⟩ := scanEsc_leadingZero hz hesc
      rw [scanStrBody_escape hroom hhead, hzero]
      exact (prefix_scanStrBody _ _).1
    · exact hz.elim
  · obtain ⟨l', hscan, -⟩ := scanStrBody_kept hroom hv hsep hz hrest
    have hvalue : it.value = 0 := by
      by_contra hne
      exact hlost ⟨hne, hz⟩
    rw [hscan, hv.byte_eq_zero.mpr hvalue]
    exact (prefix_scanStrBody _ _).1

theorem LitItem.Separate.congr {rest' : List Byte} (h : it.Separate rest)
    (hhead : rest'.head? = rest.head?) : it.Separate rest' := by
  cases it with
  | plain b => trivial
  | simple c => trivial
  | octal ds => exact h.imp_right fun hstop b hb => hstop b (hhead ▸ hb)
  | hex ds => exact fun b hb => h b (hhead ▸ hb)

variable {its : List LitItem} {after : List Byte}

theorem head?_literal (its : List LitItem) (after : List Byte) :
    (litText its ++ ch '"' :: after).head? = (litText its ++ [ch '"']).head? := by
  cases litText its with
  | nil => rfl
  | cons b bs => rfl

theorem scanStrBody_close (hrest : l.rest = ch '"' :: after) :
    scanStrBody buf l = (true, buf, l) := by
  rw [scanStrBody, dif_neg fun h => h.2 (peekc_of_rest hrest).1]

/-- A literal whose items are kept and fit the buffer is scanned for what it is. -/
theorem scanStrBody_literal (hwf : WellFormed its) (hkept : ∀ it ∈ its, ¬it.LeadingZero)
    (hroom : buf.length + its.length ≤ 4095) (hrest : l.rest = litText its ++ ch '"' :: after) :
    ∃ l', scanStrBody buf l = (true, buf ++ litBytes its, l') ∧ l'.rest = ch '"' :: after := by
  induction its generalizing buf l with
  | nil => exact ⟨l, by rw [scanStrBody_close hrest, litBytes, List.map_nil, List.append_nil], hrest⟩
  | cons it its ih =>
    obtain ⟨hv, hsep, hwf⟩ := hwf
    obtain ⟨hz, hkept⟩ := List.forall_mem_cons.mp hkept
    rw [List.length_cons] at hroom
    have hrest' : l.rest = it.text ++ (litText its ++ ch '"' :: after) := by
      rw [hrest, litText, List.flatMap_cons, List.append_assoc, litText]
    have hlt : buf.length < 4095 := by omega
    obtain ⟨l₁, hscan, hafter⟩ :=
      scanStrBody_kept hlt hv (hsep.congr (head?_literal its after)) hz hrest'
    have hroom' : (buf ++ [it.byte]).length + its.length ≤ 4095 := by
      rw [List.length_append, List.length_singleton]
      omega
    obtain ⟨l₂, hscan', hafter'⟩ := ih hwf hkept hroom' hafter
    refine ⟨l₂, ?_, hafter'⟩
    rw [hscan, hscan', litBytes, litBytes, List.map_cons, List.append_assoc]
    rfl

/-- The part of the buffer that a C string shows. -/
def cBytes (buf : List Byte) : List Byte := buf.takeWhile (· ≠ 0)

theorem cBytes_eq_self (h : ∀ b ∈ buf, b ≠ 0) : cBytes buf = buf := by
  have hall : ∀ b ∈ buf, decide (b ≠ 0) = true := by simpa using h
  have htake : (buf ++ []).takeWhile (fun b => decide (b ≠ 0)) = buf ++ [] :=
    List.takeWhile_append_of_pos hall
  rwa [List.append_nil] at htake

theorem cBytes_of_zero {buf' : List Byte} (h : ∀ b ∈ buf, b ≠ 0) (hpre : buf ++ [0] <+: buf') :
    cBytes buf' = buf := by
  obtain ⟨more, rfl⟩ := hpre
  have hall : ∀ b ∈ buf, decide (b ≠ 0) = true := by simpa using h
  rw [cBytes, List.append_assoc, List.takeWhile_append_of_pos hall]
  simp

theorem length_cBytes_le (buf : List Byte) : (cBytes buf).length ≤ buf.length :=
  (List.takeWhile_prefix _).length_le

/-- Where an item is lost, the C string is too short. -/
theorem length_cBytes_lost (hwf : WellFormed its) (hlost : ∃ it ∈ its, ¬it.Kept)
    (hroom : buf.length + its.length ≤ 4095) (hbuf : ∀ b ∈ buf, b ≠ 0)
    (hrest : l.rest = litText its ++ ch '"' :: after) :
    (cBytes (scanStrBody buf l).2.1).length < buf.length + its.length := by
  induction its generalizing buf l with
  | nil => simp at hlost
  | cons it its ih =>
    obtain ⟨hv, hsep, hwf⟩ := hwf
    rw [List.length_cons] at hroom ⊢
    have hrest' : l.rest = it.text ++ (litText its ++ ch '"' :: after) := by
      rw [hrest, litText, List.flatMap_cons, List.append_assoc, litText]
    have hsep' := hsep.congr (head?_literal its after)
    have hfree : buf.length < 4095 := by omega
    by_cases hk : it.Kept
    · obtain ⟨l', hscan, hafter⟩ := scanStrBody_kept hfree hv hsep' hk.2 hrest'
      have hlost' : ∃ it ∈ its, ¬it.Kept := by
        obtain ⟨it', hmem, hnot⟩ := hlost
        rcases List.mem_cons.mp hmem with rfl | hmem
        · exact absurd hk hnot
        · exact ⟨it', hmem, hnot⟩
      have hnz : it.byte ≠ 0 := fun h => hk.1 (hv.byte_eq_zero.mp h)
      have hroom' : (buf ++ [it.byte]).length + its.length ≤ 4095 := by
        rw [List.length_append, List.length_singleton]
        omega
      have hlt := ih hwf hlost' hroom' (by simpa [or_imp, forall_and] using ⟨hbuf, hnz⟩) hafter
      rw [List.length_append, List.length_singleton] at hlt
      rw [hscan]
      omega
    · rw [cBytes_of_zero hbuf (scanStrBody_lost hfree hv hsep' hk hrest')]
      omega

end Scan

end TinyC

import Mathlib.Data.List.Basic
import Mathlib.Data.List.GetD
import Mathlib.Data.List.TakeWhile
import Mathlib.Logic.Function.Basic

/-!
# A buffer of bounded size

Strings are appended at a position of a buffer. One that does not fit before the last byte is left
out, and puts the position there, so that nothing is appended after it.
-/

namespace BoundedBuffer

variable {α : Type} [Zero α]

/-- Memory from the start of the buffer on, and the position. -/
structure Buffer (α : Type) where
  bytes : ℕ → α
  pos : ℕ

def append (size : ℕ) (b : Buffer α) (s : List α) : Buffer α :=
  if b.pos + s.length < size then
    { bytes := fun i => if b.pos ≤ i ∧ i < b.pos + s.length then s.getD (i - b.pos) 0 else b.bytes i
      pos := b.pos + s.length }
  else if b.pos < size - 1 then { b with pos := size - 1 }
  else b

/-- Where the strings end that fit one after the other. -/
def wholeLength (size : ℕ) : ℕ → List (List α) → ℕ
  | pos, [] => pos
  | pos, s :: rest =>
      if pos + s.length < size then wholeLength size (pos + s.length) rest else pos

variable {size pos i : ℕ} {b : Buffer α} {s : List α} {pieces : List (List α)} {f : ℕ → α}

omit [Zero α] in
theorem le_wholeLength : pos ≤ wholeLength size pos pieces := by
  induction pieces generalizing pos with
  | nil => exact le_rfl
  | cons s rest ih =>
    rw [wholeLength]
    split
    · exact (Nat.le_add_right _ _).trans ih
    · exact le_rfl

omit [Zero α] in
theorem wholeLength_lt (h : pos < size) : wholeLength size pos pieces < size := by
  induction pieces generalizing pos with
  | nil => exact h
  | cons s rest ih =>
    rw [wholeLength]
    split
    · exact ih ‹_›
    · exact h

omit [Zero α] in
omit [Zero α] in
theorem wholeLength_eq (h : pos + pieces.flatten.length < size) :
    wholeLength size pos pieces = pos + pieces.flatten.length := by
  induction pieces generalizing pos with
  | nil => simp [wholeLength]
  | cons s rest ih =>
    rw [List.flatten_cons, List.length_append] at h ⊢
    rw [wholeLength, if_pos (by omega), ih (by omega)]
    omega

/-- At the last byte nothing is appended any more. -/
theorem foldl_append_full (h : b.pos = size - 1) (hsize : 0 < size) :
    pieces.foldl (append size) b = b := by
  induction pieces with
  | nil => rfl
  | cons s rest ih =>
    have hstep : append size b s = b := by
      unfold append
      split
      · have hempty : s = [] := List.length_eq_zero_iff.mp (by omega)
        subst hempty
        obtain ⟨bytes, p⟩ := b
        have hbytes : (fun i => if p ≤ i ∧ i < p + ([] : List α).length then
            ([] : List α).getD (i - p) 0 else bytes i) = bytes := by
          funext i
          apply if_neg
          rw [List.length_nil]
          omega
        exact congrArg₂ Buffer.mk hbytes rfl
      · rw [if_neg (by omega)]
    rw [List.foldl_cons, hstep, ih]

/-- The strings that fit are in the buffer, and what they do not cover is as it was. -/
theorem foldl_append_bytes (h : b.pos < size) :
    (pieces.foldl (append size) b).bytes i =
      if b.pos ≤ i ∧ i < wholeLength size b.pos pieces then pieces.flatten.getD (i - b.pos) 0
      else b.bytes i := by
  induction pieces generalizing b with
  | nil =>
    rw [wholeLength, if_neg (by omega)]
    rfl
  | cons s rest ih =>
    rw [List.foldl_cons, wholeLength, List.flatten_cons]
    by_cases hfit : b.pos + s.length < size
    · have hstep : (append size b s).pos = b.pos + s.length := by rw [append, if_pos hfit]
      have hbytes : (append size b s).bytes i =
          if b.pos ≤ i ∧ i < b.pos + s.length then s.getD (i - b.pos) 0 else b.bytes i := by
        rw [append, if_pos hfit]
      have hle : b.pos + s.length ≤ wholeLength size (b.pos + s.length) rest := le_wholeLength
      rw [ih (by rw [hstep]; exact hfit), hstep, hbytes, if_pos hfit]
      by_cases hlow : b.pos + s.length ≤ i
      · have hshift : i - b.pos - s.length = i - (b.pos + s.length) := by omega
        rw [List.getD_append_right _ _ _ _ (by omega), hshift]
        by_cases hin : i < wholeLength size (b.pos + s.length) rest
        · rw [if_pos ⟨hlow, hin⟩, if_pos ⟨by omega, hin⟩]
        · rw [if_neg (by omega), if_neg (by omega), if_neg (by omega)]
      · rw [if_neg (by omega)]
        by_cases hin : b.pos ≤ i
        · rw [if_pos ⟨hin, by omega⟩, if_pos ⟨hin, by omega⟩,
            List.getD_append _ _ _ _ (by omega)]
        · rw [if_neg (by omega), if_neg (by omega)]
    · rw [if_neg hfit, if_neg (by omega)]
      by_cases hlast : b.pos < size - 1
      · rw [append, if_neg hfit, if_pos hlast, foldl_append_full rfl (by omega)]
      · rw [append, if_neg hfit, if_neg hlast, foldl_append_full (by omega) (by omega)]

theorem foldl_append_pos (h : b.pos < size) : (pieces.foldl (append size) b).pos =
    if b.pos + pieces.flatten.length < size then b.pos + pieces.flatten.length else size - 1 := by
  induction pieces generalizing b with
  | nil =>
    rw [List.foldl_nil, List.flatten_nil, List.length_nil, Nat.add_zero, if_pos h]
  | cons s rest ih =>
    rw [List.foldl_cons, List.flatten_cons, List.length_append]
    by_cases hfit : b.pos + s.length < size
    · have hstep : (append size b s).pos = b.pos + s.length := by rw [append, if_pos hfit]
      rw [ih (by rw [hstep]; exact hfit), hstep, Nat.add_assoc]
    · rw [if_neg (by omega), append, if_neg hfit]
      split
      · rw [foldl_append_full rfl (by omega)]
      · rw [foldl_append_full (by omega) (by omega)]
        omega

/-! ### The string in a buffer -/

variable [DecidableEq α]

/-- The string before the first zero. -/
def text (size : ℕ) (f : ℕ → α) : List α := ((List.range size).map f).takeWhile (· ≠ 0)

theorem text_succ : text (size + 1) f =
    if f 0 ≠ 0 then f 0 :: text size (fun i => f (i + 1)) else [] := by
  rw [text, List.range_succ_eq_map, List.map_cons, List.map_map, List.takeWhile_cons]
  by_cases h : f 0 = 0
  · simp [h]
  · simp only [h, ne_eq, not_false_eq_true, decide_true, if_true]
    rfl

/-- A string with a zero behind it. -/
theorem text_eq_iff {s : List α} (hs : ∀ c ∈ s, c ≠ 0) (hlen : s.length < size)
    (hend : f s.length = 0) : text size f = s ↔ ∀ i < s.length, f i = s.getD i 0 := by
  induction s generalizing f size with
  | nil =>
    cases size with
    | zero => exact absurd hlen (Nat.not_lt_zero _)
    | succ size =>
      have h0 : f 0 = 0 := hend
      rw [text_succ, if_neg (by simp [h0])]
      simp
  | cons c s ih =>
    cases size with
    | zero => exact absurd hlen (Nat.not_lt_zero _)
    | succ size =>
      have hc := hs c List.mem_cons_self
      have hrest : text size (fun i => f (i + 1)) = s ↔ ∀ i < s.length, f (i + 1) = s.getD i 0 :=
        ih (fun d hd => hs d (List.mem_cons_of_mem c hd)) (Nat.lt_of_succ_lt_succ hlen) hend
      rw [text_succ]
      constructor
      · intro h
        split at h
        · obtain ⟨h0, h1⟩ := List.cons.inj h
          intro i hi
          cases i with
          | zero => exact h0
          | succ i => exact hrest.mp h1 i (Nat.lt_of_succ_lt_succ hi)
        · cases h
      · intro h
        have h0 : f 0 = c := h 0 (Nat.succ_pos _)
        rw [if_pos (h0 ▸ hc), h0, hrest.mpr fun i hi => h (i + 1) (Nat.succ_lt_succ hi)]

end BoundedBuffer

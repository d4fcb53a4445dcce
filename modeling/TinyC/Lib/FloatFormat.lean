import Mathlib.Data.BitVec

/-!
# Double to single precision

The conversion of an IEEE double to the nearest IEEE single on bit patterns, ties to even.
-/

namespace FloatFormat

/-- `x / 2 ^ k` rounded to nearest, ties to even. -/
def roundShift (x k : ℕ) : ℕ :=
  let q := x / 2 ^ k
  let r := x % 2 ^ k
  if 2 * r > 2 ^ k ∨ (2 * r = 2 ^ k ∧ q % 2 = 1) then q + 1 else q

def singleOfDouble (d : BitVec 64) : BitVec 32 :=
  let sign := d.toNat / 2 ^ 63
  let e := d.toNat / 2 ^ 52 % 2 ^ 11
  let m := d.toNat % 2 ^ 52
  let magnitude :=
    if e = 2047 then
      -- an infinity stays one, a NaN keeps its leading payload and becomes quiet
      255 * 2 ^ 23 + if m = 0 then 0 else 2 ^ 22 ||| m / 2 ^ 29
    else if e ≥ 1151 then 255 * 2 ^ 23
    else if e ≥ 897 then (e - 897) * 2 ^ 23 + roundShift (2 ^ 52 + m) 29
    else roundShift (2 ^ 52 + m) (29 + (897 - e))
  BitVec.ofNat 32 (sign * 2 ^ 31 + magnitude)

example : singleOfDouble 0x3ff0000000000000#64 = 0x3f800000#32 := by decide +kernel
example : singleOfDouble 0xbfb999999999999a#64 = 0xbdcccccd#32 := by decide +kernel

end FloatFormat

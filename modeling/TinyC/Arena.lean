import TinyC.Lib.Rounding
import Mathlib.Data.List.Basic
import Mathlib.Data.List.TakeDrop
import Mathlib.Tactic.IntervalCases

/-!
# The arena

`arena.c`: a chain of pages, of which the last is filled. A page is the block that one call of
`malloc` returns, with the `Arena` at its start, and a pointer into a page is the page and an offset
from its `base`.
-/

namespace TinyC

abbrev SizeT := BitVec 64

def sizeMax : SizeT := BitVec.allOnes 64

/-- `ARENA_DEFAULT_CAP`. -/
def arenaDefaultCap : SizeT := 64 * 1024

/-- `sizeof(Arena)`. -/
def arenaHeader : SizeT := 32

/-- An `Arena` without its link. -/
structure ArenaPage where
  /-- Stands for the address: the call of `malloc` that has returned the page. -/
  base : ℕ
  used : SizeT
  cap : SizeT
  deriving DecidableEq, Repr

structure Arena where
  page : ArenaPage
  next : List ArenaPage
  deriving DecidableEq, Repr

structure ArenaPtr where
  page : ℕ
  off : SizeT
  deriving DecidableEq, Repr

/-- Whether `malloc` has that many bytes, after the calls of it so far. -/
abbrev Malloc := List SizeT → SizeT → Bool

/-- `malloc` and the test of its result; `exit(1)` is `none`. -/
def mallocOrExit (malloc : Malloc) (bytes : SizeT) (calls : List SizeT) :
    Option (ℕ × List SizeT) :=
  if malloc calls bytes then some (calls.length, calls ++ [bytes]) else none

/-- `align_up`. -/
def alignUpSize (n align : SizeT) : SizeT := (n + align - 1) &&& ~~~(align - 1)

namespace Arena

def pages (a : Arena) : List ArenaPage := a.page :: a.next

/-- The page that is filled. -/
def last (a : Arena) : ArenaPage := a.pages.getLast (List.cons_ne_nil _ _)

end Arena

def arenaCreate (malloc : Malloc) (initialCap : SizeT) (calls : List SizeT) :
    Option (Arena × List SizeT) := do
  let initialCap := if initialCap = 0 then arenaDefaultCap else initialCap
  let (base, calls) ← mallocOrExit malloc (arenaHeader + initialCap) calls
  some (⟨⟨base, 0, initialCap⟩, []⟩, calls)

/-- The `cap` of a page for this block. -/
def newPageCap (size align : SizeT) : SizeT :=
  if arenaDefaultCap < size + align then size + align else arenaDefaultCap

/-- `arena_alloc` from the last page on. -/
def pageAlloc (malloc : Malloc) (cur : ArenaPage) (size align : SizeT) (calls : List SizeT) :
    Option (Option ArenaPtr × Arena × List SizeT) :=
  let offset := alignUpSize cur.used align
  if sizeMax - size < offset then some (none, ⟨cur, []⟩, calls)
  else if offset + size ≤ cur.cap then
    some (some ⟨cur.base, offset⟩, ⟨{ cur with used := offset + size }, []⟩, calls)
  else if sizeMax - align < size then some (none, ⟨cur, []⟩, calls)
  else do
    let newCap := newPageCap size align
    let (base, calls) ← mallocOrExit malloc (arenaHeader + newCap) calls
    let offset := alignUpSize 0 align
    some (some ⟨base, offset⟩, ⟨cur, [⟨base, offset + size, newCap⟩]⟩, calls)

/-- The walk to the last page. -/
def chainAlloc (malloc : Malloc) (size align : SizeT) (calls : List SizeT) (cur : ArenaPage) :
    List ArenaPage → Option (Option ArenaPtr × Arena × List SizeT)
  | [] => pageAlloc malloc cur size align calls
  | p :: next => do
      let (r, a, calls) ← chainAlloc malloc size align calls p next
      some (r, ⟨cur, a.pages⟩, calls)

def arenaAlloc (malloc : Malloc) (a : Arena) (size align : SizeT) (calls : List SizeT) :
    Option (Option ArenaPtr × Arena × List SizeT) :=
  chainAlloc malloc size align calls a.page a.next

def arenaReset (a : Arena) : Arena := ⟨{ a.page with used := 0 }, []⟩

/-! ### Runs -/

/-- What `arena_alloc` has returned. -/
structure ArenaBlock where
  page : ℕ
  off : ℕ
  size : ℕ
  align : ℕ
  deriving DecidableEq, Repr

/-- No byte is in both. -/
def ArenaBlock.Apart (b c : ArenaBlock) : Prop :=
  b.page ≠ c.page ∨ b.off + b.size ≤ c.off ∨ c.off + c.size ≤ b.off

inductive ArenaCall where
  | alloc (size align : SizeT)
  | reset
  deriving DecidableEq, Repr

structure ArenaState where
  arena : Arena
  /-- What `malloc` has been called for. -/
  calls : List SizeT
  /-- A history variable, which nothing reads: the blocks since the last reset. -/
  blocks : List ArenaBlock := []
  deriving DecidableEq, Repr

namespace ArenaState

def alloc (malloc : Malloc) (s : ArenaState) (size align : SizeT) :
    Option (Option ArenaPtr × ArenaState) := do
  let (r, arena, calls) ← arenaAlloc malloc s.arena size align s.calls
  let blocks := match r with
    | some p => ⟨p.page, p.off.toNat, size.toNat, align.toNat⟩ :: s.blocks
    | none => s.blocks
  some (r, ⟨arena, calls, blocks⟩)

def step (malloc : Malloc) (s : ArenaState) : ArenaCall → Option ArenaState
  | .alloc size align => (s.alloc malloc size align).map Prod.snd
  | .reset => some ⟨arenaReset s.arena, s.calls, []⟩

/-- A new arena and the calls in turn. -/
def run (malloc : Malloc) (initialCap : SizeT) (ops : List ArenaCall) : Option ArenaState := do
  let (arena, calls) ← arenaCreate malloc initialCap []
  ops.foldlM (step malloc) ⟨arena, calls, []⟩

/-- The blocks lie in the pages, and the pages in what `malloc` has been asked for. -/
structure Sound (s : ArenaState) : Prop where
  used_le : ∀ p ∈ s.arena.pages, p.used ≤ p.cap
  backed : ∀ p ∈ s.arena.pages, ∃ bytes, s.calls[p.base]? = some bytes ∧
    bytes.toNat = arenaHeader.toNat + p.cap.toNat
  inside : ∀ b ∈ s.blocks, ∃ p ∈ s.arena.pages, p.base = b.page ∧ b.off + b.size ≤ p.cap.toNat
  aligned : ∀ b ∈ s.blocks, b.align ∣ b.off
  apart : s.blocks.Pairwise ArenaBlock.Apart

end ArenaState

/-- A power of two up to 16. -/
def IsAlign (align : SizeT) : Prop := ∃ k ≤ 4, align.toNat = 2 ^ k

/-! ### One page -/

variable {malloc : Malloc} {cur : ArenaPage} {size align : SizeT} {calls calls' : List SizeT}

/-- The block does not fit, and the guards let it pass. -/
def NeedsPage (cur : ArenaPage) (size align : SizeT) : Prop :=
  alignUpSize cur.used align ≤ sizeMax - size ∧ cur.cap < alignUpSize cur.used align + size ∧
    size ≤ sizeMax - align

theorem mallocOrExit_eq {bytes : SizeT} {base : ℕ}
    (h : mallocOrExit malloc bytes calls = some (base, calls')) :
    base = calls.length ∧ calls' = calls ++ [bytes] ∧ malloc calls bytes := by
  rw [mallocOrExit] at h
  split at h
  · rename_i hgranted
    cases h
    exact ⟨rfl, rfl, hgranted⟩
  · cases h

theorem IsAlign.le (ha : IsAlign align) : align.toNat ≤ 16 := by
  obtain ⟨k, hk, hpow⟩ := ha
  exact hpow ▸ Nat.pow_le_pow_right (by decide) hk

theorem alignUpSize_spec {n : SizeT} (ha : IsAlign align) (hn : n.toNat + 16 ≤ 2 ^ 64) :
    align.toNat ∣ (alignUpSize n align).toNat ∧ n.toNat ≤ (alignUpSize n align).toNat ∧
      (alignUpSize n align).toNat < n.toNat + align.toNat := by
  have hle := ha.le
  obtain ⟨k, hk, hpow⟩ := ha
  have hpos : 0 < align.toNat := hpow ▸ Nat.two_pow_pos k
  have heq : ((alignUpSize n align).toNat : ℤ) = Rounding.up n.toNat align.toNat :=
    Rounding.toNat_add_and_not hpow (by omega)
  have hdvd := Rounding.dvd_up (n.toNat : ℤ) align.toNat
  have hup := Rounding.le_up (Int.natCast_pos.mpr hpos) (n.toNat : ℤ)
  have hlt := Rounding.up_lt (Int.natCast_pos.mpr hpos) (n.toNat : ℤ)
  rw [← heq] at hdvd hup hlt
  exact ⟨Int.natCast_dvd_natCast.mp hdvd, Int.ofNat_le.mp hup, by omega⟩

theorem alignUpSize_zero (ha : IsAlign align) : alignUpSize 0 align = 0 := by
  obtain ⟨k, hk, hpow⟩ := ha
  have hcases : align = BitVec.ofNat 64 (2 ^ k) := by
    rw [← hpow, BitVec.ofNat_toNat, BitVec.setWidth_eq]
  rw [hcases]
  interval_cases k <;> rfl

theorem toNat_newPageCap (h : size.toNat + align.toNat < 2 ^ 64) :
    (newPageCap size align).toNat = max (64 * 1024) (size.toNat + align.toNat) := by
  have hsum : (size + align).toNat = size.toNat + align.toNat := by
    rw [BitVec.toNat_add, Nat.mod_eq_of_lt h]
  have hdefault : arenaDefaultCap.toNat = 64 * 1024 := rfl
  rw [newPageCap]
  split
  · rename_i hlt
    rw [BitVec.lt_def] at hlt
    omega
  · rename_i hge
    rw [BitVec.lt_def] at hge
    omega

theorem toNat_sizeMax_sub (n : SizeT) : (sizeMax - n).toNat = 2 ^ 64 - 1 - n.toNat := by
  have hmax : sizeMax.toNat = 2 ^ 64 - 1 := rfl
  have hn := n.isLt
  rw [BitVec.toNat_sub_of_le (BitVec.le_def.mpr (by omega)), hmax]

/-- A block that needs a page is at its start. -/
theorem pageAlloc_new (ha : IsAlign align) (h : NeedsPage cur size align) :
    pageAlloc malloc cur size align calls =
      (mallocOrExit malloc (arenaHeader + newPageCap size align) calls).map fun (base, calls) =>
        (some ⟨base, 0⟩, ⟨cur, [⟨base, size, newPageCap size align⟩]⟩, calls) := by
  obtain ⟨hoff, hfull, halign⟩ := h
  rw [pageAlloc, if_neg (BitVec.not_lt.mpr hoff), if_neg (BitVec.not_le.mpr hfull),
    if_neg (BitVec.not_lt.mpr halign), alignUpSize_zero ha]
  cases hcall : mallocOrExit malloc (arenaHeader + newPageCap size align) calls with
  | none => simp [hcall]
  | some v => simp [hcall]

/-- What `arena_alloc` does to the last page. -/
theorem pageAlloc_cases {r : Option ArenaPtr} {a : Arena} (ha : IsAlign align)
    (hcap : cur.cap.toNat + 32 < 2 ^ 64) (hused : cur.used ≤ cur.cap)
    (h : pageAlloc malloc cur size align calls = some (r, a, calls')) :
    (r = none ∧ a.pages = [cur] ∧ calls' = calls) ∨
      (∃ off, cur.used.toNat ≤ off.toNat ∧ off.toNat + size.toNat ≤ cur.cap.toNat ∧
        align.toNat ∣ off.toNat ∧ r = some ⟨cur.base, off⟩ ∧
        a.pages = [{ cur with used := off + size }] ∧ calls' = calls) ∨
      (NeedsPage cur size align ∧ r = some ⟨calls.length, 0⟩ ∧
        a.pages = [cur, ⟨calls.length, size, newPageCap size align⟩] ∧
        calls' = calls ++ [arenaHeader + newPageCap size align] ∧
        malloc calls (arenaHeader + newPageCap size align)) := by
  rw [BitVec.le_def] at hused
  obtain ⟨hdvd, hle, -⟩ := alignUpSize_spec (n := cur.used) ha (by omega)
  by_cases hneeds : NeedsPage cur size align
  · rw [pageAlloc_new ha hneeds] at h
    obtain ⟨⟨base, more⟩, hcall, heq⟩ := Option.map_eq_some_iff.mp h
    obtain ⟨rfl, rfl, hgranted⟩ := mallocOrExit_eq hcall
    cases heq
    exact .inr (.inr ⟨hneeds, rfl, rfl, rfl, hgranted⟩)
  · rw [pageAlloc] at h
    split at h
    · cases h
      exact .inl ⟨rfl, rfl, rfl⟩
    · rename_i hoff
      split at h
      · rename_i hfit
        cases h
        rw [BitVec.not_lt, BitVec.le_def, toNat_sizeMax_sub] at hoff
        rw [BitVec.le_def, BitVec.toNat_add, Nat.mod_eq_of_lt (by omega)] at hfit
        exact .inr (.inl ⟨_, hle, hfit, hdvd, rfl, rfl, rfl⟩)
      · rename_i hfull
        split at h
        · cases h
          exact .inl ⟨rfl, rfl, rfl⟩
        · rename_i halign
          exact absurd ⟨BitVec.not_lt.mp hoff, BitVec.not_le.mp hfull, BitVec.not_lt.mp halign⟩
            hneeds

/-- Blocks of ordinary sizes are not refused. -/
theorem pageAlloc_ne_none {a : Arena} (ha : IsAlign align)
    (hfit : cur.used.toNat + size.toNat + 32 < 2 ^ 64) :
    pageAlloc malloc cur size align calls ≠ some (none, a, calls') := by
  have hle := ha.le
  obtain ⟨-, -, hlt⟩ := alignUpSize_spec (n := cur.used) ha (by omega)
  intro h
  rw [pageAlloc, if_neg (by rw [BitVec.lt_def, toNat_sizeMax_sub]; omega)] at h
  split at h
  · cases h
  · rw [if_neg (by rw [BitVec.lt_def, toNat_sizeMax_sub]; omega)] at h
    obtain ⟨⟨base, more⟩, -, heq⟩ := Option.bind_eq_some_iff.mp h
    cases heq

/-! ### The chain -/

/-- The pages before the last stay as they are. -/
theorem arenaAlloc_eq {a a' : Arena} {r : Option ArenaPtr} :
    arenaAlloc malloc a size align calls = some (r, a', calls') ↔
      ∃ b, pageAlloc malloc a.last size align calls = some (r, b, calls') ∧
        a'.pages = a.pages.dropLast ++ b.pages := by
  obtain ⟨cur, next⟩ := a
  induction next generalizing cur a' with
  | nil =>
    constructor
    · intro h
      exact ⟨a', h, rfl⟩
    · rintro ⟨b, hb, hpages⟩
      have heq : a' = b := by
        obtain ⟨p, ps⟩ := a'
        obtain ⟨q, qs⟩ := b
        obtain ⟨rfl, rfl⟩ := List.cons.inj hpages
        rfl
      exact heq ▸ hb
  | cons p next ih =>
    have hlast : Arena.last ⟨cur, p :: next⟩ = Arena.last ⟨p, next⟩ := rfl
    have hdrop : (Arena.pages ⟨cur, p :: next⟩).dropLast =
        cur :: (Arena.pages ⟨p, next⟩).dropLast := rfl
    rw [hlast, hdrop]
    constructor
    · intro h
      obtain ⟨⟨r', b, calls''⟩, hrest, heq⟩ := Option.bind_eq_some_iff.mp h
      cases heq
      obtain ⟨c, hc, hpages⟩ := (ih p).mp hrest
      exact ⟨c, hc, congrArg (cur :: ·) hpages⟩
    · rintro ⟨c, hc, hpages⟩
      obtain ⟨q, qs⟩ := a'
      obtain ⟨rfl, hqs⟩ := List.cons.inj hpages
      cases qs with
      | nil =>
        have hne : c.pages ≠ [] := List.cons_ne_nil _ _
        exact absurd (List.append_eq_nil_iff.mp hqs.symm).2 hne
      | cons q' qs' =>
        have hrest : arenaAlloc malloc ⟨p, next⟩ size align calls = some (r, ⟨q', qs'⟩, calls') :=
          (ih p).mpr ⟨c, hc, hqs⟩
        exact Option.bind_eq_some_iff.mpr ⟨_, hrest, rfl⟩

theorem pages_eq (a : Arena) : a.pages = a.pages.dropLast ++ [a.last] :=
  (List.dropLast_append_getLast _).symm

end TinyC

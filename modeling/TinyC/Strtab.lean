import TinyC.ArenaRuns
import TinyC.Lexer
import TinyC.Lib.Interner

/-!
# The string table in memory

`strtab.c`: three arrays that grow together, a search that compares hashes first, and the strings
themselves in blocks of the arena.
-/

namespace TinyC

/-- How a call does not return. -/
inductive Halt where
  | exit
  /-- A null pointer or a place outside of an array is used. -/
  | crash
  deriving DecidableEq, Repr

theorem Halt.bind_ok {α β : Type} {m : Except Halt α} {k : α → Except Halt β} {b : β}
    (h : (m >>= k) = .ok b) : ∃ a, m = .ok a ∧ k a = .ok b := by
  cases m with
  | error e => cases h
  | ok a => exact ⟨a, rfl, h⟩

theorem Halt.bind_crash {α β : Type} {m : Except Halt α} {k : α → Except Halt β}
    (h : (m >>= k) = .error .crash) :
    m = .error .crash ∨ ∃ a, m = .ok a ∧ k a = .error .crash := by
  cases m with
  | error e =>
    cases h
    exact .inl rfl
  | ok a => exact .inr ⟨a, rfl, h⟩

/-- What the pages hold at the offsets from their bases. -/
abbrev ArenaMem := ℕ → ℕ → Byte

def bytesAt (mem : ArenaMem) (p : ArenaPtr) (n : ℕ) : List Byte :=
  (List.range n).map fun i => mem p.page (p.off.toNat + i)

/-- `memcpy`. -/
def writeAt (mem : ArenaMem) (p : ArenaPtr) (data : List Byte) : ArenaMem := fun page off =>
  if page = p.page ∧ p.off.toNat ≤ off ∧ off < p.off.toNat + data.length then
    data.getD (off - p.off.toNat) 0
  else mem page off

def arenaStrdup (malloc : Malloc) (arena : ArenaState) (mem : ArenaMem) (s : List Byte) :
    Except Halt (ArenaPtr × ArenaState × ArenaMem) :=
  match arena.alloc malloc (BitVec.ofNat 64 s.length + 1) 1 with
  | none => .error .exit
  | some (none, _) => .error .crash
  | some (some dup, arena) => .ok (dup, arena, writeAt mem dup (s ++ [0]))

/-- A `StringTable`; the arrays have `cap` entries. -/
structure Strtab where
  entries : ℤ → Option ArenaPtr := fun _ => none
  lengths : ℤ → ℤ := fun _ => 0
  hashes : ℤ → BitVec 32 := fun _ => 0
  count : ℤ := 0
  cap : ℤ

def fnv1a (s : List Byte) : BitVec 32 :=
  s.foldl (fun h c => (h ^^^ c.setWidth 32) * 16777619) 2166136261

/-- `calloc` or `realloc` of `n` elements. -/
def arrayOrExit (malloc : Malloc) (n : ℤ) (width : SizeT) (calls : List SizeT) :
    Except Halt (List SizeT) :=
  match mallocOrExit malloc (BitVec.ofInt 64 n * width) calls with
  | none => .error .exit
  | some (_, calls) => .ok calls

/-- The arrays `entries`, `lengths` and `hashes`. -/
def arraysOrExit (malloc : Malloc) (n : ℤ) (calls : List SizeT) : Except Halt (List SizeT) := do
  let calls ← arrayOrExit malloc n 8 calls
  let calls ← arrayOrExit malloc n 4 calls
  arrayOrExit malloc n 4 calls

def strtabInit (malloc : Malloc) (calls : List SizeT) : Except Halt (Strtab × List SizeT) := do
  let calls ← arraysOrExit malloc 256 calls
  .ok ({ cap := 256 }, calls)

/-- The test in the loop of `find_slot`. -/
def slotMatches (st : Strtab) (mem : ArenaMem) (s : List Byte) (h : BitVec 32) (i : ℤ) : Bool :=
  st.hashes i = h ∧ st.lengths i = s.length ∧
    ((st.entries i).any fun p => bytesAt mem p s.length = s)

/-- The loop of `find_slot`, with `n` turns to go. -/
def findFrom (st : Strtab) (mem : ArenaMem) (s : List Byte) (h : BitVec 32) : ℕ → ℤ → ℤ
  | 0, _ => -1
  | n + 1, i => if slotMatches st mem s h i then i else findFrom st mem s h n (i + 1)

def findSlot (st : Strtab) (mem : ArenaMem) (s : List Byte) (h : BitVec 32) : ℤ :=
  findFrom st mem s h st.count.toNat 0

def growIfNeeded (malloc : Malloc) (st : Strtab) (calls : List SizeT) :
    Except Halt (Strtab × List SizeT) :=
  if st.count < st.cap then .ok (st, calls)
  else do
    let newCap := toInt32 (st.cap * 2)
    let calls ← arraysOrExit malloc newCap calls
    .ok ({ st with cap := newCap }, calls)

/-- What the calls have access to. -/
structure StrtabState where
  arena : ArenaState
  mem : ArenaMem
  table : Strtab

/-- `strtab_intern`. -/
def internBytes (malloc : Malloc) (t : StrtabState) (s : List Byte) :
    Except Halt (ℤ × StrtabState) := do
  let h := fnv1a s
  let existing := findSlot t.table t.mem s h
  if existing ≥ 0 then .ok (existing, t)
  else
    let (table, calls) ← growIfNeeded malloc t.table t.arena.calls
    let idx := table.count
    let (dup, arena, mem) ← arenaStrdup malloc { t.arena with calls := calls } t.mem s
    if 0 ≤ idx ∧ idx < table.cap then
      .ok (idx, ⟨arena, mem, { table with
        entries := Function.update table.entries idx (some dup)
        lengths := Function.update table.lengths idx s.length
        hashes := Function.update table.hashes idx h
        count := table.count + 1 }⟩)
    else .error .crash

/-- `strtab_get`. -/
def entryAt (st : Strtab) (idx : ℤ) : Option ArenaPtr :=
  if idx < 0 ∨ idx ≥ st.count then none else st.entries idx

/-- `strtab_len`. -/
def lengthAt (st : Strtab) (idx : ℤ) : ℤ := if idx < 0 ∨ idx ≥ st.count then 0 else st.lengths idx

/-! ### Runs -/

inductive StrtabCall where
  | intern (s : List Byte)
  /-- Another block of the arena, and what is written into it. -/
  | other (size align : SizeT) (data : List Byte)

/-- What a call of `strtab_intern` has returned, and `strtab_get` from then on. -/
structure Interned where
  bytes : List Byte
  idx : ℤ
  ptr : Option ArenaPtr

namespace StrtabState

/-- A block for something else. -/
def other (malloc : Malloc) (t : StrtabState) (size align : SizeT) (data : List Byte) :
    Except Halt StrtabState :=
  match t.arena.alloc malloc size align with
  | none => .error .exit
  | some (none, arena) => .ok { t with arena := arena }
  | some (some p, arena) =>
      .ok { t with arena := arena, mem := writeAt t.mem p (data.take size.toNat) }

/-- One call, and the results so far. -/
def step (malloc : Malloc) (t : StrtabState × List Interned) :
    StrtabCall → Except Halt (StrtabState × List Interned)
  | .intern s => do
      let (idx, t') ← internBytes malloc t.1 s
      .ok (t', t.2 ++ [⟨s, idx, entryAt t'.table idx⟩])
  | .other size align data => do
      let t' ← other malloc t.1 size align data
      .ok (t', t.2)

/-- A new table, and the calls in turn. -/
def run (malloc : Malloc) (arena : ArenaState) (mem : ArenaMem) (ops : List StrtabCall) :
    Except Halt (StrtabState × List Interned) := do
  let (table, calls) ← strtabInit malloc arena.calls
  ops.foldlM (step malloc) (⟨{ arena with calls := calls }, mem, table⟩, [])

end StrtabState

end TinyC

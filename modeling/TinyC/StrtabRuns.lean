import TinyC.Strtab
import TinyC.StructLayout
import Mathlib.Data.List.Pairwise

/-!
# Interned strings

The table in memory numbers strings as the table of the lexer does, and the blocks of its strings
stay as they were written.
-/

namespace TinyC

/-! ### Bytes in blocks -/

variable {mem : ArenaMem} {p q : ArenaPtr} {data : List Byte} {n : ℕ}

theorem bytesAt_writeAt (mem : ArenaMem) (p : ArenaPtr) (data : List Byte) :
    bytesAt (writeAt mem p data) p data.length = data := by
  apply List.ext_getElem
  · simp [bytesAt]
  · intro i h h'
    simp [bytesAt, writeAt, h']

/-- A write changes nothing in a block apart from it. -/
theorem bytesAt_of_apart {align align' : ℕ}
    (h : ArenaBlock.Apart ⟨p.page, p.off.toNat, n, align⟩
      ⟨q.page, q.off.toNat, data.length, align'⟩) :
    bytesAt (writeAt mem q data) p n = bytesAt mem p n := by
  apply List.map_congr_left
  intro i hi
  have hlt := List.mem_range.mp hi
  apply if_neg
  rintro ⟨hpage, hlo, hhi⟩
  rcases h with hne | habove | hbelow
  · exact hne hpage
  · simp only at habove
    omega
  · simp only at hbelow
    omega

theorem bytesAt_take {m : ℕ} (h : m ≤ n) : bytesAt mem p m = (bytesAt mem p n).take m := by
  rw [bytesAt, bytesAt, ← List.map_take, List.take_range, Nat.min_eq_left h]

instance : Std.Symm ArenaBlock.Apart where
  symm b c h := by
    rcases h with hne | habove | hbelow
    · exact .inl hne.symm
    · exact .inr (.inr habove)
    · exact .inr (.inl hbelow)

/-! ### The allocator -/

/-- No object is larger than `PTRDIFF_MAX`. -/
def Limited (malloc : Malloc) : Prop :=
  ∀ calls bytes, malloc calls bytes → bytes.toNat < 2 ^ 63

namespace ArenaState

/-- An arena of ordinary size. -/
structure Usable (s : ArenaState) : Prop extends s.Kept where
  small : ∀ bytes ∈ s.calls, bytes.toNat < 2 ^ 63

variable {malloc : Malloc} {s s' : ArenaState} {size align : SizeT} {r : Option ArenaPtr}

theorem Usable.last_cap (h : s.Usable) : s.arena.last.cap.toNat + 32 < 2 ^ 63 := by
  obtain ⟨bytes, hcall, hbytes⟩ := h.backed s.arena.last (List.getLast_mem _)
  have hlt := h.small bytes (List.mem_of_getElem? hcall)
  have hheader : arenaHeader.toNat = 32 := rfl
  omega

/-- A call for a block of ordinary size returns one, or the program exits. -/
theorem Usable.alloc (hlimit : Limited malloc) (h : s.Usable) (ha : IsAlign align)
    (hsize : size.toNat < 2 ^ 63) (hcall : s.alloc malloc size align = some (r, s')) :
    s'.Usable ∧ ∃ p : ArenaPtr, r = some p ∧
      s'.blocks = ⟨p.page, p.off.toNat, size.toNat, align.toNat⟩ :: s.blocks := by
  have hle := ha.le
  have hcap := h.last_cap
  have hused : s.arena.last.used ≤ s.arena.last.cap := h.used_le _ (List.getLast_mem _)
  have hheader : arenaHeader.toNat = 32 := rfl
  have hfits : s.Fits (.alloc size align) := fun _ => by omega
  have hkept := h.toKept.alloc ha hfits hcall
  obtain ⟨⟨r', arena, calls⟩, halloc, heq⟩ := Option.bind_eq_some_iff.mp hcall
  cases heq
  obtain ⟨b, hpage, -⟩ := arenaAlloc_eq.mp halloc
  have hlast : s.arena.last.used.toNat ≤ s.arena.last.cap.toNat := hused
  rcases pageAlloc_cases ha (by omega) hused hpage with
    ⟨rfl, -, -⟩ | ⟨off, -, -, -, rfl, -, rfl⟩ | ⟨-, rfl, -, rfl, hgranted⟩
  · exact absurd hpage (pageAlloc_ne_none ha (by omega))
  · exact ⟨⟨hkept, h.small⟩, _, rfl, rfl⟩
  · refine ⟨⟨hkept, ?_⟩, _, rfl, rfl⟩
    intro bytes hbytes
    rcases List.mem_append.mp hbytes with hbytes | hbytes
    · exact h.small bytes hbytes
    · rw [List.mem_singleton.mp hbytes]
      exact hlimit _ _ hgranted

theorem Usable.more_calls (h : s.Usable) {more : List SizeT}
    (hmore : ∀ bytes ∈ more, bytes.toNat < 2 ^ 63) :
    Usable { s with calls := s.calls ++ more } where
  toKept := h.toKept.more_calls more
  small bytes hbytes := (List.mem_append.mp hbytes).elim (h.small bytes) (hmore bytes)

/-- A new arena of ordinary size. -/
theorem usable_create (hlimit : Limited malloc) {initialCap : SizeT} {a : Arena}
    {calls : List SizeT} (hsize : arenaHeader.toNat + initialCap.toNat < 2 ^ 64)
    (h : arenaCreate malloc initialCap [] = some (a, calls)) : Usable ⟨a, calls, []⟩ := by
  refine ⟨kept_create hsize h, ?_⟩
  obtain ⟨⟨base, more⟩, hcall, heq⟩ := Option.bind_eq_some_iff.mp h
  obtain ⟨rfl, rfl, hgranted⟩ := mallocOrExit_eq hcall
  cases heq
  intro bytes hbytes
  rw [List.mem_singleton.mp hbytes]
  exact hlimit _ _ hgranted

/-- Two blocks with a common byte are one block. -/
theorem Kept.block_eq (h : s.Kept) {b c : ArenaBlock} (hb : b ∈ s.blocks) (hc : c ∈ s.blocks)
    (hpage : b.page = c.page) (hoff : b.off = c.off) (hbsize : 0 < b.size) (hcsize : 0 < c.size) :
    b = c := by
  by_contra hne
  have hapart : b.Apart c := h.apart.forall hb hc hne
  rcases hapart with hpage' | habove | hbelow
  · exact hpage' hpage
  · omega
  · omega

end ArenaState

/-! ### The arrays -/

variable {malloc : Malloc} {k : ℤ} {calls calls' : List SizeT} {arena : ArenaState}

theorem arrayOrExit_ok {width : SizeT} (h : arrayOrExit malloc k width calls = .ok calls') :
    calls' = calls ++ [BitVec.ofInt 64 k * width] ∧
      malloc calls (BitVec.ofInt 64 k * width) := by
  rw [arrayOrExit] at h
  split at h
  · cases h
  · rename_i hcall
    obtain ⟨-, rfl, hgranted⟩ := mallocOrExit_eq hcall
    cases h
    exact ⟨rfl, hgranted⟩

theorem arrayOrExit_ne_crash {width : SizeT} :
    arrayOrExit malloc k width calls ≠ .error .crash := by
  rw [arrayOrExit]
  split <;> exact fun h => (by cases h)

theorem arraysOrExit_ne_crash : arraysOrExit malloc k calls ≠ .error .crash := by
  intro h
  rcases Halt.bind_crash h with h | ⟨calls₁, -, h⟩
  · exact arrayOrExit_ne_crash h
  · rcases Halt.bind_crash h with h | ⟨calls₂, -, h⟩
    · exact arrayOrExit_ne_crash h
    · exact arrayOrExit_ne_crash h

/-- Arrays that have been obtained are of ordinary size. -/
theorem ArenaState.Usable.arrays (hlimit : Limited malloc) (h : arena.Usable)
    (hok : arraysOrExit malloc k arena.calls = .ok calls') :
    Usable { arena with calls := calls' } ∧ (BitVec.ofInt 64 k * 8).toNat < 2 ^ 63 := by
  obtain ⟨calls₁, h₁, hok⟩ := Halt.bind_ok hok
  obtain ⟨calls₂, h₂, hok⟩ := Halt.bind_ok hok
  obtain ⟨rfl, hg₁⟩ := arrayOrExit_ok h₁
  obtain ⟨rfl, hg₂⟩ := arrayOrExit_ok h₂
  obtain ⟨rfl, hg₃⟩ := arrayOrExit_ok hok
  have hone : ∀ {bytes : SizeT}, bytes.toNat < 2 ^ 63 → ∀ b ∈ [bytes], b.toNat < 2 ^ 63 := by
    intro bytes hbytes b hb
    rw [List.mem_singleton.mp hb]
    exact hbytes
  exact ⟨((h.more_calls (hone (hlimit _ _ hg₁))).more_calls (hone (hlimit _ _ hg₂))).more_calls
    (hone (hlimit _ _ hg₃)), hlimit _ _ hg₁⟩

/-- The number of elements has not wrapped around. -/
theorem grown_cap {cap : ℤ} (hpos : 0 < cap) (hlt : cap < 2 ^ 31)
    (hsize : (BitVec.ofInt 64 (toInt32 (cap * 2)) * 8).toNat < 2 ^ 63) :
    toInt32 (cap * 2) = cap * 2 ∧ cap * 2 < 2 ^ 31 := by
  by_cases hfit : cap * 2 < 2 ^ 31
  · exact ⟨toInt32_of_range (by omega) hfit, hfit⟩
  · have hwrap : toInt32 (cap * 2) = cap * 2 - 2 ^ 32 := by
      have hmod : cap * 2 % ((2 ^ 32 : ℕ) : ℤ) = cap * 2 :=
        Int.emod_eq_of_lt (by omega) (by push_cast; omega)
      rw [toInt32, Int.bmod_def, hmod, if_neg (by push_cast; omega)]
      rfl
    rw [hwrap, BitVec.toNat_mul, BitVec.toNat_ofInt] at hsize
    have height : BitVec.toNat (8 : SizeT) = 8 := rfl
    rw [height] at hsize
    omega

/-! ### The table -/

/-- What `entries`, `lengths` and `hashes` hold at the index of a string. -/
structure HoldsString (t : StrtabState) (i : ℕ) (s : List Byte) (p : ArenaPtr) : Prop where
  entry : t.table.entries i = some p
  length : t.table.lengths i = s.length
  hash : t.table.hashes i = fnv1a s
  bytes : bytesAt t.mem p (s.length + 1) = s ++ [0]
  block : ⟨p.page, p.off.toNat, s.length + 1, 1⟩ ∈ t.arena.blocks

/-- The strings of the table in the order of their indices. -/
structure Represents (t : StrtabState) (names : StringTable) : Prop where
  usable : t.arena.Usable
  count : t.table.count = names.length
  count_le : t.table.count ≤ t.table.cap
  cap_pos : 0 < t.table.cap
  cap_lt : t.table.cap < 2 ^ 31
  nodup : names.Nodup
  holds : ∀ i s, names[i]? = some s → ∃ p, HoldsString t i s p

variable {t t' : StrtabState} {names : StringTable} {s : List Byte} {h : BitVec 32} {i : ℤ}

theorem findFrom_eq_neg_one {st : Strtab} (hno : ∀ j, i ≤ j → j < i + n → ¬slotMatches st mem s h j) :
    findFrom st mem s h n i = -1 := by
  induction n generalizing i with
  | zero => rfl
  | succ n ih =>
    rw [findFrom, if_neg (hno i le_rfl (by omega))]
    exact ih fun j hlo hhi => hno j (by omega) (by push_cast; omega)

theorem findFrom_eq {st : Strtab} {j : ℤ} (hlo : i ≤ j) (hhi : j < i + n)
    (hyes : slotMatches st mem s h j) (hno : ∀ k, i ≤ k → k < j → ¬slotMatches st mem s h k) :
    findFrom st mem s h n i = j := by
  induction n generalizing i with
  | zero => omega
  | succ n ih =>
    rw [findFrom]
    by_cases hij : i = j
    · rw [hij, if_pos hyes]
    · rw [if_neg (hno i le_rfl (by omega))]
      exact ih (by omega) (by push_cast at hhi; omega) fun k hk => hno k (by omega)

/-- The filter by hash and length lets the string through, and only that one. -/
theorem Represents.slotMatches_iff (h : Represents t names) {j : ℕ} (hj : j < names.length) :
    slotMatches t.table t.mem s (fnv1a s) j ↔ names[j]? = some s := by
  obtain ⟨p, hp⟩ := h.holds j names[j] (List.getElem?_eq_getElem hj)
  have hprefix : bytesAt t.mem p names[j].length = names[j] := by
    rw [bytesAt_take (Nat.le_succ _), hp.bytes, List.take_left]
  rw [slotMatches, decide_eq_true_eq, hp.hash, hp.length, hp.entry, Option.any_some,
    decide_eq_true_eq, List.getElem?_eq_getElem hj, Option.some.injEq]
  constructor
  · rintro ⟨-, hlen, hbytes⟩
    rw [← Int.ofNat_inj.mp hlen, hprefix] at hbytes
    exact hbytes
  · intro heq
    rw [← heq]
    exact ⟨rfl, rfl, hprefix⟩

/-- The search finds the index of a string. -/
theorem Represents.findSlot_eq (h : Represents t names) (s : List Byte) :
    findSlot t.table t.mem s (fnv1a s) = if s ∈ names then (names.idxOf s : ℤ) else -1 := by
  have hcount : (0 : ℤ) + t.table.count.toNat = names.length := by
    rw [h.count]
    omega
  have hiff : ∀ j : ℤ, 0 ≤ j → j < names.length →
      (slotMatches t.table t.mem s (fnv1a s) j ↔ names[j.toNat]? = some s) := by
    intro j hlo hhi
    have hcast : ((j.toNat : ℕ) : ℤ) = j := Int.toNat_of_nonneg hlo
    have hmatch := h.slotMatches_iff (s := s) (j := j.toNat) (by omega)
    rwa [hcast] at hmatch
  split
  · rename_i hmem
    have hlt := List.idxOf_lt_length_iff.mpr hmem
    have hsome : names[names.idxOf s]? = some s := by
      rw [List.getElem?_eq_getElem hlt, List.getElem_idxOf]
    apply findFrom_eq (by omega) (by omega) ((h.slotMatches_iff hlt).mpr hsome)
    intro k hlo hhi hyes
    have hk := (hiff k hlo (by omega)).mp hyes
    have heq := Interner.getElem?_inj h.nodup hk hsome
    omega
  · rename_i hmem
    apply findFrom_eq_neg_one
    intro j hlo hhi hyes
    exact hmem (List.mem_of_getElem? ((hiff j hlo (by omega)).mp hyes))

/-- Strings stay where they are when a block is written that has just been returned. -/
theorem HoldsString.keep {j : ℕ} {align : ℕ} (h : HoldsString t j s p) (hkept : t'.arena.Kept)
    (hblocks : t'.arena.blocks = ⟨q.page, q.off.toNat, n, align⟩ :: t.arena.blocks)
    (hdata : data.length ≤ n) (hmem : t'.mem = writeAt t.mem q data)
    (hentry : t'.table.entries j = t.table.entries j)
    (hlength : t'.table.lengths j = t.table.lengths j)
    (hhash : t'.table.hashes j = t.table.hashes j) : HoldsString t' j s p where
  entry := hentry.trans h.entry
  length := hlength.trans h.length
  hash := hhash.trans h.hash
  bytes := by
    have hapart := hkept.apart
    rw [hblocks] at hapart
    have hold := (List.pairwise_cons.mp hapart).1 _ h.block
    have hwritten : ArenaBlock.Apart ⟨p.page, p.off.toNat, s.length + 1, 1⟩
        ⟨q.page, q.off.toNat, data.length, 1⟩ := by
      rcases hold with hne | habove | hbelow
      · exact .inl hne.symm
      · refine .inr (.inr ?_)
        simp only at habove ⊢
        omega
      · exact .inr (.inl hbelow)
    rw [hmem, bytesAt_of_apart hwritten, h.bytes]
  block := by
    rw [hblocks]
    exact List.mem_cons_of_mem _ h.block

/-! ### Calls -/

theorem isAlign_one : IsAlign 1 := ⟨0, by decide, rfl⟩

/-- The table grows before it is full, or the program exits. -/
theorem Represents.grow (hlimit : Limited malloc) (h : Represents t names) {table : Strtab}
    (hgrow : growIfNeeded malloc t.table t.arena.calls = .ok (table, calls)) :
    Represents ⟨{ t.arena with calls := calls }, t.mem, table⟩ names ∧ table.count < table.cap ∧
      table = { t.table with cap := table.cap } := by
  rw [growIfNeeded] at hgrow
  split at hgrow
  · rename_i hroom
    cases hgrow
    exact ⟨h, hroom, rfl⟩
  · rename_i hfull
    obtain ⟨calls', harrays, heq⟩ := Halt.bind_ok hgrow
    obtain ⟨husable, hsize⟩ := h.usable.arrays hlimit harrays
    obtain ⟨hcap, hlt⟩ := grown_cap h.cap_pos h.cap_lt hsize
    cases heq
    have hpos := h.cap_pos
    have hle := h.count_le
    refine ⟨⟨husable, h.count, ?_, ?_, ?_, h.nodup, fun i s hi => ?_⟩, ?_, rfl⟩
    · change t.table.count ≤ toInt32 (t.table.cap * 2)
      omega
    · change 0 < toInt32 (t.table.cap * 2)
      omega
    · change toInt32 (t.table.cap * 2) < 2 ^ 31
      omega
    · obtain ⟨p, hp⟩ := h.holds i s hi
      exact ⟨p, hp.entry, hp.length, hp.hash, hp.bytes, hp.block⟩
    · change t.table.count < toInt32 (t.table.cap * 2)
      omega

theorem growIfNeeded_ne_crash {st : Strtab} :
    growIfNeeded malloc st calls ≠ .error .crash := by
  rw [growIfNeeded]
  split
  · exact fun h => (by cases h)
  · intro h
    rcases Halt.bind_crash h with h | ⟨calls', -, h⟩
    · exact arraysOrExit_ne_crash h
    · cases h

/-- A copy of a string is in a block of its own. -/
theorem arenaStrdup_spec (hlimit : Limited malloc) (hu : arena.Usable) (hs : s.length < 2 ^ 31)
    (mem : ArenaMem) : arenaStrdup malloc arena mem s ≠ .error .crash ∧
      ∀ dup arena' mem', arenaStrdup malloc arena mem s = .ok (dup, arena', mem') →
        arena'.Usable ∧ mem' = writeAt mem dup (s ++ [0]) ∧
          arena'.blocks = ⟨dup.page, dup.off.toNat, s.length + 1, 1⟩ :: arena.blocks := by
  have hsize : (BitVec.ofNat 64 s.length + 1).toNat = s.length + 1 := by
    have hone : BitVec.toNat (1 : SizeT) = 1 := rfl
    rw [BitVec.toNat_add, BitVec.toNat_ofNat, hone]
    omega
  rw [arenaStrdup]
  cases hcall : arena.alloc malloc (BitVec.ofNat 64 s.length + 1) 1 with
  | none => exact ⟨fun h => (by cases h), fun _ _ _ h => (by cases h)⟩
  | some v =>
    obtain ⟨r, arena'⟩ := v
    obtain ⟨husable, p, rfl, hblocks⟩ := hu.alloc hlimit isAlign_one (by omega) hcall
    refine ⟨fun h => (by cases h), fun dup a m h => ?_⟩
    cases h
    rw [hsize] at hblocks
    exact ⟨husable, rfl, hblocks⟩

/-- The lexer's table is the abstract one. -/
theorem strtabIntern_eq (names : StringTable) (s : List Byte) :
    strtabIntern names s = Interner.intern names s := rfl

theorem internBytes_of_mem (h : Represents t names) (hmem : s ∈ names) :
    internBytes malloc t s = .ok ((names.idxOf s : ℤ), t) := by
  rw [internBytes, h.findSlot_eq, if_pos hmem]
  exact if_pos (Int.natCast_nonneg _)

/-- A string that is in the table gets the index it has. -/
theorem intern_of_mem (h : names.Nodup) (hmem : s ∈ names) :
    strtabIntern names s = (names.idxOf s, names) := by
  have hlt := List.idxOf_lt_length_iff.mpr hmem
  refine Interner.intern_of_getElem? h ?_
  rw [List.getElem?_eq_getElem hlt, List.getElem_idxOf]

/-- A new string goes behind the others. -/
theorem Represents.add (h : Represents t names) (hroom : t.table.count < t.table.cap)
    (hnew : s ∉ names) (hu : arena.Usable)
    (hblocks : arena.blocks = ⟨q.page, q.off.toNat, s.length + 1, 1⟩ :: t.arena.blocks) :
    Represents ⟨arena, writeAt t.mem q (s ++ [0]), { t.table with
      entries := Function.update t.table.entries t.table.count (some q)
      lengths := Function.update t.table.lengths t.table.count s.length
      hashes := Function.update t.table.hashes t.table.count (fnv1a s)
      count := t.table.count + 1 }⟩ (names ++ [s]) := by
  have hcount := h.count
  have hnodup := Interner.nodup_intern h.nodup s
  rw [Interner.intern_of_not_mem hnew] at hnodup
  refine ⟨hu, ?_, ?_, h.cap_pos, h.cap_lt, hnodup, fun i s' hi => ?_⟩
  · change t.table.count + 1 = _
    rw [hcount, List.length_append]
    rfl
  · change t.table.count + 1 ≤ t.table.cap
    omega
  · by_cases hold : i < names.length
    · rw [List.getElem?_append_left hold] at hi
      obtain ⟨p, hp⟩ := h.holds i s' hi
      have hne : (i : ℤ) ≠ t.table.count := by omega
      have hlen : (s ++ [0]).length ≤ s.length + 1 := by rw [List.length_append]; rfl
      exact ⟨p, hp.keep hu.toKept hblocks hlen rfl (Function.update_of_ne hne _ _)
        (Function.update_of_ne hne _ _) (Function.update_of_ne hne _ _)⟩
    · have hlt := (List.getElem?_eq_some_iff.mp hi).1
      rw [List.length_append, List.length_singleton] at hlt
      have hi' : i = names.length := by omega
      subst hi'
      obtain rfl := Option.some.inj (List.getElem?_concat_length.symm.trans hi)
      have hidx : ((names.length : ℕ) : ℤ) = t.table.count := hcount.symm
      refine ⟨q, ?_, ?_, ?_, ?_, ?_⟩
      · change Function.update t.table.entries t.table.count (some q) names.length = _
        rw [hidx, Function.update_self]
      · change Function.update t.table.lengths t.table.count (s.length : ℤ) names.length = _
        rw [hidx, Function.update_self]
      · change Function.update t.table.hashes t.table.count (fnv1a s) names.length = _
        rw [hidx, Function.update_self]
      · have hwritten := bytesAt_writeAt t.mem q (s ++ [0])
        rw [List.length_append] at hwritten
        exact hwritten
      · rw [hblocks]
        exact List.mem_cons_self

/-- `strtab_intern` does what the lexer's table does, or the program exits. -/
theorem Represents.intern (hlimit : Limited malloc) (h : Represents t names)
    (hs : s.length < 2 ^ 31) : internBytes malloc t s ≠ .error .crash ∧
      ∀ idx t', internBytes malloc t s = .ok (idx, t') →
        idx = (strtabIntern names s).1 ∧ Represents t' (strtabIntern names s).2 ∧
          ∀ i : ℕ, i < names.length → t'.table.entries i = t.table.entries i := by
  by_cases hmem : s ∈ names
  · rw [internBytes_of_mem h hmem, intern_of_mem h.nodup hmem]
    refine ⟨fun h => (by cases h), fun idx t' heq => ?_⟩
    cases heq
    exact ⟨rfl, h, fun _ _ => rfl⟩
  · have hfind : ¬findSlot t.table t.mem s (fnv1a s) ≥ 0 := by
      rw [h.findSlot_eq, if_neg hmem]
      decide
    rw [internBytes, strtabIntern_eq, Interner.intern_of_not_mem hmem]
    dsimp only
    rw [if_neg hfind]
    constructor
    · intro hcrash
      rcases Halt.bind_crash hcrash with hcrash | ⟨⟨table, calls⟩, hgrow, hcrash⟩
      · exact growIfNeeded_ne_crash hcrash
      obtain ⟨hgrown, hroom, -⟩ := h.grow hlimit hgrow
      obtain ⟨hsafe, -⟩ := arenaStrdup_spec hlimit hgrown.usable hs t.mem
      rcases Halt.bind_crash hcrash with hcrash | ⟨⟨dup, arena, mem⟩, -, hcrash⟩
      · exact hsafe hcrash
      have hcount : 0 ≤ table.count := hgrown.count ▸ Int.natCast_nonneg _
      dsimp only at hcrash
      rw [if_pos ⟨hcount, hroom⟩] at hcrash
      cases hcrash
    · intro idx t' hok
      obtain ⟨⟨table, calls⟩, hgrow, hok⟩ := Halt.bind_ok hok
      obtain ⟨hgrown, hroom, htable⟩ := h.grow hlimit hgrow
      obtain ⟨⟨dup, arena, mem⟩, hdup, hok⟩ := Halt.bind_ok hok
      obtain ⟨-, hcopy⟩ := arenaStrdup_spec hlimit hgrown.usable hs t.mem
      obtain ⟨husable, rfl, hblocks⟩ := hcopy dup arena mem hdup
      have hcount : table.count = names.length := hgrown.count
      dsimp only at hok
      rw [if_pos ⟨hcount ▸ Int.natCast_nonneg _, hroom⟩] at hok
      cases hok
      refine ⟨hcount, hgrown.add hroom hmem husable hblocks, fun i hi => ?_⟩
      have hne : (i : ℤ) ≠ table.count := by omega
      change Function.update table.entries table.count (some dup) i = _
      rw [Function.update_of_ne hne, htable]

/-- A call for which the run keeps to ordinary sizes. -/
def StrtabCall.Ok : StrtabCall → Prop
  | .intern s => s.length < 2 ^ 31
  | .other size align _ => size.toNat < 2 ^ 63 ∧ IsAlign align

/-- Other blocks do not touch the strings. -/
theorem Represents.other (hlimit : Limited malloc) (h : Represents t names) {size align : SizeT}
    (hsize : size.toNat < 2 ^ 63) (ha : IsAlign align) (data : List Byte) :
    t.other malloc size align data ≠ .error .crash ∧
      ∀ t', t.other malloc size align data = .ok t' →
        Represents t' names ∧ t'.table = t.table := by
  rw [StrtabState.other]
  cases hcall : t.arena.alloc malloc size align with
  | none => exact ⟨fun h => (by cases h), fun _ h => (by cases h)⟩
  | some v =>
    obtain ⟨r, arena⟩ := v
    obtain ⟨husable, p, rfl, hblocks⟩ := h.usable.alloc hlimit ha hsize hcall
    refine ⟨fun h => (by cases h), fun t' hok => ?_⟩
    cases hok
    refine ⟨⟨husable, h.count, h.count_le, h.cap_pos, h.cap_lt, h.nodup, fun i s hi => ?_⟩, rfl⟩
    obtain ⟨q, hq⟩ := h.holds i s hi
    exact ⟨q, hq.keep husable.toKept hblocks (List.length_take_le _ _) rfl rfl rfl rfl⟩

/-! ### Runs -/

/-- The table holds the strings that were interned, and each result is the index of its string. -/
structure Logged (t : StrtabState) (log : List Interned) : Prop where
  represents : Represents t (Interner.distinct (log.map Interned.bytes))
  results : ∀ x ∈ log, ∃ i : ℕ, x.idx = i ∧
    (Interner.distinct (log.map Interned.bytes))[i]? = some x.bytes ∧
      x.ptr = t.table.entries i

variable {log log' : List Interned}

theorem Represents.entryAt_eq (h : Represents t names) {j : ℕ} (hj : j < names.length) :
    entryAt t.table j = t.table.entries j := by
  apply if_neg
  rw [h.count]
  omega

theorem Logged.step (hlimit : Limited malloc) (h : Logged t log) {op : StrtabCall} (hop : op.Ok) :
    StrtabState.step malloc (t, log) op ≠ .error .crash ∧
      ∀ t' log', StrtabState.step malloc (t, log) op = .ok (t', log') → Logged t' log' := by
  cases op with
  | other size align data =>
    obtain ⟨hsafe, hkeep⟩ := h.represents.other hlimit hop.1 hop.2 data
    constructor
    · intro hcrash
      rcases Halt.bind_crash hcrash with hcrash | ⟨t', -, hcrash⟩
      · exact hsafe hcrash
      · cases hcrash
    · intro t' log' hok
      obtain ⟨t'', hother, hok⟩ := Halt.bind_ok hok
      obtain ⟨hrep, htable⟩ := hkeep t'' hother
      cases hok
      exact ⟨hrep, htable ▸ h.results⟩
  | intern s =>
    obtain ⟨hsafe, hkeep⟩ := h.represents.intern hlimit hop
    constructor
    · intro hcrash
      rcases Halt.bind_crash hcrash with hcrash | ⟨⟨idx, t'⟩, -, hcrash⟩
      · exact hsafe hcrash
      · cases hcrash
    · intro t' log' hok
      obtain ⟨⟨idx, t''⟩, hintern, hok⟩ := Halt.bind_ok hok
      obtain ⟨hidx, hrep, hentries⟩ := hkeep idx t'' hintern
      cases hok
      have hnodup := h.represents.nodup
      have hnames : Interner.distinct (List.map Interned.bytes
          (log ++ [⟨s, idx, entryAt t'.table idx⟩])) =
            (strtabIntern (Interner.distinct (log.map Interned.bytes)) s).2 := by
        rw [List.map_append]
        exact Interner.distinct_concat _ s
      have hsome := Interner.getElem?_intern hnodup s
      refine ⟨hnames ▸ hrep, fun x hx => ?_⟩
      rw [hnames]
      rcases List.mem_append.mp hx with hx | hx
      · -- an earlier result
        obtain ⟨i, hi, hbytes, hptr⟩ := h.results x hx
        have hlt := (List.getElem?_eq_some_iff.mp hbytes).1
        exact ⟨i, hi, Interner.getElem?_longer (Interner.intern_extends hnodup s) hbytes,
          hptr.trans (hentries i hlt).symm⟩
      · rw [List.mem_singleton.mp hx]
        refine ⟨_, hidx, hsome, ?_⟩
        have hlt := (List.getElem?_eq_some_iff.mp hsome).1
        rw [hidx]
        exact hrep.entryAt_eq hlt

/-- The string that a call interns. -/
def StrtabCall.bytes? : StrtabCall → Option (List Byte)
  | .intern s => some s
  | .other _ _ _ => none

/-- One call logs the string it interns. -/
theorem step_bytes {op : StrtabCall} (h : StrtabState.step malloc (t, log) op = .ok (t', log')) :
    log'.map Interned.bytes = log.map Interned.bytes ++ op.bytes?.toList := by
  cases op with
  | intern s =>
    obtain ⟨⟨idx, t''⟩, -, heq⟩ := Halt.bind_ok h
    cases heq
    rw [List.map_append]
    rfl
  | other size align data =>
    obtain ⟨t'', -, heq⟩ := Halt.bind_ok h
    cases heq
    exact (List.append_nil _).symm

theorem Logged.steps (hlimit : Limited malloc) {ops : List StrtabCall} (hops : ∀ op ∈ ops, op.Ok)
    (h : Logged t log) : ops.foldlM (StrtabState.step malloc) (t, log) ≠ .error .crash ∧
      ∀ t' log', ops.foldlM (StrtabState.step malloc) (t, log) = .ok (t', log') →
        Logged t' log' ∧
          log'.map Interned.bytes = log.map Interned.bytes ++ ops.filterMap StrtabCall.bytes? := by
  induction ops generalizing t log with
  | nil =>
    refine ⟨fun h => (by cases h), fun t' log' hok => ?_⟩
    cases hok
    exact ⟨h, (List.append_nil _).symm⟩
  | cons op ops ih =>
    obtain ⟨hsafe, hkeep⟩ := h.step hlimit (hops op List.mem_cons_self)
    have hrest := fun op hop => hops op (List.mem_cons_of_mem _ hop)
    rw [List.foldlM_cons]
    constructor
    · intro hcrash
      rcases Halt.bind_crash hcrash with hcrash | ⟨⟨t', log'⟩, hstep, hcrash⟩
      · exact hsafe hcrash
      · exact (ih hrest (hkeep t' log' hstep)).1 hcrash
    · intro t' log' hok
      obtain ⟨⟨t'', log''⟩, hstep, hok⟩ := Halt.bind_ok hok
      obtain ⟨hlogged, hbytes⟩ := (ih hrest (hkeep t'' log'' hstep)).2 t' log' hok
      refine ⟨hlogged, ?_⟩
      rw [hbytes, step_bytes hstep, List.append_assoc]
      cases op <;> rfl

theorem logged_init {mem : ArenaMem} (hu : arena.Usable) :
    Logged ⟨arena, mem, { cap := 256 }⟩ [] where
  represents := ⟨hu, rfl, (by decide : (0 : ℤ) ≤ 256), (by decide : (0 : ℤ) < 256),
    (by decide : (256 : ℤ) < 2 ^ 31), List.nodup_nil, fun _ _ h => by cases h⟩
  results _ hx := absurd hx List.not_mem_nil

/-- The results of a table are those of the lexer's: a string is its place among the different
strings, and its bytes stay behind its pointer. -/
theorem Logged.spec (h : Logged t log) :
    (∀ x ∈ log, ∀ y ∈ log, x.idx = y.idx ↔ x.bytes = y.bytes) ∧
      (∀ x ∈ log, ∃ p, x.ptr = some p ∧ entryAt t.table x.idx = some p ∧
        bytesAt t.mem p (x.bytes.length + 1) = x.bytes ++ [0] ∧
          lengthAt t.table x.idx = x.bytes.length) ∧
      (∀ x ∈ log, ∀ y ∈ log, x.ptr = y.ptr ↔ x.bytes = y.bytes) ∧
      ∀ x ∈ log, x.idx = ((Interner.distinct (log.map Interned.bytes)).idxOf x.bytes : ℤ) := by
  have hnodup := h.represents.nodup
  have hholds : ∀ x ∈ log, ∃ (i : ℕ) (p : ArenaPtr), x.idx = i ∧
      (Interner.distinct (log.map Interned.bytes))[i]? = some x.bytes ∧ x.ptr = some p ∧
        HoldsString t i x.bytes p := by
    intro x hx
    obtain ⟨i, hi, hbytes, hptr⟩ := h.results x hx
    obtain ⟨p, hp⟩ := h.represents.holds i x.bytes hbytes
    exact ⟨i, p, hi, hbytes, hptr.trans hp.entry, hp⟩
  refine ⟨fun x hx y hy => ?_, fun x hx => ?_, fun x hx y hy => ?_, fun x hx => ?_⟩
  · obtain ⟨i, p, hi, hbytes, -, -⟩ := hholds x hx
    obtain ⟨j, q, hj, hbytes', -, -⟩ := hholds y hy
    rw [hi, hj]
    constructor
    · intro heq
      rw [Int.ofNat_inj.mp heq] at hbytes
      exact Option.some.inj (hbytes.symm.trans hbytes')
    · intro heq
      rw [← heq] at hbytes'
      rw [Interner.getElem?_inj hnodup hbytes hbytes']
  · obtain ⟨i, p, hi, hbytes, hptr, hp⟩ := hholds x hx
    have hlt := (List.getElem?_eq_some_iff.mp hbytes).1
    refine ⟨p, hptr, ?_, hp.bytes, ?_⟩
    · rw [hi, h.represents.entryAt_eq hlt]
      exact hp.entry
    · rw [hi, lengthAt, if_neg (by rw [h.represents.count]; omega)]
      exact hp.length
  · obtain ⟨i, p, -, hbytes, hptr, hp⟩ := hholds x hx
    obtain ⟨j, q, -, hbytes', hptr', hq⟩ := hholds y hy
    constructor
    · intro heq
      -- two strings at one place are in one block, which is as long as both
      obtain rfl := Option.some.inj (hptr.symm.trans (heq.trans hptr'))
      have hblock := h.represents.usable.block_eq hp.block hq.block rfl rfl (Nat.succ_pos _)
        (Nat.succ_pos _)
      have hlen := congrArg ArenaBlock.size hblock
      have hsame := hp.bytes
      rw [show x.bytes.length + 1 = y.bytes.length + 1 from hlen, hq.bytes] at hsame
      exact (List.append_cancel_right hsame).symm
    · intro heq
      rw [← heq] at hbytes' hq
      rw [Interner.getElem?_inj hnodup hbytes' hbytes] at hq
      rw [hptr, hptr', ← hp.entry, hq.entry]
  · obtain ⟨i, p, hi, hbytes, -, -⟩ := hholds x hx
    rw [hi, Interner.idxOf_eq hnodup hbytes]

/-- Interning over a run of calls, with other uses of the arena in between. -/
theorem strtab_interns (malloc : Malloc) (hlimit : Limited malloc) (arena : ArenaState)
    (hu : arena.Usable) (mem : ArenaMem) (ops : List StrtabCall) (hops : ∀ op ∈ ops, op.Ok) :
    StrtabState.run malloc arena mem ops ≠ .error .crash ∧
      ∀ t log, StrtabState.run malloc arena mem ops = .ok (t, log) →
        log.map Interned.bytes = ops.filterMap StrtabCall.bytes? ∧
        (∀ x ∈ log, ∀ y ∈ log, x.idx = y.idx ↔ x.bytes = y.bytes) ∧
        (∀ x ∈ log, ∃ p, x.ptr = some p ∧ entryAt t.table x.idx = some p ∧
          bytesAt t.mem p (x.bytes.length + 1) = x.bytes ++ [0] ∧
            lengthAt t.table x.idx = x.bytes.length) ∧
        (∀ x ∈ log, ∀ y ∈ log, x.ptr = y.ptr ↔ x.bytes = y.bytes) ∧
        ∀ x ∈ log, x.idx = ((Interner.distinct (log.map Interned.bytes)).idxOf x.bytes : ℤ) := by
  constructor
  · intro hcrash
    rcases Halt.bind_crash hcrash with hcrash | ⟨⟨table, calls⟩, hinit, hcrash⟩
    · rcases Halt.bind_crash hcrash with hcrash | ⟨calls, -, hcrash⟩
      · exact arraysOrExit_ne_crash hcrash
      · cases hcrash
    · obtain ⟨calls', harrays, heq⟩ := Halt.bind_ok hinit
      cases heq
      obtain ⟨husable, -⟩ := hu.arrays hlimit harrays
      exact ((logged_init husable).steps hlimit hops).1 hcrash
  · intro t log hok
    obtain ⟨⟨table, calls⟩, hinit, hok⟩ := Halt.bind_ok hok
    obtain ⟨calls', harrays, heq⟩ := Halt.bind_ok hinit
    cases heq
    obtain ⟨husable, -⟩ := hu.arrays hlimit harrays
    obtain ⟨hlogged, hbytes⟩ := ((logged_init husable).steps hlimit hops).2 t log hok
    exact ⟨hbytes, hlogged.spec⟩

/-- An allocator with a megabyte for each call. -/
def smallMalloc : Malloc := fun _ bytes => bytes.toNat < 2 ^ 20

theorem limited_smallMalloc : Limited smallMalloc := by
  intro calls bytes h
  exact (of_decide_eq_true h).trans (by decide)

/-- The third string is the first. -/
theorem strtab_interns_three : ∃ t log, StrtabState.run smallMalloc
      ⟨⟨⟨0, 0, arenaDefaultCap⟩, []⟩, [arenaHeader + arenaDefaultCap], []⟩ (fun _ _ => 0)
      [.intern [97], .intern [98], .intern [97]] = .ok (t, log) ∧
    log.map Interned.idx = [0, 1, 0] ∧
      ∀ x ∈ log, ∀ y ∈ log, x.ptr = y.ptr ↔ x.bytes = y.bytes := by
  have hcreate : arenaCreate smallMalloc 0 [] =
      some (⟨⟨0, 0, arenaDefaultCap⟩, []⟩, [arenaHeader + arenaDefaultCap]) := rfl
  have hu := ArenaState.usable_create limited_smallMalloc (by decide) hcreate
  have hops : ∀ op ∈ [StrtabCall.intern [97], .intern [98], .intern [97]], op.Ok := by
    intro op hop
    simp only [List.mem_cons, List.not_mem_nil, or_false] at hop
    rcases hop with rfl | rfl | rfl
    all_goals exact (by decide : 1 < 2 ^ 31)
  obtain ⟨t, log, hrun, hidx⟩ : ∃ t log, StrtabState.run smallMalloc
      ⟨⟨⟨0, 0, arenaDefaultCap⟩, []⟩, [arenaHeader + arenaDefaultCap], []⟩ (fun _ _ => 0)
      [.intern [97], .intern [98], .intern [97]] = .ok (t, log) ∧
    log.map Interned.idx = [0, 1, 0] := ⟨_, _, rfl, rfl⟩
  have hspec := (strtab_interns smallMalloc limited_smallMalloc _ hu _ _ hops).2 t log hrun
  exact ⟨t, log, hrun, hidx, hspec.2.2.2.1⟩

end TinyC

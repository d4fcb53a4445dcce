import TinyC.Codegen
import TinyC.MemoryWrites
import TinyC.StackPointer
import TinyC.StructLayout
import TinyC.Lib.BlockCopy

/-!
# The code of block copies

What `emit_copy_bytes` emits moves the bytes of a block, reads and writes nothing else, and uses
`%rax` only. Its counter is an `int` that never gets past the size; for the last eight values of an
`int` the test that ends the loop adds past the range, which C leaves undefined.
-/

namespace TinyC

open ByteMemory

/-! ### What code reads -/

def Opnd.range (E : Env) (s : MState) (w : Width) : Opnd → List (Addr × ℕ)
  | .mem d b => [(s.ea d b, w.bytes)]
  | .sym name => [(E.sym name, w.bytes)]
  | _ => []

/-- The bytes an instruction itself reads. -/
def Instr.reads (E : Env) (i : Instr) (s : MState) : List (Addr × ℕ) :=
  match i with
  | .mov w src _ | .movzx w src _ | .movsx w src _ => src.range E s w
  | .alu _ src _ => src.range E s .quad
  | .movsLoad dbl d b _ => [(s.ea d b, if dbl then 8 else 4)]
  | .leave => [(s.reg .rbp, 8)]
  | _ => []

/-- The reads of a block of instructions without jumps, up to a fault. -/
def readsOf (E : Env) : List Instr → MState → List (Addr × ℕ)
  | [], _ => []
  | i :: is, s => i.reads E s ++ ((i.step E s).map (readsOf E is)).getD []

/-! ### The loop -/

/-- The loop of `emit_copy_bytes`, as far as `n` turns, and the counter after it. The sums are not
reduced: `copySums_fit` says for which sizes all of them are values of an `int`. -/
def copyQuads (dst src : Reg) (size : ℤ) : ℕ → ℤ → Option (List Instr × ℤ)
  | 0, _ => none
  | n + 1, off =>
      if off + 8 ≤ size then
        (copyQuads dst src size n (off + 8)).map fun r => (copyChunk .quad dst src off ++ r.1, r.2)
      else some ([], off)

/-- The tails of `emit_copy_bytes`. -/
def copyTail (dst src : Reg) (size off : ℤ) : List Instr :=
  let off₄ := if off + 4 ≤ size then off + 4 else off
  let off₂ := if off₄ + 2 ≤ size then off₄ + 2 else off₄
  (if off + 4 ≤ size then copyChunk .long dst src off else []) ++
    (if off₄ + 2 ≤ size then copyChunk .word dst src off₄ else []) ++
    (if off₂ < size then copyChunk .byte dst src off₂ else [])

/-- `emit_copy_bytes`, if its loop ends within `n` turns. -/
def emitCopyBytesAlong (n : ℕ) (dst src : Reg) (size : ℤ) : Option (List Instr) :=
  (copyQuads dst src size n 0).map fun r => r.1 ++ copyTail dst src size r.2

/-- The sums that `emit_copy_bytes` computes for its tests: the first sum of each turn, then those
of the tails. -/
def copySums (size : ℕ) : List ℤ :=
  let off : ℤ := 8 * (size / 8 : ℕ)
  let off₄ := if off + 4 ≤ size then off + 4 else off
  (List.range (size / 8 + 1)).map (fun (k : ℕ) => 8 * (k : ℤ) + 8) ++ [off + 4, off₄ + 2]

/-- No sum leaves the range of an `int` exactly below the last eight of its values. -/
theorem copySums_fit (size : ℕ) :
    (∀ x ∈ copySums size, x < 2 ^ 31) ↔ size < 2 ^ 31 - 8 := by
  constructor
  · intro h
    have hlast := h (8 * ((size / 8 : ℕ) : ℤ) + 8) (by
      refine List.mem_append_left _ (List.mem_map.mpr ⟨size / 8, ?_, rfl⟩)
      exact List.mem_range.mpr (Nat.lt_succ_self _))
    omega
  · intro h x hx
    rcases List.mem_append.mp hx with hx | hx
    · obtain ⟨k, hk, rfl⟩ := List.mem_map.mp hx
      have hlt := List.mem_range.mp hk
      omega
    · simp only [List.mem_cons, List.not_mem_nil, or_false] at hx
      rcases hx with rfl | rfl
      · omega
      · split <;> omega

/-! ### Chunks -/

/-- Chunks of these widths, one behind the other. -/
def copyChunks (dst src : Reg) : ℕ → List Width → List Instr
  | _, [] => []
  | off, w :: ws => copyChunk w dst src off ++ copyChunks dst src (off + w.bytes) ws

def totalBytes (ws : List Width) : ℕ := (ws.map Width.bytes).sum

section Run

variable {E : Env} {dst src : Reg} {s t : MState} {n k : ℕ} {w : Width} {ws : List Width}

/-- The first `k` bytes are copied, and nothing but `%rax` has changed. -/
structure Copying (dst src : Reg) (s t : MState) (k : ℕ) : Prop where
  mem : t.mem = copied s.mem (s.reg dst) (s.reg src) k
  reg : ∀ r, r ≠ .rax → t.reg r = s.reg r
  xmm : t.xmm = s.xmm
  flags : t.flags = s.flags

/-- A state that code leads to by reads and writes in two ranges. -/
structure LeadsWithin (E : Env) (is : List Instr) (src dst : Addr) (n : ℕ) (s t : MState) :
    Prop where
  exec : ∀ js, exec E (is ++ js) s = TinyC.exec E js t
  reads : ∃ rs, (∀ r ∈ rs, Inside src n r) ∧
    ∀ js, readsOf E (is ++ js) s = rs ++ readsOf E js t
  writes : ∃ rs, (∀ r ∈ rs, Inside dst n r) ∧
    ∀ js, writesOf E (is ++ js) s = rs ++ writesOf E js t

theorem readsOf_cons {i : Instr} {is : List Instr} (h : i.step E s = some t) :
    readsOf E (i :: is) s = i.reads E s ++ readsOf E is t := by
  rw [readsOf, h]
  rfl

theorem zeroExt_merge {b : ℕ} (mask v u : BitVec 64)
    (hmask : ∀ i < 8 * b, mask.getLsbD i = true) :
    zeroExt b ((u &&& ~~~mask) ||| zeroExt b v) = zeroExt b v := by
  apply BitVec.eq_of_getLsbD_eq
  intro i hi
  rw [getLsbD_zeroExt _ hi, getLsbD_zeroExt _ hi, BitVec.getLsbD_or, BitVec.getLsbD_and,
    BitVec.getLsbD_not, getLsbD_zeroExt _ hi]
  by_cases hlt : i < 8 * b
  · simp [hlt, hmask i hlt]
  · simp [hlt]

/-- A narrow write leaves what was written in the low bytes. -/
theorem zeroExt_writeReg (s : MState) (w : Width) (r : Reg) (v : BitVec 64) :
    zeroExt w.bytes ((s.writeReg w r v).reg r) = zeroExt w.bytes v := by
  cases w with
  | quad => exact congrArg (zeroExt 8) (setReg_reg_self s r v)
  | long =>
    have hreg : (s.writeReg .long r v).reg r = zeroExt 4 v := setReg_reg_self s r _
    rw [hreg]
    exact zeroExt_zeroExt (by decide) v
  | word =>
    have hreg : (s.writeReg .word r v).reg r = (s.reg r &&& ~~~0xffff#64) ||| zeroExt 2 v :=
      setReg_reg_self s r _
    rw [hreg]
    exact zeroExt_merge _ _ _ (by decide)
  | byte =>
    have hreg : (s.writeReg .byte r v).reg r = (s.reg r &&& ~~~0xff#64) ||| zeroExt 1 v :=
      setReg_reg_self s r _
    rw [hreg]
    exact zeroExt_merge _ _ _ (by decide)

theorem ea_natCast (s : MState) (k : ℕ) (b : Reg) : s.ea k b = s.reg b + BitVec.ofNat 64 k := by
  rw [MState.ea, BitVec.ofInt_natCast]

/-- One chunk. -/
theorem Copying.chunk (hdst : dst ≠ .rax) (hsrc : src ≠ .rax) (h : Copying dst src s t k)
    (hap : Apart (s.reg src) n (s.reg dst) n) (hk : k + w.bytes ≤ n) (hn : n ≤ 2 ^ 64) :
    ∃ t', LeadsWithin E (copyChunk w dst src k) (s.reg src) (s.reg dst) n t t' ∧
      Copying dst src s t' (k + w.bytes) := by
  have hfrom : t.ea k src = s.reg src + BitVec.ofNat 64 k := by rw [ea_natCast, h.reg src hsrc]
  -- the load
  have hload : (Instr.mov w (.mem k src) (.reg .rax)).step E t =
      some (t.writeReg w .rax (load t.mem (t.ea k src) w.bytes)) := rfl
  generalize hmid : t.writeReg w .rax (load t.mem (t.ea k src) w.bytes) = u at hload
  have hmem : u.mem = t.mem := by
    rw [← hmid]
    cases w <;> rfl
  have hreg : ∀ r, r ≠ .rax → u.reg r = s.reg r := by
    intro r hr
    rw [← hmid, writeReg_reg_of_ne _ _ _ hr, h.reg r hr]
  have hto : u.ea k dst = s.reg dst + BitVec.ofNat 64 k := by rw [ea_natCast, hreg dst hdst]
  -- the store
  have hstore : (Instr.mov w (.reg .rax) (.mem k dst)).step E u =
      some { u with mem := store u.mem (u.ea k dst) w.bytes (zeroExt w.bytes (u.reg .rax)) } := rfl
  have hvalue : zeroExt w.bytes (u.reg .rax) =
      zeroExt w.bytes (load t.mem (t.ea k src) w.bytes) := by
    rw [← hmid, zeroExt_writeReg]
  refine ⟨{ u with mem := store u.mem (u.ea k dst) w.bytes (zeroExt w.bytes (u.reg .rax)) },
    ⟨?_, ?_, ?_⟩, ⟨?_, hreg, ?_, ?_⟩⟩
  · intro js
    rw [copyChunk, List.cons_append, List.cons_append, exec_cons hload, exec_cons hstore]
    rfl
  · refine ⟨[(t.ea k src, w.bytes)], ?_, fun js => ?_⟩
    · rw [List.forall_mem_singleton, hfrom]
      exact inside_piece hk hn
    · rw [copyChunk, List.cons_append, List.cons_append, readsOf_cons hload, readsOf_cons hstore]
      rfl
  · refine ⟨[(u.ea k dst, w.bytes)], ?_, fun js => ?_⟩
    · rw [List.forall_mem_singleton, hto]
      exact inside_piece hk hn
    · rw [copyChunk, List.cons_append, List.cons_append, writesOf_cons hload, writesOf_cons hstore]
      rfl
  · dsimp only
    rw [hvalue, store_zeroExt _ _ _ (Width.bytes_le w), hto, hmem, h.mem, hfrom]
    exact store_copied hap hk hn (Width.bytes_le w)
  · change u.xmm = s.xmm
    rw [← h.xmm, ← hmid]
    cases w <;> rfl
  · change u.flags = s.flags
    rw [← h.flags, ← hmid]
    cases w <;> rfl

theorem LeadsWithin.append {is js : List Instr} {a b : Addr} {u : MState}
    (h : LeadsWithin E is a b n s t) (h' : LeadsWithin E js a b n t u) :
    LeadsWithin E (is ++ js) a b n s u := by
  obtain ⟨rs, hrs, hreads⟩ := h.reads
  obtain ⟨rs', hrs', hreads'⟩ := h'.reads
  obtain ⟨ws, hws, hwrites⟩ := h.writes
  obtain ⟨ws', hws', hwrites'⟩ := h'.writes
  refine ⟨fun ks => ?_, ⟨rs ++ rs', ?_, fun ks => ?_⟩, ⟨ws ++ ws', ?_, fun ks => ?_⟩⟩
  · rw [List.append_assoc, h.exec, h'.exec]
  · exact List.forall_mem_append.mpr ⟨hrs, hrs'⟩
  · rw [List.append_assoc, hreads, hreads', List.append_assoc]
  · exact List.forall_mem_append.mpr ⟨hws, hws'⟩
  · rw [List.append_assoc, hwrites, hwrites', List.append_assoc]

/-- Chunks that fill a range copy it. -/
theorem Copying.chunks (hdst : dst ≠ .rax) (hsrc : src ≠ .rax) (h : Copying dst src s t k)
    (hap : Apart (s.reg src) n (s.reg dst) n) (hk : k + totalBytes ws ≤ n) (hn : n ≤ 2 ^ 64) :
    ∃ t', LeadsWithin E (copyChunks dst src k ws) (s.reg src) (s.reg dst) n t t' ∧
      Copying dst src s t' (k + totalBytes ws) := by
  induction ws generalizing t k with
  | nil => exact ⟨t, ⟨fun _ => rfl, ⟨[], by simp, fun _ => rfl⟩, ⟨[], by simp, fun _ => rfl⟩⟩, h⟩
  | cons w ws ih =>
    have htotal : totalBytes (w :: ws) = w.bytes + totalBytes ws := by simp [totalBytes]
    obtain ⟨u, hcode, hu⟩ := h.chunk (E := E) (w := w) hdst hsrc hap (by omega) hn
    obtain ⟨t', hrest, ht'⟩ := ih hu (by omega)
    refine ⟨t', hcode.append hrest, ?_⟩
    rw [htotal, ← Nat.add_assoc]
    exact ht'

end Run

/-! ### The emitted code -/

def tailWidths (size : ℕ) : List Width :=
  (if 4 ≤ size % 8 then [.long] else []) ++ (if 2 ≤ size % 4 then [.word] else []) ++
    (if size % 2 = 1 then [.byte] else [])

/-- The widths of the chunks of a block. -/
def copyWidths (size : ℕ) : List Width :=
  List.replicate (size / 8) .quad ++ tailWidths size

theorem totalBytes_append (ws vs : List Width) :
    totalBytes (ws ++ vs) = totalBytes ws + totalBytes vs := by
  rw [totalBytes, List.map_append, List.sum_append]
  rfl

theorem totalBytes_copyWidths (size : ℕ) : totalBytes (copyWidths size) = size := by
  have hquads : totalBytes (List.replicate (size / 8) .quad) = size / 8 * 8 := by
    simp [totalBytes, Width.bytes]
  have hopt : ∀ (c : Prop) [Decidable c] (w : Width),
      totalBytes (if c then [w] else []) = if c then w.bytes else 0 := by
    intro c _ w
    split <;> simp [totalBytes]
  rw [copyWidths, tailWidths, totalBytes_append, totalBytes_append, totalBytes_append, hquads,
    hopt, hopt, hopt]
  simp only [Width.bytes]
  split <;> split <;> split <;> omega

theorem copyChunks_append (dst src : Reg) (off : ℕ) (ws vs : List Width) :
    copyChunks dst src off (ws ++ vs) =
      copyChunks dst src off ws ++ copyChunks dst src (off + totalBytes ws) vs := by
  induction ws generalizing off with
  | nil => rfl
  | cons w ws ih =>
    have htotal : totalBytes (w :: ws) = w.bytes + totalBytes ws := by simp [totalBytes]
    rw [List.cons_append, copyChunks, copyChunks, ih, htotal, List.append_assoc, Nat.add_assoc]

theorem copyTail_eq (dst src : Reg) {size off : ℕ} (hoff : off + size % 8 = size)
    (h8 : off % 8 = 0) :
    copyTail dst src size off = copyChunks dst src off (tailWidths size) := by
  have hone : ∀ (c : Prop) [Decidable c] (k : ℕ) (w : Width),
      copyChunks dst src k (if c then [w] else []) = if c then copyChunk w dst src k else [] := by
    intro c _ k w
    split <;> simp [copyChunks]
  have htotal : ∀ (c : Prop) [Decidable c] (w : Width),
      totalBytes (if c then [w] else []) = if c then w.bytes else 0 := by
    intro c _ w
    split <;> simp [totalBytes]
  -- the counter after each tail
  generalize hoff₄ : off + (if 4 ≤ size % 8 then 4 else 0) = off₄
  generalize hoff₂ : off₄ + (if 2 ≤ size % 4 then 2 else 0) = off₂
  have h4 : (off : ℤ) + 4 ≤ size ↔ 4 ≤ size % 8 := by omega
  have h2 : (off₄ : ℤ) + 2 ≤ size ↔ 2 ≤ size % 4 := by
    split at hoff₄ <;> omega
  have h1 : (off₂ : ℤ) < size ↔ size % 2 = 1 := by
    split at hoff₄ <;> split at hoff₂ <;> omega
  have hcounter₄ : (if 4 ≤ size % 8 then (off : ℤ) + 4 else off) = off₄ := by
    split <;> split at hoff₄ <;> omega
  have hcounter₂ : (if 2 ≤ size % 4 then (off₄ : ℤ) + 2 else off₄) = off₂ := by
    split <;> split at hoff₂ <;> omega
  unfold copyTail tailWidths
  dsimp only
  simp only [h4]
  rw [hcounter₄]
  simp only [h2]
  rw [hcounter₂]
  simp only [h1]
  rw [copyChunks_append, copyChunks_append, hone, hone, hone, totalBytes_append, htotal, htotal,
    ← Nat.add_assoc]
  simp only [Width.bytes, hoff₄, hoff₂]

theorem copyQuads_eq (dst src : Reg) {size off n : ℕ} (hoff : off ≤ size) (h8 : off % 8 = 0)
    (hn : (size - off) / 8 < n) :
    copyQuads dst src size n off =
      some (copyChunks dst src off (List.replicate ((size - off) / 8) .quad),
        ((size - size % 8 : ℕ) : ℤ)) := by
  induction n generalizing off with
  | zero => omega
  | succ n ih =>
    rw [copyQuads]
    by_cases hmore : off + 8 ≤ size
    · have hsucc : (size - off) / 8 = (size - (off + 8)) / 8 + 1 := by omega
      rw [if_pos (by omega), show (off : ℤ) + 8 = ((off + 8 : ℕ) : ℤ) by push_cast; rfl,
        ih hmore (by omega) (by omega), Option.map_some, hsucc, List.replicate_succ]
      rfl
    · have hzero : (size - off) / 8 = 0 := by omega
      rw [if_neg (by omega), hzero]
      have hlast : size - size % 8 = off := by omega
      rw [hlast]
      rfl

/-- The loop ends, and the code copies in chunks. -/
theorem emitCopyBytesAlong_eq (dst src : Reg) {size n : ℕ} (hn : size / 8 < n) :
    emitCopyBytesAlong n dst src size = some (copyChunks dst src 0 (copyWidths size)) := by
  have hquads := copyQuads_eq dst src (Nat.zero_le size) (Nat.zero_mod 8) (n := n) (by omega)
  have hbytes : totalBytes (List.replicate (size / 8) .quad) = size - size % 8 := by
    have hreplicate : totalBytes (List.replicate (size / 8) .quad) = size / 8 * 8 := by
      simp [totalBytes, Width.bytes]
    omega
  rw [emitCopyBytesAlong, show (0 : ℤ) = ((0 : ℕ) : ℤ) from rfl, hquads, Option.map_some,
    copyTail_eq dst src (by omega) (by omega), Nat.sub_zero, copyWidths, copyChunks_append,
    hbytes, Nat.zero_add]

theorem flatMap_copyChunk (dst src : Reg) (q : ℕ) :
    (List.range q).flatMap (fun (i : ℕ) => copyChunk .quad dst src (8 * (i : ℤ))) =
      copyChunks dst src 0 (List.replicate q .quad) := by
  induction q with
  | zero => rfl
  | succ q ih =>
    have hbytes : totalBytes (List.replicate q .quad) = 8 * q := by
      simp [totalBytes, Width.bytes, Nat.mul_comm]
    rw [List.range_succ, List.flatMap_append, ih, List.replicate_succ', copyChunks_append, hbytes,
      Nat.zero_add]
    simp [copyChunks]

/-- The code generator's block copies are what the loop emits. -/
theorem emitCopyBytesAlong_emitCopyBytes (dst src : Reg) {size n : ℕ} (hn : size / 8 < n) :
    emitCopyBytesAlong n dst src size = some (emitCopyBytes dst src size) := by
  have hquads : ((size : ℤ) / 8).toNat = size / 8 := by omega
  have hoff : (8 : ℤ) * ((size / 8 : ℕ) : ℤ) = ((size - size % 8 : ℕ) : ℤ) := by omega
  have htail := copyTail_eq dst src (show size - size % 8 + size % 8 = size by omega) (by omega)
  have hbytes : totalBytes (List.replicate (size / 8) .quad) = size - size % 8 := by
    have hreplicate : totalBytes (List.replicate (size / 8) .quad) = size / 8 * 8 := by
      simp [totalBytes, Width.bytes]
    omega
  rw [emitCopyBytesAlong_eq dst src hn, copyWidths, copyChunks_append, hbytes, Nat.zero_add,
    ← htail, ← flatMap_copyChunk]
  unfold emitCopyBytes copyTail
  dsimp only
  rw [hquads, hoff, List.append_assoc, List.append_assoc]
  have hcast : ((List.range (size / 8)).flatMap fun (i : ℕ) => pure (i : ℤ)) =
      (List.range (size / 8)).map fun (i : ℕ) => (i : ℤ) := List.flatMap_pure_eq_map _ _
  simp only [List.append_assoc, List.bind_eq_flatMap, hcast, List.flatMap_map]

/-- A run of code that moves `size` bytes from one address to another. -/
structure CopiesExactly (E : Env) (code : List Instr) (dst src : Reg) (size : ℕ) (s s' : MState) :
    Prop where
  exec : TinyC.exec E code s = some (s', .fall)
  moved : ∀ k < size, s'.mem (s.reg dst + BitVec.ofNat 64 k) = s.mem (s.reg src + BitVec.ofNat 64 k)
  outside : ∀ x, ¬(x - s.reg dst).toNat < size → s'.mem x = s.mem x
  reads : ∀ r ∈ readsOf E code s, Inside (s.reg src) size r
  writes : ∀ r ∈ writesOf E code s, Inside (s.reg dst) size r
  reg : ∀ r, r ≠ .rax → s'.reg r = s.reg r
  xmm : s'.xmm = s.xmm
  flags : s'.flags = s.flags

theorem copyChunks_exact (E : Env) {dst src : Reg} (hdst : dst ≠ .rax) (hsrc : src ≠ .rax)
    {size : ℕ} (hsize : size ≤ 2 ^ 64) {s : MState} (hap : Apart (s.reg src) size (s.reg dst) size) :
    ∃ s', CopiesExactly E (copyChunks dst src 0 (copyWidths size)) dst src size s s' := by
  have htotal := totalBytes_copyWidths size
  have hstart : Copying dst src s s 0 := ⟨copied_zero.symm, fun _ _ => rfl, rfl, rfl⟩
  have hwithin : 0 + totalBytes (copyWidths size) ≤ size := by omega
  obtain ⟨s', hcode, hend⟩ := hstart.chunks (E := E) hdst hsrc hap hwithin hsize
  rw [htotal, Nat.zero_add] at hend
  have hexec := hcode.exec []
  obtain ⟨rs, hrs, hreads⟩ := hcode.reads
  obtain ⟨ws, hws, hwrites⟩ := hcode.writes
  have hreads := hreads []
  have hwrites := hwrites []
  rw [List.append_nil] at hexec hreads hwrites
  rw [readsOf, List.append_nil] at hreads
  rw [writesOf, List.append_nil] at hwrites
  refine ⟨s', hexec, fun k hk => ?_, fun x hx => ?_, ?_, ?_, hend.reg, hend.xmm, hend.flags⟩
  · rw [hend.mem]
    exact copied_apply_add hk hsize
  · rw [hend.mem]
    exact copied_apply_of_not_lt hx
  · rwa [hreads]
  · rwa [hwrites]

/-- For every size, `emit_copy_bytes` ends with code that copies exactly. -/
theorem copy_bytes_exact {dst src : Reg} (hdst : dst ≠ .rax) (hsrc : src ≠ .rax) {size : ℤ}
    (h0 : 0 ≤ size) (h31 : size < 2 ^ 31) :
    ∃ n code, emitCopyBytesAlong n dst src size = some code ∧
      ∀ (E : Env) (s : MState), Apart (s.reg src) size.toNat (s.reg dst) size.toNat →
        ∃ s', CopiesExactly E code dst src size.toNat s s' := by
  obtain ⟨size, rfl⟩ := Int.eq_ofNat_of_zero_le h0
  rw [Int.toNat_natCast]
  refine ⟨size / 8 + 1, _, emitCopyBytesAlong_eq dst src (Nat.lt_succ_self _), ?_⟩
  intro E s hap
  exact copyChunks_exact E hdst hsrc (by omega) hap

/-- Thirteen bytes take three chunks. -/
theorem copy_bytes_thirteen : ∃ n code, emitCopyBytesAlong n .r11 .r10 13 = some code ∧
    ∀ (E : Env) (s : MState), Apart (s.reg .r10) 13 (s.reg .r11) 13 →
      ∃ s', CopiesExactly E code .r11 .r10 13 s s' :=
  copy_bytes_exact (by decide) (by decide) (by decide) (by decide)

end TinyC

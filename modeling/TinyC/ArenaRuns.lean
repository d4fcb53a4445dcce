import TinyC.Arena
import Mathlib.Data.List.Nodup

/-!
# Blocks of the arena

A run of the arena keeps the blocks it has returned apart and inside its pages, as long as no page
is so large that the `Arena` before it makes the size wrap around.
-/

namespace TinyC

namespace ArenaState

variable {malloc : Malloc} {s s' : ArenaState} {front : List ArenaPage} {cur : ArenaPage}

/-- What holds of every state of a run. -/
structure Kept (s : ArenaState) : Prop extends s.Sound where
  bases : (s.arena.pages.map ArenaPage.base).Nodup
  within : ∀ b ∈ s.blocks, ∀ p ∈ s.arena.pages, p.base = b.page → b.off + b.size ≤ p.used.toNat

/-- A page is at another place than the pages before it. -/
theorem Kept.base_ne (h : s.Kept) (hpages : s.arena.pages = front ++ [cur]) {p : ArenaPage}
    (hp : p ∈ front) : p.base ≠ cur.base := by
  have hbases := h.bases
  rw [hpages, List.map_append, List.nodup_append] at hbases
  exact hbases.2.2 _ (List.mem_map_of_mem hp) _ (List.mem_singleton.mpr rfl)

/-- A block is put behind what is used of the last page. -/
theorem Kept.place (h : s.Kept) (hpages : s.arena.pages = front ++ [cur]) {off size : SizeT}
    {align : ℕ} {a : Arena} (hused : cur.used.toNat ≤ off.toNat)
    (hcap : off.toNat + size.toNat ≤ cur.cap.toNat) (hdvd : align ∣ off.toNat)
    (ha : a.pages = front ++ [{ cur with used := off + size }]) :
    Kept ⟨a, s.calls, ⟨cur.base, off.toNat, size.toNat, align⟩ :: s.blocks⟩ := by
  have hcur : cur ∈ s.arena.pages := by
    rw [hpages]
    exact List.mem_concat_self
  have hold : ∀ p ∈ front, p ∈ s.arena.pages := by
    intro p hp
    rw [hpages]
    exact List.mem_append_left _ hp
  have hsum : (off + size).toNat = off.toNat + size.toNat := by
    have hlt := cur.cap.isLt
    rw [BitVec.toNat_add, Nat.mod_eq_of_lt (by omega)]
  -- a page is one before the last, or the last one with more of it used
  have hmem : ∀ p ∈ a.pages, p ∈ front ∨ p = { cur with used := off + size } := by
    intro p hp
    rw [ha, List.mem_append, List.mem_singleton] at hp
    exact hp
  have hnew : { cur with used := off + size } ∈ a.pages := by
    rw [ha]
    exact List.mem_concat_self
  refine ⟨⟨?_, ?_, ?_, ?_, ?_⟩, ?_, ?_⟩
  · intro p hp
    rcases hmem p hp with hp | rfl
    · exact h.used_le p (hold p hp)
    · rw [BitVec.le_def, hsum]
      exact hcap
  · intro p hp
    rcases hmem p hp with hp | rfl
    · exact h.backed p (hold p hp)
    · exact h.backed cur hcur
  · intro b hb
    rcases List.mem_cons.mp hb with rfl | hb
    · exact ⟨_, hnew, rfl, hcap⟩
    · obtain ⟨p, hp, hbase, hin⟩ := h.inside b hb
      rw [hpages, List.mem_append, List.mem_singleton] at hp
      rcases hp with hp | rfl
      · exact ⟨p, by rw [ha]; exact List.mem_append_left _ hp, hbase, hin⟩
      · exact ⟨_, hnew, hbase, hin⟩
  · intro b hb
    rcases List.mem_cons.mp hb with rfl | hb
    · exact hdvd
    · exact h.aligned b hb
  · refine List.pairwise_cons.mpr ⟨fun b hb => ?_, h.apart⟩
    by_cases hpage : cur.base = b.page
    · have hbelow := h.within b hb cur hcur hpage
      exact .inr (.inr (hbelow.trans hused))
    · exact .inl hpage
  · have hsame : a.pages.map ArenaPage.base = s.arena.pages.map ArenaPage.base := by
      rw [ha, hpages, List.map_append, List.map_append]
      rfl
    rw [hsame]
    exact h.bases
  · intro b hb p hp hbase
    rcases hmem p hp with hp | rfl
    · rcases List.mem_cons.mp hb with rfl | hb
      · exact absurd hbase (h.base_ne hpages hp)
      · exact h.within b hb p (hold p hp) hbase
    · rw [hsum]
      rcases List.mem_cons.mp hb with rfl | hb
      · exact le_rfl
      · have hbelow := h.within b hb cur hcur hbase
        omega

theorem Kept.base_lt (h : s.Kept) {p : ArenaPage} (hp : p ∈ s.arena.pages) :
    p.base < s.calls.length := by
  obtain ⟨bytes, hcall, -⟩ := h.backed p hp
  exact (List.getElem?_eq_some_iff.mp hcall).1

/-- Other calls of `malloc` come in between. -/
theorem Kept.more_calls (h : s.Kept) (more : List SizeT) :
    Kept { s with calls := s.calls ++ more } where
  used_le := h.used_le
  backed p hp := by
    obtain ⟨bytes, hcall, hsize⟩ := h.backed p hp
    exact ⟨bytes, (List.getElem?_append_left (h.base_lt hp)).trans hcall, hsize⟩
  inside := h.inside
  aligned := h.aligned
  apart := h.apart
  bases := h.bases
  within := h.within

/-- An empty page is added to the chain. -/
theorem Kept.newPage (h : s.Kept) {bytes cap : SizeT}
    (hbytes : bytes.toNat = arenaHeader.toNat + cap.toNat) :
    Kept ⟨⟨s.arena.page, s.arena.next ++ [⟨s.calls.length, 0, cap⟩]⟩, s.calls ++ [bytes],
      s.blocks⟩ := by
  have hmore := h.more_calls [bytes]
  have hmem : ∀ p ∈ Arena.pages ⟨s.arena.page, s.arena.next ++ [⟨s.calls.length, 0, cap⟩]⟩,
      p ∈ s.arena.pages ∨ p = ⟨s.calls.length, 0, cap⟩ := by
    intro p hp
    rw [Arena.pages, ← List.cons_append, List.mem_append, List.mem_singleton] at hp
    exact hp
  refine ⟨⟨?_, ?_, ?_, h.aligned, h.apart⟩, ?_, ?_⟩
  · intro p hp
    rcases hmem p hp with hp | rfl
    · exact h.used_le p hp
    · exact BitVec.le_def.mpr (Nat.zero_le _)
  · intro p hp
    rcases hmem p hp with hp | rfl
    · exact hmore.backed p hp
    · exact ⟨bytes, List.getElem?_concat_length, hbytes⟩
  · intro b hb
    obtain ⟨p, hp, hin⟩ := h.inside b hb
    exact ⟨p, List.mem_append_left _ hp, hin⟩
  · rw [Arena.pages, ← List.cons_append, List.map_append, List.nodup_append]
    refine ⟨h.bases, List.nodup_singleton _, ?_⟩
    intro b hb c hc
    obtain ⟨p, hp, rfl⟩ := List.mem_map.mp hb
    rw [List.mem_singleton.mp hc]
    exact (h.base_lt hp).ne
  · intro b hb p hp hbase
    rcases hmem p hp with hp | rfl
    · exact h.within b hb p hp hbase
    · -- no block is in a page that was not there
      obtain ⟨q, hq, hqbase, -⟩ := h.inside b hb
      have hlt := h.base_lt hq
      rw [hqbase, ← hbase] at hlt
      exact absurd hlt (lt_irrefl _)

/-! ### One call -/

/-- No page is asked for whose size wraps around. -/
def Fits (s : ArenaState) : ArenaCall → Prop
  | .alloc size align => NeedsPage s.arena.last size align →
      arenaHeader.toNat + (size.toNat + align.toNat) < 2 ^ 64
  | .reset => True

end ArenaState

/-- The alignment is a power of two up to 16. -/
def ArenaCall.Aligned : ArenaCall → Prop
  | .alloc _ align => IsAlign align
  | .reset => True

theorem NeedsPage.no_carry {cur : ArenaPage} {size align : SizeT} (h : NeedsPage cur size align) :
    size.toNat + align.toNat < 2 ^ 64 := by
  have halign := align.isLt
  have hle := h.2.2
  rw [BitVec.le_def, toNat_sizeMax_sub] at hle
  omega

/-- A page is as large as it says if the `Arena` fits before it. -/
theorem newPage_bytes_iff {size align : SizeT} (h : size.toNat + align.toNat < 2 ^ 64) :
    (arenaHeader + newPageCap size align).toNat =
        arenaHeader.toNat + (newPageCap size align).toNat ↔
      arenaHeader.toNat + (size.toNat + align.toNat) < 2 ^ 64 := by
  have hcap := toNat_newPageCap h
  have hheader : arenaHeader.toNat = 32 := rfl
  rw [BitVec.toNat_add, hcap, hheader]
  constructor
  · intro heq
    have hlt := Nat.mod_lt (32 + max (64 * 1024) (size.toNat + align.toNat)) (Nat.two_pow_pos 64)
    omega
  · intro hlt
    exact Nat.mod_eq_of_lt (by omega)

namespace ArenaState

variable {malloc : Malloc} {s s' : ArenaState} {size align : SizeT} {r : Option ArenaPtr}

theorem Kept.last_cap (h : s.Kept) : s.arena.last.cap.toNat + 32 < 2 ^ 64 := by
  obtain ⟨bytes, -, hbytes⟩ := h.backed s.arena.last (List.getLast_mem _)
  have hlt := bytes.isLt
  have hheader : arenaHeader.toNat = 32 := rfl
  omega

/-- What a call returns, and what it does to the blocks. -/
theorem Kept.alloc (h : s.Kept) (ha : IsAlign align) (hfits : s.Fits (.alloc size align))
    (hcall : s.alloc malloc size align = some (r, s')) : s'.Kept := by
  obtain ⟨⟨r', arena, calls⟩, halloc, heq⟩ := Option.bind_eq_some_iff.mp hcall
  cases heq
  obtain ⟨b, hpage, hb⟩ := arenaAlloc_eq.mp halloc
  have hpages := pages_eq s.arena
  rcases pageAlloc_cases ha h.last_cap (h.used_le _ (List.getLast_mem _)) hpage with
    ⟨rfl, hbp, rfl⟩ | ⟨off, hused, hcap, hdvd, rfl, hbp, rfl⟩ | ⟨hneeds, rfl, hbp, rfl, -⟩
  · -- the request is refused
    rw [hbp, ← hpages] at hb
    obtain ⟨p, ps⟩ := arena
    obtain ⟨rfl, rfl⟩ := List.cons.inj hb
    exact h
  · rw [hbp] at hb
    exact h.place hpages hused hcap hdvd hb
  · have hbytes := (newPage_bytes_iff hneeds.no_carry).mpr (hfits hneeds)
    have hcap := toNat_newPageCap hneeds.no_carry
    have hchain : arena.pages = s.arena.pages ++
        [⟨s.calls.length, 0 + size, newPageCap size align⟩] := by
      have hzero : 0 + size = size := BitVec.zero_add size
      rw [hb, hbp, hzero]
      conv_rhs => rw [hpages]
      rw [List.append_assoc]
      rfl
    have hsize : (0 : SizeT).toNat + size.toNat ≤ (newPageCap size align).toNat := by
      change 0 + size.toNat ≤ (newPageCap size align).toNat
      omega
    have hfresh : Arena.pages ⟨s.arena.page,
        s.arena.next ++ [⟨s.calls.length, 0, newPageCap size align⟩]⟩ =
          s.arena.pages ++ [⟨s.calls.length, 0, newPageCap size align⟩] := rfl
    exact (h.newPage hbytes).place hfresh le_rfl hsize (dvd_zero _) hchain

theorem Kept.reset (h : s.Kept) : Kept ⟨arenaReset s.arena, s.calls, []⟩ := by
  have hpages : (arenaReset s.arena).pages = [{ s.arena.page with used := 0 }] := rfl
  refine ⟨⟨?_, ?_, ?_, ?_, List.Pairwise.nil⟩, ?_, ?_⟩
  · intro p hp
    rw [hpages, List.mem_singleton] at hp
    rw [hp]
    exact BitVec.le_def.mpr (Nat.zero_le _)
  · intro p hp
    rw [hpages, List.mem_singleton] at hp
    rw [hp]
    exact h.backed s.arena.page List.mem_cons_self
  · exact fun b hb => absurd hb List.not_mem_nil
  · exact fun b hb => absurd hb List.not_mem_nil
  · rw [hpages]
    exact List.nodup_singleton _
  · exact fun b hb => absurd hb List.not_mem_nil

theorem Kept.step (h : s.Kept) {op : ArenaCall} (ha : op.Aligned) (hfits : s.Fits op)
    (hstep : s.step malloc op = some s') : s'.Kept := by
  cases op with
  | alloc size align =>
    obtain ⟨⟨r, t⟩, hcall, rfl⟩ := Option.map_eq_some_iff.mp hstep
    exact h.alloc ha hfits hcall
  | reset =>
    cases hstep
    exact h.reset

/-- The page that does not fit is there after the call. -/
theorem not_sound_of_not_fits {op : ArenaCall} (ha : op.Aligned) (hfits : ¬s.Fits op)
    (hstep : s.step malloc op = some s') : ¬s'.Sound := by
  cases op with
  | reset => exact absurd trivial hfits
  | alloc size align =>
    obtain ⟨hneeds, hwraps⟩ := Classical.not_imp.mp hfits
    obtain ⟨⟨r, t⟩, hcall, rfl⟩ := Option.map_eq_some_iff.mp hstep
    obtain ⟨⟨r', arena, calls⟩, halloc, heq⟩ := Option.bind_eq_some_iff.mp hcall
    cases heq
    obtain ⟨b, hpage, hb⟩ := arenaAlloc_eq.mp halloc
    rw [pageAlloc_new ha hneeds] at hpage
    obtain ⟨⟨base, more⟩, hbase, heq⟩ := Option.map_eq_some_iff.mp hpage
    obtain ⟨rfl, rfl, -⟩ := mallocOrExit_eq hbase
    cases heq
    intro hsound
    have hmem : (⟨s.calls.length, size, newPageCap size align⟩ : ArenaPage) ∈ arena.pages := by
      rw [hb]
      exact List.mem_append_right _ (List.mem_cons_of_mem _ List.mem_cons_self)
    obtain ⟨bytes, hbytes, hsize⟩ := hsound.backed _ hmem
    have hlast : (s.calls ++ [arenaHeader + newPageCap size align])[s.calls.length]? =
        some (arenaHeader + newPageCap size align) := List.getElem?_concat_length
    obtain rfl := Option.some.inj (hlast.symm.trans hbytes)
    exact hwraps ((newPage_bytes_iff hneeds.no_carry).mp hsize)

/-! ### Runs -/

theorem arenaCreate_eq {initialCap : SizeT} {calls calls' : List SizeT} {a : Arena}
    (h : arenaCreate malloc initialCap calls = some (a, calls')) :
    ∃ cap, cap = (if initialCap = 0 then arenaDefaultCap else initialCap) ∧
      a = ⟨⟨calls.length, 0, cap⟩, []⟩ ∧ calls' = calls ++ [arenaHeader + cap] := by
  obtain ⟨⟨base, more⟩, hcall, heq⟩ := Option.bind_eq_some_iff.mp h
  obtain ⟨rfl, rfl, -⟩ := mallocOrExit_eq hcall
  cases heq
  exact ⟨_, rfl, rfl, rfl⟩

/-- The `Arena` fits before the first page. -/
theorem create_bytes_iff (initialCap : SizeT) :
    (arenaHeader + if initialCap = 0 then arenaDefaultCap else initialCap).toNat =
        arenaHeader.toNat + (if initialCap = 0 then arenaDefaultCap else initialCap).toNat ↔
      arenaHeader.toNat + initialCap.toNat < 2 ^ 64 := by
  have hheader : arenaHeader.toNat = 32 := rfl
  split
  · rename_i hzero
    subst hzero
    exact iff_of_true rfl (by decide)
  · rw [BitVec.toNat_add]
    constructor
    · intro heq
      rw [← heq]
      exact Nat.mod_lt _ (Nat.two_pow_pos 64)
    · exact Nat.mod_eq_of_lt

theorem kept_create {initialCap : SizeT} {a : Arena} {calls : List SizeT}
    (hfits : arenaHeader.toNat + initialCap.toNat < 2 ^ 64)
    (h : arenaCreate malloc initialCap [] = some (a, calls)) : Kept ⟨a, calls, []⟩ := by
  obtain ⟨cap, rfl, rfl, rfl⟩ := arenaCreate_eq h
  have hbytes := (create_bytes_iff initialCap).mpr hfits
  refine ⟨⟨?_, ?_, ?_, ?_, List.Pairwise.nil⟩, List.nodup_singleton _, ?_⟩
  · intro p hp
    rw [List.mem_singleton.mp hp]
    exact BitVec.le_def.mpr (Nat.zero_le _)
  · intro p hp
    rw [List.mem_singleton.mp hp]
    exact ⟨_, rfl, hbytes⟩
  · exact fun b hb => absurd hb List.not_mem_nil
  · exact fun b hb => absurd hb List.not_mem_nil
  · exact fun b hb => absurd hb List.not_mem_nil

theorem run_take_succ {initialCap : SizeT} {ops : List ArenaCall} {n : ℕ} {op : ArenaCall}
    (hop : ops[n]? = some op) :
    run malloc initialCap (ops.take (n + 1)) =
      (run malloc initialCap (ops.take n)).bind fun s => s.step malloc op := by
  obtain ⟨hlt, rfl⟩ := List.getElem?_eq_some_iff.mp hop
  rw [run, run, ← List.take_concat_get' ops n hlt]
  cases arenaCreate malloc initialCap [] with
  | none => rfl
  | some v =>
    simp only [Option.bind_eq_bind, Option.bind_some, List.foldlM_append, List.foldlM_cons,
      List.foldlM_nil]
    congr 1
    funext s
    exact bind_pure (m := Option) (s.step malloc ops[n])

/-- Every state of a run is kept if no page wraps around. -/
theorem kept_run {initialCap : SizeT} {ops : List ArenaCall} (ha : ∀ op ∈ ops, op.Aligned)
    (hinit : arenaHeader.toNat + initialCap.toNat < 2 ^ 64)
    (hfits : ∀ n s op, run malloc initialCap (ops.take n) = some s → ops[n]? = some op → s.Fits op)
    (n : ℕ) (h : run malloc initialCap (ops.take n) = some s) : s.Kept := by
  induction n generalizing s with
  | zero =>
    obtain ⟨⟨a, calls⟩, hcreate, heq⟩ := Option.bind_eq_some_iff.mp h
    cases heq
    exact kept_create hinit hcreate
  | succ n ih =>
    cases hop : ops[n]? with
    | none =>
      have hlen := List.getElem?_eq_none_iff.mp hop
      rw [List.take_of_length_le (by omega)] at h
      rw [List.take_of_length_le hlen] at ih
      exact ih h
    | some op =>
      rw [run_take_succ hop] at h
      obtain ⟨t, ht, hstep⟩ := Option.bind_eq_some_iff.mp h
      exact (ih ht).step (ha op (List.mem_of_getElem? hop)) (hfits n t op ht hop) hstep

theorem run_take_isSome {initialCap : SizeT} {ops : List ArenaCall}
    (h : (run malloc initialCap ops).isSome) (n : ℕ) :
    (run malloc initialCap (ops.take n)).isSome := by
  rw [← List.take_append_drop n ops] at h
  rw [run] at h ⊢
  cases hcreate : arenaCreate malloc initialCap [] with
  | none =>
    rw [hcreate] at h
    cases h
  | some v =>
    rw [hcreate] at h
    simp only [Option.bind_eq_bind, Option.bind_some, List.foldlM_append] at h ⊢
    exact Option.isSome_of_isSome_bind h

/-- The arena is sound in every state of a run if no page is asked for whose size wraps around, and
in a run that goes through only if there is none. -/
theorem arena_sound_iff (malloc : Malloc) (initialCap : SizeT) (ops : List ArenaCall)
    (ha : ∀ op ∈ ops, op.Aligned) :
    let Fit := arenaHeader.toNat + initialCap.toNat < 2 ^ 64 ∧
      ∀ n s op, run malloc initialCap (ops.take n) = some s → ops[n]? = some op → s.Fits op
    let AllSound := ∀ n s, run malloc initialCap (ops.take n) = some s → s.Sound
    (Fit → AllSound) ∧ ((run malloc initialCap ops).isSome → AllSound → Fit) := by
  refine ⟨fun ⟨hinit, hfits⟩ n s h => (kept_run ha hinit hfits n h).toSound, ?_⟩
  intro hsome hall
  refine ⟨?_, fun n s op h hop => ?_⟩
  · obtain ⟨s, hs⟩ := Option.isSome_iff_exists.mp (run_take_isSome hsome 0)
    have hsound := hall 0 s hs
    obtain ⟨⟨a, calls⟩, hcreate, heq⟩ := Option.bind_eq_some_iff.mp hs
    cases heq
    obtain ⟨cap, rfl, rfl, rfl⟩ := arenaCreate_eq hcreate
    obtain ⟨bytes, hbytes, hsize⟩ := hsound.backed _ List.mem_cons_self
    cases hbytes
    exact (create_bytes_iff initialCap).mp hsize
  · by_contra hnot
    obtain ⟨t, ht⟩ := Option.isSome_iff_exists.mp (run_take_isSome hsome (n + 1))
    have hstep := ht
    rw [run_take_succ hop, h] at hstep
    exact not_sound_of_not_fits (ha op (List.mem_of_getElem? hop)) hnot hstep (hall _ t ht)

theorem arena_sound_three : ∃ s,
    run (fun _ bytes => bytes.toNat < 2 ^ 32) 0 [.alloc 1 1, .reset, .alloc 8 8] = some s ∧ s.Sound := by
  have ha : ∀ op ∈ [ArenaCall.alloc 1 1, .reset, .alloc 8 8], op.Aligned := by
    intro op hop
    simp only [List.mem_cons, List.not_mem_nil, or_false] at hop
    rcases hop with rfl | rfl | rfl
    · exact ⟨0, by decide, rfl⟩
    · trivial
    · exact ⟨3, by decide, rfl⟩
  refine ⟨_, rfl, ?_⟩
  refine (arena_sound_iff (fun _ bytes => bytes.toNat < 2 ^ 32) 0 _ ha).1 ⟨by decide, ?_⟩ 3 _ rfl
  intro n s op _ hop
  have hmem := List.mem_of_getElem? hop
  simp only [List.mem_cons, List.not_mem_nil, or_false] at hmem
  rcases hmem with rfl | rfl | rfl
  · exact fun _ => by decide
  · trivial
  · exact fun _ => by decide

/-- The second page is 31 bytes long. -/
theorem wrapped_page : ∃ s,
    run (fun _ bytes => bytes.toNat < 2 ^ 32) 0 [.alloc (sizeMax - 16) 16] = some s ∧ ¬s.Sound := by
  refine ⟨_, rfl, fun h => ?_⟩
  obtain ⟨bytes, hbytes, hsize⟩ := h.backed ⟨1, sizeMax - 16, sizeMax⟩ (by decide)
  cases hbytes
  revert hsize
  decide

end ArenaState

end TinyC

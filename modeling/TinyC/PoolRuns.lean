import TinyC.StringPool

/-!
# Runs of the string pool

`emit_asciz` leaves no quote and no newline bare, so that its operand is read back as it was
written. Over any number of calls, `ir_add_string_const` gives one label to one string.
-/

namespace TinyC

/-! ### Escapes -/

/-- Reads an operand up to its closing quote: whether the byte before was an opening backslash, or
nothing if a quote or newline stood bare. -/
def bareStep : Option Bool → Byte → Option Bool
  | some true, c => if c = ch '\n' then none else some false
  | some false, c =>
      if c = ch '\\' then some true else if c = ch '"' ∨ c = ch '\n' then none else some false
  | none, _ => none

/-- No quote and no newline is bare, and the last escape is whole. -/
def Enclosed (body : List Byte) : Prop := body.foldl bareStep (some false) = some false

theorem bareStep_octal {n : ℕ} (h : n < 8) :
    bareStep (some false) (BitVec.ofNat 8 (48 + n)) = some false ∧
      bareStep (some true) (BitVec.ofNat 8 (48 + n)) = some false := by
  have hall : ∀ n < 8, bareStep (some false) (BitVec.ofNat 8 (48 + n)) = some false ∧
      bareStep (some true) (BitVec.ofNat 8 (48 + n)) = some false := by decide
  exact hall n h

theorem enclosed_ascizChar (c : Byte) : Enclosed (ascizChar c) := by
  unfold Enclosed ascizChar
  split
  · rfl
  split
  · rfl
  split
  · rfl
  split
  · rfl
  split
  · rfl
  split
  · have hlt := c.isLt
    obtain ⟨-, h₁⟩ := bareStep_octal (show c.toNat / 64 < 8 by omega)
    obtain ⟨h₂, -⟩ := bareStep_octal (show c.toNat / 8 % 8 < 8 by omega)
    obtain ⟨h₃, -⟩ := bareStep_octal (show c.toNat % 8 < 8 by omega)
    rw [octalDigits, List.foldl_cons, List.foldl_cons, List.foldl_cons, List.foldl_cons,
      show bareStep (some false) (ch '\\') = some true from rfl, h₁, h₂, h₃]
    rfl
  · rename_i hnl _ _ hslash hquote _
    rw [List.foldl_cons, List.foldl_nil, bareStep, if_neg hslash, if_neg (by tauto)]

theorem enclosed_flatMap (bytes : List Byte) : Enclosed (bytes.flatMap ascizChar) := by
  unfold Enclosed
  induction bytes with
  | nil => rfl
  | cons c bytes ih => rw [List.flatMap_cons, List.foldl_append, enclosed_ascizChar c, ih]

/-- What `emit_asciz` writes is read back as the string, and the quotes around it are the only
bare ones. -/
theorem emitAsciz_enclosed {bytes : List Byte} (hz : ∀ b ∈ bytes, b ≠ 0) :
    asciz (emitAsciz (cString bytes)) = some (bytes ++ [0]) ∧
      ∃ body, emitAsciz (cString bytes) = ch '"' :: (body ++ [ch '"']) ∧ Enclosed body := by
  have hself : cBytes (stringBytes (cString bytes)) = bytes := by
    rw [stringBytes_cString, cBytes_eq_self hz, cBytes_eq_self hz]
  refine ⟨by rw [asciz_emitAsciz, hself], bytes.flatMap ascizChar, ?_, enclosed_flatMap bytes⟩
  rw [emitAsciz, hself]

theorem cString_injective {a b : List Byte} (ha : ∀ c ∈ a, c ≠ 0) (hb : ∀ c ∈ b, c ≠ 0)
    (h : cString a = cString b) : a = b := by
  have hbytes := congrArg stringBytes h
  rwa [stringBytes_cString, stringBytes_cString, cBytes_eq_self ha, cBytes_eq_self hb] at hbytes

/-! ### The pool -/

/-- Calls of `ir_add_string_const` one after the other, and their labels. -/
def addStringConsts : List String → IrGen → List String × IrGen
  | [], g => ([], g)
  | data :: rest, g =>
      let (label, g) := addStringConst data g
      let (labels, g) := addStringConsts rest g
      (label :: labels, g)

/-- No label and no string is in the pool twice. -/
structure PoolExact (m : IRModule) : Prop extends PoolOk m where
  data : (m.strConsts.map IRStrConst.data).Nodup

theorem addStringConst_exact {g : IrGen} (hg : PoolExact g.module) (data : String) :
    PoolExact (addStringConst data g).2.module := by
  refine ⟨(addStringConst_pool hg.toPoolOk data).1, ?_⟩
  rw [addStringConst_eq]
  cases hfind : g.module.strConsts.find? fun s => s.data == data with
  | some s => exact hg.data
  | none =>
    rw [List.map_cons, List.nodup_cons]
    refine ⟨fun hmem => ?_, hg.data⟩
    obtain ⟨s, hs, heq⟩ := List.mem_map.mp hmem
    have hne := List.find?_eq_none.mp hfind s hs
    simp [heq] at hne

/-- A call adds its own string and no other. -/
theorem mem_addStringConst {g : IrGen} {data : String} {s : IRStrConst}
    (hs : s ∈ (addStringConst data g).2.module.strConsts) :
    s ∈ g.module.strConsts ∨ s = ⟨(addStringConst data g).1, data⟩ := by
  rw [addStringConst_eq] at hs ⊢
  cases hfind : g.module.strConsts.find? fun s => s.data == data with
  | some t =>
    rw [hfind] at hs
    exact Or.inl hs
  | none =>
    rw [hfind] at hs
    rcases List.mem_cons.mp hs with rfl | hs
    · exact Or.inr rfl
    · exact Or.inl hs

theorem addStringConsts_pool (datas : List String) {g : IrGen} (hg : PoolExact g.module) :
    PoolExact (addStringConsts datas g).2.module ∧
      g.module.strConsts ⊆ (addStringConsts datas g).2.module.strConsts ∧
      List.Forall₂ (fun data label =>
        (⟨label, data⟩ : IRStrConst) ∈ (addStringConsts datas g).2.module.strConsts)
        datas (addStringConsts datas g).1 ∧
      ∀ s ∈ (addStringConsts datas g).2.module.strConsts,
        s ∈ g.module.strConsts ∨ (s.data, s.label) ∈ datas.zip (addStringConsts datas g).1 := by
  induction datas generalizing g with
  | nil => exact ⟨hg, List.Subset.refl _, .nil, fun s hs => Or.inl hs⟩
  | cons data datas ih =>
    obtain ⟨-, hmem, hsub⟩ := addStringConst_pool hg.toPoolOk data
    obtain ⟨hpool, hsub', hall, hfrom⟩ := ih (addStringConst_exact hg data)
    refine ⟨hpool, fun s hs => hsub' (hsub hs), .cons (hsub' hmem) hall, fun s hs => ?_⟩
    rcases hfrom s hs with hs | hs
    · rcases mem_addStringConst hs with hs | rfl
      · exact Or.inl hs
      · exact Or.inr List.mem_cons_self
    · exact Or.inr (List.mem_cons_of_mem _ hs)

/-- A label is in the pool once. -/
theorem PoolOk.filter_label {m : IRModule} (hm : PoolOk m) {s : IRStrConst}
    (hs : s ∈ m.strConsts) : (m.strConsts.filter fun t => t.label = s.label) = [s] := by
  have hnodup := hm.nodup
  clear hm
  generalize m.strConsts = pool at hs hnodup
  induction pool with
  | nil => cases hs
  | cons t rest ih =>
    rw [List.map_cons, List.nodup_cons] at hnodup
    rw [List.filter_cons]
    rcases List.mem_cons.mp hs with rfl | hs
    · have hrest : (rest.filter fun t => t.label = s.label) = [] := by
        rw [List.filter_eq_nil_iff]
        intro t ht hlabel
        exact hnodup.1 (List.mem_map.mpr ⟨t, ht, by simpa using hlabel⟩)
      rw [if_pos (by simp), hrest]
    · have hne : t.label ≠ s.label := fun h => hnodup.1 (List.mem_map.mpr ⟨s, hs, h.symm⟩)
      rw [if_neg (by simpa using hne)]
      exact ih hs hnodup.2

theorem PoolExact.label_eq_iff {m : IRModule} (hm : PoolExact m) {s t : IRStrConst}
    (hs : s ∈ m.strConsts) (ht : t ∈ m.strConsts) : s.label = t.label ↔ s.data = t.data := by
  constructor
  · intro h
    rw [List.inj_on_of_nodup_map hm.nodup hs ht h]
  · intro h
    rw [List.inj_on_of_nodup_map hm.data hs ht h]

/-- Every byte string survives the assembler, and over any number of calls the labels of the pool
are as distinct as its strings, each with one entry. -/
theorem strings_pooled (datas : List (List Byte)) (g : IrGen) (hg : g.module.strConsts = [])
    (hz : ∀ bytes ∈ datas, ∀ b ∈ bytes, b ≠ 0) :
    (∀ bytes ∈ datas, asciz (emitAsciz (cString bytes)) = some (bytes ++ [0]) ∧
      ∃ body, emitAsciz (cString bytes) = ch '"' :: (body ++ [ch '"']) ∧ Enclosed body) ∧
    (addStringConsts (datas.map cString) g).1.length = datas.length ∧
    (∀ x ∈ datas.zip (addStringConsts (datas.map cString) g).1,
      ∀ y ∈ datas.zip (addStringConsts (datas.map cString) g).1, x.2 = y.2 ↔ x.1 = y.1) ∧
    (∀ x ∈ datas.zip (addStringConsts (datas.map cString) g).1,
      ((addStringConsts (datas.map cString) g).2.module.strConsts.filter
        fun s => s.label = x.2) = [⟨x.2, cString x.1⟩]) ∧
    ∀ s ∈ (addStringConsts (datas.map cString) g).2.module.strConsts,
      (s.data, s.label) ∈ (datas.map cString).zip (addStringConsts (datas.map cString) g).1 := by
  have hpool : PoolExact g.module := ⟨⟨by simp [hg], by simp [hg]⟩, by simp [hg]⟩
  obtain ⟨hexact, -, hall, hfrom⟩ := addStringConsts_pool (datas.map cString) hpool
  have hlen : (addStringConsts (datas.map cString) g).1.length = datas.length := by
    rw [← hall.length_eq, List.length_map]
  have hmem : ∀ x ∈ datas.zip (addStringConsts (datas.map cString) g).1,
      (⟨x.2, cString x.1⟩ : IRStrConst) ∈
        (addStringConsts (datas.map cString) g).2.module.strConsts := by
    intro x hx
    have hall' := List.forall₂_map_left_iff.mp hall
    exact List.forall₂_zip hall' hx
  refine ⟨fun bytes hbytes => emitAsciz_enclosed (hz bytes hbytes), hlen, ?_, ?_, ?_⟩
  · intro x hx y hy
    rw [hexact.label_eq_iff (hmem x hx) (hmem y hy)]
    refine ⟨fun h => ?_, fun h => congrArg cString h⟩
    exact cString_injective (hz _ (List.of_mem_zip hx).1) (hz _ (List.of_mem_zip hy).1) h
  · intro x hx
    exact hexact.toPoolOk.filter_label (hmem x hx)
  · intro s hs
    rcases hfrom s hs with hs | hs
    · rw [hg] at hs
      cases hs
    · exact hs

/-- A byte above 127 before a digit, then another string, then the first one again. -/
theorem strings_pooled_high :
    asciz (emitAsciz (cString [200, ch '7'])) = some [200, ch '7', 0] ∧
      (addStringConsts ([[200, ch '7'], [ch '"'], [200, ch '7']].map cString) emptyGen).1.length =
        3 := by
  obtain ⟨hread, hlen, -⟩ := strings_pooled [[200, ch '7'], [ch '"'], [200, ch '7']] emptyGen rfl
    (by decide)
  exact ⟨(hread _ List.mem_cons_self).1, hlen⟩

end TinyC

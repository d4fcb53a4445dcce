import TinyC.Lowering

/-!
# The code of accesses and operators

What the code of a load, a store, a member, a scaled index or an operator does on words is what the
node means on numbers.
-/

namespace TinyC

open ByteMemory PartialRuns TwosComplement

namespace Lowering

variable {B : Lowering} {Γ : TypeEnv} {ω : Objects}

/-- The word of a number of the type. -/
def Word (Γ : TypeEnv) (ty : CType) (x : BitVec 64) (v : ℤ) : Prop := x = wordOf v ∧ ty.Fits Γ v

variable (B) in
/-- The variables in scope have the addresses of the objects, and what belongs to the program may
be accessed. -/
structure Matches (ω : Objects) : Prop where
  place : ∀ {x e}, B.scope.lookup vtabBuckets x = some e →
    B.objects.operand B.held e.addr = ω.place x
  valid : ∀ {a n}, ω.valid a n = true → B.objects.valid a n = true

variable (B Γ) in
/-- Whenever `c` is defined the code of `m` leaves a word that `r` relates to its result. -/
def Yields {β : Type} (m : Gen IRValue) (r : BitVec 64 → β → Prop) (c : Meaning β) : Prop :=
  ∃ ev, B.Realises Γ [] m ev one ∧ Refines r ev c

theorem Yields.andThen {β δ : Type} {m : Gen IRValue} {t : Option CType}
    {r : BitVec 64 → β → Prop} {r' : BitVec 64 → δ → Prop} {c : Meaning β} {l : β → Meaning δ}
    {k : IRValue → Gen IRValue} {ek : BitVec 64 → WordSem (BitVec 64)} (hm : B.Yields Γ m r c)
    (hT : B.Typed m t) (hk : ∀ v x, v.type = t → B.Realises Γ [(v, x)] (k v) (ek x) one)
    (hl : ∀ x b, r x b → Refines r' (ek x) (l b)) : B.Yields Γ (m >>= k) r' (c >>= l) := by
  obtain ⟨ev, hrun, href⟩ := hm
  exact ⟨_, hrun.andThen hT hk, href.bind hl⟩

theorem Yields.mono {β : Type} {m : Gen IRValue} {r r' : BitVec 64 → β → Prop} {c : Meaning β}
    (hm : B.Yields Γ m r c) (h : ∀ x b, r x b → r' x b) : B.Yields Γ m r' c := by
  obtain ⟨ev, hrun, href⟩ := hm
  exact ⟨ev, hrun, href.mono h⟩

theorem Yields.word {m : Gen IRValue} {ty : CType} {c : Meaning ℤ}
    (hm : B.Yields Γ m (Word Γ ty) c) : B.Yields Γ m (fun x v => x = wordOf v) c :=
  hm.mono fun _ _ h => h.1

/-! ### Accesses -/

section Accesses

variable {ty : CType} {ta tb tv : Option CType} {a x y : BitVec 64} {v : ℤ} {H : Facts}
  {addr val : IRValue}

theorem refines_load (hM : B.Matches ω) (hty : ty.isWord = true) :
    Refines (Word Γ ty) (wordSem (B.objects.resultWord Γ .load ta tb ty a y)) (ω.read Γ ty a) := by
  refine .asks fun m v hv => ?_
  obtain ⟨⟨hvalid, hholds⟩, hval⟩ := Option.ite_none_right_eq_some.mp hv
  rw [Option.some.inj hval] at hholds
  refine ⟨readWord Γ (some ty) m a, ?_, ?_, (fits_word hty).mpr hholds⟩
  · rw [ObjectLayout.resultWord, accessBytes_word hty, if_pos (hM.valid hvalid)]
  · rw [readWord_word hty, Option.some.inj hval]

/-- The type of a store through an address of type `ta` of a value of type `tv`. -/
def storedType (ta tv : Option CType) : Option CType :=
  storeType { op := .store, dst := ⟨.none, ta⟩, src1 := ⟨.none, tv⟩ }

theorem refines_store (hM : B.Matches ω)
    (hst : accessBytes Γ (storedType ta tv) = (typeSizeof Γ ty).toNat) :
    Refines (fun _ _ => True) (memSem (B.objects.storeWord Γ ta tv a (wordOf v)))
      (ω.write Γ ty a v) := by
  refine .modifies fun m m' hm => ?_
  obtain ⟨hvalid, hstore⟩ := Option.ite_none_right_eq_some.mp hm
  change (if B.objects.valid a (accessBytes Γ (storedType ta tv)) then
    some (store m a (accessBytes Γ (storedType ta tv)) (wordOf v)) else none) = some m'
  rw [hst, if_pos (hM.valid hvalid), hstore]

/-- The value of an object, once its address is there. -/
theorem Yields.load {m : Gen IRValue} {place : Meaning Addr} {t : Option CType}
    (hM : B.Matches ω) (hty : ty.isWord = true) (hm : B.Yields Γ m Eq place) (hT : B.Typed m t) :
    B.Yields Γ (m >>= fun p => TinyC.genLoad p ty) (Word Γ ty) (place >>= ω.read Γ ty) := by
  refine hm.andThen hT (fun p x hp => .emitTo rfl ty (.of_mem List.mem_cons_self) .none hp rfl) ?_
  rintro x a rfl
  exact refines_load hM hty

/-- The words an addition and a subtraction make. -/
theorem resultWord_step (op : TokenKind) (x : BitVec 64) (n : ℤ) (m : Mem) :
    B.objects.resultWord Γ (if op = .plusplus then .add else .sub) ta tb ty x (wordOf n) m =
      some (if op = .plusplus then x + wordOf n else x - wordOf n) := by
  split <;> rfl

/-- `++` and `--`. -/
theorem genStep_yields {op : TokenKind} {nodeType : Option CType} {m : Gen IRValue}
    {place : Meaning Addr} {t : Option CType} (hM : B.Matches ω)
    (hty : (nodeType.getD typeInt).isWord = true) (hm : B.Yields Γ m Eq place) (hT : B.Typed m t)
    (hst : accessBytes Γ (storedType t (some (nodeType.getD typeInt))) =
      (typeSizeof Γ (nodeType.getD typeInt)).toNat) :
    ∃ ev, B.Realises Γ [] (genStep Γ op nodeType m) ev
        (fun p q => [(p.1, q.1), (p.2, q.2)]) ∧
      Refines (fun (p : BitVec 64 × BitVec 64) q => p.1 = wordOf q.1 ∧ p.2 = wordOf q.2) ev
        (stepMeaning Γ ω op (nodeType.getD typeInt) place) := by
  obtain ⟨ev, hrun, href⟩ := hm
  have hop : isPlain (if op = .plusplus then .add else .sub) = true := by split <;> rfl
  refine ⟨_, hrun.andThen hT fun p x hp => .andThen
    (.emitTo rfl _ (.of_mem List.mem_cons_self) .none hp rfl) (fun _ _ => rfl) fun old y hold =>
      .andThen (.emitTo hop _ (.of_mem List.mem_cons_self) (.int _ _) hold rfl) (fun _ _ => rfl)
        fun new z hnew => .bind (T := fun _ => True)
          (.genStore (.of_mem (x := x) (by simp)) (.of_mem List.mem_cons_self) hp hnew) (fun _ _ => trivial)
          fun _ _ _ => .pure (b := (y, z)) (by simp), ?_⟩
  refine href.bind fun x a hx => ?_
  subst hx
  refine (refines_load hM hty).bind fun y old hold => .bind (r := fun z v => z = wordOf v) ?_ ?_
  · refine .asks_ofOption fun new hnew m => ⟨_, resultWord_step op _ _ m, ?_⟩
    obtain ⟨-, hval⟩ := Option.ite_none_right_eq_some.mp hnew
    rw [hold.1, ← Option.some.inj hval]
    split
    · exact (wordOf_add _ _).symm
    · exact (wordOf_sub _ _).symm
  · rintro z new rfl
    exact (refines_store hM hst).bind fun _ _ _ => .pure ⟨hold.1, rfl⟩

end Accesses

/-! ### Operators -/

section Operators

variable {β δ : Type} {op : IROp} {ty : CType} {t tl tr : Option CType} {m l r : Gen IRValue}
  {q : BitVec 64 → δ → Prop} {p : BitVec 64 → β → Prop} {c : Meaning β} {b : IRValue}
  {x y : BitVec 64} {n : ℤ} {H : Facts} {v : IRValue}

/-- An operator whose second operand is no temp. -/
theorem Yields.unary {f : β → Option δ} (hm : B.Yields Γ m p c) (hT : B.Typed m t)
    (hop : isPlain op = true) (hb : ∀ H, B.Reads H b y)
    (hf : ∀ x a d, p x a → f a = some d →
      ∀ m, ∃ z, B.objects.resultWord Γ op t b.type ty x y m = some z ∧ q z d) :
    B.Yields Γ (m >>= fun v => emitTo ty op v b) q (c >>= fun a => Partial.ofOption (f a)) :=
  hm.andThen hT (fun _ _ hv => .emitTo hop ty (.of_mem List.mem_cons_self) (hb _) hv rfl)
    fun x a ha => .asks_ofOption fun d hd => hf x a d ha hd

variable (B Γ) in
/-- The word of a scaled index. -/
def scaledWord (t : Option CType) (x : BitVec 64) (n : ℤ) : WordSem (BitVec 64) :=
  if n = 1 then pure x
  else wordSem (B.objects.resultWord Γ .mul t (some typeLong) typeLong x (wordOf n))

theorem realises_genScaled (h : (v, x) ∈ H) (hT : v.type = t) :
    B.Realises Γ H (genScaled v n) (B.scaledWord Γ t x n) one := by
  unfold genScaled scaledWord
  split
  · exact .pure fun p hp => List.mem_singleton.mp hp ▸ h
  · exact .emitTo rfl typeLong (.of_mem h) (.int _ _) hT rfl

theorem typed_genScaled (hT : v.type = t) :
    B.Typed (genScaled v n) (if n = 1 then t else some typeLong) := by
  intro g _
  unfold genScaled
  split
  · exact hT
  · rfl

theorem refines_scaledWord : Refines Eq (B.scaledWord Γ t x n) (pure (x * wordOf n)) := by
  unfold scaledWord
  split
  · rename_i h
    refine .pure ?_
    subst h
    exact (BitVec.mul_one x).symm
  · exact .asks_pure fun m => ⟨x * wordOf n, rfl, rfl⟩

/-- An operator one of whose operands is scaled first and put last, the left one if `left` says so.
-/
theorem Yields.scaled {β' : Type} {cl : Meaning β} {cr : Meaning β'} {p' : BitVec 64 → β' → Prop}
    {f : β → β' → Option δ} (left : Bool) (hl : B.Yields Γ l p cl) (hlT : B.Typed l tl)
    (hr : B.Yields Γ r p' cr) (hrT : B.Typed r tr) (hop : isPlain op = true)
    (hf : ∀ x a y b d, p x a → p' y b → f a b = some d → ∀ m, ∃ z,
      B.objects.resultWord Γ op (cond left tr tl)
        (if n = 1 then cond left tl tr else some typeLong) ty (cond left y x)
        (cond left x y * wordOf n) m = some z ∧ q z d) :
    B.Yields Γ
      (l >>= fun lv => r >>= fun rv => newTemp >>= fun t => genScaled (cond left lv rv) n >>=
        fun s => emit { op := op, dst := irvTemp t ty, src1 := cond left rv lv, src2 := s } >>=
          fun _ => pure (irvTemp t ty)) q
      (cl >>= fun a => cr >>= fun b => Partial.ofOption (f a b)) := by
  obtain ⟨el, hlrun, hlref⟩ := hl
  obtain ⟨er, hrrun, hrref⟩ := hr
  have hread : ∀ (lv rv : IRValue) (x y : BitVec 64),
      (cond left lv rv, cond left x y) ∈ [(rv, y), (lv, x)] ∧
        (cond left rv lv, cond left y x) ∈ [(rv, y), (lv, x)] := fun lv rv x y => by
    cases left <;> simp
  have htype : ∀ {lv rv : IRValue}, lv.type = tl → rv.type = tr →
      (cond left lv rv).type = cond left tl tr ∧ (cond left rv lv).type = cond left tr tl := by
    rintro lv rv rfl rfl
    cases left <;> exact ⟨rfl, rfl⟩
  refine ⟨_, hlrun.andThen hlT fun lv x hlv =>
    (hrrun.frame (List.nil_subset _)).andThen hrT fun rv y hrv =>
      .reserved hop ty (.of_mem (hread lv rv x y).2) (htype hlv hrv).2
        (realises_genScaled (hread lv rv x y).1 (htype hlv hrv).1)
        (typed_genScaled (htype hlv hrv).1), ?_⟩
  refine hlref.bind fun x a hx => hrref.bind fun y b hy => refines_scaledWord.step fun z hz => ?_
  subst hz
  exact .asks_ofOption fun d hd => hf x a y b d hx hy hd

/-- The words of an operator on numbers. -/
theorem resultWord_binop {tk : TokenKind} (htk : tk ∈ binaryOperators) (m : Mem) :
    B.objects.resultWord Γ (tokToIrBinop tk) tl tr ty x y m =
      machineBinop (tokToIrBinop tk) (isUnsigned tl || isUnsigned tr) x y := by
  simp only [binaryOperators, List.mem_cons, List.not_mem_nil, or_false] at htk
  rcases htk with rfl | rfl | rfl | rfl | rfl | rfl | rfl | rfl | rfl | rfl | rfl | rfl | rfl |
    rfl | rfl | rfl <;> rfl

theorem isPlain_binop {tk : TokenKind} (htk : tk ∈ binaryOperators) :
    isPlain (tokToIrBinop tk) = true := by
  simp only [binaryOperators, List.mem_cons, List.not_mem_nil, or_false] at htk
  rcases htk with rfl | rfl | rfl | rfl | rfl | rfl | rfl | rfl | rfl | rfl | rfl | rfl | rfl |
    rfl | rfl | rfl <;> rfl

theorem pointerPointeeSize_pos (ty : Option CType) : 0 < pointerPointeeSize Γ ty := by
  unfold pointerPointeeSize
  split
  · split
    · assumption
    · exact one_pos
  · exact one_pos

/-- The quotient of a difference of addresses. -/
theorem division_word {d n : ℤ} (hd : -2 ^ 63 ≤ d ∧ d < 2 ^ 63) (hn : 0 < n) (hn' : n < 2 ^ 63)
    (m : Mem) : B.objects.resultWord Γ .div tl tr ty (wordOf d) (wordOf n) m =
      some (wordOf (d.tdiv n)) := by
  have hnum : (wordOf d).toInt = d := TwosComplement.toInt_ofInt_of_range hd.1 hd.2
  have hden : (wordOf n).toInt = n := TwosComplement.toInt_ofInt_of_range (by omega) hn'
  have hne : wordOf n ≠ 0 := by
    intro hzero
    rw [hzero] at hden
    change 0 = n at hden
    omega
  have hle := Int.natAbs_tdiv_le_natAbs d n
  have hneg : d = -2 ^ 63 → d.tdiv n < 2 ^ 63 := by
    rintro rfl
    have hnonneg : 0 ≤ ((2 : ℤ) ^ 63).tdiv n := Int.tdiv_nonneg (by norm_num) hn.le
    rw [Int.neg_tdiv]
    omega
  have hidiv : idivq (cqtoHigh (wordOf d)) (wordOf d) (wordOf n) =
      some (wordOf (d.tdiv n), wordOf (d.tmod n)) := by
    refine idivq_cqto_eq_some.mpr ⟨hne, ?_, by rw [hnum, hden]⟩
    rw [hnum, hden]
    unfold SignedDivision.NoOverflow
    omega
  change (idivq (cqtoHigh (wordOf d)) (wordOf d) (wordOf n)).map Prod.fst = _
  rw [hidiv]
  rfl

theorem isPointerType_getD (ty : Option CType) :
    isPointerType ty = (ty.getD typeInt).isPointer := by
  cases ty <;> rfl

theorem pointerPointeeSize_getD (ty : Option CType) :
    pointerPointeeSize Γ ty = pointerPointeeSize Γ (some (ty.getD typeInt)) := by
  cases ty <;> rfl

theorem Yields.binary {β' : Type} {cl : Meaning β} {cr : Meaning β'} {p' : BitVec 64 → β' → Prop}
    {f : β → β' → Option δ} (hl : B.Yields Γ l p cl) (hlT : B.Typed l tl) (hr : B.Yields Γ r p' cr)
    (hrT : B.Typed r tr) (hop : isPlain op = true)
    (hf : ∀ x a y b d, p x a → p' y b → f a b = some d →
      ∀ m, ∃ z, B.objects.resultWord Γ op tl tr ty x y m = some z ∧ q z d) :
    B.Yields Γ (l >>= fun lv => r >>= fun rv => emitTo ty op lv rv) q
      (cl >>= fun a => cr >>= fun b => Partial.ofOption (f a b)) := by
  obtain ⟨el, hlrun, hlref⟩ := hl
  obtain ⟨er, hrrun, hrref⟩ := hr
  refine ⟨_, hlrun.andThen hlT fun lv x hlv =>
    (hrrun.frame (List.nil_subset _)).andThen hrT fun rv y hrv =>
      .emitTo hop ty (.of_mem (x := x) (by simp)) (.of_mem List.mem_cons_self) hlv hrv, ?_⟩
  exact hlref.bind fun x a hx => hrref.bind fun y b hy =>
    .asks_ofOption fun d hd => hf x a y b d hx hy hd

/-- The words of two addresses are the same if the addresses are. -/
theorem pointers_word {lty rty : CType} {a b : ℤ} (hl : lty.isPointer = true)
    (hr : rty.isPointer = true) (ha : lty.Fits Γ a) (hb : rty.Fits Γ b) :
    (wordOf a == wordOf b) = decide (a = b) := by
  have hrange : ∀ {ty : CType} {v : ℤ}, ty.isPointer = true → ty.Fits Γ v → InRange false 64 v := by
    intro ty v hty hv
    obtain ⟨-, -, hsigned, hbool, hsize⟩ := pointer_facts (Γ := Γ) hty
    have hword : ty.isWord = true := by rw [CType.isWord, hty, Bool.or_true]
    have hbits : ty.bits Γ = 64 := by rw [CType.bits, hsize]; rfl
    rw [fits_word hword, CType.Holds, hbool, if_neg Bool.false_ne_true, hsigned, hbits] at hv
    exact hv
  rw [beq_eq_decide]
  exact decide_eq_decide.mpr
    ⟨ofInt_inj_of_inRange (by omega) le_rfl (hrange hl ha) (hrange hr hb), congrArg _⟩

/-- The difference of two addresses, counted in elements. -/
theorem yields_difference {cl cr : Meaning ℤ} (hl : B.Yields Γ l (fun x v => x = wordOf v) cl)
    (hlT : B.Typed l tl) (hr : B.Yields Γ r (fun x v => x = wordOf v) cr) (hrT : B.Typed r tr)
    (hn : 0 < n) :
    B.Yields Γ
      (l >>= fun lv => r >>= fun rv => emitTo ty .sub lv rv >>= fun d =>
        if n = 1 then pure d else emitTo ty .div d (irvInt (wordOf n) typeLong))
      (fun x v => x = wordOf v)
      (cl >>= fun a => cr >>= fun b => Partial.ofOption
        (if -2 ^ 63 ≤ a - b ∧ a - b < 2 ^ 63 ∧ n < 2 ^ 63 then some ((a - b).tdiv n) else none)) := by
  obtain ⟨el, hlrun, hlref⟩ := hl
  obtain ⟨er, hrrun, hrref⟩ := hr
  let last (z : BitVec 64) : WordSem (BitVec 64) :=
    if n = 1 then pure z
    else wordSem (B.objects.resultWord Γ .div (some ty) (some typeLong) ty z (wordOf n))
  have hlast : ∀ v z H, v.type = some ty → B.Realises Γ ((v, z) :: H)
      (if n = 1 then pure v else emitTo ty .div v (irvInt (wordOf n) typeLong)) (last z) one := by
    intro v z H hv
    unfold last
    split
    · exact .pure (by simp [one])
    · exact .emitTo rfl ty (.of_mem List.mem_cons_self) (.int _ _) hv rfl
  refine ⟨_, hlrun.andThen hlT fun lv x hlv =>
    (hrrun.frame (List.nil_subset _)).andThen hrT fun rv y hrv => .andThen
      (.emitTo rfl ty (.of_mem (x := x) (by simp)) (.of_mem List.mem_cons_self) hlv hrv)
      (fun _ _ => rfl) fun d z hd => hlast d z _ hd, ?_⟩
  refine hlref.bind fun x a hx => hrref.bind fun y b hy => ?_
  subst hx hy
  refine .step (r := Eq) (b := wordOf a - wordOf b) (.asks_pure fun m => ⟨_, rfl, rfl⟩) ?_
  rintro z rfl
  rw [← wordOf_sub]
  refine .ofOption fun d hd => ?_
  obtain ⟨⟨hlow, hhigh, hlt⟩, hd⟩ := Option.ite_none_right_eq_some.mp hd
  obtain rfl := Option.some.inj hd
  unfold last
  split
  · rename_i h
    subst h
    exact .pure (by rw [Int.tdiv_one])
  · exact .asks_pure fun m => ⟨_, division_word ⟨hlow, hhigh⟩ hn hlt m, rfl⟩

/-- The operators apart from `&&` and `||`. -/
theorem genBinop_yields {tk : TokenKind} {nodeType lt rt : Option CType} {cl cr : Meaning ℤ}
    (htk : tk ∈ binaryOperators) (hl : B.Yields Γ l (Word Γ (lt.getD typeInt)) cl)
    (hlT : B.Typed l tl) (hr : B.Yields Γ r (Word Γ (rt.getD typeInt)) cr) (hrT : B.Typed r tr)
    (hfl : isUnsigned tl = typeIsUnsignedInteger (lt.getD typeInt))
    (hfr : isUnsigned tr = typeIsUnsignedInteger (rt.getD typeInt)) :
    B.Yields Γ (genBinop Γ tk nodeType lt rt l r) (fun x v => x = wordOf v)
      (cl >>= fun a => cr >>= fun b =>
        Partial.ofOption (binopMeaning Γ tk (lt.getD typeInt) (rt.getD typeInt) a b)) := by
  have hlog : ¬(tk = .and ∨ tk = .or) := by
    rintro (rfl | rfl) <;> exact absurd htk (by decide)
  unfold genBinop binopMeaning
  rw [if_neg hlog]
  simp only [isPointerType_getD, ← pointerPointeeSize_getD]
  generalize lt.getD typeInt = lty at *
  generalize rt.getD typeInt = rty at *
  by_cases h₁ : tk = .plus ∧ lty.isPointer ∧ ¬rty.isPointer
  · obtain ⟨rfl, hp, hq⟩ := h₁
    simp only [hp, hq]
    refine hl.scaled false hlT hr hrT rfl ?_
    rintro x a y b d ⟨rfl, -⟩ ⟨rfl, -⟩ hd m
    obtain rfl := Option.some.inj hd
    exact ⟨_, rfl, by simp only [cond_false, wordOf_add, wordOf_mul]⟩
  by_cases h₂ : tk = .plus ∧ rty.isPointer ∧ ¬lty.isPointer
  · obtain ⟨rfl, hp, hq⟩ := h₂
    simp only [hp, hq]
    refine hl.scaled true hlT hr hrT rfl ?_
    rintro x a y b d ⟨rfl, -⟩ ⟨rfl, -⟩ hd m
    obtain rfl := Option.some.inj hd
    exact ⟨_, rfl, by simp only [cond_true, wordOf_add, wordOf_mul]⟩
  by_cases h₃ : tk = .minus ∧ lty.isPointer ∧ rty.isPointer
  · obtain ⟨rfl, hp, hq⟩ := h₃
    simp only [hp, hq]
    exact yields_difference hl.word hlT hr.word hrT (pointerPointeeSize_pos _)
  by_cases h₄ : tk = .minus ∧ lty.isPointer
  · obtain ⟨rfl, hp⟩ := h₄
    have hq : rty.isPointer = false := by simpa [hp] using h₃
    simp only [hp, hq]
    refine hl.scaled false hlT hr hrT rfl ?_
    rintro x a y b d ⟨rfl, -⟩ ⟨rfl, -⟩ hd m
    obtain rfl := Option.some.inj hd
    exact ⟨_, rfl, by simp only [cond_false, wordOf_sub, wordOf_mul]⟩
  have h₁' : (decide (tk = .plus) && lty.isPointer && !rty.isPointer) = false := by grind
  have h₂' : (decide (tk = .plus) && rty.isPointer && !lty.isPointer) = false := by grind
  have h₄' : (decide (tk = .minus) && lty.isPointer) = false := by grind
  simp only [h₁', h₂', h₄', if_neg h₁, if_neg h₂, if_neg h₃, if_neg h₄]
  refine hl.binary hlT hr hrT (isPlain_binop htk) ?_
  rintro x a y b d ⟨rfl, ha⟩ ⟨rfl, hb⟩ hd m
  rw [resultWord_binop htk, hfl, hfr]
  by_cases h₅ : lty.isPointer ∧ rty.isPointer
  · rw [if_pos h₅] at hd
    have heq := pointers_word (Γ := Γ) h₅.1 h₅.2 ha hb
    cases tk <;> cases hd <;> refine ⟨_, rfl, ?_⟩ <;>
      simp only [tokToIrBinop, cmpCond, Cond.holds, heq, truth] <;> grind
  · rw [if_neg h₅] at hd
    exact ⟨_, arithMeaning_word htk hd ha hb, rfl⟩

end Operators

/-! ### Assignments -/

section Assignments

variable {ty rt : CType} {tl tr : Option CType} {left right : NodeGen} {place : Meaning Addr}
  {cr : Meaning ℤ} {op : TokenKind} {nodeType lhsTy : Option CType} {bf : Option StructField}

/-- A simple assignment to a scalar that is no bit-field. -/
theorem genAssign_simple (hM : B.Matches ω) (hagg : isAggregateType lhsTy = false)
    (hbf : bf.filter (fun f => f.bitWidth > 0) = none)
    (hl : B.Yields Γ left.lvalue Eq place) (hlT : B.Typed left.lvalue tl)
    (hr : B.Yields Γ right.expr (fun x v => x = wordOf v) cr) (hrT : B.Typed right.expr tr)
    (hst : accessBytes Γ (storedType tl tr) = (typeSizeof Γ ty).toNat) :
    B.Yields Γ (genAssign Γ .assign nodeType lhsTy bf left right) (fun x v => x = wordOf v)
      (place >>= fun a => cr >>= fun v => ω.write Γ ty a v >>= fun _ => pure v) := by
  have hgen : genAssign Γ .assign nodeType lhsTy bf left right =
      left.lvalue >>= fun addr => right.expr >>= fun v => genStore addr v >>= fun _ => pure v := by
    unfold genAssign
    simp only [hagg, hbf, Bool.and_false, Bool.false_eq_true, if_false, if_true]
  obtain ⟨el, hlrun, hlref⟩ := hl
  obtain ⟨er, hrrun, hrref⟩ := hr
  rw [hgen]
  refine ⟨_, hlrun.andThen hlT fun addr x haddr =>
    (hrrun.frame (List.nil_subset _)).andThen hrT fun rv y hrv => .bind (T := fun _ => True)
      (.genStore (.of_mem (x := x) (by simp)) (.of_mem List.mem_cons_self) haddr hrv)
      (fun _ _ => trivial) fun _ _ _ => .pure (b := y) (by simp [one]), ?_⟩
  refine hlref.bind fun x a hx => hrref.bind fun y v hy => ?_
  subst hx hy
  exact (refines_store hM hst).bind fun _ _ _ => .pure rfl

/-- The operators of compound assignments. -/
def compoundOps : List TokenKind :=
  [.plusAssign, .minusAssign, .starAssign, .slashAssign, .percentAssign, .ampAssign, .pipeAssign,
    .caretAssign, .lshiftAssign, .rshiftAssign]

variable (Γ) in
/-- What the right operand of a compound assignment is scaled by. -/
def compoundScale (op : TokenKind) (ty : CType) : ℤ :=
  if ty.isPointer && (op = .plusAssign || op = .minusAssign) then pointerPointeeSize Γ (some ty)
  else 1

theorem genCompoundOperand_eq (rv : IRValue) :
    genCompoundOperand Γ op ty rv = genScaled rv (compoundScale Γ op ty) := by
  unfold genCompoundOperand compoundScale
  split
  · rfl
  · rfl

theorem compoundBase_mem (hop : op ∈ compoundOps) : compoundBase op ∈ binaryOperators := by
  simp only [compoundOps, List.mem_cons, List.not_mem_nil, or_false] at hop
  rcases hop with rfl | rfl | rfl | rfl | rfl | rfl | rfl | rfl | rfl | rfl <;> decide

/-- The word a compound assignment makes. -/
theorem compound_word {a b d : ℤ} (hop : op ∈ compoundOps) (hrt : rt.isPointer = false)
    (hfr : isUnsigned tr = typeIsUnsignedInteger rt) (ha : ty.Fits Γ a) (hb : rt.Fits Γ b)
    (hd : binopMeaning Γ (compoundBase op) ty rt a b = some d) (m : Mem) :
    B.objects.resultWord Γ (tokToIrBinop (compoundBase op)) (some ty)
      (if compoundScale Γ op ty = 1 then tr else some typeLong) ty (wordOf a)
      (wordOf b * wordOf (compoundScale Γ op ty)) m = some (wordOf d) := by
  unfold binopMeaning at hd
  cases hp : ty.isPointer with
  | false =>
    have hone : compoundScale Γ op ty = 1 := by rw [compoundScale, hp]; rfl
    simp only [hp, hrt, Bool.false_eq_true, and_false, false_and, if_false] at hd
    have hmul : wordOf b * wordOf 1 = wordOf b := BitVec.mul_one _
    have hword := arithMeaning_word (compoundBase_mem hop) hd ha hb
    rw [hone, if_pos rfl, hmul, resultWord_binop (compoundBase_mem hop), hfr]
    exact hword
  | true =>
    simp only [hp, hrt, Bool.false_eq_true, and_false, false_and, and_true, not_false_eq_true,
      if_false] at hd
    simp only [compoundOps, List.mem_cons, List.not_mem_nil, or_false] at hop
    have harith : ∀ tk, arithMeaning tk ty rt a b = none := by
      intro tk
      cases ty <;> first | rfl | cases hp
    rcases hop with rfl | rfl | rfl | rfl | rfl | rfl | rfl | rfl | rfl | rfl <;>
      simp only [compoundBase, harith, if_true, reduceCtorEq, if_false] at hd
    · obtain rfl := Option.some.inj hd
      have hscale : compoundScale Γ .plusAssign ty = pointerPointeeSize Γ (some ty) := by
        rw [compoundScale, hp]; rfl
      rw [hscale, wordOf_add, wordOf_mul]
      rfl
    · obtain rfl := Option.some.inj hd
      have hscale : compoundScale Γ .minusAssign ty = pointerPointeeSize Γ (some ty) := by
        rw [compoundScale, hp]; rfl
      rw [hscale, wordOf_sub, wordOf_mul]
      rfl

/-- A compound assignment. -/
theorem genAssign_compound (hM : B.Matches ω) (hop : op ∈ compoundOps)
    (hty : (nodeType.getD typeInt).isWord = true) (hrt : rt.isPointer = false)
    (hfr : isUnsigned tr = typeIsUnsignedInteger rt) (hl : B.Yields Γ left.lvalue Eq place)
    (hlT : B.Typed left.lvalue tl) (hr : B.Yields Γ right.expr (Word Γ rt) cr)
    (hrT : B.Typed right.expr tr)
    (hst : accessBytes Γ (storedType tl (some (nodeType.getD typeInt))) =
      (typeSizeof Γ (nodeType.getD typeInt)).toNat) :
    B.Yields Γ (genAssign Γ op nodeType lhsTy bf left right) (fun x v => x = wordOf v)
      (place >>= fun a => ω.read Γ (nodeType.getD typeInt) a >>= fun old => cr >>= fun v =>
        Partial.ofOption ((binopMeaning Γ (compoundBase op) (nodeType.getD typeInt) rt old v).bind
          (fitting Γ (nodeType.getD typeInt))) >>= fun new =>
            ω.write Γ (nodeType.getD typeInt) a new >>= fun _ => pure new) := by
  have hne : op ≠ .assign := by
    rintro rfl
    exact absurd hop (by decide)
  have hgen : genAssign Γ op nodeType lhsTy bf left right =
      left.lvalue >>= fun addr => genLoad addr (nodeType.getD typeInt) >>= fun lval =>
        right.expr >>= fun rv =>
          (newTemp >>= fun t => genScaled rv (compoundScale Γ op (nodeType.getD typeInt)) >>= fun s =>
            emit { op := tokToIrBinop (compoundBase op), dst := irvTemp t (nodeType.getD typeInt),
                   src1 := lval, src2 := s } >>= fun _ =>
              pure (irvTemp t (nodeType.getD typeInt))) >>= fun d =>
            genStore addr d >>= fun _ => pure d := by
    unfold genAssign
    simp only [hne, decide_false, Bool.false_and, Bool.false_eq_true, if_false, bind_assoc, pure_bind,
      genCompoundOperand_eq]
  obtain ⟨el, hlrun, hlref⟩ := hl
  obtain ⟨er, hrrun, hrref⟩ := hr
  rw [hgen]
  refine ⟨_, hlrun.andThen hlT fun addr x haddr => .andThen
    (.emitTo rfl _ (.of_mem List.mem_cons_self) .none haddr rfl) (fun _ _ => rfl) fun lval y hlval =>
      (hrrun.frame (List.nil_subset _)).andThen hrT fun rv z hrv => .andThen
        (.reserved (isPlain_binop (compoundBase_mem hop)) _ (.of_mem (x := y) (by simp)) hlval
          (realises_genScaled List.mem_cons_self hrv) (typed_genScaled hrv)) (fun _ _ => rfl)
        fun d u hd => .bind (T := fun _ => True)
          (.genStore (.of_mem (x := x) (by simp)) (.of_mem List.mem_cons_self) haddr hd)
          (fun _ _ => trivial) fun _ _ _ => .pure (b := u) (by simp [one]), ?_⟩
  refine hlref.bind fun x a hx => ?_
  subst hx
  refine (refines_load hM hty).bind fun y old hold => hrref.bind fun z v hv => ?_
  obtain ⟨rfl, hold⟩ := hold
  obtain ⟨rfl, hv⟩ := hv
  refine .bind (r := fun u n => u = wordOf n) (refines_scaledWord.step fun s hs => ?_) ?_
  · subst hs
    refine .asks_ofOption fun new hnew m => ?_
    obtain ⟨d, hd, hfit⟩ := Option.bind_eq_some_iff.mp hnew
    obtain ⟨-, hval⟩ := Option.ite_none_right_eq_some.mp hfit
    rw [Option.some.inj hval] at hd
    exact ⟨_, compound_word hop hrt hfr hold hv hd m, rfl⟩
  · rintro u new rfl
    exact (refines_store hM hst).bind fun _ _ _ => .pure rfl

end Assignments

/-! ### Conversions, elements and members -/

section Places

variable {src dst : CType} {t tl tr : Option CType} {m l r : Gen IRValue} {c cl cr : Meaning ℤ}
  {tv : CType}

/-- What decides about a cast is the type of the operand. -/
theorem castAgrees_of_tempBits {v : ℤ} (h : tempBits Γ tv = tempBits Γ src)
    (hc : CastAgrees Γ src src dst v) : CastAgrees Γ tv src dst v := by
  unfold CastAgrees at hc ⊢
  rw [h]
  exact hc

theorem resultWord_cast {op : IROp} (hop : op = .sext ∨ op = .zext ∨ op = .trunc) (x y : BitVec 64)
    (tb : Option CType) (m : Mem) :
    B.objects.resultWord Γ op (some tv) tb dst x y m = some (castWord Γ op tv dst x) := by
  rcases hop with rfl | rfl | rfl <;> rfl

theorem genCast_yields (hm : B.Yields Γ m (Word Γ src) c) (hT : B.Typed m (some tv))
    (hsrc : src.isWord = true) (hdst : dst.isWord = true) (hbits : tempBits Γ tv = tempBits Γ src) :
    B.Yields Γ (genCast Γ (some src) dst m) (fun x v => x = wordOf v)
      (c >>= fun v => Partial.ofOption (castMeaning Γ src dst v)) := by
  unfold genCast castMeaning
  dsimp only
  by_cases heq : src = dst
  · subst heq
    simp only [if_true]
    obtain ⟨ev, hrun, href⟩ := hm
    have hgen : (m >>= fun v => pure v) = m := bind_pure m
    rw [hgen]
    refine ⟨ev, hrun, href.filterMap ?_⟩
    rintro x v d ⟨rfl, hv⟩ hd
    obtain ⟨-, hval⟩ := Option.ite_none_right_eq_some.mp hd
    rw [← Option.some.inj hval, c99Convert_of_holds hsrc ((fits_word hsrc).mp hv)]
  · simp only [if_neg heq]
    have hword : ∀ x v d, Word Γ src x v →
        (if CastAgrees Γ src src dst v then some (c99Convert Γ dst v) else none) = some d →
        castWord Γ (castOp Γ src dst) tv dst x = wordOf d := by
      rintro x v d ⟨rfl, hv⟩ hd
      obtain ⟨hagree, hval⟩ := Option.ite_none_right_eq_some.mp hd
      rw [← Option.some.inj hval]
      exact (castWord_iff hsrc hdst ((fits_word hsrc).mp hv)).mpr
        (castAgrees_of_tempBits hbits hagree)
    rcases castOp_cases Γ hsrc hdst with hop | hop
    · rw [hop] at hword ⊢
      refine hm.andThen hT (fun v x _ => .copy dst List.mem_cons_self) fun x v hx =>
        .ofOption fun d hd => .pure (hword x v d hx hd)
    · have hplain : isPlain (castOp Γ src dst) = true := by
        rcases hop with hop | hop | hop <;> rw [hop] <;> rfl
      exact hm.unary hT hplain (fun _ => .none) fun x v d hx hd m =>
        ⟨_, resultWord_cast hop x 0 _ m, hword x v d hx hd⟩

theorem genSubscriptLvalue_yields {nodeType : Option CType} {pl pr : CType}
    (hl : B.Yields Γ l (Word Γ pl) cl) (hlT : B.Typed l tl) (hr : B.Yields Γ r (Word Γ pr) cr)
    (hrT : B.Typed r tr) :
    B.Yields Γ (genSubscriptLvalue Γ nodeType l r) Eq
      (cl >>= fun p => cr >>= fun n =>
        pure (addrOf (p + n * elemSize Γ (nodeType.getD typeInt)))) := by
  refine hl.scaled (f := fun p n => some (addrOf (p + n * elemSize Γ (nodeType.getD typeInt)))) false
    hlT hr hrT rfl ?_
  rintro x a y b d ⟨rfl, -⟩ ⟨rfl, -⟩ hd m
  obtain rfl := Option.some.inj hd
  have haddr : ∀ v, addrOf v = wordOf v := fun _ => rfl
  exact ⟨_, rfl, by simp only [haddr, cond_false, wordOf_add, wordOf_mul]⟩

theorem memberOffset_eq_some {aggTy : Option CType} {field : String} {offset : ℤ}
    (h : memberOffset Γ aggTy field = some offset) :
    ∃ ty f rest, aggTy = some ty ∧ findFieldWithOffset Γ ty field = some (f :: rest, offset) ∧
      ¬f.bitWidth > 0 := by
  unfold memberOffset at h
  cases aggTy with
  | none => cases h
  | some ty =>
    rw [Option.bind_some] at h
    rcases hf : findFieldWithOffset Γ ty field with - | ⟨⟨⟩ | ⟨f, rest⟩, o⟩ <;> rw [hf] at h
    · cases h
    · cases h
    · obtain ⟨hbits, ho⟩ := Option.ite_none_left_eq_some.mp h
      exact ⟨ty, f, rest, rfl, Option.some.inj ho ▸ hf, hbits⟩

theorem genMemberLvalue_yields {aggTy : Option CType} {field : String} {base : Meaning Addr}
    (hm : B.Yields Γ m Eq base) (hT : B.Typed m t) (hoff : (memberOffset Γ aggTy field).isSome) :
    B.Yields Γ (genMemberLvalue Γ aggTy field m) Eq (memberMeaning Γ aggTy field base) := by
  obtain ⟨offset, hoffset⟩ := Option.isSome_iff_exists.mp hoff
  obtain ⟨ty, f, rest, rfl, hfind, -⟩ := memberOffset_eq_some hoffset
  have hgen : genMemberLvalue Γ (some ty) field m =
      m >>= fun addr => genAddrOffset addr offset f.type := by
    unfold genMemberLvalue
    simp only [hfind]
  have hmeans : memberMeaning Γ (some ty) field base =
      base >>= fun a => pure (a + wordOf offset) := by
    unfold memberMeaning
    simp only [hoffset]
    rfl
  let moved (x : BitVec 64) : WordSem (BitVec 64) :=
    if offset = 0 && pointsTo ⟨.none, t⟩ f.type then pure x
    else wordSem (B.objects.resultWord Γ .add t (some typeLong) (typePointer f.type .none) x
      (wordOf offset))
  have hmoved : ∀ v x, v.type = t →
      B.Realises Γ [(v, x)] (genAddrOffset v offset f.type) (moved x) one := by
    rintro v x rfl
    unfold moved genAddrOffset
    have hpoints : pointsTo v f.type = pointsTo ⟨.none, v.type⟩ f.type := rfl
    rw [hpoints]
    split
    · exact .pure (by simp [one])
    · exact .emitTo rfl _ (.of_mem List.mem_cons_self) (.int _ _) rfl rfl
  rw [hgen, hmeans]
  refine hm.andThen hT hmoved ?_
  rintro x a rfl
  unfold moved
  split
  · rename_i h
    have hzero : offset = 0 := of_decide_eq_true (Bool.and_eq_true_iff.mp h).1
    subst hzero
    exact .pure (BitVec.add_zero x).symm
  · exact .asks_pure fun m => ⟨_, rfl, rfl⟩

end Places

end Lowering

end TinyC

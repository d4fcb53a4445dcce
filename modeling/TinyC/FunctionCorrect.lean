import TinyC.FunctionHead

/-!
# The compiled function

A function of integers and pointers, whose variables are its parameters and those declared at the
start of its body, from the call of its assembly to the return: it returns what its statements mean.
-/

namespace TinyC

open ByteMemory PrimSem TwosComplement

/-! ### What a run leaves alone -/

section

variable {Γ : TypeEnv} {K : ObjectLayout} {f : IRFunc} {n : ℕ}
  {s s' : IrState (Option Mem) (BitVec 64)}

theorem world_isSome_of_steps (h : (K.machine Γ).Steps f.instrs n s s')
    (hsafe : s'.world.isSome) : s.world.isSome := by
  induction h with
  | refl s => exact hsafe
  | head hstep _ ih => exact world_isSome_of_step hstep (ih hsafe)

/-- A run writes only bytes that may be accessed. -/
theorem mem_of_steps {m m' : Mem} {x : Addr}
    (hx : ∀ a n, K.valid a n = true → ¬(x - a).toNat < n) (h : (K.machine Γ).Steps f.instrs n s s')
    (hm : s.world = some m) (hm' : s'.world = some m') : m' x = m x := by
  induction h generalizing m with
  | refl s => rw [Option.some.inj (hm.symm.trans hm')]
  | @head n s s₁ s' hstep hrest ih =>
    obtain ⟨m₁, hm₁⟩ := Option.isSome_iff_exists.mp (world_isSome_of_steps hrest (by simp [hm']))
    exact (ih hm₁ hm').trans (mem_of_step hx hstep hm hm₁)

end

/-- The labels of a body are noted without any code. -/
def IrGen.emitted (g : IrGen) : List IRInstr × IRModule × ScopeChain VarEntry × ℕ :=
  (g.func.instrs, g.module, g.scope, g.func.nextTemp)

theorem Keeps.collectLabels_emitted (s : Stmt) : Keeps IrGen.emitted (TinyC.collectLabels s) :=
  collectLabels_rule (pure _) (fun hm hk => bind hm fun _ => hk) (fun _ => fun _ => rfl) s

/-! ### Functions of integers and pointers -/

section

variable (Γ : TypeEnv) (module : IRModule) (scope : ScopeChain VarEntry) (d : FuncDef)

/-- The state after the declarations `ds` at the start of the body. -/
def bodyStart (ds : List (List Decl)) : IrGen :=
  (genStmts Γ (ds.map .decl) (pushScope (funcStart Γ module scope d)).2).2

/-- A function of integer code that takes and returns integers and pointers; after the declarations
`ds` its body has the statements `ss`, over expressions whose code is known to be right. -/
structure FuncDef.IsWord (ds : List (List Decl)) (ss : List Stmt) : Prop where
  body : d.body = .compound (ds.map .decl ++ ss)
  decls : ∀ l ∈ ds, ∀ v ∈ l, v.plain = true
  stmts : ∀ s ∈ ss, Structured (bodyPrims Γ (bodyStart Γ module scope d ds).scope)
    (returnsAggregate d.funcType) false true s
  params : ∀ p ∈ d.params, p.isWord = true
  names : (d.params.map ParamDecl.label).Nodup
  type : ∃ ret ps variadic q, d.funcType = some (.func ret ps variadic q) ∧
    abiInMemory (abiClassify Γ ret) = false ∧ (∀ q ∈ ps.toList, q.2.isWord = true) ∧
    d.params.length ≤ ps.toList.length
  code : (funcEnd Γ module scope d).func.WordFunc

end

/-- Symbols are where the linker puts them, storage is in the frame of `f` at `bp`, and `valid` says
what may be accessed. -/
def frameLayout (E : Env) (f : IRFunc) (bp : BitVec 64) (valid : Addr → ℕ → Bool) :
    ObjectLayout where
  sym := E.sym
  place t := bp + BitVec.ofInt 64 ((regallocRun f).allocaOff t)
  valid := valid

/-- The memory of `m'` apart from the frame, and the stack as it was at the call. -/
structure ReturnsToCaller (F : SlotFrame) (M : MState) (m' : Mem) (t : MState) : Prop where
  mem : ∀ a, ¬F.Owns a → t.mem a = m' a
  rsp : t.reg .rsp = M.reg .rsp
  rbp : t.reg .rbp = M.reg .rbp
  returnAddress : load t.mem (M.reg .rsp) 8 = load M.mem (M.reg .rsp) 8

section

variable {Γ : TypeEnv} {E : Env} {module : IRModule} {scope : ScopeChain VarEntry} {d : FuncDef}
  {ds : List (List Decl)} {ss : List Stmt}

theorem funcStart_noted
    (hret : abiInMemory (abiClassify Γ (funcInit module scope d).func.retType) = false) :
    let vals := genParams Γ d.params 0 (funcInit module scope d)
    funcStart Γ module scope d =
      (collectLabels d.body { (storeParams vals.1 vals.2).2 with gotoLabels := [] }).2 := by
  have hsret : genSretParam Γ (funcInit module scope d).func.retType (funcInit module scope d) =
      ((), funcInit module scope d) := by
    unfold genSretParam
    rw [hret]
    rfl
  have hstart : funcStart Γ module scope d =
      let g₀ := funcInit module scope d
      let vals := genParams Γ d.params 0 (genSretParam Γ g₀.func.retType g₀).2
      (collectLabels d.body { (storeParams vals.1 vals.2).2 with gotoLabels := [] }).2 := rfl
  rw [hstart]
  simp only [hsret]

theorem funcEnd_funcType : (funcEnd Γ module scope d).func.funcType = d.funcType :=
  ((genStmt_places Γ d.body).grows _).funcType.trans (funcStart_scanning Γ module scope d).2

theorem FuncDef.IsWord.retType (h : d.IsWord Γ module scope ds ss) :
    abiInMemory (abiClassify Γ (funcEnd Γ module scope d).func.retType) = false ∧
      abiInMemory (abiClassify Γ (funcInit module scope d).func.retType) = false := by
  obtain ⟨ret, ps, variadic, q, hty, hret, -, -⟩ := h.type
  refine ⟨?_, ?_⟩
  · rwa [IRFunc.retType, funcEnd_funcType, hty]
  · have hinit : (funcInit module scope d).func.funcType = d.funcType := rfl
    rwa [IRFunc.retType, hinit, hty]

/-- The frame of the function at `bp`. -/
theorem FuncDef.IsWord.framed (h : d.IsWord Γ module scope ds ss) {bp : BitVec 64}
    (htemps : (funcEnd Γ module scope d).func.nextTemp ≤ 2 ^ 60) {valid : Addr → ℕ → Bool}
    (hclear : ∀ a n, valid a n = true →
      (SlotFrame.ofFunc (funcEnd Γ module scope d).func bp htemps).Clear a n) :
    Framed Γ E (frameLayout E (funcEnd Γ module scope d).func bp valid)
      (.ofFunc (funcEnd Γ module scope d).func bp htemps) (funcEnd Γ module scope d) where
  ra := rfl
  within := h.code.within
  temps := htemps
  houses := ⟨rfl, fun _ => rfl, hclear⟩
  stack i hi := by
    refine SlotFrame.ofFunc_clear ?_
    have hi' : i < (funcEnd Γ module scope d).func.nextTemp := hi
    have hoff : BitVec.ofInt 64 (16 + 8 * (i - 6 : ℕ)) = BitVec.ofNat 64 (16 + 8 * (i - 6)) := by
      rw [← BitVec.ofInt_natCast]
      push_cast
      rfl
    have hto := add_ofNat_sub_toNat bp (show 16 + 8 * (i - 6) < 2 ^ 64 by omega)
    rw [hoff]
    change (bp + BitVec.ofNat 64 (16 + 8 * (i - 6)) - bp).toNat + 8 +
      8 * (funcEnd Γ module scope d).func.nextTemp ≤ 2 ^ 64
    omega
  ret := h.retType.1
  params := by
    obtain ⟨ret, ps, variadic, q, hty, -, hwords, -⟩ := h.type
    intro q hq
    rw [IRFunc.params, funcEnd_funcType, hty] at hq
    exact hwords q hq

theorem FuncDef.IsWord.funcEnd_eq (h : d.IsWord Γ module scope ds ss) :
    funcEnd Γ module scope d = { (genStmts Γ ss (bodyStart Γ module scope d ds)).2 with
      scope := (funcStart Γ module scope d).scope } := by
  change (genStmt Γ d.body (funcStart Γ module scope d)).2 = _
  rw [h.body, genStmt]
  unfold withScope
  simp only [genStmts_append]
  rfl

theorem FuncDef.IsWord.within_stmts (h : d.IsWord Γ module scope ds ss) :
    Within (genStmts Γ ss (bodyStart Γ module scope d ds)).2 (funcEnd Γ module scope d) := by
  rw [h.funcEnd_eq]
  exact ⟨List.prefix_rfl, List.suffix_rfl⟩

/-- The statements after the declarations, once the variables have their storage. -/
theorem FuncDef.IsWord.body_runs (h : d.IsWord Γ module scope ds ss) {K : ObjectLayout}
    {τ : ℕ → BitVec 64} (hhoused : Housed K (bodyStart Γ module scope d ds) τ) {n : ℕ} {m m' : Mem}
    {tr : List Prim} {out : Outcome ℤ} {x : IrExit ℤ}
    (hexec : (bodySem Γ (K.objects (bodyStart Γ module scope d ds).scope)).execs
      (returnsAggregate d.funcType) ss () n ⟨some m, []⟩ = (out, ⟨some m', tr⟩))
    (hout : exitOf out = some x) :
    ∃ k s' e, (K.machine Γ).Steps (funcEnd Γ module scope d).func.instrs k
        ⟨(bodyStart Γ module scope d ds).pos, some m, τ⟩ s' ∧
      (K.machine Γ).exit (funcEnd Γ module scope d).func.instrs s' = some e ∧ s'.world = some m' ∧
      Option.Rel WordOf e.word x.word := by
  let g := bodyStart Γ module scope d ds
  let B : Lowering :=
    { objects := K
      code := funcEnd Γ module scope d
      scope := g.scope
      temps := g.func.nextTemp
      held := τ
      visible := fun {x e} he => ⟨(hhoused x e he).1, fun t ht => ((hhoused x e he).2 t ht).1⟩ }
  have hM : B.Matches (K.objects g.scope) := ⟨fun he => hhoused.operand_eq he, id⟩
  obtain ⟨hstart, hft⟩ := funcStart_scanning Γ module scope d
  have hgrows : Grows (pushScope (funcStart Γ module scope d)).2 g := (genStmts_places Γ _).grows _
  have hnodup : (labelsOf (funcEnd Γ module scope d).func.instrs).Nodup := by
    have happends : Appends [] (genStmt Γ d.body) := by
      rw [h.body]
      refine .withScope (.genStmts Γ fun s hs => ?_)
      rcases List.mem_append.mp hs with hs | hs
      · obtain ⟨l, -, rfl⟩ := List.mem_map.mp hs
        exact .genDecls Γ l
      · exact appends_genStmt Γ (h.stmts s hs)
    exact (happends _).nodup (by simp [hstart.code]) (by simp [hstart.code])
  have hstands : B.Stands g τ := ⟨fun _ => rfl, le_rfl, fun _ _ => rfl⟩
  have hready : Implements.Ready B.code d.funcType false g 0 0 :=
    ⟨hstart.labels.trans_le hgrows.labels, hgrows.funcType.trans hft, fun h => by cases h⟩
  have hpos : B.code.pos = (genStmts Γ ss g).2.pos := by
    change (funcEnd Γ module scope d).pos = _
    rw [h.funcEnd_eq]
    rfl
  exact Lowering.body_runs hM hnodup hstands hready h.within_stmts hpos h.stmts hexec hout

/-- The code of the parameters, at the start of the finished code. -/
theorem FuncDef.IsWord.within_params (h : d.IsWord Γ module scope ds ss) :
    let r := genParams Γ d.params 0 (funcInit module scope d)
    Within (storeParams r.1 r.2).2 (funcEnd Γ module scope d) ∧
      (funcStart Γ module scope d).emitted = (storeParams r.1 r.2).2.emitted := by
  intro r
  have hnoted : (funcStart Γ module scope d).emitted = (storeParams r.1 r.2).2.emitted := by
    rw [funcStart_noted h.retType.2]
    exact Keeps.collectLabels_emitted d.body _
  have hbody : Within (funcStart Γ module scope d) (funcEnd Γ module scope d) :=
    .of_grows ((genStmt_places Γ d.body).grows _) ⟨List.prefix_rfl, List.suffix_rfl⟩
  refine ⟨⟨?_, ?_⟩, hnoted⟩
  · have hinstrs : (funcStart Γ module scope d).func.instrs = (storeParams r.1 r.2).2.func.instrs :=
      congrArg Prod.fst hnoted
    exact hinstrs ▸ hbody.code
  · have hmodule : (funcStart Γ module scope d).module = (storeParams r.1 r.2).2.module :=
      congrArg (fun q => q.2.1) hnoted
    exact hmodule ▸ hbody.strConsts

/-- From where the parameters have been captured to the first statement. -/
theorem FuncDef.IsWord.head_runs (h : d.IsWord Γ module scope ds ss) {K : ObjectLayout}
    {words τ : ℕ → BitVec 64}
    (hvalid : ∀ p ∈ d.params, K.valid ((K.objects (funcStart Γ module scope d).scope).place p.label)
      (typeSizeof Γ p.typeOrInt).toNat = true)
    (hall : List.Forall₂ (CapturedWord Γ (K.objects (genParams Γ d.params 0
      (funcInit module scope d)).2.scope) words τ) (d.params.zipIdx 0)
        (genParams Γ d.params 0 (funcInit module scope d)).1)
    (hhoused : Housed K (genParams Γ d.params 0 (funcInit module scope d)).2 τ) (m : Mem) :
    ∃ k τ', (K.machine Γ).Steps (funcEnd Γ module scope d).func.instrs k
        ⟨(genParams Γ d.params 0 (funcInit module scope d)).2.pos, some m, τ⟩
        ⟨(bodyStart Γ module scope d ds).pos,
          some (passParams Γ (K.objects (funcStart Γ module scope d).scope) words d.params 0 m), τ'⟩ ∧
      Housed K (bodyStart Γ module scope d ds) τ' := by
  let r := genParams Γ d.params 0 (funcInit module scope d)
  let g₁ := (storeParams r.1 r.2).2
  let g₂ := funcStart Γ module scope d
  obtain ⟨hstores, hnoted⟩ := h.within_params
  obtain ⟨hinstrs, -, hscope, htemp⟩ : g₂.func.instrs = g₁.func.instrs ∧
      g₂.module = g₁.module ∧ g₂.scope = g₁.scope ∧ g₂.func.nextTemp = g₁.func.nextTemp := by
    simpa [IrGen.emitted] using hnoted
  have hscope₁ : g₁.scope = r.2.scope := Keeps.storeParams stable_scope r.1 r.2
  have hgrows₁ : Grows r.2 g₁ := (Places.storeParams r.1).grows r.2
  have hdecls : Within (bodyStart Γ module scope d ds) (funcEnd Γ module scope d) :=
    h.within_stmts.of_grows ((genStmts_places Γ ss).grows _)
  have hsame : (funcStart Γ module scope d).scope = r.2.scope := hscope.trans hscope₁
  rw [hsame] at hvalid ⊢
  obtain ⟨k, hsteps⟩ := storeParams_runs (m := m) h.params hvalid hall hstores
  have hhoused₁ : Housed K (pushScope g₂).2 τ := by
    refine hhoused.later (fun x => ?_) (hgrows₁.temps.trans_eq htemp.symm) .refl
    exact (lookup_push g₂.scope x).trans (by rw [hscope, hscope₁])
  obtain ⟨j, τ', hsteps', hhoused'⟩ := genDeclStmts_runs (Γ := Γ)
    (m := passParams Γ (K.objects r.2.scope) words d.params 0 m) h.decls hhoused₁ hdecls
  have hpos : (pushScope g₂).2.pos = g₁.pos := congrArg List.length hinstrs
  rw [hpos] at hsteps'
  exact ⟨k + j, τ', hsteps.trans hsteps', hhoused'⟩

theorem returnedWord_wordOf {f : IRFunc} {ret : CType} {ps : FuncParams} {variadic : Bool}
    {q : TypeQual} (hty : f.funcType = some (.func ret ps variadic q)) (hword : ret.isWord = true)
    {v : ℤ} (hbool : ret.isBool = true → v = 0 ∨ v = 1) :
    returnedWord Γ f (wordOf v) = wordOf (c99Convert Γ ret v) := by
  have hwrap : wordOf (c99Convert Γ ret v) = wordOf (wrap (typeIsSigned ret) (ret.bits Γ) v) := by
    cases hb : ret.isBool with
    | false =>
      rw [c99Convert, hb]
      rfl
    | true =>
      have hholds : ret.Holds Γ v := by
        rw [CType.Holds, if_pos hb]
        exact hbool hb
      rw [c99Convert_of_holds hword hholds,
        wrap_of_inRange (word_bits_le hword).1 (word_bits_le hword).2 hholds.inRange]
  rw [hwrap, returnedWord, hty]
  dsimp only
  split
  · rw [extendWord_type hword]
    exact extend_ofInt (word_bits_le hword).2
  · rename_i hint
    have hpointer : ret.isPointer = true := by simpa [CType.isWord, hint] using hword
    have hbits : ret.bits Γ = 64 := by
      rw [CType.bits, (pointer_facts (Γ := Γ) hpointer).2.2.2.2]
      rfl
    have hfull : extend (typeIsSigned ret) 64 (BitVec.ofInt 64 v) =
        BitVec.ofInt 64 (wrap (typeIsSigned ret) 64 v) := extend_ofInt le_rfl
    rw [hbits]
    exact (extend_full _ _).symm.trans hfull

/-- A value is returned by a function of a word type only. -/
theorem IRFunc.WordFunc.retType_isWord {f : IRFunc} (hf : f.WordFunc) {K : ObjectLayout}
    {s : IrState (Option Mem) (BitVec 64)} {e : IrExit (BitVec 64)} {w : BitVec 64}
    (hexit : (K.machine Γ).exit f.instrs s = some e) (he : e.word = some w) :
    f.retType.isWord = true := by
  unfold IrMachine.exit at hexit
  split at hexit
  · cases hexit
    cases he
  · rename_i i hi
    obtain ⟨hop, hval⟩ := Option.ite_none_right_eq_some.mp hexit
    refine (hf.returns i (List.mem_of_getElem? hi) hop).resolve_left fun hnone => ?_
    rw [if_pos hnone] at hval
    cases hval
    cases he

/-- The saved base pointer and the return address are found again if nothing wrote to them. -/
theorem Returned.toCaller {f : IRFunc} {F : SlotFrame} {M t : MState} {w : Option (BitVec 64)}
    {m' : Mem} (hret : Returned Γ f F w m' t) (hbp : F.bp = M.reg .rsp - 8)
    (hstack : F.Clear (F.bp + 8) 8)
    (hkept : ∀ y, (y - F.bp).toNat < 16 → m' y = store M.mem F.bp 8 (M.reg .rbp) y) :
    ReturnsToCaller F M m' t := by
  have hsp : M.reg .rsp = F.bp + 8 := by rw [hbp, BitVec.sub_add_cancel]
  refine ⟨hret.mem, hret.rsp.trans hsp.symm, ?_, ?_⟩
  · have hload : load m' F.bp 8 = load (store M.mem F.bp 8 (M.reg .rbp)) F.bp 8 :=
      load_congr fun k hk => hkept _ (by
        rw [add_ofNat_sub_toNat F.bp (by omega)]
        omega)
    rw [hret.rbp, hload, load_store_eight]
  · rw [hsp]
    refine load_congr fun k hk => ?_
    have hat : F.bp + 8 + BitVec.ofNat 64 k = F.bp + BitVec.ofNat 64 (8 + k) := by
      change F.bp + BitVec.ofNat 64 8 + BitVec.ofNat 64 k = _
      rw [BitVec.add_assoc, ← BitVec.ofNat_add]
    have hto := add_ofNat_sub_toNat F.bp (show 8 + k < 2 ^ 64 by omega)
    have hoff := add_ofNat_sub_toNat (F.bp + 8) (show k < 2 ^ 64 by omega)
    rw [hret.mem _ (hstack _ (by omega)), hat, hkept _ (by omega)]
    exact store_apply_of_not_lt (by omega)

/-- Where a run of the statements of the function, from the parameters in their objects on, comes to
an end and has a meaning, the assembly that is called comes to an end too: it returns the value in
the type of the function, and leaves that memory and the stack as it was. Nothing is said of the
runs that `NodeMeaning` leaves undefined: what C99 leaves undefined, and what it defines but takes an
`unsigned int` that has to be reduced, 64-bit unsigned division or right shift from `2 ^ 63` on,
operands that are not of one promoted type, or a cast that does not convert. -/
theorem function_correct (hscope : FileScope scope) (hd : d.IsWord Γ module scope ds ss)
    (htemps : (funcEnd Γ module scope d).func.nextTemp ≤ 2 ^ 60) (M : MState)
    (valid : Addr → ℕ → Bool) :
    let f := (funcEnd Γ module scope d).func
    let bp := M.reg .rsp - 8
    let F := SlotFrame.ofFunc f bp htemps
    let K := frameLayout E f bp valid
    let m := store M.mem bp 8 (M.reg .rbp)
    let ω := K.objects (funcStart Γ module scope d).scope
    (∀ a k, valid a k = true → F.Clear a k ∧ Apart a k bp 16) →
    (∀ p ∈ d.params, valid (ω.place p.label) (typeSizeof Γ p.typeOrInt).toNat = true) →
    ∀ {n : ℕ} {m' : Mem} {tr : List Prim} {out : Outcome ℤ} {x : IrExit ℤ},
      (bodySem Γ (K.objects (bodyStart Γ module scope d ds).scope)).execs
        (returnsAggregate d.funcType) ss () n
        ⟨some (passParams Γ ω (paramWord M.reg m bp) d.params 0 m), []⟩ = (out, ⟨some m', tr⟩) →
      exitOf out = some x →
      ∃ t, AsmReturns E (codegenFunc Γ f) ⟨0, M⟩ t ∧ ReturnsToCaller F M m' t ∧
        ∀ v, x.word = some v → (f.retType.isBool = true → v = 0 ∨ v = 1) →
          t.reg .rax = wordOf (c99Convert Γ f.retType v) := by
  intro f bp F K m ω hvalid hparams n m' tr out x hexec hout
  have hG : Framed Γ E K F (funcEnd Γ module scope d) := hd.framed htemps fun a k h => (hvalid a k h).1
  obtain ⟨ret, ps, variadic, q, hty, -, -, hlen⟩ := hd.type
  have hft : f.funcType = some (.func ret ps variadic q) := funcEnd_funcType.trans hty
  have hparams' : f.params = ps.toList := by rw [IRFunc.params, hft]
  have hret' : f.retType = ret := by rw [IRFunc.retType, hft]
  rw [← hparams'] at hlen
  have hF : Within (genParams Γ d.params 0 (funcInit module scope d)).2 (funcEnd Γ module scope d) :=
    hd.within_params.1.of_grows ((Places.storeParams _).grows _)
  obtain ⟨τ, t₁, hreach, hat, hall⟩ := enter_runs hG hscope hd.params hd.names hlen rfl hF
  obtain ⟨k, τ', hsteps, hhoused⟩ := hd.head_runs hparams hall hat.placed m
  obtain ⟨j, s', e, hsteps', hexit, hworld, hrel⟩ := hd.body_runs hhoused hexec hout
  have hrun := hsteps.trans hsteps'
  have htracks : Tracks Γ f F ⟨(genParams Γ d.params 0 (funcInit module scope d)).2.pos, some m, τ⟩ t₁ :=
    ⟨hat.pc, m, rfl, hat.holds⟩
  obtain ⟨t, hreturns, hret⟩ :=
    codegen_returns Γ E hd.code htemps hG.houses htracks hrun hexit hworld
  have hkept : ∀ y, (y - bp).toNat < 16 → m' y = m y := fun y hy =>
    mem_of_steps (fun a k hak hin => (hvalid a k hak).2 y hin hy) hrun rfl hworld
  have hstack : F.Clear (bp + 8) 8 := SlotFrame.ofFunc_clear (by
    have hto : (bp + 8 - bp).toNat = 8 := add_ofNat_sub_toNat bp (show 8 < 2 ^ 64 by omega)
    have hle : f.nextTemp ≤ 2 ^ 60 := htemps
    omega)
  refine ⟨t, hreturns.after hreach, hret.toCaller rfl hstack hkept, ?_⟩
  intro v hv hbool
  rw [hv] at hrel
  cases he : e.word with
  | none =>
    rw [he] at hrel
    cases hrel
  | some w =>
    rw [he] at hrel
    obtain ⟨hw, -⟩ := hrel
    have hword := hd.code.retType_isWord hexit he
    rw [hret'] at hword hbool ⊢
    rw [hret.word w he, hw, returnedWord_wordOf hft hword hbool]

end

/-! ### The sum of the numbers up to a parameter -/

def setInt (name : String) (e : Expr) : Stmt :=
  .expr (some (.assign { type := some typeInt } .assign (intIdent name) e))

def intBinop (op : TokenKind) (l r : Expr) : Expr := .binop { type := some typeInt } op l r

def intLiteral (v : BitVec 64) : Expr := .intLit { type := some typeInt } v 0

/-- `s = 0; while (x) { s = s + x; x = x - 1; } return s;` -/
def sumStmts : List Stmt :=
  [setInt "s" (intLiteral 0),
    .while 1 1 (intIdent "x") (.compound
      [setInt "s" (intBinop .plus (intIdent "s") (intIdent "x")),
        setInt "x" (intBinop .minus (intIdent "x") (intLiteral 1))]),
    .ret 1 1 (some (intIdent "s"))]

def sumDecls : List (List Decl) := [[.var { name := "s", declType := some typeInt }]]

/-- `int f(int x) { int s; … }` -/
def sumFunc : FuncDef := intFunc (sumDecls.map .decl ++ sumStmts)

abbrev sumScope := (bodyStart .empty {} [fun _ => []] sumFunc sumDecls).scope

def sumState : MState where
  reg r := if r = .rsp then 4104 else if r = .rdi then 3 else 0
  xmm _ := 0
  flags := {}
  mem _ := 0

/-- `x` and `s`. -/
def sumValid (a : Addr) (k : ℕ) : Bool := (a = 4004 || a = 4000) && k ≤ 4

theorem sumFunc_temps : (funcEnd .empty {} [fun _ => []] sumFunc).func.nextTemp = 11 := by
  decide +kernel

/-- The only scope of a file without declarations. -/
theorem sumScope_file : FileScope [fun _ => []] := fileScope_irgenDecls .empty []

theorem sumFunc_isWord : sumFunc.IsWord .empty {} [fun _ => []] sumDecls sumStmts where
  body := rfl
  decls := by decide
  stmts := by
    have hprim : ∀ {e}, (covered .empty sumScope e).value = true → PrimSem.isComposite e = false →
        ComposedOf (bodyPrims .empty sumScope) e := fun h hc => .prim hc h
    have hset : ∀ {name e l i}, (covered .empty sumScope (.assign { type := some typeInt } .assign
        (intIdent name) e)).value = true →
        Structured (bodyPrims .empty sumScope) (returnsAggregate sumFunc.funcType) l i
          (setInt name e) := fun h => .expr (by
      rintro x ⟨⟩
      exact hprim h rfl)
    have hret : ReturnedOf (bodyPrims .empty sumScope) (returnsAggregate sumFunc.funcType)
        (intIdent "s") := by
      have hagg : returnsAggregate sumFunc.funcType (intIdent "s") = false := by decide
      rw [ReturnedOf, hagg]
      exact hprim (by decide +kernel) rfl
    simp only [sumStmts, List.forall_mem_cons, List.not_mem_nil, false_imp_iff, implies_true,
      and_true]
    refine ⟨hset (by decide +kernel), .while (hprim (by decide +kernel) rfl) (.compound ?_), .ret ?_⟩
    · simp only [List.forall_mem_cons, List.not_mem_nil, false_imp_iff, implies_true, and_true]
      exact ⟨hset (by decide +kernel), hset (by decide +kernel)⟩
    · rintro x ⟨⟩
      exact hret
  params := by decide
  names := by decide
  type := ⟨typeInt, .cons (some "x") typeInt .nil, false, .none, rfl, by decide +kernel,
    by decide, by decide⟩
  code := {
    code := by decide +kernel
    within := (genFunc_numbered .empty {} sumFunc sumScope_file).within
    returns := fun _ _ _ => .inr (by decide +kernel) }

/-- The run of the statements, `x` being 3. -/
def sumRun : Outcome ℤ × Observed (Option Mem) :=
  let bp := sumState.reg .rsp - 8
  let K := frameLayout idleEnv (funcEnd .empty {} [fun _ => []] sumFunc).func bp sumValid
  let m := store sumState.mem bp 8 (sumState.reg .rbp)
  let ω := K.objects (funcStart .empty {} [fun _ => []] sumFunc).scope
  (bodySem .empty (K.objects sumScope)).execs (returnsAggregate sumFunc.funcType) sumStmts () 4
    ⟨some (passParams .empty ω (paramWord sumState.reg m bp) sumFunc.params 0 m), []⟩

/-- Is the outcome a return of `n`? -/
def Outcome.isRet (n : ℤ) : Outcome ℤ → Bool
  | .ret (some v) => v = n
  | _ => false

theorem eq_of_isRet {n : ℤ} {out : Outcome ℤ} (h : out.isRet n = true) :
    exitOf out = some (.ret (some n)) := by
  cases out with
  | ret v =>
    cases v with
    | none => cases h
    | some v =>
      obtain rfl : v = n := by simpa [Outcome.isRet] using h
      rfl
  | _ => cases h

theorem sumRun_ret : sumRun.1.isRet 6 = true ∧ sumRun.2.world.isSome = true := by decide +kernel

theorem sumValid_clear {f : IRFunc} (hf : f.nextTemp = 11) (h : f.nextTemp ≤ 2 ^ 60) {a : Addr}
    {k : ℕ} (hvalid : sumValid a k = true) :
    (SlotFrame.ofFunc f (sumState.reg .rsp - 8) h).Clear a k ∧
      Apart a k (sumState.reg .rsp - 8) 16 := by
  have hbp : sumState.reg .rsp - 8 = 4096 := by decide
  obtain ⟨hplace, hk⟩ : (a = 4004 ∨ a = 4000) ∧ k ≤ 4 := by simpa [sumValid] using hvalid
  rw [hbp]
  constructor
  · refine SlotFrame.ofFunc_clear ?_
    rw [hf]
    rcases hplace with rfl | rfl
    · change 18446744073709551524 + k + 8 * 11 ≤ 2 ^ 64
      omega
    · change 18446744073709551520 + k + 8 * 11 ≤ 2 ^ 64
      omega
  · intro x hx hx'
    rcases hplace with rfl | rfl <;> bv_omega

theorem sumParams :
    let f := (funcEnd .empty {} [fun _ => []] sumFunc).func
    let K := frameLayout idleEnv f (sumState.reg .rsp - 8) sumValid
    let ω := K.objects (funcStart .empty {} [fun _ => []] sumFunc).scope
    ∀ p ∈ sumFunc.params,
      sumValid (ω.place p.label) (typeSizeof .empty p.typeOrInt).toNat = true := by
  decide +kernel

/-- Called with 3, the assembly returns 6. -/
theorem function_correct_sum :
    let f := (funcEnd .empty {} [fun _ => []] sumFunc).func
    ∃ t, AsmReturns idleEnv (codegenFunc .empty f) ⟨0, sumState⟩ t ∧ t.reg .rax = 6 := by
  intro f
  have htemps : (funcEnd .empty {} [fun _ => []] sumFunc).func.nextTemp ≤ 2 ^ 60 := by
    rw [sumFunc_temps]
    decide
  obtain ⟨hret, hworld⟩ := sumRun_ret
  obtain ⟨m', hm'⟩ := Option.isSome_iff_exists.mp hworld
  have hexec : sumRun = (sumRun.1, ⟨some m', sumRun.2.trace⟩) := by rw [← hm']
  have hout : exitOf sumRun.1 = some (.ret (some 6)) := eq_of_isRet hret
  obtain ⟨t, hreturns, hcaller, hword⟩ := function_correct (E := idleEnv)
    sumScope_file sumFunc_isWord htemps sumState sumValid
    (fun a k h => sumValid_clear sumFunc_temps htemps h) sumParams hexec hout
  have hvalue := hword 6 rfl (by decide +kernel)
  exact ⟨t, hreturns, hvalue.trans (by decide +kernel)⟩

end TinyC

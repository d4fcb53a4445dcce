import TinyC.BodyLowering
import TinyC.FunctionEntry

/-!
# From the call to the body

The parameters go from where the caller left them into their objects, and the storage of the local
variables is found. When the body starts each variable in scope has its address in a temp.
-/

namespace TinyC

open ByteMemory StateTransition Relation

/-! ### Variables in scope -/

/-- The temps of the variables in scope hold the addresses of their storage. -/
def Housed (K : ObjectLayout) (g : IrGen) (τ : ℕ → BitVec 64) : Prop :=
  ∀ x e, g.scope.lookup vtabBuckets x = some e → e.addr.kind ≠ .none ∧
    ∀ t, e.addr.kind = .temp t → t < g.func.nextTemp ∧ τ t = K.place t

/-- The objects that the names in scope stand for. -/
def ObjectLayout.objects (K : ObjectLayout) (sc : ScopeChain VarEntry) : Objects where
  place x := ((sc.lookup vtabBuckets x).map fun e => K.operand K.place e.addr).getD 0
  valid := K.valid

theorem ObjectLayout.objects_place {K : ObjectLayout} {sc : ScopeChain VarEntry} {x : String}
    {e : VarEntry} (h : sc.lookup vtabBuckets x = some e) :
    (K.objects sc).place x = K.operand K.place e.addr := by
  simp only [ObjectLayout.objects, h]
  rfl

namespace Housed

variable {K : ObjectLayout} {g g' : IrGen} {τ τ' : ℕ → BitVec 64}

theorem later (h : Housed K g τ) (hscope : ∀ x, g'.scope.lookup vtabBuckets x =
    g.scope.lookup vtabBuckets x) (hle : g.func.nextTemp ≤ g'.func.nextTemp)
    (ha : AgreeBelow g.func.nextTemp τ τ') : Housed K g' τ' := by
  intro x e he
  obtain ⟨hsome, htemp⟩ := h x e ((hscope x).symm.trans he)
  refine ⟨hsome, fun t ht => ?_⟩
  obtain ⟨hlt, hplace⟩ := htemp t ht
  exact ⟨hlt.trans_le hle, (ha t hlt).trans hplace⟩

/-- A variable comes into scope whose address is in the temp `t`. -/
theorem define (h : Housed K g τ) {t : ℕ} (ht : t < g.func.nextTemp) (hplace : τ t = K.place t)
    (name : String) (ty : CType) :
    Housed K (vscopeDefine name (irvTemp t ty) false g).2 τ := by
  intro x e he
  change ScopeChain.lookup vtabBuckets (g.scope.define vtabBuckets name _) x = some e at he
  by_cases hx : x = name
  · subst hx
    cases hsc : g.scope with
    | nil =>
      rw [hsc] at he
      cases he
    | cons fr rest =>
      rw [hsc, ScopeChain.lookup_define, if_pos rfl] at he
      obtain rfl := Option.some.inj he
      refine ⟨irvTemp_kind_ne_none _ _, fun u hu => ?_⟩
      obtain rfl : t = u := by simpa [irvTemp] using hu
      exact ⟨ht, hplace⟩
  · rw [ScopeChain.lookup_define_of_ne _ hx] at he
    exact h x e he

/-- The place of a variable is where its address says. -/
theorem operand_eq (h : Housed K g τ) {x : String} {e : VarEntry}
    (he : g.scope.lookup vtabBuckets x = some e) :
    K.operand τ e.addr = (K.objects g.scope).place x := by
  obtain ⟨-, htemp⟩ := h x e he
  rw [ObjectLayout.objects_place he]
  unfold ObjectLayout.operand
  cases hk : e.addr.kind with
  | temp t => exact (htemp t hk).2
  | _ => rfl

end Housed

/-! ### Parameters -/

def ParamDecl.typeOrInt (p : ParamDecl) : CType := p.paramType.getD typeInt

/-- The name of a parameter that has one. -/
def ParamDecl.label (p : ParamDecl) : String := p.name.getD ""

/-- A parameter with a name, of an integer or a pointer type. -/
def ParamDecl.isWord (p : ParamDecl) : Bool := p.name.isSome && p.typeOrInt.isWord

/-- The memory once the words are in the objects of the parameters from number `i` on. -/
def passParams (Γ : TypeEnv) (ω : Objects) (words : ℕ → BitVec 64) : List ParamDecl → ℕ → Mem → Mem
  | [], _, m => m
  | p :: ps, i, m => passParams Γ ω words ps (i + 1)
      (store m (ω.place p.label) (typeSizeof Γ p.typeOrInt).toNat (words i))

/-- The state after the storage and the capture of a parameter. -/
def afterParam (Γ : TypeEnv) (p : ParamDecl) (idx : ℕ) (g : IrGen) : IrGen :=
  let t := g.func.nextTemp
  (vscopeDefine p.label (irvTemp t (typePointer p.typeOrInt .none)) false
    (emit (paramCopy idx p.typeOrInt t (t + 1)) (newTemp (genAlloca Γ p.typeOrInt g).2).2).2).2

theorem genParams_cons (Γ : TypeEnv) {p : ParamDecl} (hp : p.isWord = true) (ps : List ParamDecl)
    (idx : ℕ) (g : IrGen) :
    genParams Γ (p :: ps) idx g =
      let t := g.func.nextTemp
      let r := genParams Γ ps (idx + 1) (afterParam Γ p idx g)
      ((irvTemp t (typePointer p.typeOrInt .none), some (irvTemp (t + 1) p.typeOrInt)) :: r.1,
        r.2) := by
  obtain ⟨hname, hty⟩ := Bool.and_eq_true_iff.mp hp
  obtain ⟨name, hname⟩ := Option.isSome_iff_exists.mp hname
  have hagg : isAggregateType (some (p.paramType.getD typeInt)) = false := word_not_aggregate hty
  have hlabel : p.label = name := by rw [ParamDecl.label, hname, Option.getD_some]
  rw [genParams]
  simp only [hname, genParamCapture, hagg, Bool.false_eq_true, if_false]
  unfold afterParam
  rw [hlabel]
  rfl

/-- A block in its place. -/
theorem reaches_block {Γ : TypeEnv} {E : Env} {f : IRFunc} {k : ℕ} {i : IRInstr} {M M' : MState}
    (hi : f.instrs[k]? = some i)
    (hexec : exec E (codegenInstr Γ f (regallocRun f) i) M = some (M', .fall)) :
    StateTransition.Reaches (asmStep E (codegenFunc Γ f)) ⟨asmPos Γ f k, M⟩
      ⟨asmPos Γ f (k + 1), M'⟩ := by
  rw [asmPos_succ hi]
  exact lands_of_exec (codegenFunc_split hi) hexec

/-- The assembly stands at the end of the code of `g`, the variables are placed and the parameters
are where they were at the call. -/
structure AtHead (Γ : TypeEnv) (f : IRFunc) (F : SlotFrame) (K : ObjectLayout)
    (words : ℕ → BitVec 64) (m : Mem) (g : IrGen) (τ : ℕ → BitVec 64) (t : AsmState) : Prop where
  pc : t.pc = asmPos Γ f g.pos
  holds : F.Holds t.machine ⟨τ, m⟩
  words : ∀ i, paramWord t.machine.reg m F.bp i = words i
  placed : Housed K g τ

theorem paramRegs_other : ∀ r ∈ paramRegs, r ≠ .rax ∧ r ≠ .r10 ∧ r ≠ .r11 ∧ r ≠ .rbp ∧ r ≠ .rsp := by
  decide

theorem paramWord_congr {reg reg' : Reg → BitVec 64} (h : ∀ r ∈ paramRegs, reg' r = reg r) (m : Mem)
    (bp : BitVec 64) (i : ℕ) : paramWord reg' m bp i = paramWord reg m bp i := by
  have hregs : ∀ i < 6, paramReg i ∈ paramRegs := by decide
  unfold paramWord
  by_cases hi : i < 6
  · rw [if_pos hi, if_pos hi, h _ (hregs i hi)]
  · rw [if_neg hi, if_neg hi]

section

variable {Γ : TypeEnv} {E : Env} {K : ObjectLayout} {F : SlotFrame} {G g : IrGen}
  {words : ℕ → BitVec 64} {m : Mem} {τ : ℕ → BitVec 64} {t : AsmState} {p : ParamDecl} {idx : ℕ}

/-- What is known of the finished function `G` and its frame while it is entered. -/
structure Framed (Γ : TypeEnv) (E : Env) (K : ObjectLayout) (F : SlotFrame) (G : IrGen) : Prop where
  ra : F.ra = regallocRun G.func
  within : ∀ i ∈ G.func.instrs, i.Within F.temps
  temps : F.temps ≤ 2 ^ 60
  houses : F.Houses E K
  stack : ∀ i < F.temps, F.Clear (F.bp + BitVec.ofInt 64 (16 + 8 * (i - 6 : ℕ))) 8
  ret : abiInMemory (abiClassify Γ G.func.retType) = false
  params : ∀ q ∈ G.func.params, q.2.isWord = true

/-- The storage of a variable. -/
theorem AtHead.alloca (hG : Framed Γ E K F G) (h : AtHead Γ G.func F K words m g τ t) (ty : CType)
    (hF : Within (genAlloca Γ ty g).2 G) :
    let n := g.func.nextTemp
    1 ≤ n ∧ n < F.temps ∧ ∃ t', StateTransition.Reaches (asmStep E (codegenFunc Γ G.func)) t t' ∧
      AtHead Γ G.func F K words m (genAlloca Γ ty g).2 (Function.update τ n (K.place n)) t' := by
  intro n
  obtain ⟨pc, M⟩ := t
  obtain rfl : pc = asmPos Γ G.func g.pos := h.pc
  let ins : IRInstr :=
    { op := .alloca, dst := irvTemp n (typePointer ty .none), allocaSize := (allocaExtent Γ ty).1
      allocaAlign := (allocaExtent Γ ty).2 }
  have hi : G.func.instrs[g.pos]? = some ins := Within.emitted (g := (newTemp g).2) hF
  have hin := hG.within ins (List.mem_of_getElem? hi) ins.dst (by simp [IRInstr.values]) n rfl
  obtain ⟨s', hexec, hholds, hreg⟩ :=
    exec_allocaHead (Γ := Γ) (f := G.func) (i := ins) h.holds hG.houses hin.1 hin.2 rfl rfl
  rw [hG.ra] at hexec
  have hpos : (genAlloca Γ ty g).2.pos = g.pos + 1 := List.length_append
  refine ⟨hin.1, hin.2, _, reaches_block hi hexec, by rw [hpos], hholds, fun i => ?_, ?_⟩
  · rw [← h.words i]
    exact paramWord_congr (fun r hr => hreg r (paramRegs_other r hr).1) m F.bp i
  · exact h.placed.later (fun _ => rfl) (Nat.le_succ _) (AgreeBelow.refl.update le_rfl _)

/-- A parameter is captured and comes into scope. -/
theorem AtHead.param (hG : Framed Γ E K F G) (h : AtHead Γ G.func F K words m g τ t)
    (hp : p.isWord = true) (hidx : idx ≤ G.func.params.length) (hle : idx < g.func.nextTemp)
    (hF : Within (afterParam Γ p idx g) G) :
    let n := g.func.nextTemp
    ∃ x t', StateTransition.Reaches (asmStep E (codegenFunc Γ G.func)) t t' ∧
      AtHead Γ G.func F K words m (afterParam Γ p idx g)
        (Function.update (Function.update τ n (K.place n)) (n + 1) x) t' ∧
      ∀ k < (typeSizeof Γ p.typeOrInt).toNat, byteOf x k = byteOf (words idx) k := by
  intro n
  have hty : p.typeOrInt.isWord = true := (Bool.and_eq_true_iff.mp hp).2
  have hagg := word_not_aggregate hty
  let ins := paramCopy idx p.typeOrInt n (n + 1)
  let g₁ := (newTemp (genAlloca Γ p.typeOrInt g).2).2
  have hdst : ins.dst = irvTemp (n + 1) p.typeOrInt := by simp [ins, paramCopy, hagg]
  have hop : ins.op ≠ .label := by simp [ins, paramCopy, hagg]
  have hcopy : Within (emit ins g₁).2 G := ⟨hF.code, hF.strConsts⟩
  have hcapture : Within g₁ G := hcopy.back (.emit hop)
  have hstorage : Within (genAlloca Γ p.typeOrInt g).2 G := ⟨hcapture.code, hcapture.strConsts⟩
  obtain ⟨hn, hn', t₁, hreach, h₁⟩ := h.alloca hG p.typeOrInt hstorage
  obtain ⟨pc, M⟩ := t₁
  have hpos : (genAlloca Γ p.typeOrInt g).2.pos = g.pos + 1 := List.length_append
  obtain rfl : pc = asmPos Γ G.func g₁.pos := h₁.pc
  have hi : G.func.instrs[g₁.pos]? = some ins := hcopy.emitted
  have hin := hG.within ins (List.mem_of_getElem? hi) ins.dst (by simp [IRInstr.values]) (n + 1)
    (by rw [hdst]; rfl)
  have hlines := codegen_paramCopy G.func (regallocRun G.func) hty hG.ret hidx
    (fun q hq => hG.params q (List.mem_of_mem_take hq)) n (n + 1)
  obtain ⟨s', x, hexec, hholds, hx, hreg⟩ := exec_captureWord (Γ := Γ) (E := E)
    h₁.holds hin.1 hin.2 hty fun _ : 6 ≤ idx => hG.stack idx (by omega)
  rw [hG.ra, ← hlines] at hexec
  refine ⟨x, ⟨asmPos Γ G.func (g₁.pos + 1), s'⟩, hreach.trans (reaches_block hi hexec),
    ⟨?_, hholds, fun i => ?_, ?_⟩, ?_⟩
  · have hlast : (emit ins g₁).2.pos = g₁.pos + 1 := List.length_append
    exact congrArg (asmPos Γ G.func) hlast.symm
  · rw [← h₁.words i]
    refine paramWord_congr (fun r hr => ?_) m F.bp i
    obtain ⟨hax, h10, h11, -⟩ := paramRegs_other r hr
    exact hreg r hax h10 h11
  · have hplaced : Housed K (emit ins g₁).2
        (Function.update (Function.update τ n (K.place n)) (n + 1) x) :=
      h₁.placed.later (fun _ => rfl) (Nat.le_succ _) (AgreeBelow.refl.update le_rfl _)
    refine hplaced.define (Nat.lt_succ_of_lt (Nat.lt_succ_self n)) ?_ _ _
    rw [Function.update_of_ne (by omega), Function.update_self]
  · rw [← h₁.words idx]
    exact hx

theorem Places.genParams (Γ : TypeEnv) (ps : List ParamDecl) (idx : ℕ) :
    Places [] (genParams Γ ps idx) := by
  have hcopy : ∀ i ty a t, (paramCopy i ty a t).op ≠ .label := fun i ty a t => by
    unfold paramCopy
    split <;> simp
  have hcapture : ∀ i ty a, Places [] (genParamCapture i ty a) := fun i ty a => by
    unfold genParamCapture
    split
    · exact seq (emit (hcopy _ _ _ _)) fun _ => pure _
    · exact seq (Emits.newTemp).places fun _ => seq (emit (hcopy _ _ _ _)) fun _ => pure _
  induction ps generalizing idx with
  | nil => exact pure _
  | cons p ps ih =>
    unfold TinyC.genParams
    split
    · exact ih _
    · exact seq (Emits.genAlloca Γ _).places fun _ => seq (hcapture _ _ _) fun _ =>
        seq (update (fun _ => rfl) (fun _ => rfl) (fun _ => rfl) fun _ => List.Subset.refl _)
          fun _ => seq (ih _) fun _ => pure _

/-- What `genParams` returns for a parameter: where it is to be stored, and its word. -/
structure CapturedWord (Γ : TypeEnv) (ω : Objects) (words : ℕ → BitVec 64) (τ : ℕ → BitVec 64)
    (q : ParamDecl × ℕ) (v : IRValue × Option IRValue) : Prop where
  place : ∃ n, v.1 = irvTemp n (typePointer q.1.typeOrInt .none) ∧ τ n = ω.place q.1.label
  word : ∃ n, v.2 = some (irvTemp n q.1.typeOrInt) ∧
    ∀ k < (typeSizeof Γ q.1.typeOrInt).toNat, byteOf (τ n) k = byteOf (words q.2) k

/-- Other names are found as before. -/
theorem genParams_lookup {ps : List ParamDecl} (hps : ∀ p ∈ ps, p.isWord = true) (idx : ℕ)
    (g : IrGen) {x : String} (hx : x ∉ ps.map ParamDecl.label) :
    (genParams Γ ps idx g).2.scope.lookup vtabBuckets x = g.scope.lookup vtabBuckets x := by
  induction ps generalizing idx g with
  | nil => rfl
  | cons p ps ih =>
    rw [List.map_cons, List.mem_cons, not_or] at hx
    rw [genParams_cons Γ (hps p List.mem_cons_self)]
    refine (ih (fun q hq => hps q (List.mem_cons_of_mem p hq)) _ _ hx.2).trans ?_
    exact ScopeChain.lookup_define_of_ne _ hx.1

/-- The capture of the parameters. -/
theorem AtHead.params (hG : Framed Γ E K F G) {ps : List ParamDecl}
    (hps : ∀ p ∈ ps, p.isWord = true) (hnames : (ps.map ParamDecl.label).Nodup)
    (h : AtHead Γ G.func F K words m g τ t) (hidx : idx + ps.length ≤ G.func.params.length)
    (hle : idx < g.func.nextTemp) (hscope : g.scope ≠ []) (hF : Within (genParams Γ ps idx g).2 G) :
    ∃ τ' t', StateTransition.Reaches (asmStep E (codegenFunc Γ G.func)) t t' ∧
      AtHead Γ G.func F K words m (genParams Γ ps idx g).2 τ' t' ∧
      AgreeBelow g.func.nextTemp τ τ' ∧
      List.Forall₂ (CapturedWord Γ (K.objects (genParams Γ ps idx g).2.scope) words τ')
        (ps.zipIdx idx) (genParams Γ ps idx g).1 := by
  induction ps generalizing idx g τ t with
  | nil => exact ⟨τ, t, .refl, h, .refl, .nil⟩
  | cons p ps ih =>
    have hp := hps p List.mem_cons_self
    have hps' : ∀ q ∈ ps, q.isWord = true := fun q hq => hps q (List.mem_cons_of_mem p hq)
    rw [List.map_cons, List.nodup_cons] at hnames
    rw [List.length_cons] at hidx
    rw [genParams_cons Γ hp] at hF ⊢
    let n := g.func.nextTemp
    let g₁ := afterParam Γ p idx g
    have hrest : Grows g₁ (genParams Γ ps (idx + 1) g₁).2 := (Places.genParams Γ ps _).grows g₁
    have hlookup : g₁.scope.lookup vtabBuckets p.label =
        some ⟨irvTemp n (typePointer p.typeOrInt .none), false⟩ :=
      ScopeChain.lookup_define_self hscope
    obtain ⟨x, t₁, hreach, h₁, hx⟩ := h.param hG hp (by omega) hle (hF.of_grows hrest)
    obtain ⟨τ', t', hreach', h', hagree, hall⟩ := ih hps' hnames.2 h₁ (by omega) (by
      change idx + 1 < n + 1 + 1
      omega) (ScopeChain.define_ne_nil hscope) hF
    have hplace : (K.objects (genParams Γ ps (idx + 1) g₁).2.scope).place p.label = K.place n := by
      have hlater := (genParams_lookup (Γ := Γ) hps' (idx + 1) g₁ hnames.1).trans hlookup
      exact ObjectLayout.objects_place hlater
    have hn : τ' n = K.place n := by
      refine (hagree n (Nat.lt_succ_of_lt (Nat.lt_succ_self n))).trans ?_
      rw [Function.update_of_ne (by omega), Function.update_self]
    have hn' : τ' (n + 1) = x :=
      (hagree (n + 1) (Nat.lt_succ_self (n + 1))).trans (Function.update_self ..)
    refine ⟨τ', t', hreach.trans hreach', h', ?_, .cons ⟨⟨n, rfl, hn.trans hplace.symm⟩, n + 1, rfl,
      fun k hk => ?_⟩ hall⟩
    · exact ((AgreeBelow.refl.update le_rfl _).update (Nat.le_succ n) x).trans hagree
        ((Nat.le_succ n).trans (Nat.le_succ (n + 1)))
    · rw [hn']
      exact hx k hk

theorem asmPos_zero (Γ : TypeEnv) (f : IRFunc) :
    asmPos Γ f 0 = (prologue (regallocRun f)).length := by
  rw [asmPos, asmBefore, List.take_zero, List.flatMap_nil, List.append_nil]

/-- From the call to the end of the capture of the parameters. -/
theorem enter_runs (hG : Framed Γ E K F G) {module : IRModule} {scope : ScopeChain VarEntry}
    {d : FuncDef} (hscope : FileScope scope) (hps : ∀ p ∈ d.params, p.isWord = true)
    (hnames : (d.params.map ParamDecl.label).Nodup) (hlen : d.params.length ≤ G.func.params.length)
    {M : MState} (hbp : F.bp = M.reg .rsp - 8)
    (hF : Within (genParams Γ d.params 0 (funcInit module scope d)).2 G) :
    let m := store M.mem F.bp 8 (M.reg .rbp)
    let words := paramWord M.reg m F.bp
    let r := genParams Γ d.params 0 (funcInit module scope d)
    ∃ τ t, StateTransition.Reaches (asmStep E (codegenFunc Γ G.func)) ⟨0, M⟩ t ∧
      AtHead Γ G.func F K words m r.2 τ t ∧
      List.Forall₂ (CapturedWord Γ (K.objects r.2.scope) words τ) (d.params.zipIdx 0) r.1 := by
  intro m words r
  obtain ⟨M₁, hexec, hrbp, hmem, hreg⟩ := exec_prologue (E := E) (regallocRun G.func) M
  rw [← hbp] at hrbp hmem
  have hcode : codegenFunc Γ G.func = [] ++ prologue (regallocRun G.func) ++
      (G.func.instrs.flatMap (codegenInstr Γ G.func (regallocRun G.func)) ++ [.leave, .ret]) := by
    simp only [codegenFunc, List.nil_append, List.append_assoc]
  have hland := lands_of_exec hcode hexec
  rw [List.length_nil, Nat.zero_add, ← asmPos_zero Γ] at hland
  have hholds : F.Holds M₁ ⟨slotOf F.ra M₁, m⟩ := by
    have h := SlotFrame.holds_view F hrbp
    rwa [SlotFrame.view, hmem] at h
  have hhoused : Housed K (funcInit module scope d) (slotOf F.ra M₁) := by
    intro x e he
    have hfound : scope.lookup vtabBuckets x = some e := he
    obtain ⟨fr, hfr, b, hmem⟩ := ScopeChain.mem_of_lookup hfound
    obtain ⟨name, ty, haddr⟩ := hscope fr hfr b _ hmem
    have hkind : e.addr.kind = .global name := congrArg IRValue.kind haddr
    exact ⟨by simp [hkind], fun t ht => by simp [hkind] at ht⟩
  have hhead : AtHead Γ G.func F K words m (funcInit module scope d) (slotOf F.ra M₁)
      ⟨asmPos Γ G.func 0, M₁⟩ := by
    refine ⟨rfl, hholds, fun i => paramWord_congr (fun r hr => ?_) m F.bp i, hhoused⟩
    obtain ⟨-, -, -, hbp, hsp⟩ := paramRegs_other r hr
    exact hreg r hbp hsp
  have hscope' : (funcInit module scope d).scope ≠ [] := List.cons_ne_nil _ _
  obtain ⟨τ, t, hreach, hat, -, hall⟩ := hhead.params hG hps hnames
    (by rwa [Nat.zero_add]) Nat.one_pos hscope' hF
  exact ⟨τ, t, ReflTransGen.trans hland hreach, hat, hall⟩

theorem Places.storeParams (vs : List (IRValue × Option IRValue)) :
    Places [] (storeParams vs) := by
  induction vs with
  | nil => exact pure _
  | cons v vs ih =>
    obtain ⟨addr, _ | val⟩ := v
    · exact ih
    · exact seq (Emits.genStore _ _).places fun _ => ih

/-- The captured words go to the objects. -/
theorem storeParams_runs {ω : Objects} {ps : List ParamDecl} (hps : ∀ p ∈ ps, p.isWord = true)
    (hvalid : ∀ p ∈ ps, K.valid (ω.place p.label) (typeSizeof Γ p.typeOrInt).toNat = true)
    {vals : List (IRValue × Option IRValue)}
    (h : List.Forall₂ (CapturedWord Γ ω words τ) (ps.zipIdx idx) vals)
    (hF : Within (storeParams vals g).2 G) :
    ∃ k, (K.machine Γ).Steps G.func.instrs k ⟨g.pos, some m, τ⟩
      ⟨(storeParams vals g).2.pos, some (passParams Γ ω words ps idx m), τ⟩ := by
  induction ps generalizing idx vals g m with
  | nil =>
    cases h
    exact ⟨0, .refl _⟩
  | cons p ps ih =>
    obtain _ | @⟨_, ⟨addr, val⟩, _, vals, hv, hrest⟩ := h
    obtain ⟨n, rfl, hplace⟩ := hv.place
    obtain ⟨u, rfl, hlow⟩ := hv.word
    have hty : p.typeOrInt.isWord = true := (Bool.and_eq_true_iff.mp (hps p List.mem_cons_self)).2
    let ins : IRInstr :=
      { op := .store, dst := irvTemp n (typePointer p.typeOrInt .none), src1 := irvTemp u p.typeOrInt }
    let m' := store m (ω.place p.label) (typeSizeof Γ p.typeOrInt).toNat (words idx)
    change Within (storeParams vals (emit ins g).2).2 G at hF
    have hgrows : Grows (emit ins g).2 (storeParams vals (emit ins g).2).2 :=
      (Places.storeParams vals).grows _
    have hi : G.func.instrs[g.pos]? = some ins := (hF.of_grows hgrows).emitted
    have hbytes : accessBytes Γ (storeType ins) = (typeSizeof Γ p.typeOrInt).toNat :=
      accessBytes_word hty
    have hstore : K.irStore Γ ins m τ = some m' := by
      have hdst : K.operand τ ins.dst = ω.place p.label := hplace
      have hsrc : K.operand τ ins.src1 = τ u := rfl
      simp only [ObjectLayout.irStore, hbytes, hdst, hsrc, hvalid p List.mem_cons_self, if_true,
        store_congr hlow, m']
    have hstep := Lowering.step_plain (M := K.machine Γ) (s := ⟨g.pos, some m, τ⟩) hi (.inr rfl)
    rw [IrMachine.perform, ObjectLayout.effect_store rfl, Option.bind_some, hstore] at hstep
    obtain ⟨k, hsteps⟩ := ih (fun q hq => hps q (List.mem_cons_of_mem p hq))
      (fun q hq => hvalid q (List.mem_cons_of_mem p hq)) hrest hF
    have hpos : (emit ins g).2.pos = g.pos + 1 := List.length_append
    rw [hpos] at hsteps
    exact ⟨k + 1, .head hstep hsteps⟩

/-! ### Local variables -/

/-- A declaration that initializes nothing. -/
def Decl.plain : Decl → Bool
  | .var v => v.init.isNone
  | _ => true

theorem genAlloca_runs (h : Housed K g τ) (v : VarDecl) (hv : v.init.isNone = true)
    (hF : Within (genVarDecl Γ v g).2 G) :
    ∃ τ', (K.machine Γ).Steps G.func.instrs 1 ⟨g.pos, some m, τ⟩
        ⟨(genVarDecl Γ v g).2.pos, some m, τ'⟩ ∧ Housed K (genVarDecl Γ v g).2 τ' := by
  obtain hinit := Option.isNone_iff_eq_none.mp hv
  let n := g.func.nextTemp
  let ty := v.declType.getD typeInt
  let ins : IRInstr :=
    { op := .alloca, dst := irvTemp n (typePointer ty .none), allocaSize := (allocaExtent Γ ty).1
      allocaAlign := (allocaExtent Γ ty).2 }
  have hgen : (genVarDecl Γ v g).2 =
      (vscopeDefine v.name (irvTemp n (typePointer ty .none)) false (genAlloca Γ ty g).2).2 := by
    unfold genVarDecl
    rw [hinit]
    rfl
  rw [hgen] at hF ⊢
  have hemit : Within (emit ins (newTemp g).2).2 G := ⟨hF.code, hF.strConsts⟩
  have hi : G.func.instrs[g.pos]? = some ins := Within.emitted (g := (newTemp g).2) hemit
  have hvalue : K.irValue Γ ins m τ = some (K.place n) := rfl
  have hstep : (K.machine Γ).step G.func.instrs ⟨g.pos, some m, τ⟩ =
      some ⟨g.pos + 1, some m, Function.update τ n (K.place n)⟩ := by
    have heff := ObjectLayout.effect_value (by simp [ins]) hvalue
    simp only [IrMachine.step, hi, ins, IrMachine.perform] at heff ⊢
    rw [heff]
    rfl
  have hpos : (vscopeDefine v.name (irvTemp n (typePointer ty .none)) false
      (genAlloca Γ ty g).2).2.pos = g.pos + 1 := List.length_append
  have hplaced : Housed K (genAlloca Γ ty g).2 (Function.update τ n (K.place n)) :=
    h.later (fun _ => rfl) (Nat.le_succ _) (AgreeBelow.refl.update le_rfl _)
  refine ⟨_, ?_, hplaced.define (Nat.lt_succ_self n) (Function.update_self ..) _ _⟩
  rw [hpos]
  exact .head hstep (.refl _)

theorem genDecls_runs {ds : List Decl} (hds : ∀ d ∈ ds, d.plain = true) (h : Housed K g τ)
    (hF : Within (genDecls Γ ds g).2 G) :
    ∃ k τ', (K.machine Γ).Steps G.func.instrs k ⟨g.pos, some m, τ⟩
        ⟨(genDecls Γ ds g).2.pos, some m, τ'⟩ ∧ Housed K (genDecls Γ ds g).2 τ' := by
  induction ds generalizing g τ with
  | nil => exact ⟨0, τ, .refl _, h⟩
  | cons d ds ih =>
    have hds' : ∀ d ∈ ds, d.plain = true := fun d' hd' => hds d' (List.mem_cons_of_mem d hd')
    cases d with
    | var v =>
      change Within (genDecls Γ ds (genVarDecl Γ v g).2).2 G at hF
      have hgrows : Grows (genVarDecl Γ v g).2 (genDecls Γ ds (genVarDecl Γ v g).2).2 :=
        (Places.genDecls Γ ds).grows _
      obtain ⟨τ₁, hstep, h₁⟩ := genAlloca_runs (m := m) h v (hds _ List.mem_cons_self)
        (hF.of_grows hgrows)
      obtain ⟨k, τ', hsteps, h'⟩ := ih hds' h₁ hF
      exact ⟨_, τ', hstep.trans hsteps, h'⟩
    | _ => exact ih hds' h hF

theorem genDeclStmts_runs {ds : List (List Decl)} (hds : ∀ l ∈ ds, ∀ d ∈ l, d.plain = true)
    (h : Housed K g τ) (hF : Within (genStmts Γ (ds.map .decl) g).2 G) :
    ∃ k τ', (K.machine Γ).Steps G.func.instrs k ⟨g.pos, some m, τ⟩
        ⟨(genStmts Γ (ds.map .decl) g).2.pos, some m, τ'⟩ ∧
      Housed K (genStmts Γ (ds.map .decl) g).2 τ' := by
  induction ds generalizing g τ with
  | nil => exact ⟨0, τ, .refl _, h⟩
  | cons l ds ih =>
    change Within (genStmts Γ (ds.map .decl) (genDecls Γ l g).2).2 G at hF
    have hgrows : Grows (genDecls Γ l g).2 (genStmts Γ (ds.map .decl) (genDecls Γ l g).2).2 :=
      (genStmts_places Γ _).grows _
    obtain ⟨k, τ₁, hsteps, h₁⟩ := genDecls_runs (m := m) (hds l List.mem_cons_self) h
      (hF.of_grows hgrows)
    obtain ⟨k', τ', hsteps', h'⟩ := ih (fun l' hl' => hds l' (List.mem_cons_of_mem l hl')) h₁ hF
    exact ⟨_, τ', hsteps.trans hsteps', h'⟩

end

end TinyC

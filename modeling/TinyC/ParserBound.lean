import TinyC.ParserRules

/-!
# The bound on the depth of calls

A parse that ends below a bound ends in the same way below a higher one. So the bound decides
whether a parse ends, and never how.
-/

namespace TinyC

variable {L : Type}

/-- `m'` goes on where `m` runs out of depth, and does the same elsewhere. -/
def Prolongs {α : Type} (m m' : ParseM L α) : Prop := ∀ p, m p = .error .fuel ∨ m p = m' p

namespace Prolongs

variable {α β : Type}

theorem refl (m : ParseM L α) : Prolongs m m := fun _ => .inr rfl

theorem ofStuck (m : ParseM L α) : Prolongs (throw .fuel) m := fun _ => .inl rfl

theorem bind {m m' : ParseM L α} {k k' : α → ParseM L β} (hm : Prolongs m m')
    (hk : ∀ a, Prolongs (k a) (k' a)) : Prolongs (m >>= k) (m' >>= k') := by
  intro p
  have hbind : ∀ (m : ParseM L α) (k : α → ParseM L β),
      (m >>= k) p = (m p >>= fun r => k r.1 r.2) := fun _ _ => rfl
  rw [hbind, hbind]
  rcases hm p with hfuel | heq
  · rw [hfuel]
    exact .inl rfl
  · rw [heq]
    cases m' p with
    | error e => exact .inr rfl
    | ok r => exact hk r.1 r.2

theorem ok {m m' : ParseM L α} (h : Prolongs m m') {p : Parser L} {r : α × Parser L}
    (hm : m p = .ok r) : m' p = .ok r := by
  rcases h p with hfuel | heq
  · rw [hfuel] at hm
    cases hm
  · rw [← heq, hm]

end Prolongs

variable [TokenSource L]

theorem prolongs_stateRules : StateRules (L := L) Prolongs where
  pure _ := .refl _
  bind := .bind
  throw _ := .refl _
  get := .refl _
  peek := .refl _
  advance := .refl _
  parseError _ _ _ := .refl _
  typeCall _ := .refl _
  scopeDefine _ _ _ := .refl _
  tagDefine _ _ _ := .refl _
  inNewScope hm := .bind (.refl _) fun _ => .bind (.refl _) fun _ => .bind hm fun _ => .refl _
  inLoop hm := .bind (.refl _) fun _ => .bind hm fun _ => .refl _
  inSwitch hm := .bind (.refl _) fun _ => .bind hm fun _ => .refl _
  newNode := .refl _

theorem prolongs_parseRules : ParseRules (L := L) Prolongs where
  toStateRules := prolongs_stateRules
  structUnion h := prolongs_stateRules.structUnion (fun _ => .refl _) (fun _ => .refl _) h
  enum h := prolongs_stateRules.enum (fun _ => .refl _) (fun _ => .refl _) h

omit [TokenSource L] in
/-- Without any depth nothing is done, so that everything prolongs it. -/
theorem stuck_prolongs (F : ParseFns L) : (ParseFns.stuck : ParseFns L).Related Prolongs F where
  skipAttributes := .ofStuck _
  skipParens _ := .ofStuck _
  declSpec _ _ := .ofStuck _
  members _ := .ofStuck _
  memberDeclarators _ _ := .ofStuck _
  enumerators _ _ := .ofStuck _
  suffix _ := .ofStuck _
  params _ := .ofStuck _
  quals _ := .ofStuck _
  stars _ := .ofStuck _
  declarator _ := .ofStuck _
  initItems _ := .ofStuck _
  initializer := .ofStuck _
  expr _ := .ofStuck _
  infixes _ _ := .ofStuck _
  args _ := .ofStuck _
  statement := .ofStuck _
  statements _ := .ofStuck _
  declarators _ _ _ _ := .ofStuck _
  topDecls _ := .ofStuck _

theorem parsers_prolongs {n n' : ℕ} (h : n ≤ n') :
    (parsers n : ParseFns L).Related Prolongs (parsers n') := by
  induction n generalizing n' with
  | zero => exact stuck_prolongs _
  | succ n ih =>
    obtain ⟨n', rfl⟩ : ∃ m, n' = m + 1 := ⟨n' - 1, by omega⟩
    exact prolongs_parseRules.deeper (ih (by omega))

variable {p : Parser L}

/-- A parse that ends below a bound ends in the same way below a higher one. -/
theorem parserParse_of_le {n n' : ℕ} {r : RawUnit × Parser L} (hn : n ≤ n')
    (h : parserParse n p = .ok r) : parserParse n' p = .ok r :=
  ((parsers_prolongs hn).topDecls []).ok h

/-- Two parses that end do so in the same way. -/
theorem parserParse_unique {n n' : ℕ} {r r' : RawUnit × Parser L} (h : parserParse n p = .ok r)
    (h' : parserParse n' p = .ok r') : r = r' := by
  rcases Nat.le_total n n' with hn | hn
  · exact Except.ok.inj ((parserParse_of_le hn h).symm.trans h')
  · exact Except.ok.inj (h.symm.trans (parserParse_of_le hn h'))

end TinyC

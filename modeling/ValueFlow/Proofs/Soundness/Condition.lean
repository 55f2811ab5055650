import ValueFlow.Proofs.Soundness.Expr

namespace ValueFlow.Context

variable {ctx : Context} {depth : Nat} {n l r : NodeId} {s s' s₁ s₂ : Store} {x y : Concrete}
  {S : State} {v w : Value} {σ τ : Session}

/-- Binding what is left of an operand loses no store in which the operand still has its value. -/
theorem mem_narrow (hlength : ∀ target, ctx.tree.expr n ≠ .ok (.length target))
    (hd : ∀ d, ctx.tree.variableOf n = some d → s d = some x) (hs : s ∈ S) (hx : x ∈ v) :
    s ∈ ctx.narrow n v S := by
  unfold narrow
  rw [hs.1, Value.isEmpty_eq_false hx]
  simp only [Bool.false_eq_true, if_false]
  cases hvar : ctx.tree.variableOf n with
  | some d => exact State.mem_set_of_has hs (hd d hvar) hx
  | none =>
    split
    · rename_i hsome
      cases hsome
    · rename_i hexpr
      exact absurd hexpr (hlength _)
    · exact hs

theorem mem_assume {rel : Relation} (hl : Evaluates ctx.tree l s x s₁)
    (hr : Evaluates ctx.tree r s₁ y s₂) (hrel : rel.Holds x y) (hx : x ∈ v) (hy : y ∈ w)
    (hs : s₂ ∈ S) : s₂ ∈ ctx.assume rel l r v w S := by
  unfold assume
  refine mem_narrow hr.expr_ne_length (fun d hd => ?_) ?_
    (Value.mem_restrict (Relation.holds_converse hrel) hy hx)
  · obtain ⟨rfl, hsd⟩ := hr.of_variableOf hd
    exact hsd
  · split
    · exact hs
    · rename_i hpure
      -- the left operand still has its value, as the right one does not write
      refine mem_narrow hl.expr_ne_length (fun d hd => ?_) hs (Value.mem_restrict hrel hx hy)
      have hwrites : ctx.tree.mayWrite r = false := by simpa using hpure
      obtain ⟨rfl, -⟩ := hr.of_writesWithin hwrites
      obtain ⟨rfl, hsd⟩ := hl.of_variableOf hd
      exact hsd

theorem mem_truth {b : Bool} (hd : ∀ d, ctx.tree.variableOf n = some d → s d = some (.bool b))
    (hs : s ∈ S) (hv : .bool b ∈ v) : s ∈ (Evaluators.truth ctx n v S).on b := by
  have hassume : s ∈ ctx.assumeBool n v b S := by
    unfold assumeBool
    split
    · rename_i d hvar
      have hb : .bool b ∈ Value.bool b := Literal.mem_value (l := .bool b) rfl
      exact State.mem_set_of_has hs (hd d hvar) (Value.mem_restrictEqual hv hb)
    · exact hs
  have hflag : ∀ t f, v.flags?.getD (true, true) = (t, f) → (if b then t else f) = true := by
    intro t f h
    cases hflags : v.flags? with
    | none =>
      rw [hflags] at h
      cases h
      cases b <;> rfl
    | some flags =>
      rw [hflags] at h
      subst h
      exact Value.flag_of_mem hflags hv
  unfold Evaluators.truth
  rw [Value.isEmpty_eq_false hv, hs.1]
  simp only [Bool.or_false, Bool.false_eq_true, if_false]
  cases b with
  | true => exact State.mem_killUnless hassume (hflag _ _ rfl)
  | false => exact State.mem_killUnless hassume (hflag _ _ rfl)

variable (ht : ctx.tree.WritesPrimitives) (hsound : ctx.ExprSound (ctx.evaluators depth))
  (hs : s ∈ S) (hS : S.WellFormedWithin lengths)

include ht hsound hs hS

theorem sound_comparison {rel : Relation} {b : Bool} {B : Branches}
    (hl : Evaluates ctx.tree l s x s₁) (hr : Evaluates ctx.tree r s₁ y s₂)
    (hb : rel.eval? x y = some b)
    (h : ((ctx.evaluators depth).comparison ctx n rel l r S).Yields σ B τ) : s₂ ∈ B.on b := by
  obtain ⟨⟨a, S₁⟩, ρ₁, hleft, hrest₁⟩ := Walk.bind_eq_ok.1 h.ok
  obtain ⟨⟨a', S₂⟩, ρ₂, hright, hrest₂⟩ := Walk.bind_eq_ok.1 hrest₁
  obtain ⟨w, ρ₃, hsettle, hsplit⟩ := Walk.bind_eq_ok.1 hrest₂
  obtain ⟨-, hS₁, hgrows₁⟩ := grown_expr ht hS hleft
  obtain ⟨-, -, hgrows₂⟩ := grown_expr ht hS₁ hright
  obtain ⟨rfl, hgrows₃, -⟩ := Outcome.settle_eq_ok hsettle
  have hlast : ρ₃ = τ := by
    revert hsplit
    cases (a.test rel a').value.flags? with
    | none =>
      intro hsplit
      cases hsplit
      rfl
    | some flags =>
      intro hsplit
      cases hsplit
      rfl
  have hclean₂ := hgrows₃.clean (hlast ▸ h.clean)
  have hmuted₁ : ρ₁.muted = 0 := hgrows₁.muted.trans h.muted
  obtain ⟨hx, hs₁⟩ := hsound.expr hl hs hS ⟨h.muted, hleft, hgrows₂.clean hclean₂⟩
  obtain ⟨hy, hs₂⟩ := hsound.expr hr hs₁ hS₁ ⟨hmuted₁, hright, hclean₂⟩
  have hassume := mem_assume hl hr (Relation.holds_withOutcome hb) hx hy hs₂
  obtain ⟨canBeTrue, canBeFalse, hflags, hflag⟩ := Value.flags?_test hb hx hy
  rw [hflags] at hsplit
  cases hsplit
  cases b with
  | true => exact State.mem_killUnless hassume hflag
  | false => exact State.mem_killUnless hassume hflag

theorem sound_condOf {e : Expr} {b : Bool} {B : Branches}
    (hev : Evaluates ctx.tree n s (.bool b) s') (he : ctx.tree.expr n = .ok e)
    (h : ((ctx.evaluators depth).condOf ctx n S e).Yields σ B τ) : s' ∈ B.on b := by
  have hvalue : (ctx.evaluators depth).condOf ctx n S e =
      (ctx.evaluators depth).judged ctx n S e → s' ∈ B.on b := by
    intro heq
    have hok := h.ok
    rw [heq] at hok
    obtain ⟨⟨v, S₁⟩, ρ, hexpr, hpure⟩ := Walk.bind_eq_ok.1 hok
    cases hpure
    obtain ⟨hv, hs'⟩ := sound_exprOf ht hsound hs hS hev he ⟨h.muted, hexpr, h.clean⟩
    refine mem_truth (fun d hd => ?_) hs' hv
    obtain ⟨rfl, hsd⟩ := hev.of_variableOf hd
    exact hsd
  generalize hx : Concrete.bool b = x at hev
  cases hev with
  | compare he' hl hr hb =>
    cases he.symm.trans he'
    cases hx
    exact sound_comparison ht hsound hs hS hl hr hb h
  | andLeft he' hl =>
    cases he.symm.trans he'
    cases hx
    exact (sound_shortCircuit (c := true) ht hsound hs hS h).1 _ hl
  | andRight he' hl hr =>
    cases he.symm.trans he'
    cases hx
    exact (sound_shortCircuit (c := true) ht hsound hs hS h).2 _ _ _ hl hr
  | orLeft he' hl =>
    cases he.symm.trans he'
    cases hx
    exact (sound_shortCircuit (c := false) ht hsound hs hS h).1 _ hl
  | orRight he' hl hr =>
    cases he.symm.trans he'
    cases hx
    exact (sound_shortCircuit (c := false) ht hsound hs hS h).2 _ _ _ hl hr
  | @unary _ op e x _ _ _ he' hoperand hop =>
    cases he.symm.trans he'
    subst hx
    cases op with
    | not =>
      obtain ⟨B', ρ, hcond, hpure⟩ := Walk.bind_eq_ok.1 h.ok
      cases hpure
      cases x <;> cases hop
      rename_i c
      have hmem := hsound.cond hoperand hs hS ⟨h.muted, hcond, h.clean⟩
      cases c <;> exact hmem
    | _ => exact hvalue rfl
  | @increment _ op _ _ _ _ _ _ _ he' hop =>
    cases he.symm.trans he'
    cases op with
    | not => cases hop
    | _ => exact hvalue rfl
  | literal he' | name he' | arith he' | assign he' | update he' | conditional he' =>
    cases he.symm.trans he'
    exact hvalue rfl

omit ht hsound hs hS in
theorem exprSound (ht : ctx.tree.WritesPrimitives) (depth : Nat) :
    ctx.ExprSound (ctx.evaluators depth) := by
  induction depth with
  | zero =>
    constructor
    · intro _ _ _ _ _ _ _ _ _ _ _ _ h
      cases h.ok
    · intro _ _ _ _ _ _ _ _ _ _ _ h
      cases h.ok
  | succ depth ih =>
    constructor
    · intro n s s' x S S' v σ τ hev hs hS h
      obtain ⟨e, he, hexpr⟩ := Tree.visit_eq_ok hs.1 h.ok
      exact sound_exprOf ht ih hs hS hev he ⟨h.muted, hexpr, h.clean⟩
    · intro n s s' b S B σ τ hev hs hS h
      obtain ⟨e, he, hcond⟩ := Tree.visit_eq_ok hs.1 h.ok
      exact sound_condOf ht ih hs hS hev he ⟨h.muted, hcond, h.clean⟩

end ValueFlow.Context

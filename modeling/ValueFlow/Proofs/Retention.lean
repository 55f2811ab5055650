import ValueFlow.Proofs.Execution
import ValueFlow.Proofs.Retention.Part
import ValueFlow.Proofs.Soundness.Expr
import ValueFlow.Proofs.Splitting.Guard

namespace ValueFlow

namespace Tree

variable {t : Tree} {n : NodeId} {e : Expr}

/-- Nothing in the expression can write. -/
def OnlyReads (t : Tree) (n : NodeId) : Prop := ∃ depth, t.writesWithin depth n = false

theorem OnlyReads.isWrite (h : t.OnlyReads n) (he : t.expr n = .ok e) : e.isWrite = false := by
  obtain ⟨depth, h⟩ := h
  exact (of_writesWithin_eq_false h he).1

theorem OnlyReads.child (h : t.OnlyReads n) (he : t.expr n = .ok e) {c : NodeId}
    (hc : c ∈ e.children) : t.OnlyReads c := by
  obtain ⟨depth, h⟩ := h
  obtain ⟨-, depth', hchildren⟩ := of_writesWithin_eq_false h he
  exact ⟨depth', hchildren c hc⟩

end Tree

structure Branches.Retain (d : DeclId) (w : Value) (b : Branches) : Prop where
  whenTrue : b.whenTrue.Retains d w
  whenFalse : b.whenFalse.Retains d w

theorem Branches.Retain.on {B : Branches} {d : DeclId} {w : Value} (h : B.Retain d w) :
    ∀ b, (B.on b).Retains d w :=
  Branches.forall_on.2 ⟨h.whenTrue, h.whenFalse⟩

section Operations

variable (ctx : Context) {s other : State} {d e : DeclId} {n target lhs rhs : NodeId} {v w : Value}

theorem State.Retains.narrowLength (h : s.Retains d w) (e : DeclId) (range : Interval) :
    (s.narrowLength e range).Retains d w := by
  unfold State.narrowLength
  split
  · rename_i l hl
    dsimp only
    split
    · exact State.retains_kill
    · refine h.set fun hed => ?_
      subst hed
      unfold State.get at hl
      split at hl
      · cases hl
      · rename_i hlive
        obtain ⟨v, hv, hpart⟩ := h (by simpa using hlive)
        rw [hv] at hl
        cases hpart <;> cases hl
  · exact h

/-- What is tracked is read, whatever the declaration says. -/
theorem Context.read_of_lookup {u : Value} (hu : s.lookup d = some u) (h : ctx.read d s = .ok v) :
    v = u := by
  unfold Context.read at h
  rw [hu] at h
  cases hdecl : ctx.tree.decl d with
  | error err =>
    rw [hdecl] at h
    cases h
  | ok decl =>
    rw [hdecl] at h
    cases h
    rfl

variable (h : s.Retains d w)

include h

theorem Context.retains_afterDeref (hv : ctx.tree.variableOf target = some d → v.LeftOf w) :
    (ctx.afterDeref target v s).Retains d w := by
  unfold Context.afterDeref
  split
  · rename_i hnullable
    split
    · rename_i e hvar
      -- what is dereferenced is a reference, which `d` is not
      refine h.set fun hed => ?_
      have hprimitive := (hv (hed ▸ hvar)).isReference
      simp [hprimitive] at hnullable
    · exact h
  · exact h

theorem Context.retains_narrow (hv : ctx.tree.variableOf n = some d → v.LeftOf w) :
    (ctx.narrow n v s).Retains d w := by
  unfold Context.narrow
  split
  · exact h
  · split
    · exact State.retains_kill
    · rename_i hempty
      split
      · rename_i e hvar
        refine h.set fun hed => (hv (hed ▸ hvar)).resolve_left ?_
        rintro rfl
        exact hempty rfl
      · split
        · exact h.narrowLength _ _
        · exact h
      · exact h

theorem Context.retains_assume (rel : Relation) {l r : Value}
    (hl : ctx.tree.variableOf lhs = some d → l.LeftOf w)
    (hr : ctx.tree.variableOf rhs = some d → r.LeftOf w) :
    (ctx.assume rel lhs rhs l r s).Retains d w := by
  unfold Context.assume
  refine ctx.retains_narrow ?_ fun hvar => (hr hvar).restrict _ _
  split
  · exact h
  · exact ctx.retains_narrow h fun hvar => (hl hvar).restrict _ _

theorem Context.retains_assumeBool {b : Bool}
    (hv : ctx.tree.variableOf n = some d → (v.restrictEqual (.bool b)).PartOf w) :
    (ctx.assumeBool n v b s).Retains d w := by
  unfold Context.assumeBool
  split
  · rename_i e hvar
    exact h.set fun hed => hv (hed ▸ hvar)
  · exact h

theorem Evaluators.retain_truth (hv : ctx.tree.variableOf n = some d → v.LeftOf w) :
    (truth ctx n v s).Retain d w := by
  unfold truth
  split
  · exact ⟨State.retains_dead, State.retains_dead⟩
  · rename_i hempty
    have hpart : ctx.tree.variableOf n = some d → v.PartOf w := fun hvar =>
      (hv hvar).resolve_left (by rintro rfl; exact hempty rfl)
    constructor
    · refine State.retains_killUnless fun hlive => ctx.retains_assumeBool h fun hvar => ?_
      exact (hpart hvar).restrictEqual_bool hlive
    · refine State.retains_killUnless fun hlive => ctx.retains_assumeBool h fun hvar => ?_
      exact (hpart hvar).restrictEqual_bool hlive

theorem Tree.retains_conjoin (t : Tree) (hother : other.Retains d w) :
    (t.conjoin n s other).Retains d w := by
  unfold Tree.conjoin
  split
  · exact State.retains_dead
  · split
    · exact hother
    · exact h.intersect hother

end Operations

/-- The state after the node retains a part of `w` for `d`; if the node reads `d`, its value is such
a part, or nothing. -/
structure Tree.Retained (t : Tree) (d : DeclId) (w : Value) (n : NodeId) (r : Value × State) :
    Prop where
  state : r.2.Retains d w
  value : t.variableOf n = some d → r.1.LeftOf w

/-- Evaluators that overwrite `d` in no expression that only reads. -/
structure Evaluators.Retain (below : Evaluators) (t : Tree) (d : DeclId) (w : Value) : Prop where
  expr {n : NodeId} {s : State} : t.OnlyReads n → s.Retains d w →
    (below.expr n s).Ensures (t.Retained d w n)
  cond {n : NodeId} {s : State} : t.OnlyReads n → s.Retains d w →
    (below.cond n s).Ensures (Branches.Retain d w)

namespace Retention

open Walk

variable {ctx : Context} {below : Evaluators} {d : DeclId} {w : Value} {n : NodeId} {s : State}
  (hb : below.Retain ctx.tree d w) (hs : s.Retains d w)

section Parts

include hb hs

theorem ensures_all {es : List NodeId} (hes : ∀ e ∈ es, ctx.tree.OnlyReads e) :
    (below.all es s).Ensures fun r => r.2.Retains d w := by
  induction es generalizing s with
  | nil => exact ensures_pure hs
  | cons e rest ih =>
    refine (hb.expr (hes e (by simp)) hs).bind ?_
    rintro ⟨v, s₁⟩ hr
    refine (ih hr.state fun e he => hes e (List.mem_cons_of_mem _ he)).bind ?_
    rintro ⟨vs, s₂⟩ hs₂
    exact ensures_pure hs₂

theorem ensures_deref {target : NodeId} (ht : ctx.tree.OnlyReads target) :
    (below.deref ctx n target s).Ensures fun r => r.2.Retains d w := by
  refine (hb.expr ht hs).bind ?_
  rintro ⟨v, s₁⟩ hr
  refine ensures_true.bind fun _ _ => ?_
  exact ensures_pure (ctx.retains_afterDeref hr.state hr.value)

theorem ensures_unary {op : Unary} {operand : NodeId} (hop : op.isIncrement = false)
    (ho : ctx.tree.OnlyReads operand) :
    (below.unary ctx n op operand s).Ensures fun r => r.2.Retains d w := by
  rw [Evaluators.unary, if_neg (by simp [hop])]
  refine (hb.expr ho hs).bind ?_
  rintro ⟨v, s₁⟩ hr
  exact ensures_true.bind fun _ _ => ensures_pure hr.state

theorem ensures_field {target : Option NodeId} (ht : ∀ c ∈ target.toList, ctx.tree.OnlyReads c)
    (x : DeclId) : (below.field ctx n target x s).Ensures fun r => r.2.Retains d w := by
  refine ensures_true.bind fun decl _ => ?_
  split
  · refine (ensures_deref hb hs (ht _ (by simp))).bind ?_
    rintro ⟨v, s₁⟩ hs₁
    exact ensures_pure hs₁
  · exact ensures_true.bind fun _ _ => ensures_pure hs

variable {lhs rhs : NodeId} (hl : ctx.tree.OnlyReads lhs) (hr : ctx.tree.OnlyReads rhs)

include hl hr

theorem ensures_binary (op : Value → Value → Outcome) :
    (below.binary n op lhs rhs s).Ensures fun r => r.2.Retains d w := by
  refine (hb.expr hl hs).bind ?_
  rintro ⟨v, s₁⟩ hleft
  refine (hb.expr hr hleft.state).bind ?_
  rintro ⟨u, s₂⟩ hright
  exact ensures_true.bind fun _ _ => ensures_pure hright.state

theorem ensures_shortCircuit (c : Bool) :
    (below.shortCircuit ctx c lhs rhs s).Ensures (Branches.Retain d w) := by
  refine (hb.cond hl hs).bind fun left hleft => ?_
  refine (hb.cond hr (hleft.on c)).bind fun right hright => ensures_pure ?_
  obtain ⟨htrue, hfalse⟩ := Branches.both_ofOutcome
    (ctx.tree.retains_conjoin (hleft.on c) (hright.on c)) ((hleft.on !c).merge (hright.on !c))
  exact ⟨htrue, hfalse⟩

theorem ensures_conditional {c : NodeId} (hc : ctx.tree.OnlyReads c) :
    (below.conditional c lhs rhs s).Ensures fun r => r.2.Retains d w := by
  refine (hb.cond hc hs).bind fun branches hbranches => ?_
  refine (hb.expr hl hbranches.whenTrue).bind ?_
  rintro ⟨v, left⟩ hleft
  refine (hb.expr hr hbranches.whenFalse).bind ?_
  rintro ⟨u, right⟩ hright
  exact ensures_pure (hleft.state.merge hright.state)

theorem ensures_comparison (rel : Relation) :
    (below.comparison ctx n rel lhs rhs s).Ensures (Branches.Retain d w) := by
  refine (hb.expr hl hs).bind ?_
  rintro ⟨v, s₁⟩ hleft
  refine (hb.expr hr hleft.state).bind ?_
  rintro ⟨u, s₂⟩ hright
  refine ensures_true.bind fun result _ => ?_
  split
  · exact ensures_pure ⟨State.retains_dead, State.retains_dead⟩
  · refine ensures_pure ⟨?_, ?_⟩
    all_goals
      refine State.retains_killUnless fun _ => ?_
      exact ctx.retains_assume hright.state _ hleft.value hright.value

end Parts

theorem ensures_guarded {split : Walk Branches} (h : split.Ensures (Branches.Retain d w)) :
    (Evaluators.guarded split).Ensures fun r => r.2.Retains d w :=
  h.bind fun _ hbranches => ensures_pure (hbranches.whenTrue.merge hbranches.whenFalse)

section Value

variable (hlive : s.unreachable = false)

include hs hlive

theorem ensures_read :
    (do let v ← Walk.require (ctx.read d s); pure (v, s) : Walk (Value × State)).Ensures
      fun r => r.1.LeftOf w := by
  obtain ⟨u, hu, hpart⟩ := hs hlive
  refine (ensures_require _).bind fun v hv => ensures_pure ?_
  rw [ctx.read_of_lookup hu hv]
  exact .inr hpart

/-- An expression that reads `d` answers what is tracked for it. -/
theorem ensures_exprOf_value {e : Expr} (he : ctx.tree.expr n = .ok e)
    (hvar : ctx.tree.variableOf n = some d) :
    (below.exprOf ctx n s e).Ensures fun r => r.1.LeftOf w := by
  have hfield : ∀ target, (below.field ctx n target d s).Ensures fun r => r.1.LeftOf w := by
    intro target
    refine ensures_true.bind fun decl _ => ?_
    rw [hvar]
    cases target <;> exact ensures_read hs hlive
  rcases Tree.variableOf_cases hvar with hname | hown | ⟨target, hown, -⟩
  · cases he.symm.trans hname
    exact ensures_read hs hlive
  · cases he.symm.trans hown
    exact hfield none
  · cases he.symm.trans hown
    exact hfield (some target)

end Value

section Node

variable (hn : ctx.tree.OnlyReads n)

include hb hs hn

theorem ensures_exprOf_state {e : Expr} (he : ctx.tree.expr n = .ok e) :
    (below.exprOf ctx n s e).Ensures fun r => r.2.Retains d w := by
  have hchild : ∀ c ∈ e.children, ctx.tree.OnlyReads c := fun c hc => hn.child he hc
  have hwrite := hn.isWrite he
  cases e with
  | literal l | self => exact ensures_pure hs
  | name x => exact ensures_true.bind fun _ _ => ensures_pure hs
  | unary op o => exact ensures_unary hb hs hwrite (hchild o (by simp [Expr.children]))
  | arith op l r | compare rel l r =>
    exact ensures_binary hb hs (hchild l (by simp [Expr.children]))
      (hchild r (by simp [Expr.children])) _
  | and l r =>
    exact ensures_guarded (ensures_shortCircuit hb hs (hchild l (by simp [Expr.children]))
      (hchild r (by simp [Expr.children])) true)
  | or l r =>
    exact ensures_guarded (ensures_shortCircuit hb hs (hchild l (by simp [Expr.children]))
      (hchild r (by simp [Expr.children])) false)
  | assign op target value | call method receiver args => cases hwrite
  | conditional c l r =>
    exact ensures_conditional hb hs (hchild l (by simp [Expr.children]))
      (hchild r (by simp [Expr.children])) (hchild c (by simp [Expr.children]))
  | field target x => exact ensures_field hb hs hchild x
  | index a i =>
    refine (ensures_deref hb hs (hchild a (by simp [Expr.children]))).bind ?_
    rintro ⟨v, s₁⟩ hs₁
    refine (hb.expr (hchild i (by simp [Expr.children])) hs₁).bind ?_
    rintro ⟨u, s₂⟩ hr
    exact ensures_pure hr.state
  | length target =>
    refine (ensures_deref hb hs (hchild target (by simp [Expr.children]))).bind ?_
    rintro ⟨v, s₁⟩ hs₁
    exact ensures_pure hs₁
  | newArray elem o | instanceOf o ty =>
    refine (hb.expr (hchild o (by simp [Expr.children])) hs).bind ?_
    rintro ⟨v, s₁⟩ hr
    exact ensures_pure hr.state
  | newObject ty es | unknown es =>
    refine (ensures_all hb hs hchild).bind ?_
    rintro ⟨vs, s₁⟩ hs₁
    exact ensures_pure hs₁
  | cast ty o =>
    refine (hb.expr (hchild o (by simp [Expr.children])) hs).bind ?_
    rintro ⟨v, s₁⟩ hr
    exact ensures_true.bind fun _ _ => ensures_pure hr.state

theorem ensures_exprOf {e : Expr} (he : ctx.tree.expr n = .ok e) (hlive : s.unreachable = false) :
    (below.exprOf ctx n s e).Ensures (ctx.tree.Retained d w n) := by
  intro σ r τ h
  exact ⟨ensures_exprOf_state hb hs hn he σ r τ h,
    fun hvar => ensures_exprOf_value hs hlive he hvar σ r τ h⟩

theorem ensures_condOf {e : Expr} (he : ctx.tree.expr n = .ok e) (hlive : s.unreachable = false) :
    (below.condOf ctx n s e).Ensures (Branches.Retain d w) := by
  have hchild : ∀ c ∈ e.children, ctx.tree.OnlyReads c := fun c hc => hn.child he hc
  unfold Evaluators.condOf
  split
  · exact ensures_comparison hb hs (hchild _ (by simp [Expr.children]))
      (hchild _ (by simp [Expr.children])) _
  · exact ensures_shortCircuit hb hs (hchild _ (by simp [Expr.children]))
      (hchild _ (by simp [Expr.children])) true
  · exact ensures_shortCircuit hb hs (hchild _ (by simp [Expr.children]))
      (hchild _ (by simp [Expr.children])) false
  · refine (hb.cond (hchild _ (by simp [Expr.children])) hs).bind fun branches h => ?_
    exact ensures_pure ⟨h.whenFalse, h.whenTrue⟩
  · refine (ensures_exprOf hb hs hn he hlive).bind ?_
    rintro ⟨v, s₁⟩ hr
    exact ensures_pure (Evaluators.retain_truth ctx hr.state hr.value)

end Node

theorem retain_evaluators (ctx : Context) (d : DeclId) (w : Value) (depth : Nat) :
    (ctx.evaluators depth).Retain ctx.tree d w := by
  induction depth with
  | zero => exact ⟨fun _ _ => ensures_throw _, fun _ _ => ensures_throw _⟩
  | succ depth ih =>
    exact ⟨fun hn hs => Tree.ensures_visit ⟨hs, fun _ => .inl rfl⟩ fun hlive e he =>
        ensures_exprOf ih hs hn he hlive,
      fun hn hs => Tree.ensures_visit ⟨State.retains_dead, State.retains_dead⟩ fun hlive e he =>
        ensures_condOf ih hs hn he hlive⟩

end Retention

/-- An expression that cannot write overwrites no primitive variable. Wherever it is evaluated, the
variable is still tracked in the state after it, if that is reached, and in each branch that it
leaves as a condition, with the same kind of value and no more numbers or outcomes than before. -/
theorem pure_expression_retains_primitives (ctx : Context) {n : NodeId}
    (hpure : ctx.tree.mayWrite n = false) {s : State} (hwf : s.WellFormedWithin lengths)
    {d : DeclId} {w : Value} (hd : s.lookup d = some w) (hprim : w.isPrimitive = true)
    (depth : Nat) (σ τ : Session) :
    (∀ v s', (ctx.evaluators depth).expr n s σ = .ok (v, s') τ → s'.unreachable = false →
      ∃ w', s'.lookup d = some w' ∧ w'.PartOf w) ∧
    ∀ branches, (ctx.evaluators depth).cond n s σ = .ok branches τ → ∀ b,
      (branches.on b).unreachable = false →
        ∃ w', (branches.on b).lookup d = some w' ∧ w'.PartOf w := by
  have hretain := Retention.retain_evaluators ctx d w depth
  have hstart : s.Retains d w := fun _ => ⟨w, hd, Value.partOf_self hprim (hwf d w hd)⟩
  refine ⟨fun v s' h => (hretain.expr ⟨_, hpure⟩ hstart σ (v, s') τ h).state, ?_⟩
  intro branches h b
  have hbranches := hretain.cond ⟨_, hpure⟩ hstart σ branches τ h
  cases b with
  | true => exact hbranches.whenTrue
  | false => exact hbranches.whenFalse

/-- `a < 5 && (text.length() > a ? flag : a < 5)` -/
def windowGuard : Tree where
  nodes := #[.expr (.name ⟨0⟩), .expr (.literal (.int 5)), .expr (.compare .lt ⟨0⟩ ⟨1⟩),
    .expr (.name ⟨2⟩), .expr (.length ⟨3⟩), .expr (.compare .gt ⟨4⟩ ⟨0⟩), .expr (.name ⟨1⟩),
    .expr (.conditional ⟨5⟩ ⟨6⟩ ⟨2⟩), .expr (.and ⟨2⟩ ⟨7⟩)]
  decls := #[⟨"a", .primitive .int, [], .var⟩, ⟨"flag", .primitive .boolean, [], .var⟩,
    ⟨"text", .string, [], .var⟩]

def windowGuard.start : State :=
  ((State.initial.set ⟨0⟩ (.intRange 0 9)).set ⟨1⟩ .anyBool).set ⟨2⟩ (.str lengths true)

/-- The guard narrows `a`, and leaves a part of it. -/
theorem windowGuard_retains : windowGuard.mayWrite ⟨8⟩ = false ∧ ∃ branches τ w',
    ((windowGuard.context {}).evaluators 6).cond ⟨8⟩ windowGuard.start {} = .ok branches τ ∧
    branches.whenTrue.unreachable = false ∧ branches.whenTrue.lookup ⟨0⟩ = some w' ∧
    w' ≠ .intRange 0 9 ∧ w'.PartOf (.intRange 0 9) := by
  have hpure : windowGuard.mayWrite ⟨8⟩ = false := by decide
  have hwf : windowGuard.start.WellFormedWithin lengths :=
    State.wf_set (State.wf_set (State.wf_set (fun _ _ h => by cases h) trivial)
      (Value.wf_ofFlags true true)) rfl
  have hanswer : ∃ branches τ,
      ((windowGuard.context {}).evaluators 6).cond ⟨8⟩ windowGuard.start {} = .ok branches τ ∧
      branches.whenTrue.unreachable = false ∧
      branches.whenTrue.lookup ⟨0⟩ = some (.intRange 0 4) :=
    ⟨_, _, rfl, by decide +kernel, by decide +kernel⟩
  obtain ⟨branches, τ, hcond, hlive, hlookup⟩ := hanswer
  have hretains := pure_expression_retains_primitives (windowGuard.context {}) hpure hwf
    (d := ⟨0⟩) (w := .intRange 0 9) (by decide) (by decide) 6 {} τ
  obtain ⟨w', hw', hpart⟩ := hretains.2 branches hcond true hlive
  cases hlookup.symm.trans hw'
  exact ⟨hpure, branches, τ, _, hcond, hlive, hlookup, by decide, hpart⟩

end ValueFlow

import ValueFlow.Proofs.Branches
import ValueFlow.Proofs.Simulation

namespace ValueFlow.Simulation

variable {S : Simulation} {N' N : Places} {below below' : Evaluators} {ks : List FrameKind}
  {n : NodeId} {s : State}

theorem PlaceLaws.variableOf (h : S.PlaceLaws N) (hn : N.expr n) {d : DeclId}
    (hd : S.tree.variableOf n = some d) : S.decl d := by
  unfold Tree.variableOf at hd
  split at hd
  · rename_i he; cases hd; exact h.name hn he
  · rename_i he; cases hd; exact h.field hn he
  · rename_i he
    split at hd
    · cases hd; exact h.field hn he
    · cases hd
  · cases hd

section Steps

variable (hL : S.Laws N' N) (hb : S.Related N below below')

include hL

theorem inStep_settle {o : Outcome} (hcertain : o.NullIsCertain) (ho : S.value o.value) :
    S.InStep ks S.value (o.settle n) (o.settle n) :=
  (inStep_report hL.session n (Outcome.isOptional_findings hcertain)).bind fun _ _ =>
    inStep_pure ho

theorem inStep_read {d : DeclId} (hd : S.decl d) (hs : S.state s) :
    S.InStep ks S.value (Walk.require (S.left.read d s)) (Walk.require (S.right.read d s)) := by
  apply inStep_require
  · intro v hv
    simp only [Context.read, left] at hv
    cases hdecl : S.tree.decl d with
    | error e => rw [hdecl] at hv; cases hv
    | ok decl =>
      rw [hdecl] at hv
      cases hv
      cases hl : s.lookup d with
      | none => exact hL.value.initialValue _ _
      | some v => exact hL.state.lookup hs hl
  · intro e he
    simp only [Context.read, left] at he
    cases hdecl : S.tree.decl d with
    | error e' => rw [hdecl] at he; cases he; exact hL.below.decl_error hd hdecl
    | ok decl => rw [hdecl] at he; cases he

theorem inStep_convert (ty : Ty) {v : Value} (hv : S.value v) :
    S.InStep ks S.value (S.left.convert n ty v) (S.right.convert n ty v) :=
  (inStep_modify (hL.session.unboxing n _)).bind fun _ _ =>
    inStep_pure (hL.value.convert ty .saturate hv)

theorem inStep_store {d : DeclId} (hd : S.decl d) {v : Value} (hv : S.value v) (hs : S.state s) :
    S.InStep ks S.Valued (S.left.store n d v s) (S.right.store n d v s) := by
  refine InStep.bind (Q := fun _ => True) ?_ fun decl _ => ?_
  · exact inStep_require (fun _ _ => trivial) fun e he => hL.below.decl_error hd he
  · refine (inStep_convert hL decl.ty hv).bind fun stored hstored => ?_
    exact inStep_pure ⟨hstored, hL.state.set hs hd hstored⟩

theorem inStep_checkArgs {callee : String} {args : List (DeclId × Value)}
    (h : ∀ a ∈ args, ∀ e, S.tree.decl a.1 = .error e → S.halt (.malformed e)) :
    S.InStep ks (fun _ => True) (S.left.checkArgs n callee args)
      (S.right.checkArgs n callee args) := by
  induction args with
  | nil => exact inStep_pure trivial
  | cons a rest ih =>
    obtain ⟨param, v⟩ := a
    refine InStep.bind (Q := fun _ => True) ?_ fun decl _ => ?_
    · exact inStep_require (fun _ _ => trivial) (h (param, v) (by simp))
    · exact (inStep_report hL.session n (v.isOptional_contractFindings _ _)).bind fun _ _ =>
        ih fun a ha => h a (List.mem_cons_of_mem _ ha)

theorem value_apply (op : Unary) {v : Value} (hv : S.value v) : S.value (op.apply v).value := by
  cases op with
  | neg => exact hL.value.negate hv
  | plus => exact hL.value.promote hv
  | not => exact hL.value.complement hv
  | preInc | postInc => exact hL.value.arith .add hv (hL.value.integer _)
  | preDec | postDec => exact hL.value.arith .sub hv (hL.value.integer _)

theorem value_test (rel : Relation) (a b : Value) : S.value (a.test rel b).value := by
  unfold Value.test
  split
  · exact hL.value.empty
  · split
    · exact hL.value.empty
    · exact hL.value.ofFlags _ _

theorem state_conjoin {rhs : NodeId} {l r : State} (hl : S.state l) (hr : S.state r) :
    S.state (S.tree.conjoin rhs l r) := by
  unfold Tree.conjoin
  split
  · exact hL.state.dead
  · split
    · exact hr
    · exact hL.state.intersect hl hr

omit hL in
theorem inStep_all (hb : S.Related N below below') {es : List NodeId} (hes : ∀ e ∈ es, N.expr e)
    (hs : S.state s) :
    S.InStep ks S.ListValued (below.all es s) (below'.all es s) := by
  induction es generalizing s with
  | nil => exact inStep_pure ⟨by simp, hs⟩
  | cons e rest ih =>
    refine (hb.expr ks (hes e (by simp)) hs).bind ?_
    intro ⟨v, s₁⟩ ⟨hv, hs₁⟩
    refine (ih (fun e he => hes e (List.mem_cons_of_mem _ he)) hs₁).bind ?_
    intro ⟨vs, s₂⟩ ⟨hvs, hs₂⟩
    refine inStep_pure ⟨fun w hw => ?_, hs₂⟩
    rcases List.mem_cons.1 hw with rfl | hw
    · exact hv
    · exact hvs w hw

include hb

theorem inStep_deref {target : NodeId} (ht : N.expr target) (hs : S.state s) :
    S.InStep ks S.Valued (below.deref S.left n target s) (below'.deref S.right n target s) := by
  refine (hb.expr ks ht hs).bind ?_
  intro ⟨v, s₁⟩ ⟨hv, hs₁⟩
  refine (inStep_modify (hL.session.deref n target v)).bind fun _ _ => ?_
  refine inStep_pure ⟨hL.value.withNullable false hv, ?_⟩
  show S.state (S.left.afterDeref target v s₁)
  unfold Context.afterDeref
  split
  · split
    · rename_i hd
      exact hL.state.set hs₁ (hL.below.variableOf ht hd) (hL.value.withNullable false hv)
    · exact hs₁
  · exact hs₁

theorem inStep_increment {op : Unary} {operand : NodeId} (hn : N.expr operand) (hs : S.state s) :
    S.InStep ks S.Valued (below.increment S.left n op operand s)
      (below'.increment S.right n op operand s) := by
  unfold Evaluators.increment
  rw [left_tree, right_tree]
  cases hd : S.tree.variableOf operand with
  | none =>
    refine (hb.expr ks hn hs).bind ?_
    intro ⟨v, s₁⟩ ⟨_, hs₁⟩
    exact inStep_pure ⟨hL.value.any, hs₁⟩
  | some d =>
    have hdecl := hL.below.variableOf hn hd
    refine (inStep_read hL hdecl hs).bind fun current hcurrent => ?_
    refine (inStep_settle hL (op.nullIsCertain_apply _) (value_apply hL op hcurrent)).bind
      fun result hresult => ?_
    refine (inStep_store hL hdecl hresult hs).bind ?_
    intro ⟨stored, s₁⟩ ⟨hstored, hs₁⟩
    refine inStep_pure ⟨?_, hs₁⟩
    show S.value (if op.answersOld then current else stored)
    split
    · exact hcurrent
    · exact hstored

theorem inStep_unary {op : Unary} {operand : NodeId} (hn : N.expr operand) (hs : S.state s) :
    S.InStep ks S.Valued (below.unary S.left n op operand s)
      (below'.unary S.right n op operand s) := by
  unfold Evaluators.unary
  split
  · exact inStep_increment hL hb hn hs
  · refine (hb.expr ks hn hs).bind ?_
    intro ⟨v, s₁⟩ ⟨hv, hs₁⟩
    exact (inStep_settle hL (op.nullIsCertain_apply _) (value_apply hL op hv)).bind
      fun result hresult => inStep_pure ⟨hresult, hs₁⟩

theorem inStep_binary {op : Value → Value → Outcome} {l r : NodeId}
    (hcertain : ∀ a b, (op a b).NullIsCertain)
    (hop : ∀ a b, S.value a → S.value b → S.value (op a b).value)
    (hl : N.expr l) (hr : N.expr r) (hs : S.state s) :
    S.InStep ks S.Valued (below.binary n op l r s) (below'.binary n op l r s) := by
  refine (hb.expr ks hl hs).bind ?_
  intro ⟨a, s₁⟩ ⟨ha, hs₁⟩
  refine (hb.expr ks hr hs₁).bind ?_
  intro ⟨b, s₂⟩ ⟨hb', hs₂⟩
  exact (inStep_settle hL (hcertain a b) (hop a b ha hb')).bind fun result hresult =>
    inStep_pure ⟨hresult, hs₂⟩

theorem inStep_shortCircuit {l r : NodeId} (c : Bool) (hl : N.expr l) (hr : N.expr r)
    (hs : S.state s) : S.InStep ks S.Split (below.shortCircuit S.left c l r s)
      (below'.shortCircuit S.right c l r s) := by
  refine (hb.cond ks hl hs).bind fun left hleft => ?_
  have hon : ∀ b, S.state (left.on b) := Branches.forall_on.2 hleft
  refine (hb.cond ks hr (hon c)).bind fun right hright => ?_
  have hon' : ∀ b, S.state (right.on b) := Branches.forall_on.2 hright
  exact inStep_pure
    (Branches.both_ofOutcome (state_conjoin hL (hon c) (hon' c))
      (hL.state.merge (hon !c) (hon' !c)))

theorem inStep_assignVariable {op : Option Arith} {d : DeclId} {value : NodeId} (hd : S.decl d)
    (hn : N.expr value) (hs : S.state s) :
    S.InStep ks S.Valued (below.assignVariable S.left n op d value s)
      (below'.assignVariable S.right n op d value s) := by
  cases op with
  | none =>
    refine (hb.expr ks hn hs).bind ?_
    intro ⟨v, s₁⟩ ⟨hv, hs₁⟩
    exact inStep_store hL hd hv hs₁
  | some op =>
    refine (inStep_read hL hd hs).bind fun current hcurrent => ?_
    refine (hb.expr ks hn hs).bind ?_
    intro ⟨v, s₁⟩ ⟨hv, hs₁⟩
    refine (inStep_settle hL (Value.nullIsCertain_arith op current v)
      (hL.value.arith op hcurrent hv)).bind fun result hresult => ?_
    exact inStep_store hL hd hresult hs₁

theorem inStep_target {target : NodeId} (hn : N.expr target)
    (hparts : ∀ e, S.tree.expr target = .ok e → ∀ c ∈ e.children, N.expr c) (hs : S.state s) :
    S.InStep ks S.state (below.target S.left target s) (below'.target S.right target s) := by
  refine InStep.bind (Q := fun e => S.tree.expr target = .ok e) ?_ fun e he => ?_
  · exact inStep_require (fun e he => he) fun e he => hL.below.expr_error hn he
  · split
    · rename_i array index
      refine (inStep_deref hL hb (hparts _ he array (by simp [Expr.children])) hs).bind ?_
      intro ⟨v, s₁⟩ ⟨_, hs₁⟩
      refine (hb.expr ks (hparts _ he index (by simp [Expr.children])) hs₁).bind ?_
      intro ⟨w, s₂⟩ ⟨_, hs₂⟩
      exact inStep_pure hs₂
    · rename_i object d
      refine (inStep_deref hL hb (hparts _ he object (by simp [Expr.children])) hs).bind ?_
      intro ⟨v, s₁⟩ ⟨_, hs₁⟩
      exact inStep_pure hs₁
    · refine (hb.expr ks hn hs).bind ?_
      intro ⟨v, s₁⟩ ⟨_, hs₁⟩
      exact inStep_pure hs₁

theorem inStep_assignElsewhere {op : Option Arith} {target value : NodeId} (hn : N.expr target)
    (hparts : ∀ e, S.tree.expr target = .ok e → ∀ c ∈ e.children, N.expr c)
    (hvalue : N.expr value) (hs : S.state s) :
    S.InStep ks S.Valued (below.assignElsewhere S.left n op target value s)
      (below'.assignElsewhere S.right n op target value s) := by
  refine (inStep_target hL hb hn hparts hs).bind fun s₁ hs₁ => ?_
  refine (hb.expr ks hvalue hs₁).bind ?_
  intro ⟨v, s₂⟩ ⟨hv, hs₂⟩
  cases op with
  | none => exact inStep_pure ⟨hv, hs₂⟩
  | some op =>
    have hany : S.InStep ks S.Valued (pure (.any, s₂)) (pure (.any, s₂)) :=
      inStep_pure ⟨hL.value.any, hs₂⟩
    dsimp only
    split
    · exact (inStep_report hL.session n (Outcome.isOptional_findings
        (Value.nullIsCertain_arith op _ v))).bind fun _ _ => hany
    · exact hany

theorem inStep_conditional {c t f : NodeId} (hc : N.expr c) (ht : N.expr t) (hf : N.expr f)
    (hs : S.state s) :
    S.InStep ks S.Valued (below.conditional c t f s) (below'.conditional c t f s) := by
  refine (hb.cond ks hc hs).bind fun branches hbranches => ?_
  refine (hb.expr ks ht hbranches.1).bind ?_
  intro ⟨v, s₁⟩ ⟨hv, hs₁⟩
  refine (hb.expr ks hf hbranches.2).bind ?_
  intro ⟨w, s₂⟩ ⟨hw, hs₂⟩
  exact inStep_pure ⟨hL.value.merge hv hw, hL.state.merge hs₁ hs₂⟩

theorem inStep_call {m : Option MethodId} {target : Option NodeId} {args : List NodeId}
    (hn : N'.expr n) (he : S.tree.expr n = .ok (.call m target args)) (hs : S.state s) :
    S.InStep ks S.Valued (below.call S.left n m target args s)
      (below'.call S.right n m target args s) := by
  have hchild : ∀ c ∈ target.toList ++ args, N.expr c := fun c hc => hL.down.child hn he hc
  have hreceiver : S.InStep ks S.Valued (below.receiver S.left n target s)
      (below'.receiver S.right n target s) := by
    cases target with
    | none => exact inStep_pure ⟨hL.value.object false, hs⟩
    | some target => exact inStep_deref hL hb (hchild target (by simp)) hs
  refine hreceiver.bind ?_
  intro ⟨object, s₁⟩ ⟨_, hs₁⟩
  refine (inStep_all hb (fun e he => hchild e (by simp [he])) hs₁).bind ?_
  intro ⟨values, s₂⟩ ⟨_, hs₂⟩
  dsimp only
  split
  · exact inStep_pure ⟨hL.value.empty, hs₂⟩
  · cases m with
    | none => exact inStep_pure ⟨hL.value.any, hs₂⟩
    | some m =>
      refine InStep.bind (Q := fun callee => S.tree.method m = .ok callee) ?_ fun callee hm => ?_
      · exact inStep_require (fun _ h => h) fun e h => hL.here.call_error hn he h
      · refine (inStep_checkArgs hL ?_).bind fun _ _ =>
          inStep_pure ⟨hL.value.initialValue _ _, hs₂⟩
        intro a ha e hdecl
        exact hL.here.param_error hn he hm (List.of_mem_zip ha).1 hdecl

theorem inStep_field {target : Option NodeId} {d : DeclId} (hn : N'.expr n)
    (he : S.tree.expr n = .ok (.field target d)) (hs : S.state s) :
    S.InStep ks S.Valued (below.field S.left n target d s)
      (below'.field S.right n target d s) := by
  have hd : S.decl d := hL.here.field hn he
  refine InStep.bind (Q := fun _ => True) ?_ fun decl _ => ?_
  · exact inStep_require (fun _ _ => trivial) fun e h => hL.here.decl_error hd h
  · simp only [left_tree, right_tree]
    split
    · rename_i object _
      refine (inStep_deref hL hb (hL.down.child hn he (by simp [Expr.children])) hs).bind ?_
      intro ⟨v, s₁⟩ ⟨_, hs₁⟩
      refine inStep_pure ⟨?_, hs₁⟩
      show S.value (if v.isEmpty then .empty else decl.initialValue)
      split
      · exact hL.value.empty
      · exact hL.value.initialValue _ _
    · refine (inStep_read hL hd hs).bind fun v hv => ?_
      exact inStep_pure ⟨hv, hs⟩

theorem inStep_index {a i : NodeId} (ha : N.expr a) (hi : N.expr i) (hs : S.state s) :
    S.InStep ks S.Valued (below.index S.left n a i s) (below'.index S.right n a i s) := by
  refine (inStep_deref hL hb ha hs).bind ?_
  intro ⟨v, s₁⟩ ⟨_, hs₁⟩
  refine (hb.expr ks hi hs₁).bind ?_
  intro ⟨w, s₂⟩ ⟨_, hs₂⟩
  refine inStep_pure ⟨?_, hs₂⟩
  show S.value (if v.isEmpty || w.isEmpty then .empty else S.left.elementValue a)
  split
  · exact hL.value.empty
  · unfold Context.elementValue
    split
    · exact hL.value.initialValue _ []
    · exact hL.value.any

theorem inStep_length {target : NodeId} (ht : N.expr target) (hs : S.state s) :
    S.InStep ks S.Valued (below.length S.left n target s) (below'.length S.right n target s) := by
  refine (inStep_deref hL hb ht hs).bind ?_
  intro ⟨v, s₁⟩ ⟨_, hs₁⟩
  refine inStep_pure ⟨?_, hs₁⟩
  show S.value (if v.isEmpty then .empty else .integer (v.length?.getD lengths))
  split
  · exact hL.value.empty
  · exact hL.value.integer _

theorem inStep_newArray {length : NodeId} (hl : N.expr length) (hs : S.state s) :
    S.InStep ks S.Valued (below.newArray length s) (below'.newArray length s) := by
  refine (hb.expr ks hl hs).bind ?_
  intro ⟨v, s₁⟩ ⟨_, hs₁⟩
  refine inStep_pure ⟨?_, hs₁⟩
  show S.value (if v.isEmpty then .empty else .arrayOf (v.range?.getD lengths) false)
  split
  · exact hL.value.empty
  · exact hL.value.arrayOf _

theorem inStep_instanceOf {operand : NodeId} (ho : N.expr operand) (hs : S.state s) :
    S.InStep ks S.Valued (below.instanceOf operand s) (below'.instanceOf operand s) := by
  refine (hb.expr ks ho hs).bind ?_
  intro ⟨v, s₁⟩ ⟨_, hs₁⟩
  refine inStep_pure ⟨?_, hs₁⟩
  show S.value (if v.isEmpty then .empty else if v.isNull then .bool false else .anyBool)
  split
  · exact hL.value.empty
  · split
    · exact hL.value.ofFlags _ _
    · exact hL.value.ofFlags _ _

theorem inStep_cast {ty : Ty} {operand : NodeId} (ho : N.expr operand) (hs : S.state s) :
    S.InStep ks S.Valued (below.cast S.left n ty operand s)
      (below'.cast S.right n ty operand s) := by
  refine (hb.expr ks ho hs).bind ?_
  intro ⟨v, s₁⟩ ⟨hv, hs₁⟩
  exact (inStep_modify (hL.session.unboxing n _)).bind fun _ _ =>
    inStep_pure ⟨hL.value.convert ty .wrap hv, hs₁⟩

theorem inStep_exprOf {e : Expr} (hn : N'.expr n) (he : S.tree.expr n = .ok e) (hs : S.state s) :
    S.InStep ks S.Valued (below.exprOf S.left n s e) (below'.exprOf S.right n s e) := by
  have hchild : ∀ c ∈ e.children, N.expr c := fun c hc => hL.down.child hn he hc
  cases e with
  | literal l => exact inStep_pure ⟨hL.here.literal hn he, hs⟩
  | name d =>
    exact (inStep_read hL (hL.here.name hn he) hs).bind fun v hv => inStep_pure ⟨hv, hs⟩
  | self => exact inStep_pure ⟨hL.value.object false, hs⟩
  | unary op operand => exact inStep_unary hL hb (hchild _ (by simp [Expr.children])) hs
  | arith op l r =>
    exact inStep_binary hL hb (Value.nullIsCertain_arith op) (fun a b => hL.value.arith op)
      (hchild _ (by simp [Expr.children])) (hchild _ (by simp [Expr.children])) hs
  | compare rel l r =>
    exact inStep_binary hL hb (Value.nullIsCertain_test rel)
      (fun a b _ _ => value_test hL rel a b) (hchild _ (by simp [Expr.children]))
      (hchild _ (by simp [Expr.children])) hs
  | and l r =>
    refine (inStep_shortCircuit hL hb true (hchild _ (by simp [Expr.children]))
      (hchild _ (by simp [Expr.children])) hs).bind fun branches h => ?_
    exact inStep_pure ⟨hL.value.ofFlags _ _, hL.state.merge h.1 h.2⟩
  | or l r =>
    refine (inStep_shortCircuit hL hb false (hchild _ (by simp [Expr.children]))
      (hchild _ (by simp [Expr.children])) hs).bind fun branches h => ?_
    exact inStep_pure ⟨hL.value.ofFlags _ _, hL.state.merge h.1 h.2⟩
  | assign op target value =>
    have ht : N.expr target := hchild _ (by simp [Expr.children])
    have hv : N.expr value := hchild _ (by simp [Expr.children])
    simp only [Evaluators.exprOf, Evaluators.assign, left_tree, right_tree]
    cases hd : S.tree.variableOf target with
    | some d => exact inStep_assignVariable hL hb (hL.below.variableOf ht hd) hv hs
    | none =>
      refine inStep_assignElsewhere hL hb ht ?_ hv hs
      intro e' he' c hc
      exact hL.down.grandchild hn he (by simp [Expr.children]) he' hc
  | conditional c t f =>
    exact inStep_conditional hL hb (hchild _ (by simp [Expr.children]))
      (hchild _ (by simp [Expr.children])) (hchild _ (by simp [Expr.children])) hs
  | call m target args => exact inStep_call hL hb hn he hs
  | field target d => exact inStep_field hL hb hn he hs
  | index a i =>
    exact inStep_index hL hb (hchild _ (by simp [Expr.children]))
      (hchild _ (by simp [Expr.children])) hs
  | length target => exact inStep_length hL hb (hchild _ (by simp [Expr.children])) hs
  | newArray elem length => exact inStep_newArray hL hb (hchild _ (by simp [Expr.children])) hs
  | newObject ty args =>
    refine (inStep_all hb hchild hs).bind ?_
    intro ⟨vs, s₁⟩ ⟨_, hs₁⟩
    exact inStep_pure ⟨hL.value.withNullable false (hL.value.initialValue ty []), hs₁⟩
  | instanceOf operand ty => exact inStep_instanceOf hL hb (hchild _ (by simp [Expr.children])) hs
  | cast ty operand => exact inStep_cast hL hb (hchild _ (by simp [Expr.children])) hs
  | unknown parts =>
    refine (inStep_all hb hchild hs).bind ?_
    intro ⟨vs, s₁⟩ ⟨_, hs₁⟩
    exact inStep_pure ⟨hL.value.any, hs₁⟩

theorem inStep_exprAt (hn : N'.expr n) (hs : S.state s) :
    S.InStep ks S.Valued (below.exprAt S.left n s) (below'.exprAt S.right n s) := by
  show S.InStep ks S.Valued (S.tree.visit n s _ _) (S.tree.visit n s _ _)
  exact inStep_visit ⟨hL.value.empty, hs⟩ (fun e he => hL.here.expr_error hn he) fun e he =>
    inStep_exprOf hL hb hn he hs

end Steps

end ValueFlow.Simulation

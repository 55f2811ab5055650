import ValueFlow.Proofs.Simulation.Expr

namespace ValueFlow

/-- A condition without a rule of its own is judged by its value. -/
def Evaluators.judged (below : Evaluators) (ctx : Context) (n : NodeId) (s : State) (e : Expr) :
    Walk Branches := do
  let a ← below.exprOf ctx n s e
  pure (Evaluators.truth ctx n a.1 a.2)

namespace Simulation

variable {S : Simulation} {N' N : Places} {below below' : Evaluators} {ks : List FrameKind}
  {n : NodeId} {s : State}

section Steps

variable (hL : S.Laws N' N) (hb : S.Related N below below')

include hL

theorem state_killUnless (hs : S.state s) (live : Bool) : S.state (s.killUnless live) := by
  unfold State.killUnless
  split
  · exact hs
  · exact hL.state.kill hs

theorem value_get (hs : S.state s) (d : DeclId) : S.value (s.get d) := by
  unfold State.get
  split
  · exact hL.value.empty
  · cases hd : s.lookup d with
    | none => exact hL.value.any
    | some v => exact hL.state.lookup hs hd

theorem state_narrowLength {d : DeclId} (hd : S.decl d) (hs : S.state s) (range : Interval) :
    S.state (s.narrowLength d range) := by
  unfold State.narrowLength
  split
  · dsimp only
    split
    · exact hL.state.kill hs
    · exact hL.state.set hs hd (hL.value.withLength _ (value_get hL hs d))
  · exact hs

theorem state_narrow {operand : NodeId} (hn : N.expr operand)
    (hparts : ∀ e, S.tree.expr operand = .ok e → ∀ c ∈ e.children, N.expr c)
    {v : Value} (hv : S.value v) (hs : S.state s) : S.state (S.left.narrow operand v s) := by
  unfold Context.narrow
  split
  · exact hs
  · split
    · exact hL.state.kill hs
    · split
      · rename_i hd
        exact hL.state.set hs (hL.below.variableOf hn hd) hv
      · rename_i target hd he
        split
        · rename_i ht _
          have htarget : N.expr target := hparts _ he target (by simp [Expr.children])
          exact state_narrowLength hL (hL.below.variableOf htarget ht) hs _
        · exact hs
      · exact hs

theorem state_assume {rel : Relation} {lhs rhs : NodeId} (hl : N.expr lhs) (hr : N.expr rhs)
    (hlparts : ∀ e, S.tree.expr lhs = .ok e → ∀ c ∈ e.children, N.expr c)
    (hrparts : ∀ e, S.tree.expr rhs = .ok e → ∀ c ∈ e.children, N.expr c)
    {l r : Value} (hlv : S.value l) (hrv : S.value r) (hs : S.state s) :
    S.state (S.left.assume rel lhs rhs l r s) := by
  unfold Context.assume
  apply state_narrow hL hr hrparts (hL.value.restrict _ hrv hlv)
  split
  · exact hs
  · exact state_narrow hL hl hlparts (hL.value.restrict _ hlv hrv) hs

theorem state_assumeBool (hn : N'.expr n) {v : Value} (hv : S.value v) (b : Bool)
    (hs : S.state s) : S.state (S.left.assumeBool n v b s) := by
  unfold Context.assumeBool
  split
  · rename_i d hd
    exact hL.state.set hs (hL.here.variableOf hn hd)
      (hL.value.restrict .eq hv (hL.value.ofFlags _ _))
  · exact hs

theorem split_truth (hn : N'.expr n) {v : Value} (hv : S.value v) (hs : S.state s) :
    S.Split (Evaluators.truth S.left n v s) := by
  unfold Evaluators.truth
  split
  · exact ⟨hL.state.dead, hL.state.dead⟩
  · exact ⟨state_killUnless hL (state_assumeBool hL hn hv true hs) _,
      state_killUnless hL (state_assumeBool hL hn hv false hs) _⟩

include hb

theorem inStep_comparison {rel : Relation} {l r : NodeId} (hn : N'.expr n)
    (he : S.tree.expr n = .ok (.compare rel l r)) (hs : S.state s) :
    S.InStep ks S.Split (below.comparison S.left n rel l r s)
      (below'.comparison S.right n rel l r s) := by
  have hl : N.expr l := hL.down.child hn he (by simp [Expr.children])
  have hr : N.expr r := hL.down.child hn he (by simp [Expr.children])
  have hlparts : ∀ e, S.tree.expr l = .ok e → ∀ c ∈ e.children, N.expr c := fun e h c hc =>
    hL.down.grandchild hn he (by simp [Expr.children]) h hc
  have hrparts : ∀ e, S.tree.expr r = .ok e → ∀ c ∈ e.children, N.expr c := fun e h c hc =>
    hL.down.grandchild hn he (by simp [Expr.children]) h hc
  refine (hb.expr ks hl hs).bind fun left hleft => ?_
  obtain ⟨a, s₁⟩ := left
  obtain ⟨ha, hs₁⟩ := hleft
  refine (hb.expr ks hr hs₁).bind fun right hright => ?_
  obtain ⟨b, s₂⟩ := right
  obtain ⟨hbv, hs₂⟩ := hright
  refine (inStep_settle hL (Value.nullIsCertain_test rel a b) (value_test hL rel a b)).bind
    fun result _ => ?_
  cases result.flags? with
  | none => exact inStep_pure ⟨hL.state.dead, hL.state.dead⟩
  | some flags =>
    exact inStep_pure
      ⟨state_killUnless hL (state_assume hL hl hr hlparts hrparts ha hbv hs₂) _,
        state_killUnless hL (state_assume hL hl hr hlparts hrparts ha hbv hs₂) _⟩

theorem inStep_judged {e : Expr} (hn : N'.expr n) (he : S.tree.expr n = .ok e) (hs : S.state s) :
    S.InStep ks S.Split (below.judged S.left n s e) (below'.judged S.right n s e) := by
  refine (inStep_exprOf hL hb hn he hs).bind ?_
  intro ⟨v, s₁⟩ ⟨hv, hs₁⟩
  exact inStep_pure (split_truth hL hn hv hs₁)

theorem inStep_condOf {e : Expr} (hn : N'.expr n) (he : S.tree.expr n = .ok e) (hs : S.state s) :
    S.InStep ks S.Split (below.condOf S.left n s e) (below'.condOf S.right n s e) := by
  have hchild : ∀ c ∈ e.children, N.expr c := fun c hc => hL.down.child hn he hc
  unfold Evaluators.condOf
  split
  · exact inStep_comparison hL hb hn he hs
  · exact inStep_shortCircuit hL hb true (hchild _ (by simp [Expr.children]))
      (hchild _ (by simp [Expr.children])) hs
  · exact inStep_shortCircuit hL hb false (hchild _ (by simp [Expr.children]))
      (hchild _ (by simp [Expr.children])) hs
  · refine (hb.cond ks (hchild _ (by simp [Expr.children])) hs).bind fun branches h => ?_
    exact inStep_pure ⟨h.2, h.1⟩
  · exact inStep_judged hL hb hn he hs

theorem inStep_condAt (hn : N'.expr n) (hs : S.state s) :
    S.InStep ks S.Split (below.condAt S.left n s) (below'.condAt S.right n s) := by
  show S.InStep ks S.Split (S.tree.visit n s _ _) (S.tree.visit n s _ _)
  exact inStep_visit ⟨hL.state.dead, hL.state.dead⟩ (fun e he => hL.here.expr_error hn he)
    fun e he => inStep_condOf hL hb hn he hs

theorem inStep_seq {ns : List NodeId} (hns : ∀ m ∈ ns, N.stmt ks m) (hs : S.state s) :
    S.InStep ks S.state (below.seq S.left ns s) (below'.seq S.right ns s) := by
  induction ns generalizing s with
  | nil => exact inStep_pure hs
  | cons m rest ih =>
    have hrest : ∀ m ∈ rest, N.stmt ks m := fun m hm => hns m (List.mem_cons_of_mem _ hm)
    simp only [Evaluators.seq, left_tree, right_tree]
    split
    · refine InStep.bind (Q := fun _ => True) ?_ fun stmt _ => ?_
      · exact inStep_require (fun _ _ => trivial) fun e h => hL.below.stmt_error (hns m (by simp)) h
      · split
        · exact ih hrest hs
        · exact (inStep_modify (hL.session.dead m stmt)).bind fun _ _ => inStep_pure hs
    · exact (hb.stmt (hns m (by simp)) hs).bind fun s₁ hs₁ => ih hrest hs₁

theorem inStep_declare {d : DeclId} {init : Option NodeId} (hn : N'.stmt ks n)
    (hst : S.tree.stmt n = .ok (.declare d init)) (hs : S.state s) :
    S.InStep ks S.state (below.declare S.left d init s) (below'.declare S.right d init s) := by
  have hd : S.decl d := hL.here.declare hn hst
  refine InStep.bind (Q := fun _ => True) ?_ fun decl _ => ?_
  · exact inStep_require (fun _ _ => trivial) fun e h => hL.here.decl_error hd h
  · cases init with
    | none => exact inStep_pure (hL.state.set hs hd (hL.value.initialValue _ []))
    | some e =>
      refine (hb.expr ks (hL.down.part hn hst (by simp [Stmt.exprs])) hs).bind ?_
      intro ⟨v, s₁⟩ ⟨hv, hs₁⟩
      refine (inStep_convert hL decl.ty hv).bind fun w hw => ?_
      exact inStep_pure (hL.state.set hs₁ hd hw)

theorem inStep_branch {c t : NodeId} {f : Option NodeId} (hn : N'.stmt ks n)
    (hst : S.tree.stmt n = .ok (.branch c t f)) (hs : S.state s) :
    S.InStep ks S.state (below.branch c t f s) (below'.branch c t f s) := by
  refine (hb.cond ks (hL.down.part hn hst (by simp [Stmt.exprs])) hs).bind fun branches h => ?_
  refine (hb.stmt (hL.down.inner hn hst (by simp [Stmt.plain])) h.1).bind fun out hout => ?_
  cases f with
  | none => exact inStep_pure (hL.state.merge hout h.2)
  | some f =>
    refine (hb.stmt (hL.down.inner hn hst (by simp [Stmt.plain])) h.2).bind fun other hother => ?_
    exact inStep_pure (hL.state.merge hout hother)

theorem inStep_ret {value : Option NodeId} (hn : N'.stmt ks n)
    (hst : S.tree.stmt n = .ok (.ret value)) (hs : S.state s) :
    S.InStep ks S.state (below.ret S.left n value s) (below'.ret S.right n value s) := by
  have hreturn : ∀ {s}, S.state s → S.InStep ks S.state
      (do Walk.returning s; pure .dead) (do Walk.returning s; pure .dead) := fun hs =>
    (inStep_modify (hL.session.returning hs)).bind fun _ _ => inStep_pure hL.state.dead
  cases value with
  | none => exact hreturn hs
  | some e =>
    refine (hb.expr ks (hL.down.part hn hst (by simp [Stmt.exprs])) hs).bind ?_
    intro ⟨v, s₁⟩ ⟨hv, hs₁⟩
    have hchecked : ∀ w : Value, S.InStep ks S.state
        (do Walk.report n (w.contractFindings S.returnContracts "returned value")
            Walk.returning s₁; pure .dead)
        (do Walk.report n (w.contractFindings S.returnContracts "returned value")
            Walk.returning s₁; pure .dead) := fun w =>
      (inStep_report hL.session n (w.isOptional_contractFindings _ _)).bind fun _ _ => hreturn hs₁
    simp only [left_returnType, right_returnType]
    cases S.returnType with
    | none => exact (inStep_pure hv).bind fun w _ => hchecked w
    | some ty => exact (inStep_convert hL ty hv).bind fun w _ => hchecked w

theorem inStep_whilePass {c b : NodeId} {head : State} (hc : N.expr c)
    (hbody : N.stmt (.loop :: ks) b) (hs : S.state head) :
    S.InStep ks S.Passed (below.whilePass c b head) (below'.whilePass c b head) := by
  refine (hb.cond ks hc hs).bind fun branches h => ?_
  refine (inStep_framed hL.session (hb.stmt hbody h.1)).bind ?_
  intro ⟨out, frame⟩ ⟨hout, hbreaks, hcontinues⟩
  exact inStep_pure ⟨hL.state.merge hout hcontinues, hL.state.merge h.2 hbreaks⟩

theorem inStep_doPass {c b : NodeId} {head : State} (hc : N.expr c) (hbody : N.stmt (.loop :: ks) b)
    (hs : S.state head) :
    S.InStep ks S.Passed (below.doPass b c head) (below'.doPass b c head) := by
  refine (inStep_framed hL.session (hb.stmt hbody hs)).bind ?_
  intro ⟨out, frame⟩ ⟨hout, hbreaks, hcontinues⟩
  refine (hb.cond ks hc (hL.state.merge hout hcontinues)).bind fun branches h => ?_
  exact inStep_pure ⟨h.1, hL.state.merge h.2 hbreaks⟩

theorem inStep_forPass {c : Option NodeId} {update : List NodeId} {b : NodeId} {head : State}
    (hc : ∀ m ∈ c.toList ++ update, N.expr m) (hbody : N.stmt (.loop :: ks) b)
    (hs : S.state head) :
    S.InStep ks S.Passed (below.forPass c update b head) (below'.forPass c update b head) := by
  refine InStep.bind (Q := S.Split) ?_ fun branches h => ?_
  · cases c with
    | none => exact inStep_pure ⟨hs, hL.state.dead⟩
    | some c => exact hb.cond ks (hc c (by simp)) hs
  · refine (inStep_framed hL.session (hb.stmt hbody h.1)).bind ?_
    intro ⟨out, frame⟩ ⟨hout, hbreaks, hcontinues⟩
    refine (inStep_all hb (fun e he => hc e (by simp [he]))
      (hL.state.merge hout hcontinues)).bind ?_
    intro ⟨vs, back⟩ ⟨_, hback⟩
    exact inStep_pure ⟨hback, hL.state.merge h.2 hbreaks⟩

theorem inStep_forLoop {init update : List NodeId} {c : Option NodeId} {b : NodeId}
    (hn : N'.stmt ks n) (hst : S.tree.stmt n = .ok (.forLoop init c update b)) (hs : S.state s) :
    S.InStep ks S.state (below.forLoop S.left n init c update b s)
      (below'.forLoop S.right n init c update b s) := by
  have hinit : ∀ m ∈ init, N.stmt ks m := fun m hm => hL.down.inner hn hst hm
  refine (inStep_seq hL hb hinit hs).bind fun entry hentry => ?_
  split
  · exact inStep_pure hentry
  · rename_i hlive
    refine hL.loop ks n _ _ entry (fun head hhead _ => ?_) hentry (by simpa using hlive)
    exact inStep_forPass hL hb (fun m hm => hL.down.part hn hst hm)
      (hL.down.body hn hst (by simp [Stmt.framed])) hhead

omit hb in
theorem state_select {var? : Option DeclId} (hvar : ∀ d, var? = some d → S.decl d) {v : Value}
    (hv : S.value v) (hs : S.state s) : S.state (s.select var? v) := by
  unfold State.select
  split
  · exact hL.state.kill hs
  · split
    · exact hL.state.set hs (hvar _ rfl) hv
    · exact hs

omit hb in
theorem state_entry {sel : Selector} {c : Case} {fallthrough : State}
    (hvar : ∀ d, sel.var? = some d → S.decl d) (hv : S.value sel.value) (hs : S.state sel.state)
    (hlabels : ∀ l ∈ c.labels, S.value l.value) (hf : S.state fallthrough) :
    S.state (sel.entry c fallthrough) := by
  have hstart : S.state (if c.isDefault then fallthrough.merge sel.state else fallthrough) := by
    split
    · exact hL.state.merge hf hs
    · exact hf
  unfold Selector.entry
  generalize (if c.isDefault then fallthrough.merge sel.state else fallthrough) = start at hstart ⊢
  generalize c.labels = labels at hlabels ⊢
  induction labels generalizing start with
  | nil => exact hstart
  | cons l rest ih =>
    refine ih _ ?_ fun l hl => hlabels l (List.mem_cons_of_mem _ hl)
    exact hL.state.merge hstart
      (state_select hL hvar (hL.value.restrict .eq hv (hlabels l (by simp))) hs)

omit hb in
theorem value_unmatched {v : Value} (hv : S.value v) {labels : List Literal}
    (hlabels : ∀ l ∈ labels, S.value l.value) :
    S.value (labels.foldl (fun v label => v.restrictNotEqual label.value) v) := by
  induction labels generalizing v with
  | nil => exact hv
  | cons l rest ih =>
    exact ih (hL.value.restrict .ne hv (hlabels l (by simp)))
      fun l hl => hlabels l (List.mem_cons_of_mem _ hl)

theorem inStep_cases {sel : Selector} {cs : List Case} {fallthrough : State}
    (hvar : ∀ d, sel.var? = some d → S.decl d) (hv : S.value sel.value) (hs : S.state sel.state)
    (hlabels : ∀ c ∈ cs, ∀ l ∈ c.labels, S.value l.value)
    (hbody : ∀ c ∈ cs, ∀ m ∈ c.body, N.stmt ks m) (hf : S.state fallthrough) :
    S.InStep ks S.state (below.cases S.left sel cs fallthrough)
      (below'.cases S.right sel cs fallthrough) := by
  induction cs generalizing fallthrough with
  | nil => exact inStep_pure hf
  | cons c rest ih =>
    have hentry := state_entry hL hvar hv hs (hlabels c (by simp)) hf
    refine (inStep_seq hL hb (hbody c (by simp)) hentry).bind fun out hout => ?_
    exact ih (fun c hc => hlabels c (List.mem_cons_of_mem _ hc))
      (fun c hc => hbody c (List.mem_cons_of_mem _ hc)) hout

theorem inStep_switch {selector : NodeId} {cs : List Case} (hn : N'.stmt ks n)
    (hst : S.tree.stmt n = .ok (.switch selector cs)) (hs : S.state s) :
    S.InStep ks S.state (below.switch S.left n selector cs s)
      (below'.switch S.right n selector cs s) := by
  have hsel : N.expr selector := hL.down.part hn hst (by simp [Stmt.exprs])
  have hlabels : ∀ c ∈ cs, ∀ l ∈ c.labels, S.value l.value := fun c hc l hl =>
    hL.here.label hn hst hc hl
  have hbody : ∀ c ∈ cs, ∀ m ∈ c.body, N.stmt (.switch :: ks) m := fun c hc m hm =>
    hL.down.body hn hst (by simp [Stmt.framed]; exact ⟨c, hc, hm⟩)
  have hvar : ∀ d, S.tree.variableOf selector = some d → S.decl d := fun d hd =>
    hL.below.variableOf hsel hd
  refine (inStep_deref hL hb hsel hs).bind ?_
  intro ⟨v, s₁⟩ ⟨hv, hs₁⟩
  dsimp only
  split
  · exact inStep_pure hL.state.dead
  · refine (inStep_framed hL.session
      (inStep_cases hL hb hvar hv hs₁ hlabels hbody hL.state.dead)).bind ?_
    intro ⟨fallthrough, frame⟩ ⟨hf, hbreaks, _⟩
    refine inStep_pure ?_
    have hexit := hL.state.merge hf hbreaks
    dsimp only
    split
    · exact hexit
    · refine hL.state.merge hexit (state_select hL hvar (value_unmatched hL hv ?_) hs₁)
      intro l hl
      obtain ⟨c, hc, hl⟩ := List.mem_flatMap.1 hl
      exact hlabels c hc l hl

theorem inStep_stmtOf {st : Stmt} (hn : N'.stmt ks n) (hst : S.tree.stmt n = .ok st)
    (hs : S.state s) (hlive : s.unreachable = false) :
    S.InStep ks S.state (below.stmtOf S.left n s st) (below'.stmtOf S.right n s st) := by
  cases st with
  | block body => exact inStep_seq hL hb (fun m hm => hL.down.inner hn hst hm) hs
  | declare d init => exact inStep_declare hL hb hn hst hs
  | expr e =>
    refine (hb.expr ks (hL.down.part hn hst (by simp [Stmt.exprs])) hs).bind ?_
    intro ⟨v, s₁⟩ ⟨_, hs₁⟩
    exact inStep_pure hs₁
  | branch c t f => exact inStep_branch hL hb hn hst hs
  | whileLoop c b =>
    refine hL.loop ks n _ _ s (fun head hhead _ => ?_) hs hlive
    exact inStep_whilePass hL hb (hL.down.part hn hst (by simp [Stmt.exprs]))
      (hL.down.body hn hst (by simp [Stmt.framed])) hhead
  | doLoop b c =>
    refine hL.loop ks n _ _ s (fun head hhead _ => ?_) hs hlive
    exact inStep_doPass hL hb (hL.down.part hn hst (by simp [Stmt.exprs]))
      (hL.down.body hn hst (by simp [Stmt.framed])) hhead
  | forLoop init c update b => exact inStep_forLoop hL hb hn hst hs
  | switch selector cs => exact inStep_switch hL hb hn hst hs
  | ret value => exact inStep_ret hL hb hn hst hs
  | throw value =>
    refine (inStep_deref hL hb (hL.down.part hn hst (by simp [Stmt.exprs])) hs).bind fun _ _ => ?_
    exact inStep_pure hL.state.dead
  | breakOut => exact inStep_jump hL.state.dead (hL.here.breakOut hn hst hs)
  | continueLoop => exact inStep_jump hL.state.dead (hL.here.continueLoop hn hst hs)
  | skip => exact inStep_pure hs

theorem inStep_stmtAt (hn : N'.stmt ks n) (hs : S.state s) :
    S.InStep ks S.state (below.stmtAt S.left n s) (below'.stmtAt S.right n s) := by
  refine InStep.bind (Q := fun st => S.tree.stmt n = .ok st) ?_ fun st hst => ?_
  · exact inStep_require (fun _ h => h) fun e h => hL.here.stmt_error hn h
  · split
    · exact (inStep_modify (hL.session.dead n st)).bind fun _ _ => inStep_pure hs
    · rename_i hlive
      refine (inStep_modify (hL.session.entered n hs)).bind fun _ _ => ?_
      refine (inStep_stmtOf hL hb hn hst hs (by simpa using hlive)).bind fun out hout => ?_
      exact (inStep_modify (hL.session.left n hout)).bind fun _ _ => inStep_pure hout

end Steps

theorem related_succ {depth : Nat} (hL : S.Laws N' N)
    (hb : S.Related N (S.left.evaluators depth) (S.right.evaluators depth)) :
    S.Related N' (S.left.evaluators (depth + 1)) (S.right.evaluators (depth + 1)) where
  expr _ hn hs := inStep_exprAt hL hb hn hs
  cond _ hn hs := inStep_condAt hL hb hn hs
  stmt hn hs := inStep_stmtAt hL hb hn hs

/-- Walks of any depth stay in step. -/
theorem related_evaluators (hL : S.Laws N N) (hexhausted : S.halt .exhausted) (depth : Nat) :
    S.Related N (S.left.evaluators depth) (S.right.evaluators depth) := by
  induction depth with
  | zero => exact ⟨fun _ _ _ => inStep_throw hexhausted, fun _ _ _ => inStep_throw hexhausted,
      fun _ _ => inStep_throw hexhausted⟩
  | succ depth ih => exact related_succ hL ih

end Simulation

end ValueFlow

import ValueFlow.Proofs.Trace

namespace ValueFlow

section Findings

variable (ctx : Context) {f : Finding}

theorem Outcome.kind_findings (o : Outcome) (h : f ∈ o.findings) : f.kind ≠ .unreachableCode := by
  obtain ⟨fault, -, rfl⟩ := List.mem_map.1 h
  cases hkind : fault.kind <;> simp [Fault.finding, Fault.kindOf, hkind]

theorem Value.kind_contractFindings {v : Value} {contracts : List Contract} {subject : String}
    (h : f ∈ v.contractFindings contracts subject) : f.kind ≠ .unreachableCode := by
  obtain ⟨violation, -, rfl⟩ := List.mem_map.1 h
  simp [Violation.finding]

theorem Context.kind_unboxingFindings {o : Outcome} (h : f ∈ ctx.unboxingFindings o) :
    f.kind ≠ .unreachableCode := by
  obtain ⟨fault, -, rfl⟩ := List.mem_map.1 h
  simp [Fault.unboxing]

theorem Context.kind_derefFindings {target : NodeId} {v : Value}
    (h : f ∈ ctx.derefFindings target v) : f.kind ≠ .unreachableCode := by
  unfold Context.derefFindings at h
  split at h
  · rw [List.mem_singleton.1 h]
    simp
  · split at h
    · rw [List.mem_singleton.1 h]
      simp
    · cases h

end Findings

/-- The parts of the expressions of `own` belong to it as well. -/
def Tree.HoldsParts (t : Tree) (own : Set NodeId) : Prop :=
  ∀ n ∈ own, ∀ e, t.expr n = .ok e → ∀ c ∈ e.children, c ∈ own

/-- Evaluators that are quiet about all but the expressions of `own`. -/
structure Evaluators.Quiet (below : Evaluators) (t : Tree) (own : Set NodeId) : Prop where
  expr {n : NodeId} (s : State) : n ∈ own → (below.expr n s).Orderly t own []
  cond {n : NodeId} (s : State) : n ∈ own → (below.cond n s).Orderly t own []

namespace Trace

open Walk

variable {t : Tree} {ctx : Context} {below : Evaluators} {own : Set NodeId} {n : NodeId} {s : State}

section Reports

variable (hn : n ∈ own)

include hn

theorem orderly_settle (o : Outcome) : (o.settle n).Orderly t own [] :=
  (orderly_report hn fun _ => o.kind_findings).andThen fun _ => orderly_pure _

theorem orderly_convert (ty : Ty) (v : Value) : (ctx.convert n ty v).Orderly t own [] :=
  (orderly_report hn fun _ => ctx.kind_unboxingFindings).andThen fun _ => orderly_pure _

theorem orderly_store (d : DeclId) (v : Value) (s : State) :
    (ctx.store n d v s).Orderly t own [] := by
  refine (orderly_require _).andThen fun decl => ?_
  exact (orderly_convert hn decl.ty v).andThen fun _ => orderly_pure _

theorem orderly_checkArgs (callee : String) (args : List (DeclId × Value)) :
    (ctx.checkArgs n callee args).Orderly t own [] := by
  induction args with
  | nil => exact orderly_pure _
  | cons a rest ih =>
    obtain ⟨param, v⟩ := a
    refine (orderly_require _).andThen fun decl => ?_
    exact (orderly_report hn fun _ => Value.kind_contractFindings).andThen fun _ => ih

end Reports

section Parts

variable (hb : below.Quiet t own)

include hb

theorem orderly_all {es : List NodeId} (hes : ∀ e ∈ es, e ∈ own) (s : State) :
    (below.all es s).Orderly t own [] := by
  induction es generalizing s with
  | nil => exact orderly_pure _
  | cons e rest ih =>
    refine (hb.expr s (hes e (by simp))).andThen fun ⟨v, s⟩ => ?_
    refine (ih (fun e he => hes e (List.mem_cons_of_mem _ he)) s).andThen fun ⟨vs, s⟩ => ?_
    exact orderly_pure _

theorem orderly_deref {target : NodeId} (hn : n ∈ own) (htarget : target ∈ own) (s : State) :
    (below.deref ctx n target s).Orderly t own [] := by
  refine (hb.expr s htarget).andThen fun ⟨v, s⟩ => ?_
  exact (orderly_report hn fun _ => ctx.kind_derefFindings).andThen fun _ => orderly_pure _

theorem orderly_increment {op : Unary} {operand : NodeId} (hn : n ∈ own) (he : operand ∈ own) :
    (below.increment ctx n op operand s).Orderly t own [] := by
  unfold Evaluators.increment
  split
  · exact (hb.expr s he).andThen fun ⟨_, s⟩ => orderly_pure _
  · rename_i d _
    refine (orderly_require _).andThen fun current => ?_
    refine (orderly_settle hn _).andThen fun result => ?_
    exact (orderly_store hn d result s).andThen fun ⟨stored, s⟩ => orderly_pure _

theorem orderly_unary {op : Unary} {operand : NodeId} (hn : n ∈ own) (he : operand ∈ own) :
    (below.unary ctx n op operand s).Orderly t own [] := by
  unfold Evaluators.unary
  split
  · exact orderly_increment hb hn he
  · refine (hb.expr s he).andThen fun ⟨v, s⟩ => ?_
    exact (orderly_settle hn _).andThen fun _ => orderly_pure _

theorem orderly_binary {op : Value → Value → Outcome} {l r : NodeId} (hn : n ∈ own) (hl : l ∈ own)
    (hr : r ∈ own) : (below.binary n op l r s).Orderly t own [] := by
  refine (hb.expr s hl).andThen fun ⟨v, s⟩ => ?_
  refine (hb.expr s hr).andThen fun ⟨w, s⟩ => ?_
  exact (orderly_settle hn _).andThen fun _ => orderly_pure _

theorem orderly_shortCircuit {l r : NodeId} (c : Bool) (hl : l ∈ own) (hr : r ∈ own) :
    (below.shortCircuit ctx c l r s).Orderly t own [] := by
  refine (hb.cond s hl).andThen fun left => ?_
  exact (hb.cond (left.on c) hr).andThen fun _ => orderly_pure _

theorem orderly_assignVariable {op : Option Arith} {d : DeclId} {value : NodeId} (hn : n ∈ own)
    (hvalue : value ∈ own) : (below.assignVariable ctx n op d value s).Orderly t own [] := by
  unfold Evaluators.assignVariable
  cases op with
  | none => exact (hb.expr s hvalue).andThen fun ⟨v, s⟩ => orderly_store hn d v s
  | some op =>
    refine (orderly_require _).andThen fun current => ?_
    refine (hb.expr s hvalue).andThen fun ⟨v, s⟩ => ?_
    exact (orderly_settle hn _).andThen fun result => orderly_store hn d result s

theorem orderly_target (hparts : ctx.tree.HoldsParts own) (hn : n ∈ own) :
    (below.target ctx n s).Orderly t own [] := by
  refine orderly_required fun e he => ?_
  have hchild := hparts n hn e he
  split
  · refine (orderly_deref hb hn (hchild _ (by simp [Expr.children])) s).andThen fun ⟨_, s⟩ => ?_
    exact (hb.expr s (hchild _ (by simp [Expr.children]))).andThen fun ⟨_, s⟩ => orderly_pure _
  · exact (orderly_deref hb hn (hchild _ (by simp [Expr.children])) s).andThen fun ⟨_, s⟩ =>
      orderly_pure _
  · exact (hb.expr s hn).andThen fun ⟨_, s⟩ => orderly_pure _

theorem orderly_assignElsewhere (hparts : ctx.tree.HoldsParts own) {op : Option Arith}
    {target value : NodeId} (hn : n ∈ own) (htarget : target ∈ own) (hvalue : value ∈ own) :
    (below.assignElsewhere ctx n op target value s).Orderly t own [] := by
  refine (orderly_target hb hparts htarget).andThen fun s => ?_
  refine (hb.expr s hvalue).andThen fun ⟨v, s⟩ => ?_
  cases op with
  | none => exact orderly_pure _
  | some op =>
    dsimp only
    split
    · exact (orderly_report hn fun _ => Outcome.kind_findings _).andThen fun _ => orderly_pure _
    · exact orderly_pure _

theorem orderly_assign (hparts : ctx.tree.HoldsParts own) {op : Option Arith}
    {target value : NodeId} (hn : n ∈ own) (htarget : target ∈ own) (hvalue : value ∈ own) :
    (below.assign ctx n op target value s).Orderly t own [] := by
  unfold Evaluators.assign
  split
  · exact orderly_assignVariable hb hn hvalue
  · exact orderly_assignElsewhere hb hparts hn htarget hvalue

theorem orderly_conditional {c l r : NodeId} (hc : c ∈ own) (hl : l ∈ own) (hr : r ∈ own) :
    (below.conditional c l r s).Orderly t own [] := by
  refine (hb.cond s hc).andThen fun branches => ?_
  refine (hb.expr branches.whenTrue hl).andThen fun ⟨v, left⟩ => ?_
  exact (hb.expr branches.whenFalse hr).andThen fun ⟨w, right⟩ => orderly_pure _

theorem orderly_receiver {target : Option NodeId} (hn : n ∈ own)
    (htarget : ∀ e ∈ target, e ∈ own) : (below.receiver ctx n target s).Orderly t own [] := by
  cases target with
  | none => exact orderly_pure _
  | some e => exact orderly_deref hb hn (htarget e rfl) s

theorem orderly_call {method : Option MethodId} {target : Option NodeId} {args : List NodeId}
    (hn : n ∈ own) (htarget : ∀ e ∈ target, e ∈ own) (hargs : ∀ e ∈ args, e ∈ own) :
    (below.call ctx n method target args s).Orderly t own [] := by
  refine (orderly_receiver hb hn htarget).andThen fun ⟨object, s⟩ => ?_
  refine (orderly_all hb hargs s).andThen fun ⟨values, s⟩ => ?_
  dsimp only
  split
  · exact orderly_pure _
  · cases method with
    | none => exact orderly_pure _
    | some m =>
      refine (orderly_require _).andThen fun callee => ?_
      exact (orderly_checkArgs hn _ _).andThen fun _ => orderly_pure _

theorem orderly_field {target : Option NodeId} {d : DeclId} (hn : n ∈ own)
    (htarget : ∀ e ∈ target, e ∈ own) : (below.field ctx n target d s).Orderly t own [] := by
  refine (orderly_require _).andThen fun decl => ?_
  split
  · rename_i object _
    exact (orderly_deref hb hn (htarget object rfl) s).andThen fun ⟨v, s⟩ => orderly_pure _
  · exact (orderly_require _).andThen fun v => orderly_pure _

theorem orderly_index {a i : NodeId} (hn : n ∈ own) (ha : a ∈ own) (hi : i ∈ own) :
    (below.index ctx n a i s).Orderly t own [] := by
  refine (orderly_deref hb hn ha s).andThen fun ⟨a, s⟩ => ?_
  exact (hb.expr s hi).andThen fun ⟨i, s⟩ => orderly_pure _

theorem orderly_cast {ty : Ty} {e : NodeId} (hn : n ∈ own) (he : e ∈ own) :
    (below.cast ctx n ty e s).Orderly t own [] := by
  refine (hb.expr s he).andThen fun ⟨v, s⟩ => ?_
  exact (orderly_report hn fun _ => ctx.kind_unboxingFindings).andThen fun _ => orderly_pure _

theorem orderly_exprOf (hparts : ctx.tree.HoldsParts own) (hn : n ∈ own) {e : Expr}
    (hchild : ∀ c ∈ e.children, c ∈ own) : (below.exprOf ctx n s e).Orderly t own [] := by
  cases e with
  | literal l => exact orderly_pure _
  | name d => exact (orderly_require _).andThen fun v => orderly_pure _
  | self => exact orderly_pure _
  | unary op e => exact orderly_unary hb hn (hchild e (by simp [Expr.children]))
  | arith op l r | compare op l r =>
    exact orderly_binary hb hn (hchild l (by simp [Expr.children]))
      (hchild r (by simp [Expr.children]))
  | and l r =>
    exact (orderly_shortCircuit hb true (hchild l (by simp [Expr.children]))
      (hchild r (by simp [Expr.children]))).andThen fun _ => orderly_pure _
  | or l r =>
    exact (orderly_shortCircuit hb false (hchild l (by simp [Expr.children]))
      (hchild r (by simp [Expr.children]))).andThen fun _ => orderly_pure _
  | assign op target value =>
    exact orderly_assign hb hparts hn (hchild target (by simp [Expr.children]))
      (hchild value (by simp [Expr.children]))
  | conditional c l r =>
    exact orderly_conditional hb (hchild c (by simp [Expr.children]))
      (hchild l (by simp [Expr.children])) (hchild r (by simp [Expr.children]))
  | call method receiver args =>
    refine orderly_call hb hn (fun e he => hchild e ?_) fun e he => hchild e ?_
    · exact List.mem_append_left _ (Option.mem_toList.2 he)
    · exact List.mem_append_right _ he
  | field target d =>
    exact orderly_field hb hn fun e he => hchild e (Option.mem_toList.2 he)
  | index a i =>
    exact orderly_index hb hn (hchild a (by simp [Expr.children]))
      (hchild i (by simp [Expr.children]))
  | length e =>
    exact (orderly_deref hb hn (hchild e (by simp [Expr.children])) s).andThen fun _ =>
      orderly_pure _
  | newArray elem e | instanceOf e ty =>
    exact (hb.expr s (hchild e (by simp [Expr.children]))).andThen fun _ => orderly_pure _
  | newObject ty es | unknown es =>
    exact (orderly_all hb hchild s).andThen fun _ => orderly_pure _
  | cast ty e => exact orderly_cast hb hn (hchild e (by simp [Expr.children]))

theorem orderly_comparison {rel : Relation} {l r : NodeId} (hn : n ∈ own) (hl : l ∈ own)
    (hr : r ∈ own) : (below.comparison ctx n rel l r s).Orderly t own [] := by
  refine (hb.expr s hl).andThen fun ⟨v, s⟩ => ?_
  refine (hb.expr s hr).andThen fun ⟨w, s⟩ => ?_
  refine (orderly_settle hn _).andThen fun result => ?_
  split <;> exact orderly_pure _

theorem orderly_condOf (hparts : ctx.tree.HoldsParts own) (hn : n ∈ own) {e : Expr}
    (hchild : ∀ c ∈ e.children, c ∈ own) : (below.condOf ctx n s e).Orderly t own [] := by
  unfold Evaluators.condOf
  split
  · exact orderly_comparison hb hn (hchild _ (by simp [Expr.children]))
      (hchild _ (by simp [Expr.children]))
  · exact orderly_shortCircuit hb true (hchild _ (by simp [Expr.children]))
      (hchild _ (by simp [Expr.children]))
  · exact orderly_shortCircuit hb false (hchild _ (by simp [Expr.children]))
      (hchild _ (by simp [Expr.children]))
  · exact (hb.cond s (hchild _ (by simp [Expr.children]))).andThen fun _ => orderly_pure _
  · exact (orderly_exprOf hb hparts hn hchild).andThen fun _ => orderly_pure _

end Parts

theorem quiet_evaluators (t : Tree) (hparts : ctx.tree.HoldsParts own) (depth : Nat) :
    (ctx.evaluators depth).Quiet t own := by
  induction depth with
  | zero => exact ⟨fun _ _ => orderly_throw _, fun _ _ => orderly_throw _⟩
  | succ depth ih =>
    exact ⟨fun s hn => orderly_visit fun e he => orderly_exprOf ih hparts hn (hparts _ hn e he),
      fun s hn => orderly_visit fun e he => orderly_condOf ih hparts hn (hparts _ hn e he)⟩

end Trace

end ValueFlow

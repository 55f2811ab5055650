import ValueFlow.Analysis.Expr

namespace ValueFlow

/-- Remarks on dead code and on null dereferences that are only possible. -/
def Finding.isOptional (f : Finding) : Bool :=
  match f.kind with
  | .unreachableCode => true
  | .nullDereference => !f.definite
  | _ => false

namespace Outcome

/-- A null operand is a fault of every choice of operands. -/
def NullIsCertain (o : Outcome) : Prop :=
  ∀ f, o.fault = some f → f.kind = .nullDereference → f.definite = true

variable {o : Outcome}

theorem nullIsCertain_ok (v : Value) : (Outcome.ok v).NullIsCertain := fun _ h => by cases h

theorem nullIsCertain_nullOperand : nullOperand.NullIsCertain := by
  intro f h _
  cases h
  rfl

theorem NullIsCertain.map (h : o.NullIsCertain) (g : Value → Value) : (o.map g).NullIsCertain := h

theorem isOptional_findings (h : o.NullIsCertain) : ∀ f ∈ o.findings, f.isOptional = false := by
  intro f hf
  obtain ⟨fault, hfault, rfl⟩ := List.mem_map.1 hf
  obtain ⟨kind, definite⟩ := fault
  cases kind with
  | nullDereference =>
    have hdefinite : definite = true := h _ (Option.mem_toList.1 hfault) rfl
    rw [hdefinite]
    rfl
  | divisionByZero => rfl

end Outcome

theorem Value.isOptional_contractFindings (v : Value) (contracts : List Contract)
    (subject : String) : ∀ f ∈ v.contractFindings contracts subject, f.isOptional = false := by
  intro f hf
  obtain ⟨violation, -, rfl⟩ := List.mem_map.1 hf
  rfl

namespace Value

open Outcome

theorem nullIsCertain_arithUnboxed (op : Arith) (a b : Value) :
    (arithUnboxed op a b).NullIsCertain := by
  have hquotient : ∀ (j : Interval) (o : Option Interval), (quotient j o).NullIsCertain := by
    intro j o f hf hkind
    cases o with
    | none => cases hf; cases hkind
    | some i => cases hf
  unfold arithUnboxed
  split
  · cases op with
    | div | rem => exact hquotient _ _
    | _ => exact nullIsCertain_ok _
  · exact nullIsCertain_ok _

theorem nullIsCertain_getD {op : Arith} {a b : Value} {o : Outcome} (h : o.NullIsCertain) :
    ((arithBoxed op a b).getD o).NullIsCertain := by
  unfold arithBoxed
  split
  · exact nullIsCertain_ok _
  · split
    · exact nullIsCertain_ok _
    · split
      · exact nullIsCertain_nullOperand
      · exact h

theorem nullIsCertain_arithRight (op : Arith) (a b : Value) :
    (arithRight op a b).NullIsCertain := by
  induction b with
  | boxed b m ih => exact nullIsCertain_getD (ih.map _)
  | _ => exact nullIsCertain_getD (nullIsCertain_arithUnboxed op a _)

theorem nullIsCertain_arith (op : Arith) (a b : Value) : (arith op a b).NullIsCertain := by
  fun_induction arith op a b with
  | case1 a n b m ih => exact ih.map _
  | case2 a n b _ ih => exact nullIsCertain_getD (ih.map _)
  | case3 a b => exact nullIsCertain_arithRight op a b

theorem nullIsCertain_negate (v : Value) : v.negate.NullIsCertain := by
  induction v with
  | null => exact nullIsCertain_nullOperand
  | boxed v n ih => exact ih.map _
  | _ => exact nullIsCertain_ok _

theorem nullIsCertain_promote (v : Value) : v.promote.NullIsCertain := by
  induction v with
  | null => exact nullIsCertain_nullOperand
  | boxed v n ih => exact ih
  | _ => exact nullIsCertain_ok _

theorem nullIsCertain_complement (v : Value) : v.complement.NullIsCertain := by
  induction v with
  | null => exact nullIsCertain_nullOperand
  | boxed v n ih => exact ih.map _
  | _ => exact nullIsCertain_ok _

theorem nullIsCertain_test (rel : Relation) (a b : Value) : (test rel a b).NullIsCertain := by
  unfold test
  split
  · exact nullIsCertain_ok _
  · split
    · exact nullIsCertain_nullOperand
    · exact nullIsCertain_ok _

end Value

theorem Unary.nullIsCertain_apply (op : Unary) (v : Value) : (op.apply v).NullIsCertain := by
  cases op with
  | neg => exact v.nullIsCertain_negate
  | plus => exact v.nullIsCertain_promote
  | not => exact v.nullIsCertain_complement
  | preInc | postInc => exact Value.nullIsCertain_arith .add v _
  | preDec | postDec => exact Value.nullIsCertain_arith .sub v _

end ValueFlow

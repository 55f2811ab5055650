import Mathlib.Data.List.Forall2
import ValueFlow.Proofs.Guard

namespace ValueFlow

def Session.findAll (fs : List Located) (σ : Session) : Session :=
  fs.foldl (fun σ x => σ.find x.1 x.2) σ

namespace Walk

variable {α β γ δ : Type} {L : Located → Located → Prop}

/-- The step answers `a` and reports these findings, from whatever session it starts. -/
def Emits (m : Walk α) (a : α) (fs : List Located) : Prop := ∀ σ, m σ = .ok a (σ.findAll fs)

/-- Where both steps succeed, their answers are related by `Q`, and finding by finding so is by `L`
what they report, from whatever sessions they start. -/
def Agrees (L : Located → Located → Prop) (Q : α → β → Prop) (m : Walk α) (m' : Walk β) : Prop :=
  ∀ ⦃σ σ' τ τ' a b⦄, m σ = .ok a τ → m' σ' = .ok b τ' →
    Q a b ∧ ∃ fs gs, m.Emits a fs ∧ m'.Emits b gs ∧ List.Forall₂ L fs gs

theorem Emits.bind {m : Walk α} {f : α → Walk β} {a : α} {b : β} {fs gs : List Located}
    (h : m.Emits a fs) (hf : (f a).Emits b gs) : (m >>= f).Emits b (fs ++ gs) := by
  intro σ
  rw [bind_of_ok (h σ), hf, Session.findAll, Session.findAll, Session.findAll, List.foldl_append]

theorem emits_pure (a : α) : (pure a : Walk α).Emits a [] := fun _ => rfl

theorem emits_report (n : NodeId) (fs : List Finding) :
    (Walk.report n fs).Emits () (fs.map (n, ·)) := by
  intro σ
  rw [Session.findAll, List.foldl_map]
  rfl

theorem agrees_pure {Q : α → β → Prop} {a : α} {b : β} (h : Q a b) :
    Agrees L Q (pure a) (pure b) := by
  intro σ σ' τ τ' a' b' ha hb
  cases ha
  cases hb
  exact ⟨h, [], [], emits_pure a, emits_pure b, .nil⟩

theorem agrees_throw_left {Q : α → β → Prop} (e : Halt) (m : Walk β) :
    Agrees L Q (throw e) m := fun _ _ _ _ _ _ h => by cases h

theorem agrees_throw_right {Q : α → β → Prop} (m : Walk α) (e : Halt) :
    Agrees L Q m (throw e) := fun _ _ _ _ _ _ _ h => by cases h

theorem Agrees.bind {Q : α → β → Prop} {P : γ → δ → Prop} {m : Walk α} {m' : Walk β}
    {f : α → Walk γ} {f' : β → Walk δ} (h : Agrees L Q m m')
    (hf : ∀ a b, Q a b → Agrees L P (f a) (f' b)) : Agrees L P (m >>= f) (m' >>= f') := by
  intro σ σ' τ τ' c d hc hd
  obtain ⟨a, ρ, ha, hc⟩ := bind_eq_ok.1 hc
  obtain ⟨b, ρ', hb, hd⟩ := bind_eq_ok.1 hd
  obtain ⟨hQ, fs, fs', hfs, hfs', hL⟩ := h ha hb
  obtain ⟨hP, gs, gs', hgs, hgs', hL'⟩ := hf a b hQ hc hd
  exact ⟨hP, fs ++ gs, fs' ++ gs', hfs.bind hgs, hfs'.bind hgs', List.rel_append hL hL'⟩

theorem Agrees.andThen {P : β → γ → Prop} {m m' : Walk α} {f : α → Walk β} {f' : α → Walk γ}
    (h : Agrees L Eq m m') (hf : ∀ a, Agrees L P (f a) (f' a)) :
    Agrees L P (m >>= f) (m' >>= f') :=
  h.bind fun a _ hab => hab ▸ hf a

theorem Agrees.mono {Q P : α → β → Prop} {m : Walk α} {m' : Walk β} (h : Agrees L Q m m')
    (hQ : ∀ a b, Q a b → P a b) : Agrees L P m m' := fun _ _ _ _ a b ha hb =>
  let ⟨hab, reports⟩ := h ha hb
  ⟨hQ a b hab, reports⟩

theorem agrees_report {n n' : NodeId} {fs : List Finding} (h : ∀ f, L (n, f) (n', f)) :
    Agrees L Eq (Walk.report n fs) (Walk.report n' fs) := by
  intro σ σ' τ τ' a b _ _
  refine ⟨rfl, _, _, emits_report n fs, emits_report n' fs, ?_⟩
  rw [List.forall₂_map_left_iff, List.forall₂_map_right_iff, List.forall₂_same]
  exact fun f _ => h f

theorem agrees_require (x : Except TreeError α) :
    Agrees L Eq (Walk.require x) (Walk.require x) := by
  cases x with
  | ok a => exact agrees_pure rfl
  | error e => exact agrees_throw_left _ _

theorem agrees_visit {t : Tree} {n : NodeId} {s : State} {dead : α} {live live' : Expr → Walk α}
    (h : ∀ e, Agrees L Eq (live e) (live' e)) :
    Agrees L Eq (t.visit n s dead live) (t.visit n s dead live') := by
  unfold Tree.visit
  split
  · exact agrees_pure rfl
  · exact (agrees_require _).andThen h

end Walk

/-- Evaluators that agree about expressions. -/
structure Evaluators.Agree (L : Located → Located → Prop) (below below' : Evaluators) : Prop where
  expr (n : NodeId) (s : State) : Walk.Agrees L Eq (below.expr n s) (below'.expr n s)
  cond (n : NodeId) (s : State) : Walk.Agrees L Eq (below.cond n s) (below'.cond n s)

namespace Reporting

open Walk

variable {L : Located → Located → Prop} (hL : ∀ x, L x x) {ctx : Context}
  {below below' : Evaluators} {n : NodeId} {s : State}

section Steps

include hL

theorem agrees_settle (o : Outcome) : Agrees L Eq (o.settle n) (o.settle n) :=
  (agrees_report fun f => hL (n, f)).andThen fun _ => agrees_pure rfl

theorem agrees_store (d : DeclId) (v : Value) (s : State) :
    Agrees L Eq (ctx.store n d v s) (ctx.store n d v s) := by
  refine (agrees_require _).andThen fun decl => ?_
  refine Agrees.andThen ?_ fun stored => agrees_pure rfl
  exact (agrees_report fun f => hL (n, f)).andThen fun _ => agrees_pure rfl

theorem agrees_checkArgs (callee : String) (args : List (DeclId × Value)) :
    Agrees L Eq (ctx.checkArgs n callee args) (ctx.checkArgs n callee args) := by
  induction args with
  | nil => exact agrees_pure rfl
  | cons a rest ih =>
    obtain ⟨param, v⟩ := a
    refine (agrees_require _).andThen fun decl => ?_
    exact (agrees_report fun f => hL (n, f)).andThen fun _ => ih

end Steps

section Parts

variable (hb : below.Agree L below')

include hb

theorem agrees_all (es : List NodeId) (s : State) :
    Agrees L Eq (below.all es s) (below'.all es s) := by
  induction es generalizing s with
  | nil => exact agrees_pure rfl
  | cons e rest ih =>
    refine (hb.expr e s).andThen fun ⟨v, s⟩ => ?_
    exact (ih s).andThen fun ⟨vs, s⟩ => agrees_pure rfl

theorem agrees_shortCircuit (c : Bool) (l r : NodeId) :
    Agrees L Eq (below.shortCircuit ctx c l r s) (below'.shortCircuit ctx c l r s) := by
  refine (hb.cond l s).andThen fun left => ?_
  exact (hb.cond r (left.on c)).andThen fun _ => agrees_pure rfl

theorem agrees_conditional (c l r : NodeId) :
    Agrees L Eq (below.conditional c l r s) (below'.conditional c l r s) := by
  refine (hb.cond c s).andThen fun branches => ?_
  refine (hb.expr l branches.whenTrue).andThen fun ⟨v, left⟩ => ?_
  exact (hb.expr r branches.whenFalse).andThen fun ⟨w, right⟩ => agrees_pure rfl

include hL

theorem agrees_deref (target : NodeId) (s : State) :
    Agrees L Eq (below.deref ctx n target s) (below'.deref ctx n target s) := by
  refine (hb.expr target s).andThen fun ⟨v, s⟩ => ?_
  exact (agrees_report fun f => hL (n, f)).andThen fun _ => agrees_pure rfl

theorem agrees_increment (op : Unary) (operand : NodeId) :
    Agrees L Eq (below.increment ctx n op operand s) (below'.increment ctx n op operand s) := by
  unfold Evaluators.increment
  split
  · exact (hb.expr operand s).andThen fun ⟨_, s⟩ => agrees_pure rfl
  · rename_i d _
    refine (agrees_require _).andThen fun current => ?_
    refine (agrees_settle hL _).andThen fun result => ?_
    exact (agrees_store hL d result s).andThen fun ⟨stored, s⟩ => agrees_pure rfl

theorem agrees_unary (op : Unary) (operand : NodeId) :
    Agrees L Eq (below.unary ctx n op operand s) (below'.unary ctx n op operand s) := by
  unfold Evaluators.unary
  split
  · exact agrees_increment hL hb op operand
  · refine (hb.expr operand s).andThen fun ⟨v, s⟩ => ?_
    exact (agrees_settle hL _).andThen fun _ => agrees_pure rfl

theorem agrees_binary (op : Value → Value → Outcome) (l r : NodeId) :
    Agrees L Eq (below.binary n op l r s) (below'.binary n op l r s) := by
  refine (hb.expr l s).andThen fun ⟨v, s⟩ => ?_
  refine (hb.expr r s).andThen fun ⟨w, s⟩ => ?_
  exact (agrees_settle hL _).andThen fun _ => agrees_pure rfl

theorem agrees_assignVariable (op : Option Arith) (d : DeclId) (value : NodeId) :
    Agrees L Eq (below.assignVariable ctx n op d value s)
      (below'.assignVariable ctx n op d value s) := by
  unfold Evaluators.assignVariable
  cases op with
  | none => exact (hb.expr value s).andThen fun ⟨v, s⟩ => agrees_store hL d v s
  | some op =>
    refine (agrees_require _).andThen fun current => ?_
    refine (hb.expr value s).andThen fun ⟨v, s⟩ => ?_
    exact (agrees_settle hL _).andThen fun result => agrees_store hL d result s

theorem agrees_target : Agrees L Eq (below.target ctx n s) (below'.target ctx n s) := by
  refine (agrees_require _).andThen fun e => ?_
  split
  · refine (agrees_deref hL hb _ s).andThen fun ⟨_, s⟩ => ?_
    exact (hb.expr _ s).andThen fun ⟨_, s⟩ => agrees_pure rfl
  · exact (agrees_deref hL hb _ s).andThen fun ⟨_, s⟩ => agrees_pure rfl
  · exact (hb.expr n s).andThen fun ⟨_, s⟩ => agrees_pure rfl

theorem agrees_assignElsewhere (op : Option Arith) (target value : NodeId) :
    Agrees L Eq (below.assignElsewhere ctx n op target value s)
      (below'.assignElsewhere ctx n op target value s) := by
  refine (agrees_target hL hb).andThen fun s => ?_
  refine (hb.expr value s).andThen fun ⟨v, s⟩ => ?_
  cases op with
  | none => exact agrees_pure rfl
  | some op =>
    dsimp only
    split
    · exact (agrees_report fun f => hL (n, f)).andThen fun _ => agrees_pure rfl
    · exact agrees_pure rfl

theorem agrees_assign (op : Option Arith) (target value : NodeId) :
    Agrees L Eq (below.assign ctx n op target value s) (below'.assign ctx n op target value s) := by
  unfold Evaluators.assign
  split
  · exact agrees_assignVariable hL hb op _ value
  · exact agrees_assignElsewhere hL hb op target value

theorem agrees_receiver (target : Option NodeId) :
    Agrees L Eq (below.receiver ctx n target s) (below'.receiver ctx n target s) := by
  cases target with
  | none => exact agrees_pure rfl
  | some e => exact agrees_deref hL hb e s

theorem agrees_call (method : Option MethodId) (target : Option NodeId) (args : List NodeId) :
    Agrees L Eq (below.call ctx n method target args s)
      (below'.call ctx n method target args s) := by
  refine (agrees_receiver hL hb target).andThen fun ⟨object, s⟩ => ?_
  refine (agrees_all hb args s).andThen fun ⟨values, s⟩ => ?_
  dsimp only
  split
  · exact agrees_pure rfl
  · cases method with
    | none => exact agrees_pure rfl
    | some m =>
      refine (agrees_require _).andThen fun callee => ?_
      exact (agrees_checkArgs hL _ _).andThen fun _ => agrees_pure rfl

theorem agrees_field (target : Option NodeId) (d : DeclId) :
    Agrees L Eq (below.field ctx n target d s) (below'.field ctx n target d s) := by
  refine (agrees_require _).andThen fun decl => ?_
  split
  · exact (agrees_deref hL hb _ s).andThen fun ⟨v, s⟩ => agrees_pure rfl
  · exact (agrees_require _).andThen fun v => agrees_pure rfl

theorem agrees_index (a i : NodeId) :
    Agrees L Eq (below.index ctx n a i s) (below'.index ctx n a i s) := by
  refine (agrees_deref hL hb a s).andThen fun ⟨a, s⟩ => ?_
  exact (hb.expr i s).andThen fun ⟨i, s⟩ => agrees_pure rfl

theorem agrees_cast (ty : Ty) (e : NodeId) :
    Agrees L Eq (below.cast ctx n ty e s) (below'.cast ctx n ty e s) := by
  refine (hb.expr e s).andThen fun ⟨v, s⟩ => ?_
  exact (agrees_report fun f => hL (n, f)).andThen fun _ => agrees_pure rfl

theorem agrees_exprOf (e : Expr) :
    Agrees L Eq (below.exprOf ctx n s e) (below'.exprOf ctx n s e) := by
  cases e with
  | literal l => exact agrees_pure rfl
  | name d => exact (agrees_require _).andThen fun v => agrees_pure rfl
  | self => exact agrees_pure rfl
  | unary op e => exact agrees_unary hL hb op e
  | arith op l r | compare op l r => exact agrees_binary hL hb _ l r
  | and l r => exact (agrees_shortCircuit hb true l r).andThen fun _ => agrees_pure rfl
  | or l r => exact (agrees_shortCircuit hb false l r).andThen fun _ => agrees_pure rfl
  | assign op target value => exact agrees_assign hL hb op target value
  | conditional c l r => exact agrees_conditional hb c l r
  | call method receiver args => exact agrees_call hL hb method receiver args
  | field target d => exact agrees_field hL hb target d
  | index a i => exact agrees_index hL hb a i
  | length e => exact (agrees_deref hL hb e s).andThen fun _ => agrees_pure rfl
  | newArray elem e | instanceOf e ty => exact (hb.expr e s).andThen fun _ => agrees_pure rfl
  | newObject ty es | unknown es => exact (agrees_all hb es s).andThen fun _ => agrees_pure rfl
  | cast ty e => exact agrees_cast hL hb ty e

theorem agrees_comparison (rel : Relation) (l r : NodeId) :
    Agrees L Eq (below.comparison ctx n rel l r s) (below'.comparison ctx n rel l r s) := by
  refine (hb.expr l s).andThen fun ⟨v, s⟩ => ?_
  refine (hb.expr r s).andThen fun ⟨w, s⟩ => ?_
  refine (agrees_settle hL _).andThen fun result => ?_
  split <;> exact agrees_pure rfl

theorem agrees_condOf (e : Expr) :
    Agrees L Eq (below.condOf ctx n s e) (below'.condOf ctx n s e) := by
  unfold Evaluators.condOf
  split
  · exact agrees_comparison hL hb _ _ _
  · exact agrees_shortCircuit hb true _ _
  · exact agrees_shortCircuit hb false _ _
  · exact (hb.cond _ s).andThen fun _ => agrees_pure rfl
  · exact (agrees_exprOf hL hb _).andThen fun _ => agrees_pure rfl

end Parts

include hL in
/-- Walks of different depths agree wherever both of them succeed. -/
theorem agree_evaluators (depth depth' : Nat) :
    (ctx.evaluators depth).Agree L (ctx.evaluators depth') := by
  induction depth generalizing depth' with
  | zero => exact ⟨fun _ _ => agrees_throw_left _ _, fun _ _ => agrees_throw_left _ _⟩
  | succ depth ih =>
    -- a walk that is out of levels fails, and then there is nothing to agree about
    cases depth' with
    | zero => exact ⟨fun _ _ => agrees_throw_right _ _, fun _ _ => agrees_throw_right _ _⟩
    | succ depth' =>
      exact ⟨fun n s => agrees_visit (agrees_exprOf hL (ih depth')),
        fun n s => agrees_visit (agrees_condOf hL (ih depth'))⟩

end Reporting

end ValueFlow

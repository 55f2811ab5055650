import ValueFlow.Proofs.Comparison

namespace ValueFlow

def Store := DeclId → Option Concrete

namespace Store

def set (s : Store) (d : DeclId) (x : Concrete) : Store := fun e => if d = e then some x else s e

/-- All variables of `s` exist in `u`, with the same values. -/
def Extends (u s : Store) : Prop := ∀ d x, s d = some x → u d = some x

end Store

/-- The values of a primitive type; floating-point numbers are left out. -/
def Primitive.Holds (k : Primitive) : Concrete → Prop
  | .number n => ∃ range, k.range? = some range ∧ n ∈ range
  | .bool _ => k = .boolean
  | _ => False

/-- Storing `x` in the variable leaves `y` in it. -/
def Tree.Stores (t : Tree) (d : DeclId) (x y : Concrete) : Prop :=
  ∃ k, (t.decl d).map Decl.ty = .ok (.primitive k) ∧ y = k.clamp x ∧ k.Holds y

def Literal.concrete? : Literal → Option Concrete
  | int x => some (.number (saturate x))
  | char code => some (.number code.toNat)
  | bool b => some (.bool b)
  | str _ | null => none

namespace Unary

def eval? : Unary → Concrete → Option Concrete
  | neg, .number m => some (.number (saturate (-m)))
  | plus, .number m => some (.number m)
  | not, .bool b => some (.bool (!b))
  | _, _ => none

def step? : Unary → Option Arith
  | preInc | postInc => some .add
  | preDec | postDec => some .sub
  | _ => none

theorem isIncrement_of_step? {op : Unary} {step : Arith} (h : op.step? = some step) :
    op.isIncrement = true := by
  cases op <;> simp_all [step?, isIncrement]

end Unary

/-- The expression at a node has the value `x` and leaves the store `s'`. What has no rule here
does not go on: a division by zero, a variable that does not exist, operands of the wrong type,
and whatever is not about primitives. -/
inductive Evaluates (t : Tree) : NodeId → Store → Concrete → Store → Prop
  | literal {n l x s} : t.expr n = .ok (.literal l) → l.concrete? = some x → Evaluates t n s x s
  | name {n d x} {s : Store} : t.expr n = .ok (.name d) → s d = some x → Evaluates t n s x s
  | unary {n op e x y s s'} : t.expr n = .ok (.unary op e) → Evaluates t e s x s' →
      op.eval? x = some y → Evaluates t n s y s'
  | increment {n op step e d m k y} {s : Store} : t.expr n = .ok (.unary op e) →
      op.step? = some step → t.expr e = .ok (.name d) → s d = some (.number m) →
      step.eval? m 1 = some k → t.Stores d (.number k) y →
      Evaluates t n s (if op.answersOld then .number m else y) (s.set d y)
  | arith {n op l r m k q s s₁ s₂} : t.expr n = .ok (.arith op l r) →
      Evaluates t l s (.number m) s₁ → Evaluates t r s₁ (.number k) s₂ → op.eval? m k = some q →
      Evaluates t n s (.number q) s₂
  | compare {n rel l r x y b s s₁ s₂} : t.expr n = .ok (.compare rel l r) →
      Evaluates t l s x s₁ → Evaluates t r s₁ y s₂ → rel.eval? x y = some b →
      Evaluates t n s (.bool b) s₂
  | andLeft {n l r s s₁} : t.expr n = .ok (.and l r) → Evaluates t l s (.bool false) s₁ →
      Evaluates t n s (.bool false) s₁
  | andRight {n l r b s s₁ s₂} : t.expr n = .ok (.and l r) → Evaluates t l s (.bool true) s₁ →
      Evaluates t r s₁ (.bool b) s₂ → Evaluates t n s (.bool b) s₂
  | orLeft {n l r s s₁} : t.expr n = .ok (.or l r) → Evaluates t l s (.bool true) s₁ →
      Evaluates t n s (.bool true) s₁
  | orRight {n l r b s s₁ s₂} : t.expr n = .ok (.or l r) → Evaluates t l s (.bool false) s₁ →
      Evaluates t r s₁ (.bool b) s₂ → Evaluates t n s (.bool b) s₂
  | assign {n target e d x y s s₁} : t.expr n = .ok (.assign none target e) →
      t.expr target = .ok (.name d) → Evaluates t e s x s₁ → t.Stores d x y →
      Evaluates t n s y (s₁.set d y)
  | update {n op target e d m k q y} {s s₁ : Store} : t.expr n = .ok (.assign (some op) target e) →
      t.expr target = .ok (.name d) → s d = some (.number m) → Evaluates t e s (.number k) s₁ →
      op.eval? m k = some q → t.Stores d (.number q) y → Evaluates t n s y (s₁.set d y)
  | conditional {n c p q b x s s₁ s₂} : t.expr n = .ok (.conditional c p q) →
      Evaluates t c s (.bool b) s₁ → Evaluates t (if b then p else q) s₁ x s₂ → Evaluates t n s x s₂

inductive EvaluatesAll (t : Tree) : List NodeId → Store → Store → Prop
  | nil {s} : EvaluatesAll t [] s s
  | cons {e rest x s s₁ s₂} : Evaluates t e s x s₁ → EvaluatesAll t rest s₁ s₂ →
      EvaluatesAll t (e :: rest) s s₂

inductive Ending where
  | falls | breaks | continues | returns
deriving DecidableEq

namespace Ending

def goesOn : Ending → Bool
  | falls | continues => true
  | breaks | returns => false

/-- The ending of a switch by that of its cases. -/
def ofSwitch : Ending → Ending
  | breaks => falls
  | e => e

end Ending

abbrev Behaviour := Store → Ending → Store → Prop

inductive InSequence (run : NodeId → Behaviour) : List NodeId → Behaviour
  | nil {s} : InSequence run [] s .falls s
  | cons {n rest s e s₁ s₂} : run n s .falls s₁ → InSequence run rest s₁ e s₂ →
      InSequence run (n :: rest) s e s₂
  | stop {n rest s e s₁} : run n s e s₁ → e ≠ .falls → InSequence run (n :: rest) s e s₁

/-- Passes over a loop: one that continues comes back to the head, one that breaks leaves. -/
inductive Repeats (pass : Behaviour) : Behaviour
  | again {s e s₁ s₂} : pass s .continues s₁ → Repeats pass s₁ e s₂ → Repeats pass s e s₂
  | leave {s s₁} : pass s .breaks s₁ → Repeats pass s .falls s₁
  | ret {s s₁} : pass s .returns s₁ → Repeats pass s .returns s₁

inductive Enters (t : Tree) : Option NodeId → Store → Store → Prop
  | always {s} : Enters t none s s
  | holds {c s s₁} : Evaluates t c s (.bool true) s₁ → Enters t (some c) s s₁

/-- One pass over a loop that asks for its condition first. -/
inductive HeadPass (t : Tree) (run : NodeId → Behaviour) (cond : Option NodeId)
    (update : List NodeId) (body : NodeId) : Behaviour
  | done {c s s₁} : cond = some c → Evaluates t c s (.bool false) s₁ →
      HeadPass t run cond update body s .breaks s₁
  | again {s e s₁ s₂ s₃} : Enters t cond s s₁ → run body s₁ e s₂ → e.goesOn = true →
      EvaluatesAll t update s₂ s₃ → HeadPass t run cond update body s .continues s₃
  | out {s e s₁ s₂} : Enters t cond s s₁ → run body s₁ e s₂ → e.goesOn = false →
      HeadPass t run cond update body s e s₂

inductive TailPass (t : Tree) (run : NodeId → Behaviour) (body cond : NodeId) : Behaviour
  | asked {s e b s₁ s₂} : run body s e s₁ → e.goesOn = true → Evaluates t cond s₁ (.bool b) s₂ →
      TailPass t run body cond s (if b then .continues else .breaks) s₂
  | out {s e s₁} : run body s e s₁ → e.goesOn = false → TailPass t run body cond s e s₁

def Literal.code? : Literal → Option Int
  | int x => some (saturate x)
  | char code => some code.toNat
  | _ => none

def Case.Matches (c : Case) (m : Int) : Prop := ∃ l ∈ c.labels, l.code? = some m

/-- A switch with the selector `m` enters at the case. -/
def Case.Takes (c : Case) (alternatives : List Case) (m : Int) : Prop :=
  c.Matches m ∨ (c.isDefault = true ∧ ∀ c' ∈ alternatives, ¬ c'.Matches m)

/-- How a statement behaves if the statements below it behave as `run` says. -/
inductive Performs (t : Tree) (run : NodeId → Behaviour) : Stmt → Behaviour
  | block {body s e s'} : InSequence run body s e s' → Performs t run (.block body) s e s'
  | declare {d k x s} : (t.decl d).map Decl.ty = .ok (.primitive k) → k.Holds x →
      Performs t run (.declare d none) s .falls (s.set d x)
  | init {d v x y s s₁} : Evaluates t v s x s₁ → t.Stores d x y →
      Performs t run (.declare d (some v)) s .falls (s₁.set d y)
  | expr {v x s s'} : Evaluates t v s x s' → Performs t run (.expr v) s .falls s'
  | whenTrue {c p q s e s₁ s₂} : Evaluates t c s (.bool true) s₁ → run p s₁ e s₂ →
      Performs t run (.branch c p q) s e s₂
  | whenFalse {c p q s e s₁ s₂} : Evaluates t c s (.bool false) s₁ → run q s₁ e s₂ →
      Performs t run (.branch c p (some q)) s e s₂
  | otherwise {c p s s₁} : Evaluates t c s (.bool false) s₁ →
      Performs t run (.branch c p none) s .falls s₁
  | whileLoop {c b s e s'} : Repeats (HeadPass t run (some c) [] b) s e s' →
      Performs t run (.whileLoop c b) s e s'
  | doLoop {b c s e s'} : Repeats (TailPass t run b c) s e s' →
      Performs t run (.doLoop b c) s e s'
  | forLoop {first c update b s e s₁ s₂} : InSequence run first s .falls s₁ →
      Repeats (HeadPass t run c update b) s₁ e s₂ →
      Performs t run (.forLoop first c update b) s e s₂
  | forStop {first c update b s e s₁} : InSequence run first s e s₁ → e ≠ .falls →
      Performs t run (.forLoop first c update b) s e s₁
  | switch {v m before c rest s e s₁ s₂} : Evaluates t v s (.number m) s₁ →
      c.Takes (before ++ c :: rest) m →
      InSequence run ((c :: rest).flatMap (·.body)) s₁ e s₂ →
      Performs t run (.switch v (before ++ c :: rest)) s e.ofSwitch s₂
  | pass {v m alternatives s s₁} : Evaluates t v s (.number m) s₁ →
      (∀ c ∈ alternatives, ¬ c.Takes alternatives m) →
      Performs t run (.switch v alternatives) s .falls s₁
  | ret {s} : Performs t run (.ret none) s .returns s
  | retValue {v x s s'} : Evaluates t v s x s' → Performs t run (.ret (some v)) s .returns s'
  | breakOut {s} : Performs t run .breakOut s .breaks s
  | continueLoop {s} : Performs t run .continueLoop s .continues s
  | skip {s} : Performs t run .skip s .falls s

/-- The behaviour of statements that are nested at most `depth` levels deep. -/
def Tree.runsWithin (t : Tree) : (depth : Nat) → NodeId → Behaviour
  | 0, _, _, _, _ => False
  | depth + 1, n, s, e, s' =>
    ∃ stmt, t.stmt n = .ok stmt ∧ Performs t (t.runsWithin depth) stmt s e s'

/-- The statement at a node, run from `s`, ends as `e` says with the store `s'`. -/
def Tree.Runs (t : Tree) (n : NodeId) (s : Store) (e : Ending) (s' : Store) : Prop :=
  ∃ depth, t.runsWithin depth n s e s'

/-- Literals are primitives, and labels are numbers or characters. -/
def Node.writesPrimitives : Node → Bool
  | .expr (.literal l) => l.concrete?.isSome
  | .stmt (.switch _ alternatives) =>
    alternatives.all fun c => c.labels.all fun l => l.code?.isSome
  | _ => true

def Tree.WritesPrimitives (t : Tree) : Prop := t.nodes.toList.all Node.writesPrimitives = true

section WritesPrimitives

variable {t : Tree} {n : NodeId} {l : Literal}

theorem Tree.WritesPrimitives.node (h : t.WritesPrimitives) {node : Node}
    (hn : t.node n = .ok node) : node.writesPrimitives = true := by
  unfold Tree.node at hn
  split at hn
  · rename_i node' hnode
    cases hn
    exact List.all_eq_true.1 h node (Array.mem_of_getElem? hnode).val
  · cases hn

theorem Tree.WritesPrimitives.literal (h : t.WritesPrimitives) (hn : t.expr n = .ok (.literal l)) :
    l.concrete?.isSome = true := by
  unfold Tree.expr at hn
  split at hn
  · rename_i e hnode
    cases hn
    exact h.node hnode
  · cases hn
  · cases hn

theorem Tree.WritesPrimitives.label (h : t.WritesPrimitives) {selector : NodeId}
    {alternatives : List Case} (hn : t.stmt n = .ok (.switch selector alternatives)) {c : Case}
    (hc : c ∈ alternatives) (hl : l ∈ c.labels) : l.code?.isSome = true := by
  unfold Tree.stmt at hn
  split at hn
  · rename_i stmt hnode
    cases hn
    have hall := List.all_eq_true.1 (h.node hnode) c hc
    exact List.all_eq_true.1 hall l hl
  · cases hn
  · cases hn

end WritesPrimitives

/-- Each variable holds what its declaration admits. -/
def Tree.Typed (t : Tree) (s : Store) : Prop := ∀ d x, s d = some x → t.Admits d x

section Typed

variable {t : Tree} {s s' : Store}

theorem Primitive.admits_of_holds {k : Primitive} {x : Concrete} (h : k.Holds x) : k.Admits x := by
  unfold Admits
  cases x with
  | number n =>
    obtain ⟨range, hr, hn⟩ := h
    rw [hr]
    exact ⟨n, hn, rfl⟩
  | bool b =>
    cases h
    simp [range?]
  | _ => exact h.elim

theorem Tree.admits_of_holds {d : DeclId} {k : Primitive} {x : Concrete}
    (hd : (t.decl d).map Decl.ty = .ok (.primitive k)) (h : k.Holds x) : t.Admits d x := by
  unfold Tree.Admits
  rw [hd]
  exact Primitive.admits_of_holds h

theorem Tree.Stores.admits {d : DeclId} {x y : Concrete} (h : t.Stores d x y) : t.Admits d y := by
  obtain ⟨k, hd, -, hy⟩ := h
  exact Tree.admits_of_holds hd hy

theorem Tree.Typed.set {d : DeclId} {x : Concrete} (hs : t.Typed s) (hx : t.Admits d x) :
    t.Typed (s.set d x) := by
  intro e y hy
  unfold Store.set at hy
  split at hy
  · rename_i hde
    cases hy
    exact hde ▸ hx
  · exact hs e y hy

theorem Evaluates.typed {n : NodeId} {x : Concrete} (h : Evaluates t n s x s') (hs : t.Typed s) :
    t.Typed s' := by
  induction h with
  | literal | name => exact hs
  | unary _ _ _ ih => exact ih hs
  | increment _ _ _ _ _ hy => exact hs.set hy.admits
  | arith _ _ _ _ ihl ihr => exact ihr (ihl hs)
  | compare _ _ _ _ ihl ihr => exact ihr (ihl hs)
  | andLeft _ _ ih | orLeft _ _ ih => exact ih hs
  | andRight _ _ _ ihl ihr | orRight _ _ _ ihl ihr => exact ihr (ihl hs)
  | assign _ _ _ hy ih => exact (ih hs).set hy.admits
  | update _ _ _ _ _ hy ih => exact (ih hs).set hy.admits
  | conditional _ _ _ ihc ih => exact ih (ihc hs)

theorem EvaluatesAll.typed {es : List NodeId} (h : EvaluatesAll t es s s') (hs : t.Typed s) :
    t.Typed s' := by
  induction h with
  | nil => exact hs
  | cons he _ ih => exact ih (he.typed hs)

theorem Enters.typed {c : Option NodeId} (h : Enters t c s s') (hs : t.Typed s) : t.Typed s' := by
  cases h with
  | always => exact hs
  | holds hc => exact hc.typed hs

def Tree.KeepsTyped (t : Tree) (B : Behaviour) : Prop := ∀ s e s', B s e s' → t.Typed s → t.Typed s'

variable {run : NodeId → Behaviour} (hrun : ∀ n, t.KeepsTyped (run n))

theorem Repeats.typed {pass : Behaviour} (hpass : t.KeepsTyped pass) :
    t.KeepsTyped (Repeats pass) := by
  intro s e s' h hs
  induction h with
  | again hp _ ih => exact ih (hpass _ _ _ hp hs)
  | leave hp | ret hp => exact hpass _ _ _ hp hs

include hrun

theorem InSequence.typed (ns : List NodeId) : t.KeepsTyped (InSequence run ns) := by
  intro s e s' h hs
  induction h with
  | nil => exact hs
  | cons hn _ ih => exact ih (hrun _ _ _ _ hn hs)
  | stop hn _ => exact hrun _ _ _ _ hn hs

theorem HeadPass.typed (c : Option NodeId) (update : List NodeId) (b : NodeId) :
    t.KeepsTyped (HeadPass t run c update b) := by
  intro s e s' h hs
  cases h with
  | done _ hc => exact hc.typed hs
  | again hc hb _ hu => exact hu.typed (hrun _ _ _ _ hb (hc.typed hs))
  | out hc hb _ => exact hrun _ _ _ _ hb (hc.typed hs)

theorem TailPass.typed (b c : NodeId) : t.KeepsTyped (TailPass t run b c) := by
  intro s e s' h hs
  cases h with
  | asked hb _ hc => exact hc.typed (hrun _ _ _ _ hb hs)
  | out hb _ => exact hrun _ _ _ _ hb hs

theorem Performs.typed (stmt : Stmt) : t.KeepsTyped (Performs t run stmt) := by
  intro s e s' h hs
  cases h with
  | block h => exact InSequence.typed hrun _ _ _ _ h hs
  | declare hd hx => exact hs.set (Tree.admits_of_holds hd hx)
  | init hv hy => exact (hv.typed hs).set hy.admits
  | expr hv | retValue hv => exact hv.typed hs
  | whenTrue hc hp | whenFalse hc hp => exact hrun _ _ _ _ hp (hc.typed hs)
  | otherwise hc => exact hc.typed hs
  | whileLoop h => exact Repeats.typed (HeadPass.typed hrun _ _ _) _ _ _ h hs
  | doLoop h => exact Repeats.typed (TailPass.typed hrun _ _) _ _ _ h hs
  | forLoop hi h =>
    have hs₁ := InSequence.typed hrun _ _ _ _ hi hs
    exact Repeats.typed (HeadPass.typed hrun _ _ _) _ _ _ h hs₁
  | forStop hi _ => exact InSequence.typed hrun _ _ _ _ hi hs
  | switch hv _ h => exact InSequence.typed hrun _ _ _ _ h (hv.typed hs)
  | pass hv _ => exact hv.typed hs
  | ret | breakOut | continueLoop | skip => exact hs

omit hrun in
theorem Tree.runsWithin_typed (t : Tree) (depth : Nat) (n : NodeId) :
    t.KeepsTyped (t.runsWithin depth n) := by
  induction depth generalizing n with
  | zero => exact fun _ _ _ h => h.elim
  | succ depth ih =>
    intro s e s' ⟨stmt, _, h⟩ hs
    exact Performs.typed ih stmt s e s' h hs

end Typed

section Pure

variable {t : Tree} {n : NodeId} {s s' : Store} {x : Concrete}

theorem Tree.of_writesWithin_eq_false {depth : Nat} {e : Expr} (h : t.writesWithin depth n = false)
    (he : t.expr n = .ok e) : e.isWrite = false ∧
      ∃ depth', ∀ c ∈ e.children, t.writesWithin depth' c = false := by
  cases depth with
  | zero => cases h
  | succ depth =>
    rw [Tree.writesWithin, he] at h
    simp only [Bool.or_eq_false_iff, List.any_eq_false, Bool.not_eq_true] at h
    exact ⟨h.1, depth, h.2⟩

/-- An expression that cannot write leaves the store as it is, and does not care for further
variables. -/
theorem Evaluates.of_writesWithin {depth : Nat} (h : Evaluates t n s x s')
    (hw : t.writesWithin depth n = false) :
    s' = s ∧ ∀ u : Store, u.Extends s → Evaluates t n u x u := by
  induction h generalizing depth with
  | literal he hl => exact ⟨rfl, fun u _ => .literal he hl⟩
  | name he hd => exact ⟨rfl, fun u hu => .name he (hu _ _ hd)⟩
  | unary he _ hx ih =>
    obtain ⟨-, depth', hc⟩ := Tree.of_writesWithin_eq_false hw he
    obtain ⟨rfl, ih⟩ := ih (hc _ (by simp [Expr.children]))
    exact ⟨rfl, fun u hu => .unary he (ih u hu) hx⟩
  -- what writes is ruled out by `hw`; everywhere else the parts are as they were
  | increment he hop =>
    obtain ⟨hwrite, -⟩ := Tree.of_writesWithin_eq_false hw he
    cases hwrite.symm.trans (Unary.isIncrement_of_step? hop)
  | arith he _ _ hq ihl ihr =>
    obtain ⟨-, depth', hc⟩ := Tree.of_writesWithin_eq_false hw he
    obtain ⟨rfl, ihl⟩ := ihl (hc _ (by simp [Expr.children]))
    obtain ⟨rfl, ihr⟩ := ihr (hc _ (by simp [Expr.children]))
    exact ⟨rfl, fun u hu => .arith he (ihl u hu) (ihr u hu) hq⟩
  | compare he _ _ hb ihl ihr =>
    obtain ⟨-, depth', hc⟩ := Tree.of_writesWithin_eq_false hw he
    obtain ⟨rfl, ihl⟩ := ihl (hc _ (by simp [Expr.children]))
    obtain ⟨rfl, ihr⟩ := ihr (hc _ (by simp [Expr.children]))
    exact ⟨rfl, fun u hu => .compare he (ihl u hu) (ihr u hu) hb⟩
  | andLeft he _ ih =>
    obtain ⟨-, depth', hc⟩ := Tree.of_writesWithin_eq_false hw he
    obtain ⟨rfl, ih⟩ := ih (hc _ (by simp [Expr.children]))
    exact ⟨rfl, fun u hu => .andLeft he (ih u hu)⟩
  | andRight he _ _ ihl ihr =>
    obtain ⟨-, depth', hc⟩ := Tree.of_writesWithin_eq_false hw he
    obtain ⟨rfl, ihl⟩ := ihl (hc _ (by simp [Expr.children]))
    obtain ⟨rfl, ihr⟩ := ihr (hc _ (by simp [Expr.children]))
    exact ⟨rfl, fun u hu => .andRight he (ihl u hu) (ihr u hu)⟩
  | orLeft he _ ih =>
    obtain ⟨-, depth', hc⟩ := Tree.of_writesWithin_eq_false hw he
    obtain ⟨rfl, ih⟩ := ih (hc _ (by simp [Expr.children]))
    exact ⟨rfl, fun u hu => .orLeft he (ih u hu)⟩
  | orRight he _ _ ihl ihr =>
    obtain ⟨-, depth', hc⟩ := Tree.of_writesWithin_eq_false hw he
    obtain ⟨rfl, ihl⟩ := ihl (hc _ (by simp [Expr.children]))
    obtain ⟨rfl, ihr⟩ := ihr (hc _ (by simp [Expr.children]))
    exact ⟨rfl, fun u hu => .orRight he (ihl u hu) (ihr u hu)⟩
  | assign he => cases (Tree.of_writesWithin_eq_false hw he).1
  | update he => cases (Tree.of_writesWithin_eq_false hw he).1
  | @conditional n c p q b x s s₁ s₂ he _ _ ihc ih =>
    obtain ⟨-, depth', hc⟩ := Tree.of_writesWithin_eq_false hw he
    obtain ⟨rfl, ihc⟩ := ihc (hc _ (by simp [Expr.children]))
    obtain ⟨rfl, ih⟩ := ih (hc _ (by cases b <;> simp [Expr.children]))
    exact ⟨rfl, fun u hu => .conditional he (ihc u hu) (ih u hu)⟩

end Pure

end ValueFlow

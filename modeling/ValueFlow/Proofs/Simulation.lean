import ValueFlow.Analysis.Run
import ValueFlow.Proofs.Finding

namespace ValueFlow

/-- Two analyses of one tree, and what their runs keep in step: properties of the values, states
and declarations they meet, the failures they may share, and a relation between their sessions,
given the frames entered and the loops being solved since the start. -/
structure Simulation where
  tree : Tree
  leftSettings : Settings
  rightSettings : Settings
  returnType : Option Ty
  returnContracts : List Contract
  value : Value → Prop
  state : State → Prop
  decl : DeclId → Prop
  halt : Halt → Prop
  session : List FrameKind → Nat → Session → Session → Prop

theorem Walk.bind_eq_ok {α β : Type} {m : Walk α} {f : α → Walk β} {b : β} {σ τ : Session} :
    (m >>= f) σ = .ok b τ ↔ ∃ a ρ, m σ = .ok a ρ ∧ f a ρ = .ok b τ := by
  show EStateM.bind m f σ = .ok b τ ↔ _
  unfold EStateM.bind
  cases m σ with
  | ok a ρ =>
    constructor
    · exact fun h => ⟨a, ρ, rfl, h⟩
    · intro ⟨a', ρ', h, h'⟩
      cases h
      exact h'
  | error e ρ => simp

namespace Walk

variable {α β : Type} {m : Walk α} {f : α → Walk β} {P : α → Prop} {Q : β → Prop}

/-- Whenever the step succeeds, `Q` holds of what it answers. -/
def Ensures (m : Walk α) (Q : α → Prop) : Prop := ∀ σ a τ, m σ = .ok a τ → Q a

theorem ensures_pure {a : α} (h : P a) : (pure a : Walk α).Ensures P := by
  intro σ b τ hpure
  cases hpure
  exact h

theorem ensures_throw (e : Halt) : (throw e : Walk α).Ensures P := fun _ _ _ h => nomatch h

theorem ensures_true : m.Ensures fun _ => True := fun _ _ _ _ => trivial

theorem ensures_require (x : Except TreeError α) : (Walk.require x).Ensures (x = .ok ·) := by
  cases x with
  | ok a => exact ensures_pure rfl
  | error e => exact ensures_throw _

theorem Ensures.bind (hm : m.Ensures P) (hf : ∀ a, P a → (f a).Ensures Q) :
    (m >>= f).Ensures Q := by
  intro σ b τ h
  obtain ⟨a, ρ, ha, hb⟩ := bind_eq_ok.1 h
  exact hf a (hm σ a ρ ha) ρ b τ hb

end Walk

/-- Goes on with the expression at a node, unless nothing reaches it. Both the evaluation of an
expression and the split of a state on one begin like this. -/
def Tree.visit {α : Type} (t : Tree) (n : NodeId) (s : State) (dead : α) (live : Expr → Walk α) :
    Walk α :=
  if s.unreachable then pure dead else do live (← Walk.require (t.expr n))

section Visit

variable {α : Type} {t : Tree} {n : NodeId} {s : State} {dead a : α} {live : Expr → Walk α}
  {P : α → Prop}

theorem Context.expr_succ (ctx : Context) (depth : Nat) (n : NodeId) (s : State) :
    (ctx.evaluators (depth + 1)).expr n s =
      ctx.tree.visit n s (.empty, s) ((ctx.evaluators depth).exprOf ctx n s) := rfl

theorem Context.cond_succ (ctx : Context) (depth : Nat) (n : NodeId) (s : State) :
    (ctx.evaluators (depth + 1)).cond n s =
      ctx.tree.visit n s .dead ((ctx.evaluators depth).condOf ctx n s) := rfl

namespace Tree

theorem visit_of_dead (hs : s.unreachable = true) : t.visit n s dead live = pure dead :=
  if_pos hs

theorem visit_of_ok (hs : s.unreachable = false) {e : Expr} (he : t.expr n = .ok e) :
    t.visit n s dead live = live e := by
  unfold visit
  rw [if_neg (by simp [hs]), he]
  rfl

theorem visit_of_error (hs : s.unreachable = false) {e : TreeError} (he : t.expr n = .error e) :
    t.visit n s dead live = throw (.malformed e) := by
  unfold visit
  rw [if_neg (by simp [hs]), he]
  rfl

theorem visit_eq_ok (hs : s.unreachable = false) {σ τ : Session}
    (h : t.visit n s dead live σ = .ok a τ) : ∃ e, t.expr n = .ok e ∧ live e σ = .ok a τ := by
  cases he : t.expr n with
  | error e =>
    rw [visit_of_error hs he] at h
    cases h
  | ok e =>
    rw [visit_of_ok hs he] at h
    exact ⟨e, rfl, h⟩

theorem ensures_visit (hdead : P dead)
    (hlive : s.unreachable = false → ∀ e, t.expr n = .ok e → (live e).Ensures P) :
    (t.visit n s dead live).Ensures P := by
  cases hs : s.unreachable with
  | true =>
    rw [visit_of_dead hs]
    exact Walk.ensures_pure hdead
  | false =>
    intro σ a τ h
    obtain ⟨e, he, h⟩ := visit_eq_ok hs h
    exact hlive hs e he σ a τ h

end Tree

end Visit

-- An equation between functions: once the arguments are there, checking it would go down all the
-- levels of the walk.
theorem Context.run_def : @Context.run = fun ctx body initial σ =>
    match (ctx.evaluators ctx.depthBound).stmt body initial σ with
    | .ok final τ =>
      .ok ⟨final, τ.returns.merge final, τ.report,
        (Entry.finished τ.report.size :: τ.history).reverse⟩
    | .error halt _ => .error halt := rfl

/-- Whatever the settings, the analysis of a method fails for want of a body or a declaration, or
is a run from the entry state. -/
theorem Tree.analyzeMethod_eq (t : Tree) (m : MethodId) :
    (∃ e, ∀ settings, t.analyzeMethod settings m = .error e) ∨
    ∃ method body initial, t.entryState method = .ok initial ∧
      ∀ settings, t.analyzeMethod settings m =
        Context.run ⟨t, settings, some method.returnType, method.returnContracts⟩ body initial
          (Session.note (.analyzing method.name method.params.length) {}) := by
  unfold Tree.analyzeMethod
  simp only [bind, Except.bind]
  cases t.method m with
  | error e => exact .inl ⟨.malformed e, fun _ => rfl⟩
  | ok method =>
    have hmethod : (Except.ok method).mapError Halt.malformed = .ok method := rfl
    simp only [hmethod]
    cases method.body with
    | none => exact .inl ⟨.malformed (.noBody m), fun _ => rfl⟩
    | some body =>
      cases hentry : t.entryState method with
      | error e => exact .inl ⟨.malformed e, fun _ => rfl⟩
      | ok initial => exact .inr ⟨method, body, initial, hentry, fun _ => rfl⟩

/-- The nodes a walk may reach, statements with the frames around them. -/
structure Places where
  expr : NodeId → Prop
  stmt : List FrameKind → NodeId → Prop

namespace Simulation

variable (S : Simulation)

def left : Context := ⟨S.tree, S.leftSettings, S.returnType, S.returnContracts⟩

def right : Context := ⟨S.tree, S.rightSettings, S.returnType, S.returnContracts⟩

@[simp] theorem left_tree : S.left.tree = S.tree := rfl

@[simp] theorem right_tree : S.right.tree = S.tree := rfl

@[simp] theorem left_returnType : S.left.returnType = S.returnType := rfl

@[simp] theorem right_returnType : S.right.returnType = S.returnType := rfl

def Agree {α : Type} (ks : List FrameKind) (k : Nat) (Q : α → Prop) :
    EStateM.Result Halt Session α → EStateM.Result Halt Session α → Prop
  | .ok a σ, .ok b τ => a = b ∧ Q a ∧ S.session ks k σ τ
  | .error e σ, .error e' τ => e = e' ∧ S.halt e ∧ S.session ks k σ τ
  | _, _ => False

/-- Two steps agree from any two sessions in step. -/
def InStep {α : Type} (ks : List FrameKind) (Q : α → Prop) (m m' : Walk α) : Prop :=
  ∀ k σ τ, S.session ks k σ τ → S.Agree ks k Q (m σ) (m' τ)

def Valued (a : Value × State) : Prop := S.value a.1 ∧ S.state a.2

def ListValued (a : List Value × State) : Prop := (∀ v ∈ a.1, S.value v) ∧ S.state a.2

def Split (b : Branches) : Prop := S.state b.whenTrue ∧ S.state b.whenFalse

def Passed (p : Pass) : Prop := S.state p.back ∧ S.state p.exit

def Framed (a : State × Frame) : Prop := S.state a.1 ∧ S.state a.2.breaks ∧ S.state a.2.continues

structure Related (N : Places) (below below' : Evaluators) : Prop where
  expr {n : NodeId} {s : State} (ks : List FrameKind) (hn : N.expr n) (hs : S.state s) :
    S.InStep ks S.Valued (below.expr n s) (below'.expr n s)
  cond {n : NodeId} {s : State} (ks : List FrameKind) (hn : N.expr n) (hs : S.state s) :
    S.InStep ks S.Split (below.cond n s) (below'.cond n s)
  stmt {n : NodeId} {s : State} {ks : List FrameKind} (hn : N.stmt ks n) (hs : S.state s) :
    S.InStep ks S.state (below.stmt n s) (below'.stmt n s)

/-- What the operations on values keep. -/
structure ValueLaws (value : Value → Prop) : Prop where
  any : value .any
  empty : value .empty
  integer (i : Interval) : value (.integer i)
  object (nullable : Bool) : value (.object nullable)
  ofFlags (t f : Bool) : value (.ofFlags t f)
  arrayOf (i : Interval) : value (.arrayOf i false)
  initialValue (ty : Ty) (contracts : List Contract) : value (ty.initialValue contracts)
  merge {a b : Value} : value a → value b → value (a.merge b)
  arith (op : Arith) {a b : Value} : value a → value b → value (a.arith op b).value
  negate {v : Value} : value v → value v.negate.value
  promote {v : Value} : value v → value v.promote.value
  complement {v : Value} : value v → value v.complement.value
  withNullable (nullable : Bool) {v : Value} : value v → value (v.withNullable nullable)
  withLength (length : Option Interval) {v : Value} : value v → value (v.withLength length)
  restrict (rel : Relation) {a b : Value} : value a → value b → value (a.restrict rel b)
  convert (ty : Ty) (policy : Overflow) {v : Value} : value v → value (ty.convert policy v).value

/-- What the operations on states keep. -/
structure StateLaws (value : Value → Prop) (state : State → Prop) (decl : DeclId → Prop) :
    Prop where
  lookup {s : State} {d : DeclId} {v : Value} : state s → s.lookup d = some v → value v
  dead : state .dead
  kill {s : State} : state s → state s.kill
  set {s : State} {d : DeclId} {v : Value} : state s → decl d → value v → state (s.set d v)
  merge {s s' : State} : state s → state s' → state (s.merge s')
  intersect {s s' : State} : state s → state s' → state (s.intersect s')

def Keeps (f g : Session → Session) : Prop :=
  ∀ ks k σ τ, S.session ks k σ τ → S.session ks k (f σ) (g τ)

/-- What the effects of a step keep between the sessions. -/
structure SessionLaws : Prop where
  find (n : NodeId) (f : Finding) (hf : f.isOptional = false) :
    S.Keeps (Session.find n · f) (Session.find n · f)
  unboxing (n : NodeId) (o : Outcome) :
    S.Keeps (fun σ => (S.left.unboxingFindings o).foldl (Session.find n) σ)
      (fun τ => (S.right.unboxingFindings o).foldl (Session.find n) τ)
  deref (n target : NodeId) (v : Value) :
    S.Keeps (fun σ => (S.left.derefFindings target v).foldl (Session.find n) σ)
      (fun τ => (S.right.derefFindings target v).foldl (Session.find n) τ)
  dead (n : NodeId) (stmt : Stmt) :
    S.Keeps (fun σ => (S.left.deadFindings stmt).foldl (Session.find n) σ)
      (fun τ => (S.right.deadFindings stmt).foldl (Session.find n) τ)
  entered (n : NodeId) {s : State} (hs : S.state s) :
    S.Keeps (·.trace (.entered n s)) (·.trace (.entered n s))
  left (n : NodeId) {s : State} (hs : S.state s) :
    S.Keeps (·.trace (.left n s)) (·.trace (.left n s))
  returning {s : State} (hs : S.state s) :
    S.Keeps (fun σ => { σ with returns := σ.returns.merge s })
      (fun τ => { τ with returns := τ.returns.merge s })
  enter (kind : FrameKind) {ks : List FrameKind} {k : Nat} {σ τ : Session} :
    S.session ks k σ τ → S.session (kind :: ks) k (σ.enterFrame kind) (τ.enterFrame kind)
  leave {kind : FrameKind} {ks : List FrameKind} {k : Nat} {σ τ : Session} :
    S.session (kind :: ks) k σ τ → S.session ks k σ.leaveFrame τ.leaveFrame
  gathered {kind : FrameKind} {ks : List FrameKind} {k : Nat} {σ τ : Session} :
    S.session (kind :: ks) k σ τ → ∃ f rest rest', σ.frames = f :: rest ∧ τ.frames = f :: rest' ∧
      S.state f.breaks ∧ S.state f.continues

/-- A jump finds its frame in both sessions or in neither. -/
def Routed (ks : List FrameKind) (n : NodeId) (route : List Frame → Option (List Frame)) : Prop :=
  ∀ k σ τ, S.session ks k σ τ →
    (∃ fs gs, route σ.frames = some fs ∧ route τ.frames = some gs ∧
      S.session ks k { σ with frames := fs } { τ with frames := gs }) ∨
    (route σ.frames = none ∧ route τ.frames = none ∧ S.halt (.malformed (.strayJump n)))

/-- What the nodes of `N` mention, and the failures they may cause. -/
structure PlaceLaws (N : Places) : Prop where
  expr_error {n : NodeId} {e : TreeError} :
    N.expr n → S.tree.expr n = .error e → S.halt (.malformed e)
  stmt_error {ks : List FrameKind} {n : NodeId} {e : TreeError} :
    N.stmt ks n → S.tree.stmt n = .error e → S.halt (.malformed e)
  decl_error {d : DeclId} {e : TreeError} :
    S.decl d → S.tree.decl d = .error e → S.halt (.malformed e)
  call_error {n : NodeId} {m : MethodId} {target : Option NodeId} {args : List NodeId}
    {e : TreeError} : N.expr n → S.tree.expr n = .ok (.call (some m) target args) →
      S.tree.method m = .error e → S.halt (.malformed e)
  param_error {n : NodeId} {m : MethodId} {target : Option NodeId} {args : List NodeId}
    {callee : Method} {d : DeclId} {e : TreeError} :
    N.expr n → S.tree.expr n = .ok (.call (some m) target args) →
      S.tree.method m = .ok callee → d ∈ callee.params → S.tree.decl d = .error e →
      S.halt (.malformed e)
  name {n : NodeId} {d : DeclId} : N.expr n → S.tree.expr n = .ok (.name d) → S.decl d
  field {n : NodeId} {target : Option NodeId} {d : DeclId} :
    N.expr n → S.tree.expr n = .ok (.field target d) → S.decl d
  declare {ks : List FrameKind} {n : NodeId} {d : DeclId} {init : Option NodeId} :
    N.stmt ks n → S.tree.stmt n = .ok (.declare d init) → S.decl d
  literal {n : NodeId} {l : Literal} :
    N.expr n → S.tree.expr n = .ok (.literal l) → S.value l.value
  label {ks : List FrameKind} {n selector : NodeId} {cases : List Case} {c : Case} {l : Literal} :
    N.stmt ks n → S.tree.stmt n = .ok (.switch selector cases) → c ∈ cases → l ∈ c.labels →
      S.value l.value
  breakOut {ks : List FrameKind} {n : NodeId} {s : State} :
    N.stmt ks n → S.tree.stmt n = .ok .breakOut → S.state s → S.Routed ks n (Frame.addBreak s)
  continueLoop {ks : List FrameKind} {n : NodeId} {s : State} :
    N.stmt ks n → S.tree.stmt n = .ok .continueLoop → S.state s →
      S.Routed ks n (Frame.addContinue s)

/-- A loop keeps what its passes keep. -/
def LoopLaw : Prop :=
  ∀ (ks : List FrameKind) (n : NodeId) (pass pass' : State → Walk Pass) (entry : State),
    (∀ head, S.state head → head.unreachable = false →
      S.InStep ks S.Passed (pass head) (pass' head)) →
    S.state entry → entry.unreachable = false →
    S.InStep ks S.state (S.left.loop n pass entry) (S.right.loop n pass' entry)

end Simulation

namespace Stmt

def exprs : Stmt → List NodeId
  | declare _ init => init.toList
  | expr e | throw e => [e]
  | branch c _ _ | whileLoop c _ | doLoop _ c => [c]
  | forLoop _ c update _ => c.toList ++ update
  | switch selector _ => [selector]
  | ret value => value.toList
  | _ => []

/-- The statements that stand in the same frames as the statement itself. -/
def plain : Stmt → List NodeId
  | block body => body
  | branch _ t f => t :: f.toList
  | forLoop init _ _ _ => init
  | _ => []

/-- The statements that stand in a frame of the statement's own. -/
def framed : Stmt → List (FrameKind × NodeId)
  | whileLoop _ b | doLoop b _ | forLoop _ _ _ b => [(.loop, b)]
  | switch _ cases => (cases.flatMap (·.body)).map (.switch, ·)
  | _ => []

end Stmt

structure Places.Over (N' N : Places) (t : Tree) : Prop where
  child {n c : NodeId} {e : Expr} :
    N'.expr n → t.expr n = .ok e → c ∈ e.children → N.expr c
  grandchild {n c b : NodeId} {e e' : Expr} :
    N'.expr n → t.expr n = .ok e → c ∈ e.children → t.expr c = .ok e' → b ∈ e'.children → N.expr b
  part {ks : List FrameKind} {n c : NodeId} {st : Stmt} :
    N'.stmt ks n → t.stmt n = .ok st → c ∈ st.exprs → N.expr c
  inner {ks : List FrameKind} {n c : NodeId} {st : Stmt} :
    N'.stmt ks n → t.stmt n = .ok st → c ∈ st.plain → N.stmt ks c
  body {ks : List FrameKind} {n c : NodeId} {st : Stmt} {kind : FrameKind} :
    N'.stmt ks n → t.stmt n = .ok st → (kind, c) ∈ st.framed → N.stmt (kind :: ks) c

namespace Simulation

/-- All laws, for a walk over the nodes of `N'` that evaluates those of `N` below them. -/
structure Laws (S : Simulation) (N' N : Places) : Prop where
  value : ValueLaws S.value
  state : StateLaws S.value S.state S.decl
  session : S.SessionLaws
  loop : S.LoopLaw
  here : S.PlaceLaws N'
  below : S.PlaceLaws N
  down : N'.Over N S.tree

variable {S : Simulation} {α β : Type} {ks : List FrameKind} {Q : α → Prop} {Q' : β → Prop}

theorem inStep_pure {a : α} (ha : Q a) : S.InStep ks Q (pure a) (pure a) :=
  fun _ _ _ h => ⟨rfl, ha, h⟩

theorem inStep_throw {e : Halt} (he : S.halt e) : S.InStep ks Q (throw e) (throw e) :=
  fun _ _ _ h => ⟨rfl, he, h⟩

theorem InStep.bind {m m' : Walk α} {f f' : α → Walk β} (h : S.InStep ks Q m m')
    (hf : ∀ a, Q a → S.InStep ks Q' (f a) (f' a)) : S.InStep ks Q' (m >>= f) (m' >>= f') := by
  intro k σ τ hστ
  have hm := h k σ τ hστ
  show S.Agree ks k Q' (EStateM.bind m f σ) (EStateM.bind m' f' τ)
  unfold EStateM.bind
  cases hl : m σ with
  | ok a σ' =>
    cases hr : m' τ with
    | ok b τ' =>
      rw [hl, hr] at hm
      obtain ⟨rfl, ha, hστ'⟩ := hm
      exact hf a ha k σ' τ' hστ'
    | error e τ' => rw [hl, hr] at hm; exact hm.elim
  | error e σ' =>
    cases hr : m' τ with
    | ok b τ' => rw [hl, hr] at hm; exact hm.elim
    | error e' τ' => rw [hl, hr] at hm; exact hm

theorem inStep_require {x : Except TreeError α} (hok : ∀ a, x = .ok a → Q a)
    (herror : ∀ e, x = .error e → S.halt (.malformed e)) :
    S.InStep ks Q (Walk.require x) (Walk.require x) := by
  cases x with
  | ok a => exact inStep_pure (hok a rfl)
  | error e => exact inStep_throw (herror e rfl)

theorem inStep_visit {n : NodeId} {s : State} {dead : α} {live live' : Expr → Walk α}
    (hdead : Q dead) (herror : ∀ e, S.tree.expr n = .error e → S.halt (.malformed e))
    (hlive : ∀ e, S.tree.expr n = .ok e → S.InStep ks Q (live e) (live' e)) :
    S.InStep ks Q (S.tree.visit n s dead live) (S.tree.visit n s dead live') := by
  unfold Tree.visit
  split
  · exact inStep_pure hdead
  · exact (inStep_require (fun _ he => he) herror).bind hlive

theorem inStep_modify {f g : Session → Session} (h : S.Keeps f g) :
    S.InStep ks (fun _ => True) (modify f : Walk Unit) (modify g) :=
  fun k σ τ hστ => ⟨rfl, trivial, h ks k σ τ hστ⟩

theorem Keeps.foldl_find (h : S.SessionLaws) (n : NodeId) {fs : List Finding}
    (hfs : ∀ f ∈ fs, f.isOptional = false) :
    S.Keeps (fun σ => fs.foldl (Session.find n) σ) (fun τ => fs.foldl (Session.find n) τ) := by
  induction fs with
  | nil => exact fun _ _ _ _ hστ => hστ
  | cons f fs ih =>
    have hrest := ih fun g hg => hfs g (List.mem_cons_of_mem _ hg)
    exact fun ks k σ τ hστ => hrest ks k _ _ (h.find n f (hfs f (by simp)) ks k σ τ hστ)

theorem inStep_report (h : S.SessionLaws) (n : NodeId) {fs : List Finding}
    (hfs : ∀ f ∈ fs, f.isOptional = false) :
    S.InStep ks (fun _ => True) (Walk.report n fs) (Walk.report n fs) :=
  inStep_modify (Keeps.foldl_find h n hfs)

theorem inStep_jump {n : NodeId} {route : List Frame → Option (List Frame)}
    (hdead : S.state .dead) (h : S.Routed ks n route) :
    S.InStep ks S.state (Walk.jump n route) (Walk.jump n route) := by
  intro k σ τ hστ
  unfold Walk.jump
  rcases h k σ τ hστ with ⟨fs, gs, hσ, hτ, hr⟩ | ⟨hσ, hτ, hr⟩
  · rw [hσ, hτ]
    exact ⟨rfl, hdead, hr⟩
  · rw [hσ, hτ]
    exact ⟨rfl, hr, hστ⟩

theorem inStep_framed (h : S.SessionLaws) {kind : FrameKind} {m m' : Walk State}
    (hm : S.InStep (kind :: ks) S.state m m') :
    S.InStep ks S.Framed (Walk.framed kind m) (Walk.framed kind m') := by
  intro k σ τ hστ
  have hbody := hm k _ _ (h.enter kind hστ)
  unfold Walk.framed
  cases hl : m (σ.enterFrame kind) <;> cases hr : m' (τ.enterFrame kind) <;> rw [hl, hr] at hbody
  · obtain ⟨rfl, ha, hσ'⟩ := hbody
    obtain ⟨f, rest, rest', hf, hf', hbreaks, hcontinues⟩ := h.gathered hσ'
    simp only [hf, hf', List.headD_cons]
    exact ⟨rfl, ⟨ha, hbreaks, hcontinues⟩, h.leave hσ'⟩
  · exact hbody.elim
  · exact hbody.elim
  · exact ⟨hbody.1, hbody.2.1, h.leave hbody.2.2⟩

end Simulation

end ValueFlow

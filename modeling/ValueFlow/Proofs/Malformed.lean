import ValueFlow.Proofs.Muting
import ValueFlow.Proofs.Shape

namespace ValueFlow

namespace Tree

/-- The statements that a walk of `root` may reach, with the loop bodies and switches around them,
innermost first. -/
inductive StmtAt (t : Tree) (root : NodeId) : List FrameKind → NodeId → Prop
  | root : t.StmtAt root [] root
  | plain {ks : List FrameKind} {n c : NodeId} {st : Stmt} : t.StmtAt root ks n →
      t.stmt n = .ok st → c ∈ st.plain → t.StmtAt root ks c
  | framed {ks : List FrameKind} {n c : NodeId} {st : Stmt} {kind : FrameKind} :
      t.StmtAt root ks n → t.stmt n = .ok st → (kind, c) ∈ st.framed → t.StmtAt root (kind :: ks) c

inductive ExprAt (t : Tree) (root : NodeId) : NodeId → Prop
  | part {ks : List FrameKind} {n c : NodeId} {st : Stmt} : t.StmtAt root ks n →
      t.stmt n = .ok st → c ∈ st.exprs → t.ExprAt root c
  | child {n c : NodeId} {e : Expr} : t.ExprAt root n → t.expr n = .ok e → c ∈ e.children →
      t.ExprAt root c

def Calls (t : Tree) (root : NodeId) (m : MethodId) : Prop :=
  ∃ n receiver args, t.ExprAt root n ∧ t.expr n = .ok (.call (some m) receiver args)

/-- A declaration that is named somewhere, or is a parameter of a method that is called. -/
inductive Names (t : Tree) (root : NodeId) (d : DeclId) : Prop
  | inExpr {n : NodeId} {e : Expr} : t.ExprAt root n → t.expr n = .ok e →
      (Node.expr e).decl? = some d → t.Names root d
  | inStmt {ks : List FrameKind} {n : NodeId} {st : Stmt} : t.StmtAt root ks n →
      t.stmt n = .ok st → (Node.stmt st).decl? = some d → t.Names root d
  | param {m : MethodId} {callee : Method} : t.Calls root m → t.method m = .ok callee →
      d ∈ callee.params → t.Names root d

/-- Everything that a walk of `root` may reach is there, of the sort that its place asks for, and
every jump has a target. -/
structure WellFormedFrom (t : Tree) (root : NodeId) : Prop where
  stmt {ks : List FrameKind} {n : NodeId} : t.StmtAt root ks n → ∃ st, t.node n = .ok (.stmt st)
  expr {n : NodeId} : t.ExprAt root n → ∃ e, t.node n = .ok (.expr e)
  decl {d : DeclId} : t.Names root d → d.index < t.decls.size
  method {m : MethodId} : t.Calls root m → m.index < t.methods.size
  breakOut {ks : List FrameKind} {n : NodeId} :
    t.StmtAt root ks n → t.node n = .ok (.stmt .breakOut) → ks ≠ []
  continueLoop {ks : List FrameKind} {n : NodeId} :
    t.StmtAt root ks n → t.node n = .ok (.stmt .continueLoop) → .loop ∈ ks

/-- The error names something that a walk of `root` may reach, and what is wrong with it. -/
inductive Blames (t : Tree) (root : NodeId) : TreeError → Prop
  | noStmt {ks : List FrameKind} {n : NodeId} : t.StmtAt root ks n → t.nodes.size ≤ n.index →
      t.Blames root (.unknownNode n)
  | noExpr {n : NodeId} : t.ExprAt root n → t.nodes.size ≤ n.index → t.Blames root (.unknownNode n)
  | notStatement {ks : List FrameKind} {n : NodeId} {e : Expr} : t.StmtAt root ks n →
      t.node n = .ok (.expr e) → t.Blames root (.notStatement n)
  | notExpression {n : NodeId} {st : Stmt} : t.ExprAt root n → t.node n = .ok (.stmt st) →
      t.Blames root (.notExpression n)
  | unknownDecl {d : DeclId} : t.Names root d → t.decls.size ≤ d.index →
      t.Blames root (.unknownDecl d)
  | unknownMethod {m : MethodId} : t.Calls root m → t.methods.size ≤ m.index →
      t.Blames root (.unknownMethod m)
  | strayBreak {n : NodeId} : t.StmtAt root [] n → t.node n = .ok (.stmt .breakOut) →
      t.Blames root (.strayJump n)
  | strayContinue {ks : List FrameKind} {n : NodeId} : t.StmtAt root ks n →
      t.node n = .ok (.stmt .continueLoop) → .loop ∉ ks → t.Blames root (.strayJump n)

variable {t : Tree} {root n : NodeId} {e : TreeError}

theorem node_eq_error (h : t.node n = .error e) : e = .unknownNode n ∧ t.nodes.size ≤ n.index := by
  unfold Tree.node at h
  split at h
  · cases h
  · rename_i hnone
    cases h
    exact ⟨rfl, Array.getElem?_eq_none_iff.1 hnone⟩

theorem Blames.of_stmt {ks : List FrameKind} (hn : t.StmtAt root ks n) (h : t.stmt n = .error e) :
    t.Blames root e := by
  unfold Tree.stmt at h
  split at h
  · cases h
  · rename_i he
    cases h
    exact .notStatement hn he
  · rename_i he
    cases h
    obtain ⟨rfl, hsize⟩ := node_eq_error he
    exact .noStmt hn hsize

theorem Blames.of_expr (hn : t.ExprAt root n) (h : t.expr n = .error e) : t.Blames root e := by
  unfold Tree.expr at h
  split at h
  · cases h
  · rename_i hs
    cases h
    exact .notExpression hn hs
  · rename_i he
    cases h
    obtain ⟨rfl, hsize⟩ := node_eq_error he
    exact .noExpr hn hsize

theorem Blames.of_decl {d : DeclId} (hd : t.Names root d) (h : t.decl d = .error e) :
    t.Blames root e := by
  unfold Tree.decl at h
  split at h
  · cases h
  · rename_i hnone
    cases h
    exact .unknownDecl hd (Array.getElem?_eq_none_iff.1 hnone)

theorem Blames.of_method {m : MethodId} (hm : t.Calls root m) (h : t.method m = .error e) :
    t.Blames root e := by
  unfold Tree.method at h
  split at h
  · cases h
  · rename_i hnone
    cases h
    exact .unknownMethod hm (Array.getElem?_eq_none_iff.1 hnone)

theorem WellFormedFrom.not_blames (h : t.WellFormedFrom root) : ¬ t.Blames root e := by
  intro hblames
  cases hblames with
  | noStmt hn hsize =>
    obtain ⟨st, hst⟩ := h.stmt hn
    exact absurd (index_lt_of_node hst) (Nat.not_lt.2 hsize)
  | noExpr hn hsize =>
    obtain ⟨e, he⟩ := h.expr hn
    exact absurd (index_lt_of_node he) (Nat.not_lt.2 hsize)
  | notStatement hn he =>
    obtain ⟨st, hst⟩ := h.stmt hn
    cases hst.symm.trans he
  | notExpression hn hs =>
    obtain ⟨e, he⟩ := h.expr hn
    cases he.symm.trans hs
  | unknownDecl hd hsize => exact absurd (h.decl hd) (Nat.not_lt.2 hsize)
  | unknownMethod hm hsize => exact absurd (h.method hm) (Nat.not_lt.2 hsize)
  | strayBreak hn hs => exact h.breakOut hn hs rfl
  | strayContinue hn hs hloop => exact hloop (h.continueLoop hn hs)

/-- The places that a walk of `root` may reach. -/
def placesFrom (t : Tree) (root : NodeId) : Places := ⟨t.ExprAt root, t.StmtAt root⟩

theorem placesFrom_over (t : Tree) (root : NodeId) :
    (t.placesFrom root).Over (t.placesFrom root) t where
  child hn he hc := .child hn he hc
  grandchild hn he hc he' hb := .child (.child hn he hc) he' hb
  part hn hs hc := .part hn hs hc
  inner hn hs hc := .plain hn hs hc
  body hn hs hc := .framed hn hs hc

/-- The nodes whose walks go down less than `depth` levels. -/
def placesWithin (t : Tree) (depth : Nat) : Places := ⟨t.Within depth, fun _ => t.Within depth⟩

theorem placesWithin_ladder (t : Tree) : Places.Ladder t.placesWithin t := by
  have hnone : ∀ n, ¬ t.Within 0 n := fun _ h => nomatch h
  refine ⟨hnone, fun _ => hnone, fun depth => ?_⟩
  have hchild : ∀ {n c : NodeId} {node : Node}, t.Within (depth + 1) n → t.node n = .ok node →
      c ∈ node.children → t.Within depth c := fun h hn hc => h.child ⟨_, hn, hc⟩
  constructor
  · exact fun hn he hc => hchild hn (node_of_expr he) hc
  · intro n c b e e' hn he hc he' hb
    -- a grandchild has one level more to spare
    exact hchild (hchild hn (node_of_expr he) hc).succ (node_of_expr he') hb
  · exact fun hn hs hc => hchild hn (node_of_stmt hs) (Stmt.mem_children_of_exprs hc)
  · exact fun hn hs hc => hchild hn (node_of_stmt hs) (Stmt.mem_children_of_plain hc)
  · exact fun hn hs hc => hchild hn (node_of_stmt hs) (Stmt.mem_children_of_framed hc)

end Tree

theorem Frame.addContinue_eq_none {s : State} {fs : List Frame} (h : addContinue s fs = none) :
    FrameKind.loop ∉ fs.map (·.kind) := by
  induction fs with
  | nil => simp
  | cons f fs ih =>
    unfold addContinue at h
    split at h
    · cases h
    · rename_i hkind
      have hrest := ih (Option.map_eq_none_iff.1 h)
      rw [List.map_cons, hkind, List.mem_cons, not_or]
      exact ⟨by simp, hrest⟩

namespace Context

variable (ctx : Context) {root : NodeId}

/-- The walk ran out of a bound, or found fault with the tree. -/
def Faults (root : NodeId) : Halt → Prop
  | .malformed e => ctx.tree.Blames root e
  | .exhausted => True

def blaming (root : NodeId) : Simulation :=
  ctx.beside (Session.Shadows {}) (ctx.tree.Names root) (ctx.Faults root)

theorem routed_blaming {ks : List FrameKind} {n : NodeId}
    {route : List Frame → Option (List Frame)}
    (hstray : ∀ fs, fs.map (·.kind) = ks → route fs = none →
      ctx.tree.Blames root (.strayJump n))
    (h : Frame.Routes (fun fs gs => fs = gs ∧ fs.map (·.kind) = ks ++ []) route) :
    (ctx.blaming root).Routed ks n route :=
  ctx.routed_shadows {} (fun fs hkinds => hstray fs (hkinds.trans ks.append_nil)) h

theorem placeLaws_blaming : (ctx.blaming root).PlaceLaws (ctx.tree.placesFrom root) where
  expr_error hn he := .of_expr hn he
  stmt_error hn hs := .of_stmt hn hs
  decl_error hd he := .of_decl hd he
  call_error hn he hm := .of_method ⟨_, _, _, hn, he⟩ hm
  param_error hn he hm hd hdecl := .of_decl (.param ⟨_, _, _, hn, he⟩ hm hd) hdecl
  name hn he := .inExpr hn he rfl
  field hn he := .inExpr hn he rfl
  declare hn hs := .inStmt hn hs rfl
  literal _ _ := trivial
  label _ _ _ _ := trivial
  breakOut {ks n s} hn hs _ := by
    refine ctx.routed_blaming (fun fs hkinds hnone => ?_) Frame.routes_addBreak_same
    cases fs with
    | nil =>
      subst hkinds
      exact .strayBreak hn (Tree.node_of_stmt hs)
    | cons f fs => cases hnone
  continueLoop {ks n s} hn hs _ := by
    refine ctx.routed_blaming (fun fs hkinds hnone => ?_) Frame.routes_addContinue_same
    have hloop := Frame.addContinue_eq_none hnone
    rw [hkinds] at hloop
    exact .strayContinue hn (Tree.node_of_stmt hs) hloop

theorem laws_blaming (root : NodeId) :
    (ctx.blaming root).Laws (ctx.tree.placesFrom root) (ctx.tree.placesFrom root) :=
  ctx.laws_beside (Session.stable_shadows {}) trivial ctx.placeLaws_blaming ctx.placeLaws_blaming
    (ctx.tree.placesFrom_over root)

/-- A walk that fails blames a place below its root, or runs out of a bound. -/
theorem stmt_faults (depth : Nat) {initial : State} {halt : Halt} {τ : Session}
    (h : (ctx.evaluators depth).stmt root initial {} = .error halt τ) : ctx.Faults root halt := by
  have hrelated : (ctx.blaming root).Related (ctx.tree.placesFrom root) (ctx.evaluators depth)
      (ctx.evaluators depth) :=
    Simulation.related_evaluators (ctx.laws_blaming root) trivial depth
  -- the right-hand walk is the same one: only the law about failures is of use here
  have hagree := hrelated.stmt (s := initial) Tree.StmtAt.root trivial 0 {} {}
    ⟨rfl, rfl, rfl, rfl, fun _ => ⟨rfl, rfl⟩⟩
  rw [h] at hagree
  exact hagree.2.1

theorem run_ne_exhausted_of_acyclic (h : ctx.tree.Acyclic) (body : NodeId) (initial : State) :
    ctx.run body initial {} ≠ .error .exhausted := by
  have hdepth : ctx.tree.size + 1 ≤ ctx.depthBound := by
    unfold depthBound
    omega
  have hbody : (ctx.tree.placesWithin ctx.depthBound).stmt [] body := (h.within body).mono hdepth
  have hagree := ctx.stmt_settling_of ctx.tree.placesWithin_ladder hbody initial
  exact ctx.run_ne_exhausted (timely_of_agree hagree).1

theorem run_faults {body : NodeId} {initial : State} {halt : Halt}
    (h : ctx.run body initial {} = .error halt) : ctx.Faults body halt := by
  rw [run_def] at h
  dsimp only at h
  cases hr : (ctx.evaluators ctx.depthBound).stmt body initial {} with
  | ok final τ =>
    rw [hr] at h
    cases h
  | error halt' τ =>
    rw [hr] at h
    cases h
    exact ctx.stmt_faults ctx.depthBound hr

end Context

/-- The analysis of a tree without cycles answers if everything that it may reach is well-formed,
whatever the initial state tracks. If it fails, then because of an error that names what it reached
and is out of its table, of the wrong sort, or a jump without a target. -/
theorem analysis_fails_for_malformed_trees_only (t : Tree) (hacyclic : t.Acyclic)
    (settings : Settings) (body : NodeId) (initial : State) :
    (t.WellFormedFrom body → ∃ r, t.analyze settings body initial = .ok r) ∧
      ∀ halt, t.analyze settings body initial = .error halt →
        ∃ e, halt = .malformed e ∧ t.Blames body e := by
  have hblames : ∀ halt, t.analyze settings body initial = .error halt →
      ∃ e, halt = .malformed e ∧ t.Blames body e := by
    intro halt h
    have hfaults := (t.context settings).run_faults h
    cases halt with
    | malformed e => exact ⟨e, rfl, hfaults⟩
    | exhausted =>
      exact absurd h ((t.context settings).run_ne_exhausted_of_acyclic hacyclic body initial)
  refine ⟨fun hwf => ?_, hblames⟩
  cases hr : t.analyze settings body initial with
  | ok r => exact ⟨r, rfl⟩
  | error halt =>
    obtain ⟨e, -, he⟩ := hblames halt hr
    exact absurd he hwf.not_blames

def breakingLoop : Tree where
  nodes := #[.stmt .breakOut, .expr (.literal (.bool true)), .stmt (.whileLoop ⟨1⟩ ⟨0⟩)]

def breakingLoop.start : State := State.initial.set ⟨7⟩ .any

theorem breakingLoop_wellFormed : breakingLoop.WellFormedFrom ⟨2⟩ := by
  have hstmt : ∀ {ks n}, breakingLoop.StmtAt ⟨2⟩ ks n →
      (ks = [] ∧ n = ⟨2⟩) ∨ (ks = [.loop] ∧ n = ⟨0⟩) := by
    intro ks n h
    induction h with
    | root => exact .inl ⟨rfl, rfl⟩
    | plain _ hs hc ih =>
      rcases ih with ⟨rfl, rfl⟩ | ⟨rfl, rfl⟩ <;> cases hs <;> cases hc
    | framed _ hs hc ih =>
      rcases ih with ⟨rfl, rfl⟩ | ⟨rfl, rfl⟩ <;> cases hs
      · obtain ⟨rfl, rfl⟩ := Prod.mk.inj (List.mem_singleton.1 hc)
        exact .inr ⟨rfl, rfl⟩
      · cases hc
  have hexpr : ∀ {n}, breakingLoop.ExprAt ⟨2⟩ n → n = ⟨1⟩ := by
    intro n h
    induction h with
    | part hn hs hc =>
      rcases hstmt hn with ⟨rfl, rfl⟩ | ⟨rfl, rfl⟩ <;> cases hs
      · exact List.mem_singleton.1 hc
      · cases hc
    | child _ he hc ih =>
      subst ih
      cases he
      cases hc
  have hcalls : ∀ {m}, ¬ breakingLoop.Calls ⟨2⟩ m := by
    rintro m ⟨n, receiver, args, hn, he⟩
    obtain rfl := hexpr hn
    cases he
  constructor
  · intro ks n hn
    rcases hstmt hn with ⟨rfl, rfl⟩ | ⟨rfl, rfl⟩ <;> exact ⟨_, rfl⟩
  · intro n hn
    obtain rfl := hexpr hn
    exact ⟨_, rfl⟩
  · intro d hd
    cases hd with
    | inExpr hn he hd =>
      obtain rfl := hexpr hn
      cases he
      cases hd
    | inStmt hn hs hd =>
      rcases hstmt hn with ⟨rfl, rfl⟩ | ⟨rfl, rfl⟩ <;> cases hs <;> cases hd
    | param hm _ _ => exact absurd hm hcalls
  · exact fun hm => absurd hm hcalls
  · intro ks n hn hs
    rcases hstmt hn with ⟨rfl, rfl⟩ | ⟨rfl, rfl⟩
    · cases hs
    · simp
  · intro ks n hn hs
    rcases hstmt hn with ⟨rfl, rfl⟩ | ⟨rfl, rfl⟩ <;> cases hs

/-- The loop is analysed; its body by itself is a stray jump. -/
theorem breakingLoop_fails_without_loop : breakingLoop.Acyclic ∧
    (∃ r, breakingLoop.analyze {} ⟨2⟩ breakingLoop.start = .ok r) ∧
    breakingLoop.analyze {} ⟨0⟩ breakingLoop.start = .error (.malformed (.strayJump ⟨0⟩)) ∧
    breakingLoop.Blames ⟨0⟩ (.strayJump ⟨0⟩) := by
  have hdown : breakingLoop.Descending := by decide
  have hanswers := (analysis_fails_for_malformed_trees_only breakingLoop hdown.acyclic {} ⟨2⟩
    breakingLoop.start).1 breakingLoop_wellFormed
  have herror : breakingLoop.analyze {} ⟨0⟩ breakingLoop.start =
      .error (.malformed (.strayJump ⟨0⟩)) := rfl
  obtain ⟨e, he, hblames⟩ := (analysis_fails_for_malformed_trees_only breakingLoop hdown.acyclic {}
    ⟨0⟩ breakingLoop.start).2 _ herror
  cases he
  exact ⟨hdown.acyclic, hanswers, herror, hblames⟩

end ValueFlow

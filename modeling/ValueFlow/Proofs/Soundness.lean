import ValueFlow.Proofs.Soundness.Loop
import ValueFlow.Proofs.Soundness.Switch

namespace ValueFlow

theorem Primitive.mem_anyValue {k : Primitive} {x : Concrete} (h : k.Holds x) :
    x ∈ (Ty.primitive k).anyValue := by
  cases x with
  | number n =>
    obtain ⟨range, hrange, hn⟩ := h
    cases k <;> cases hrange <;> exact ⟨n, hn, rfl⟩
  | bool b =>
    cases h
    cases b
    · exact .inr ⟨rfl, rfl⟩
    · exact .inl ⟨rfl, rfl⟩
  | _ => exact h.elim

namespace Context

variable {ctx : Context} {depth : Nat} {n : NodeId} {s s' s₁ : Store} {x y : Concrete}
  {S S' : State} {σ τ : Session} {run : NodeId → Behaviour} {e : Ending}

section Stmt

variable (ht : ctx.tree.WritesPrimitives) (hexpr : ctx.ExprSound (ctx.evaluators depth))
  (hstmt : ctx.StmtSound run (ctx.evaluators depth)) (hrun : ∀ n, ctx.tree.KeepsTyped (run n))
  (hs : s ∈ S) (htyped : ctx.tree.Typed s) (hS : S.WellFormedWithin lengths)

include hs hS

omit hS in
theorem sound_declare (below : Evaluators) {d : DeclId} {k : Primitive}
    (hd : (ctx.tree.decl d).map Decl.ty = .ok (.primitive k)) (hx : k.Holds x)
    (h : (below.declare ctx d none S).Yields σ S' τ) : s.set d x ∈ S' := by
  obtain ⟨decl, ρ, hrequire, hpure⟩ := Walk.bind_eq_ok.1 h.ok
  obtain ⟨hdecl, rfl⟩ := Walk.require_eq_ok hrequire
  cases hpure
  rw [hdecl] at hd
  have hty : decl.ty = .primitive k := Except.ok.inj hd
  rw [hty]
  exact State.mem_set hs (Primitive.mem_anyValue hx)

include ht hexpr in
theorem sound_init {d : DeclId} {v : NodeId} (hv : Evaluates ctx.tree v s x s₁)
    (hy : ctx.tree.Stores d x y)
    (h : ((ctx.evaluators depth).declare ctx d (some v) S).Yields σ S' τ) : s₁.set d y ∈ S' := by
  obtain ⟨decl, ρ₁, hrequire, hrest₁⟩ := Walk.bind_eq_ok.1 h.ok
  obtain ⟨hdecl, rfl⟩ := Walk.require_eq_ok hrequire
  obtain ⟨⟨w, S₁⟩, ρ₂, hvalue, hrest₂⟩ := Walk.bind_eq_ok.1 hrest₁
  obtain ⟨w', ρ₃, hconvert, hpure⟩ := Walk.bind_eq_ok.1 hrest₂
  cases hpure
  obtain ⟨hw, -, -⟩ := grown_expr ht hS hvalue
  obtain ⟨rfl, hgrows⟩ := ctx.convert_eq_ok hconvert
  obtain ⟨hx, hs₁⟩ := hexpr.expr hv hs hS ⟨h.muted, hvalue, hgrows.clean h.clean⟩
  exact State.mem_set hs₁ (hy.mem_coerce hdecl hw hx)

include ht hexpr hstmt htyped in
theorem sound_branch {c p : NodeId} {q : Option NodeId}
    (hperforms : Performs ctx.tree run (.branch c p q) s e s')
    (h : ((ctx.evaluators depth).branch c p q S).Yields σ S' τ) : τ.Receives S' e s' := by
  obtain ⟨B, ρ₁, hcond, hrest₁⟩ := Walk.bind_eq_ok.1 h.ok
  obtain ⟨out, ρ₂, hleft, hrest₂⟩ := Walk.bind_eq_ok.1 hrest₁
  obtain ⟨hB, hgrows₁⟩ := grown_cond ht hS hcond
  obtain ⟨hout, hgrows₂⟩ := grown_stmt ht (hB true) hleft
  have hmuted₁ : ρ₁.muted = 0 := hgrows₁.muted.trans h.muted
  have hmuted₂ : ρ₂.muted = 0 := hgrows₂.muted.trans hmuted₁
  cases q with
  | none =>
    cases hrest₂
    have hyields : ((ctx.evaluators depth).cond c S).Yields σ B ρ₁ :=
      ⟨h.muted, hcond, hgrows₂.clean h.clean⟩
    cases hperforms with
    | whenTrue hc hp =>
      have hs₁ := hexpr.cond hc hs hS hyields
      have hreceives := hstmt.stmt hp hs₁ (hc.typed htyped) (hB true) ⟨hmuted₁, hleft, h.clean⟩
      exact hreceives.mono (.refl _) fun _ => State.mem_merge_left
    | otherwise hc => exact State.mem_merge_right (hexpr.cond hc hs hS hyields)
  | some q =>
    obtain ⟨other, ρ₃, hright, hpure⟩ := Walk.bind_eq_ok.1 hrest₂
    cases hpure
    obtain ⟨-, hgrows₃⟩ := grown_stmt ht (hB false) hright
    have hclean₂ := hgrows₃.clean h.clean
    have hyields : ((ctx.evaluators depth).cond c S).Yields σ B ρ₁ :=
      ⟨h.muted, hcond, hgrows₂.clean hclean₂⟩
    cases hperforms with
    | whenTrue hc hp =>
      have hs₁ := hexpr.cond hc hs hS hyields
      have hreceives := hstmt.stmt hp hs₁ (hc.typed htyped) (hB true) ⟨hmuted₁, hleft, hclean₂⟩
      exact hreceives.mono hgrows₃ fun _ => State.mem_merge_left
    | whenFalse hc hq =>
      have hs₁ := hexpr.cond hc hs hS hyields
      have hreceives := hstmt.stmt hq hs₁ (hc.typed htyped) (hB false) ⟨hmuted₂, hright, h.clean⟩
      exact hreceives.mono (.refl _) fun _ => State.mem_merge_right

include hexpr in
theorem sound_ret {value : Option NodeId}
    (hperforms : Performs ctx.tree run (.ret value) s e s')
    (h : ((ctx.evaluators depth).ret ctx n value S).Yields σ S' τ) : τ.Receives S' e s' := by
  cases hperforms with
  | ret =>
    cases h.ok
    exact State.mem_merge_right hs
  | retValue hv =>
    obtain ⟨⟨w, S₁⟩, ρ₁, hvalue, hrest₁⟩ := Walk.bind_eq_ok.1 h.ok
    have hconverted : ∃ (w' : Value) (ρ₂ : Session), ρ₁.Grows ρ₂ ∧ (do
        Walk.report n (w'.contractFindings ctx.returnContracts "returned value")
        Walk.returning S₁
        pure State.dead : Walk State) ρ₂ = .ok S' τ := by
      revert hrest₁
      cases ctx.returnType with
      | none => exact fun hrest₁ => ⟨w, ρ₁, .refl _, hrest₁⟩
      | some ty =>
        intro hrest₁
        obtain ⟨w', ρ₂, hconvert, hrest₂⟩ := Walk.bind_eq_ok.1 hrest₁
        exact ⟨w', ρ₂, (ctx.convert_eq_ok hconvert).2, hrest₂⟩
    obtain ⟨w', ρ₂, hgrows₂, hrest₂⟩ := hconverted
    cases hrest₂
    have hgrows₃ := Session.grows_foldl_find n
      (w'.contractFindings ctx.returnContracts "returned value") ρ₂
    obtain ⟨-, hs₁⟩ := hexpr.expr hv hs hS
      ⟨h.muted, hvalue, hgrows₂.clean (hgrows₃.clean h.clean)⟩
    exact State.mem_merge_right hs₁

include ht hexpr hstmt hrun htyped in
theorem sound_forLoop {first update : List NodeId} {c : Option NodeId} {b : NodeId}
    (hperforms : Performs ctx.tree run (.forLoop first c update b) s e s')
    (h : ((ctx.evaluators depth).forLoop ctx n first c update b S).Yields σ S' τ) :
    τ.Receives S' e s' := by
  obtain ⟨entry, ρ, hinit, hrest⟩ := Walk.bind_eq_ok.1 h.ok
  obtain ⟨hentry, hgrows₁⟩ := grown_seq ht hS hinit
  have hpass? : (ctx.evaluators depth).pass? (.forLoop first c update b) =
      some ((ctx.evaluators depth).forPass c update b) := rfl
  have hgrows₂ : ρ.Grows τ := by
    split at hrest
    · cases hrest
      exact .refl _
    · rename_i hlive
      exact grown_loop ht _ hpass? hentry (by simpa using hlive) hrest
  have hyields : ((ctx.evaluators depth).seq ctx first S).Yields σ entry ρ :=
    ⟨h.muted, hinit, hgrows₂.clean h.clean⟩
  cases hperforms with
  | forLoop hfirst hrepeats =>
    have hs₁ := sound_seq ht hstmt hrun hfirst hs htyped hS hyields
    have hlive : entry.unreachable = false := State.reachable_of_mem hs₁
    rw [if_neg (by simp [hlive])] at hrest
    exact sound_loop ht _ hpass? (sound_forPass ht hexpr hstmt c update b)
      (HeadPass.typed hrun c update b) hrepeats hs₁ (InSequence.typed hrun _ _ _ _ hfirst htyped)
      hentry ⟨hgrows₁.muted.trans h.muted, hrest, h.clean⟩
  | forStop hfirst he =>
    exact (sound_seq ht hstmt hrun hfirst hs htyped hS hyields).of_stop hgrows₂ he

include ht hexpr hstmt hrun htyped in
theorem sound_stmtOf {stmt : Stmt} (hst : ctx.tree.stmt n = .ok stmt)
    (hperforms : Performs ctx.tree run stmt s e s')
    (h : ((ctx.evaluators depth).stmtOf ctx n S stmt).Yields σ S' τ) : τ.Receives S' e s' := by
  have hfor := sound_forPass ht hexpr hstmt
  have hhead := HeadPass.typed hrun
  cases stmt with
  | block body =>
    cases hperforms with
    | block hseq => exact sound_seq ht hstmt hrun hseq hs htyped hS h
  | declare d init =>
    cases hperforms with
    | declare hd hx => exact sound_declare hs (ctx.evaluators depth) hd hx h
    | init hv hy => exact sound_init ht hexpr hs hS hv hy h
  | expr v =>
    cases hperforms with
    | expr hv =>
      obtain ⟨⟨w, S₁⟩, ρ, hvalue, hpure⟩ := Walk.bind_eq_ok.1 h.ok
      cases hpure
      exact (hexpr.expr hv hs hS ⟨h.muted, hvalue, h.clean⟩).2
  | branch c p q => exact sound_branch ht hexpr hstmt hs htyped hS hperforms h
  | whileLoop c b =>
    cases hperforms with
    | whileLoop hrepeats =>
      have hpass := hfor (some c) [] b
      rw [← whilePass_eq] at hpass
      exact sound_loop ht (.whileLoop c b) rfl hpass (hhead (some c) [] b) hrepeats hs htyped hS h
  | doLoop b c =>
    cases hperforms with
    | doLoop hrepeats =>
      exact sound_loop ht (.doLoop b c) rfl (sound_doPass ht hexpr hstmt b c)
        (TailPass.typed hrun b c) hrepeats hs htyped hS h
  | forLoop first c update b => exact sound_forLoop ht hexpr hstmt hrun hs htyped hS hperforms h
  | switch v alternatives => exact sound_switch ht hexpr hstmt hrun hst hperforms hs htyped hS h
  | ret value => exact sound_ret hexpr hs hS hperforms h
  | throw value => cases hperforms
  | breakOut =>
    cases hperforms
    exact Walk.receives_break hs h.ok
  | continueLoop =>
    cases hperforms
    exact Walk.receives_continue hs h.ok
  | skip =>
    cases hperforms
    cases h.ok
    exact hs

end Stmt

/-- What statements do at run time is foreseen at every depth. -/
theorem stmtSound (ht : ctx.tree.WritesPrimitives) (depth nesting : Nat) :
    ctx.StmtSound (ctx.tree.runsWithin nesting) (ctx.evaluators depth) := by
  -- the walk and the run each count their levels; the induction follows the walk
  induction depth generalizing nesting with
  | zero =>
    constructor
    intro _ _ _ _ _ _ _ _ _ _ _ _ h
    cases h.ok
  | succ depth ih =>
    constructor
    intro n s s' e S S' σ τ hrun hs htyped hS h
    cases nesting with
    | zero => exact hrun.elim
    | succ nesting =>
      obtain ⟨stmt, hst, hperforms⟩ := hrun
      have hok : (ctx.evaluators depth).stmtAt ctx n S σ = .ok S' τ := h.ok
      obtain ⟨stmt', ρ₁, hrequire, hrest₁⟩ := Walk.bind_eq_ok.1 hok
      obtain ⟨hst', rfl⟩ := Walk.require_eq_ok hrequire
      cases hst.symm.trans hst'
      rw [if_neg (by simp [hs.1])] at hrest₁
      obtain ⟨_, ρ₂, hentered, hrest₂⟩ := Walk.bind_eq_ok.1 hrest₁
      obtain ⟨out, ρ₃, hstmtOf, hrest₃⟩ := Walk.bind_eq_ok.1 hrest₂
      obtain ⟨_, ρ₄, hleft, hpure⟩ := Walk.bind_eq_ok.1 hrest₃
      cases hentered
      cases hleft
      cases hpure
      have hgrows := Session.grows_trace (.left n S') ρ₃
      have hmuted : (ρ₁.trace (.entered n S)).muted = 0 := (ρ₁.trace_returns _).2.trans h.muted
      have hreceives := sound_stmtOf ht (exprSound ht depth) (ih nesting)
        (ctx.tree.runsWithin_typed nesting) hs htyped hS hst hperforms
        ⟨hmuted, hstmtOf, hgrows.clean h.clean⟩
      exact hreceives.mono hgrows fun _ hmem => hmem

end Context

/-- If the analysis of a body finds no division by zero, every run of the body that completes is
foreseen: a run that falls off the end leaves a store of the final state, one that returns a store
of the exit state, and no jump leads out of the body. -/
theorem analysis_foresees_runs (t : Tree) (ht : t.WritesPrimitives) (settings : Settings)
    (body : NodeId) {initial : State} (hwf : initial.WellFormedWithin lengths) {r : Analysis}
    (hr : t.analyze settings body initial = .ok r)
    (hzero : r.report.count .divisionByZero = 0) {s : Store} (hs : s ∈ initial)
    (htyped : t.Typed s) {e : Ending} {s' : Store} (hrun : t.Runs body s e s') :
    (e = .falls ∧ s' ∈ r.final ∧ s' ∈ r.exit) ∨ (e = .returns ∧ s' ∈ r.exit) := by
  obtain ⟨nesting, hrun⟩ := hrun
  have hclean : r.report.Clean := by
    intro x hx hkind
    have hcount := List.countP_eq_zero.1 hzero x hx
    exact hcount (by simp [hkind])
  unfold Tree.analyze at hr
  rw [Context.run_def] at hr
  dsimp only at hr
  generalize hres : (Context.evaluators _ _).stmt body initial {} = res at hr
  cases res with
  | error halt τ => cases hr
  | ok final τ =>
    cases hr
    have hgrows := (Context.grown_stmt ht hwf hres).2
    -- a jump out of the body would find a frame, but there is none around it
    have hframes : τ.frames = [] := FramesGrow.nil_inv hgrows.frames
    have hreceives := (Context.stmtSound ht _ nesting).stmt hrun hs htyped hwf ⟨rfl, hres, hclean⟩
    cases e with
    | falls => exact .inl ⟨rfl, hreceives, State.mem_merge_right hreceives⟩
    | breaks =>
      obtain ⟨f, rest, hf, -⟩ := hreceives
      cases hframes.symm.trans hf
    | continues =>
      obtain ⟨f, hf, -⟩ := hreceives
      rw [hframes] at hf
      cases hf
    | returns => exact .inr ⟨rfl, State.mem_merge_left hreceives⟩

/-- `while (x < 5) x++;` over an integer. -/
def countToFive : Tree where
  nodes := #[.expr (.name ⟨0⟩), .expr (.literal (.int 5)), .expr (.compare .lt ⟨0⟩ ⟨1⟩),
    .expr (.unary .postInc ⟨0⟩), .stmt (.expr ⟨3⟩), .stmt (.whileLoop ⟨2⟩ ⟨4⟩)]
  decls := #[⟨"x", .primitive .int, [], .var⟩]

def counterAt (n : Int) : Store := fun d => if d = ⟨0⟩ then some (.number n) else none

/-- From 4 the counter runs through the loop once, and the analysis of all counters up to 10 allows
for where it ends. -/
theorem countToFive_run_foreseen : ∃ r,
    countToFive.analyze {} ⟨5⟩ (State.initial.set ⟨0⟩ (.intRange 0 10)) = .ok r ∧
    countToFive.Runs ⟨5⟩ (counterAt 4) .falls ((counterAt 4).set ⟨0⟩ (.number 5)) ∧
    r.final.lookup ⟨0⟩ = some (.intRange 5 10) ∧
    (counterAt 4).set ⟨0⟩ (.number 5) ∈ r.final := by
  have hplain : countToFive.WritesPrimitives := rfl
  have hwf : (State.initial.set ⟨0⟩ (.intRange 0 10)).WellFormedWithin lengths :=
    State.wf_set (fun _ _ h => by cases h) trivial
  have hmem : counterAt 4 ∈ State.initial.set ⟨0⟩ (.intRange 0 10) := by
    refine ⟨rfl, fun d x h => ?_⟩
    unfold counterAt at h
    split at h
    · rename_i hd
      subst hd
      cases h
      exact ⟨_, rfl, 4, by decide, rfl⟩
    · cases h
  have htyped : countToFive.Typed (counterAt 4) := by
    intro d x h
    unfold counterAt at h
    split at h
    · rename_i hd
      subst hd
      cases h
      exact ⟨4, by decide, rfl⟩
    · cases h
  have hless : Evaluates countToFive ⟨2⟩ (counterAt 4) (.bool true) (counterAt 4) :=
    .compare rfl (.name rfl rfl) (.literal rfl rfl) rfl
  have hincrement : Evaluates countToFive ⟨3⟩ (counterAt 4)
      (if Unary.postInc.answersOld then .number 4 else .number 5)
      ((counterAt 4).set ⟨0⟩ (.number 5)) :=
    .increment rfl rfl rfl rfl rfl ⟨.int, rfl, rfl, _, rfl, by decide⟩
  have hdone : Evaluates countToFive ⟨2⟩ ((counterAt 4).set ⟨0⟩ (.number 5)) (.bool false)
      ((counterAt 4).set ⟨0⟩ (.number 5)) :=
    .compare rfl (.name rfl rfl) (.literal rfl rfl) rfl
  have hrun : countToFive.Runs ⟨5⟩ (counterAt 4) .falls ((counterAt 4).set ⟨0⟩ (.number 5)) :=
    ⟨2, .whileLoop ⟨2⟩ ⟨4⟩, rfl, .whileLoop
      (.again (.again (.holds hless) ⟨.expr ⟨3⟩, rfl, .expr hincrement⟩ rfl .nil)
        (.leave (.done rfl hdone)))⟩
  refine ⟨_, rfl, hrun, rfl, ?_⟩
  rcases analysis_foresees_runs countToFive hplain {} ⟨5⟩ hwf rfl rfl hmem htyped hrun with h | h
  · exact h.2.1
  · cases h.1

end ValueFlow

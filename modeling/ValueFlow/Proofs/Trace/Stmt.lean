import ValueFlow.Proofs.Trace.Expr

namespace ValueFlow

def Stmt.stmts (st : Stmt) : List NodeId := st.plain ++ st.framed.map (·.2)

theorem Stmt.perm_children (st : Stmt) : st.children.Perm (st.exprs ++ st.stmts) := by
  cases st with
  | forLoop init c update b =>
    show (init ++ c.toList ++ update ++ [b]).Perm (c.toList ++ update ++ (init ++ [b]))
    rw [List.append_assoc init, ← List.append_assoc _ init]
    exact List.perm_append_comm.append_right [b]
  | _ => simp [children, exprs, stmts, plain, framed]

/-- The node of a statement and its expressions. -/
def Tree.ownPlaces (t : Tree) (n : NodeId) (st : Stmt) : Set NodeId := {n} ∪ t.regions st.exprs

namespace Tree

variable {t : Tree} {n c : NodeId} {st : Stmt}

theorem mem_ownPlaces_self : n ∈ t.ownPlaces n st := .inl rfl

theorem mem_ownPlaces (h : c ∈ st.exprs) : c ∈ t.ownPlaces n st := .inr (mem_regions_self h)

theorem holdsParts_ownPlaces (hst : t.stmt n = .ok st) : t.HoldsParts (t.ownPlaces n st) := by
  rintro m hm e he c hc
  rcases hm with rfl | hm
  · cases (node_of_stmt hst).symm.trans (node_of_expr he)
  · exact .inr (regions_closed hm (.child .root (node_of_expr he) hc))

theorem child_of_stmts (hst : t.stmt n = .ok st) (hc : c ∈ st.exprs ++ st.stmts) : t.Child n c :=
  ⟨.stmt st, node_of_stmt hst, st.perm_children.mem_iff.2 hc⟩

theorem under_of_regions {ns : List NodeId} (hst : t.stmt n = .ok st)
    (hns : ns ⊆ st.exprs ++ st.stmts) (hc : c ∈ t.regions ns) : t.Under n c := by
  obtain ⟨m, hm, hmc⟩ := hc
  exact ⟨m, child_of_stmts hst (hns hm), hmc⟩

theorem separate_stmts (hacyclic : t.Acyclic) (hunshared : t.Unshared) (hst : t.stmt n = .ok st) :
    t.Separate (t.ownPlaces n st) st.stmts := by
  have hchildren := pairwise_apart hacyclic hunshared (node_of_stmt hst)
  have hparts := (st.perm_children.pairwise_iff fun h => h.symm).1 hchildren
  obtain ⟨-, hstmts, hcross⟩ := List.pairwise_append.1 hparts
  refine ⟨?_, hstmts⟩
  rintro c (rfl | ⟨e, he, hec⟩) hc
  · exact hacyclic c (under_of_regions hst (List.subset_append_right _ _) hc)
  · obtain ⟨m, hm, hmc⟩ := hc
    exact hcross e he m hm c hec hmc

end Tree

namespace Trace

open Walk

variable {ctx : Context} {below : Evaluators} {own : Set NodeId} {n : NodeId} {s : State}
  {ns : List NodeId}

/-- Evaluators that are orderly about each statement by itself. -/
def Clean (ctx : Context) (below : Evaluators) : Prop :=
  ∀ n s, (below.stmt n s).Orderly ctx.tree ∅ [n]

section Parts

variable (hs : Clean ctx below)

include hs

theorem orderly_stmt (n : NodeId) (s : State) : (below.stmt n s).Orderly ctx.tree own [n] :=
  (hs n s).mono (Set.empty_subset own) (List.Subset.refl _)

theorem orderly_seq (hsep : ctx.tree.Separate own ns) :
    (below.seq ctx ns s).Orderly ctx.tree own ns := by
  induction ns generalizing s with
  | nil => exact orderly_pure _
  | cons n rest ih =>
    have hsep' : ctx.tree.Separate own ([n] ++ rest) := hsep
    unfold Evaluators.seq
    split
    · refine orderly_required fun st _ => ?_
      split
      · exact (ih hsep'.right).mono (fun _ => id) (List.subset_cons_self n rest)
      · have hremark : (Walk.report n (ctx.deadFindings st)).Orderly ctx.tree own [n] :=
          orderly_remark n _
        exact (hremark.bind_pure fun _ => s).mono (fun _ => id) (by simp)
    · exact (orderly_stmt hs n s).bind hsep' fun s => ih hsep'.right

theorem orderly_cases {sel : Selector} {alternatives : List Case} {fallthrough : State}
    (hsep : ctx.tree.Separate own (alternatives.flatMap (·.body))) :
    (below.cases ctx sel alternatives fallthrough).Orderly ctx.tree own
      (alternatives.flatMap (·.body)) := by
  induction alternatives generalizing fallthrough with
  | nil => exact orderly_pure _
  | cons case rest ih =>
    rw [List.flatMap_cons] at hsep ⊢
    exact (orderly_seq hs hsep.left).bind hsep fun out => ih hsep.right

variable (hb : below.Quiet ctx.tree own)

include hb

theorem orderly_branch {c l : NodeId} {r : Option NodeId} (hc : c ∈ own)
    (hsep : ctx.tree.Separate own (l :: r.toList)) :
    (below.branch c l r s).Orderly ctx.tree own (l :: r.toList) := by
  refine (hb.cond s hc).bind hsep fun branches => ?_
  refine (orderly_stmt hs l branches.whenTrue).bind hsep fun out => ?_
  cases r with
  | none => exact orderly_pure _
  | some r => exact (orderly_stmt hs r branches.whenFalse).bind_pure fun other => out.merge other

/-- One pass over a loop. -/
theorem orderly_pass {st : Stmt} {pass : State → Walk Pass} (hexprs : ∀ c ∈ st.exprs, c ∈ own)
    (hsep : ctx.tree.Separate own (st.framed.map (·.2))) (hpass : below.pass? st = some pass)
    (head : State) : (pass head).Orderly ctx.tree own (st.framed.map (·.2)) := by
  -- conditions and updates trace nothing, so a pass is orderly as its body is
  have hbody : ∀ b s, (Walk.framed .loop (below.stmt b s)).Orderly ctx.tree own [b] := fun b s =>
    (orderly_stmt hs b s).framed
  cases st with
  | whileLoop c b =>
    cases hpass
    refine (hb.cond head (hexprs c (by simp [Stmt.exprs]))).bind hsep fun branches => ?_
    exact (hbody b branches.whenTrue).bind_pure _
  | doLoop b c =>
    cases hpass
    refine (hbody b head).bind_quiet hsep fun _ => ?_
    exact (hb.cond _ (hexprs c (by simp [Stmt.exprs]))).andThen fun branches => orderly_pure _
  | forLoop init c update b =>
    cases hpass
    have hcond : (below.optionalCond c head).Orderly ctx.tree own [] := by
      cases c with
      | none => exact orderly_pure _
      | some c => exact hb.cond head (hexprs c (by simp [Stmt.exprs]))
    have hupdate : ∀ e ∈ update, e ∈ own := fun e he =>
      hexprs e (List.mem_append_right c.toList he)
    refine hcond.bind hsep fun branches => ?_
    refine (hbody b branches.whenTrue).bind_quiet hsep fun _ => ?_
    exact (orderly_all hb hupdate _).andThen fun _ => orderly_pure _
  | _ => cases hpass

end Parts

/-- A loop adds what its last pass adds: the others are muted. -/
theorem orderly_loop {depth : Nat} (hs : Clean ctx (ctx.evaluators depth))
    (hb : (ctx.evaluators depth).Quiet ctx.tree own) (st : Stmt) {pass : State → Walk Pass}
    (hpass : (ctx.evaluators depth).pass? st = some pass) (hexprs : ∀ c ∈ st.exprs, c ∈ own)
    (hsep : ctx.tree.Separate own (st.framed.map (·.2))) {entry : State}
    (hlive : entry.unreachable = false) :
    (ctx.loop n pass entry).Orderly ctx.tree own (st.framed.map (·.2)) := by
  intro σ a τ hσ hloop
  have hsolved := ctx.echoes_muted_solve hpass hlive n (ctx.passBound entry) 0 σ
  cases hr : Walk.muted (ctx.solve n pass (ctx.passBound entry) 0 entry) σ with
  | error e ρ =>
    rw [ctx.loop_of_unsolved hr] at hloop
    cases hloop
  | ok solved ρ =>
    obtain ⟨head, iterations⟩ := solved
    rw [hr] at hsolved
    rw [ctx.loop_of_solved hr] at hloop
    -- from where the muted passes have left off, with report and trace as they were
    have hρ : (ρ.note (.stabilized n iterations)).muted = σ.muted := hsolved.muted.symm
    have hlast := (orderly_pass hs hb hexprs hsep hpass head).bind_pure Pass.exit
    obtain ⟨o, ho, hadds⟩ := hlast _ a τ (hρ.trans hσ) hloop
    refine ⟨o, ho, hadds.muted.trans hρ, hadds.events.trans ?_, fun x hx => ?_⟩
    · exact congrArg (o.events.reverse ++ ·) hsolved.events.symm
    · rw [hsolved.report]
      exact hadds.report x hx

section Statements

variable (hb : below.Quiet ctx.tree own) (hn : n ∈ own)

include hb

theorem orderly_declare {d : DeclId} {init : Option NodeId} (hinit : ∀ e ∈ init, e ∈ own) :
    (below.declare ctx d init s).Orderly ctx.tree own [] := by
  refine (orderly_require _).andThen fun decl => ?_
  cases init with
  | none => exact orderly_pure _
  | some e =>
    refine (hb.expr s (hinit e rfl)).andThen fun ⟨v, s⟩ => ?_
    exact (orderly_convert (hinit e rfl) decl.ty v).andThen fun _ => orderly_pure _

include hn

theorem orderly_ret {value : Option NodeId} (hvalue : ∀ e ∈ value, e ∈ own) :
    (below.ret ctx n value s).Orderly ctx.tree own [] := by
  cases value with
  | none => exact (orderly_returning s).andThen fun _ => orderly_pure _
  | some e =>
    refine (hb.expr s (hvalue e rfl)).andThen fun ⟨v, s⟩ => ?_
    have hrest : ∀ v : Value, (do
        Walk.report n (v.contractFindings ctx.returnContracts "returned value")
        Walk.returning s
        pure .dead : Walk State).Orderly ctx.tree own [] := fun v =>
      (orderly_report hn fun _ => Value.kind_contractFindings).andThen fun _ =>
        (orderly_returning s).andThen fun _ => orderly_pure _
    dsimp only
    split
    · exact (orderly_convert (hvalue e rfl) _ v).andThen hrest
    · exact hrest v

theorem orderly_switch (hs : Clean ctx below) {selector : NodeId} {alternatives : List Case}
    (hselector : selector ∈ own)
    (hsep : ctx.tree.Separate own (alternatives.flatMap (·.body))) :
    (below.switch ctx n selector alternatives s).Orderly ctx.tree own
      (alternatives.flatMap (·.body)) := by
  refine (orderly_deref hb hn hselector s).bind hsep fun ⟨v, s⟩ => ?_
  dsimp only
  split
  · exact orderly_pure _
  · exact (orderly_cases hs hsep).framed.bind_pure _

end Statements

theorem orderly_forLoop {depth : Nat} {init update : List NodeId} {cond : Option NodeId}
    {body : NodeId} (hs : Clean ctx (ctx.evaluators depth))
    (hb : (ctx.evaluators depth).Quiet ctx.tree own)
    (hexprs : ∀ c ∈ (Stmt.forLoop init cond update body).exprs, c ∈ own)
    (hsep : ctx.tree.Separate own (init ++ [body])) :
    ((ctx.evaluators depth).forLoop ctx n init cond update body s).Orderly ctx.tree own
      (init ++ [body]) := by
  refine (orderly_seq hs hsep.left).bind hsep fun entry => ?_
  split
  · exact orderly_pure _
  · rename_i hlive
    exact orderly_loop hs hb (.forLoop init cond update body) rfl hexprs hsep.right
      (Bool.not_eq_true _ ▸ hlive)

theorem orderly_stmtOf {depth : Nat} {st : Stmt} (hacyclic : ctx.tree.Acyclic)
    (hunshared : ctx.tree.Unshared) (hs : Clean ctx (ctx.evaluators depth))
    (hst : ctx.tree.stmt n = .ok st) (hlive : s.unreachable = false) :
    ((ctx.evaluators depth).stmtOf ctx n s st).Orderly ctx.tree (ctx.tree.ownPlaces n st)
      st.stmts := by
  have hsep := Tree.separate_stmts hacyclic hunshared hst
  have hb := quiet_evaluators ctx.tree (Tree.holdsParts_ownPlaces hst) depth
  have hn : n ∈ ctx.tree.ownPlaces n st := Tree.mem_ownPlaces_self
  have hexprs : ∀ c ∈ st.exprs, c ∈ ctx.tree.ownPlaces n st := fun c => Tree.mem_ownPlaces
  cases st with
  | block body =>
    simp only [Stmt.stmts, Stmt.plain, Stmt.framed, List.map_nil, List.append_nil] at hsep ⊢
    exact orderly_seq hs hsep
  | declare d init => exact orderly_declare hb fun e he => hexprs e (Option.mem_toList.2 he)
  | expr e =>
    exact (hb.expr s (hexprs e (by simp [Stmt.exprs]))).andThen fun _ => orderly_pure _
  | branch c l r =>
    simp only [Stmt.stmts, Stmt.plain, Stmt.framed, List.map_nil, List.append_nil] at hsep ⊢
    exact orderly_branch hs hb (hexprs c (by simp [Stmt.exprs])) hsep
  | whileLoop c b => exact orderly_loop hs hb (.whileLoop c b) rfl hexprs hsep hlive
  | doLoop b c => exact orderly_loop hs hb (.doLoop b c) rfl hexprs hsep hlive
  | forLoop init c update b => exact orderly_forLoop hs hb hexprs hsep
  | switch selector alternatives =>
    have hstmts : (Stmt.switch selector alternatives).stmts = alternatives.flatMap (·.body) := by
      simp [Stmt.stmts, Stmt.plain, Stmt.framed]
    rw [hstmts] at hsep ⊢
    exact orderly_switch hb hn hs (hexprs selector (by simp [Stmt.exprs])) hsep
  | ret value => exact orderly_ret hb hn fun e he => hexprs e (Option.mem_toList.2 he)
  | throw e =>
    exact (orderly_deref hb hn (hexprs e (by simp [Stmt.exprs])) s).andThen fun _ => orderly_pure _
  | breakOut => exact orderly_jump n _
  | continueLoop => exact orderly_jump n _
  | skip => exact orderly_pure _

/-- Every walk is orderly about the statement it walks. -/
theorem clean_evaluators (hacyclic : ctx.tree.Acyclic) (hunshared : ctx.tree.Unshared)
    (depth : Nat) : Clean ctx (ctx.evaluators depth) := by
  induction depth with
  | zero => exact fun n s => orderly_throw _
  | succ depth ih =>
    intro n s
    refine orderly_required fun st hst => ?_
    split
    · exact (orderly_remark n _).bind_pure _
    · rename_i hreached
      have hlive : s.unreachable = false := by simpa using hreached
      have hbelow : ∀ {ns}, ns ⊆ st.exprs ++ st.stmts →
          ctx.tree.regions ns ⊆ ctx.tree.regions [n] := fun hns c hc =>
        ⟨n, List.mem_singleton.2 rfl, (Tree.under_of_regions hst hns hc).below⟩
      intro σ out τ hσ hwalk
      -- enter, walk, leave: the parts are orderly by `ih`, and are put between the two events
      obtain ⟨_, _, hentered, hwalk⟩ := Walk.bind_eq_ok.1 hwalk
      cases hentered
      obtain ⟨out, ρ, hstmt, hwalk⟩ := Walk.bind_eq_ok.1 hwalk
      obtain ⟨_, _, hleft, hout⟩ := Walk.bind_eq_ok.1 hwalk
      cases hleft
      cases hout
      have hmuted : (σ.trace (.entered n s)).muted = 0 := (σ.trace_returns _).2.trans hσ
      obtain ⟨o, ho, hadds⟩ :=
        orderly_stmtOf hacyclic hunshared ih hst hlive _ out ρ hmuted hstmt
      refine ⟨o.enclose n s out, ho.enclose ?_ (hbelow (List.subset_append_right _ _)) ?_ hlive,
        hadds.enclose hσ⟩
      · rintro c (rfl | hc)
        · exact Tree.mem_regions_self (List.mem_singleton.2 rfl)
        · exact hbelow (List.subset_append_left _ _) hc
      · exact fun hn => hacyclic n (Tree.under_of_regions hst (List.subset_append_right _ _) hn)

end Trace

/-- The trace and the report of an analysis: whatever is entered is left, each statement at most
once; only what is reached is entered; a statement that is reported as dead is not entered, and of
what stands below it nothing is traced or reported. -/
structure Analysis.Orderly (t : Tree) (r : Analysis) : Prop where
  nested : Nested r.journal.events
  once : (r.journal.events.map fun e => (e.phase, e.node)).Nodup
  live : ∀ e ∈ r.journal.events, e.phase = .enter → e.state.unreachable = false
  apart : ∀ x ∈ r.report.entries, x.2.kind = .unreachableCode →
    ∀ e ∈ r.journal.events, e.node ≠ x.1
  cut : ∀ x ∈ r.report.entries, x.2.kind = .unreachableCode → ∀ c, t.Under x.1 c →
    (∀ e ∈ r.journal.events, e.node ≠ c) ∧ ∀ y ∈ r.report.entries, y.1 ≠ c

theorem Context.run_orderly (ctx : Context) (hacyclic : ctx.tree.Acyclic)
    (hunshared : ctx.tree.Unshared) {body : NodeId} {initial : State} {σ : Session}
    (hmuted : σ.muted = 0) (hevents : σ.events = []) (hreport : σ.report = .empty) {r : Analysis}
    (hr : ctx.run body initial σ = .ok r) : r.Orderly ctx.tree := by
  have hclean := Trace.clean_evaluators hacyclic hunshared ctx.depthBound body initial σ
  rw [run_def] at hr
  dsimp only at hr
  generalize (ctx.evaluators ctx.depthBound).stmt body initial σ = walked at hclean hr
  cases walked with
  | error halt τ => cases hr
  | ok final τ =>
    cases hr
    obtain ⟨o, ho, hadds⟩ := hclean final τ hmuted rfl
    have htrace : Journal.events (Entry.finished τ.report.size :: τ.history).reverse =
        o.events := by
      rw [Session.events_journal, hadds.events, hevents, List.append_nil, List.reverse_reverse]
    have hfound : ∀ x ∈ τ.report.entries, x ∈ o.findings := by
      intro x hx
      refine (hadds.report x hx).resolve_left fun hold => ?_
      rw [hreport] at hold
      cases hold
    constructor
    · exact htrace ▸ ho.nested
    · exact htrace ▸ ho.once
    · exact htrace ▸ ho.live
    · intro x hx hdead
      exact htrace ▸ (ho.cut x (hfound x hx) hdead x.1 .root).2.1
    · intro x hx hdead c hc
      obtain ⟨-, hquiet, hsilent⟩ := ho.cut x (hfound x hx) hdead c hc.below
      refine ⟨htrace ▸ hquiet, fun y hy heq => ?_⟩
      -- a finding there would be the one about dead code itself, below itself
      obtain rfl := hsilent y (hfound y hy) heq
      exact hacyclic _ hc

/-- Where no node stands below itself or in two places, the trace of an analysis is one clean pass
over what is reached, and dead code has no part in it. -/
theorem trace_is_one_clean_pass (t : Tree) (hacyclic : t.Acyclic) (hunshared : t.Unshared)
    (settings : Settings) :
    (∀ body initial r, t.analyze settings body initial = .ok r → r.Orderly t) ∧
      ∀ m r, t.analyzeMethod settings m = .ok r → r.Orderly t := by
  constructor
  · intro body initial r hr
    exact Context.run_orderly (t.context settings) hacyclic hunshared rfl rfl rfl hr
  · intro m r hr
    rcases t.analyzeMethod_eq m with ⟨e, he⟩ | ⟨method, body, initial, -, hrun⟩
    · rw [he] at hr
      cases hr
    · rw [hrun] at hr
      exact Context.run_orderly ⟨t, settings, _, _⟩ hacyclic hunshared rfl rfl rfl hr

def deadIncrement : Tree where
  nodes := #[.stmt .breakOut, .expr (.name ⟨0⟩), .expr (.unary .postInc ⟨1⟩), .stmt (.expr ⟨2⟩),
    .stmt (.block [⟨0⟩, ⟨3⟩]), .expr (.literal (.bool true)), .stmt (.whileLoop ⟨5⟩ ⟨4⟩),
    .expr (.literal (.bool true)), .stmt (.whileLoop ⟨7⟩ ⟨6⟩)]
  decls := #[⟨"i", .primitive .int, [], .var⟩]

/-- Both loops, the block and the break are entered and left once; of the increment it is only said
that it is dead. -/
theorem deadIncrement_traced_once : deadIncrement.Acyclic ∧ deadIncrement.Unshared ∧
    ∃ r, deadIncrement.analyze {} ⟨8⟩ .initial = .ok r ∧ r.Orderly deadIncrement ∧
      (r.journal.events.map fun e => (e.phase, e.node)) =
        [(.enter, ⟨8⟩), (.enter, ⟨6⟩), (.enter, ⟨4⟩), (.enter, ⟨0⟩), (.leave, ⟨0⟩), (.leave, ⟨4⟩),
          (.leave, ⟨6⟩), (.leave, ⟨8⟩)] ∧
      (r.report.entries.map fun x => (x.1, x.2.kind)) = [(⟨3⟩, .unreachableCode)] := by
  have hdown : deadIncrement.Descending := by decide
  have hunshared : deadIncrement.Unshared := by decide
  have hanswer : (deadIncrement.analyze {} ⟨8⟩ .initial).map (fun r =>
      (r.journal.events.map fun e => (e.phase, e.node),
        r.report.entries.map fun x => (x.1, x.2.kind))) =
      .ok ([(.enter, ⟨8⟩), (.enter, ⟨6⟩), (.enter, ⟨4⟩), (.enter, ⟨0⟩), (.leave, ⟨0⟩),
        (.leave, ⟨4⟩), (.leave, ⟨6⟩), (.leave, ⟨8⟩)], [(⟨3⟩, .unreachableCode)]) := by
    decide +kernel
  cases hr : deadIncrement.analyze {} ⟨8⟩ .initial with
  | error e =>
    rw [hr] at hanswer
    cases hanswer
  | ok r =>
    rw [hr] at hanswer
    obtain ⟨hevents, hentries⟩ := Prod.mk.inj (Except.ok.inj hanswer)
    have horderly := (trace_is_one_clean_pass deadIncrement hdown.acyclic hunshared {}).1 _ _ r hr
    exact ⟨hdown.acyclic, hunshared, r, rfl, horderly, hevents, hentries⟩

end ValueFlow

import ValueFlow.Proofs.Termination

namespace ValueFlow

def Node.literals : Node → List Literal
  | expr (.literal l) => [l]
  | stmt (.switch _ cases) => cases.flatMap (·.labels)
  | _ => []

/-- The frames of the session are of the kinds `ks`, and every state that it holds on to or has
noted has the property `P`. -/
structure Session.Upholds (P : State → Prop) (ks : List FrameKind) (σ : Session) : Prop where
  frames : Lockstep P [] ks σ.frames σ.frames
  returns : P σ.returns
  events : ∀ e ∈ σ.events, P e.state

/-- Every state that the analysis answers or has traced has the property `P`. -/
structure Analysis.Upholds (P : State → Prop) (r : Analysis) : Prop where
  final : P r.final
  exit : P r.exit
  events : ∀ e ∈ r.journal.events, P e.state

namespace Session.Upholds

variable {P : State → Prop} {ks : List FrameKind} {σ : Session}

theorem of_same {τ : Session} (h : σ.Upholds P ks) (hframes : τ.frames = σ.frames)
    (hreturns : τ.returns = σ.returns) (hevents : τ.events = σ.events) : τ.Upholds P ks := by
  constructor
  · rw [hframes]
    exact h.frames
  · rw [hreturns]
    exact h.returns
  · rw [hevents]
    exact h.events

theorem foldl_find (h : σ.Upholds P ks) (n : NodeId) (fs : List Finding) :
    (fs.foldl (Session.find n) σ).Upholds P ks :=
  h.of_same (foldl_find_frames n fs σ) (foldl_find_returns n fs σ).1 (foldl_find_events n fs σ)

theorem trace (h : σ.Upholds P ks) {e : Entry} (he : ∀ event, e.event? = some event →
    P event.state) : (σ.trace e).Upholds P ks := by
  refine ⟨?_, ?_, fun event hevent => ?_⟩
  · rw [trace_frames]
    exact h.frames
  · rw [(trace_returns e σ).1]
    exact h.returns
  · rw [trace_events] at hevent
    split at hevent
    · rcases List.mem_append.1 hevent with hnew | hold
      · exact he event (Option.mem_toList.1 hnew)
      · exact h.events event hold
    · exact h.events event hevent

theorem of_fresh (hdead : P .dead)
    (hframes : σ.frames = []) (hreturns : σ.returns = .dead) (hevents : σ.events = []) :
    σ.Upholds P [] := by
  refine ⟨?_, hreturns ▸ hdead, fun e he => ?_⟩
  · rw [hframes]
    exact ⟨rfl, rfl⟩
  · rw [hevents] at he
    cases he

end Session.Upholds

/-- Properties of the values, the states and the declarations that a run meets. -/
structure Invariant where
  value : Value → Prop
  state : State → Prop
  decl : DeclId → Prop

namespace Invariant

/-- The invariant is kept by the operations of the analysis and respected by the nodes that
`reach` singles out, which lead to no others. -/
structure Kept (I : Invariant) (ctx : Context) (reach : NodeId → Prop) : Prop where
  value : Simulation.ValueLaws I.value
  state : Simulation.StateLaws I.value I.state I.decl
  advance (iteration : Nat) {head back : State} :
    I.state head → I.state back → I.state (ctx.advance iteration head back)
  giveUp {next head : State} :
    I.state next → I.state head → head.unreachable = false → I.state (next.giveUp head)
  child {n c : NodeId} {node : Node} :
    reach n → ctx.tree.node n = .ok node → c ∈ node.children → reach c
  mention {n : NodeId} {node : Node} {d : DeclId} :
    reach n → ctx.tree.node n = .ok node → node.decl? = some d → I.decl d
  literal {n : NodeId} {node : Node} {l : Literal} :
    reach n → ctx.tree.node n = .ok node → l ∈ node.literals → I.value l.value

variable {I : Invariant} {ctx : Context} {reach : NodeId → Prop}

def simulation (I : Invariant) (ctx : Context) : Simulation where
  tree := ctx.tree
  leftSettings := ctx.settings
  rightSettings := ctx.settings
  returnType := ctx.returnType
  returnContracts := ctx.returnContracts
  value := I.value
  state := I.state
  decl := I.decl
  halt _ := True
  session ks _ σ τ := σ = τ ∧ σ.Upholds I.state ks

/-- A reachable node counts in any frames. -/
def places (reach : NodeId → Prop) : Places := ⟨reach, fun _ => reach⟩

theorem routed {ks : List FrameKind} {n : NodeId} {route : List Frame → Option (List Frame)}
    (h : Frame.Routes (Lockstep I.state [] ks) route) : (I.simulation ctx).Routed ks n route :=
  Simulation.routed_of_frames (fun hσ => ⟨congrArg _ hσ.1, hσ.2.frames⟩)
    (fun hσ hfg => ⟨by rw [hσ.1, hfg.1], hfg.2, hσ.2.returns, hσ.2.events⟩)
    (fun _ _ _ _ => trivial) h.same

namespace Kept

variable (h : I.Kept ctx reach)

include h

theorem stable : Session.Stable I.state (I.simulation ctx).session where
  find n f hσ := ⟨by rw [hσ.1], hσ.2.foldl_find n [f]⟩
  trace he hσ := ⟨congrArg _ hσ.1, hσ.2.trace he⟩
  note he hσ := ⟨congrArg _ hσ.1, hσ.2.of_same rfl rfl (by rw [Session.note_events, he]; rfl)⟩
  returning hs hσ :=
    ⟨hσ.1 ▸ rfl, hσ.2.frames, h.state.merge hσ.2.returns hs, hσ.2.events⟩
  enter kind hσ := ⟨congrArg _ hσ.1, ⟨rfl, rfl, h.state.dead, h.state.dead, hσ.2.frames⟩,
    hσ.2.returns, hσ.2.events⟩
  leave {_ _ _ σ _} hσ := by
    obtain ⟨f, rest, rest', hf, hg, -, -, -, hrest⟩ := Lockstep.cons_inv hσ.2.frames
    obtain rfl : rest = rest' := by simpa [hf] using hg
    refine ⟨congrArg _ hσ.1, ?_, hσ.2.returns, hσ.2.events⟩
    simp only [Session.leaveFrame, hf]
    exact hrest
  gathered hσ := by
    obtain ⟨f, rest, rest', hf, hg, -, hb, hc, -⟩ := Lockstep.cons_inv hσ.2.frames
    exact ⟨f, rest, rest', hf, hσ.1 ▸ hg, hb, hc⟩
  mute hσ := ⟨congrArg _ hσ.1, hσ.2.of_same rfl rfl rfl⟩
  unmute hσ := ⟨congrArg _ hσ.1, hσ.2.of_same rfl rfl rfl⟩

theorem loopLaws : (I.simulation ctx).LoopLaws :=
  Simulation.loopLaws_of_stable rfl h.stable h.advance h.giveUp trivial

theorem placeLaws : (I.simulation ctx).PlaceLaws (places reach) where
  expr_error _ _ := trivial
  stmt_error _ _ := trivial
  decl_error _ _ := trivial
  call_error _ _ _ := trivial
  param_error _ _ _ _ _ := trivial
  name hn he := h.mention hn (Tree.node_of_expr he) rfl
  field hn he := h.mention hn (Tree.node_of_expr he) rfl
  declare hn hs := h.mention hn (Tree.node_of_stmt hs) rfl
  literal hn he := h.literal hn (Tree.node_of_expr he) (by simp [Node.literals])
  label hn hs hc hl := h.literal hn (Tree.node_of_stmt hs) (List.mem_flatMap.2 ⟨_, hc, hl⟩)
  breakOut _ _ hs := routed (Lockstep.routes_addBreak h.state.merge hs)
  continueLoop _ _ hs := routed (Lockstep.routes_addContinue h.state.merge hs)

theorem laws : (I.simulation ctx).Laws (places reach) (places reach) where
  value := h.value
  state := h.state
  session := Simulation.sessionLaws_of_stable rfl h.stable
  loop := h.loopLaws.loop
  here := h.placeLaws
  below := h.placeLaws
  down :=
    { child := fun hn he hc => h.child hn (Tree.node_of_expr he) hc
      grandchild := fun hn he hc he' hb =>
        h.child (h.child hn (Tree.node_of_expr he) hc) (Tree.node_of_expr he') hb
      part := fun hn hs hc => h.child hn (Tree.node_of_stmt hs) (Stmt.mem_children_of_exprs hc)
      inner := fun hn hs hc => h.child hn (Tree.node_of_stmt hs) (Stmt.mem_children_of_plain hc)
      body := fun hn hs hc => h.child hn (Tree.node_of_stmt hs) (Stmt.mem_children_of_framed hc) }

variable {body : NodeId} {initial : State} {σ : Session} (hbody : reach body)
  (hs : I.state initial) (hσ : σ.Upholds I.state [])

include hbody hs hσ

/-- A walk ends in a state with the property, if in any, and in a session that upholds it. -/
theorem agree_walk (depth : Nat) : (I.simulation ctx).Agree [] 0 I.state
    ((ctx.evaluators depth).stmt body initial σ) ((ctx.evaluators depth).stmt body initial σ) :=
  (Simulation.related_evaluators h.laws trivial depth).stmt hbody hs 0 σ σ ⟨rfl, hσ⟩

theorem upholds_walk (depth : Nat) :
    (Session.ofResult ((ctx.evaluators depth).stmt body initial σ)).Upholds I.state [] := by
  have hagree := h.agree_walk hbody hs hσ depth
  cases hr : (ctx.evaluators depth).stmt body initial σ with
  | ok final τ =>
    rw [hr] at hagree
    exact hagree.2.2.2
  | error e τ =>
    rw [hr] at hagree
    exact hagree.2.2.2

theorem upholds_run {r : Analysis} (hr : ctx.run body initial σ = .ok r) : r.Upholds I.state := by
  have hagree := h.agree_walk hbody hs hσ ctx.depthBound
  rw [Context.run_def] at hr
  dsimp only at hr
  generalize (ctx.evaluators ctx.depthBound).stmt body initial σ = walked at hagree hr
  cases walked with
  | error halt τ => cases hr
  | ok final τ =>
    cases hr
    obtain ⟨-, hfinal, -, hτ⟩ := hagree
    refine ⟨hfinal, h.state.merge hτ.returns hfinal, fun e he => hτ.events e ?_⟩
    rwa [Session.events_journal, List.mem_reverse] at he

end Kept

end Invariant

end ValueFlow

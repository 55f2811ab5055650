import ValueFlow.Proofs.Soundness.Stmt

namespace ValueFlow

/-- The store with which a pass ends is found where its ending leads. -/
def Pass.Receives (p : Pass) (τ : Session) (e : Ending) (s : Store) : Prop :=
  match e with
  | .continues => s ∈ p.back
  | .breaks => s ∈ p.exit
  | .returns => s ∈ τ.returns
  | .falls => True

namespace Context

/-- What a pass does at run time is foreseen. -/
structure PassSound (ctx : Context) (B : Behaviour) (pass : State → Walk Pass) : Prop where
  pass {s s' : Store} {e : Ending} {head : State} {p : Pass} {σ τ : Session} :
    B s e s' → s ∈ head → ctx.tree.Typed s → head.WellFormedWithin lengths →
      (pass head).Yields σ p τ → p.Receives τ e s'

variable {ctx : Context} {depth : Nat} {n b : NodeId} {s s' s₁ : Store} {S S' head : State}
  {σ τ : Session} {run : NodeId → Behaviour} {e : Ending}

section Passes

variable (ht : ctx.tree.WritesPrimitives) (hexpr : ctx.ExprSound (ctx.evaluators depth))
  (hstmt : ctx.StmtSound run (ctx.evaluators depth))

include ht hstmt in
/-- The frame of a loop catches the jumps of its body. -/
theorem sound_body {f : Frame} (hbody : run b s e s') (hs : s ∈ S) (htyped : ctx.tree.Typed s)
    (hS : S.WellFormedWithin lengths)
    (h : (Walk.framed .loop ((ctx.evaluators depth).stmt b S)).Yields σ (S', f) τ) :
    (e.goesOn = true → s' ∈ S'.merge f.continues) ∧ (e = .breaks → s' ∈ f.breaks) ∧
      (e = .returns → s' ∈ τ.returns) := by
  obtain ⟨ρ, hyields, hkind, hframes, hreturns⟩ :=
    h.framed fun ρ hρ => (grown_stmt ht hS hρ).2
  have hreceives := hstmt.stmt hbody hs htyped hS hyields
  cases e with
  | falls => exact ⟨fun _ => State.mem_merge_left hreceives, nofun, nofun⟩
  | breaks =>
    obtain ⟨g, rest, hg, hmem⟩ := hreceives
    obtain ⟨rfl, -⟩ := List.cons.inj (hframes.symm.trans hg)
    exact ⟨nofun, fun _ => hmem, nofun⟩
  | continues =>
    obtain ⟨g, hg, hmem⟩ := hreceives
    rw [hframes, List.find?_cons_of_pos (by simp [hkind])] at hg
    cases hg
    exact ⟨fun _ => State.mem_merge_right hmem, nofun, nofun⟩
  | returns => exact ⟨nofun, nofun, fun _ => hreturns ▸ hreceives⟩

include ht in
theorem grown_optionalCond {c : Option NodeId} {B : Branches} (hS : S.WellFormedWithin lengths)
    (h : (ctx.evaluators depth).optionalCond c S σ = .ok B τ) :
    B.whenTrue.WellFormedWithin lengths ∧ σ.Grows τ := by
  cases c with
  | none =>
    cases h
    exact ⟨hS, .refl σ⟩
  | some c =>
    obtain ⟨hB, hgrows⟩ := grown_cond ht hS h
    exact ⟨hB true, hgrows⟩

include hexpr in
theorem sound_optionalCond {c : Option NodeId} {B : Branches} (hs : s ∈ S)
    (hS : S.WellFormedWithin lengths)
    (h : ((ctx.evaluators depth).optionalCond c S).Yields σ B τ) :
    (Enters ctx.tree c s s₁ → s₁ ∈ B.whenTrue) ∧
      ∀ c', c = some c' → Evaluates ctx.tree c' s (.bool false) s₁ → s₁ ∈ B.whenFalse := by
  cases c with
  | none =>
    cases h.ok
    refine ⟨fun henters => ?_, nofun⟩
    cases henters
    exact hs
  | some c =>
    constructor
    · intro henters
      cases henters with
      | holds hc => exact hexpr.cond hc hs hS h
    · intro c' hc' hfalse
      cases hc'
      exact hexpr.cond hfalse hs hS h

include ht hexpr hstmt in
theorem sound_forPass (c : Option NodeId) (update : List NodeId) (b : NodeId) :
    ctx.PassSound (HeadPass ctx.tree run c update b)
      ((ctx.evaluators depth).forPass c update b) := by
  constructor
  intro s s' e head p σ τ hpass hs htyped hhead h
  obtain ⟨B, ρ₁, hcond, hrest₁⟩ := Walk.bind_eq_ok.1 h.ok
  obtain ⟨⟨out, f⟩, ρ₂, hbody, hrest₂⟩ := Walk.bind_eq_ok.1 hrest₁
  obtain ⟨⟨vs, back⟩, ρ₃, hupdate, hpure⟩ := Walk.bind_eq_ok.1 hrest₂
  cases hpure
  obtain ⟨hB, hgrows₁⟩ := grown_optionalCond ht hhead hcond
  obtain ⟨hout, hcontinues, hgrows₂⟩ := grown_framed ht hB hbody
  obtain ⟨-, hgrows₃⟩ := grown_all ht (State.wf_merge hout hcontinues) hupdate
  have hmuted₁ : ρ₁.muted = 0 := hgrows₁.muted.trans h.muted
  have hmuted₂ : ρ₂.muted = 0 := hgrows₂.muted.trans hmuted₁
  have hclean₂ := hgrows₃.clean h.clean
  have hyields : ((ctx.evaluators depth).optionalCond c head).Yields σ B ρ₁ :=
    ⟨h.muted, hcond, hgrows₂.clean hclean₂⟩
  cases hpass with
  | done hc hfalse =>
    exact State.mem_merge_left ((sound_optionalCond hexpr hs hhead hyields).2 _ hc hfalse)
  | again henters hrun' hgoes hall =>
    have hs₁ := (sound_optionalCond hexpr hs hhead hyields).1 henters
    have hs₂ := (sound_body ht hstmt hrun' hs₁ (henters.typed htyped) hB
      ⟨hmuted₁, hbody, hclean₂⟩).1 hgoes
    exact sound_all ht hexpr hall hs₂ (State.wf_merge hout hcontinues)
      ⟨hmuted₂, hupdate, h.clean⟩
  | out henters hrun' hgoes =>
    have hs₁ := (sound_optionalCond hexpr hs hhead hyields).1 henters
    have hbody' := sound_body ht hstmt hrun' hs₁ (henters.typed htyped) hB
      ⟨hmuted₁, hbody, hclean₂⟩
    cases e with
    | falls | continues => cases hgoes
    | breaks => exact State.mem_merge_right (hbody'.2.1 rfl)
    | returns => exact hgrows₃.returns _ (hbody'.2.2 rfl)

omit ht hexpr hstmt in
theorem whilePass_eq (below : Evaluators) (c b : NodeId) :
    below.whilePass c b = below.forPass (some c) [] b := rfl

include ht hexpr hstmt in
theorem sound_doPass (b c : NodeId) :
    ctx.PassSound (TailPass ctx.tree run b c) ((ctx.evaluators depth).doPass b c) := by
  constructor
  intro s s' e head p σ τ hpass hs htyped hhead h
  obtain ⟨⟨out, f⟩, ρ₁, hbody, hrest⟩ := Walk.bind_eq_ok.1 h.ok
  obtain ⟨B, ρ₂, hcond, hpure⟩ := Walk.bind_eq_ok.1 hrest
  cases hpure
  obtain ⟨hout, hcontinues, hgrows₁⟩ := grown_framed ht hhead hbody
  have hjoined := State.wf_merge hout hcontinues
  obtain ⟨-, hgrows₂⟩ := grown_cond ht hjoined hcond
  have hmuted₁ : ρ₁.muted = 0 := hgrows₁.muted.trans h.muted
  have hyields : (Walk.framed .loop ((ctx.evaluators depth).stmt b head)).Yields σ (out, f) ρ₁ :=
    ⟨h.muted, hbody, hgrows₂.clean h.clean⟩
  cases hpass with
  -- the condition is asked: it decides between the head and the exit
  | @asked _ _ v _ _ hrun' hgoes hc =>
    have hs₁ := (sound_body ht hstmt hrun' hs htyped hhead hyields).1 hgoes
    have hs₂ := hexpr.cond hc hs₁ hjoined ⟨hmuted₁, hcond, h.clean⟩
    cases v with
    | true => exact hs₂
    | false => exact State.mem_merge_left hs₂
  -- the body led out before the condition was asked
  | out hrun' hgoes =>
    have hbody' := sound_body ht hstmt hrun' hs htyped hhead hyields
    cases e with
    | falls | continues => cases hgoes
    | breaks => exact State.mem_merge_right (hbody'.2.1 rfl)
    | returns => exact hgrows₂.returns _ (hbody'.2.2 rfl)

end Passes

/-- Every iteration starts from a store of the settled head. -/
theorem Settled.receives {B : Behaviour} {pass : State → Walk Pass} {base : List FrameKind}
    {entry : State} {iterations : Nat} {p : Pass}
    (hsettled : ctx.Settled .full base pass entry head iterations)
    (hsteady : ctx.Steady .full base pass) (hbase : σ.kinds = base)
    (hpass : ctx.PassSound B pass) (htypes : ctx.tree.KeepsTyped B)
    (hhead : head.WellFormedWithin lengths) (hp : (pass head).Yields σ p τ)
    (hrepeats : Repeats B s e s') (hs : s ∈ head) (htyped : ctx.tree.Typed s) :
    τ.Receives p.exit e s' := by
  induction hrepeats with
  | again hb _ ih =>
    have hback := hpass.pass hb hs htyped hhead hp
    have htyped' := htypes _ _ _ hb htyped
    -- the head covers what comes back, so the next iteration starts from it again
    have hcovers := hsettled.covers_back (by decide) hsteady hbase hp.ok hback.1
    exact ih (State.mem_of_covers hback hsettled.reachable hcovers htyped') htyped'
  | leave hb => exact hpass.pass hb hs htyped hhead hp
  | ret hb => exact hpass.pass hb hs htyped hhead hp

theorem grown_pass (ht : ctx.tree.WritesPrimitives) (stmt : Stmt) {pass : State → Walk Pass}
    (hpass? : (ctx.evaluators depth).pass? stmt = some pass) (σ : Session) {head : State}
    (hhead : head.WellFormedWithin lengths) :
    (ctx.growth σ).InStep [] (ctx.growth σ).Passed (pass head) (pass head) :=
  Simulation.inStep_pass (ctx.laws_growth ht σ) (ctx.related_growth ht σ depth)
    (fun _ _ => trivial) (fun _ _ => trivial) hpass? hpass? hhead

theorem grown_loop (ht : ctx.tree.WritesPrimitives) (stmt : Stmt) {pass : State → Walk Pass}
    (hpass? : (ctx.evaluators depth).pass? stmt = some pass) {entry : State}
    (hentry : entry.WellFormedWithin lengths) (hlive : entry.unreachable = false)
    (h : ctx.loop n pass entry σ = .ok S' τ) : σ.Grows τ :=
  (grown_of_inStep ((ctx.laws_growth ht σ).loop [] n pass pass entry
    (fun _ hhead _ => grown_pass ht stmt hpass? σ hhead) hentry hlive) h).2

/-- What a loop does at run time is foreseen. -/
theorem sound_loop (ht : ctx.tree.WritesPrimitives) {B : Behaviour} (stmt : Stmt)
    {pass : State → Walk Pass} (hpass? : (ctx.evaluators depth).pass? stmt = some pass)
    (hpass : ctx.PassSound B pass) (htypes : ctx.tree.KeepsTyped B) {entry : State}
    (hrepeats : Repeats B s e s') (hs : s ∈ entry) (htyped : ctx.tree.Typed s)
    (hentry : entry.WellFormedWithin lengths) (h : (ctx.loop n pass entry).Yields σ S' τ) :
    τ.Receives S' e s' := by
  obtain ⟨⟨head, iterations⟩, ρ₁, hmuted, hrest₁⟩ := Walk.bind_eq_ok.1 h.ok
  obtain ⟨_, ρ₂, hnote, hrest₂⟩ := Walk.bind_eq_ok.1 hrest₁
  cases hnote
  obtain ⟨p, ρ₃, hlast, hpure⟩ := Walk.bind_eq_ok.1 hrest₂
  cases hpure
  have hsolve := Simulation.inStep_muted (fun _ _ _ => ctx.loopLaws_growth.mute)
    (fun _ _ _ => ctx.loopLaws_growth.unmute) (Simulation.inStep_solve (n := n)
      ctx.loopLaws_growth (fun _ hw _ => grown_pass ht stmt hpass? σ hw) (ctx.passBound entry) 0
      hentry hs.1)
  obtain ⟨⟨hhead, -⟩, hgrows⟩ := grown_of_inStep hsolve hmuted
  -- that the solver ran muted does not matter for the head it has found
  obtain ⟨ρ, hsolved, -⟩ := Walk.muted_eq_ok hmuted
  have hsteady := ctx.steady_pass depth σ.kinds hpass?
  have hkinds : σ.mute.kinds = σ.kinds := rfl
  have hsettled := ctx.solve_settled (by decide) hsteady hkinds (State.wf_full hentry) hs.1 hsolved
  have hbase : (ρ₁.note (.stabilized n iterations)).kinds = σ.kinds :=
    FramesGrow.kinds hgrows.frames
  have hs' := State.mem_of_covers hs hsettled.reachable hsettled.covers htyped
  exact hsettled.receives hsteady hbase hpass htypes hhead
    ⟨hgrows.muted.trans h.muted, hlast, h.clean⟩ hrepeats hs' htyped

end Context

end ValueFlow

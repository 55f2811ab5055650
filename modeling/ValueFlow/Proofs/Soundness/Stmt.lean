import ValueFlow.Proofs.Soundness.Condition

namespace ValueFlow

/-- The store with which a statement ends is found where the ending leads; `S` is the state after
the statement. -/
def Session.Receives (τ : Session) (S : State) (e : Ending) (s : Store) : Prop :=
  match e with
  | .falls => s ∈ S
  | .breaks => ∃ f rest, τ.frames = f :: rest ∧ s ∈ f.breaks
  | .continues => ∃ f, τ.frames.find? (·.kind = .loop) = some f ∧ s ∈ f.continues
  | .returns => s ∈ τ.returns

section Receives

variable {σ τ ρ : Session} {S S' : State} {e : Ending} {s : Store} {fs gs : List Frame} {n : NodeId}

theorem FramesGrow.find?_loop (h : FramesGrow fs gs) {f : Frame}
    (hf : fs.find? (·.kind = .loop) = some f) :
    ∃ g, gs.find? (·.kind = .loop) = some g ∧ f.Grows g := by
  induction fs generalizing gs with
  | nil => cases hf
  | cons f' fs ih =>
    obtain ⟨g', gs, rfl, hg, hgs⟩ := h.cons_inv
    cases hk : f'.kind with
    | loop =>
      rw [List.find?_cons_of_pos (by simp [hk])] at hf
      cases hf
      exact ⟨g', List.find?_cons_of_pos (by simp [hg.kind, hk]), hg⟩
    | switch =>
      rw [List.find?_cons_of_neg (by simp [hk])] at hf
      obtain ⟨g, hfind, hfg⟩ := ih hgs hf
      exact ⟨g, by rw [List.find?_cons_of_neg (by simp [hg.kind, hk])]; exact hfind, hfg⟩

theorem FramesGrow.kinds (h : FramesGrow fs gs) : gs.map (·.kind) = fs.map (·.kind) := by
  induction fs generalizing gs with
  | nil => rw [h.nil_inv]
  | cons f fs ih =>
    obtain ⟨g, gs, rfl, hg, hgs⟩ := h.cons_inv
    rw [List.map_cons, List.map_cons, hg.kind, ih hgs]

/-- What has been received stays received. -/
theorem Session.Receives.mono (h : τ.Receives S e s) (hgrows : τ.Grows ρ)
    (hfalls : e = .falls → s ∈ S → s ∈ S') : ρ.Receives S' e s := by
  cases e with
  | falls => exact hfalls rfl h
  | breaks =>
    obtain ⟨f, rest, hf, hs⟩ := h
    have hframes : FramesGrow τ.frames ρ.frames := hgrows.frames
    rw [hf] at hframes
    obtain ⟨g, rest', hg, hfg, -⟩ := hframes.cons_inv
    exact ⟨g, rest', hg, hfg.breaks s hs⟩
  | continues =>
    obtain ⟨f, hf, hs⟩ := h
    obtain ⟨g, hg, hfg⟩ := FramesGrow.find?_loop hgrows.frames hf
    exact ⟨g, hg, hfg.continues s hs⟩
  | returns => exact hgrows.returns s h

theorem Session.Receives.of_stop (h : τ.Receives S e s) (hgrows : τ.Grows ρ) (he : e ≠ .falls) :
    ρ.Receives S' e s := h.mono hgrows fun hfalls => absurd hfalls he

theorem Walk.receives_break (hs : s ∈ S) (h : Walk.jump n (Frame.addBreak S) σ = .ok S' τ) :
    τ.Receives S' .breaks s := by
  unfold Walk.jump at h
  cases hf : σ.frames with
  | nil =>
    rw [hf] at h
    cases h
  | cons f rest =>
    rw [hf] at h
    cases h
    exact ⟨_, rest, rfl, State.mem_merge_right hs⟩

theorem Frame.mem_addContinue (hs : s ∈ S) (h : Frame.addContinue S fs = some gs) :
    ∃ g, gs.find? (·.kind = .loop) = some g ∧ s ∈ g.continues := by
  induction fs generalizing gs with
  | nil => cases h
  | cons f fs ih =>
    unfold Frame.addContinue at h
    split at h
    · rename_i hk
      cases h
      exact ⟨_, List.find?_cons_of_pos (by simp [hk]), State.mem_merge_right hs⟩
    · rename_i hk
      obtain ⟨gs', hgs', rfl⟩ := Option.map_eq_some_iff.1 h
      obtain ⟨g, hg, hmem⟩ := ih hgs'
      exact ⟨g, by rw [List.find?_cons_of_neg (by simp [hk])]; exact hg, hmem⟩

theorem Walk.receives_continue (hs : s ∈ S) (h : Walk.jump n (Frame.addContinue S) σ = .ok S' τ) :
    τ.Receives S' .continues s := by
  unfold Walk.jump at h
  cases hf : Frame.addContinue S σ.frames with
  | none =>
    rw [hf] at h
    cases h
  | some gs =>
    rw [hf] at h
    cases h
    exact Frame.mem_addContinue hs hf

end Receives

section Framed

variable {α : Type} {m : Walk α} {a : α} {kind : FrameKind} {f : Frame} {σ τ : Session}

/-- A step inside a frame, and what the frame has gathered. -/
theorem Walk.Yields.framed (h : (Walk.framed kind m).Yields σ (a, f) τ)
    (hgrows : ∀ ρ, m (σ.enterFrame kind) = .ok a ρ → (σ.enterFrame kind).Grows ρ) :
    ∃ ρ, m.Yields (σ.enterFrame kind) a ρ ∧ f.kind = kind ∧ ρ.frames = f :: τ.frames ∧
      ρ.returns = τ.returns := by
  have hok := h.ok
  unfold Walk.framed at hok
  split at hok
  · rename_i b ρ hm
    obtain ⟨hpair, rfl⟩ := EStateM.Result.ok.inj hok
    cases hpair
    have hframes : FramesGrow (⟨kind, .dead, .dead⟩ :: σ.frames) ρ.frames := (hgrows ρ hm).frames
    obtain ⟨g, rest, hg, hfg, -⟩ := hframes.cons_inv
    have hhead : ρ.frames.headD ⟨kind, .dead, .dead⟩ = g := by rw [hg]; rfl
    have htail : ρ.leaveFrame.frames = rest := by
      show ρ.frames.tail = rest
      rw [hg]
      rfl
    rw [hhead, htail]
    exact ⟨ρ, ⟨h.muted, hm, h.clean⟩, hfg.kind, hg, rfl⟩
  · cases hok

end Framed

/-- What statements do at run time is foreseen by the evaluators, if those below them behave as
`run` says. -/
structure Context.StmtSound (ctx : Context) (run : NodeId → Behaviour) (below : Evaluators) :
    Prop where
  stmt {n : NodeId} {s s' : Store} {e : Ending} {S S' : State} {σ τ : Session} :
    run n s e s' → s ∈ S → ctx.tree.Typed s → S.WellFormedWithin lengths →
      (below.stmt n S).Yields σ S' τ → τ.Receives S' e s'

namespace Context

variable {ctx : Context} {depth : Nat} {n : NodeId} {s s' s₁ : Store} {x : Concrete}
  {S S' : State} {v : Value} {σ τ : Session} {run : NodeId → Behaviour} {ns : List NodeId}
  {e : Ending}

section Grown

variable (ht : ctx.tree.WritesPrimitives) (hS : S.WellFormedWithin lengths)

include ht hS

theorem grown_stmt (h : (ctx.evaluators depth).stmt n S σ = .ok S' τ) :
    S'.WellFormedWithin lengths ∧ σ.Grows τ :=
  grown_of_inStep ((ctx.related_growth ht σ depth).stmt trivial hS) h

theorem grown_framed {kind : FrameKind} {f : Frame}
    (h : Walk.framed kind ((ctx.evaluators depth).stmt n S) σ = .ok (S', f) τ) :
    S'.WellFormedWithin lengths ∧ f.continues.WellFormedWithin lengths ∧ σ.Grows τ := by
  obtain ⟨⟨hS', -, hcontinues⟩, hgrows⟩ := grown_of_inStep (Simulation.inStep_framed
    (ctx.laws_growth ht σ).session ((ctx.related_growth ht σ depth).stmt trivial hS)) h
  exact ⟨hS', hcontinues, hgrows⟩

theorem grown_seq (h : (ctx.evaluators depth).seq ctx ns S σ = .ok S' τ) :
    S'.WellFormedWithin lengths ∧ σ.Grows τ :=
  grown_of_inStep (Simulation.inStep_seq (ctx.laws_growth ht σ) (ctx.related_growth ht σ depth)
    (fun _ _ => trivial) hS) h

theorem grown_all {vs : List Value} (h : (ctx.evaluators depth).all ns S σ = .ok (vs, S') τ) :
    S'.WellFormedWithin lengths ∧ σ.Grows τ := by
  obtain ⟨⟨-, hS'⟩, hgrows⟩ := grown_of_inStep (Simulation.inStep_all
    (ctx.related_growth ht σ depth) (fun _ _ => trivial) hS) h
  exact ⟨hS', hgrows⟩

end Grown

variable (ht : ctx.tree.WritesPrimitives) (hexpr : ctx.ExprSound (ctx.evaluators depth))
  (hstmt : ctx.StmtSound run (ctx.evaluators depth)) (hrun : ∀ n, ctx.tree.KeepsTyped (run n))

include ht in
include hstmt hrun in
theorem sound_seq (hseq : InSequence run ns s e s') (hs : s ∈ S) (htyped : ctx.tree.Typed s)
    (hS : S.WellFormedWithin lengths) (h : ((ctx.evaluators depth).seq ctx ns S).Yields σ S' τ) :
    τ.Receives S' e s' := by
  induction hseq generalizing S σ with
  | nil =>
    cases h.ok
    exact hs
  | cons hn _ ih =>
    have hok := h.ok
    unfold Evaluators.seq at hok
    rw [if_neg (by simp [hs.1])] at hok
    obtain ⟨S₁, ρ, hfirst, hrest⟩ := Walk.bind_eq_ok.1 hok
    obtain ⟨hS₁, hgrows₁⟩ := grown_stmt ht hS hfirst
    obtain ⟨-, hgrows₂⟩ := grown_seq ht hS₁ hrest
    have hs₁ := hstmt.stmt hn hs htyped hS ⟨h.muted, hfirst, hgrows₂.clean h.clean⟩
    exact ih hs₁ (hrun _ _ _ _ hn htyped) hS₁ ⟨hgrows₁.muted.trans h.muted, hrest, h.clean⟩
  | stop hn he =>
    have hok := h.ok
    unfold Evaluators.seq at hok
    rw [if_neg (by simp [hs.1])] at hok
    obtain ⟨S₁, ρ, hfirst, hrest⟩ := Walk.bind_eq_ok.1 hok
    obtain ⟨hS₁, -⟩ := grown_stmt ht hS hfirst
    obtain ⟨-, hgrows₂⟩ := grown_seq ht hS₁ hrest
    have hreceives := hstmt.stmt hn hs htyped hS ⟨h.muted, hfirst, hgrows₂.clean h.clean⟩
    -- what a jump has carried away stays where it is while the rest is walked
    exact hreceives.of_stop hgrows₂ he

include ht hexpr in
theorem sound_all {vs : List Value} (hall : EvaluatesAll ctx.tree ns s s') (hs : s ∈ S)
    (hS : S.WellFormedWithin lengths) (h : ((ctx.evaluators depth).all ns S).Yields σ (vs, S') τ) :
    s' ∈ S' := by
  induction hall generalizing S σ vs with
  | nil =>
    cases h.ok
    exact hs
  | cons he _ ih =>
    obtain ⟨⟨v, S₁⟩, ρ₁, hfirst, hrest⟩ := Walk.bind_eq_ok.1 h.ok
    obtain ⟨⟨vs', S₂⟩, ρ₂, hothers, hpure⟩ := Walk.bind_eq_ok.1 hrest
    cases hpure
    obtain ⟨-, hS₁, hgrows₁⟩ := grown_expr ht hS hfirst
    obtain ⟨-, hgrows₂⟩ := grown_all ht hS₁ hothers
    obtain ⟨-, hs₁⟩ := hexpr.expr he hs hS ⟨h.muted, hfirst, hgrows₂.clean h.clean⟩
    exact ih hs₁ hS₁ ⟨hgrows₁.muted.trans h.muted, hothers, h.clean⟩

end Context

end ValueFlow

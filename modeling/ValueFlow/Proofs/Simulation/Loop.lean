import ValueFlow.Proofs.Simulation.Stmt

namespace ValueFlow

section Reachability

variable (ctx : Context) {head back : State}

theorem State.combine_unreachable {f : State → State → State} {s other : State}
    (hf : s.unreachable = false → (f s other).unreachable = false) :
    (combine f s other).unreachable = (s.unreachable && other.unreachable) := by
  unfold combine
  cases h : other.unreachable <;> cases h' : s.unreachable <;> simp [h, h', hf]

theorem State.merge_unreachable (s other : State) :
    (s.merge other).unreachable = (s.unreachable && other.unreachable) :=
  combine_unreachable id

theorem State.widen_unreachable (s other : State) :
    (s.widen other).unreachable = (s.unreachable && other.unreachable) :=
  combine_unreachable id

theorem Tree.fitState_unreachable (t : Tree) (s : State) :
    (t.fitState s).unreachable = s.unreachable := by
  unfold Tree.fitState
  split <;> rfl

theorem State.giveUp_unreachable (s previous : State) :
    (s.giveUp previous).unreachable = s.unreachable := by
  unfold State.giveUp
  split <;> rfl

/-- A head that is reached stays reachable. -/
theorem Context.advance_reachable (iteration : Nat) (h : head.unreachable = false) :
    (ctx.advance iteration head back).unreachable = false := by
  unfold Context.advance
  split
  · rw [Tree.fitState_unreachable, State.widen_unreachable, h, Bool.false_and]
  · rw [State.merge_unreachable, h, Bool.false_and]

end Reachability

/-- One pass over a statement that is a loop. -/
def Evaluators.pass? (below : Evaluators) : Stmt → Option (State → Walk Pass)
  | .whileLoop cond body => some (below.whilePass cond body)
  | .doLoop body cond => some (below.doPass body cond)
  | .forLoop _ cond update body => some (below.forPass cond update body)
  | _ => none

namespace Simulation

theorem inStep_pass {S : Simulation} {N' N : Places} {below below' : Evaluators}
    {ks : List FrameKind} {st : Stmt} {pass pass' : State → Walk Pass} {head : State}
    (hL : S.Laws N' N) (hb : S.Related N below below') (hexprs : ∀ c ∈ st.exprs, N.expr c)
    (hbody : ∀ p ∈ st.framed, N.stmt (p.1 :: ks) p.2) (hpass : below.pass? st = some pass)
    (hpass' : below'.pass? st = some pass') (hs : S.state head) :
    S.InStep ks S.Passed (pass head) (pass' head) := by
  cases st with
  | whileLoop c b =>
    cases hpass
    cases hpass'
    exact inStep_whilePass hL hb (hexprs c (by simp [Stmt.exprs]))
      (hbody (.loop, b) (by simp [Stmt.framed])) hs
  | doLoop b c =>
    cases hpass
    cases hpass'
    exact inStep_doPass hL hb (hexprs c (by simp [Stmt.exprs]))
      (hbody (.loop, b) (by simp [Stmt.framed])) hs
  | forLoop init c update b =>
    cases hpass
    cases hpass'
    exact inStep_forPass hL hb hexprs (hbody (.loop, b) (by simp [Stmt.framed])) hs
  | _ => cases hpass

variable (S : Simulation)

/-- What the bookkeeping of a loop keeps. -/
structure LoopLaws : Prop where
  threshold : S.leftSettings.wideningThreshold = S.rightSettings.wideningThreshold
  patience : S.leftSettings.maxIterations = S.rightSettings.maxIterations
  advance (iteration : Nat) {head back : State} :
    S.state head → S.state back → S.state (S.left.advance iteration head back)
  giveUp {next head : State} :
    S.state next → S.state head → head.unreachable = false → S.state (next.giveUp head)
  gaveUp (n : NodeId) (iterations count : Nat) :
    S.Keeps (Session.note (.gaveUp n iterations count)) (Session.note (.gaveUp n iterations count))
  stabilized (n : NodeId) (iterations : Nat) :
    S.Keeps (Session.note (.stabilized n iterations)) (Session.note (.stabilized n iterations))
  mute {ks : List FrameKind} {k : Nat} {σ τ : Session} :
    S.session ks k σ τ → S.session ks (k + 1) σ.mute τ.mute
  unmute {ks : List FrameKind} {k : Nat} {σ τ : Session} :
    S.session ks (k + 1) σ τ → S.session ks k σ.unmute τ.unmute
  exhausted : S.halt .exhausted

variable {S} {α : Type} {ks : List FrameKind} {n : NodeId} {pass pass' : State → Walk Pass}

/-- The head of a loop: reachable, with the property of the states. -/
def Headed (S : Simulation) (a : State × Nat) : Prop := S.state a.1 ∧ a.1.unreachable = false

theorem inStep_muted {Q : α → Prop} {m m' : Walk α}
    (hmute : ∀ k σ τ, S.session ks k σ τ → S.session ks (k + 1) σ.mute τ.mute)
    (hunmute : ∀ k σ τ, S.session ks (k + 1) σ τ → S.session ks k σ.unmute τ.unmute)
    (hm : S.InStep ks Q m m') : S.InStep ks Q (Walk.muted m) (Walk.muted m') := by
  intro k σ τ hστ
  have hbody := hm (k + 1) σ.mute τ.mute (hmute k σ τ hστ)
  unfold Walk.muted
  cases hl : m σ.mute <;> cases hr : m' τ.mute <;> rw [hl, hr] at hbody
  · exact ⟨hbody.1, hbody.2.1, hunmute k _ _ hbody.2.2⟩
  · exact hbody.elim
  · exact hbody.elim
  · exact ⟨hbody.1, hbody.2.1, hunmute k _ _ hbody.2.2⟩

theorem LoopLaws.advance_eq (h : S.LoopLaws) (iteration : Nat) (head back : State) :
    S.right.advance iteration head back = S.left.advance iteration head back := by
  show (if S.rightSettings.wideningThreshold ≤ iteration then _ else _) = _
  rw [← h.threshold]
  rfl

theorem LoopLaws.patience_eq (h : S.LoopLaws) : S.right.patience = S.left.patience := by
  show max 1 S.rightSettings.maxIterations = _
  rw [← h.patience]
  rfl

theorem inStep_solve (h : S.LoopLaws)
    (hpass : ∀ head, S.state head → head.unreachable = false →
      S.InStep ks S.Passed (pass head) (pass' head))
    (bound iteration : Nat) {head : State} (hs : S.state head) (hlive : head.unreachable = false) :
    S.InStep ks S.Headed (S.left.solve n pass bound iteration head)
      (S.right.solve n pass' bound iteration head) := by
  induction bound generalizing iteration head with
  | zero => exact inStep_throw h.exhausted
  | succ bound ih =>
    refine (hpass head hs hlive).bind fun p hp => ?_
    have hnext := h.advance iteration hs hp.1
    have hreached : (S.left.advance iteration head p.back).unreachable = false :=
      S.left.advance_reachable iteration hlive
    rw [h.advance_eq, h.patience_eq]
    dsimp only
    split
    · exact inStep_pure ⟨hs, hlive⟩
    · split
      · exact ih (iteration + 1) hnext hreached
      · have hrest := ih (iteration + 1) (h.giveUp hnext hs hlive)
          ((State.giveUp_unreachable _ head).trans hreached)
        split
        · exact (inStep_modify (h.gaveUp n _ _)).bind fun _ _ => hrest
        · exact hrest

theorem LoopLaws.loop (h : S.LoopLaws) : S.LoopLaw := by
  intro ks n pass pass' entry hpass hs hlive
  have hbound : S.right.passBound entry = S.left.passBound entry := by
    unfold Context.passBound
    rw [h.patience_eq, right_tree, left_tree]
  have hsolve := inStep_muted (fun _ _ _ => h.mute) (fun _ _ _ => h.unmute)
    (inStep_solve (n := n) h hpass (S.left.passBound entry) 0 hs hlive)
  unfold Context.loop
  rw [hbound]
  refine hsolve.bind ?_
  intro ⟨head, iterations⟩ ⟨hhead, hreached⟩
  refine (inStep_modify (h.stabilized n iterations)).bind fun _ _ => ?_
  exact (hpass head hhead hreached).bind fun p hp => inStep_pure hp.2

end Simulation

end ValueFlow

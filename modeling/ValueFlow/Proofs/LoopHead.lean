import ValueFlow.Proofs.Lockstep

namespace ValueFlow

/-- `outer` tracks what `inner` tracks, and lets each variable hold all it can hold in `inner`. -/
def Tree.Covers (t : Tree) (outer inner : State) : Prop :=
  ∀ d v, inner.lookup d = some v →
    ∃ w, outer.lookup d = some w ∧ ∀ x ∈ v, t.Admits d x → x ∈ w

namespace Tree

variable {t : Tree} {s other outer middle inner : State} {limit : Interval}

theorem covers_refl (t : Tree) (s : State) : t.Covers s s :=
  fun _ v h => ⟨v, h, fun _ hx _ => hx⟩

theorem Covers.trans (h : t.Covers outer middle) (h' : t.Covers middle inner) :
    t.Covers outer inner := by
  intro d v hv
  obtain ⟨w, hw, hvw⟩ := h' d v hv
  obtain ⟨u, hu, hwu⟩ := h d w hw
  exact ⟨u, hu, fun x hx hadm => hwu x (hvw x hx hadm) hadm⟩

theorem covers_of_combineValues {f : Value → Value → Value}
    (hlookup : ∀ d, outer.lookup d = Bindings.combineValues f (s.lookup d) (other.lookup d))
    (hf : ∀ d v w x, s.lookup d = some v → other.lookup d = some w → x ∈ v ∨ x ∈ w → x ∈ f v w) :
    t.Covers outer s ∧ t.Covers outer other := by
  constructor
  · intro d v hv
    rw [hlookup, hv]
    cases hw : other.lookup d with
    | none => exact ⟨v, rfl, fun _ hx _ => hx⟩
    | some w => exact ⟨f v w, rfl, fun x hx _ => hf d v w x hv hw (.inl hx)⟩
  · intro d w hw
    rw [hlookup, hw]
    cases hv : s.lookup d with
    | none => exact ⟨w, rfl, fun _ hx _ => hx⟩
    | some v => exact ⟨f v w, rfl, fun x hx _ => hf d v w x hv hw (.inr hx)⟩

theorem covers_merge (hs : s.unreachable = false) (h : other.unreachable = false) :
    t.Covers (s.merge other) s ∧ t.Covers (s.merge other) other :=
  covers_of_combineValues (fun _ => State.lookup_merge hs h) fun _ _ _ _ _ _ => Value.mem_merge

theorem covers_widen (hs : s.unreachable = false) (h : other.unreachable = false)
    (hwf : s.WellFormedWithin limit) (hwf' : other.WellFormedWithin limit) :
    t.Covers (s.widen other) s ∧ t.Covers (s.widen other) other :=
  covers_of_combineValues (fun _ => State.lookup_widen hs h) fun d v w _ hv hw =>
    Value.mem_widen (hwf d v hv) (hwf' d w hw)

theorem covers_fitState (t : Tree) (hs : s.unreachable = false) (hwf : s.WellFormedWithin limit) :
    t.Covers (t.fitState s) s := by
  intro d v hv
  refine ⟨t.fitDeclared d v, ?_, fun x hx hadm => t.mem_fitDeclared (hwf d v hv) hx hadm⟩
  rw [t.lookup_fitState hs, hv]
  rfl

theorem covers_giveUp (t : Tree) (previous : State) (hs : s.unreachable = false) :
    t.Covers (s.giveUp previous) s := by
  intro d v hv
  rw [State.lookup_giveUp s previous hs, hv]
  refine ⟨_, rfl, fun x hx _ => ?_⟩
  dsimp only
  split
  · trivial
  · exact hx

end Tree

namespace Context

variable (ctx : Context) {limit : Interval} {head back entry : State} {n : NodeId}
  {pass : State → Walk Pass}

theorem covers_advance (hlimit : limit.includes lengths = true) (iteration : Nat)
    (hhead : head.unreachable = false) (hwf : head.WellFormedWithin limit)
    (hwf' : back.WellFormedWithin limit) :
    ctx.tree.Covers (ctx.advance iteration head back) head ∧
      (back.unreachable = false → ctx.tree.Covers (ctx.advance iteration head back) back) := by
  unfold Context.advance
  cases hback : back.unreachable with
  | true =>
    rw [State.widen, State.merge, State.combine_of_dead_right hback,
      State.combine_of_dead_right hback]
    refine ⟨?_, fun h => Bool.noConfusion h⟩
    split
    · exact ctx.tree.covers_fitState hhead hwf
    · exact ctx.tree.covers_refl head
  | false =>
    split
    · -- the fit to declared widths comes after the widening and covers it
      have hw : (head.widen back).unreachable = false := by
        rw [State.widen_unreachable, hhead, Bool.false_and]
      have hfit := ctx.tree.covers_fitState hw (State.wf_widen hlimit hwf hwf')
      have hcovers := Tree.covers_widen (t := ctx.tree) hhead hback hwf hwf'
      exact ⟨hfit.trans hcovers.1, fun _ => hfit.trans hcovers.2⟩
    · have hcovers := Tree.covers_merge (t := ctx.tree) hhead hback
      exact ⟨hcovers.1, fun _ => hcovers.2⟩

/-- From heads in frames of the kinds `base`, the pass answers the same in every session. -/
def Steady (limit : Interval) (base : List FrameKind) (pass : State → Walk Pass) : Prop :=
  ∀ head : State, head.WellFormedWithin limit → head.unreachable = false →
    (ctx.lockstep limit base).InStep [] (ctx.lockstep limit base).Passed (pass head) (pass head)

/-- What is known of a head `h` that was reached from `head`: a pass from it changed nothing. -/
structure Settled (limit : Interval) (base : List FrameKind) (pass : State → Walk Pass)
    (head h : State) (iterations : Nat) : Prop where
  covers : ctx.tree.Covers h head
  wellFormed : h.WellFormedWithin limit
  reachable : h.unreachable = false
  stable : ∃ p ρ ρ', ρ.kinds = base ∧ pass h ρ = .ok p ρ' ∧ ctx.advance iterations h p.back = h

variable {base : List FrameKind}

variable {ctx} in
theorem Steady.pass_ok (h : ctx.Steady limit base pass) (hwf : head.WellFormedWithin limit)
    (hlive : head.unreachable = false) {σ ρ : Session} (hσ : σ.kinds = base) {p : Pass}
    (hp : pass head σ = .ok p ρ) : p.back.WellFormedWithin limit ∧ ρ.kinds = base := by
  have hagree := h head hwf hlive 0 σ σ ⟨hσ, hσ⟩
  rw [hp] at hagree
  exact ⟨hagree.2.1.1, hagree.2.2.1⟩

variable {ctx} in
theorem Steady.pass_unique (h : ctx.Steady limit base pass) (hwf : head.WellFormedWithin limit)
    (hlive : head.unreachable = false) {σ σ' ρ ρ' : Session} (hσ : σ.kinds = base)
    (hσ' : σ'.kinds = base) {p p' : Pass} (hp : pass head σ = .ok p ρ)
    (hp' : pass head σ' = .ok p' ρ') : p = p' := by
  have hagree := h head hwf hlive 0 σ σ' ⟨hσ, hσ'⟩
  rw [hp, hp'] at hagree
  exact hagree.1

/-- The solver ends on a head that covers the one it started from and is stable. -/
theorem solve_settled (hlimit : limit.includes lengths = true) (hpass : ctx.Steady limit base pass)
    {bound iteration iterations : Nat} {h : State} {σ τ : Session} (hσ : σ.kinds = base)
    (hwf : head.WellFormedWithin limit) (hlive : head.unreachable = false)
    (hsolve : ctx.solve n pass bound iteration head σ = .ok (h, iterations) τ) :
    ctx.Settled limit base pass head h iterations := by
  induction bound generalizing iteration head σ with
  | zero => cases hsolve
  | succ bound ih =>
    obtain ⟨p, ρ, hp, hrest⟩ := Walk.bind_eq_ok.1 hsolve
    obtain ⟨hback, hρ⟩ := hpass.pass_ok hwf hlive hσ hp
    have hnext := wf_advance ctx hlimit iteration hwf hback
    have hreached : (ctx.advance iteration head p.back).unreachable = false :=
      ctx.advance_reachable iteration hlive
    have hcovers := (ctx.covers_advance hlimit iteration hlive hwf hback).1
    dsimp only at hrest
    split at hrest
    · rename_i hstable
      cases hrest
      exact ⟨ctx.tree.covers_refl _, hwf, hlive, p, σ, _, hσ, hp, hstable⟩
    · -- the head has moved: the rest of the run starts from one that covers it
      have hstep : ∀ {next : State} {ρ' : Session}, ρ'.kinds = base →
          next.WellFormedWithin limit → next.unreachable = false → ctx.tree.Covers next head →
          ctx.solve n pass bound (iteration + 1) next ρ' = .ok (h, iterations) τ →
          ctx.Settled limit base pass head h iterations := by
        intro next ρ' hρ' hw hl hc hs
        have hsettled := ih hρ' hw hl hs
        exact ⟨hsettled.covers.trans hc, hsettled.wellFormed, hsettled.reachable, hsettled.stable⟩
      split at hrest
      · exact hstep hρ hnext hreached hcovers hrest
      · have hgiven := (ctx.tree.covers_giveUp head hreached).trans hcovers
        have hlive' := (State.giveUp_unreachable _ head).trans hreached
        have hwf' := State.wf_giveUp head hnext
        split at hrest
        · have hnote : ∀ e, (ρ.note e).kinds = base := fun _ => hρ
          exact hstep (hnote _) hwf' hlive' hgiven hrest
        · exact hstep hρ hwf' hlive' hgiven hrest

variable {ctx} in
/-- Whatever a pass from a settled head brings back is covered by the head. -/
theorem Settled.covers_back {iterations : Nat} {h : State}
    (hs : ctx.Settled limit base pass entry h iterations)
    (hlimit : limit.includes lengths = true) (hpass : ctx.Steady limit base pass)
    {ρ ρ' : Session} (hρ : ρ.kinds = base) {p : Pass} (hp : pass h ρ = .ok p ρ')
    (hback : p.back.unreachable = false) : ctx.tree.Covers h p.back := by
  obtain ⟨p', σ, σ', hσ, hp', hstable⟩ := hs.stable
  -- the pass that settled the head is any pass from it, and `advance` covers what it brought back
  obtain rfl := hpass.pass_unique hs.wellFormed hs.reachable hσ hρ hp' hp
  obtain ⟨hwf, -⟩ := hpass.pass_ok hs.wellFormed hs.reachable hσ hp'
  have hcovers := (ctx.covers_advance hlimit iterations hs.reachable hs.wellFormed hwf).2 hback
  rwa [hstable] at hcovers

end Context

theorem Walk.muted_eq_ok {α : Type} {m : Walk α} {a : α} {σ τ : Session}
    (h : Walk.muted m σ = .ok a τ) : ∃ ρ, m σ.mute = .ok a ρ ∧ τ = ρ.unmute := by
  unfold Walk.muted at h
  split at h
  · rename_i b ρ hb
    cases h
    exact ⟨ρ, hb, rfl⟩
  · cases h

theorem Context.steady_pass (ctx : Context) (depth : Nat) (base : List FrameKind) {stmt : Stmt}
    {pass : State → Walk Pass} (h : (ctx.evaluators depth).pass? stmt = some pass) :
    ctx.Steady .full base pass := by
  have hlimit : Interval.full.includes lengths = true := by decide
  have hL := ctx.laws_lockstep hlimit Literal.wf_value base
  have hb := ctx.related_lockstep hlimit Literal.wf_value base depth
  intro head hwf _
  exact Simulation.inStep_pass hL hb (fun _ _ => trivial) (fun _ _ => trivial) h h hwf

/-- The head from which a loop makes its last pass covers the entry, and whatever that pass, or any
other from the head, brings back. -/
theorem loop_head_covers_entry_and_back (ctx : Context) (depth : Nat) (n : NodeId) (stmt : Stmt)
    {pass : State → Walk Pass} (hpass : (ctx.evaluators depth).pass? stmt = some pass)
    {entry : State} (hlive : entry.unreachable = false) (hwf : entry.WellFormedWithin .full)
    (σ : Session) {τ : Session} {head : State} {iterations : Nat}
    (hsolve : Walk.muted (ctx.solve n pass (ctx.passBound entry) 0 entry) σ =
      .ok (head, iterations) τ) :
    ctx.loop n pass entry σ =
        (do let p ← pass head; pure p.exit) (τ.note (.stabilized n iterations)) ∧
      ctx.tree.Covers head entry ∧
      ∀ ρ ρ' p, ρ.kinds = σ.kinds → pass head ρ = .ok p ρ' → p.back.unreachable = false →
        ctx.tree.Covers head p.back := by
  have hlimit : Interval.full.includes lengths = true := by decide
  have hsteady := ctx.steady_pass depth σ.kinds hpass
  obtain ⟨τ', hsolved, -⟩ := Walk.muted_eq_ok hsolve
  have hkinds : σ.mute.kinds = σ.kinds := rfl
  have hsettled := ctx.solve_settled hlimit hsteady hkinds hwf hlive hsolved
  refine ⟨?_, hsettled.covers, fun ρ ρ' p hρ hp => hsettled.covers_back hlimit hsteady hρ hp⟩
  show EStateM.bind _ _ σ = _
  rw [EStateM.bind, hsolve]
  rfl

def byteCounter : Context where
  tree :=
    { nodes := #[.expr (.name ⟨0⟩), .expr (.unary .postInc ⟨0⟩), .stmt (.expr ⟨1⟩),
        .expr (.literal (.bool true)), .stmt (.whileLoop ⟨3⟩ ⟨2⟩)]
      decls := #[⟨"b", .primitive .byte, [], .var⟩] }
  settings := { wideningThreshold := 0 }

/-- The counter grows beyond its width; the head falls back to it and still covers the next
state. -/
theorem byteCounter_head_covers : ∃ head iterations τ p ρ,
    Walk.muted (byteCounter.solve ⟨4⟩ ((byteCounter.evaluators 3).whilePass ⟨3⟩ ⟨2⟩)
      (byteCounter.passBound (State.initial.set ⟨0⟩ (.int 0))) 0
      (State.initial.set ⟨0⟩ (.int 0))) {} = .ok (head, iterations) τ ∧
    (byteCounter.evaluators 3).whilePass ⟨3⟩ ⟨2⟩ head τ = .ok p ρ ∧
    head.lookup ⟨0⟩ = some (.intRange 0 127) ∧ p.back.lookup ⟨0⟩ = some (.intRange 1 127) ∧
    byteCounter.tree.Covers head (State.initial.set ⟨0⟩ (.int 0)) ∧
    byteCounter.tree.Covers head p.back := by
  refine ⟨_, _, _, _, _, rfl, rfl, rfl, rfl, ?_⟩
  have hwf : (State.initial.set ⟨0⟩ (.int 0)).WellFormedWithin .full :=
    State.wf_set (fun _ _ h => by cases h) trivial
  have hcovers := loop_head_covers_entry_and_back byteCounter 3 ⟨4⟩ (.whileLoop ⟨3⟩ ⟨2⟩) rfl rfl hwf
    {} rfl
  exact ⟨hcovers.2.1, hcovers.2.2 _ _ _ rfl rfl rfl⟩

end ValueFlow

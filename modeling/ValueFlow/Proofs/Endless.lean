import ValueFlow.Proofs.Desugaring

namespace ValueFlow

namespace Tree

/-- A `break` inside the statement is meant for a loop or a switch around it. -/
inductive BreaksOut (t : Tree) : NodeId → Prop
  | here {n : NodeId} : t.stmt n = .ok .breakOut → t.BreaksOut n
  | plain {n c : NodeId} {st : Stmt} : t.stmt n = .ok st → c ∈ st.plain → t.BreaksOut c →
      t.BreaksOut n

theorem breaksOut_iff {t : Tree} {n : NodeId} {st : Stmt} (h : t.stmt n = .ok st) :
    t.BreaksOut n ↔ st = .breakOut ∨ ∃ c ∈ st.plain, t.BreaksOut c := by
  constructor
  · intro hout
    cases hout with
    | here hs => exact .inl (Except.ok.inj (h.symm.trans hs))
    | plain hs hc hout =>
      cases h.symm.trans hs
      exact .inr ⟨_, hc, hout⟩
  · rintro (rfl | ⟨c, hc, hout⟩)
    · exact .here h
    · exact .plain h hc hout

inductive Endless (t : Tree) : Stmt → (body : NodeId) → Prop
  | whileLoop {cond body : NodeId} : t.expr cond = .ok (.literal (.bool true)) →
      t.Endless (.whileLoop cond body) body
  | doLoop {cond body : NodeId} : t.expr cond = .ok (.literal (.bool true)) →
      t.Endless (.doLoop body cond) body
  | forLoop (init update : List NodeId) (body : NodeId) :
      t.Endless (.forLoop init none update body) body

def placesUnbroken (t : Tree) : Places where
  expr _ := True
  stmt ks n := ks = [] → ¬ t.BreaksOut n

theorem placesUnbroken_over (t : Tree) : t.placesUnbroken.Over t.placesUnbroken t where
  child _ _ _ := trivial
  grandchild _ _ _ _ _ := trivial
  part _ _ _ := trivial
  inner hn hs hc hks hout := hn hks (.plain hs hc hout)
  body _ _ _ hks := nomatch hks

end Tree

namespace Frame

/-- The same frames, the innermost of which is that of a loop and has gathered no `break`. -/
def Unbroken (fs gs : List Frame) : Prop :=
  fs = gs ∧ ∃ f rest, fs = f :: rest ∧ f.kind = .loop ∧ f.breaks.unreachable = true

variable {s : State} {ks : List FrameKind}

theorem routes_addBreak_unbroken (hks : ks ≠ []) :
    Routes (Surrounded Unbroken ks) (addBreak s) := by
  rintro fs gs h
  cases ks with
  | nil => exact absurd rfl hks
  | cons kind ks =>
    obtain ⟨f, rest, rest', rfl, rfl, rfl, hrest⟩ := h.cons_inv
    exact .inl ⟨_, _, rfl, rfl, hrest.cons { f with breaks := f.breaks.merge s }⟩

/-- A `continue` reaches the innermost loop, and leaves the breaks of all frames alone. -/
theorem routes_addContinue_unbroken : Routes (Surrounded Unbroken ks) (addContinue s) := by
  intro fs gs h
  induction ks generalizing fs gs with
  -- no frame was entered since: the innermost is that of the endless loop
  | nil =>
    obtain ⟨rfl, f, rest, rfl, hkind, hbreaks⟩ := Surrounded.nil_iff.1 h
    refine .inl ⟨{ f with continues := f.continues.merge s } :: rest, _, ?_, ?_,
      Surrounded.nil_iff.2 ⟨rfl, _, rest, rfl, hkind, hbreaks⟩⟩ <;>
      simp only [addContinue, hkind]
  | cons kind ks ih =>
    obtain ⟨f, rest, rest', rfl, rfl, rfl, hrest⟩ := h.cons_inv
    cases hkind : f.kind with
    | loop =>
      refine .inl ⟨{ f with continues := f.continues.merge s } :: rest,
        { f with continues := f.continues.merge s } :: rest', ?_, ?_,
        hkind ▸ hrest.cons { f with continues := f.continues.merge s }⟩ <;>
        simp only [addContinue, hkind]
    -- a switch hands the `continue` on
    | switch =>
      simp only [addContinue, hkind]
      rcases ih rest rest' hrest with ⟨fs', gs', hf, hg, hfg⟩ | ⟨hf, hg⟩
      · refine .inl ⟨f :: fs', f :: gs', by rw [hf]; rfl, by rw [hg]; rfl, hkind ▸ hfg.cons f⟩
      · exact .inr ⟨by rw [hf]; rfl, by rw [hg]; rfl⟩

end Frame

namespace Context

variable (ctx : Context)

abbrev unbroken : Simulation :=
  ctx.alongside fun ks _ σ τ => Surrounded Frame.Unbroken ks σ.frames τ.frames

theorem placeLaws_unbroken : ctx.unbroken.PlaceLaws ctx.tree.placesUnbroken := by
  have hrouted : ∀ {ks n route}, Frame.Routes (Surrounded Frame.Unbroken ks) route →
      ctx.unbroken.Routed ks n route :=
    Simulation.routed_of_frames id (fun _ h => h) fun _ _ _ _ => trivial
  exact ctx.placeLaws_alongside
    (fun hn hs => hrouted (Frame.routes_addBreak_unbroken fun hks => hn hks (.here hs)))
    fun _ _ => hrouted Frame.routes_addContinue_unbroken

theorem related_unbroken (depth : Nat) : ctx.unbroken.Related ctx.tree.placesUnbroken
    (ctx.evaluators depth) (ctx.evaluators depth) :=
  Simulation.related_evaluators (ctx.laws_beside Surrounded.stable trivial
    ctx.placeLaws_unbroken ctx.placeLaws_unbroken ctx.tree.placesUnbroken_over) trivial depth

variable {depth : Nat} {n body : NodeId} {st : Stmt} {s : State}

theorem ensures_framed (hbody : ¬ ctx.tree.BreaksOut body) :
    (Walk.framed .loop ((ctx.evaluators depth).stmt body s)).Ensures
      fun r => r.2.breaks.unreachable = true := by
  rintro σ ⟨out, f⟩ τ h
  obtain ⟨ρ, hout, rfl, -⟩ := Walk.framed_eq_ok.1 h
  have hnew : Surrounded Frame.Unbroken [] (σ.enterFrame .loop).frames
      (σ.enterFrame .loop).frames :=
    Surrounded.nil_iff.2 ⟨rfl, _, _, rfl, rfl, rfl⟩
  have hagree := (ctx.related_unbroken depth).stmt (n := body) (s := s) (fun _ => hbody) trivial 0
    _ _ hnew
  rw [hout] at hagree
  obtain ⟨-, f, rest, hframes, -, hbreaks⟩ := Surrounded.nil_iff.1 hagree.2.2
  rw [hframes]
  exact hbreaks

theorem ensures_cond_true (htrue : ctx.tree.expr n = .ok (.literal (.bool true))) :
    ((ctx.evaluators depth).cond n s).Ensures fun b => b.whenFalse.unreachable = true := by
  cases depth with
  | zero => exact Walk.ensures_throw _
  | succ depth =>
    cases hs : s.unreachable with
    | true =>
      have hdead : (ctx.evaluators (depth + 1)).cond n s = pure .dead := if_pos hs
      rw [hdead]
      exact Walk.ensures_pure rfl
    | false =>
      rw [ctx.cond_true htrue hs]
      exact Walk.ensures_pure rfl

theorem ensures_pass {pass : State → Walk Pass} (hendless : ctx.tree.Endless st body)
    (hbody : ¬ ctx.tree.BreaksOut body) (hpass : (ctx.evaluators depth).pass? st = some pass)
    (head : State) : (pass head).Ensures fun p => p.exit.unreachable = true := by
  have hexit : ∀ {last breaks : State}, last.unreachable = true → breaks.unreachable = true →
      (last.merge breaks).unreachable = true := fun hlast hbreaks => by
    rw [State.merge_unreachable, hlast, hbreaks, Bool.and_self]
  cases hendless with
  | whileLoop htrue =>
    cases hpass
    refine (ctx.ensures_cond_true htrue).bind fun branches hfalse => ?_
    refine (ctx.ensures_framed hbody).bind ?_
    rintro ⟨out, f⟩ hbreaks
    exact Walk.ensures_pure (hexit hfalse hbreaks)
  | doLoop htrue =>
    cases hpass
    refine (ctx.ensures_framed hbody).bind ?_
    rintro ⟨out, f⟩ hbreaks
    refine (ctx.ensures_cond_true htrue).bind fun branches hfalse => ?_
    exact Walk.ensures_pure (hexit hfalse hbreaks)
  | forLoop init update =>
    cases hpass
    -- without a condition nothing leaves at the head
    have hnone : ((ctx.evaluators depth).optionalCond none head).Ensures
        fun b => b.whenFalse.unreachable = true := Walk.ensures_pure rfl
    refine hnone.bind fun branches hfalse => ?_
    refine (ctx.ensures_framed hbody).bind ?_
    rintro ⟨out, f⟩ hbreaks
    refine Walk.ensures_true.bind ?_
    rintro ⟨values, back⟩ _
    exact Walk.ensures_pure (hexit hfalse hbreaks)

/-- Whatever the state at the head settles to, the last pass decides how the loop is left. -/
theorem ensures_loop {pass : State → Walk Pass}
    (hpass : ∀ head, (pass head).Ensures fun p => p.exit.unreachable = true) (entry : State) :
    (ctx.loop n pass entry).Ensures (·.unreachable = true) := by
  refine Walk.ensures_true.bind ?_
  rintro ⟨head, iterations⟩ _
  refine Walk.ensures_true.bind fun _ _ => ?_
  exact (hpass head).bind fun p hexit => Walk.ensures_pure hexit

theorem ensures_stmtOf (hendless : ctx.tree.Endless st body) (hbody : ¬ ctx.tree.BreaksOut body) :
    ((ctx.evaluators depth).stmtOf ctx n s st).Ensures (·.unreachable = true) := by
  have hpasses : ∀ {pass}, (ctx.evaluators depth).pass? st = some pass → ∀ head,
      (pass head).Ensures fun p => p.exit.unreachable = true := ctx.ensures_pass hendless hbody
  cases hendless with
  | whileLoop | doLoop => exact ctx.ensures_loop (hpasses rfl) s
  | forLoop init update =>
    refine Walk.ensures_true.bind fun entry _ => ?_
    split
    · rename_i hdead
      exact Walk.ensures_pure hdead
    · exact ctx.ensures_loop (hpasses rfl) entry

theorem ensures_stmtAt (hst : ctx.tree.stmt n = .ok st) (hendless : ctx.tree.Endless st body)
    (hbody : ¬ ctx.tree.BreaksOut body) :
    ((ctx.evaluators depth).stmtAt ctx n s).Ensures (·.unreachable = true) := by
  refine (Walk.ensures_require _).bind fun st' hst' => ?_
  cases hst.symm.trans hst'
  split
  · rename_i hdead
    exact Walk.ensures_true.bind fun _ _ => Walk.ensures_pure hdead
  · refine Walk.ensures_true.bind fun _ _ => ?_
    refine (ctx.ensures_stmtOf hendless hbody).bind fun out hout => ?_
    exact Walk.ensures_true.bind fun _ _ => Walk.ensures_pure hout

end Context

/-- Nothing is reached after a loop whose condition always holds and whose body has no `break` for
it, wherever it stands and whatever state it is entered in. A `break` inside a loop or a switch of
the body is meant for that one. -/
theorem endless_loop_ends_the_path (ctx : Context) {n body : NodeId} {st : Stmt}
    (hst : ctx.tree.stmt n = .ok st) (hendless : ctx.tree.Endless st body)
    (hbody : ¬ ctx.tree.BreaksOut body) (depth : Nat) (s out : State) (σ τ : Session)
    (h : (ctx.evaluators depth).stmt n s σ = .ok out τ) : out.unreachable = true := by
  cases depth with
  | zero => cases h
  | succ depth => exact ctx.ensures_stmtAt hst hendless hbody σ out τ h

theorem Walk.succeeds_of_map_run' {α β : Type} {m : Walk α} {f : Session → β} {b : β} {σ : Session}
    (h : ((m *> get).run' σ).map f = some b) : ∃ a τ, m σ = .ok a τ ∧ f τ = b := by
  unfold EStateM.run' EStateM.run at h
  cases hget : (m *> get) σ with
  | ok ρ τ =>
    rw [hget] at h
    rw [seqRight_eq_bind] at hget
    obtain ⟨a, τ', hm, hτ⟩ := Walk.bind_eq_ok.1 hget
    cases hτ
    exact ⟨a, _, hm, Option.some.inj h⟩
  | error halt τ =>
    rw [hget] at h
    cases h

/-- `while (true) { switch (i) { case 0: break; case 7: continue; } for (;;) break;
if (i > 5) return; i++; }` -/
def serviceLoop : Tree where
  nodes := #[.expr (.name ⟨0⟩), .expr (.literal (.bool true)), .stmt .breakOut, .stmt .continueLoop,
    .stmt (.switch ⟨0⟩ [⟨[.int 0], false, [⟨2⟩]⟩, ⟨[.int 7], false, [⟨3⟩]⟩]),
    .stmt (.forLoop [] none [] ⟨2⟩), .expr (.literal (.int 5)), .expr (.compare .gt ⟨0⟩ ⟨6⟩),
    .stmt (.ret none), .stmt (.branch ⟨7⟩ ⟨8⟩ none), .expr (.unary .postInc ⟨0⟩),
    .stmt (.expr ⟨10⟩), .stmt (.block [⟨4⟩, ⟨5⟩, ⟨9⟩, ⟨11⟩]), .stmt (.whileLoop ⟨1⟩ ⟨12⟩)]
  decls := #[⟨"i", .primitive .int, [], .var⟩]

theorem serviceLoop_body : ¬ serviceLoop.BreaksOut ⟨12⟩ := by
  have hblock : serviceLoop.stmt ⟨12⟩ = .ok (.block [⟨4⟩, ⟨5⟩, ⟨9⟩, ⟨11⟩]) := rfl
  have hswitch : serviceLoop.stmt ⟨4⟩ =
      .ok (.switch ⟨0⟩ [⟨[.int 0], false, [⟨2⟩]⟩, ⟨[.int 7], false, [⟨3⟩]⟩]) := rfl
  have hloop : serviceLoop.stmt ⟨5⟩ = .ok (.forLoop [] none [] ⟨2⟩) := rfl
  have hbranch : serviceLoop.stmt ⟨9⟩ = .ok (.branch ⟨7⟩ ⟨8⟩ none) := rfl
  have hreturn : serviceLoop.stmt ⟨8⟩ = .ok (.ret none) := rfl
  have hstep : serviceLoop.stmt ⟨11⟩ = .ok (.expr ⟨10⟩) := rfl
  simp [Tree.breaksOut_iff hblock, Tree.breaksOut_iff hswitch, Tree.breaksOut_iff hloop,
    Tree.breaksOut_iff hbranch, Tree.breaksOut_iff hreturn, Tree.breaksOut_iff hstep, Stmt.plain]

/-- The loop is left by its `return` only. -/
theorem serviceLoop_ends_the_path : ∃ out τ,
    ((serviceLoop.context {}).evaluators 8).stmt ⟨13⟩ .initial {} = .ok out τ ∧
    τ.returns.unreachable = false ∧ out.unreachable = true := by
  have hanswer : ((((serviceLoop.context {}).evaluators 8).stmt ⟨13⟩ .initial *> get).run' {}).map
      (·.returns.unreachable) = some false := by decide +kernel
  obtain ⟨out, τ, hout, hreturns⟩ := Walk.succeeds_of_map_run' hanswer
  exact ⟨out, τ, hout, hreturns, endless_loop_ends_the_path (serviceLoop.context {}) rfl
    (.whileLoop rfl) serviceLoop_body 8 .initial out {} τ hout⟩

end ValueFlow

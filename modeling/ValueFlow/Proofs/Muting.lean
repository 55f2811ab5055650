import ValueFlow.Proofs.Termination

namespace ValueFlow

namespace Context

variable (ctx : Context) {R : List FrameKind → Nat → Session → Session → Prop}
  {decl : DeclId → Prop} {halt : Halt → Prop}

/-- The analysis beside itself, from sessions related by `R`; it keeps to the declarations of `decl`
and fails as `halt` allows. -/
def beside (R : List FrameKind → Nat → Session → Session → Prop) (decl : DeclId → Prop)
    (halt : Halt → Prop) : Simulation where
  tree := ctx.tree
  leftSettings := ctx.settings
  rightSettings := ctx.settings
  returnType := ctx.returnType
  returnContracts := ctx.returnContracts
  value _ := True
  state _ := True
  decl := decl
  halt := halt
  session := R

abbrev alongside (R : List FrameKind → Nat → Session → Session → Prop) : Simulation :=
  ctx.beside R (fun _ => True) fun _ => True

section Laws

variable (h : Session.Stable (fun _ => True) R)

include h

theorem loopLaws_beside (hexhausted : halt .exhausted) : (ctx.beside R decl halt).LoopLaws :=
  Simulation.loopLaws_of_stable rfl h (fun _ _ _ _ _ => trivial) (fun _ _ _ => trivial) hexhausted

theorem laws_beside {N' N : Places} (hexhausted : halt .exhausted)
    (hhere : (ctx.beside R decl halt).PlaceLaws N') (hbelow : (ctx.beside R decl halt).PlaceLaws N)
    (hdown : N'.Over N ctx.tree) : (ctx.beside R decl halt).Laws N' N where
  value := Simulation.valueLaws_trivial
  state := Simulation.stateLaws_trivial
  session := Simulation.sessionLaws_of_stable rfl h
  loop := (ctx.loopLaws_beside h hexhausted).loop
  here := hhere
  below := hbelow
  down := hdown

omit h in
theorem placeLaws_alongside {N : Places}
    (hbreak : ∀ {ks n s}, N.stmt ks n → ctx.tree.stmt n = .ok .breakOut →
      (ctx.alongside R).Routed ks n (Frame.addBreak s))
    (hcontinue : ∀ {ks n s}, N.stmt ks n → ctx.tree.stmt n = .ok .continueLoop →
      (ctx.alongside R).Routed ks n (Frame.addContinue s)) : (ctx.alongside R).PlaceLaws N :=
  Simulation.placeLaws_of_total (fun _ => trivial) (fun _ => trivial) (fun _ _ => trivial)
    (fun _ _ _ _ => trivial) (fun hn hs _ => hbreak hn hs) fun hn hs _ => hcontinue hn hs

variable (hroutes : ∀ ks n s, (ctx.alongside R).Routed ks n (Frame.addBreak s) ∧
  (ctx.alongside R).Routed ks n (Frame.addContinue s))

include hroutes

theorem laws_alongside : (ctx.alongside R).Laws everywhere everywhere := by
  have hplaces : (ctx.alongside R).PlaceLaws everywhere :=
    ctx.placeLaws_alongside (fun _ _ => (hroutes _ _ _).1) fun _ _ => (hroutes _ _ _).2
  exact ctx.laws_beside h trivial hplaces hplaces (everywhere_over ctx.tree)

theorem related_alongside (depth : Nat) :
    (ctx.alongside R).Related everywhere (ctx.evaluators depth) (ctx.evaluators depth) :=
  Simulation.related_evaluators (ctx.laws_alongside h hroutes) trivial depth

theorem agree_pass {depth : Nat} {stmt : Stmt} {pass : State → Walk Pass}
    (hpass : (ctx.evaluators depth).pass? stmt = some pass) (head : State)
    (ks : List FrameKind) :
    (ctx.alongside R).InStep ks (ctx.alongside R).Passed (pass head) (pass head) :=
  Simulation.inStep_pass (ctx.laws_alongside h hroutes) (ctx.related_alongside h hroutes depth)
    (fun _ _ => trivial) (fun _ _ => trivial) hpass hpass trivial

theorem agree_solve {depth : Nat} {stmt : Stmt} {pass : State → Walk Pass}
    (hpass : (ctx.evaluators depth).pass? stmt = some pass) {head : State}
    (hlive : head.unreachable = false) (n : NodeId) (bound iteration : Nat)
    (ks : List FrameKind) :
    (ctx.alongside R).InStep ks (ctx.alongside R).Headed (ctx.solve n pass bound iteration head)
      (ctx.solve n pass bound iteration head) :=
  Simulation.inStep_solve (ctx.loopLaws_beside h trivial)
    (fun s _ _ => ctx.agree_pass h hroutes hpass s ks) bound iteration trivial hlive

end Laws

end Context

section Frames

variable {s : State} {fs gs : List Frame}

/-- A jump leaves the frames as they are but for what they have gathered. -/
theorem Frame.kinds_addBreak (h : addBreak s fs = some gs) :
    gs.map (·.kind) = fs.map (·.kind) := by
  cases fs with
  | nil => cases h
  | cons f fs =>
    cases h
    rfl

theorem Frame.kinds_addContinue (h : addContinue s fs = some gs) :
    gs.map (·.kind) = fs.map (·.kind) := by
  induction fs generalizing gs with
  | nil => cases h
  | cons f fs ih =>
    unfold addContinue at h
    split at h
    · cases h
      rfl
    · obtain ⟨rest, hrest, rfl⟩ := Option.map_eq_some_iff.1 h
      rw [List.map_cons, List.map_cons, ih hrest]

theorem Frame.routes_addBreak_same {kinds : List FrameKind} :
    Frame.Routes (fun fs gs => fs = gs ∧ fs.map (·.kind) = kinds) (addBreak s) :=
  Frame.routes_same fun _ _ hkinds h => (kinds_addBreak h).trans hkinds

theorem Frame.routes_addContinue_same {kinds : List FrameKind} :
    Frame.Routes (fun fs gs => fs = gs ∧ fs.map (·.kind) = kinds) (addContinue s) :=
  Frame.routes_same fun _ _ hkinds h => (kinds_addContinue h).trans hkinds

end Frames

/-- Two sessions with the same frames and returns, the first on the way from `start`: the frames
entered and the loops being solved are on top of what was there, and if `start` is muted nothing has
been reported or traced. -/
structure Session.Shadows (start : Session) (ks : List FrameKind) (k : Nat) (σ τ : Session) :
    Prop where
  frames : σ.frames = τ.frames
  returns : σ.returns = τ.returns
  kinds : σ.kinds = ks ++ start.kinds
  muted : σ.muted = start.muted + k
  silent : 0 < start.muted → σ.report = start.report ∧ σ.events = start.events

/-- Two sessions that have reported and traced the same, in frames of the same kinds. -/
structure Session.Echoes (base : List FrameKind) (ks : List FrameKind) (σ τ : Session) : Prop where
  frames : Lockstep (fun _ => True) base ks σ.frames τ.frames
  muted : σ.muted = τ.muted
  report : σ.report = τ.report
  events : σ.events = τ.events

namespace Session

variable {start σ τ : Session} {base ks : List FrameKind} {k : Nat}

theorem find_of_muted (n : NodeId) (f : Finding) (h : 0 < σ.muted) : σ.find n f = σ :=
  if_neg (Nat.ne_of_gt h)

theorem trace_of_muted (e : Entry) (h : 0 < σ.muted) : σ.trace e = σ :=
  if_neg (Nat.ne_of_gt h)

theorem Shadows.muted_pos (h : start.Shadows ks k σ τ) (hstart : 0 < start.muted) :
    0 < σ.muted := by
  have hmuted := h.muted
  omega

/-- An effect on report and notes that a muted session does not feel. -/
theorem Shadows.effect {f : Session → Session} (h : start.Shadows ks k σ τ)
    (hframes : ∀ σ, (f σ).frames = σ.frames)
    (hreturns : ∀ σ, (f σ).returns = σ.returns ∧ (f σ).muted = σ.muted)
    (hsilent : 0 < σ.muted → f σ = σ) : start.Shadows ks k (f σ) (f τ) := by
  constructor
  · rw [hframes, hframes, h.frames]
  · rw [(hreturns σ).1, (hreturns τ).1, h.returns]
  · unfold Session.kinds
    rw [hframes]
    exact h.kinds
  · rw [(hreturns σ).2, h.muted]
  · intro hstart
    rw [hsilent (h.muted_pos hstart)]
    exact h.silent hstart

theorem stable_shadows (start : Session) : Stable (fun _ => True) start.Shadows where
  find n f h := h.effect (find_frames n f) (find_returns n f) (find_of_muted n f)
  trace {_ _ _ _ e} _ h := h.effect (trace_frames e) (trace_returns e) (trace_of_muted e)
  note {_ _ σ _ e} he h := by
    refine ⟨h.frames, h.returns, h.kinds, h.muted, fun hstart => ?_⟩
    rw [note_events, he]
    exact h.silent hstart
  returning {_ _ _ _ s} _ h :=
    ⟨h.frames, congrArg (·.merge s) h.returns, h.kinds, h.muted, h.silent⟩
  enter kind h :=
    ⟨congrArg (_ :: ·) h.frames, h.returns, congrArg (kind :: ·) h.kinds, h.muted, h.silent⟩
  leave {kind ks _ σ τ} h := by
    refine ⟨congrArg List.tail h.frames, h.returns, ?_, h.muted, h.silent⟩
    -- the innermost kind goes from both sides
    have hkinds := congrArg List.tail h.kinds
    rwa [kinds, ← List.map_tail] at hkinds
  gathered {kind ks _ σ τ} h := by
    obtain ⟨f, rest, hf, -, -⟩ := List.map_eq_cons_iff.1 h.kinds
    exact ⟨f, rest, rest, hf, h.frames ▸ hf, trivial, trivial⟩
  mute h := ⟨h.frames, h.returns, h.kinds, congrArg (· + 1) h.muted, h.silent⟩
  unmute h := ⟨h.frames, h.returns, h.kinds, congrArg (· - 1) h.muted, h.silent⟩

theorem Echoes.find (h : Echoes base ks σ τ) (n : NodeId) (f : Finding) :
    Echoes base ks (σ.find n f) (τ.find n f) := by
  constructor
  · simp only [find_frames, h.frames]
  · rw [(find_returns n f σ).2, (find_returns n f τ).2, h.muted]
  · simp only [Session.find, h.muted, h.report]
    split
    · rfl
    · exact h.report
  · rw [find_events, find_events, h.events]

theorem Echoes.trace (h : Echoes base ks σ τ) (e : Entry) :
    Echoes base ks (σ.trace e) (τ.trace e) := by
  constructor
  · simp only [trace_frames, h.frames]
  · rw [(trace_returns e σ).2, (trace_returns e τ).2, h.muted]
  · rw [trace_report, trace_report, h.report]
  · rw [trace_events, trace_events, h.muted, h.events]

theorem stable_echoes (base : List FrameKind) :
    Stable (fun _ => True) fun ks _ => Echoes base ks where
  find n f h := h.find n f
  trace _ h := h.trace _
  note {_ _ σ τ e} he h := by
    refine ⟨h.frames, h.muted, h.report, ?_⟩
    rw [note_events, note_events, h.events]
  returning _ h := ⟨h.frames, h.muted, h.report, h.events⟩
  enter kind h := ⟨⟨rfl, rfl, trivial, trivial, h.frames⟩, h.muted, h.report, h.events⟩
  leave h := by
    obtain ⟨f, rest, rest', hf, hg, -, -, -, hrest⟩ := h.frames.cons_inv
    refine ⟨?_, h.muted, h.report, h.events⟩
    simp only [Session.leaveFrame, hf, hg]
    exact hrest
  gathered h := by
    obtain ⟨f, rest, rest', hf, hg, -⟩ := h.frames.cons_inv
    exact ⟨f, rest, rest', hf, hg, trivial, trivial⟩
  mute h := ⟨h.frames, congrArg (· + 1) h.muted, h.report, h.events⟩
  unmute h := ⟨h.frames, congrArg (· - 1) h.muted, h.report, h.events⟩

end Session

/-- Two answers are the same, and so are the states that jumps and returns have gathered. -/
def SameAnswer {α : Type} : EStateM.Result Halt Session α → EStateM.Result Halt Session α → Prop
  | .ok a σ, .ok b τ => a = b ∧ σ.frames = τ.frames ∧ σ.returns = τ.returns
  | .error e σ, .error e' τ => e = e' ∧ σ.frames = τ.frames ∧ σ.returns = τ.returns
  | _, _ => False

/-- A step that is silent when muted, restores the counter and the frames whether it succeeds or
fails, and answers the same whether it is muted or not. -/
structure Walk.Transparent {α : Type} (m : Walk α) : Prop where
  silent (σ : Session) : 0 < σ.muted →
    (Session.ofResult (m σ)).report = σ.report ∧ (Session.ofResult (m σ)).events = σ.events
  balanced (σ : Session) :
    (Session.ofResult (m σ)).muted = σ.muted ∧ (Session.ofResult (m σ)).kinds = σ.kinds
  blind (σ τ : Session) : σ.frames = τ.frames → σ.returns = τ.returns → SameAnswer (m σ) (m τ)

namespace Context

variable (ctx : Context) {α : Type} {m : Walk α} {Q : α → Prop} {n : NodeId} {depth : Nat}
  {stmt : Stmt} {pass : State → Walk Pass} {head entry : State}

theorem routed_shadows (start : Session) {halt : Halt → Prop} {decl : DeclId → Prop}
    {ks : List FrameKind} {route : List Frame → Option (List Frame)}
    (hstray : ∀ fs : List Frame, fs.map (·.kind) = ks ++ start.kinds → route fs = none →
      halt (.malformed (.strayJump n)))
    (h : Frame.Routes (fun fs gs => fs = gs ∧ fs.map (·.kind) = ks ++ start.kinds) route) :
    (ctx.beside start.Shadows decl halt).Routed ks n route :=
  Simulation.routed_of_frames (fun hσ => ⟨hσ.frames, hσ.kinds⟩)
    (fun hσ hfg => ⟨hfg.1, hσ.returns, hfg.2, hσ.muted, hσ.silent⟩)
    (fun fs _ hfg hnone => hstray fs hfg.2 hnone) h

theorem routes_shadows (start : Session) (ks : List FrameKind) (n : NodeId) (s : State) :
    (ctx.alongside start.Shadows).Routed ks n (Frame.addBreak s) ∧
      (ctx.alongside start.Shadows).Routed ks n (Frame.addContinue s) :=
  ⟨ctx.routed_shadows start (fun _ _ _ => trivial) Frame.routes_addBreak_same,
    ctx.routed_shadows start (fun _ _ _ => trivial) Frame.routes_addContinue_same⟩

theorem routes_echoes (base ks : List FrameKind) (n : NodeId) (s : State) :
    (ctx.alongside fun ks _ => Session.Echoes base ks).Routed ks n (Frame.addBreak s) ∧
      (ctx.alongside fun ks _ => Session.Echoes base ks).Routed ks n (Frame.addContinue s) := by
  have hrouted : ∀ {route : List Frame → Option (List Frame)},
      Frame.Routes (Lockstep (fun _ => True) base ks) route →
      (ctx.alongside fun ks _ => Session.Echoes base ks).Routed ks n route :=
    Simulation.routed_of_frames (fun h => h.frames)
      (fun h hlock => ⟨hlock, h.muted, h.report, h.events⟩) fun _ _ _ _ => trivial
  exact ⟨hrouted (Lockstep.routes_addBreak (fun _ _ => trivial) trivial),
    hrouted (Lockstep.routes_addContinue (fun _ _ => trivial) trivial)⟩

variable {ctx} in
theorem session_of_agree {R : List FrameKind → Nat → Session → Session → Prop}
    {ks : List FrameKind} {k : Nat} {r r' : EStateM.Result Halt Session α}
    (h : (ctx.alongside R).Agree ks k Q r r') :
    R ks k (Session.ofResult r) (Session.ofResult r') := by
  cases r <;> cases r'
  · exact h.2.2
  · exact h.elim
  · exact h.elim
  · exact h.2.2

theorem transparent_of_inStep {Q : Session → α → Prop}
    (h : ∀ start : Session, (ctx.alongside start.Shadows).InStep [] (Q start) m m) :
    m.Transparent := by
  -- the step beside itself, each time from the session that it is on the way from; the second
  -- session may differ in all that is not asked for here, the counter among it
  have hwalk : ∀ σ τ : Session, σ.frames = τ.frames → σ.returns = τ.returns →
      (ctx.alongside σ.Shadows).Agree [] 0 (Q σ) (m σ) (m τ) := fun σ τ hframes hreturns =>
    h σ 0 σ τ ⟨hframes, hreturns, rfl, rfl, fun _ => ⟨rfl, rfl⟩⟩
  constructor
  · exact fun σ => (session_of_agree (hwalk σ σ rfl rfl)).silent
  · intro σ
    have hσ := session_of_agree (hwalk σ σ rfl rfl)
    exact ⟨hσ.muted, hσ.kinds⟩
  · intro σ τ hframes hreturns
    have hagree := hwalk σ τ hframes hreturns
    have hsame := session_of_agree hagree
    cases hl : m σ <;> cases hr : m τ <;> rw [hl, hr] at hagree hsame
    · exact ⟨hagree.1, hsame.frames, hsame.returns⟩
    · exact hagree.elim
    · exact hagree.elim
    · exact ⟨hagree.1, hsame.frames, hsame.returns⟩

theorem transparent_solve (hpass : (ctx.evaluators depth).pass? stmt = some pass)
    (hlive : head.unreachable = false) (n : NodeId) (bound iteration : Nat) :
    (ctx.solve n pass bound iteration head).Transparent :=
  ctx.transparent_of_inStep fun start =>
    ctx.agree_solve start.stable_shadows (ctx.routes_shadows start) hpass hlive n bound iteration []

theorem ofResult_muted (m : Walk α) (σ : Session) :
    Session.ofResult (Walk.muted m σ) = (Session.ofResult (m σ.mute)).unmute := by
  unfold Walk.muted
  cases m σ.mute <;> rfl

theorem echoes_muted_solve (hpass : (ctx.evaluators depth).pass? stmt = some pass)
    (hlive : head.unreachable = false) (n : NodeId) (bound iteration : Nat) (σ : Session) :
    Session.Echoes σ.kinds [] σ
      (Session.ofResult (Walk.muted (ctx.solve n pass bound iteration head) σ)) := by
  have hsolve := ctx.transparent_solve hpass hlive n bound iteration
  have hsilent := hsolve.silent σ.mute (Nat.succ_pos σ.muted)
  have hbalanced := hsolve.balanced σ.mute
  rw [ofResult_muted]
  exact ⟨⟨rfl, hbalanced.2⟩, (congrArg (· - 1) hbalanced.1).symm, hsilent.1.symm, hsilent.2.symm⟩

/-- Once the loop is solved, what remains is the pass from its head. -/
theorem loop_of_solved {iterations : Nat} {σ τ : Session}
    (h : Walk.muted (ctx.solve n pass (ctx.passBound entry) 0 entry) σ = .ok (head, iterations) τ) :
    ctx.loop n pass entry σ =
      (do let p ← pass head; pure p.exit) (τ.note (.stabilized n iterations)) := by
  show EStateM.bind _ _ σ = _
  rw [EStateM.bind, h]
  rfl

theorem loop_of_unsolved {e : Halt} {σ τ : Session}
    (h : Walk.muted (ctx.solve n pass (ctx.passBound entry) 0 entry) σ = .error e τ) :
    ctx.loop n pass entry σ = .error e τ := by
  show EStateM.bind _ _ σ = _
  rw [EStateM.bind, h]

theorem ofResult_exit (m : Walk Pass) (σ : Session) :
    Session.ofResult ((do let p ← m; pure p.exit : Walk State) σ) = Session.ofResult (m σ) := by
  show Session.ofResult (EStateM.bind _ _ σ) = _
  unfold EStateM.bind
  cases m σ <;> rfl

/-- Of a loop that is solved, the report and the trace are those of the pass from its head. -/
theorem loop_echoes_pass (hpass : (ctx.evaluators depth).pass? stmt = some pass)
    (hlive : entry.unreachable = false) {iterations : Nat} {σ τ : Session}
    (h : Walk.muted (ctx.solve n pass (ctx.passBound entry) 0 entry) σ = .ok (head, iterations) τ) :
    Session.Echoes σ.kinds [] (Session.ofResult (pass head σ))
      (Session.ofResult (ctx.loop n pass entry σ)) := by
  have hsolved := ctx.echoes_muted_solve hpass hlive n (ctx.passBound entry) 0 σ
  rw [h] at hsolved
  -- the note that the loop is solved goes to the history, but is no event
  have hnoted : Session.Echoes σ.kinds [] σ (τ.note (.stabilized n iterations)) :=
    ⟨hsolved.frames, hsolved.muted, hsolved.report, hsolved.events⟩
  rw [ctx.loop_of_solved h, ofResult_exit]
  exact session_of_agree (ctx.agree_pass (Session.stable_echoes σ.kinds)
    (ctx.routes_echoes σ.kinds) hpass head [] 0 _ _ hnoted)

end Context

/-- Muting and frames are transparent to every expression, condition and statement. Whatever session
a loop is walked in, if it cannot be solved it fails with nothing reported or traced; and if it is
solved, it reports and traces what a pass from its head would report and trace there by itself. -/
theorem muting_and_frames_are_transparent (ctx : Context) (depth : Nat) :
    (∀ n s, ((ctx.evaluators depth).expr n s).Transparent ∧
      ((ctx.evaluators depth).cond n s).Transparent ∧
      ((ctx.evaluators depth).stmt n s).Transparent) ∧
    ∀ n stmt pass entry σ, (ctx.evaluators depth).pass? stmt = some pass →
      entry.unreachable = false →
      (∀ e τ, Walk.muted (ctx.solve n pass (ctx.passBound entry) 0 entry) σ = .error e τ →
        ctx.loop n pass entry σ = .error e τ ∧ τ.report = σ.report ∧ τ.events = σ.events) ∧
      ∀ head iterations τ,
        Walk.muted (ctx.solve n pass (ctx.passBound entry) 0 entry) σ =
          .ok (head, iterations) τ →
        (Session.ofResult (ctx.loop n pass entry σ)).report =
            (Session.ofResult (pass head σ)).report ∧
          (Session.ofResult (ctx.loop n pass entry σ)).events =
            (Session.ofResult (pass head σ)).events := by
  have hrelated := fun start =>
    ctx.related_alongside (Session.stable_shadows start) (ctx.routes_shadows start) depth
  constructor
  · intro n s
    exact ⟨ctx.transparent_of_inStep fun start => (hrelated start).expr [] trivial trivial,
      ctx.transparent_of_inStep fun start => (hrelated start).cond [] trivial trivial,
      ctx.transparent_of_inStep fun start => (hrelated start).stmt trivial trivial⟩
  · intro n stmt pass entry σ hpass hlive
    constructor
    · intro e τ h
      have hsolved := ctx.echoes_muted_solve hpass hlive n (ctx.passBound entry) 0 σ
      rw [h] at hsolved
      exact ⟨ctx.loop_of_unsolved h, hsolved.report.symm, hsolved.events.symm⟩
    · intro head iterations τ h
      have hechoes := ctx.loop_echoes_pass hpass hlive h
      exact ⟨hechoes.report.symm, hechoes.events.symm⟩

def risingDivisor : Context where
  tree :=
    { nodes := #[.expr (.name ⟨0⟩), .expr (.literal (.int 10)), .expr (.arith .div ⟨1⟩ ⟨0⟩),
        .stmt (.expr ⟨2⟩), .expr (.unary .postInc ⟨0⟩), .stmt (.expr ⟨4⟩),
        .stmt (.block [⟨3⟩, ⟨5⟩]), .expr (.literal (.bool true)), .stmt (.whileLoop ⟨7⟩ ⟨6⟩)]
      decls := #[⟨"i", .primitive .int, [], .var⟩] }
  settings := { wideningThreshold := 0 }

def risingDivisor.entry : State := State.initial.set ⟨0⟩ (.int 0)

def risingDivisor.pass : State → Walk Pass := (risingDivisor.evaluators 4).whilePass ⟨7⟩ ⟨6⟩

/-- Two muted passes settle the head; then the division is found once and each of the three
statements is entered and left once, as in the pass from the head alone. -/
theorem risingDivisor_reports_last_pass : ∃ head τ,
    Walk.muted (risingDivisor.solve ⟨8⟩ risingDivisor.pass
      (risingDivisor.passBound risingDivisor.entry) 0 risingDivisor.entry) {} = .ok (head, 1) τ ∧
    (Session.ofResult (risingDivisor.loop ⟨8⟩ risingDivisor.pass risingDivisor.entry {})).report =
      (Session.ofResult (risingDivisor.pass head {})).report ∧
    (Session.ofResult (risingDivisor.loop ⟨8⟩ risingDivisor.pass risingDivisor.entry {})).events =
      (Session.ofResult (risingDivisor.pass head {})).events ∧
    (Session.ofResult (risingDivisor.pass head {})).report.size = 1 ∧
    (Session.ofResult (risingDivisor.pass head {})).events.length = 6 := by
  have hsolved : ∃ head τ, Walk.muted (risingDivisor.solve ⟨8⟩ risingDivisor.pass
        (risingDivisor.passBound risingDivisor.entry) 0 risingDivisor.entry) {} =
          .ok (head, 1) τ ∧
      (Session.ofResult (risingDivisor.pass head {})).report.size = 1 ∧
      (Session.ofResult (risingDivisor.pass head {})).events.length = 6 :=
    ⟨_, _, rfl, by decide +kernel, by decide +kernel⟩
  obtain ⟨head, τ, hsolve, hsize, hlength⟩ := hsolved
  have hloop := (muting_and_frames_are_transparent risingDivisor 4).2 ⟨8⟩ (.whileLoop ⟨7⟩ ⟨6⟩)
    risingDivisor.pass risingDivisor.entry {} rfl rfl
  obtain ⟨hreport, hevents⟩ := hloop.2 head 1 τ hsolve
  exact ⟨head, τ, hsolve, hreport, hevents, hsize, hlength⟩

end ValueFlow

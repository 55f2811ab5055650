import ValueFlow.Proofs.Resemblance

namespace ValueFlow

namespace Tree

/-- A `continue` inside the statement is meant for a loop around it. -/
inductive ContinuesOut (t : Tree) : NodeId → Prop
  | here {n : NodeId} : t.stmt n = .ok .continueLoop → t.ContinuesOut n
  | plain {n c : NodeId} {st : Stmt} : t.stmt n = .ok st → c ∈ st.plain → t.ContinuesOut c →
      t.ContinuesOut n
  | case {n c : NodeId} {st : Stmt} : t.stmt n = .ok st → (.switch, c) ∈ st.framed →
      t.ContinuesOut c → t.ContinuesOut n

theorem continuesOut_iff {t : Tree} {n : NodeId} {st : Stmt} (h : t.stmt n = .ok st) :
    t.ContinuesOut n ↔ st = .continueLoop ∨ (∃ c ∈ st.plain, t.ContinuesOut c) ∨
      ∃ c, (.switch, c) ∈ st.framed ∧ t.ContinuesOut c := by
  constructor
  · intro hout
    cases hout with
    | here hs => exact .inl (Except.ok.inj (h.symm.trans hs))
    | plain hs hc hout =>
      cases h.symm.trans hs
      exact .inr (.inl ⟨_, hc, hout⟩)
    | case hs hc hout =>
      cases h.symm.trans hs
      exact .inr (.inr ⟨_, hc, hout⟩)
  · rintro (rfl | ⟨c, hc, hout⟩ | ⟨c, hc, hout⟩)
    · exact .here h
    · exact .plain h hc hout
    · exact .case h hc hout

/-- A `for` loop, and the block that it is short for. -/
structure Desugaring (t : Tree) where
  forLoop : NodeId
  init : List NodeId
  cond : Option NodeId
  update : List NodeId
  body : NodeId
  block : NodeId
  whileLoop : NodeId
  test : NodeId
  inner : NodeId
  -- the updates as statements
  steps : List NodeId
  forLoop_eq : t.stmt forLoop = .ok (.forLoop init cond update body)
  block_eq : t.stmt block = .ok (.block (init ++ [whileLoop]))
  whileLoop_eq : t.stmt whileLoop = .ok (.whileLoop test inner)
  -- a missing condition is written as the literal `true`
  test_eq : cond = some test ∨ (cond = none ∧ t.expr test = .ok (.literal (.bool true)))
  inner_eq : t.stmt inner = .ok (.block (body :: steps))
  steps_eq : List.Forall₂ (fun step u => t.stmt step = .ok (.expr u)) steps update

/-- The nodes with less than `depth` levels below them, in frames that have gathered `around`. No
`continue` of theirs reaches these frames. -/
def placesSparing (t : Tree) (around : List State) (depth : Nat) : Places where
  expr := t.Within depth
  stmt ks n := t.Within depth n ∧ (t.ContinuesOut n → around = [] ∨ .loop ∈ ks)

def exprsWithin (t : Tree) (depth : Nat) : Places := ⟨t.Within depth, fun _ _ => False⟩

theorem placesSparing_ladder (t : Tree) (around : List State) :
    Places.Ladder (t.placesSparing around) t := by
  have hladder := t.placesWithin_ladder
  refine ⟨hladder.expr_zero, fun ks n hn => hladder.stmt_zero ks n hn.1, fun depth => ?_⟩
  have hstep := hladder.step depth
  have hwithin : ∀ {ks n}, (t.placesSparing around (depth + 1)).stmt ks n →
      (t.placesWithin (depth + 1)).stmt ks n := fun hn => hn.1
  refine ⟨hstep.child, hstep.grandchild, fun hn => hstep.part (hwithin hn), ?_, ?_⟩
  · intro ks n c st hn hs hc
    exact ⟨hstep.inner (hwithin hn) hs hc, fun hout => hn.2 (.plain hs hc hout)⟩
  · intro ks n c st kind hn hs hc
    refine ⟨hstep.body (hwithin hn) hs hc, fun hout => ?_⟩
    cases kind with
    | loop => exact .inr (by simp)
    | switch => exact (hn.2 (.case hs hc hout)).imp_right (List.mem_cons_of_mem _)

theorem exprsWithin_ladder (t : Tree) : Places.Ladder t.exprsWithin t := by
  have hladder := t.placesWithin_ladder
  refine ⟨hladder.expr_zero, fun _ _ => id, fun depth => ?_⟩
  have hstep := hladder.step depth
  exact ⟨hstep.child, hstep.grandchild, nofun, nofun, nofun⟩

end Tree

namespace Frame

/-- The same frames, in which `continue` has gathered `around`. -/
def Alike (around : List State) (fs gs : List Frame) : Prop :=
  fs = gs ∧ fs.map (·.continues) = around

/-- The first stands in no frame, the second in `f`. -/
def Inside (f : Frame) (fs gs : List Frame) : Prop := fs = [] ∧ gs = [f]

variable {s : State} {around : List State} {ks : List FrameKind}

theorem routes_addBreak : Routes (Surrounded (Alike around) ks) (addBreak s) := by
  rintro fs gs ⟨entered, outer, _, rfl, rfl, hkinds, rfl, haround⟩
  cases entered with
  | nil =>
    cases outer with
    | nil => exact .inr ⟨rfl, rfl⟩
    | cons f outer => exact .inl ⟨_, _, rfl, rfl, [], _, _, rfl, rfl, hkinds, rfl, haround⟩
  | cons f entered =>
    exact .inl ⟨_, _, rfl, rfl, { f with breaks := f.breaks.merge s } :: entered, outer, outer, rfl,
      rfl, hkinds, rfl, haround⟩

theorem addContinue_append {entered : List Frame} (h : .loop ∈ entered.map (·.kind)) :
    ∃ entered', entered'.map (·.kind) = entered.map (·.kind) ∧
      ∀ outer, addContinue s (entered ++ outer) = some (entered' ++ outer) := by
  induction entered with
  | nil => cases h
  | cons f entered ih =>
    cases hf : f.kind with
    | loop =>
      refine ⟨{ f with continues := f.continues.merge s } :: entered, rfl, fun outer => ?_⟩
      simp only [List.cons_append, addContinue, hf]
    | switch =>
      have hinner : .loop ∈ entered.map (·.kind) := by simpa [hf] using h
      obtain ⟨entered', hkinds, hadd⟩ := ih hinner
      refine ⟨f :: entered', by simp [hkinds], fun outer => ?_⟩
      simp only [List.cons_append, addContinue, hf, hadd, Option.map_some]

theorem routes_addContinue (h : around = [] ∨ .loop ∈ ks) :
    Routes (Surrounded (Alike around) ks) (addContinue s) := by
  rintro fs gs ⟨entered, outer, _, rfl, rfl, hkinds, rfl, haround⟩
  rcases h with rfl | hloop
  · -- with nothing around them, the frames entered are all there is
    obtain rfl := List.map_eq_nil_iff.1 haround
    cases hadd : addContinue s (entered ++ []) with
    | none => exact .inr ⟨rfl, rfl⟩
    | some gs =>
      have hgs := kinds_addContinue hadd
      rw [List.append_nil, hkinds] at hgs
      exact .inl ⟨gs, gs, rfl, rfl, gs, [], [], by simp, by simp, hgs, rfl, rfl⟩
  · rw [← hkinds] at hloop
    obtain ⟨entered', hkinds', hadd⟩ := addContinue_append (s := s) hloop
    exact .inl ⟨_, _, hadd outer, hadd outer, entered', outer, outer, rfl, rfl,
      hkinds'.trans hkinds, rfl, haround⟩

end Frame

/-- The states are the same, or nothing reaches either. -/
def State.Same (s s' : State) : Prop := s = s' ∨ (s.unreachable = true ∧ s'.unreachable = true)

theorem State.Same.merge_left {s s' : State} (h : s.Same s') (other : State) :
    (s.merge other).Same (s'.merge other) := by
  rcases h with rfl | ⟨hs, hs'⟩
  · exact .inl rfl
  · unfold State.merge
    cases ho : other.unreachable with
    | true =>
      rw [combine_of_dead_right ho, combine_of_dead_right ho]
      exact .inr ⟨hs, hs'⟩
    | false =>
      rw [combine_of_dead_left hs ho, combine_of_dead_left hs' ho]
      exact .inl rfl

theorem State.Same.merge_right {s s' : State} (h : s.Same s') (other : State) :
    (other.merge s).Same (other.merge s') := by
  rcases h with rfl | ⟨hs, hs'⟩
  · exact .inl rfl
  · unfold State.merge
    rw [combine_of_dead_right hs, combine_of_dead_right hs']
    exact .inl rfl

/-- The answers agree, remarks on dead code apart. -/
structure Analysis.Agrees (r r' : Analysis) : Prop where
  final : r.final.Same r'.final
  exit : r.exit.Same r'.exit
  report : r.report.besidesDeadCode = r'.report.besidesDeadCode

def Branches.Same (b b' : Branches) : Prop :=
  b.whenTrue = b'.whenTrue ∧ b.whenFalse.Same b'.whenFalse

def Pass.Same (p p' : Pass) : Prop := p.back = p'.back ∧ p.exit.Same p'.exit

section Steps

variable {σ τ : Session} {f : Frame}

theorem Session.Resembles.enter {around : List State} (h : σ.Resembles (Frame.Alike around) τ) :
    (σ.enterFrame .loop).Resembles (Frame.Alike (.dead :: around)) (τ.enterFrame .loop) :=
  h.reframe ⟨congrArg (_ :: ·) h.frames.1, congrArg (_ :: ·) h.frames.2⟩

theorem Session.Resembles.leave_left (h : σ.Resembles (Frame.Alike [.dead]) τ) :
    ∃ f, σ.frames = [f] ∧ f.continues = .dead ∧ σ.leaveFrame.Resembles (Frame.Inside f) τ := by
  obtain ⟨f, _, hf, hcontinues, hnil⟩ := List.map_eq_cons_iff.1 h.frames.2
  obtain rfl := List.map_eq_nil_iff.1 hnil
  have hinside : Frame.Inside f σ.frames.tail τ.frames :=
    ⟨congrArg List.tail hf, h.frames.1.symm.trans hf⟩
  exact ⟨f, hf, hcontinues, h.reframe hinside⟩

theorem Session.Resembles.leave_right (h : σ.Resembles (Frame.Inside f) τ) :
    σ.Resembles (Frame.Alike []) τ.leaveFrame :=
  h.reframe ⟨h.frames.1.trans (congrArg List.tail h.frames.2).symm,
    List.map_eq_nil_iff.2 h.frames.1⟩

end Steps

theorem Walk.framed_eq_ok {α : Type} {kind : FrameKind} {m : Walk α} {a : α} {f : Frame}
    {σ τ : Session} : Walk.framed kind m σ = .ok (a, f) τ ↔
      ∃ ρ, m (σ.enterFrame kind) = .ok a ρ ∧ f = ρ.frames.headD ⟨kind, .dead, .dead⟩ ∧
        τ = ρ.leaveFrame := by
  unfold Walk.framed
  cases m (σ.enterFrame kind) with
  | error e ρ => simp
  | ok b ρ =>
    constructor
    · intro h
      cases h
      exact ⟨ρ, rfl, rfl, rfl⟩
    · rintro ⟨ρ', hρ, rfl, rfl⟩
      cases hρ
      rfl

namespace Context

variable (ctx : Context) {s head : State} {n n' : NodeId}

section Loop

variable {B : List Frame → List Frame → Prop} {pass pass' : State → Walk Pass}
  (hpass : ∀ head, head.unreachable = false → Walk.Follows B Pass.Same (pass head) (pass' head))

include hpass

/-- The heads of a loop depend on what comes back to them only. -/
theorem follows_solve (bound iteration : Nat) (hlive : head.unreachable = false) :
    Walk.Follows B (fun a b => a = b ∧ a.1.unreachable = false)
      (ctx.solve n pass bound iteration head) (ctx.solve n' pass' bound iteration head) := by
  induction bound generalizing iteration head with
  | zero => exact fun _ _ _ _ _ h => nomatch h
  | succ bound ih =>
    refine (hpass head hlive).bind fun p p' hp => ?_
    have hnext : (ctx.advance iteration head p.back).unreachable = false :=
      ctx.advance_reachable iteration hlive
    -- the same state comes back to both heads, so both advance to the same one
    rw [← hp.1]
    dsimp only
    split
    · exact Walk.follows_pure ⟨rfl, hlive⟩
    · split
      · exact ih (iteration + 1) hnext
      · have hrest := ih (iteration + 1) ((State.giveUp_unreachable _ head).trans hnext)
        split
        · exact (Walk.follows_note _ _).bind fun _ _ _ => hrest
        · exact hrest

theorem follows_loop (hlive : head.unreachable = false) :
    Walk.Follows B State.Same (ctx.loop n pass head) (ctx.loop n' pass' head) := by
  refine (ctx.follows_solve hpass (ctx.passBound head) 0 hlive).muted.bind ?_
  rintro ⟨settled, iterations⟩ _ ⟨rfl, hsettled⟩
  refine (Walk.follows_note _ _).bind fun _ _ _ => ?_
  exact (hpass settled hsettled).bind fun p p' hp => Walk.follows_pure hp.2

end Loop

theorem all_of_dead {depth : Nat} (ns : List NodeId) (hs : s.unreachable = true) :
    (ctx.evaluators (depth + 1)).all ns s = pure (ns.map fun _ => .empty, s) := by
  have hexpr : ∀ n, (ctx.evaluators (depth + 1)).expr n s = pure (.empty, s) :=
    fun n => Tree.visit_of_dead hs
  induction ns with
  | nil => rfl
  | cons n ns ih =>
    rw [Evaluators.all, hexpr, pure_bind]
    simp only [ih, pure_bind, List.map_cons]

section Nodes

variable (hacyclic : ctx.tree.Acyclic) {around : List State} {e e' : Nat}
  (he : ctx.tree.size + 1 ≤ e) (he' : ctx.tree.size + 1 ≤ e')

include he he'

theorem related_alike (around : List State) : (ctx.resembling (Frame.Alike around)).Related
    (ctx.tree.placesSparing around (ctx.tree.size + 1)) (ctx.evaluators e)
      (ctx.evaluators e') := by
  apply ctx.related_resembling (ctx.tree.placesSparing_ladder around) _ he he'
  intro depth
  apply ctx.placeLaws_resembling
  · exact fun _ _ => Frame.routes_addBreak
  · exact fun hn hs => Frame.routes_addContinue (hn.2 (.here hs))

include hacyclic

theorem follows_cond (n : NodeId) (s : State) : Walk.Follows (Frame.Alike around) Eq
    ((ctx.evaluators e).cond n s) ((ctx.evaluators e').cond n s) :=
  Walk.follows_of_inStep
    ((ctx.related_alike he he' around).cond [] (hacyclic.within n) trivial)

theorem follows_stmt (hn : ctx.tree.ContinuesOut n → around = []) (s : State) :
    Walk.Follows (Frame.Alike around) Eq ((ctx.evaluators e).stmt n s)
      ((ctx.evaluators e').stmt n s) :=
  Walk.follows_of_inStep ((ctx.related_alike he he' around).stmt
    ⟨hacyclic.within n, fun hout => .inl (hn hout)⟩ trivial)

theorem follows_expr (f : Frame) (n : NodeId) (s : State) : Walk.Follows (Frame.Inside f) Eq
    ((ctx.evaluators e).expr n s) ((ctx.evaluators e').expr n s) := by
  have hrelated : (ctx.resembling (Frame.Inside f)).Related
      (ctx.tree.exprsWithin (ctx.tree.size + 1)) (ctx.evaluators e) (ctx.evaluators e') :=
    ctx.related_resembling ctx.tree.exprsWithin_ladder
      (fun _ => ctx.placeLaws_resembling nofun nofun) he he'
  exact Walk.follows_of_inStep (hrelated.expr [] (hacyclic.within n) trivial)

theorem follows_steps (f : Frame) {steps update : List NodeId}
    (hsteps : List.Forall₂ (fun step u => ctx.tree.stmt step = .ok (.expr u)) steps update)
    (s : State) : Walk.Follows (Frame.Inside f) (fun a b => a.2 = b)
      ((ctx.evaluators (e + 1)).all update s) ((ctx.evaluators (e' + 1)).seq ctx steps s) := by
  induction hsteps generalizing s with
  | nil => exact Walk.follows_pure rfl
  | @cons step u steps update hstep _ ih =>
    cases hs : s.unreachable with
    | true =>
      -- expressions pass a dead state on, statements are remarked on
      rw [ctx.all_of_dead _ hs, Evaluators.seq, if_pos hs, hstep]
      have hpure : Walk.Follows (Frame.Inside f) (fun a b => a.2 = b)
          (pure ((u :: update).map fun _ => Value.empty, s)) (pure s) := Walk.follows_pure rfl
      exact hpure.annotate (.refl _) (Evaluators.annotates_report_dead step (.expr u) s)
    | false =>
      have hwalk : Walk.Follows (Frame.Inside f) (fun a b => a.2 = b)
          ((ctx.evaluators (e + 1)).expr u s) ((ctx.evaluators (e' + 1)).stmt step s) := by
        have hexpr := ctx.follows_expr hacyclic (he.trans (Nat.le_succ e)) he' f u s
        refine Walk.Follows.annotate ?_ (.refl _)
          ((ctx.evaluators e').annotates_stmtAt hstep hs)
        rw [← bind_pure ((ctx.evaluators (e + 1)).expr u s)]
        refine hexpr.bind ?_
        rintro a _ rfl
        exact Walk.follows_pure rfl
      rw [Evaluators.seq, if_neg (by simp [hs])]
      refine hwalk.bind ?_
      rintro ⟨v, s₁⟩ _ rfl
      rw [← bind_pure ((ctx.evaluators (e' + 1)).seq ctx steps s₁)]
      exact (ih s₁).bind fun a b hab => Walk.follows_pure hab

theorem follows_seq_append {k : State → Walk State} {loop : NodeId} {test inner : NodeId}
    (hloop : ctx.tree.stmt loop = .ok (.whileLoop test inner))
    (hlive : ∀ s, s.unreachable = false →
      Walk.Follows (Frame.Alike []) State.Same (k s) ((ctx.evaluators e').stmt loop s))
    (hdead : ∀ s, s.unreachable = true → k s = pure s) (init : List NodeId) (s : State) :
    Walk.Follows (Frame.Alike []) State.Same ((ctx.evaluators e).seq ctx init s >>= k)
      ((ctx.evaluators e').seq ctx (init ++ [loop]) s) := by
  induction init generalizing s with
  | nil =>
    rw [List.nil_append, Evaluators.seq, Evaluators.seq, pure_bind]
    split
    · rename_i hs
      rw [hdead s hs, hloop]
      -- the loop is not reached: it is remarked on, and `k` lets the state pass
      exact (Walk.follows_pure (.inl rfl)).annotate (.refl _)
        (Evaluators.annotates_report_dead _ _ _)
    · rename_i hs
      show Walk.Follows _ _ _ ((ctx.evaluators e').stmt loop s >>= pure)
      rw [bind_pure]
      exact hlive s (by simpa using hs)
  | cons m init ih =>
    rw [List.cons_append, Evaluators.seq, Evaluators.seq]
    split
    · rename_i hs
      cases hm : ctx.tree.stmt m with
      | error e =>
        intro _ _ _ _ _ h
        cases h
      | ok st =>
        show Walk.Follows _ _ ((if st.isTrivial then _ else _) >>= k)
          (if st.isTrivial then _ else _)
        split
        · -- an empty statement is passed over without a remark on either side
          exact ih s
        · rw [bind_assoc, pure_bind, hdead s hs]
          exact (Walk.follows_pure (.inl rfl)).annotate (Evaluators.annotates_report_dead _ _ _)
            (Evaluators.annotates_report_dead _ _ _)
    · rw [bind_assoc]
      refine (ctx.follows_stmt hacyclic he he' (fun _ => rfl) s).bind ?_
      rintro s₁ _ rfl
      exact ih s₁

end Nodes

theorem cond_true {depth : Nat} (htrue : ctx.tree.expr n = .ok (.literal (.bool true)))
    (hlive : head.unreachable = false) :
    (ctx.evaluators (depth + 1)).cond n head = pure ⟨head, head.kill⟩ := by
  have hvar : ctx.tree.variableOf n = none := by
    unfold Tree.variableOf
    rw [htrue]
  have htruth : Evaluators.truth ctx n (.ofFlags true false) head = ⟨head, head.kill⟩ := by
    unfold Evaluators.truth
    rw [hlive]
    simp only [Context.assumeBool, hvar]
    rfl
  rw [ctx.cond_succ, Tree.visit_of_ok hlive htrue, ← htruth]
  rfl

section Desugared

variable (hacyclic : ctx.tree.Acyclic) {e : Nat} (he : ctx.tree.size + 1 ≤ e)
  (D : ctx.tree.Desugaring)

include hacyclic he

theorem follows_test (hlive : head.unreachable = false) :
    Walk.Follows (Frame.Alike []) Branches.Same
      ((ctx.evaluators (e + 3)).optionalCond D.cond head)
      ((ctx.evaluators (e + 2)).cond D.test head) := by
  rcases D.test_eq with hcond | ⟨hcond, htrue⟩
  · rw [hcond]
    apply (ctx.follows_cond hacyclic (by omega) (by omega) D.test head).mono
    rintro b _ rfl
    exact ⟨rfl, .inl rfl⟩
  · rw [hcond, ctx.cond_true htrue hlive]
    exact Walk.follows_pure ⟨rfl, .inr ⟨rfl, rfl⟩⟩

variable (hbody : ¬ ctx.tree.ContinuesOut D.body)

omit hacyclic he in
theorem dead_body_then_update {σ τ ρ : Session} {out : State} (hs : s.unreachable = true)
    (hστ : σ.Resembles (Frame.Alike [.dead]) τ)
    (hout : (ctx.evaluators (e + 3)).stmt D.body s σ = .ok out ρ) :
    ∃ τ', ρ.Resembles (Frame.Alike [.dead]) τ' ∧ ∀ a σ',
      (ctx.evaluators (e + 3)).all D.update out ρ.leaveFrame = .ok a σ' →
      (ctx.evaluators (e + 2)).stmt D.inner s τ = .ok a.2 τ' ∧ σ' = ρ.leaveFrame := by
  cases hst : ctx.tree.stmt D.body with
  | error err =>
    have herror : (ctx.evaluators (e + 3)).stmt D.body s σ = .error (.malformed err) σ := by
      show (ctx.evaluators (e + 2)).stmtAt ctx D.body s σ = _
      unfold Evaluators.stmtAt
      rw [hst]
      rfl
    rw [herror] at hout
    cases hout
  | ok st =>
    have hdead : Walk.Follows (Frame.Alike [.dead]) (fun a b => a = s ∧ b = s)
        ((ctx.evaluators (e + 3)).stmt D.body s) ((ctx.evaluators (e + 2)).stmt D.inner s) :=
      (Walk.follows_pure ⟨rfl, rfl⟩).annotate (Evaluators.annotates_stmtAt_dead _ hst hs)
        (Evaluators.annotates_stmtAt_dead _ D.inner_eq hs)
    obtain ⟨_, τ', hinner, ⟨rfl, rfl⟩, hρ⟩ := hdead σ τ hστ out ρ hout
    refine ⟨τ', hρ, fun a σ' hall => ?_⟩
    -- nor are the updates looked at, so the frame may be left before or after them
    rw [ctx.all_of_dead _ hs] at hall
    cases hall
    exact ⟨hinner, rfl⟩

include hbody

/-- The updates follow the body outside the frame of the loop on the one side, inside it on the
other. -/
theorem body_then_update {σ τ ρ : Session} {out : State}
    (hστ : σ.Resembles (Frame.Alike [.dead]) τ)
    (hout : (ctx.evaluators (e + 3)).stmt D.body s σ = .ok out ρ) :
    ∃ f, ρ.frames = [f] ∧ f.continues = .dead ∧ ∀ a σ',
      (ctx.evaluators (e + 3)).all D.update out ρ.leaveFrame = .ok a σ' →
      ∃ τ', (ctx.evaluators (e + 2)).stmt D.inner s τ = .ok a.2 τ' ∧
        σ'.Resembles (Frame.Inside f) τ' := by
  cases hs : s.unreachable with
  | true =>
    obtain ⟨τ', hρ, hupdate⟩ := ctx.dead_body_then_update D hs hστ hout
    obtain ⟨f, hf, hcontinues, hinside⟩ := hρ.leave_left
    refine ⟨f, hf, hcontinues, fun a σ' hall => ?_⟩
    obtain ⟨hinner, rfl⟩ := hupdate a σ' hall
    exact ⟨τ', hinner, hinside⟩
  | false =>
    obtain ⟨τ₀, hτ₀, hwalk⟩ :=
      ((ctx.evaluators (e + 1)).annotates_stmtAt D.inner_eq hs).exists_ok_iff τ
    -- both walk the body inside the frame; only then does the left go on outside
    have hfollows : Walk.Follows (Frame.Alike [.dead]) Eq
        ((ctx.evaluators (e + 3)).stmt D.body s) ((ctx.evaluators (e + 1)).stmt D.body s) :=
      ctx.follows_stmt hacyclic (by omega) (by omega) (fun h => absurd h hbody) s
    obtain ⟨_, ρ', hout', rfl, hρ⟩ :=
      hfollows σ τ₀ (hστ.remark (.refl σ) hτ₀) out ρ hout
    obtain ⟨f, hf, hcontinues, hinside⟩ := hρ.leave_left
    refine ⟨f, hf, hcontinues, fun a σ' hall => ?_⟩
    obtain ⟨_, τ₁, hsteps, rfl, hσ'⟩ := ctx.follows_steps hacyclic (by omega) he f D.steps_eq out
      _ ρ' hinside a σ' hall
    have hseq : (ctx.evaluators (e + 1)).seq ctx (D.body :: D.steps) s τ₀ = .ok a.2 τ₁ := by
      rw [Evaluators.seq, if_neg (by simp [hs])]
      exact Walk.bind_eq_ok.2 ⟨out, ρ', hout', hsteps⟩
    obtain ⟨τ', hinner, hτ'⟩ := (hwalk a.2).1 τ₁ hseq
    exact ⟨τ', hinner, hσ'.remark (.refl σ') hτ'⟩

/-- One pass over either loop: the same comes back. -/
theorem follows_pass (hlive : head.unreachable = false) :
    Walk.Follows (Frame.Alike []) Pass.Same
      ((ctx.evaluators (e + 3)).forPass D.cond D.update D.body head)
      ((ctx.evaluators (e + 2)).whilePass D.test D.inner head) := by
  intro σ τ hστ p σ' hpass
  obtain ⟨b, σ₁, hcond, hpass⟩ := Walk.bind_eq_ok.1 hpass
  obtain ⟨⟨out, frame⟩, σ₂, hframed, hpass⟩ := Walk.bind_eq_ok.1 hpass
  obtain ⟨a, σ₃, hall, hpure⟩ := Walk.bind_eq_ok.1 hpass
  cases hpure
  obtain ⟨b', τ₁, hcond', ⟨htrue, hfalse⟩, hτ₁⟩ :=
    ctx.follows_test hacyclic he D hlive σ τ hστ b σ₁ hcond
  obtain ⟨ρ, hout, hframe, rfl⟩ := Walk.framed_eq_ok.1 hframed
  obtain ⟨f, hf, hcontinues, hupdate⟩ :=
    ctx.body_then_update hacyclic he D hbody hτ₁.enter hout
  rw [hf] at hframe
  cases hframe
  -- no `continue` has reached the frame, so what falls off the body is all that comes back
  have hnone : ∀ s : State, s.merge f.continues = s := fun s => by
    rw [hcontinues]
    exact State.combine_of_dead_right rfl
  simp only [List.headD_cons, hnone] at hall ⊢
  obtain ⟨τ', hinner, hσ'⟩ := hupdate a σ' hall
  have hframed' : Walk.framed .loop ((ctx.evaluators (e + 2)).stmt D.inner b'.whenTrue) τ₁ =
      .ok (a.2, f) τ'.leaveFrame := by
    rw [← htrue]
    exact Walk.framed_eq_ok.2 ⟨τ', hinner, by rw [hσ'.frames.2]; rfl, rfl⟩
  refine ⟨_, τ'.leaveFrame,
    Walk.bind_eq_ok.2 ⟨b', τ₁, hcond', Walk.bind_eq_ok.2 ⟨(a.2, f), _, hframed', rfl⟩⟩, ?_,
    hσ'.leave_right⟩
  exact ⟨(hnone a.2).symm, hfalse.merge_left f.breaks⟩

theorem follows_desugared (s : State) : Walk.Follows (Frame.Alike []) State.Same
    ((ctx.evaluators (e + 4)).stmt D.forLoop s) ((ctx.evaluators (e + 4)).stmt D.block s) := by
  cases hs : s.unreachable with
  | true =>
    exact (Walk.follows_pure (.inl rfl)).annotate
      (Evaluators.annotates_stmtAt_dead _ D.forLoop_eq hs)
      (Evaluators.annotates_stmtAt_dead _ D.block_eq hs)
  | false =>
    refine Walk.Follows.annotate ?_ (Evaluators.annotates_stmtAt _ D.forLoop_eq hs)
      (Evaluators.annotates_stmtAt _ D.block_eq hs)
    refine ctx.follows_seq_append hacyclic (by omega) (by omega) D.whileLoop_eq ?_ ?_ D.init s
    · intro entry hlive
      rw [if_neg (by simp [hlive])]
      refine Walk.Follows.annotate ?_ (.refl _)
        ((ctx.evaluators (e + 2)).annotates_stmtAt D.whileLoop_eq hlive)
      exact ctx.follows_loop (fun _ => ctx.follows_pass hacyclic he D hbody) hlive
    · intro entry hdead
      exact if_pos hdead

end Desugared

theorem run_agrees {r : Analysis}
    (h : Walk.Follows (Frame.Alike []) State.Same ((ctx.evaluators ctx.depthBound).stmt n s)
      ((ctx.evaluators ctx.depthBound).stmt n' s)) (hrun : ctx.run n s {} = .ok r) :
    ∃ r', ctx.run n' s {} = .ok r' ∧ r.Agrees r' := by
  rw [run_def] at hrun ⊢
  dsimp only at hrun ⊢
  cases hn : (ctx.evaluators ctx.depthBound).stmt n s {} with
  | error halt τ =>
    rw [hn] at hrun
    cases hrun
  | ok final σ =>
    rw [hn] at hrun
    cases hrun
    have hfresh : Session.Resembles (Frame.Alike []) {} {} :=
      ⟨⟨rfl, rfl⟩, rfl, rfl, .nil, .nil, rfl⟩
    obtain ⟨final', τ, hn', hfinal, hτ⟩ := h {} {} hfresh final σ hn
    rw [hn']
    refine ⟨_, rfl, hfinal, ?_, hτ.report⟩
    rw [hτ.returns]
    exact hfinal.merge_right τ.returns

end Context

/-- A `for` loop whose body has no `continue` for it is analysed like the block that it is short
for: if the analysis of the loop succeeds, so does that of the block, and the answers agree. -/
theorem for_loop_agrees_with_its_desugaring (t : Tree) (hacyclic : t.Acyclic) (D : t.Desugaring)
    (hbody : ¬ t.ContinuesOut D.body) (settings : Settings) (initial : State) (r : Analysis)
    (h : t.analyze settings D.forLoop initial = .ok r) :
    ∃ r', t.analyze settings D.block initial = .ok r' ∧ r.Agrees r' := by
  -- the steps of the block stand four levels down, which leaves more than enough
  obtain ⟨e, hdepth, hroom⟩ :
      ∃ e, (t.context settings).depthBound = e + 4 ∧ t.size + 1 ≤ e := by
    refine ⟨(t.context settings).depthBound - 4, ?_, ?_⟩ <;>
      simp only [Context.depthBound, Tree.context, repetitionLimit] <;> omega
  have hfollows := (t.context settings).follows_desugared hacyclic hroom D hbody initial
  rw [← hdepth] at hfollows
  exact (t.context settings).run_agrees hfollows h

/-- `for (int i = 0;; i++) { 10 / i; if (i > 5) break; for (; i < 3; i++) continue; }`, and the
block that its outer loop is short for. -/
def openLoop : Tree where
  nodes := #[.expr (.name ⟨0⟩), .expr (.literal (.int 0)), .stmt (.declare ⟨0⟩ (some ⟨1⟩)),
    .expr (.literal (.int 10)), .expr (.arith .div ⟨3⟩ ⟨0⟩), .stmt (.expr ⟨4⟩),
    .expr (.literal (.int 5)), .expr (.compare .gt ⟨0⟩ ⟨6⟩), .stmt .breakOut,
    .stmt (.branch ⟨7⟩ ⟨8⟩ none), .expr (.literal (.int 3)), .expr (.compare .lt ⟨0⟩ ⟨10⟩),
    .expr (.unary .postInc ⟨0⟩), .stmt .continueLoop, .stmt (.forLoop [] (some ⟨11⟩) [⟨12⟩] ⟨13⟩),
    .stmt (.block [⟨5⟩, ⟨9⟩, ⟨14⟩]), .stmt (.forLoop [⟨2⟩] none [⟨12⟩] ⟨15⟩),
    .expr (.literal (.bool true)), .stmt (.expr ⟨12⟩), .stmt (.block [⟨15⟩, ⟨18⟩]),
    .stmt (.whileLoop ⟨17⟩ ⟨19⟩), .stmt (.block [⟨2⟩, ⟨20⟩])]
  decls := #[⟨"i", .primitive .int, [], .var⟩]

def openLoop.desugaring : openLoop.Desugaring where
  forLoop := ⟨16⟩
  init := [⟨2⟩]
  cond := none
  update := [⟨12⟩]
  body := ⟨15⟩
  block := ⟨21⟩
  whileLoop := ⟨20⟩
  test := ⟨17⟩
  inner := ⟨19⟩
  steps := [⟨18⟩]
  forLoop_eq := rfl
  block_eq := rfl
  whileLoop_eq := rfl
  test_eq := .inr ⟨rfl, rfl⟩
  inner_eq := rfl
  steps_eq := .cons rfl .nil

theorem openLoop_body : ¬ openLoop.ContinuesOut ⟨15⟩ := by
  have hblock : openLoop.stmt ⟨15⟩ = .ok (.block [⟨5⟩, ⟨9⟩, ⟨14⟩]) := rfl
  have hdivision : openLoop.stmt ⟨5⟩ = .ok (.expr ⟨4⟩) := rfl
  have hbranch : openLoop.stmt ⟨9⟩ = .ok (.branch ⟨7⟩ ⟨8⟩ none) := rfl
  have hbreak : openLoop.stmt ⟨8⟩ = .ok .breakOut := rfl
  have hloop : openLoop.stmt ⟨14⟩ = .ok (.forLoop [] (some ⟨11⟩) [⟨12⟩] ⟨13⟩) := rfl
  simp [Tree.continuesOut_iff hblock, Tree.continuesOut_iff hdivision,
    Tree.continuesOut_iff hbranch, Tree.continuesOut_iff hbreak, Tree.continuesOut_iff hloop,
    Stmt.plain, Stmt.framed]

/-- Both ways the loop is left by its `break`, and the division by zero is found. -/
theorem openLoop_agrees_with_its_desugaring : openLoop.Acyclic ∧ ∃ r r',
    openLoop.analyze {} openLoop.desugaring.forLoop .initial = .ok r ∧
    openLoop.analyze {} openLoop.desugaring.block .initial = .ok r' ∧
    r.report.besidesDeadCode.length = 1 ∧ r.final.unreachable = false ∧ r.Agrees r' := by
  have hdown : openLoop.Descending := by decide
  have hanswer : (openLoop.analyze {} openLoop.desugaring.forLoop .initial).map
      (fun r => (r.report.besidesDeadCode.length, r.final.unreachable)) = .ok (1, false) := by
    decide +kernel
  cases hr : openLoop.analyze {} openLoop.desugaring.forLoop .initial with
  | error e =>
    rw [hr] at hanswer
    cases hanswer
  | ok r =>
    rw [hr] at hanswer
    obtain ⟨hlength, hfinal⟩ := Prod.mk.inj (Except.ok.inj hanswer)
    obtain ⟨r', hr', hagrees⟩ := for_loop_agrees_with_its_desugaring openLoop hdown.acyclic
      openLoop.desugaring openLoop_body {} .initial r hr
    exact ⟨hdown.acyclic, r, r', rfl, hr', hlength, hfinal, hagrees⟩

end ValueFlow

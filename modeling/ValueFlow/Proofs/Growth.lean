import ValueFlow.Proofs.Concretization
import ValueFlow.Proofs.Report

namespace ValueFlow

theorem Literal.wf_of_concrete? {l : Literal} (h : l.concrete?.isSome = true) :
    l.value.WellFormedWithin lengths := by
  cases l with
  | int x => trivial
  | char code => exact Literal.wf_value (.char code)
  | bool b => exact Value.wf_ofFlags b (!b)
  | str s | null => cases h

theorem Literal.wf_of_code? {l : Literal} (h : l.code?.isSome = true) :
    l.value.WellFormedWithin lengths := by
  apply wf_of_concrete?
  cases l <;> first | rfl | cases h

section Frames

structure Frame.Grows (f g : Frame) : Prop where
  kind : g.kind = f.kind
  breaks : ∀ s : Store, s ∈ f.breaks → s ∈ g.breaks
  continues : ∀ s : Store, s ∈ f.continues → s ∈ g.continues

/-- Each frame has grown. -/
def FramesGrow : List Frame → List Frame → Prop
  | [], [] => True
  | f :: fs, g :: gs => f.Grows g ∧ FramesGrow fs gs
  | _, _ => False

theorem Frame.Grows.refl (f : Frame) : f.Grows f := ⟨rfl, fun _ h => h, fun _ h => h⟩

theorem Frame.Grows.trans {f g h : Frame} (hfg : f.Grows g) (hgh : g.Grows h) : f.Grows h :=
  ⟨hgh.kind.trans hfg.kind, fun s hs => hgh.breaks s (hfg.breaks s hs),
    fun s hs => hgh.continues s (hfg.continues s hs)⟩

variable {old fs gs hs : List Frame} {S : State} {ks : List FrameKind} {k : FrameKind}

theorem FramesGrow.refl (fs : List Frame) : FramesGrow fs fs := by
  induction fs with
  | nil => trivial
  | cons f fs ih => exact ⟨.refl f, ih⟩

theorem FramesGrow.cons_inv {f : Frame} (h : FramesGrow (f :: fs) gs) :
    ∃ g rest, gs = g :: rest ∧ f.Grows g ∧ FramesGrow fs rest := by
  cases gs with
  | nil => exact h.elim
  | cons g rest => exact ⟨g, rest, rfl, h⟩

theorem FramesGrow.nil_inv (h : FramesGrow [] gs) : gs = [] := by
  cases gs with
  | nil => rfl
  | cons g rest => exact h.elim

theorem FramesGrow.trans (h : FramesGrow fs gs) (h' : FramesGrow gs hs) : FramesGrow fs hs := by
  induction fs generalizing gs hs with
  | nil =>
    obtain rfl := h.nil_inv
    exact h'
  | cons f fs ih =>
    obtain ⟨g, gs, rfl, hg, hgs⟩ := h.cons_inv
    obtain ⟨i, is, rfl, hi, his⟩ := h'.cons_inv
    exact ⟨hg.trans hi, ih hgs his⟩

theorem Frame.addBreak_grows (h : addBreak S fs = some gs) : FramesGrow fs gs := by
  cases fs with
  | nil => cases h
  | cons f fs =>
    cases h
    exact ⟨⟨rfl, fun _ hs => State.mem_merge_left hs, fun _ hs => hs⟩, .refl fs⟩

theorem Frame.addContinue_grows (h : addContinue S fs = some gs) : FramesGrow fs gs := by
  induction fs generalizing gs with
  | nil => cases h
  | cons f fs ih =>
    unfold addContinue at h
    split at h
    · cases h
      exact ⟨⟨rfl, fun _ hs => hs, fun _ hs => State.mem_merge_left hs⟩, .refl fs⟩
    · obtain ⟨gs', hgs', rfl⟩ := Option.map_eq_some_iff.1 h
      exact ⟨.refl f, ih hgs'⟩

/-- Frames of the kinds `ks` stand around those that have grown from `old`. -/
def FramesGrown (old : List Frame) : List FrameKind → List Frame → Prop
  | [], fs => FramesGrow old fs
  | k :: ks, f :: fs => f.kind = k ∧ f.breaks.WellFormedWithin lengths ∧
      f.continues.WellFormedWithin lengths ∧ FramesGrown old ks fs
  | _ :: _, [] => False

theorem FramesGrown.cons_inv (h : FramesGrown old (k :: ks) fs) : ∃ f rest, fs = f :: rest ∧
    f.kind = k ∧ f.breaks.WellFormedWithin lengths ∧ f.continues.WellFormedWithin lengths ∧
      FramesGrown old ks rest := by
  cases fs with
  | nil => exact h.elim
  | cons f rest => exact ⟨f, rest, rfl, h⟩

theorem FramesGrown.addBreak (hS : S.WellFormedWithin lengths) (h : FramesGrown old ks fs)
    (hgs : Frame.addBreak S fs = some gs) : FramesGrown old ks gs := by
  cases ks with
  | nil => exact FramesGrow.trans h (Frame.addBreak_grows hgs)
  | cons k ks =>
    obtain ⟨f, rest, rfl, hk, hb, hc, hrest⟩ := h.cons_inv
    cases hgs
    exact ⟨hk, State.wf_merge hb hS, hc, hrest⟩

theorem FramesGrown.addContinue (hS : S.WellFormedWithin lengths) (h : FramesGrown old ks fs)
    (hgs : Frame.addContinue S fs = some gs) : FramesGrown old ks gs := by
  induction ks generalizing fs gs with
  | nil => exact FramesGrow.trans h (Frame.addContinue_grows hgs)
  | cons k ks ih =>
    obtain ⟨f, rest, rfl, hk, hb, hc, hrest⟩ := h.cons_inv
    unfold Frame.addContinue at hgs
    split at hgs
    · cases hgs
      exact ⟨hk, hb, State.wf_merge hc hS, hrest⟩
    · obtain ⟨gs', hgs', rfl⟩ := Option.map_eq_some_iff.1 hgs
      exact ⟨hk, hb, hc, ih hrest hgs'⟩

end Frames

section Clean

/-- No division by zero has been found. -/
def Report.Clean (r : Report) : Prop := ∀ x ∈ r.entries, x.2.kind ≠ .divisionByZero

namespace Report

theorem clean_of_add {r : Report} {n : NodeId} {f : Finding} (h : (r.add n f).2.Clean) : r.Clean :=
  fun x hx => h x (mem_place.2 (.inr hx))

theorem not_clean_add {r : Report} {n : NodeId} {f : Finding} (hf : f.kind = .divisionByZero) :
    ¬ (r.add n f).2.Clean :=
  fun h => h (n, f) (mem_place.2 (.inl rfl)) hf

end Report

namespace Session

variable {σ : Session} {n : NodeId}

theorem clean_of_find {f : Finding} (h : (σ.find n f).report.Clean) : σ.report.Clean := by
  unfold find at h
  split at h
  · exact Report.clean_of_add h
  · exact h

theorem clean_of_foldl_find {fs : List Finding} (h : (fs.foldl (Session.find n) σ).report.Clean) :
    σ.report.Clean := by
  induction fs generalizing σ with
  | nil => exact h
  | cons f fs ih => exact clean_of_find (ih h)

end Session

end Clean

/-- The session has grown from `old`, inside frames of the kinds `ks` and `k` loops deeper in
solving. -/
structure Session.Grown (old : Session) (ks : List FrameKind) (k : Nat) (σ : Session) : Prop where
  frames : FramesGrown old.frames ks σ.frames
  returns : ∀ s : Store, s ∈ old.returns → s ∈ σ.returns
  clean : σ.report.Clean → old.report.Clean
  muted : σ.muted = old.muted + k

abbrev Session.Grows (old σ : Session) : Prop := old.Grown [] 0 σ

/-- An effect that leaves frames and returns alone and takes no finding back. -/
theorem Session.Grown.of_same {old σ τ : Session} {ks : List FrameKind} {k : Nat}
    (h : old.Grown ks k σ) (hframes : τ.frames = σ.frames)
    (hreturns : τ.returns = σ.returns ∧ τ.muted = σ.muted)
    (hclean : τ.report.Clean → σ.report.Clean) : old.Grown ks k τ := by
  refine ⟨?_, ?_, fun hc => h.clean (hclean hc), hreturns.2.trans h.muted⟩
  · rw [hframes]
    exact h.frames
  · rw [hreturns.1]
    exact h.returns

namespace Session.Grows

variable {σ τ ρ : Session}

theorem refl (σ : Session) : σ.Grows σ := ⟨.refl _, fun _ h => h, fun h => h, rfl⟩

theorem trans (h : σ.Grows τ) (h' : τ.Grows ρ) : σ.Grows ρ :=
  ⟨FramesGrow.trans h.frames h'.frames, fun s hs => h'.returns s (h.returns s hs),
    fun hc => h.clean (h'.clean hc), h'.muted.trans h.muted⟩

end Session.Grows

namespace Context

variable (ctx : Context) {old : Session}

def growth (old : Session) : Simulation where
  tree := ctx.tree
  leftSettings := ctx.settings
  rightSettings := ctx.settings
  returnType := ctx.returnType
  returnContracts := ctx.returnContracts
  value := Value.WellFormedWithin lengths
  state := State.WellFormedWithin lengths
  decl _ := True
  halt _ := True
  session ks k σ τ := σ = τ ∧ old.Grown ks k σ

theorem stable_growth :
    Session.Stable (State.WellFormedWithin lengths) (ctx.growth old).session where
  find n f h := ⟨by rw [h.1], h.2.of_same (Session.find_frames n f _)
    (Session.find_returns n f _) Session.clean_of_find⟩
  trace {_ _ σ _ e} _ h := ⟨congrArg _ h.1, h.2.of_same (Session.trace_frames e σ)
    (Session.trace_returns e σ) fun hc => σ.trace_report e ▸ hc⟩
  note _ h := ⟨congrArg _ h.1, h.2.of_same rfl ⟨rfl, rfl⟩ id⟩
  returning _ h :=
    ⟨h.1 ▸ rfl, h.2.frames, fun s hs => State.mem_merge_left (h.2.returns s hs), h.2.clean,
      h.2.muted⟩
  enter kind h :=
    ⟨congrArg _ h.1, ⟨rfl, State.wf_dead, State.wf_dead, h.2.frames⟩, h.2.returns, h.2.clean,
      h.2.muted⟩
  -- the frame that is left is on top of those that have grown
  leave {_ _ _ σ _} h := by
    obtain ⟨f, rest, hf, -, -, -, hrest⟩ := FramesGrown.cons_inv h.2.frames
    refine ⟨congrArg _ h.1, ?_, h.2.returns, h.2.clean, h.2.muted⟩
    simp only [Session.leaveFrame, hf]
    exact hrest
  gathered h := by
    obtain ⟨f, rest, hf, -, hb, hc, -⟩ := FramesGrown.cons_inv h.2.frames
    exact ⟨f, rest, rest, hf, h.1 ▸ hf, hb, hc⟩
  mute h := ⟨congrArg _ h.1, h.2.frames, h.2.returns, h.2.clean, congrArg (· + 1) h.2.muted⟩
  unmute h := ⟨congrArg _ h.1, h.2.frames, h.2.returns, h.2.clean, congrArg (· - 1) h.2.muted⟩

theorem loopLaws_growth : (ctx.growth old).LoopLaws :=
  Simulation.loopLaws_of_stable rfl ctx.stable_growth (wf_advance ctx (by decide))
    (fun hs _ _ => State.wf_giveUp _ hs) trivial

/-- A jump carries its state to a frame that keeps what it has. -/
theorem routed_growth {ks : List FrameKind} {n : NodeId} {route : List Frame → Option (List Frame)}
    (hroute : ∀ fs gs, FramesGrown old.frames ks fs → route fs = some gs →
      FramesGrown old.frames ks gs) : (ctx.growth old).Routed ks n route :=
  Simulation.routed_of_frames (fun h => ⟨congrArg _ h.1, h.2.frames⟩)
    (fun h hfg => ⟨by rw [h.1, hfg.1], hfg.2, h.2.returns, h.2.clean, h.2.muted⟩)
    (fun _ _ _ _ => trivial) (Frame.routes_same hroute)

variable (ht : ctx.tree.WritesPrimitives)

include ht

theorem placeLaws_growth : (ctx.growth old).PlaceLaws everywhere :=
  Simulation.placeLaws_of_total (fun _ => trivial) (fun _ => trivial)
    (fun _ h => Literal.wf_of_concrete? (ht.literal h))
    (fun _ h hc hl => Literal.wf_of_code? (ht.label h hc hl))
    (fun _ _ hs => ctx.routed_growth fun _ _ h hgs => FramesGrown.addBreak hs h hgs)
    fun _ _ hs => ctx.routed_growth fun _ _ h hgs => FramesGrown.addContinue hs h hgs

theorem laws_growth (old : Session) : (ctx.growth old).Laws everywhere everywhere where
  value := valueLaws_wellFormed (by decide)
  state := stateLaws_wellFormed
  session := Simulation.sessionLaws_of_stable rfl ctx.stable_growth
  loop := ctx.loopLaws_growth.loop
  here := ctx.placeLaws_growth ht
  below := ctx.placeLaws_growth ht
  down := everywhere_over ctx.tree

theorem related_growth (old : Session) (depth : Nat) :
    (ctx.growth old).Related everywhere (ctx.evaluators depth) (ctx.evaluators depth) :=
  Simulation.related_evaluators (ctx.laws_growth ht old) trivial depth

end Context

end ValueFlow

import ValueFlow.Proofs.Simulation.Effects
import ValueFlow.Proofs.State

namespace ValueFlow

def Session.kinds (σ : Session) : List FrameKind := σ.frames.map (·.kind)

/-- The frames entered since the start, of the kinds `ks`, are the same and hold states with the
property `P`; those around them are of the kinds `base`. -/
def Lockstep (P : State → Prop) (base : List FrameKind) :
    List FrameKind → List Frame → List Frame → Prop
  | [], fs, gs => fs.map (·.kind) = base ∧ gs.map (·.kind) = base
  | k :: ks, f :: fs, g :: gs =>
    f = g ∧ f.kind = k ∧ P f.breaks ∧ P f.continues ∧ Lockstep P base ks fs gs
  | _ :: _, _, _ => False

namespace Lockstep

variable {P : State → Prop} {base ks : List FrameKind} {k : FrameKind} {fs gs : List Frame}
  {s : State}

theorem cons_inv (h : Lockstep P base (k :: ks) fs gs) : ∃ f rest rest', fs = f :: rest ∧
    gs = f :: rest' ∧ f.kind = k ∧ P f.breaks ∧ P f.continues ∧ Lockstep P base ks rest rest' := by
  cases fs with
  | nil => exact h.elim
  | cons f rest =>
    cases gs with
    | nil => exact h.elim
    | cons g rest' =>
      obtain ⟨rfl, h⟩ := h
      exact ⟨f, rest, rest', rfl, rfl, h⟩

theorem routes_addBreak (hmerge : ∀ {s s'}, P s → P s' → P (s.merge s')) (hs : P s) :
    Frame.Routes (Lockstep P base ks) (Frame.addBreak s) := by
  intro fs gs h
  cases ks with
  | nil =>
    cases fs with
    | nil =>
      cases gs with
      | nil => exact .inr ⟨rfl, rfl⟩
      | cons g gs => cases h.1.trans h.2.symm
    | cons f fs =>
      cases gs with
      | nil => cases h.1.trans h.2.symm
      | cons g gs => exact .inl ⟨_, _, rfl, rfl, h⟩
  | cons k ks =>
    obtain ⟨f, rest, rest', rfl, rfl, hk, hb, hc, hrest⟩ := h.cons_inv
    exact .inl ⟨_, _, rfl, rfl, rfl, hk, hmerge hb hs, hc, hrest⟩

theorem routes_addContinue_outside :
    Frame.Routes (Lockstep P base []) (Frame.addContinue s) := by
  rintro fs gs ⟨hf, hg⟩
  induction base generalizing fs gs with
  | nil =>
    rw [List.map_eq_nil_iff] at hf hg
    subst hf hg
    exact .inr ⟨rfl, rfl⟩
  | cons k base ih =>
    obtain ⟨f, fs, rfl, hfk, hfs⟩ := List.map_eq_cons_iff.1 hf
    obtain ⟨g, gs, rfl, hgk, hgs⟩ := List.map_eq_cons_iff.1 hg
    unfold Frame.addContinue
    simp only [hfk, hgk]
    cases k with
    | loop => exact .inl ⟨_, _, rfl, rfl, by simp [hfs], by simp [hgs]⟩
    | switch =>
      rcases ih fs gs hfs hgs with ⟨fs', gs', hf', hg', hfs', hgs'⟩ | ⟨hf', hg'⟩
      · exact .inl ⟨f :: fs', g :: gs', by simp [hf'], by simp [hg'], by simp [hfk, hfs'],
          by simp [hgk, hgs']⟩
      · exact .inr ⟨by simp [hf'], by simp [hg']⟩

theorem routes_addContinue (hmerge : ∀ {s s'}, P s → P s' → P (s.merge s')) (hs : P s) :
    Frame.Routes (Lockstep P base ks) (Frame.addContinue s) := by
  intro fs gs h
  induction ks generalizing fs gs with
  | nil => exact routes_addContinue_outside fs gs h
  | cons k ks ih =>
    obtain ⟨f, rest, rest', rfl, rfl, hk, hb, hc, hrest⟩ := h.cons_inv
    unfold Frame.addContinue
    cases hf : f.kind with
    | loop =>
      refine .inl ⟨_, _, rfl, rfl, rfl, ?_, hb, hmerge hc hs, hrest⟩
      rw [← hk, hf]
    | switch =>
      rcases ih rest rest' hrest with ⟨fs', gs', hf', hg', hfg⟩ | ⟨hf', hg'⟩
      · exact .inl ⟨f :: fs', f :: gs', by simp [hf'], by simp [hg'], rfl, hk, hb, hc, hfg⟩
      · exact .inr ⟨by simp [hf'], by simp [hg']⟩

theorem stable (hdead : P .dead) :
    Session.Stable P fun ks _ σ τ => Lockstep P base ks σ.frames τ.frames :=
  Session.stable_of_frames (fun _ h => ⟨rfl, rfl, hdead, hdead, h⟩) fun h => by
    obtain ⟨f, rest, rest', hf, hg, -, hb, hc, hrest⟩ := h.cons_inv
    exact ⟨f, rest, rest', hf, hg, hb, hc, hrest⟩

end Lockstep

namespace Context

variable (ctx : Context)

/-- The analysis beside itself, from sessions whose frames are of the kinds `base`. -/
def lockstep (limit : Interval) (base : List FrameKind) : Simulation where
  tree := ctx.tree
  leftSettings := ctx.settings
  rightSettings := ctx.settings
  returnType := ctx.returnType
  returnContracts := ctx.returnContracts
  value := Value.WellFormedWithin limit
  state := State.WellFormedWithin limit
  decl _ := True
  halt _ := True
  session ks _ σ τ := Lockstep (State.WellFormedWithin limit) base ks σ.frames τ.frames

variable {limit : Interval} {base : List FrameKind}

theorem stable_lockstep : Session.Stable (ctx.lockstep limit base).state
    (ctx.lockstep limit base).session :=
  Lockstep.stable State.wf_dead

theorem stateLaws_wellFormed : Simulation.StateLaws (Value.WellFormedWithin limit)
    (State.WellFormedWithin limit) fun _ => True where
  lookup hs h := hs _ _ h
  dead := State.wf_dead
  kill hs := hs
  set hs _ hv := State.wf_set hs hv
  merge := State.wf_merge
  intersect := State.wf_intersect

variable (hlimit : limit.includes lengths = true)

include hlimit

theorem valueLaws_wellFormed : Simulation.ValueLaws (Value.WellFormedWithin limit) where
  any := trivial
  empty := trivial
  integer _ := trivial
  object _ := trivial
  ofFlags := Value.wf_ofFlags
  arrayOf i := Value.wf_arrayOf hlimit i false
  initialValue := Value.wf_initialValue hlimit
  merge := Value.wf_merge
  arith op _ _ := Value.wf_arith hlimit op
  negate := Value.wf_negate
  promote := Value.wf_promote
  complement := Value.wf_complement
  withNullable n _ := Value.wf_withNullable n
  withLength l _ := Value.wf_withLength hlimit l
  restrict rel _ _ := Value.wf_restrict rel
  convert ty policy _ := Value.wf_convert ty policy

theorem loopLaws_lockstep : (ctx.lockstep limit base).LoopLaws :=
  Simulation.loopLaws_of_stable rfl ctx.stable_lockstep (wf_advance ctx hlimit)
    (fun hs _ _ => State.wf_giveUp _ hs) trivial

variable (hliteral : ∀ l : Literal, l.value.WellFormedWithin limit)

include hliteral

omit hlimit in
theorem placeLaws_lockstep : (ctx.lockstep limit base).PlaceLaws everywhere :=
  Simulation.placeLaws_of_total (fun _ => trivial) (fun _ => trivial) (fun _ _ => hliteral _)
    (fun _ _ _ _ => hliteral _)
    (fun _ _ hs => Simulation.routed_of_frames id (fun _ h => h) (fun _ _ _ _ => trivial)
      (Lockstep.routes_addBreak State.wf_merge hs))
    fun _ _ hs => Simulation.routed_of_frames id (fun _ h => h) (fun _ _ _ _ => trivial)
      (Lockstep.routes_addContinue State.wf_merge hs)

theorem laws_lockstep (base : List FrameKind) :
    (ctx.lockstep limit base).Laws everywhere everywhere where
  value := valueLaws_wellFormed hlimit
  state := stateLaws_wellFormed
  session := Simulation.sessionLaws_of_stable rfl ctx.stable_lockstep
  loop := (ctx.loopLaws_lockstep hlimit).loop
  here := ctx.placeLaws_lockstep hliteral
  below := ctx.placeLaws_lockstep hliteral
  down := everywhere_over ctx.tree

/-- Walks from one state in frames of the same kinds stay in lockstep. -/
theorem related_lockstep (base : List FrameKind) (depth : Nat) :
    (ctx.lockstep limit base).Related everywhere (ctx.evaluators depth) (ctx.evaluators depth) :=
  Simulation.related_evaluators (ctx.laws_lockstep hlimit hliteral base) trivial depth

end Context

theorem Literal.wf_value (l : Literal) : l.value.WellFormedWithin .full := by
  cases l with
  | int x => trivial
  | char code =>
    show charCodes.includes _ = true
    have := code.toNat_lt
    rw [Interval.includes_iff]
    simp only [charCodes, Interval.point, Interval.saturated, saturate, minInt, maxInt]
    omega
  | bool b => exact Value.wf_ofFlags b (!b)
  | str s =>
    show Interval.full.includes _ = true
    rw [Interval.includes_iff]
    exact ⟨Interval.minInt_le_lo _, Interval.hi_le_maxInt _⟩
  | null => trivial

end ValueFlow

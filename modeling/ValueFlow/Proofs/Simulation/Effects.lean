import ValueFlow.Proofs.Session
import ValueFlow.Proofs.Simulation.Loop

namespace ValueFlow

/-- A relation between sessions that the effects of any step keep, given the frames entered and the
loops being solved since the start. The states that they gather have the property `P`. -/
structure Session.Stable (P : State → Prop)
    (R : List FrameKind → Nat → Session → Session → Prop) : Prop where
  find {ks : List FrameKind} {k : Nat} {σ τ : Session} (n : NodeId) (f : Finding) :
    R ks k σ τ → R ks k (σ.find n f) (τ.find n f)
  trace {ks : List FrameKind} {k : Nat} {σ τ : Session} {e : Entry}
    (he : ∀ event, e.event? = some event → P event.state) :
    R ks k σ τ → R ks k (σ.trace e) (τ.trace e)
  note {ks : List FrameKind} {k : Nat} {σ τ : Session} {e : Entry} (he : e.event? = none) :
    R ks k σ τ → R ks k (σ.note e) (τ.note e)
  returning {ks : List FrameKind} {k : Nat} {σ τ : Session} {s : State} (hs : P s) : R ks k σ τ →
    R ks k { σ with returns := σ.returns.merge s } { τ with returns := τ.returns.merge s }
  enter {ks : List FrameKind} {k : Nat} {σ τ : Session} (kind : FrameKind) :
    R ks k σ τ → R (kind :: ks) k (σ.enterFrame kind) (τ.enterFrame kind)
  leave {kind : FrameKind} {ks : List FrameKind} {k : Nat} {σ τ : Session} :
    R (kind :: ks) k σ τ → R ks k σ.leaveFrame τ.leaveFrame
  gathered {kind : FrameKind} {ks : List FrameKind} {k : Nat} {σ τ : Session} :
    R (kind :: ks) k σ τ → ∃ f rest rest', σ.frames = f :: rest ∧ τ.frames = f :: rest' ∧
      P f.breaks ∧ P f.continues
  mute {ks : List FrameKind} {k : Nat} {σ τ : Session} :
    R ks k σ τ → R ks (k + 1) σ.mute τ.mute
  unmute {ks : List FrameKind} {k : Nat} {σ τ : Session} :
    R ks (k + 1) σ τ → R ks k σ.unmute τ.unmute

/-- Only entering and leaving a frame touch a relation that is about the frames alone. -/
theorem Session.stable_of_frames {P : State → Prop}
    {R : List FrameKind → List Frame → List Frame → Prop}
    (henter : ∀ {ks fs gs} kind, R ks fs gs →
      R (kind :: ks) (⟨kind, .dead, .dead⟩ :: fs) (⟨kind, .dead, .dead⟩ :: gs))
    (hinner : ∀ {kind ks fs gs}, R (kind :: ks) fs gs → ∃ f rest rest', fs = f :: rest ∧
      gs = f :: rest' ∧ P f.breaks ∧ P f.continues ∧ R ks rest rest') :
    Session.Stable P fun ks _ σ τ => R ks σ.frames τ.frames where
  find n f h := by simpa using h
  trace _ h := by simpa using h
  note _ h := h
  returning _ h := h
  enter kind h := henter kind h
  leave h := by
    obtain ⟨f, rest, rest', hf, hg, -, -, hrest⟩ := hinner h
    simp only [Session.leaveFrame, hf, hg]
    exact hrest
  gathered h := by
    obtain ⟨f, rest, rest', hf, hg, hbreaks, hcontinues, -⟩ := hinner h
    exact ⟨f, rest, rest', hf, hg, hbreaks, hcontinues⟩
  mute h := h
  unmute h := h

namespace Frame

variable {R : List Frame → List Frame → Prop} {P : List Frame → Prop}
  {route : List Frame → Option (List Frame)}

/-- A jump finds its frame on both sides or on neither, and they stay related. -/
def Routes (R : List Frame → List Frame → Prop) (route : List Frame → Option (List Frame)) : Prop :=
  ∀ fs gs, R fs gs → (∃ fs' gs', route fs = some fs' ∧ route gs = some gs' ∧ R fs' gs') ∨
    (route fs = none ∧ route gs = none)

theorem routes_same (h : ∀ fs fs', P fs → route fs = some fs' → P fs') :
    Routes (fun fs gs => fs = gs ∧ P fs) route := by
  rintro fs _ ⟨rfl, hP⟩
  cases hroute : route fs with
  | none => exact .inr ⟨rfl, rfl⟩
  | some fs' => exact .inl ⟨fs', fs', rfl, rfl, rfl, h fs fs' hP hroute⟩

theorem Routes.same (h : Routes R route) : Routes (fun fs gs => fs = gs ∧ R fs fs) route := by
  refine routes_same fun fs fs' hR hroute => ?_
  rcases h fs fs hR with ⟨_, _, hf, hg, hfg⟩ | ⟨hf, -⟩
  · cases hroute.symm.trans hf
    cases hroute.symm.trans hg
    exact hfg
  · cases hroute.symm.trans hf

end Frame

namespace Simulation

variable {S : Simulation}

section Stable

variable (hsettings : S.leftSettings = S.rightSettings) (h : Session.Stable S.state S.session)

include h

theorem keeps_foldl_find (n : NodeId) (fs : List Finding) :
    S.Keeps (fun σ => fs.foldl (Session.find n) σ) (fun τ => fs.foldl (Session.find n) τ) := by
  induction fs with
  | nil => exact fun _ _ _ _ hστ => hστ
  | cons f fs ih => exact fun ks k σ τ hστ => ih ks k _ _ (h.find n f hστ)

include hsettings

theorem sessionLaws_of_stable : S.SessionLaws := by
  have hright : S.right = S.left := by rw [left, right, hsettings]
  exact
    { find := fun n f _ _ _ _ _ => h.find n f
      unboxing := fun n o => hright ▸ keeps_foldl_find h n _
      deref := fun n target v => hright ▸ keeps_foldl_find h n _
      dead := fun n stmt => hright ▸ keeps_foldl_find h n _
      entered := fun n _ hs _ _ _ _ => h.trace fun event he => by
        cases he
        exact hs
      left := fun n _ hs _ _ _ _ => h.trace fun event he => by
        cases he
        exact hs
      returning := fun hs _ _ _ _ => h.returning hs
      enter := fun kind _ _ _ _ => h.enter kind
      leave := h.leave
      gathered := h.gathered }

theorem loopLaws_of_stable
    (hadvance : ∀ (iteration : Nat) {head back : State}, S.state head → S.state back →
      S.state (S.left.advance iteration head back))
    (hgiveUp : ∀ {next head : State}, S.state next → S.state head → head.unreachable = false →
      S.state (next.giveUp head))
    (hexhausted : S.halt .exhausted) : S.LoopLaws where
  threshold := by rw [hsettings]
  patience := by rw [hsettings]
  advance := hadvance
  giveUp := hgiveUp
  gaveUp _ _ _ _ _ _ _ := h.note rfl
  stabilized _ _ _ _ _ _ := h.note rfl
  mute := h.mute
  unmute := h.unmute
  exhausted := hexhausted

end Stable

/-- Where the sessions are related by way of their frames, a jump needs only the frames. -/
theorem routed_of_frames {R : List Frame → List Frame → Prop} {ks : List FrameKind} {n : NodeId}
    {route : List Frame → Option (List Frame)}
    (hframes : ∀ {k σ τ}, S.session ks k σ τ → R σ.frames τ.frames)
    (hreframe : ∀ {k σ τ fs gs}, S.session ks k σ τ → R fs gs →
      S.session ks k { σ with frames := fs } { τ with frames := gs })
    (hstray : ∀ fs gs, R fs gs → route fs = none → S.halt (.malformed (.strayJump n)))
    (h : Frame.Routes R route) : S.Routed ks n route := by
  intro k σ τ hστ
  rcases h _ _ (hframes hστ) with ⟨fs, gs, hf, hg, hfg⟩ | ⟨hf, hg⟩
  · exact .inl ⟨fs, gs, hf, hg, hreframe hστ hfg⟩
  · exact .inr ⟨hf, hg, hstray _ _ (hframes hστ) hf⟩

/-- Nothing is asked of the declarations and of the failures. -/
theorem placeLaws_of_total {N : Places} (hdecl : ∀ d, S.decl d) (hhalt : ∀ e, S.halt e)
    (hliteral : ∀ {n l}, N.expr n → S.tree.expr n = .ok (.literal l) → S.value l.value)
    (hlabel : ∀ {ks n selector cases c l}, N.stmt ks n →
      S.tree.stmt n = .ok (.switch selector cases) → c ∈ cases → l ∈ c.labels → S.value l.value)
    (hbreak : ∀ {ks n s}, N.stmt ks n → S.tree.stmt n = .ok .breakOut → S.state s →
      S.Routed ks n (Frame.addBreak s))
    (hcontinue : ∀ {ks n s}, N.stmt ks n → S.tree.stmt n = .ok .continueLoop → S.state s →
      S.Routed ks n (Frame.addContinue s)) : S.PlaceLaws N where
  expr_error _ _ := hhalt _
  stmt_error _ _ := hhalt _
  decl_error _ _ := hhalt _
  call_error _ _ _ := hhalt _
  param_error _ _ _ _ _ := hhalt _
  name _ _ := hdecl _
  field _ _ := hdecl _
  declare _ _ := hdecl _
  literal := hliteral
  label := hlabel
  breakOut := hbreak
  continueLoop := hcontinue

theorem valueLaws_trivial : ValueLaws fun _ => True where
  any := trivial
  empty := trivial
  integer _ := trivial
  object _ := trivial
  ofFlags _ _ := trivial
  arrayOf _ := trivial
  initialValue _ _ := trivial
  merge _ _ := trivial
  arith _ _ _ _ _ := trivial
  negate _ := trivial
  promote _ := trivial
  complement _ := trivial
  withNullable _ _ _ := trivial
  withLength _ _ _ := trivial
  restrict _ _ _ _ _ := trivial
  convert _ _ _ _ := trivial

theorem stateLaws_trivial {decl : DeclId → Prop} :
    StateLaws (fun _ => True) (fun _ => True) decl where
  lookup _ _ := trivial
  dead := trivial
  kill _ := trivial
  set _ _ _ := trivial
  merge _ _ := trivial
  intersect _ _ := trivial

end Simulation

def Context.everywhere : Places := ⟨fun _ => True, fun _ _ => True⟩

theorem Context.everywhere_over (t : Tree) : everywhere.Over everywhere t where
  child _ _ _ := trivial
  grandchild _ _ _ _ _ := trivial
  part _ _ _ := trivial
  inner _ _ _ := trivial
  body _ _ _ := trivial

end ValueFlow

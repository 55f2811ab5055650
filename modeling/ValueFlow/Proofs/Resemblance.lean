import ValueFlow.Proofs.LoopHead
import ValueFlow.Proofs.Malformed
import ValueFlow.Proofs.Report

namespace ValueFlow

def Report.besidesDeadCode (r : Report) : List Located :=
  r.entries.filter fun x => x.2.kind ≠ .unreachableCode

namespace Session

variable {σ τ ρ : Session} {n : NodeId} {f : Finding} {fs : List Finding}

theorem ascending_find (n : NodeId) (f : Finding) (h : Report.Ascending σ.report.entries) :
    Report.Ascending (σ.find n f).report.entries := by
  rw [find_entries]
  split
  · exact Report.ascending_place h
  · exact h

theorem besidesDeadCode_find (n : NodeId) (f : Finding)
    (h : Report.Ascending σ.report.entries) : (σ.find n f).report.besidesDeadCode =
      if σ.muted = 0 ∧ f.kind ≠ .unreachableCode
      then (Report.place (n, f) σ.report.besidesDeadCode).2 else σ.report.besidesDeadCode := by
  unfold Report.besidesDeadCode
  rw [find_entries]
  by_cases hmuted : σ.muted = 0
  · rw [if_pos hmuted, Report.filter_place _ h]
    by_cases hf : f.kind = .unreachableCode <;> simp [hmuted, hf]
  · rw [if_neg hmuted, if_neg fun hboth => hmuted hboth.1]

/-- The second session is the first with more notes and more remarks on dead code. -/
structure Remarks (σ τ : Session) : Prop where
  frames : τ.frames = σ.frames
  returns : τ.returns = σ.returns
  muted : τ.muted = σ.muted
  ascending : Report.Ascending σ.report.entries → Report.Ascending τ.report.entries
  report : Report.Ascending σ.report.entries →
    τ.report.besidesDeadCode = σ.report.besidesDeadCode

namespace Remarks

theorem refl (σ : Session) : σ.Remarks σ := ⟨rfl, rfl, rfl, id, fun _ => rfl⟩

theorem trans (h : σ.Remarks τ) (h' : τ.Remarks ρ) : σ.Remarks ρ where
  frames := h'.frames.trans h.frames
  returns := h'.returns.trans h.returns
  muted := h'.muted.trans h.muted
  ascending hasc := h'.ascending (h.ascending hasc)
  report hasc := (h'.report (h.ascending hasc)).trans (h.report hasc)

theorem trace (e : Entry) (σ : Session) : σ.Remarks (σ.trace e) where
  frames := trace_frames e σ
  returns := (trace_returns e σ).1
  muted := (trace_returns e σ).2
  ascending hasc := by rwa [trace_report]
  report _ := by rw [trace_report]

theorem note (e : Entry) (σ : Session) : σ.Remarks (σ.note e) :=
  ⟨rfl, rfl, rfl, id, fun _ => rfl⟩

theorem find (hf : f.kind = .unreachableCode) : σ.Remarks (σ.find n f) where
  frames := find_frames n f σ
  returns := (find_returns n f σ).1
  muted := (find_returns n f σ).2
  ascending := ascending_find n f
  report hasc := by rw [besidesDeadCode_find n f hasc, if_neg fun hboth => hboth.2 hf]

theorem foldl_find (hfs : ∀ f ∈ fs, f.kind = .unreachableCode) :
    σ.Remarks (fs.foldl (Session.find n) σ) := by
  induction fs generalizing σ with
  | nil => exact refl σ
  | cons f fs ih =>
    exact (find (hfs f (by simp))).trans (ih fun g hg => hfs g (List.mem_cons_of_mem _ hg))

end Remarks

/-- The sessions agree but for their notes and remarks on dead code, and `B` relates their
frames. -/
structure Resembles (B : List Frame → List Frame → Prop) (σ τ : Session) : Prop where
  frames : B σ.frames τ.frames
  returns : σ.returns = τ.returns
  muted : σ.muted = τ.muted
  ascending : Report.Ascending σ.report.entries
  ascending' : Report.Ascending τ.report.entries
  report : σ.report.besidesDeadCode = τ.report.besidesDeadCode

namespace Resembles

variable {B B' : List Frame → List Frame → Prop} {σ' τ' : Session}

theorem remark (h : σ.Resembles B τ) (hσ : σ.Remarks σ') (hτ : τ.Remarks τ') :
    σ'.Resembles B τ' where
  frames := by rw [hσ.frames, hτ.frames]; exact h.frames
  returns := by rw [hσ.returns, hτ.returns, h.returns]
  muted := by rw [hσ.muted, hτ.muted, h.muted]
  ascending := hσ.ascending h.ascending
  ascending' := hτ.ascending h.ascending'
  report := by rw [hσ.report h.ascending, hτ.report h.ascending', h.report]

theorem find (h : σ.Resembles B τ) (n : NodeId) (f : Finding) :
    (σ.find n f).Resembles B (τ.find n f) where
  frames := by simpa using h.frames
  returns := by rw [(find_returns n f σ).1, (find_returns n f τ).1, h.returns]
  muted := by rw [(find_returns n f σ).2, (find_returns n f τ).2, h.muted]
  ascending := ascending_find n f h.ascending
  ascending' := ascending_find n f h.ascending'
  report := by
    rw [besidesDeadCode_find n f h.ascending, besidesDeadCode_find n f h.ascending', h.muted,
      h.report]

theorem foldl_find (h : σ.Resembles B τ) (n : NodeId) (fs : List Finding) :
    (fs.foldl (Session.find n) σ).Resembles B (fs.foldl (Session.find n) τ) := by
  induction fs generalizing σ τ with
  | nil => exact h
  | cons f fs ih => exact ih (h.find n f)

theorem reframe (h : σ.Resembles B τ) {fs gs : List Frame} (hframes : B' fs gs) :
    Resembles B' { σ with frames := fs } { τ with frames := gs } :=
  ⟨hframes, h.returns, h.muted, h.ascending, h.ascending', h.report⟩

theorem mute (h : σ.Resembles B τ) : σ.mute.Resembles B τ.mute :=
  ⟨h.frames, h.returns, congrArg (· + 1) h.muted, h.ascending, h.ascending', h.report⟩

theorem unmute (h : σ.Resembles B τ) : σ.unmute.Resembles B τ.unmute :=
  ⟨h.frames, h.returns, congrArg (· - 1) h.muted, h.ascending, h.ascending', h.report⟩

end Resembles

end Session

/-- The frames entered since the start, of the kinds `ks`, are the same; `B` relates those around
them. -/
def Surrounded (B : List Frame → List Frame → Prop) (ks : List FrameKind) (fs gs : List Frame) :
    Prop :=
  ∃ entered outer outer', fs = entered ++ outer ∧ gs = entered ++ outer' ∧
    entered.map (·.kind) = ks ∧ B outer outer'

namespace Surrounded

variable {B : List Frame → List Frame → Prop} {ks : List FrameKind} {kind : FrameKind}
  {fs gs : List Frame}

theorem nil_iff : Surrounded B [] fs gs ↔ B fs gs := by
  constructor
  · rintro ⟨entered, outer, outer', rfl, rfl, hkinds, hB⟩
    obtain rfl := List.map_eq_nil_iff.1 hkinds
    exact hB
  · exact fun hB => ⟨[], fs, gs, rfl, rfl, rfl, hB⟩

theorem cons (f : Frame) (h : Surrounded B ks fs gs) :
    Surrounded B (f.kind :: ks) (f :: fs) (f :: gs) := by
  obtain ⟨entered, outer, outer', rfl, rfl, rfl, hB⟩ := h
  exact ⟨f :: entered, outer, outer', rfl, rfl, rfl, hB⟩

theorem cons_inv (h : Surrounded B (kind :: ks) fs gs) : ∃ f rest rest', fs = f :: rest ∧
    gs = f :: rest' ∧ f.kind = kind ∧ Surrounded B ks rest rest' := by
  obtain ⟨entered, outer, outer', rfl, rfl, hkinds, hB⟩ := h
  obtain ⟨f, inner, rfl, hf, hinner⟩ := List.map_eq_cons_iff.1 hkinds
  exact ⟨f, inner ++ outer, inner ++ outer', rfl, rfl, hf, inner, outer, outer', rfl, rfl, hinner,
    hB⟩

theorem stable : Session.Stable (fun _ => True) fun ks _ σ τ => Surrounded B ks σ.frames τ.frames :=
  Session.stable_of_frames (fun kind h => h.cons ⟨kind, .dead, .dead⟩) fun h => by
    obtain ⟨f, rest, rest', hf, hg, -, hrest⟩ := h.cons_inv
    exact ⟨f, rest, rest', hf, hg, trivial, trivial, hrest⟩

end Surrounded

namespace Context

variable (ctx : Context) {B : List Frame → List Frame → Prop}

/-- The analysis beside itself, from sessions that resemble each other. -/
abbrev resembling (B : List Frame → List Frame → Prop) : Simulation :=
  ctx.alongside fun ks _ => Session.Resembles (Surrounded B ks)

theorem stable_resembling : Session.Stable (fun _ => True) (ctx.resembling B).session where
  find n f h := h.find n f
  trace _ h := h.remark (.trace _ _) (.trace _ _)
  note _ h := h.remark (.note _ _) (.note _ _)
  returning {_ _ _ _ s} _ h :=
    ⟨h.frames, congrArg (·.merge s) h.returns, h.muted, h.ascending, h.ascending', h.report⟩
  enter kind h := h.reframe (h.frames.cons ⟨kind, .dead, .dead⟩)
  leave h := by
    obtain ⟨f, rest, rest', hf, hg, -, hrest⟩ := h.frames.cons_inv
    simp only [Session.leaveFrame, hf, hg]
    exact h.reframe hrest
  gathered h := by
    obtain ⟨f, rest, rest', hf, hg, -, -⟩ := h.frames.cons_inv
    exact ⟨f, rest, rest', hf, hg, trivial, trivial⟩
  mute h := h.mute
  unmute h := h.unmute

theorem routed_resembling {ks : List FrameKind} {n : NodeId}
    {route : List Frame → Option (List Frame)} (h : Frame.Routes (Surrounded B ks) route) :
    (ctx.resembling B).Routed ks n route :=
  Simulation.routed_of_frames (·.frames) (fun h => h.reframe) (fun _ _ _ _ => trivial) h

theorem placeLaws_resembling {N : Places}
    (hbreak : ∀ {ks n s}, N.stmt ks n → ctx.tree.stmt n = .ok .breakOut →
      Frame.Routes (Surrounded B ks) (Frame.addBreak s))
    (hcontinue : ∀ {ks n s}, N.stmt ks n → ctx.tree.stmt n = .ok .continueLoop →
      Frame.Routes (Surrounded B ks) (Frame.addContinue s)) : (ctx.resembling B).PlaceLaws N :=
  ctx.placeLaws_alongside (fun hn hs => ctx.routed_resembling (hbreak hn hs)) fun hn hs =>
    ctx.routed_resembling (hcontinue hn hs)

variable {N : Nat → Places} (hN : Places.Ladder N ctx.tree)
  (hplaces : ∀ depth, (ctx.resembling B).PlaceLaws (N depth))

include hN hplaces

theorem laws_resembling (depth : Nat) : (ctx.resembling B).Laws (N (depth + 1)) (N depth) :=
  ctx.laws_beside ctx.stable_resembling trivial (hplaces (depth + 1)) (hplaces depth)
    (hN.step depth)

/-- Walks that are both deep enough for a node agree on it. -/
theorem related_resembling {depth e e' : Nat} (he : depth ≤ e) (he' : depth ≤ e') :
    (ctx.resembling B).Related (N depth) (ctx.evaluators e) (ctx.evaluators e') := by
  -- on the levels that the node needs; how many the walks have to spare differs
  induction depth generalizing e e' with
  | zero =>
    exact ⟨fun _ hn _ => absurd hn (hN.expr_zero _), fun _ hn _ => absurd hn (hN.expr_zero _),
      fun hn _ => absurd hn (hN.stmt_zero _ _)⟩
  | succ depth ih =>
    obtain ⟨d, rfl⟩ : ∃ d, e = d + 1 := ⟨e - 1, by omega⟩
    obtain ⟨d', rfl⟩ : ∃ d', e' = d' + 1 := ⟨e' - 1, by omega⟩
    have hL := ctx.laws_resembling hN hplaces depth
    have hb := ih (Nat.le_of_succ_le_succ he) (Nat.le_of_succ_le_succ he')
    exact ⟨fun _ hn hs => Simulation.inStep_exprAt hL hb hn hs,
      fun _ hn hs => Simulation.inStep_condAt hL hb hn hs,
      fun hn hs => Simulation.inStep_stmtAt hL hb hn hs⟩

end Context

namespace Walk

variable {α β γ δ : Type} {B : List Frame → List Frame → Prop} {Q : α → β → Prop}
  {Q' : γ → δ → Prop} {m k : Walk α} {m' k' : Walk β}

/-- Whenever the first step succeeds, so does the second from any session that resembles the first
one's, and `Q` relates the answers. -/
def Follows (B : List Frame → List Frame → Prop) (Q : α → β → Prop) (m : Walk α) (m' : Walk β) :
    Prop :=
  ∀ σ τ, σ.Resembles B τ → ∀ a σ', m σ = .ok a σ' →
    ∃ b τ', m' τ = .ok b τ' ∧ Q a b ∧ σ'.Resembles B τ'

theorem follows_pure {a : α} {b : β} (h : Q a b) : Follows B Q (pure a) (pure b) := by
  intro σ τ hστ a' σ' hm
  cases hm
  exact ⟨b, τ, rfl, h, hστ⟩

theorem follows_note (e e' : Entry) : Follows B (fun _ _ => True) (Walk.note e) (Walk.note e') := by
  intro σ τ hστ _ σ' hnote
  cases hnote
  exact ⟨(), _, rfl, trivial, hστ.remark (.note e σ) (.note e' τ)⟩

theorem follows_of_inStep {ctx : Context} {P : α → Prop}
    (h : (ctx.resembling B).InStep [] P m k) : Follows B Eq m k := by
  intro σ τ hστ a σ' hm
  -- nothing has been entered yet, so `B` relates all the frames
  have hagree := h 0 σ τ (hστ.reframe (Surrounded.nil_iff.2 hστ.frames))
  rw [hm] at hagree
  cases hk : k τ with
  | error e τ' =>
    rw [hk] at hagree
    exact hagree.elim
  | ok b τ' =>
    rw [hk] at hagree
    obtain ⟨rfl, -, hστ'⟩ := hagree
    exact ⟨a, τ', rfl, rfl, hστ'.reframe (Surrounded.nil_iff.1 hστ'.frames)⟩

theorem Follows.mono {P : α → β → Prop} (h : Follows B Q m m') (hQ : ∀ a b, Q a b → P a b) :
    Follows B P m m' := by
  intro σ τ hστ a σ' hm
  obtain ⟨b, τ', hm', hab, hστ'⟩ := h σ τ hστ a σ' hm
  exact ⟨b, τ', hm', hQ a b hab, hστ'⟩

theorem Follows.bind {f : α → Walk γ} {f' : β → Walk δ} (h : Follows B Q m m')
    (hf : ∀ a b, Q a b → Follows B Q' (f a) (f' b)) : Follows B Q' (m >>= f) (m' >>= f') := by
  intro σ τ hστ c σ' hbind
  obtain ⟨a, ρ, hm, hfa⟩ := bind_eq_ok.1 hbind
  obtain ⟨b, ρ', hm', hab, hρ⟩ := h σ τ hστ a ρ hm
  obtain ⟨d, τ', hfb, hcd, hστ'⟩ := hf a b hab ρ ρ' hρ c σ' hfa
  exact ⟨d, τ', bind_eq_ok.2 ⟨b, ρ', hm', hfb⟩, hcd, hστ'⟩

theorem Follows.muted (h : Follows B Q m m') : Follows B Q (Walk.muted m) (Walk.muted m') := by
  intro σ τ hστ a σ' hm
  obtain ⟨ρ, hρ, rfl⟩ := muted_eq_ok hm
  obtain ⟨b, ρ', hρ', hab, hρρ'⟩ := h σ.mute τ.mute hστ.mute a ρ hρ
  refine ⟨b, ρ'.unmute, ?_, hab, hρρ'.unmute⟩
  unfold Walk.muted
  rw [hρ']

/-- The second step is the first with notes and remarks on dead code before and after it. -/
def Annotates (m k : Walk α) : Prop :=
  ∃ (before : Session → Session) (after : α → Session → Session),
    (∀ σ : Session, σ.Remarks (before σ)) ∧ (∀ a (σ : Session), σ.Remarks (after a σ)) ∧
      k = do
        modify before
        let a ← m
        modify (after a)
        pure a

theorem Annotates.refl (m : Walk α) : Annotates m m :=
  ⟨id, fun _ => id, fun σ => .refl σ, fun _ σ => .refl σ, by
    funext σ
    show m σ = EStateM.bind m (fun a => _) σ
    unfold EStateM.bind
    cases m σ <;> rfl⟩

/-- The first step succeeds, from a session with remarks, just as the second does. -/
theorem Annotates.exists_ok_iff (h : Annotates m k) (σ : Session) :
    ∃ ρ, σ.Remarks ρ ∧ ∀ a, (∀ ρ', m ρ = .ok a ρ' → ∃ σ', k σ = .ok a σ' ∧ ρ'.Remarks σ') ∧
      ∀ σ', k σ = .ok a σ' → ∃ ρ', m ρ = .ok a ρ' ∧ ρ'.Remarks σ' := by
  obtain ⟨before, after, hbefore, hafter, rfl⟩ := h
  refine ⟨before σ, hbefore σ, fun a => ⟨fun ρ' hm => ?_, fun σ' hk => ?_⟩⟩
  · exact ⟨after a ρ', bind_eq_ok.2 ⟨(), _, rfl, bind_eq_ok.2 ⟨a, ρ', hm, rfl⟩⟩, hafter a ρ'⟩
  · obtain ⟨_, _, hset, hk⟩ := bind_eq_ok.1 hk
    cases hset
    obtain ⟨_, ρ', hm, hrest⟩ := bind_eq_ok.1 hk
    cases hrest
    exact ⟨ρ', hm, hafter a ρ'⟩

/-- Annotations on either side do not matter. -/
theorem Follows.annotate (h : Follows B Q m m') (hk : Annotates m k) (hk' : Annotates m' k') :
    Follows B Q k k' := by
  intro σ τ hστ a σ' hok
  obtain ⟨ρ, hρ, hleft⟩ := hk.exists_ok_iff σ
  obtain ⟨ρ', hρ', hright⟩ := hk'.exists_ok_iff τ
  obtain ⟨σ₁, hm, hσ₁⟩ := (hleft a).2 σ' hok
  obtain ⟨b, τ₁, hm', hab, hres⟩ := h ρ ρ' (hστ.remark hρ hρ') a σ₁ hm
  obtain ⟨τ', hok', hτ₁⟩ := (hright b).1 τ₁ hm'
  exact ⟨b, τ', hok', hab, hres.remark hσ₁ hτ₁⟩

end Walk

namespace Evaluators

variable (below : Evaluators) {ctx : Context} {n : NodeId} {s : State} {st : Stmt}

theorem kind_deadFindings (ctx : Context) (st : Stmt) :
    ∀ f ∈ ctx.deadFindings st, f.kind = .unreachableCode := by
  unfold Context.deadFindings
  split <;> simp

theorem annotates_report_dead (n : NodeId) (st : Stmt) (s : State) :
    Walk.Annotates (pure s) (do Walk.report n (ctx.deadFindings st); pure s) :=
  ⟨_, fun _ => id, fun _ => .foldl_find (kind_deadFindings ctx st), fun _ σ => .refl σ, rfl⟩

theorem annotates_stmtAt_dead (hst : ctx.tree.stmt n = .ok st) (hs : s.unreachable = true) :
    Walk.Annotates (pure s) (below.stmtAt ctx n s) := by
  have heq : below.stmtAt ctx n s = (do Walk.report n (ctx.deadFindings st); pure s) := by
    unfold stmtAt
    rw [hst, hs]
    rfl
  rw [heq]
  exact annotates_report_dead n st s

theorem annotates_stmtAt (hst : ctx.tree.stmt n = .ok st) (hs : s.unreachable = false) :
    Walk.Annotates (below.stmtOf ctx n s st) (below.stmtAt ctx n s) := by
  refine ⟨Session.trace (.entered n s), fun out => Session.trace (.left n out), ?_, ?_, ?_⟩
  · exact fun σ => .trace _ σ
  · exact fun out σ => .trace _ σ
  · unfold stmtAt
    rw [hst, hs]
    rfl

end Evaluators

end ValueFlow

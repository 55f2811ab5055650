import ValueFlow.Proofs.Report
import ValueFlow.Proofs.Termination

namespace ValueFlow

namespace Settings

variable {settings settings' : Settings} {f : Finding}

def shows (settings : Settings) (f : Finding) : Bool :=
  match f.kind with
  | .unreachableCode => settings.reportUnreachable
  | .nullDereference => f.definite || settings.reportNullable
  | _ => true

/-- The same settings, but everything is reported. -/
def outspoken (settings : Settings) : Settings :=
  { settings with reportUnreachable := true, reportNullable := true }

/-- Whatever the first settings ask to be reported, the second ask for as well. -/
structure AsksNoMore (settings settings' : Settings) : Prop where
  unreachable : settings.reportUnreachable = true → settings'.reportUnreachable = true
  nullable : settings.reportNullable = true → settings'.reportNullable = true

theorem shows_of_not_isOptional (h : f.isOptional = false) : settings.shows f = true := by
  unfold shows
  unfold Finding.isOptional at h
  split <;> simp_all

theorem AsksNoMore.shows (h : settings.AsksNoMore settings') (hf : settings.shows f = true) :
    settings'.shows f = true := by
  unfold Settings.shows at hf ⊢
  split
  · rename_i hkind
    rw [hkind] at hf
    exact h.unreachable hf
  · rename_i hkind
    rw [hkind] at hf
    simp only [Bool.or_eq_true] at hf ⊢
    exact hf.imp_right h.nullable
  · rfl

end Settings

namespace Context

variable (ctx : Context)

def outspoken : Context := { ctx with settings := ctx.settings.outspoken }

/-- Of what there is to find in a conversion, as in a dereference or in dead code, the settings
leave what they show. -/
theorem unboxingFindings_eq (o : Outcome) :
    ctx.unboxingFindings o = (ctx.outspoken.unboxingFindings o).filter ctx.settings.shows := by
  unfold unboxingFindings
  cases o.fault with
  | none => rfl
  | some f =>
    cases hf : f.definite <;> cases hn : ctx.settings.reportNullable <;>
      simp [hf, hn, outspoken, Settings.outspoken, Settings.shows, Fault.unboxing]

theorem derefFindings_eq (target : NodeId) (v : Value) : ctx.derefFindings target v =
    (ctx.outspoken.derefFindings target v).filter ctx.settings.shows := by
  unfold derefFindings
  split
  · rfl
  · cases hv : v.isReference && v.mayBeNull <;> cases hn : ctx.settings.reportNullable <;>
      simp [hn, outspoken, Settings.outspoken, Settings.shows]

theorem deadFindings_eq (stmt : Stmt) :
    ctx.deadFindings stmt = (ctx.outspoken.deadFindings stmt).filter ctx.settings.shows := by
  unfold deadFindings
  cases hs : stmt.isTrivial <;> cases hn : ctx.settings.reportUnreachable <;>
    simp [hn, outspoken, Settings.outspoken, Settings.shows]

end Context

/-- Two sessions that differ in their notes and reports only; the first report is the part of the
second whose findings are kept. -/
structure Session.Selects (keep : Finding → Bool) (ks : List FrameKind) (σ τ : Session) :
    Prop where
  frames : Lockstep (fun _ => True) [] ks σ.frames τ.frames
  returns : σ.returns = τ.returns
  muted : σ.muted = τ.muted
  events : σ.events = τ.events
  ascending : Report.Ascending τ.report.entries
  report : σ.report.entries = τ.report.entries.filter (keep ·.2)

namespace Session.Selects

variable {keep : Finding → Bool} {ks : List FrameKind} {σ τ : Session} {n : NodeId} {f : Finding}

theorem find (h : σ.Selects keep ks τ) :
    (if keep f then σ.find n f else σ).Selects keep ks (τ.find n f) := by
  have hreport : (if keep f then σ.find n f else σ).report.entries =
      (τ.find n f).report.entries.filter (keep ·.2) := by
    rw [find_entries]
    cases hf : keep f with
    | false =>
      show σ.report.entries = _
      split
      · rw [Report.filter_place _ h.ascending, if_neg (by simp [hf]), h.report]
      · exact h.report
    | true =>
      show (σ.find n f).report.entries = _
      rw [find_entries, h.muted, h.report]
      split
      · rw [Report.filter_place _ h.ascending, if_pos hf]
      · rfl
  have hascending : Report.Ascending (τ.find n f).report.entries := by
    rw [find_entries]
    split
    · exact Report.ascending_place h.ascending
    · exact h.ascending
  constructor
  · split <;> simp [h.frames]
  · split <;> simp [find_returns, h.returns]
  · split <;> simp [find_returns, h.muted]
  · split <;> simp [h.events]
  · exact hascending
  · exact hreport

theorem foldl_find (h : σ.Selects keep ks τ) (fs : List Finding) :
    ((fs.filter keep).foldl (Session.find n) σ).Selects keep ks (fs.foldl (Session.find n) τ) := by
  induction fs generalizing σ τ with
  | nil => exact h
  | cons f fs ih =>
    have hf := h.find (n := n) (f := f)
    cases hkeep : keep f with
    | false =>
      rw [hkeep] at hf
      rw [List.filter_cons_of_neg (by simp [hkeep])]
      exact ih hf
    | true =>
      rw [hkeep] at hf
      rw [List.filter_cons_of_pos hkeep]
      exact ih hf

theorem trace (h : σ.Selects keep ks τ) (e : Entry) : (σ.trace e).Selects keep ks (τ.trace e) := by
  constructor
  · simp [h.frames]
  · simp [trace_returns, h.returns]
  · simp [trace_returns, h.muted]
  · rw [trace_events, trace_events, h.muted, h.events]
  · rw [trace_report]
    exact h.ascending
  · rw [trace_report, trace_report]
    exact h.report

theorem leaveFrame {kind : FrameKind} (h : σ.Selects keep (kind :: ks) τ) :
    σ.leaveFrame.Selects keep ks τ.leaveFrame := by
  obtain ⟨f, rest, rest', hf, hg, -, -, -, hrest⟩ := h.frames.cons_inv
  refine ⟨?_, h.returns, h.muted, h.events, h.ascending, h.report⟩
  simp only [Session.leaveFrame, hf, hg]
  exact hrest

theorem of_fresh (hframes : σ.frames = []) (hreport : σ.report = .empty) :
    σ.Selects keep [] σ := by
  refine ⟨?_, rfl, rfl, rfl, ?_, ?_⟩
  · rw [hframes]
    exact ⟨rfl, rfl⟩
  · rw [hreport]
    exact List.Pairwise.nil
  · rw [hreport]
    rfl

end Session.Selects

namespace Context

variable (ctx : Context)

/-- The analysis beside the one that reports everything. -/
def observation : Simulation where
  tree := ctx.tree
  leftSettings := ctx.settings
  rightSettings := ctx.settings.outspoken
  returnType := ctx.returnType
  returnContracts := ctx.returnContracts
  value _ := True
  state _ := True
  decl _ := True
  halt _ := True
  session ks _ := Session.Selects ctx.settings.shows ks

theorem keeps_observation {f g : Session → Session} (h : ∀ ks σ τ,
    σ.Selects ctx.settings.shows ks τ → (f σ).Selects ctx.settings.shows ks (g τ)) :
    ctx.observation.Keeps f g :=
  fun ks _ => h ks

theorem sessionLaws_observation : ctx.observation.SessionLaws where
  find n f hf := ctx.keeps_observation fun ks σ τ h => by
    have hfind := h.find (n := n) (f := f)
    rwa [if_pos (Settings.shows_of_not_isOptional hf)] at hfind
  unboxing n o := ctx.keeps_observation fun ks σ τ h => by
    show Session.Selects _ ks ((ctx.unboxingFindings o).foldl _ σ) _
    rw [ctx.unboxingFindings_eq]
    exact h.foldl_find _
  deref n target v := ctx.keeps_observation fun ks σ τ h => by
    show Session.Selects _ ks ((ctx.derefFindings target v).foldl _ σ) _
    rw [ctx.derefFindings_eq]
    exact h.foldl_find _
  dead n stmt := ctx.keeps_observation fun ks σ τ h => by
    show Session.Selects _ ks ((ctx.deadFindings stmt).foldl _ σ) _
    rw [ctx.deadFindings_eq]
    exact h.foldl_find _
  entered _ _ _ := ctx.keeps_observation fun _ _ _ h => h.trace _
  left _ _ _ := ctx.keeps_observation fun _ _ _ h => h.trace _
  returning {s} _ := ctx.keeps_observation fun _ _ _ h =>
    ⟨h.frames, congrArg (·.merge s) h.returns, h.muted, h.events, h.ascending, h.report⟩
  enter kind _ _ _ _ h :=
    ⟨⟨rfl, rfl, trivial, trivial, h.frames⟩, h.returns, h.muted, h.events, h.ascending, h.report⟩
  leave h := h.leaveFrame
  gathered h := by
    obtain ⟨f, rest, rest', hf, hg, -, -, -, -⟩ := h.frames.cons_inv
    exact ⟨f, rest, rest', hf, hg, trivial, trivial⟩

theorem loopLaws_observation : ctx.observation.LoopLaws where
  threshold := rfl
  patience := rfl
  advance _ _ _ _ _ := trivial
  giveUp _ _ _ := trivial
  gaveUp _ _ _ := ctx.keeps_observation fun _ _ _ h =>
    ⟨h.frames, h.returns, h.muted, h.events, h.ascending, h.report⟩
  stabilized _ _ := ctx.keeps_observation fun _ _ _ h =>
    ⟨h.frames, h.returns, h.muted, h.events, h.ascending, h.report⟩
  mute h := ⟨h.frames, h.returns, congrArg (· + 1) h.muted, h.events, h.ascending, h.report⟩
  unmute h := ⟨h.frames, h.returns, congrArg (· - 1) h.muted, h.events, h.ascending, h.report⟩
  exhausted := trivial

theorem routed_observation {ks : List FrameKind} {n : NodeId}
    {route : List Frame → Option (List Frame)}
    (h : Frame.Routes (Lockstep (fun _ => True) [] ks) route) :
    ctx.observation.Routed ks n route :=
  Simulation.routed_of_frames (·.frames)
    (fun h hlock => ⟨hlock, h.returns, h.muted, h.events, h.ascending, h.report⟩)
    (fun _ _ _ _ => trivial) h

theorem placeLaws_observation : ctx.observation.PlaceLaws everywhere :=
  Simulation.placeLaws_of_total (fun _ => trivial) (fun _ => trivial) (fun _ _ => trivial)
    (fun _ _ _ _ => trivial)
    (fun _ _ _ => ctx.routed_observation (Lockstep.routes_addBreak (fun _ _ => trivial) trivial))
    fun _ _ _ => ctx.routed_observation (Lockstep.routes_addContinue (fun _ _ => trivial) trivial)

theorem laws_observation : ctx.observation.Laws everywhere everywhere where
  value := Simulation.valueLaws_trivial
  state := Simulation.stateLaws_trivial
  session := ctx.sessionLaws_observation
  loop := ctx.loopLaws_observation.loop
  here := ctx.placeLaws_observation
  below := ctx.placeLaws_observation
  down := everywhere_over ctx.tree

end Context

def Alike (R : Analysis → Analysis → Prop) :
    Except Halt Analysis → Except Halt Analysis → Prop
  | .error e, .error e' => e = e'
  | .ok r, .ok r' => R r r'
  | _, _ => False

namespace Analysis

/-- The first answer is the second with the findings that are kept. -/
structure Selects (keep : Finding → Bool) (r full : Analysis) : Prop where
  final : r.final = full.final
  exit : r.exit = full.exit
  events : r.journal.events = full.journal.events
  report : r.report.entries = full.report.entries.filter (keep ·.2)

/-- The answers under two settings are the same up to optional findings. The first report has none
that its settings silence, and nothing that is missing in the second if that is asked for more. -/
structure ReportsAsAsked (settings settings' : Settings) (r r' : Analysis) : Prop where
  final : r.final = r'.final
  exit : r.exit = r'.exit
  events : r.journal.events = r'.journal.events
  others : r.report.entries.filter (!·.2.isOptional) = r'.report.entries.filter (!·.2.isOptional)
  unreachable : settings.reportUnreachable = false →
    ∀ x ∈ r.report.entries, x.2.kind ≠ .unreachableCode
  nullable : settings.reportNullable = false →
    ∀ x ∈ r.report.entries, x.2.kind = .nullDereference → x.2.definite = true
  added : settings.AsksNoMore settings' → r.report.entries.Sublist r'.report.entries

variable {settings settings' : Settings} {r r' full : Analysis}

/-- No settings silence the other findings. -/
theorem Selects.others (h : r.Selects settings.shows full) :
    r.report.entries.filter (!·.2.isOptional) =
      full.report.entries.filter (!·.2.isOptional) := by
  rw [h.report, List.filter_filter]
  apply List.filter_congr
  intro x _
  cases hx : x.2.isOptional with
  | false => rw [Settings.shows_of_not_isOptional hx, Bool.and_true]
  | true => rfl

theorem Selects.added (h : r.Selects settings.shows full) (h' : r'.Selects settings'.shows full)
    (hless : settings.AsksNoMore settings') : r.report.entries.Sublist r'.report.entries := by
  have htwice : r.report.entries = r'.report.entries.filter (settings.shows ·.2) := by
    rw [h.report, h'.report, List.filter_filter]
    apply List.filter_congr
    intro x _
    cases hx : settings.shows x.2 with
    | false => rfl
    | true => rw [hless.shows hx, Bool.and_true]
  rw [htwice]
  exact List.filter_sublist

theorem Selects.shows (h : r.Selects settings.shows full) {x : Located}
    (hx : x ∈ r.report.entries) : settings.shows x.2 = true := by
  rw [h.report] at hx
  exact (List.mem_filter.1 hx).2

/-- Answers are compared through one that reports everything. -/
theorem Selects.reportsAsAsked (h : r.Selects settings.shows full)
    (h' : r'.Selects settings'.shows full) : r.ReportsAsAsked settings settings' r' where
  final := h.final.trans h'.final.symm
  exit := h.exit.trans h'.exit.symm
  events := h.events.trans h'.events.symm
  others := h.others.trans h'.others.symm
  unreachable hoff x hx hkind := by
    have hshown := h.shows hx
    unfold Settings.shows at hshown
    rw [hkind, hoff] at hshown
    cases hshown
  nullable hoff x hx hkind := by
    have hshown := h.shows hx
    unfold Settings.shows at hshown
    rwa [hkind, hoff, Bool.or_false] at hshown
  added := h.added h'

end Analysis

theorem Alike.reportsAsAsked {settings settings' : Settings} {a b full : Except Halt Analysis}
    (h : Alike (Analysis.Selects settings.shows) a full)
    (h' : Alike (Analysis.Selects settings'.shows) b full) :
    Alike (Analysis.ReportsAsAsked settings settings') a b := by
  -- all three fail alike, or all three answer
  cases full with
  | error e =>
    cases a with
    | ok r => exact h.elim
    | error e₁ =>
      cases b with
      | ok r' => exact h'.elim
      | error e₂ => exact Eq.trans h (Eq.symm h')
  | ok full =>
    cases a with
    | error e₁ => exact h.elim
    | ok r =>
      cases b with
      | error e₂ => exact h'.elim
      | ok r' => exact Analysis.Selects.reportsAsAsked h h'

namespace Context

variable (ctx : Context) (body : NodeId) (initial : State) {σ : Session}

-- For any depth: at the depth of a run, comparing the two walks would go down all their levels.
theorem agree_outspoken (depth : Nat) (hσ : σ.Selects ctx.settings.shows [] σ) :
    ctx.observation.Agree [] 0 (fun _ => True) ((ctx.evaluators depth).stmt body initial σ)
      ((ctx.outspoken.evaluators depth).stmt body initial σ) :=
  (Simulation.related_evaluators ctx.laws_observation trivial depth).stmt trivial trivial 0 σ σ hσ

/-- A run reports what its settings show of what there is to report, and is otherwise the same. -/
theorem run_selects (hframes : σ.frames = []) (hreport : σ.report = .empty) :
    Alike (Analysis.Selects ctx.settings.shows) (ctx.run body initial σ)
      (ctx.outspoken.run body initial σ) := by
  have hagree := ctx.agree_outspoken body initial ctx.depthBound (.of_fresh hframes hreport)
  have hdepth : ctx.outspoken.depthBound = ctx.depthBound := rfl
  rw [run_def]
  dsimp only
  rw [hdepth]
  generalize (ctx.evaluators ctx.depthBound).stmt body initial σ = walked at hagree ⊢
  generalize (ctx.outspoken.evaluators ctx.depthBound).stmt body initial σ = full at hagree ⊢
  cases walked with
  | error e σ' =>
    cases full with
    | error e' τ' => exact hagree.1
    | ok final τ' => exact hagree.elim
  | ok final σ' =>
    cases full with
    | error e' τ' => exact hagree.elim
    | ok final' τ' =>
      obtain ⟨rfl, -, h⟩ := hagree
      refine ⟨rfl, congrArg (·.merge final) h.returns, ?_, h.report⟩
      rw [Session.events_journal, Session.events_journal, h.events]

theorem run_alike {ctx ctx' : Context} (h : ctx.outspoken = ctx'.outspoken)
    (hframes : σ.frames = []) (hreport : σ.report = .empty) :
    Alike (Analysis.ReportsAsAsked ctx.settings ctx'.settings) (ctx.run body initial σ)
      (ctx'.run body initial σ) := by
  have hselects := ctx.run_selects body initial hframes hreport
  rw [h] at hselects
  exact hselects.reportsAsAsked (ctx'.run_selects body initial hframes hreport)

end Context

/-- Settings that differ in what they report only give analyses that fail alike, or answer and trace
the same states and report the same findings apart from the optional ones. Of these none is reported
that the settings silence, and asking for more only adds to the report. -/
theorem settings_silence_optional_findings_only (t : Tree) (settings settings' : Settings)
    (hthreshold : settings.wideningThreshold = settings'.wideningThreshold)
    (hpatience : settings.maxIterations = settings'.maxIterations) :
    (∀ (body : NodeId) (initial : State), Alike (Analysis.ReportsAsAsked settings settings')
      (t.analyze settings body initial) (t.analyze settings' body initial)) ∧
    ∀ m : MethodId, Alike (Analysis.ReportsAsAsked settings settings')
      (t.analyzeMethod settings m) (t.analyzeMethod settings' m) := by
  have hsettings : settings.outspoken = settings'.outspoken := by
    simp only [Settings.outspoken, hthreshold, hpatience]
  have hctx : ∀ (returnType : Option Ty) (returnContracts : List Contract),
      Context.outspoken ⟨t, settings, returnType, returnContracts⟩ =
        Context.outspoken ⟨t, settings', returnType, returnContracts⟩ := by
    intro returnType returnContracts
    simp only [Context.outspoken, hsettings]
  constructor
  · intro body initial
    exact Context.run_alike body initial (hctx none []) rfl rfl
  · intro m
    rcases t.analyzeMethod_eq m with ⟨e, he⟩ | ⟨method, body, initial, -, hrun⟩
    · rw [he, he]
      exact rfl
    · rw [hrun, hrun]
      exact Context.run_alike body initial (hctx _ _) rfl rfl

def uncheckedLength : Tree where
  nodes := #[.expr (.name ⟨0⟩), .expr (.length ⟨0⟩), .stmt (.ret (some ⟨1⟩)), .stmt (.expr ⟨0⟩),
    .stmt (.block [⟨2⟩, ⟨3⟩])]
  decls := #[⟨"s", .string, [], .param⟩]

def uncheckedLength.start : State := State.initial.set ⟨0⟩ (.str lengths true)

def Settings.quiet : Settings := { reportUnreachable := false, reportNullable := false }

/-- That `s` may be null and that the second statement is dead is left out of the quiet report. -/
theorem uncheckedLength_reports_as_asked : ∃ r r',
    uncheckedLength.analyze .quiet ⟨4⟩ uncheckedLength.start = .ok r ∧
    uncheckedLength.analyze Settings.quiet.outspoken ⟨4⟩ uncheckedLength.start = .ok r' ∧
    r.report.size = 0 ∧ r'.report.size = 2 ∧
    r.ReportsAsAsked .quiet Settings.quiet.outspoken r' := by
  have halike := (settings_silence_optional_findings_only uncheckedLength .quiet
    Settings.quiet.outspoken rfl rfl).1 ⟨4⟩ uncheckedLength.start
  have hsize : (uncheckedLength.analyze .quiet ⟨4⟩ uncheckedLength.start).map
      (·.report.size) = .ok 0 := by decide +kernel
  have hsize' : (uncheckedLength.analyze Settings.quiet.outspoken ⟨4⟩ uncheckedLength.start).map
      (·.report.size) = .ok 2 := by decide +kernel
  cases hr : uncheckedLength.analyze .quiet ⟨4⟩ uncheckedLength.start with
  | error e =>
    rw [hr] at hsize
    cases hsize
  | ok r =>
    cases hr' : uncheckedLength.analyze Settings.quiet.outspoken ⟨4⟩ uncheckedLength.start with
    | error e =>
      rw [hr'] at hsize'
      cases hsize'
    | ok r' =>
      rw [hr] at hsize halike
      rw [hr'] at hsize' halike
      exact ⟨r, r', rfl, rfl, Except.ok.inj hsize, Except.ok.inj hsize', halike⟩

end ValueFlow

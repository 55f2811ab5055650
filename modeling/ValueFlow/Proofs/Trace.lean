import ValueFlow.Proofs.Muting
import ValueFlow.Proofs.Report
import ValueFlow.Proofs.Shape

namespace ValueFlow

/-- Whatever is entered is left again, after all that was entered in between. -/
inductive Nested : List Event → Prop
  | nil : Nested []
  | pair {n : NodeId} {s s' : State} {inner rest : List Event} : Nested inner → Nested rest →
      Nested (⟨.enter, n, s⟩ :: inner ++ ⟨.leave, n, s'⟩ :: rest)

theorem Nested.append {es es' : List Event} (h : Nested es) (h' : Nested es') :
    Nested (es ++ es') := by
  induction h with
  | nil => exact h'
  | pair hinner _ _ ih =>
    rw [List.append_assoc]
    exact .pair hinner ih

/-- The nodes at and below any of `ns`. -/
def Tree.regions (t : Tree) (ns : List NodeId) : Set NodeId := {c | ∃ n ∈ ns, t.Below n c}

/-- No two of the statements have anything below them in common, with each other or with the nodes
of `own`. -/
structure Tree.Separate (t : Tree) (own : Set NodeId) (stmts : List NodeId) : Prop where
  own : ∀ c ∈ own, c ∉ t.regions stmts
  stmts : stmts.Pairwise t.Apart

structure Output where
  events : List Event := []
  findings : Set Located := ∅

namespace Output

def append (o o' : Output) : Output := ⟨o.events ++ o'.events, o.findings ∪ o'.findings⟩

def enclose (n : NodeId) (before after : State) (o : Output) : Output :=
  ⟨⟨.enter, n, before⟩ :: o.events ++ [⟨.leave, n, after⟩], o.findings⟩

/-- The output is about `own`, and about `stmts` and what stands below them. -/
structure Tidy (t : Tree) (own : Set NodeId) (stmts : List NodeId) (o : Output) : Prop where
  nested : Nested o.events
  once : (o.events.map fun e => (e.phase, e.node)).Nodup
  live : ∀ e ∈ o.events, e.phase = .enter → e.state.unreachable = false
  traced : ∀ e ∈ o.events, e.node ∈ t.regions stmts
  placed : ∀ x ∈ o.findings, x.1 ∈ own ∪ t.regions stmts
  cut : ∀ x ∈ o.findings, x.2.kind = .unreachableCode → ∀ c, t.Below x.1 c →
    c ∈ t.regions stmts ∧ (∀ e ∈ o.events, e.node ≠ c) ∧ ∀ y ∈ o.findings, y.1 = c → c = x.1

end Output

namespace Tree

variable {t : Tree} {n c : NodeId} {ns ms : List NodeId} {own : Set NodeId}

theorem regions_mono (h : ns ⊆ ms) : t.regions ns ⊆ t.regions ms :=
  fun _ ⟨n, hn, hc⟩ => ⟨n, h hn, hc⟩

theorem mem_regions_self (h : n ∈ ns) : n ∈ t.regions ns := ⟨n, h, .root⟩

theorem regions_closed (hn : n ∈ t.regions ns) (hc : t.Below n c) : c ∈ t.regions ns := by
  obtain ⟨m, hm, hmn⟩ := hn
  exact ⟨m, hm, hmn.trans hc⟩

theorem separate_nil (own : Set NodeId) : t.Separate own [] := by
  refine ⟨?_, .nil⟩
  rintro c - ⟨n, hn, -⟩
  cases hn

theorem Separate.left (h : t.Separate own (ns ++ ms)) : t.Separate own ns :=
  ⟨fun c hc hin => h.own c hc (regions_mono (List.subset_append_left _ _) hin),
    (List.pairwise_append.1 h.stmts).1⟩

theorem Separate.right (h : t.Separate own (ns ++ ms)) : t.Separate own ms :=
  ⟨fun c hc hin => h.own c hc (regions_mono (List.subset_append_right _ _) hin),
    (List.pairwise_append.1 h.stmts).2.1⟩

theorem Separate.apart (h : t.Separate own (ns ++ ms)) (hl : c ∈ t.regions ns) :
    c ∉ t.regions ms := by
  obtain ⟨n, hn, hnc⟩ := hl
  rintro ⟨m, hm, hmc⟩
  exact (List.pairwise_append.1 h.stmts).2.2 n hn m hm c hnc hmc

end Tree

namespace Output

variable {t : Tree} {own own' : Set NodeId} {ns ms : List NodeId} {o o' : Output}

theorem Tidy.mono (h : o.Tidy t own ns) (hown : own ⊆ own') (hns : ns ⊆ ms) :
    o.Tidy t own' ms := by
  have hregions := Tree.regions_mono (t := t) hns
  refine ⟨h.nested, h.once, h.live, fun e he => hregions (h.traced e he), ?_, ?_⟩
  · exact fun x hx => Set.union_subset_union hown hregions (h.placed x hx)
  · intro x hx hdead c hc
    obtain ⟨hin, hevents, hfindings⟩ := h.cut x hx hdead c hc
    exact ⟨hregions hin, hevents, hfindings⟩

/-- What one step cuts off the other step says nothing about. -/
theorem Tidy.cut_apart (h : o.Tidy t own ns) (h' : o'.Tidy t own ms)
    (hown : ∀ c ∈ own, c ∉ t.regions ns) (hapart : ∀ c ∈ t.regions ns, c ∉ t.regions ms)
    {x : Located} (hx : x ∈ o.findings) (hdead : x.2.kind = .unreachableCode) {c : NodeId}
    (hc : t.Below x.1 c) :
    (∀ e ∈ o'.events, e.node ≠ c) ∧ ∀ y ∈ o'.findings, y.1 ≠ c := by
  have hin := (h.cut x hx hdead c hc).1
  constructor
  · rintro e he rfl
    exact hapart _ hin (h'.traced e he)
  · rintro y hy rfl
    rcases h'.placed y hy with hy | hy
    · exact hown _ hy hin
    · exact hapart _ hin hy

theorem Tidy.append (hsep : t.Separate own (ns ++ ms)) (h : o.Tidy t own ns)
    (h' : o'.Tidy t own ms) : (o.append o').Tidy t own (ns ++ ms) := by
  have hapart : ∀ c ∈ t.regions ns, c ∉ t.regions ms := fun _ => hsep.apart
  have hl := h.mono (fun _ => id) (List.subset_append_left ns ms)
  have hr := h'.mono (fun _ => id) (List.subset_append_right ns ms)
  constructor
  · exact h.nested.append h'.nested
  · show ((o.events ++ o'.events).map _).Nodup
    rw [List.map_append]
    refine List.nodup_append.2 ⟨h.once, h'.once, ?_⟩
    rintro _ hk _ hk' rfl
    -- an event of both steps would be at a node of both parts
    obtain ⟨e, he, hek⟩ := List.mem_map.1 hk
    obtain ⟨e', he', hek'⟩ := List.mem_map.1 hk'
    have hnode : e'.node = e.node := congrArg Prod.snd (hek'.trans hek.symm)
    exact hapart _ (h.traced e he) (hnode ▸ h'.traced e' he')
  · exact fun e he => (List.mem_append.1 he).elim (h.live e) (h'.live e)
  · exact fun e he => (List.mem_append.1 he).elim (hl.traced e) (hr.traced e)
  · exact fun x hx => hx.elim (hl.placed x) (hr.placed x)
  · intro x hx hdead c hc
    rcases hx with hx | hx
    · obtain ⟨hin, hevents, hfindings⟩ := hl.cut x hx hdead c hc
      have hother := h.cut_apart h' hsep.left.own hapart hx hdead hc
      refine ⟨hin, fun e he => (List.mem_append.1 he).elim (hevents e) (hother.1 e), ?_⟩
      exact fun y hy hyc => hy.elim (hfindings y · hyc) fun hy => absurd hyc (hother.2 y hy)
    · obtain ⟨hin, hevents, hfindings⟩ := hr.cut x hx hdead c hc
      have hother := h'.cut_apart h hsep.right.own (fun c hm hn => hapart c hn hm) hx hdead hc
      refine ⟨hin, fun e he => (List.mem_append.1 he).elim (hother.1 e) (hevents e), ?_⟩
      exact fun y hy hyc => hy.elim (fun hy => absurd hyc (hother.2 y hy)) (hfindings y · hyc)

/-- What stands below a statement is put between entering and leaving it. -/
theorem Tidy.enclose {n : NodeId} {before after : State} (h : o.Tidy t own ns)
    (hown : own ⊆ t.regions [n]) (hns : t.regions ns ⊆ t.regions [n]) (hn : n ∉ t.regions ns)
    (hlive : before.unreachable = false) : (o.enclose n before after).Tidy t ∅ [n] := by
  have hself : n ∈ t.regions [n] := Tree.mem_regions_self (List.mem_singleton.2 rfl)
  have hne : ∀ e ∈ o.events, e.node ≠ n := fun e he heq => hn (heq ▸ h.traced e he)
  -- an event is one of the two at `n`, or comes from below it
  have hevent : ∀ {e : Event}, e ∈ (o.enclose n before after).events →
      e = ⟨.enter, n, before⟩ ∨ e ∈ o.events ∨ e = ⟨.leave, n, after⟩ := by
    intro e he
    simpa [Output.enclose] using he
  constructor
  · exact .pair h.nested .nil
  · have hfresh : ∀ phase, (phase, n) ∉ o.events.map fun e => (e.phase, e.node) := by
      intro phase hmem
      obtain ⟨e, he, heq⟩ := List.mem_map.1 hmem
      exact hne e he (congrArg Prod.snd heq)
    simp only [Output.enclose, List.cons_append, List.map_cons, List.map_append, List.map_nil,
      List.nodup_cons, List.mem_append, List.mem_singleton, List.nodup_append]
    refine ⟨?_, h.once, by simp, ?_⟩
    · rintro (hmem | heq)
      · exact hfresh _ hmem
      · cases heq
    · rintro k hk _ rfl rfl
      exact hfresh _ hk
  · intro e he hphase
    rcases hevent he with rfl | he | rfl
    · exact hlive
    · exact h.live e he hphase
    · cases hphase
  · intro e he
    rcases hevent he with rfl | he | rfl
    · exact hself
    · exact hns (h.traced e he)
    · exact hself
  · exact fun x hx => .inr ((h.placed x hx).elim (@hown x.1) (@hns x.1))
  · intro x hx hdead c hc
    obtain ⟨hin, hevents, hfindings⟩ := h.cut x hx hdead c hc
    have hcn : n ≠ c := fun heq => hn (heq ▸ hin)
    refine ⟨hns hin, fun e he => ?_, hfindings⟩
    rcases hevent he with rfl | he | rfl
    · exact hcn
    · exact hevents e he
    · exact hcn

theorem tidy_findings {F : Set Located} (hplaced : ∀ x ∈ F, x.1 ∈ own ∪ t.regions ns)
    (hcut : ∀ x ∈ F, x.2.kind = .unreachableCode → ∀ c, t.Below x.1 c →
      c ∈ t.regions ns ∧ ∀ y ∈ F, y.1 = c → c = x.1) :
    Output.Tidy t own ns { findings := F } where
  nested := .nil
  once := List.nodup_nil
  live _ he := by cases he
  traced _ he := by cases he
  placed := hplaced
  cut x hx hdead c hc := by
    obtain ⟨hin, hfindings⟩ := hcut x hx hdead c hc
    refine ⟨hin, ?_, hfindings⟩
    exact fun e he => by cases he

theorem tidy_nothing (t : Tree) (own : Set NodeId) (ns : List NodeId) :
    Output.Tidy t own ns {} :=
  tidy_findings (fun _ hx => hx.elim) fun _ hx => hx.elim

end Output

/-- The second session is the first with the output added. -/
structure Session.Adds (o : Output) (σ τ : Session) : Prop where
  muted : τ.muted = σ.muted
  events : τ.events = o.events.reverse ++ σ.events
  report : ∀ x ∈ τ.report.entries, x ∈ σ.report.entries ∨ x ∈ o.findings

namespace Session

variable {o o' : Output} {σ τ ρ : Session}

theorem Adds.append (h : Adds o σ τ) (h' : Adds o' τ ρ) : Adds (o.append o') σ ρ := by
  refine ⟨h'.muted.trans h.muted, ?_, fun x hx => ?_⟩
  · rw [h'.events, h.events, Output.append, List.reverse_append, List.append_assoc]
  · rcases h'.report x hx with hx | hx
    · exact (h.report x hx).imp_right .inl
    · exact .inr (.inr hx)

theorem Adds.enclose {n : NodeId} {before after : State} (hσ : σ.muted = 0)
    (h : Adds o (σ.trace (.entered n before)) τ) :
    Adds (o.enclose n before after) σ (τ.trace (.left n after)) := by
  have hτ : τ.muted = 0 := h.muted.trans ((trace_returns _ σ).2.trans hσ)
  refine ⟨?_, ?_, fun x hx => ?_⟩
  · rw [(trace_returns _ τ).2, hτ, hσ]
  · rw [trace_events, if_pos hτ, h.events, trace_events, if_pos hσ]
    simp [Output.enclose, Entry.event?]
  · rw [trace_report] at hx
    rw [← trace_report (.entered n before) σ]
    exact h.report x hx

theorem Adds.of_same (hmuted : τ.muted = σ.muted) (hevents : τ.events = σ.events)
    (hreport : τ.report = σ.report) : Adds {} σ τ :=
  ⟨hmuted, hevents, fun _ hx => .inl (hreport ▸ hx)⟩

theorem mem_foldl_find {n : NodeId} {fs : List Finding} {x : Located}
    (h : x ∈ (fs.foldl (Session.find n) σ).report.entries) :
    x ∈ σ.report.entries ∨ (x.1 = n ∧ x.2 ∈ fs) := by
  induction fs generalizing σ with
  | nil => exact .inl h
  | cons f fs ih =>
    rcases ih h with hx | ⟨hn, hf⟩
    · rw [find_entries] at hx
      split at hx
      · rcases Report.mem_place.1 hx with rfl | hx
        · exact .inr ⟨rfl, List.mem_cons_self⟩
        · exact .inl hx
      · exact .inl hx
    · exact .inr ⟨hn, List.mem_cons_of_mem _ hf⟩

theorem adds_foldl_find (n : NodeId) (fs : List Finding) (σ : Session) :
    Adds { findings := {x | x.1 = n ∧ x.2 ∈ fs} } σ (fs.foldl (Session.find n) σ) :=
  ⟨(foldl_find_returns n fs σ).2, foldl_find_events n fs σ, fun _ => mem_foldl_find⟩

end Session

/-- Where nothing is muted, a step that succeeds adds a tidy output. -/
def Walk.Orderly {α : Type} (t : Tree) (own : Set NodeId) (stmts : List NodeId) (m : Walk α) :
    Prop :=
  ∀ σ a τ, σ.muted = 0 → m σ = .ok a τ → ∃ o : Output, o.Tidy t own stmts ∧ Session.Adds o σ τ

namespace Walk

variable {α β : Type} {t : Tree} {own own' : Set NodeId} {ns ms : List NodeId} {m : Walk α}
  {f : α → Walk β}

theorem Orderly.mono (h : m.Orderly t own ns) (hown : own ⊆ own') (hns : ns ⊆ ms) :
    m.Orderly t own' ms := by
  intro σ a τ hσ hm
  obtain ⟨o, ho, hadds⟩ := h σ a τ hσ hm
  exact ⟨o, ho.mono hown hns, hadds⟩

/-- Two steps over separate parts. -/
theorem Orderly.bind (hsep : t.Separate own (ns ++ ms)) (h : m.Orderly t own ns)
    (hf : ∀ a, (f a).Orderly t own ms) : (m >>= f).Orderly t own (ns ++ ms) := by
  intro σ b τ hσ hmf
  obtain ⟨a, ρ, hm, hfa⟩ := Walk.bind_eq_ok.1 hmf
  obtain ⟨o, ho, hadds⟩ := h σ a ρ hσ hm
  obtain ⟨o', ho', hadds'⟩ := hf a ρ b τ (hadds.muted.trans hσ) hfa
  exact ⟨o.append o', ho.append hsep ho', hadds.append hadds'⟩

theorem Orderly.andThen (h : m.Orderly t own []) (hf : ∀ a, (f a).Orderly t own []) :
    (m >>= f).Orderly t own [] :=
  h.bind (Tree.separate_nil own) hf

/-- A step that traces nothing, after one that may. -/
theorem Orderly.bind_quiet (hsep : t.Separate own ns) (h : m.Orderly t own ns)
    (hf : ∀ a, (f a).Orderly t own []) : (m >>= f).Orderly t own ns := by
  rw [← List.append_nil ns] at hsep ⊢
  exact h.bind hsep hf

theorem Orderly.bind_pure (h : m.Orderly t own ns) (g : α → β) :
    (m >>= fun a => pure (g a)).Orderly t own ns := by
  intro σ b τ hσ hm
  obtain ⟨a, ρ, hm, hg⟩ := Walk.bind_eq_ok.1 hm
  cases hg
  exact h σ a τ hσ hm

theorem orderly_of_same (h : ∀ σ a τ, m σ = .ok a τ →
    τ.muted = σ.muted ∧ τ.events = σ.events ∧ τ.report = σ.report) : m.Orderly t own ns := by
  intro σ a τ _ hm
  obtain ⟨hmuted, hevents, hreport⟩ := h σ a τ hm
  exact ⟨{}, Output.tidy_nothing t own ns, .of_same hmuted hevents hreport⟩

theorem orderly_pure (a : α) : (pure a : Walk α).Orderly t own ns := by
  refine orderly_of_same ?_
  rintro σ b τ ⟨⟩
  exact ⟨rfl, rfl, rfl⟩

theorem orderly_throw (e : Halt) : (throw e : Walk α).Orderly t own ns := by
  rintro σ a τ - ⟨⟩

theorem orderly_require (x : Except TreeError α) : (require x).Orderly t own ns := by
  cases x with
  | ok a => exact orderly_pure a
  | error e => exact orderly_throw _

theorem orderly_required {x : Except TreeError α}
    (h : ∀ a, x = .ok a → (f a).Orderly t own ns) : (require x >>= f).Orderly t own ns := by
  intro σ b τ hσ hf
  cases x with
  | ok a => exact h a rfl σ b τ hσ hf
  | error e => cases hf

theorem orderly_visit {t' : Tree} {n : NodeId} {s : State} {dead : α} {live : Expr → Walk α}
    (h : ∀ e, t'.expr n = .ok e → (live e).Orderly t own ns) :
    (t'.visit n s dead live).Orderly t own ns := by
  unfold Tree.visit
  split
  · exact orderly_pure _
  · exact orderly_required h

theorem orderly_returning (s : State) : (returning s).Orderly t own ns := by
  refine orderly_of_same ?_
  rintro σ b τ ⟨⟩
  exact ⟨rfl, rfl, rfl⟩

theorem orderly_jump (n : NodeId) (route : List Frame → Option (List Frame)) :
    (jump n route).Orderly t own ns := by
  refine orderly_of_same fun σ a τ h => ?_
  unfold jump at h
  split at h
  · cases h
    exact ⟨rfl, rfl, rfl⟩
  · cases h

theorem orderly_report {n : NodeId} {fs : List Finding} (hn : n ∈ own)
    (hfs : ∀ f ∈ fs, f.kind ≠ .unreachableCode) : (report n fs).Orderly t own ns := by
  rintro σ a τ - ⟨⟩
  refine ⟨_, Output.tidy_findings ?_ ?_, Session.adds_foldl_find n fs σ⟩
  · rintro x ⟨rfl, -⟩
    exact .inl hn
  · rintro x ⟨-, hx⟩ hdead
    exact absurd hdead (hfs _ hx)

/-- Of a statement that is cut off nothing else is said. -/
theorem orderly_remark (n : NodeId) (fs : List Finding) : (report n fs).Orderly t own [n] := by
  rintro σ a τ - ⟨⟩
  refine ⟨_, Output.tidy_findings ?_ ?_, Session.adds_foldl_find n fs σ⟩
  · rintro x ⟨rfl, -⟩
    exact .inr (Tree.mem_regions_self (List.mem_singleton.2 rfl))
  · rintro x ⟨rfl, -⟩ - c hc
    refine ⟨⟨x.1, List.mem_singleton.2 rfl, hc⟩, ?_⟩
    rintro y ⟨hy, -⟩ rfl
    exact hy

theorem Orderly.framed {kind : FrameKind} (h : m.Orderly t own ns) :
    (framed kind m).Orderly t own ns := by
  intro σ a τ hσ hm
  unfold Walk.framed at hm
  split at hm
  · rename_i b ρ hb
    cases hm
    obtain ⟨o, ho, hadds⟩ := h (σ.enterFrame kind) b ρ hσ hb
    exact ⟨o, ho, hadds.muted, hadds.events, hadds.report⟩
  · cases hm

end Walk

end ValueFlow

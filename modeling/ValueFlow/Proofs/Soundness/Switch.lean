import ValueFlow.Proofs.Soundness.Stmt

namespace ValueFlow

variable {s s' : Store} {S : State} {m : Int}

theorem InSequence.append_inv {run : NodeId → Behaviour} {ns rest : List NodeId} {e : Ending}
    (h : InSequence run (ns ++ rest) s e s') :
    (∃ s₁, InSequence run ns s .falls s₁ ∧ InSequence run rest s₁ e s') ∨
      (e ≠ .falls ∧ InSequence run ns s e s') := by
  induction ns generalizing s with
  | nil => exact .inl ⟨s, .nil, h⟩
  | cons n ns ih =>
    cases h with
    | cons hn hrest =>
      rcases ih hrest with ⟨s₁, hns, hrest⟩ | ⟨he, hns⟩
      · exact .inl ⟨s₁, .cons hn hns, hrest⟩
      · exact .inr ⟨he, .cons hn hns⟩
    | stop hn he => exact .inr ⟨he, .stop hn he⟩

theorem State.mem_select {var? : Option DeclId} {x : Concrete} {v : Value} (hs : s ∈ S)
    (hvar : ∀ d, var? = some d → s d = some x) (hx : x ∈ v) : s ∈ S.select var? v := by
  unfold State.select
  rw [Value.isEmpty_eq_false hx]
  simp only [Bool.false_eq_true, if_false]
  split
  · exact State.mem_set_of_has hs (hvar _ rfl) hx
  · exact hs

theorem State.mem_foldl_merge {α : Type} {f : α → State} {as : List α} {T : State}
    (h : s ∈ T ∨ ∃ a ∈ as, s ∈ f a) : s ∈ as.foldl (fun T a => T.merge (f a)) T := by
  induction as generalizing T with
  | nil => exact h.resolve_right (by simp)
  | cons a as ih =>
    apply ih
    rcases h with h | ⟨b, hb, h⟩
    · exact .inl (State.mem_merge_left h)
    · rcases List.mem_cons.1 hb with rfl | hb
      · exact .inl (State.mem_merge_right h)
      · exact .inr ⟨b, hb, h⟩

/-- The selector of a switch has the value `m` in the store. -/
structure Selector.Selects (sel : Selector) (s : Store) (m : Int) : Prop where
  state : s ∈ sel.state
  value : .number m ∈ sel.value
  var (d : DeclId) : sel.var? = some d → s d = some (.number m)

namespace Selector

variable {sel : Selector} {c : Case} {alternatives : List Case} {fallthrough : State}

theorem mem_entry_of_fallthrough (h : s ∈ fallthrough) : s ∈ sel.entry c fallthrough := by
  apply State.mem_foldl_merge
  left
  split
  · exact State.mem_merge_left h
  · exact h

theorem Selects.mem_entry (h : sel.Selects s m) (htakes : c.Takes alternatives m) :
    s ∈ sel.entry c fallthrough := by
  apply State.mem_foldl_merge
  rcases htakes with ⟨l, hl, hm⟩ | ⟨hdefault, -⟩
  · have hlabel := Value.mem_restrictEqual h.value (Literal.mem_value_of_code? hm)
    exact .inr ⟨l, hl, State.mem_select h.state h.var hlabel⟩
  · left
    rw [if_pos hdefault]
    exact State.mem_merge_right h.state

theorem Selects.mem_unmatched (h : sel.Selects s m)
    (hlabels : ∀ c ∈ alternatives, ∀ l ∈ c.labels, l.code?.isSome = true)
    (hnone : ∀ c ∈ alternatives, ¬ c.Matches m) : s ∈ sel.unmatched alternatives := by
  -- label by label, `≠` keeps the number
  have hleft : ∀ (labels : List Literal) (v : Value), .number m ∈ v →
      (∀ l ∈ labels, ∃ k, l.code? = some k ∧ k ≠ m) →
      .number m ∈ labels.foldl (fun v label => v.restrictNotEqual label.value) v := by
    intro labels
    induction labels with
    | nil => exact fun v hv _ => hv
    | cons l labels ih =>
      intro v hv hall
      obtain ⟨k, hk, hne⟩ := hall l (by simp)
      refine ih _ (Value.mem_restrictNotEqual hv (Literal.mem_value_of_code? hk) ?_ (by simp)
        (by simp)) fun l hl => hall l (List.mem_cons_of_mem _ hl)
      intro heq
      cases heq
      exact hne rfl
  refine State.mem_select h.state h.var (hleft _ _ h.value fun l hl => ?_)
  obtain ⟨c, hc, hl⟩ := List.mem_flatMap.1 hl
  obtain ⟨k, hk⟩ := Option.isSome_iff_exists.1 (hlabels c hc l hl)
  refine ⟨k, hk, fun hkm => hnone c hc ⟨l, hl, ?_⟩⟩
  rw [hk, hkm]

end Selector

namespace Context

variable {ctx : Context} {depth : Nat} {n v : NodeId} {s₁ : Store} {x : Concrete} {S' : State}
  {w : Value} {σ τ : Session} {run : NodeId → Behaviour} {e : Ending} {sel : Selector}
  {c : Case} {cs : List Case} {fallthrough : State}

theorem sound_deref (hexpr : ctx.ExprSound (ctx.evaluators depth))
    (hv : Evaluates ctx.tree v s (.number m) s₁) (hs : s ∈ S) (hS : S.WellFormedWithin lengths)
    (h : ((ctx.evaluators depth).deref ctx n v S).Yields σ (w, S') τ) :
    (Selector.mk S' w (ctx.tree.variableOf v)).Selects s₁ m := by
  obtain ⟨⟨w', S₁⟩, ρ₁, hvalue, hrest⟩ := Walk.bind_eq_ok.1 h.ok
  obtain ⟨_, ρ₂, hreport, hpure⟩ := Walk.bind_eq_ok.1 hrest
  cases hpure
  cases hreport
  have hgrows := Session.grows_foldl_find n (ctx.derefFindings v w') ρ₁
  obtain ⟨hm, hs₁⟩ := hexpr.expr hv hs hS ⟨h.muted, hvalue, hgrows.clean h.clean⟩
  have hm' : .number m ∈ w'.withNullable false := Value.mem_withNullable_of_mem hm (by simp)
  have hvar : ∀ d, ctx.tree.variableOf v = some d → s₁ d = some (.number m) := by
    intro d hd
    obtain ⟨rfl, hsd⟩ := hv.of_variableOf hd
    exact hsd
  refine ⟨?_, hm', hvar⟩
  unfold afterDeref
  split
  · split
    · rename_i d hd
      exact State.mem_set_of_has hs₁ (hvar d hd) hm'
    · exact hs₁
  · exact hs₁

section Cases

variable (ht : ctx.tree.WritesPrimitives) (hvalue : sel.value.WellFormedWithin lengths)
  (hstate : sel.state.WellFormedWithin lengths)

include ht hvalue hstate

theorem wf_entry (hlabels : ∀ l ∈ c.labels, l.value.WellFormedWithin lengths)
    (hft : fallthrough.WellFormedWithin lengths) :
    (sel.entry c fallthrough).WellFormedWithin lengths :=
  Simulation.state_entry (ctx.laws_growth ht {}) (fun _ _ => trivial) hvalue hstate hlabels hft

theorem grown_cases (hlabels : ∀ c ∈ cs, ∀ l ∈ c.labels, l.value.WellFormedWithin lengths)
    (hft : fallthrough.WellFormedWithin lengths)
    (h : (ctx.evaluators depth).cases ctx sel cs fallthrough σ = .ok S' τ) :
    S'.WellFormedWithin lengths ∧ σ.Grows τ :=
  grown_of_inStep (Simulation.inStep_cases (ctx.laws_growth ht σ) (ctx.related_growth ht σ depth)
    (fun _ _ => trivial) hvalue hstate hlabels (fun _ _ _ _ => trivial) hft) h

variable (hstmt : ctx.StmtSound run (ctx.evaluators depth))
  (hrun : ∀ n, ctx.tree.KeepsTyped (run n))

include hstmt hrun

/-- Running a case, given what becomes of falling through it. -/
theorem sound_case (hlabels : ∀ c' ∈ c :: cs, ∀ l ∈ c'.labels, l.value.WellFormedWithin lengths)
    (hrest : ∀ {s₁ : Store} {out : State} {ρ : Session}, s₁ ∈ out → ctx.tree.Typed s₁ →
      out.WellFormedWithin lengths → InSequence run (cs.flatMap (·.body)) s₁ e s' →
      ((ctx.evaluators depth).cases ctx sel cs out).Yields ρ S' τ → τ.Receives S' e s')
    (hs : s ∈ sel.entry c fallthrough) (htyped : ctx.tree.Typed s)
    (hft : fallthrough.WellFormedWithin lengths)
    (hseq : InSequence run ((c :: cs).flatMap (·.body)) s e s')
    (h : ((ctx.evaluators depth).cases ctx sel (c :: cs) fallthrough).Yields σ S' τ) :
    τ.Receives S' e s' := by
  have hothers : ∀ c' ∈ cs, ∀ l ∈ c'.labels, l.value.WellFormedWithin lengths :=
    fun c' hc' => hlabels c' (List.mem_cons_of_mem _ hc')
  obtain ⟨out, ρ, hbody, hcases⟩ := Walk.bind_eq_ok.1 h.ok
  have hentry := wf_entry ht hvalue hstate (hlabels c (by simp)) hft
  obtain ⟨hout, hgrows₁⟩ := grown_seq ht hentry hbody
  obtain ⟨-, hgrows₂⟩ := grown_cases ht hvalue hstate hothers hout hcases
  have hyields : ((ctx.evaluators depth).seq ctx c.body (sel.entry c fallthrough)).Yields σ out ρ :=
    ⟨h.muted, hbody, hgrows₂.clean h.clean⟩
  rw [List.flatMap_cons] at hseq
  -- either the case falls through to the rest, or a jump out of it ends the sequence
  rcases hseq.append_inv with ⟨s₁, hfirst, hnext⟩ | ⟨he, hfirst⟩
  · have hs₁ := sound_seq ht hstmt hrun hfirst hs htyped hentry hyields
    have htyped₁ := InSequence.typed hrun _ _ _ _ hfirst htyped
    exact hrest hs₁ htyped₁ hout hnext ⟨hgrows₁.muted.trans h.muted, hcases, h.clean⟩
  · have hreceives := sound_seq ht hstmt hrun hfirst hs htyped hentry hyields
    exact hreceives.of_stop hgrows₂ he

theorem sound_fallthrough
    (hlabels : ∀ c ∈ cs, ∀ l ∈ c.labels, l.value.WellFormedWithin lengths)
    (hs : s ∈ fallthrough) (htyped : ctx.tree.Typed s)
    (hft : fallthrough.WellFormedWithin lengths)
    (hseq : InSequence run (cs.flatMap (·.body)) s e s')
    (h : ((ctx.evaluators depth).cases ctx sel cs fallthrough).Yields σ S' τ) :
    τ.Receives S' e s' := by
  induction cs generalizing s fallthrough σ with
  | nil =>
    cases hseq
    cases h.ok
    exact hs
  | cons c cs ih =>
    have hothers : ∀ c' ∈ cs, ∀ l ∈ c'.labels, l.value.WellFormedWithin lengths :=
      fun c' hc' => hlabels c' (List.mem_cons_of_mem _ hc')
    exact sound_case ht hvalue hstate hstmt hrun hlabels
      (fun hs' ht' hout hnext hy => ih hothers hs' ht' hout hnext hy)
      (Selector.mem_entry_of_fallthrough hs) htyped hft hseq h

/-- Running the cases from the one that is taken on. -/
theorem sound_cases {before : List Case}
    (hlabels : ∀ c' ∈ before ++ c :: cs, ∀ l ∈ c'.labels, l.value.WellFormedWithin lengths)
    (hs : ∀ fallthrough, s ∈ sel.entry c fallthrough) (htyped : ctx.tree.Typed s)
    (hft : fallthrough.WellFormedWithin lengths)
    (hseq : InSequence run ((c :: cs).flatMap (·.body)) s e s')
    (h : ((ctx.evaluators depth).cases ctx sel (before ++ c :: cs) fallthrough).Yields σ S' τ) :
    τ.Receives S' e s' := by
  induction before generalizing fallthrough σ with
  | nil =>
    have hothers : ∀ c' ∈ cs, ∀ l ∈ c'.labels, l.value.WellFormedWithin lengths :=
      fun c' hc' => hlabels c' (by simp [hc'])
    exact sound_case ht hvalue hstate hstmt hrun hlabels
      (fun hs' ht' hout hnext hy =>
        sound_fallthrough ht hvalue hstate hstmt hrun hothers hs' ht' hout hnext hy)
      (hs fallthrough) htyped hft hseq h
  | cons b before ih =>
    obtain ⟨out, ρ, hbody, hcases⟩ := Walk.bind_eq_ok.1 h.ok
    have hentry := wf_entry ht hvalue hstate (hlabels b (by simp)) hft
    obtain ⟨hout, hgrows⟩ := grown_seq ht hentry hbody
    -- the store does not enter here, whatever falls through
    exact ih (fun c' hc' => hlabels c' (List.mem_cons_of_mem _ hc')) hout
      ⟨hgrows.muted.trans h.muted, hcases, h.clean⟩

end Cases

section Switch

variable {alternatives : List Case}

/-- The frame of a switch catches a break; a continue goes on to the loop around it. -/
theorem receives_ofSwitch {ρ : Session} {f : Frame} {out : State} (h : ρ.Receives out e s')
    (hkind : f.kind = .switch) (hframes : ρ.frames = f :: τ.frames)
    (hreturns : ρ.returns = τ.returns)
    (hout : ∀ s, s ∈ out.merge f.breaks → s ∈ S') : τ.Receives S' e.ofSwitch s' := by
  cases e with
  | falls => exact hout _ (State.mem_merge_left h)
  | breaks =>
    obtain ⟨g, rest, hg, hmem⟩ := h
    obtain ⟨rfl, -⟩ := List.cons.inj (hframes.symm.trans hg)
    exact hout _ (State.mem_merge_right hmem)
  | continues =>
    obtain ⟨g, hg, hmem⟩ := h
    rw [hframes, List.find?_cons_of_neg (by simp [hkind])] at hg
    exact ⟨g, hg, hmem⟩
  | returns =>
    show s' ∈ τ.returns
    rw [← hreturns]
    exact h

theorem grown_deref (ht : ctx.tree.WritesPrimitives) (hS : S.WellFormedWithin lengths)
    (h : (ctx.evaluators depth).deref ctx n v S σ = .ok (w, S') τ) :
    w.WellFormedWithin lengths ∧ S'.WellFormedWithin lengths ∧ σ.Grows τ := by
  obtain ⟨⟨hw, hS'⟩, hgrows⟩ := grown_of_inStep (Simulation.inStep_deref (ctx.laws_growth ht σ)
    (ctx.related_growth ht σ depth) trivial hS) h
  exact ⟨hw, hS', hgrows⟩

theorem grown_framedCases (ht : ctx.tree.WritesPrimitives) {f : Frame}
    (hvalue : sel.value.WellFormedWithin lengths) (hstate : sel.state.WellFormedWithin lengths)
    (hlabels : ∀ c ∈ cs, ∀ l ∈ c.labels, l.value.WellFormedWithin lengths)
    (h : Walk.framed .switch ((ctx.evaluators depth).cases ctx sel cs .dead) σ = .ok (S', f) τ) :
    σ.Grows τ := by
  obtain ⟨-, hgrows⟩ := grown_of_inStep (Simulation.inStep_framed (ctx.laws_growth ht σ).session
    (Simulation.inStep_cases (ctx.laws_growth ht σ) (ctx.related_growth ht σ depth)
      (fun _ _ => trivial) hvalue hstate hlabels (fun _ _ _ _ => trivial) State.wf_dead)) h
  exact hgrows

theorem sound_switch (ht : ctx.tree.WritesPrimitives)
    (hexpr : ctx.ExprSound (ctx.evaluators depth))
    (hstmt : ctx.StmtSound run (ctx.evaluators depth)) (hrun : ∀ n, ctx.tree.KeepsTyped (run n))
    (hst : ctx.tree.stmt n = .ok (.switch v alternatives))
    (hperforms : Performs ctx.tree run (.switch v alternatives) s e s') (hs : s ∈ S)
    (htyped : ctx.tree.Typed s) (hS : S.WellFormedWithin lengths)
    (h : ((ctx.evaluators depth).switch ctx n v alternatives S).Yields σ S' τ) :
    τ.Receives S' e s' := by
  have hlabels : ∀ c ∈ alternatives, ∀ l ∈ c.labels, l.value.WellFormedWithin lengths :=
    fun c hc l hl => Literal.wf_of_code? (ht.label hst hc hl)
  obtain ⟨⟨w, S₁⟩, ρ₁, hderef, hrest⟩ := Walk.bind_eq_ok.1 h.ok
  obtain ⟨hw, hS₁, hgrows₁⟩ := grown_deref ht hS hderef
  have hmuted₁ : ρ₁.muted = 0 := hgrows₁.muted.trans h.muted
  dsimp only at hrest
  split at hrest
  · -- a selector that has a value is not empty
    rename_i hempty
    cases hrest
    obtain ⟨m, s₁, hv⟩ : ∃ m s₁, Evaluates ctx.tree v s (.number m) s₁ := by
      cases hperforms with
      | switch hv => exact ⟨_, _, hv⟩
      | pass hv => exact ⟨_, _, hv⟩
    have hselects := sound_deref hexpr hv hs hS ⟨h.muted, hderef, h.clean⟩
    cases hempty.symm.trans (Value.isEmpty_eq_false hselects.value)
  · obtain ⟨⟨out, f⟩, ρ₂, hframed, hpure⟩ := Walk.bind_eq_ok.1 hrest
    cases hpure
    have hgrows₂ := grown_framedCases ht hw hS₁ hlabels hframed
    have hyields : ((ctx.evaluators depth).deref ctx n v S).Yields σ (w, S₁) ρ₁ :=
      ⟨h.muted, hderef, hgrows₂.clean h.clean⟩
    cases hperforms with
    | switch hv htakes hseq =>
      have hselects := sound_deref hexpr hv hs hS hyields
      obtain ⟨ρ, hcases, hkind, hframes, hreturns⟩ := Walk.Yields.framed
        ⟨hmuted₁, hframed, h.clean⟩ fun ρ hρ => (grown_cases ht hw hS₁ hlabels State.wf_dead hρ).2
      have hreceives := sound_cases ht hw hS₁ hstmt hrun hlabels
        (fun _ => hselects.mem_entry htakes) (hv.typed htyped) State.wf_dead hseq hcases
      refine receives_ofSwitch hreceives hkind hframes hreturns fun s hmem => ?_
      split
      · exact hmem
      · exact State.mem_merge_left hmem
    | pass hv hnone =>
      have hselects := sound_deref hexpr hv hs hS hyields
      have hnomatch : ∀ c ∈ alternatives, ¬ c.Matches _ := fun c hc hm => hnone c hc (.inl hm)
      have hdefault : alternatives.any (·.isDefault) = false := by
        rw [List.any_eq_false]
        exact fun c hc hd => hnone c hc (.inr ⟨hd, hnomatch⟩)
      show _ ∈ _
      rw [if_neg (by simp [hdefault])]
      exact State.mem_merge_right
        (hselects.mem_unmatched (fun c hc l hl => ht.label hst hc hl) hnomatch)

end Switch

end Context

end ValueFlow

import ValueFlow.Proofs.Growth

namespace ValueFlow

section Effects

variable (ctx : Context) {σ τ : Session} {n : NodeId} {S S' : State} {d : DeclId} {v w : Value}

theorem Walk.require_eq_ok {α : Type} {x : Except TreeError α} {a : α}
    (h : Walk.require x σ = .ok a τ) : x = .ok a ∧ τ = σ := by
  cases x with
  | ok b =>
    cases h
    exact ⟨rfl, rfl⟩
  | error e => cases h

theorem Session.grows_foldl_find (n : NodeId) (fs : List Finding) (σ : Session) :
    σ.Grows (fs.foldl (Session.find n) σ) := by
  have hrest := foldl_find_returns n fs σ
  refine ⟨?_, ?_, clean_of_foldl_find, hrest.2⟩
  · rw [foldl_find_frames]
    exact .refl _
  · rw [hrest.1]
    exact fun _ h => h

theorem Session.grows_trace (e : Entry) (σ : Session) : σ.Grows (σ.trace e) := by
  have hrest := trace_returns e σ
  refine ⟨?_, ?_, fun h => trace_report e σ ▸ h, hrest.2⟩
  · rw [trace_frames]
    exact .refl _
  · rw [hrest.1]
    exact fun _ h => h

theorem Outcome.settle_eq_ok {o : Outcome} (h : o.settle n σ = .ok v τ) :
    v = o.value ∧ σ.Grows τ ∧ (σ.muted = 0 → τ.report.Clean → ¬ o.DividesByZero) := by
  cases h
  refine ⟨rfl, Session.grows_foldl_find n _ σ, fun hmuted hclean hzero => ?_⟩
  obtain ⟨definite, hfault⟩ := hzero
  have hfind : (σ.find n (Fault.finding ⟨.divisionByZero, definite⟩)).report.Clean := by
    simpa only [findings, hfault, Option.toList_some, List.map_cons, List.map_nil,
      List.foldl_cons, List.foldl_nil] using hclean
  rw [Session.find, if_pos hmuted] at hfind
  exact Report.not_clean_add rfl hfind

theorem Context.convert_eq_ok {ty : Ty} (h : ctx.convert n ty v σ = .ok w τ) :
    w = (ty.coerce v).value ∧ σ.Grows τ := by
  cases h
  exact ⟨rfl, Session.grows_foldl_find n _ σ⟩

theorem Context.store_eq_ok (h : ctx.store n d v S σ = .ok (w, S') τ) :
    ∃ decl, ctx.tree.decl d = .ok decl ∧ w = (decl.ty.coerce v).value ∧ S' = S.set d w ∧
      σ.Grows τ := by
  obtain ⟨decl, ρ, hrequire, hrest⟩ := Walk.bind_eq_ok.1 h
  obtain ⟨hdecl, rfl⟩ := Walk.require_eq_ok hrequire
  obtain ⟨w', ρ', hconvert, hpure⟩ := Walk.bind_eq_ok.1 hrest
  obtain ⟨rfl, hgrows⟩ := ctx.convert_eq_ok hconvert
  cases hpure
  exact ⟨decl, hdecl, rfl, rfl, hgrows⟩

end Effects

section Grown

variable {ctx : Context} {σ τ : Session} {n : NodeId} {S S' : State} {v : Value} {depth : Nat}
  {α : Type} {Q : α → Prop}

theorem Context.grown_of_inStep {m : Walk α} {a : α} (h : (ctx.growth σ).InStep [] Q m m)
    (hm : m σ = .ok a τ) : Q a ∧ σ.Grows τ := by
  have hagree := h 0 σ σ ⟨rfl, Session.Grows.refl σ⟩
  rw [hm] at hagree
  exact ⟨hagree.2.1, hagree.2.2.2⟩

variable (ht : ctx.tree.WritesPrimitives) (hS : S.WellFormedWithin lengths)

include ht hS

theorem Context.grown_expr (h : (ctx.evaluators depth).expr n S σ = .ok (v, S') τ) :
    v.WellFormedWithin lengths ∧ S'.WellFormedWithin lengths ∧ σ.Grows τ := by
  have hrel := ctx.related_growth ht σ depth
  obtain ⟨⟨hv, hS'⟩, hgrows⟩ := grown_of_inStep (hrel.expr [] trivial hS) h
  exact ⟨hv, hS', hgrows⟩

theorem Context.grown_cond {B : Branches} (h : (ctx.evaluators depth).cond n S σ = .ok B τ) :
    (∀ b, (B.on b).WellFormedWithin lengths) ∧ σ.Grows τ := by
  have hrel := ctx.related_growth ht σ depth
  obtain ⟨⟨htrue, hfalse⟩, hgrows⟩ := grown_of_inStep (hrel.cond [] trivial hS) h
  refine ⟨fun b => ?_, hgrows⟩
  cases b with
  | true => exact htrue
  | false => exact hfalse

end Grown

section Values

variable {v : Value} {x y : Concrete}

theorem Literal.mem_value {l : Literal} (h : l.concrete? = some x) : x ∈ l.value := by
  cases l with
  | int m =>
    cases h
    exact ⟨_, Interval.saturate_mem_saturated (Int.le_refl _) (Int.le_refl _), rfl⟩
  | char code =>
    cases h
    have hcode := code.toNat_lt
    refine ⟨code.toNat, ?_, rfl⟩
    rw [Interval.mem_def]
    simp only [Interval.point, Interval.saturated, saturate, minInt, maxInt]
    omega
  | bool b =>
    cases h
    cases b
    · exact .inr ⟨rfl, rfl⟩
    · exact .inl ⟨rfl, rfl⟩
  | str s | null => cases h

theorem Literal.mem_value_of_code? {l : Literal} {m : Int} (h : l.code? = some m) :
    .number m ∈ l.value := by
  apply mem_value
  cases l <;> cases h <;> rfl

theorem Unary.mem_apply {op : Unary} (h : op.eval? x = some y) (hx : x ∈ v) :
    y ∈ (op.apply v).value := by
  cases op with
  | neg =>
    cases x <;> cases h
    exact Value.mem_negate hx
  | plus =>
    cases x <;> cases h
    exact Value.mem_promote hx
  | not =>
    cases x <;> cases h
    exact Value.mem_complement hx
  | preInc | preDec | postInc | postDec => cases h

theorem Unary.apply_of_step? {op : Unary} {step : Arith} (h : op.step? = some step) :
    op.apply v = v.arith step (.int 1) := by
  cases op <;> cases h <;> rfl

/-- The value that a variable is left with is among those that conversion to its type answers. -/
theorem Tree.Stores.mem_coerce {t : Tree} {d : DeclId} {decl : Decl} (h : t.Stores d x y)
    (hdecl : t.decl d = .ok decl) (hv : v.WellFormedWithin lengths) (hx : x ∈ v) :
    y ∈ (decl.ty.coerce v).value := by
  obtain ⟨k, hty, rfl, hholds⟩ := h
  rw [hdecl] at hty
  have hkind : decl.ty = .primitive k := Except.ok.inj hty
  rw [hkind]
  refine Value.clamp_mem_coerce_primitive hv hx ?_
  intro hnull
  rw [hnull] at hholds
  exact hholds

end Values

section Shapes

variable {t : Tree} {n : NodeId} {s s' : Store} {x : Concrete} {d : DeclId}

/-- An expression that has a value and names a variable reads it. -/
theorem Evaluates.of_variableOf (h : Evaluates t n s x s') (hd : t.variableOf n = some d) :
    s' = s ∧ s d = some x := by
  unfold Tree.variableOf at hd
  cases h with
  | name he hx =>
    rw [he] at hd
    cases hd
    exact ⟨rfl, hx⟩
  | _ =>
    rename_i he _
    simp_all

theorem Evaluates.expr_ne_length (h : Evaluates t n s x s') (target : NodeId) :
    t.expr n ≠ .ok (.length target) := by
  intro hl
  cases h <;> simp_all

end Shapes

/-- The step answers `a` from a session that reports, and no division by zero is found. -/
structure Walk.Yields {α : Type} (m : Walk α) (σ : Session) (a : α) (τ : Session) : Prop where
  muted : σ.muted = 0
  ok : m σ = .ok a τ
  clean : τ.report.Clean

/-- What expressions do at run time is foreseen by the evaluators. -/
structure Context.ExprSound (ctx : Context) (below : Evaluators) : Prop where
  expr {n : NodeId} {s s' : Store} {x : Concrete} {S S' : State} {v : Value} {σ τ : Session} :
    Evaluates ctx.tree n s x s' → s ∈ S → S.WellFormedWithin lengths →
      (below.expr n S).Yields σ (v, S') τ → x ∈ v ∧ s' ∈ S'
  cond {n : NodeId} {s s' : Store} {b : Bool} {S : State} {B : Branches} {σ τ : Session} :
    Evaluates ctx.tree n s (.bool b) s' → s ∈ S → S.WellFormedWithin lengths →
      (below.cond n S).Yields σ B τ → s' ∈ B.on b

namespace Context

section Steps

variable {ctx : Context} {depth : Nat} {n l r : NodeId} {s s' s₁ s₂ : Store} {x y : Concrete}
  {S S' : State} {v : Value} {σ τ : Session} {d : DeclId}

theorem read_eq_ok (hs : s ∈ S) (hx : s d = some x) (h : ctx.read d S = .ok v) :
    S.lookup d = some v ∧ x ∈ v := by
  obtain ⟨w, hw, hxw⟩ := hs.2 d x hx
  unfold read at h
  rw [hw] at h
  cases hd : ctx.tree.decl d with
  | error e =>
    rw [hd] at h
    cases h
  | ok decl =>
    rw [hd] at h
    cases h
    exact ⟨hw, hxw⟩

theorem mem_store (hs : s ∈ S) (hstores : ctx.tree.Stores d x y) {w : Value}
    (hw : w.WellFormedWithin lengths) (hx : x ∈ w)
    (h : ctx.store n d w S σ = .ok (v, S') τ) : y ∈ v ∧ s.set d y ∈ S' := by
  obtain ⟨decl, hdecl, rfl, rfl, -⟩ := ctx.store_eq_ok h
  have hy := hstores.mem_coerce hdecl hw hx
  exact ⟨hy, State.mem_set hs hy⟩

variable (ht : ctx.tree.WritesPrimitives) (hsound : ctx.ExprSound (ctx.evaluators depth))
  (hs : s ∈ S) (hS : S.WellFormedWithin lengths)

include ht hsound hs hS

theorem sound_binary {f : Value → Value → Outcome} (hl : Evaluates ctx.tree l s x s₁)
    (hr : Evaluates ctx.tree r s₁ y s₂)
    (h : ((ctx.evaluators depth).binary n f l r S).Yields σ (v, S') τ) :
    ∃ a b, x ∈ a ∧ y ∈ b ∧ v = (f a b).value ∧ ¬ (f a b).DividesByZero ∧ s₂ ∈ S' := by
  obtain ⟨⟨a, S₁⟩, ρ₁, hleft, hrest₁⟩ := Walk.bind_eq_ok.1 h.ok
  obtain ⟨⟨b, S₂⟩, ρ₂, hright, hrest₂⟩ := Walk.bind_eq_ok.1 hrest₁
  obtain ⟨w, ρ₃, hsettle, hpure⟩ := Walk.bind_eq_ok.1 hrest₂
  cases hpure
  obtain ⟨-, hS₁, hgrows₁⟩ := grown_expr ht hS hleft
  obtain ⟨-, -, hgrows₂⟩ := grown_expr ht hS₁ hright
  obtain ⟨rfl, hgrows₃, hzero⟩ := Outcome.settle_eq_ok hsettle
  have hmuted₁ : ρ₁.muted = 0 := hgrows₁.muted.trans h.muted
  have hmuted₂ : ρ₂.muted = 0 := hgrows₂.muted.trans hmuted₁
  have hclean₂ := hgrows₃.clean h.clean
  obtain ⟨hx, hs₁⟩ := hsound.expr hl hs hS ⟨h.muted, hleft, hgrows₂.clean hclean₂⟩
  obtain ⟨hy, hs₂⟩ := hsound.expr hr hs₁ hS₁ ⟨hmuted₁, hright, hclean₂⟩
  exact ⟨a, b, hx, hy, rfl, hzero hmuted₂ h.clean, hs₂⟩

omit ht in
theorem sound_unary {op : Unary} {e : NodeId} (he : Evaluates ctx.tree e s x s₁)
    (hop : op.eval? x = some y)
    (h : ((ctx.evaluators depth).unary ctx n op e S).Yields σ (v, S') τ) : y ∈ v ∧ s₁ ∈ S' := by
  have hplain : op.isIncrement = false := by
    cases op <;> first | rfl | cases hop
  have hok := h.ok
  unfold Evaluators.unary at hok
  rw [if_neg (by simp [hplain])] at hok
  obtain ⟨⟨a, S₁⟩, ρ₁, hoperand, hrest⟩ := Walk.bind_eq_ok.1 hok
  obtain ⟨w, ρ₂, hsettle, hpure⟩ := Walk.bind_eq_ok.1 hrest
  cases hpure
  obtain ⟨rfl, hgrows, -⟩ := Outcome.settle_eq_ok hsettle
  obtain ⟨hx, hs₁⟩ := hsound.expr he hs hS ⟨h.muted, hoperand, hgrows.clean h.clean⟩
  exact ⟨Unary.mem_apply hop hx, hs₁⟩

omit ht hsound in
theorem sound_increment {op : Unary} {step : Arith} {e : NodeId} {m k : Int}
    (hop : op.step? = some step) (he : ctx.tree.expr e = .ok (.name d))
    (hm : s d = some (.number m)) (hk : step.eval? m 1 = some k)
    (hy : ctx.tree.Stores d (.number k) y)
    (h : ((ctx.evaluators depth).unary ctx n op e S).Yields σ (v, S') τ) :
    (if op.answersOld then .number m else y) ∈ v ∧ s.set d y ∈ S' := by
  have hok := h.ok
  unfold Evaluators.unary Evaluators.increment at hok
  rw [if_pos (Unary.isIncrement_of_step? hop)] at hok
  simp only [Tree.variableOf, he] at hok
  obtain ⟨current, ρ₁, hrequire, hrest₁⟩ := Walk.bind_eq_ok.1 hok
  obtain ⟨hread, rfl⟩ := Walk.require_eq_ok hrequire
  obtain ⟨result, ρ₂, hsettle, hrest₂⟩ := Walk.bind_eq_ok.1 hrest₁
  obtain ⟨⟨stored, S₁⟩, ρ₃, hstore, hpure⟩ := Walk.bind_eq_ok.1 hrest₂
  cases hpure
  obtain ⟨hlookup, hcurrent⟩ := read_eq_ok hs hm hread
  rw [Unary.apply_of_step? hop] at hsettle
  obtain ⟨rfl, hgrows, hzero⟩ := Outcome.settle_eq_ok hsettle
  have hwf : (current.arith step (.int 1)).value.WellFormedWithin lengths :=
    Value.wf_arith (by decide) step (hS d current hlookup) trivial
  have hresult := (Value.mem_arith hk hcurrent (b := .int 1) ⟨1, by decide, rfl⟩).resolve_left
  have hclean : ρ₂.report.Clean := by
    obtain ⟨-, -, -, -, hgrows'⟩ := ctx.store_eq_ok hstore
    exact hgrows'.clean h.clean
  obtain ⟨hstored, hs₁⟩ := mem_store hs hy hwf (hresult (hzero h.muted hclean)) hstore
  refine ⟨?_, hs₁⟩
  cases op.answersOld with
  | true => exact hcurrent
  | false => exact hstored

theorem sound_assign {target e : NodeId} (htarget : ctx.tree.expr target = .ok (.name d))
    (he : Evaluates ctx.tree e s x s₁) (hy : ctx.tree.Stores d x y)
    (h : ((ctx.evaluators depth).assign ctx n none target e S).Yields σ (v, S') τ) :
    y ∈ v ∧ s₁.set d y ∈ S' := by
  have hok := h.ok
  simp only [Evaluators.assign, Tree.variableOf, htarget] at hok
  obtain ⟨⟨w, S₁⟩, ρ₁, hvalue, hstore⟩ := Walk.bind_eq_ok.1 hok
  obtain ⟨hw, -, -⟩ := grown_expr ht hS hvalue
  obtain ⟨-, -, -, -, hgrows⟩ := ctx.store_eq_ok hstore
  obtain ⟨hx, hs₁⟩ := hsound.expr he hs hS ⟨h.muted, hvalue, hgrows.clean h.clean⟩
  exact mem_store hs₁ hy hw hx hstore

theorem sound_update {op : Arith} {target e : NodeId} {m k q : Int}
    (htarget : ctx.tree.expr target = .ok (.name d)) (hm : s d = some (.number m))
    (he : Evaluates ctx.tree e s (.number k) s₁) (hq : op.eval? m k = some q)
    (hy : ctx.tree.Stores d (.number q) y)
    (h : ((ctx.evaluators depth).assign ctx n (some op) target e S).Yields σ (v, S') τ) :
    y ∈ v ∧ s₁.set d y ∈ S' := by
  have hok := h.ok
  simp only [Evaluators.assign, Tree.variableOf, htarget] at hok
  obtain ⟨current, ρ₁, hrequire, hrest₁⟩ := Walk.bind_eq_ok.1 hok
  obtain ⟨hread, rfl⟩ := Walk.require_eq_ok hrequire
  obtain ⟨⟨w, S₁⟩, ρ₂, hvalue, hrest₂⟩ := Walk.bind_eq_ok.1 hrest₁
  obtain ⟨result, ρ₃, hsettle, hstore⟩ := Walk.bind_eq_ok.1 hrest₂
  obtain ⟨hw, -, hgrows₂⟩ := grown_expr ht hS hvalue
  obtain ⟨rfl, hgrows₃, hzero⟩ := Outcome.settle_eq_ok hsettle
  obtain ⟨-, -, -, -, hgrows₄⟩ := ctx.store_eq_ok hstore
  have hclean₃ := hgrows₄.clean h.clean
  have hmuted₂ : ρ₂.muted = 0 := hgrows₂.muted.trans h.muted
  obtain ⟨hlookup, hcurrent⟩ := read_eq_ok hs hm hread
  obtain ⟨hx, hs₁⟩ := hsound.expr he hs hS ⟨h.muted, hvalue, hgrows₃.clean hclean₃⟩
  have hresult := (Value.mem_arith hq hcurrent hx).resolve_left (hzero hmuted₂ hclean₃)
  have hwf : (current.arith op w).value.WellFormedWithin lengths :=
    Value.wf_arith (by decide) op (hS d current hlookup) hw
  exact mem_store hs₁ hy hwf hresult hstore

theorem sound_conditional {c p q : NodeId} {b : Bool} (hc : Evaluates ctx.tree c s (.bool b) s₁)
    (he : Evaluates ctx.tree (if b then p else q) s₁ x s₂)
    (h : ((ctx.evaluators depth).conditional c p q S).Yields σ (v, S') τ) : x ∈ v ∧ s₂ ∈ S' := by
  obtain ⟨B, ρ₁, hcond, hrest₁⟩ := Walk.bind_eq_ok.1 h.ok
  obtain ⟨⟨a, S₁⟩, ρ₂, hleft, hrest₂⟩ := Walk.bind_eq_ok.1 hrest₁
  obtain ⟨⟨a', S₂⟩, ρ₃, hright, hpure⟩ := Walk.bind_eq_ok.1 hrest₂
  cases hpure
  obtain ⟨hB, hgrows₁⟩ := grown_cond ht hS hcond
  obtain ⟨-, -, hgrows₂⟩ := grown_expr ht (hB true) hleft
  obtain ⟨-, -, hgrows₃⟩ := grown_expr ht (hB false) hright
  have hclean₂ := hgrows₃.clean h.clean
  have hmuted₁ : ρ₁.muted = 0 := hgrows₁.muted.trans h.muted
  have hmuted₂ : ρ₂.muted = 0 := hgrows₂.muted.trans hmuted₁
  have hs₁ := hsound.cond hc hs hS ⟨h.muted, hcond, hgrows₂.clean hclean₂⟩
  cases b with
  | true =>
    obtain ⟨hx, hs₂⟩ := hsound.expr he hs₁ (hB true) ⟨hmuted₁, hleft, hclean₂⟩
    exact ⟨Value.mem_merge (.inl hx), State.mem_merge_left hs₂⟩
  | false =>
    obtain ⟨hx, hs₂⟩ := hsound.expr he hs₁ (hB false) ⟨hmuted₂, hright, h.clean⟩
    exact ⟨Value.mem_merge (.inr hx), State.mem_merge_right hs₂⟩

omit ht in
/-- Both operands hold. If the right one cannot write, it is run from a larger store in the same
way. -/
theorem mem_conjoin {b : Bool} {R : Branches} (hr : Evaluates ctx.tree r s (.bool b) s₁)
    (h : ((ctx.evaluators depth).cond r S).Yields σ R τ) :
    s₁ ∈ ctx.tree.conjoin r S (R.on b) := by
  have hs₁ := hsound.cond hr hs hS h
  unfold Tree.conjoin
  rw [hs.1, hs₁.1]
  simp only [Bool.or_false, Bool.false_eq_true, if_false]
  split
  · exact hs₁
  · rename_i hpure
    have hwrites : ctx.tree.mayWrite r = false := by simpa using hpure
    obtain ⟨rfl, hlift⟩ := hr.of_writesWithin hwrites
    exact State.mem_intersect_of_extends hS hs fun u hext hu =>
      hsound.cond (hlift u hext) hu hS h

/-- The right operand decides on the branch `c` of the left one, and the left one on the other. -/
theorem sound_shortCircuit {c : Bool} {B : Branches}
    (h : ((ctx.evaluators depth).shortCircuit ctx c l r S).Yields σ B τ) :
    (∀ s₁, Evaluates ctx.tree l s (.bool !c) s₁ → s₁ ∈ B.on !c) ∧
      ∀ b s₁ s₂, Evaluates ctx.tree l s (.bool c) s₁ → Evaluates ctx.tree r s₁ (.bool b) s₂ →
        s₂ ∈ B.on b := by
  obtain ⟨L, ρ₁, hleft, hrest⟩ := Walk.bind_eq_ok.1 h.ok
  obtain ⟨R, ρ₂, hright, hpure⟩ := Walk.bind_eq_ok.1 hrest
  cases hpure
  obtain ⟨hL, hgrows₁⟩ := grown_cond ht hS hleft
  obtain ⟨-, hgrows₂⟩ := grown_cond ht (hL c) hright
  have hyields : ((ctx.evaluators depth).cond l S).Yields σ L ρ₁ :=
    ⟨h.muted, hleft, hgrows₂.clean h.clean⟩
  have hyields' : ((ctx.evaluators depth).cond r (L.on c)).Yields ρ₁ R τ :=
    ⟨hgrows₁.muted.trans h.muted, hright, h.clean⟩
  constructor
  · intro s₁ hl
    rw [Branches.on_ofOutcome_not]
    exact State.mem_merge_left (hsound.cond hl hs hS hyields)
  · intro b s₁ s₂ hl hr
    have hs₁ : s₁ ∈ L.on c := hsound.cond hl hs hS hyields
    by_cases hb : b = c
    · subst hb
      rw [Branches.on_ofOutcome]
      exact mem_conjoin hsound hs₁ (hL b) hr hyields'
    · obtain rfl : b = !c := Bool.eq_not.2 hb
      rw [Branches.on_ofOutcome_not]
      exact State.mem_merge_right (hsound.cond hr hs₁ (hL c) hyields')

omit ht hsound hs hS in
theorem sound_guarded {split : Walk Branches} {b : Bool}
    (hsplit : ∀ B, split.Yields σ B τ → s ∈ B.on b)
    (h : (Evaluators.guarded split).Yields σ (v, S') τ) : .bool b ∈ v ∧ s ∈ S' := by
  obtain ⟨B, ρ, hB, hpure⟩ := Walk.bind_eq_ok.1 h.ok
  cases hpure
  have hmem := hsplit B ⟨h.muted, hB, h.clean⟩
  cases b with
  | true =>
    have hlive : B.whenTrue.unreachable = false := hmem.1
    exact ⟨Value.mem_ofFlags.2 (.inl ⟨by rw [hlive]; rfl, rfl⟩), State.mem_merge_left hmem⟩
  | false =>
    have hlive : B.whenFalse.unreachable = false := hmem.1
    exact ⟨Value.mem_ofFlags.2 (.inr ⟨by rw [hlive]; rfl, rfl⟩), State.mem_merge_right hmem⟩

theorem sound_exprOf {e : Expr} (hev : Evaluates ctx.tree n s x s')
    (he : ctx.tree.expr n = .ok e)
    (h : ((ctx.evaluators depth).exprOf ctx n S e).Yields σ (v, S') τ) : x ∈ v ∧ s' ∈ S' := by
  cases hev with
  | literal he' hx =>
    cases he.symm.trans he'
    cases h.ok
    exact ⟨Literal.mem_value hx, hs⟩
  | name he' hx =>
    cases he.symm.trans he'
    obtain ⟨w, ρ, hrequire, hpure⟩ := Walk.bind_eq_ok.1 h.ok
    obtain ⟨hread, rfl⟩ := Walk.require_eq_ok hrequire
    cases hpure
    exact ⟨(read_eq_ok hs hx hread).2, hs⟩
  | unary he' hoperand hop =>
    cases he.symm.trans he'
    exact sound_unary hsound hs hS hoperand hop h
  | increment he' hop htarget hm hk hy =>
    cases he.symm.trans he'
    exact sound_increment hs hS hop htarget hm hk hy h
  | arith he' hl hr hq =>
    cases he.symm.trans he'
    obtain ⟨a, b, ha, hb, rfl, hzero, hs'⟩ := sound_binary ht hsound hs hS hl hr h
    exact ⟨(Value.mem_arith hq ha hb).resolve_left hzero, hs'⟩
  | compare he' hl hr hb =>
    cases he.symm.trans he'
    obtain ⟨a, b, hx, hy, rfl, -, hs'⟩ := sound_binary ht hsound hs hS hl hr h
    exact ⟨Value.mem_test hb hx hy, hs'⟩
  | andLeft he' hl =>
    cases he.symm.trans he'
    exact sound_guarded (fun B hB => (sound_shortCircuit (c := true) ht hsound hs hS hB).1 _ hl) h
  | andRight he' hl hr =>
    cases he.symm.trans he'
    exact sound_guarded
      (fun B hB => (sound_shortCircuit (c := true) ht hsound hs hS hB).2 _ _ _ hl hr) h
  | orLeft he' hl =>
    cases he.symm.trans he'
    exact sound_guarded (fun B hB => (sound_shortCircuit (c := false) ht hsound hs hS hB).1 _ hl) h
  | orRight he' hl hr =>
    cases he.symm.trans he'
    exact sound_guarded
      (fun B hB => (sound_shortCircuit (c := false) ht hsound hs hS hB).2 _ _ _ hl hr) h
  | assign he' htarget hvalue hy =>
    cases he.symm.trans he'
    exact sound_assign ht hsound hs hS htarget hvalue hy h
  | update he' htarget hm hvalue hq hy =>
    cases he.symm.trans he'
    exact sound_update ht hsound hs hS htarget hm hvalue hq hy h
  | conditional he' hc hvalue =>
    cases he.symm.trans he'
    exact sound_conditional ht hsound hs hS hc hvalue h

end Steps

end Context

end ValueFlow

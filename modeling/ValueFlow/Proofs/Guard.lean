import ValueFlow.Proofs.Lockstep

namespace ValueFlow

namespace Walk

variable {α β : Type} {m : Walk α} {f : α → Walk β} {σ τ : Session}

theorem bind_of_ok {a : α} (h : m σ = .ok a τ) : (m >>= f) σ = f a τ := by
  show EStateM.bind m f σ = _
  rw [EStateM.bind, h]

theorem bind_of_error {e : Halt} (h : m σ = .error e τ) : (m >>= f) σ = .error e τ := by
  show EStateM.bind m f σ = _
  rw [EStateM.bind, h]

end Walk

/-- Where there is no value no branch is left, and each branch that is left belongs to an outcome
of the value. -/
structure Branches.Matches (b : Branches) (v : Value) : Prop where
  empty : v = .empty → b.whenTrue.unreachable = true ∧ b.whenFalse.unreachable = true
  whenTrue : ∀ t f, v.flags? = some (t, f) → b.whenTrue.unreachable = false → t = true
  whenFalse : ∀ t f, v.flags? = some (t, f) → b.whenFalse.unreachable = false → f = true

def SameFate : EStateM.Result Halt Session (Value × State) →
    EStateM.Result Halt Session Branches → Prop
  | .ok _ _, .ok _ _ => True
  | .error e τ, .error e' τ' => e = e' ∧ τ = τ'
  | _, _ => False

/-- Both readings fail alike, or leave the same session and branches that match the value. -/
def GuardMatches : EStateM.Result Halt Session (Value × State) →
    EStateM.Result Halt Session Branches → Prop
  | .ok a τ, .ok b τ' => τ = τ' ∧ b.Matches a.1
  | .error e τ, .error e' τ' => e = e' ∧ τ = τ'
  | _, _ => False

theorem GuardMatches.sameFate {r : EStateM.Result Halt Session (Value × State)}
    {r' : EStateM.Result Halt Session Branches} (h : GuardMatches r r') : SameFate r r' := by
  cases r <;> cases r'
  · trivial
  · exact h
  · exact h
  · exact h

namespace Value

variable {v : Value} {t f : Bool}

theorem flags?_ofFlags {t' f' : Bool} (h : (ofFlags t f).flags? = some (t', f')) :
    t' = t ∧ f' = f := by
  cases t <;> cases f <;> simp_all [ofFlags, flags?]

theorem ofFlags_eq_empty (h : ofFlags t f = empty) : t = false ∧ f = false := by
  cases t <;> cases f <;> simp_all [ofFlags]

theorem ofFlags_ne_null : ofFlags t f ≠ null := by
  cases t <;> cases f <;> simp [ofFlags]

theorem test_ne_null (rel : Relation) (a b : Value) : (a.test rel b).value ≠ null := by
  unfold test
  split
  · simp [Outcome.ok]
  · split
    · simp [Outcome.nullOperand]
    · exact ofFlags_ne_null

theorem box_eq_empty {n : Bool} (h : box v n = empty) : v = empty := by
  unfold box at h
  split at h
  · assumption
  · cases h

theorem flags?_box {n : Bool} (h : (box v n).flags? = some (t, f)) : v.flags? = some (t, f) := by
  unfold box at h
  split at h
  · cases n <;> cases h
  · exact h

theorem flags?_complement (h : v.complement.value.flags? = some (t, f)) :
    v.flags? = some (f, t) := by
  induction v with
  | boolean t' f' =>
    obtain ⟨rfl, rfl⟩ := flags?_ofFlags h
    rfl
  | boxed w n ih => exact ih (flags?_box h)
  | _ => cases h

theorem flags_of_complement_eq_empty (hv : v.flags? = some (t, f))
    (h : v.complement.value = empty) : t = false ∧ f = false := by
  induction v with
  | boolean t' f' =>
    cases hv
    exact (ofFlags_eq_empty h).symm
  | boxed w n ih => exact ih hv (box_eq_empty h)
  | _ => cases hv

/-- The value cannot be negated, or nothing is left of it although it is no boolean. -/
def Refuses (v : Value) : Prop :=
  v.complement.fault ≠ none ∨ (v.complement.value = empty ∧ v ≠ empty ∧ v.flags? = none)

instance (v : Value) : Decidable v.Refuses :=
  inferInstanceAs (Decidable (_ ∨ _))

theorem refuses_null : Refuses null := .inl (by simp [complement, Outcome.nullOperand])

theorem eq_null_of_refuses {limit : Interval} (hwf : v.WellFormedWithin limit) (h : v.Refuses) :
    v = null := by
  have hboxed : ∀ w n, v = boxed w n → w.isContent = true → w.complement.fault = none ∧
      (w.complement.value = empty → w.flags? ≠ none) := by
    intro w n _ hw
    cases w <;> simp_all [isContent, complement, Outcome.ok, flags?]
  cases v with
  | null => rfl
  | boolean t f =>
    rcases h with h | ⟨-, -, h⟩
    · exact absurd rfl h
    · cases h
  | boxed w n =>
    obtain ⟨hfault, hempty⟩ := hboxed w n rfl hwf.1
    rcases h with h | ⟨h, -, hflags⟩
    · exact absurd hfault h
    · exact absurd hflags (hempty (box_eq_empty h))
  | empty =>
    rcases h with h | ⟨-, h, -⟩
    · exact absurd rfl h
    · exact absurd rfl h
  | _ =>
    rcases h with h | ⟨h, -, -⟩
    · exact absurd rfl h
    · cases h

theorem complement_ne_null {limit : Interval} (hwf : v.WellFormedWithin limit) :
    v.complement.value ≠ null := by
  cases v with
  | boolean t f => cases t <;> cases f <;> simp [complement, Outcome.ok, ofFlags]
  | boxed w n =>
    have hw := hwf.1
    have hwf' := hwf.2
    cases w with
    | boolean t f =>
      show box (ofFlags f t) n ≠ null
      cases t <;> cases f <;> simp_all [WellFormedWithin, ofFlags, box]
    | any | integer i | char i => simp [complement, Outcome.ok, Outcome.map, box]
    | _ => cases hw
  | _ => simp [complement, Outcome.ok, Outcome.nullOperand]

end Value

theorem Branches.Matches.swap {b : Branches} {v : Value} (h : b.Matches v) (hv : ¬ v.Refuses) :
    b.swap.Matches v.complement.value where
  empty he := by
    by_cases hempty : v = .empty
    · exact (h.empty hempty).symm
    · cases hflags : v.flags? with
      | none => exact absurd (.inr ⟨he, hempty, hflags⟩) hv
      | some flags =>
        obtain ⟨t, f⟩ := flags
        obtain ⟨rfl, rfl⟩ := Value.flags_of_complement_eq_empty hflags he
        constructor
        · exact eq_true_of_ne_false fun hr => Bool.noConfusion (h.whenFalse _ _ hflags hr)
        · exact eq_true_of_ne_false fun hr => Bool.noConfusion (h.whenTrue _ _ hflags hr)
  whenTrue _ _ hflags := h.whenFalse _ _ (Value.flags?_complement hflags)
  whenFalse _ _ hflags := h.whenTrue _ _ (Value.flags?_complement hflags)

theorem State.killUnless_unreachable (s : State) (live : Bool) :
    (s.killUnless live).unreachable = (s.unreachable || !live) := by
  cases live <;> simp [State.killUnless, State.kill]

theorem Branches.matches_dead (v : Value) : Branches.dead.Matches v :=
  ⟨fun _ => ⟨rfl, rfl⟩, fun _ _ _ h => Bool.noConfusion h, fun _ _ _ h => Bool.noConfusion h⟩

theorem Branches.matches_killUnless {v : Value} {s s' : State} {t f : Bool}
    (hempty : v ≠ .empty) (hflags : ∀ t' f', v.flags? = some (t', f') → t' = t ∧ f' = f) :
    Branches.Matches ⟨s.killUnless t, s'.killUnless f⟩ v where
  empty h := absurd h hempty
  whenTrue t' f' h hr := by
    obtain ⟨rfl, rfl⟩ := hflags t' f' h
    simp only [State.killUnless_unreachable, Bool.or_eq_false_iff] at hr
    simpa using hr.2
  whenFalse t' f' h hr := by
    obtain ⟨rfl, rfl⟩ := hflags t' f' h
    simp only [State.killUnless_unreachable, Bool.or_eq_false_iff] at hr
    simpa using hr.2

namespace Evaluators

variable (below : Evaluators) (ctx : Context) {n : NodeId} {s : State} {σ : Session}

theorem settle_eq (o : Outcome) (n : NodeId) (σ : Session) :
    o.settle n σ = .ok o.value (o.findings.foldl (Session.find n) σ) := rfl

theorem matches_truth (n : NodeId) (v : Value) (s : State) :
    (Evaluators.truth ctx n v s).Matches v := by
  unfold Evaluators.truth
  split
  · exact Branches.matches_dead v
  · rename_i h
    have hempty : v ≠ .empty := by
      intro he
      simp [he, Value.isEmpty] at h
    cases hflags : v.flags? with
    | none => exact Branches.matches_killUnless hempty fun t f h => by simp [hflags] at h
    | some flags =>
      refine Branches.matches_killUnless hempty fun t f h => ?_
      rw [hflags] at h
      cases h
      exact ⟨rfl, rfl⟩

theorem guardMatches_comparison (rel : Relation) (l r : NodeId) :
    GuardMatches (below.binary n (Value.test rel) l r s σ)
      (below.comparison ctx n rel l r s σ) := by
  unfold Evaluators.binary Evaluators.comparison
  cases hl : below.expr l s σ with
  | error e τ => rw [Walk.bind_of_error hl, Walk.bind_of_error hl]; exact ⟨rfl, rfl⟩
  | ok a τ =>
    rw [Walk.bind_of_ok hl, Walk.bind_of_ok hl]
    obtain ⟨a, s₁⟩ := a
    dsimp only
    cases hr : below.expr r s₁ τ with
    | error e τ => rw [Walk.bind_of_error hr, Walk.bind_of_error hr]; exact ⟨rfl, rfl⟩
    | ok b τ =>
      rw [Walk.bind_of_ok hr, Walk.bind_of_ok hr]
      obtain ⟨b, s₂⟩ := b
      dsimp only
      rw [Walk.bind_of_ok (settle_eq _ n τ), Walk.bind_of_ok (settle_eq _ n τ)]
      cases hflags : (a.test rel b).value.flags? with
      | none => exact ⟨rfl, Branches.matches_dead _⟩
      | some flags =>
        refine ⟨rfl, Branches.matches_killUnless ?_ fun t f h => ?_⟩
        · intro he
          simp only at he
          rw [he] at hflags
          cases hflags
        · simp only at h
          rw [hflags] at h
          cases h
          exact ⟨rfl, rfl⟩

theorem guardMatches_guarded (split : Walk Branches) :
    GuardMatches (Evaluators.guarded split σ) (split σ) := by
  unfold Evaluators.guarded
  cases h : split σ with
  | error e τ => rw [Walk.bind_of_error h]; exact ⟨rfl, rfl⟩
  | ok b τ =>
    rw [Walk.bind_of_ok h]
    refine ⟨rfl, ?_, ?_, ?_⟩
    · intro he
      have hflags := Value.ofFlags_eq_empty he
      simpa using hflags
    · intro t f hflags hr
      simp [(Value.flags?_ofFlags hflags).1, hr]
    · intro t f hflags hr
      simp [(Value.flags?_ofFlags hflags).2, hr]

theorem guarded_ne_null (split : Walk Branches) {s' : State} {τ : Session} :
    Evaluators.guarded split σ ≠ .ok (.null, s') τ := by
  intro h
  obtain ⟨b, ρ, -, h⟩ := Walk.bind_eq_ok.1 h
  have hvalue := congrArg Prod.fst (EStateM.Result.ok.inj h).1
  exact Value.ofFlags_ne_null hvalue

theorem comparison_ne_null (rel : Relation) (l r : NodeId) {s' : State} {τ : Session} :
    below.binary n (Value.test rel) l r s σ ≠ .ok (.null, s') τ := by
  intro h
  obtain ⟨a, ρ, -, h⟩ := Walk.bind_eq_ok.1 h
  obtain ⟨b, ρ', -, h⟩ := Walk.bind_eq_ok.1 h
  dsimp only at h
  rw [Walk.bind_of_ok (settle_eq _ n ρ')] at h
  have hvalue := congrArg Prod.fst (EStateM.Result.ok.inj h).1
  exact Value.test_ne_null rel a.1 b.1 hvalue

/-- An expression that is no negation is read alike as a guard and as a value. -/
theorem guardMatches_of_not_negation {e : Expr} (h : ∀ operand, e ≠ .unary .not operand) :
    GuardMatches (below.exprOf ctx n s e σ) (below.condOf ctx n s e σ) := by
  have htruth : GuardMatches (below.exprOf ctx n s e σ) (below.judged ctx n s e σ) := by
    unfold Evaluators.judged
    cases he : below.exprOf ctx n s e σ with
    | error e τ => rw [Walk.bind_of_error he]; exact ⟨rfl, rfl⟩
    | ok a τ => rw [Walk.bind_of_ok he]; exact ⟨rfl, matches_truth ctx n a.1 a.2⟩
  cases e with
  | compare rel l r => exact below.guardMatches_comparison ctx rel l r
  | and l r => exact guardMatches_guarded _
  | or l r => exact guardMatches_guarded _
  | unary op operand =>
    cases op with
    | not => exact absurd rfl (h operand)
    | _ => exact htruth
  | _ => exact htruth

end Evaluators

namespace Context

variable (ctx : Context)

/-- One of the negations at the top of the expression is applied to a value with the property. -/
def Negates (P : Value → Prop) : Nat → NodeId → State → Session → Prop
  | 0, _, _, _ => False
  | depth + 1, n, s, σ => ∃ operand, ctx.tree.expr n = .ok (.unary .not operand) ∧
      (Negates P depth operand s σ ∨
        ∃ v s' τ, (ctx.evaluators depth).expr operand s σ = .ok (v, s') τ ∧ P v)

variable {n : NodeId} {s : State} {σ : Session} {depth : Nat}

theorem exprOf_not {operand : NodeId} {v : Value} {s' : State} {τ : Session}
    (h : (ctx.evaluators depth).expr operand s σ = .ok (v, s') τ) :
    (ctx.evaluators depth).exprOf ctx n s (.unary .not operand) σ =
      .ok (v.complement.value, s') (v.complement.findings.foldl (Session.find n) τ) := by
  show (ctx.evaluators depth).unary ctx n .not operand s σ = _
  unfold Evaluators.unary
  rw [if_neg (by simp [Unary.isIncrement]), Walk.bind_of_ok h]
  rfl

theorem exprOf_not_error {operand : NodeId} {e : Halt} {τ : Session}
    (h : (ctx.evaluators depth).expr operand s σ = .error e τ) :
    (ctx.evaluators depth).exprOf ctx n s (.unary .not operand) σ = .error e τ := by
  show (ctx.evaluators depth).unary ctx n .not operand s σ = _
  unfold Evaluators.unary
  rw [if_neg (by simp [Unary.isIncrement]), Walk.bind_of_error h]

theorem condOf_not {operand : NodeId} {b : Branches} {τ : Session}
    (h : (ctx.evaluators depth).cond operand s σ = .ok b τ) :
    (ctx.evaluators depth).condOf ctx n s (.unary .not operand) σ = .ok b.swap τ :=
  Walk.bind_of_ok h

theorem condOf_not_error {operand : NodeId} {e : Halt} {τ : Session}
    (h : (ctx.evaluators depth).cond operand s σ = .error e τ) :
    (ctx.evaluators depth).condOf ctx n s (.unary .not operand) σ = .error e τ :=
  Walk.bind_of_error h

/-- The two readings always fail alike, and agree unless a negation is refused. -/
theorem read_alike (hlive : s.unreachable = false) (depth : Nat) (n : NodeId) :
    SameFate ((ctx.evaluators depth).expr n s σ) ((ctx.evaluators depth).cond n s σ) ∧
      (¬ ctx.Negates Value.Refuses depth n s σ →
        GuardMatches ((ctx.evaluators depth).expr n s σ) ((ctx.evaluators depth).cond n s σ)) := by
  induction depth generalizing n with
  | zero => exact ⟨⟨rfl, rfl⟩, fun _ => ⟨rfl, rfl⟩⟩
  | succ depth ih =>
    cases he : ctx.tree.expr n with
    | error e =>
      rw [ctx.expr_succ, ctx.cond_succ, Tree.visit_of_error hlive he, Tree.visit_of_error hlive he]
      exact ⟨⟨rfl, rfl⟩, fun _ => ⟨rfl, rfl⟩⟩
    | ok e =>
      rw [ctx.expr_succ, ctx.cond_succ, Tree.visit_of_ok hlive he, Tree.visit_of_ok hlive he]
      by_cases hnot : ∃ operand, e = .unary .not operand
      · -- the value is complemented where the branches are swapped
        obtain ⟨operand, rfl⟩ := hnot
        obtain ⟨hfate, hmatches⟩ := ih operand
        cases hv : (ctx.evaluators depth).expr operand s σ <;>
          cases hb : (ctx.evaluators depth).cond operand s σ <;> rw [hv, hb] at hfate
        · rename_i a τ b τ'
          obtain ⟨v, s'⟩ := a
          rw [ctx.exprOf_not hv, ctx.condOf_not hb]
          refine ⟨trivial, fun h => ?_⟩
          have haccepts : ¬ v.Refuses := fun hr => h ⟨operand, he, .inr ⟨v, s', τ, hv, hr⟩⟩
          have hnone : v.complement.fault = none :=
            Classical.byContradiction fun hf => haccepts (.inl hf)
          have hoperand := hmatches fun hn => h ⟨operand, he, .inl hn⟩
          rw [hv, hb] at hoperand
          simp only [Outcome.findings, hnone]
          exact ⟨hoperand.1, hoperand.2.swap haccepts⟩
        · exact hfate.elim
        · exact hfate.elim
        · rw [ctx.exprOf_not_error hv, ctx.condOf_not_error hb]
          exact ⟨hfate, fun _ => hfate⟩
      · have hmatches := Evaluators.guardMatches_of_not_negation (ctx.evaluators depth) ctx
          (n := n) (s := s) (σ := σ) fun operand ho => hnot ⟨operand, ho⟩
        exact ⟨hmatches.sameFate, fun _ => hmatches⟩

theorem wf_expr (hwf : s.WellFormedWithin .full) {v : Value} {s' : State} {τ : Session}
    (h : (ctx.evaluators depth).expr n s σ = .ok (v, s') τ) : v.WellFormedWithin .full := by
  have hrelated := ctx.related_lockstep (by decide) Literal.wf_value σ.kinds depth
  have hagree := hrelated.expr (n := n) [] trivial hwf 0 σ σ ⟨rfl, rfl⟩
  rw [h] at hagree
  exact hagree.2.1.1

theorem reachable_truth_null (n : NodeId) (hlive : s.unreachable = false) :
    (Evaluators.truth ctx n .null s).whenTrue.unreachable = false ∧
      (Evaluators.truth ctx n .null s).whenFalse.unreachable = false := by
  have hassume : ∀ b, (ctx.assumeBool n .null b s).unreachable = false := by
    intro b
    unfold Context.assumeBool
    split
    · exact hlive
    · exact hlive
  simp [Evaluators.truth, Value.isEmpty, Value.flags?, hlive, State.killUnless_unreachable, hassume]

theorem null_guard (hlive : s.unreachable = false) (hwf : s.WellFormedWithin .full) {s' : State}
    {τ τ' : Session} {b : Branches} (hv : (ctx.evaluators depth).expr n s σ = .ok (.null, s') τ)
    (hb : (ctx.evaluators depth).cond n s σ = .ok b τ') (hlive' : s'.unreachable = false) :
    b.whenTrue.unreachable = false ∧ b.whenFalse.unreachable = false := by
  cases depth with
  | zero => cases hv
  | succ depth =>
    cases he : ctx.tree.expr n with
    | error e =>
      rw [ctx.expr_succ, Tree.visit_of_error hlive he] at hv
      cases hv
    | ok e =>
      rw [ctx.expr_succ, Tree.visit_of_ok hlive he] at hv
      rw [ctx.cond_succ, Tree.visit_of_ok hlive he] at hb
      -- only what is judged by its value can come out as null, and null rules out neither branch
      have hother : (ctx.evaluators depth).judged ctx n s e σ = .ok b τ' →
          b.whenTrue.unreachable = false ∧ b.whenFalse.unreachable = false := by
        intro h
        rw [Evaluators.judged, Walk.bind_of_ok hv] at h
        cases h
        exact ctx.reachable_truth_null n hlive'
      cases e with
      | compare rel l r => exact absurd hv (Evaluators.comparison_ne_null _ rel l r)
      | and l r => exact absurd hv (Evaluators.guarded_ne_null _)
      | or l r => exact absurd hv (Evaluators.guarded_ne_null _)
      | unary op operand =>
        cases op with
        | not =>
          cases hoperand : (ctx.evaluators depth).expr operand s σ with
          | error e ρ =>
            rw [ctx.exprOf_not_error hoperand] at hv
            cases hv
          | ok a ρ =>
            rw [ctx.exprOf_not hoperand] at hv
            have hvalue := congrArg Prod.fst (EStateM.Result.ok.inj hv).1
            exact absurd hvalue (Value.complement_ne_null (ctx.wf_expr hwf hoperand))
        | _ => exact hother hb
      | _ => exact hother hb

/-- Where a negation meets null, the value is gone and the null is found, but the guard neither
finds it nor gives up a branch. -/
theorem null_negated (hlive : s.unreachable = false) (hwf : s.WellFormedWithin .full) (depth : Nat)
    (n : NodeId) (h : ctx.Negates Value.Refuses depth n s σ) :
    ∃ m operand s' τ b, ctx.tree.expr m = .ok (.unary .not operand) ∧
      (ctx.evaluators depth).expr n s σ = .ok (.empty, s')
        (τ.find m ⟨.nullDereference, "null value used as an operand", true⟩) ∧
      (ctx.evaluators depth).cond n s σ = .ok b τ ∧
      (s'.unreachable = false →
        b.whenTrue.unreachable = false ∧ b.whenFalse.unreachable = false) := by
  induction depth generalizing n with
  | zero => exact h.elim
  | succ depth ih =>
    obtain ⟨operand, he, h⟩ := h
    rw [ctx.expr_succ, ctx.cond_succ, Tree.visit_of_ok hlive he, Tree.visit_of_ok hlive he]
    by_cases hbelow : ctx.Negates Value.Refuses depth operand s σ
    · -- the innermost refused negation finds the null; those around it see no value
      obtain ⟨m, e, s', τ, b, hm, hv, hb, hreached⟩ := ih operand hbelow
      rw [ctx.exprOf_not hv, ctx.condOf_not hb]
      exact ⟨m, e, s', τ, b.swap, hm, rfl, rfl, fun hs' => (hreached hs').symm⟩
    · obtain ⟨v, s', τ, hv, hrefuses⟩ := h.resolve_left hbelow
      obtain rfl := Value.eq_null_of_refuses (ctx.wf_expr hwf hv) hrefuses
      have hmatches := (ctx.read_alike hlive depth operand).2 hbelow
      cases hb : (ctx.evaluators depth).cond operand s σ with
      | error e τ' => rw [hv, hb] at hmatches; exact hmatches.elim
      | ok b τ' =>
        rw [hv, hb] at hmatches
        obtain ⟨rfl, -⟩ := hmatches
        rw [ctx.exprOf_not hv, ctx.condOf_not hb]
        refine ⟨n, operand, s', τ, b.swap, he, rfl, rfl, fun hs' => ?_⟩
        exact (ctx.null_guard hlive hwf hv hb hs').symm

/-- The negations that are refused are those of null. -/
theorem negates_null_iff (hwf : s.WellFormedWithin .full) (depth : Nat) (n : NodeId) :
    ctx.Negates Value.Refuses depth n s σ ↔ ctx.Negates (· = .null) depth n s σ := by
  induction depth generalizing n with
  | zero => exact Iff.rfl
  | succ depth ih =>
    constructor
    · intro ⟨operand, he, h⟩
      refine ⟨operand, he, ?_⟩
      rcases h with h | ⟨v, s', τ, hv, hrefuses⟩
      · exact .inl ((ih operand).1 h)
      · exact .inr ⟨v, s', τ, hv, Value.eq_null_of_refuses (ctx.wf_expr hwf hv) hrefuses⟩
    · intro ⟨operand, he, h⟩
      refine ⟨operand, he, ?_⟩
      rcases h with h | ⟨v, s', τ, hv, rfl⟩
      · exact .inl ((ih operand).2 h)
      · exact .inr ⟨.null, s', τ, hv, Value.refuses_null⟩

end Context

theorem Session.find_ne (n : NodeId) {σ : Session} (f : Finding) (h : σ.muted = 0) :
    σ.find n f ≠ σ := by
  intro heq
  have hlength := congrArg (fun τ : Session => τ.history.length) heq
  simp [Session.find, h, Session.note] at hlength

/-- As a guard and as a value an expression fails alike. Unless a negation on top of it is refused,
both find the same, and the branches match the value. In a well-formed state only a negation of
null is refused, and then the readings differ: the value is gone and the null is found at the
negation, while the guard finds nothing and keeps both branches. -/
theorem guard_matches_value_unless_null_negated (ctx : Context) (depth : Nat) (n : NodeId)
    {s : State} (hlive : s.unreachable = false) (σ : Session) :
    SameFate ((ctx.evaluators depth).expr n s σ) ((ctx.evaluators depth).cond n s σ) ∧
      (¬ ctx.Negates Value.Refuses depth n s σ →
        GuardMatches ((ctx.evaluators depth).expr n s σ) ((ctx.evaluators depth).cond n s σ)) ∧
      (s.WellFormedWithin .full →
        (ctx.Negates Value.Refuses depth n s σ ↔ ctx.Negates (· = .null) depth n s σ) ∧
        (ctx.Negates (· = .null) depth n s σ → ∃ m operand s' τ b,
          ctx.tree.expr m = .ok (.unary .not operand) ∧
          (ctx.evaluators depth).expr n s σ =
            .ok (.empty, s') (τ.find m ⟨.nullDereference, "null value used as an operand", true⟩) ∧
          (ctx.evaluators depth).cond n s σ = .ok b τ ∧
          (s'.unreachable = false →
            b.whenTrue.unreachable = false ∧ b.whenFalse.unreachable = false) ∧
          (τ.muted = 0 ∨ s'.unreachable = false →
            ¬ GuardMatches ((ctx.evaluators depth).expr n s σ)
              ((ctx.evaluators depth).cond n s σ)))) := by
  obtain ⟨hfate, hmatches⟩ := ctx.read_alike (σ := σ) hlive depth n
  refine ⟨hfate, hmatches, fun hwf => ?_⟩
  have hiff := ctx.negates_null_iff (σ := σ) hwf depth n
  refine ⟨hiff, fun hnull => ?_⟩
  obtain ⟨m, operand, s', τ, b, hm, hv, hb, hreached⟩ :=
    ctx.null_negated hlive hwf depth n (hiff.2 hnull)
  refine ⟨m, operand, s', τ, b, hm, hv, hb, hreached, fun hor hmatch => ?_⟩
  rw [hv, hb] at hmatch
  rcases hor with hmuted | hs'
  · exact Session.find_ne m _ hmuted hmatch.1
  · have hdead := (hmatch.2.empty rfl).1
    rw [(hreached hs').1] at hdead
    cases hdead

def negatedFlag : Context where
  tree :=
    { nodes := #[.expr (.name ⟨0⟩), .expr (.unary .not ⟨0⟩)]
      decls := #[⟨"flag", .boxed .boolean, [], .var⟩] }
  settings := {}

/-- The two readings of a flag that is some boolean agree. -/
theorem negatedFlag_matches : (State.initial.set ⟨0⟩ (.boxed .anyBool false)).unreachable = false ∧
    GuardMatches
      ((negatedFlag.evaluators 2).expr ⟨1⟩ (State.initial.set ⟨0⟩ (.boxed .anyBool false)) {})
      ((negatedFlag.evaluators 2).cond ⟨1⟩ (State.initial.set ⟨0⟩ (.boxed .anyBool false)) {}) := by
  refine ⟨rfl, (guard_matches_value_unless_null_negated negatedFlag 2 ⟨1⟩ rfl {}).2.1 ?_⟩
  intro ⟨operand, he, h⟩
  cases he
  rcases h with ⟨_, he, _⟩ | ⟨v, s', τ, hv, hrefuses⟩
  · cases he
  · cases hv
    exact absurd hrefuses (by decide)

/-- The two readings of a flag that is null differ. -/
theorem negatedFlag_null_differs : ¬ GuardMatches
    ((negatedFlag.evaluators 2).expr ⟨1⟩ (State.initial.set ⟨0⟩ .null) {})
    ((negatedFlag.evaluators 2).cond ⟨1⟩ (State.initial.set ⟨0⟩ .null) {}) := by
  intro h
  have hdead := (h.2.empty rfl).1
  cases hdead

end ValueFlow

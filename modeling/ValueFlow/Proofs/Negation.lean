import ValueFlow.Proofs.Reporting
import ValueFlow.Proofs.Splitting

namespace ValueFlow

theorem Relation.negation_negation (rel : Relation) : rel.negation.negation = rel := by
  cases rel <;> rfl

theorem Relation.isOrdering_negation (rel : Relation) :
    rel.negation.isOrdering = rel.isOrdering := by
  cases rel <;> rfl

namespace Tree

variable {t : Tree} {n n' : NodeId} {e : Expr} {negated : Bool} {depth depth' : Nat}

/-- The condition `n'` is `n`, or its negation, with negations pushed inward. At any other
expression than `&&`, `||`, `!` and comparisons this has to stop; if it stops nowhere else, `n'` is
the negation normal form. -/
inductive PushesNegation (t : Tree) : (negated : Bool) → NodeId → NodeId → Prop
  | keep (n : NodeId) : t.PushesNegation false n n
  | negate {n n' : NodeId} : t.expr n' = .ok (.unary .not n) → t.PushesNegation true n n'
  | compare {negated : Bool} {n n' l r : NodeId} {rel : Relation} :
      t.expr n = .ok (.compare rel l r) →
      t.expr n' = .ok (.compare (rel.withOutcome !negated) l r) → t.PushesNegation negated n n'
  | not {negated : Bool} {n n' operand : NodeId} : t.expr n = .ok (.unary .not operand) →
      t.PushesNegation (!negated) operand n' → t.PushesNegation negated n n'
  | and {negated : Bool} {n n' l r l' r' : NodeId} : t.expr n = .ok (.and l r) →
      t.expr n' = .ok (if negated then .or l' r' else .and l' r') →
      t.PushesNegation negated l l' → t.PushesNegation negated r r' →
      t.PushesNegation negated n n'
  | or {negated : Bool} {n n' l r l' r' : NodeId} : t.expr n = .ok (.or l r) →
      t.expr n' = .ok (if negated then .and l' r' else .or l' r') →
      t.PushesNegation negated l l' → t.PushesNegation negated r r' →
      t.PushesNegation negated n n'

theorem any_eq_any {p q : NodeId → Bool} {ns : List NodeId} (h : ∀ c ∈ ns, p c = q c) :
    ns.any p = ns.any q := by
  rw [Bool.eq_iff_iff, List.any_eq_true, List.any_eq_true]
  exact exists_congr fun c => and_congr_right fun hc => by rw [h c hc]

theorem Within.writesWithin_eq (h : t.Within depth n) (hle : depth ≤ depth') :
    t.writesWithin depth' n = t.writesWithin depth n := by
  induction h generalizing depth' with
  | @children depth n _ ih =>
    obtain ⟨below, rfl⟩ := Nat.exists_eq_add_of_le' (Nat.one_le_of_lt hle)
    rw [writesWithin, writesWithin]
    cases he : t.expr n with
    | error e => rfl
    | ok e =>
      have hchildren : ∀ c ∈ e.children, t.writesWithin below c = t.writesWithin depth c :=
        fun c hc => ih c ⟨_, node_of_expr he, hc⟩ (by omega)
      exact congrArg (e.isWrite || ·) (any_eq_any hchildren)

/-- Without cycles an expression may write if it is a write or one of its parts may. -/
theorem Acyclic.mayWrite_eq (h : t.Acyclic) (he : t.expr n = .ok e) :
    t.mayWrite n = (e.isWrite || e.children.any t.mayWrite) := by
  have hchildren : ∀ c ∈ e.children, t.writesWithin t.size c = t.mayWrite c :=
    fun c hc => (((h.within n).of_expr he hc).writesWithin_eq (Nat.le_succ _)).symm
  rw [mayWrite, writesWithin, he]
  exact congrArg (e.isWrite || ·) (any_eq_any hchildren)

/-- Pushing negations inward adds no write and takes none away. -/
theorem PushesNegation.mayWrite_eq (hacyclic : t.Acyclic) (h : t.PushesNegation negated n n') :
    t.mayWrite n' = t.mayWrite n := by
  induction h with
  | keep => rfl
  | negate he =>
    rw [hacyclic.mayWrite_eq he]
    simp [Expr.isWrite, Expr.children, Unary.isIncrement]
  | compare he he' =>
    rw [hacyclic.mayWrite_eq he, hacyclic.mayWrite_eq he']
    rfl
  | not he _ ih =>
    rw [hacyclic.mayWrite_eq he, ih]
    simp [Expr.isWrite, Expr.children, Unary.isIncrement]
  | @and negated _ _ _ _ _ _ he he' _ _ ihl ihr =>
    rw [hacyclic.mayWrite_eq he, hacyclic.mayWrite_eq he']
    cases negated <;> simp [Expr.isWrite, Expr.children, ihl, ihr]
  | @or negated _ _ _ _ _ _ he he' _ _ ihl ihr =>
    rw [hacyclic.mayWrite_eq he, hacyclic.mayWrite_eq he']
    cases negated <;> simp [Expr.isWrite, Expr.children, ihl, ihr]

end Tree

namespace Value

variable (a b : Value) (rel : Relation)

theorem flags?_ofFlags_swap (t f : Bool) :
    (ofFlags f t).flags? = (ofFlags t f).flags?.map Prod.swap := by
  decide +revert

theorem test_negation : (a.test rel.negation b).findings = (a.test rel b).findings ∧
    (a.test rel.negation b).value.flags? = (a.test rel b).value.flags?.map Prod.swap := by
  unfold test
  rw [rel.isOrdering_negation, rel.negation_negation]
  split
  · exact ⟨rfl, rfl⟩
  · split
    · exact ⟨rfl, rfl⟩
    · exact ⟨rfl, flags?_ofFlags_swap _ _⟩

end Value

namespace Branches

/-- The branches of a condition or of its negation. -/
def swapIf (B : Branches) (negated : Bool) : Branches := if negated then B.swap else B

theorem on_swapIf (B : Branches) (negated b : Bool) :
    (B.swapIf negated).on b = B.on (b ^^ negated) := by
  cases negated
  · rw [Bool.xor_false]
    rfl
  · rw [Bool.xor_true]
    exact B.on_swap b

theorem swapIf_ofOutcome (negated b : Bool) (S other : State) :
    (ofOutcome b S other).swapIf negated = ofOutcome (b ^^ negated) S other := by
  cases b <;> cases negated <;> rfl

end Branches

/-- The same finding at the same node, or at two comparisons of the same operands by the same or the
opposite relation. -/
def Tree.SameFinding (t : Tree) (x y : Located) : Prop :=
  x.2 = y.2 ∧ (x.1 = y.1 ∨ ∃ rel l r b, t.expr x.1 = .ok (.compare rel l r) ∧
    t.expr y.1 = .ok (.compare (rel.withOutcome b) l r))

theorem Tree.sameFinding_refl (t : Tree) (x : Located) : t.SameFinding x x := ⟨rfl, .inl rfl⟩

namespace Evaluators

open Walk

variable {ctx : Context} {L : Located → Located → Prop} {below below' : Evaluators}
  {negated : Bool} {n n' l l' r r' : NodeId} {s : State} {rel : Relation}

/-- The splits agree, and the second one has its branches swapped if negated. -/
def SplitAlike (L : Located → Located → Prop) (negated : Bool) (m m' : Walk Branches) : Prop :=
  Agrees L (fun b b' => b' = b.swapIf negated) m m'

theorem SplitAlike.of_agrees {m m' : Walk Branches} (h : Agrees L Eq m m') :
    SplitAlike L false m m' :=
  h.mono fun _ _ hbb' => hbb'.symm

theorem SplitAlike.swap_left {m m' : Walk Branches} (h : SplitAlike L (!negated) m m') :
    SplitAlike L negated (m >>= fun b => pure b.swap) m' := by
  have hswap : SplitAlike L negated (m >>= fun b => pure b.swap) (m' >>= pure) :=
    h.bind fun b b' hb => agrees_pure (by rw [hb]; cases negated <;> rfl)
  rwa [bind_pure] at hswap

theorem SplitAlike.swap_right {m m' : Walk Branches} (h : SplitAlike L negated m m') :
    SplitAlike L (!negated) m (m' >>= fun b => pure b.swap) := by
  have hswap : SplitAlike L (!negated) (m >>= pure) (m' >>= fun b => pure b.swap) :=
    h.bind fun b b' hb => agrees_pure (by rw [hb]; cases negated <;> rfl)
  rwa [bind_pure] at hswap

section Comparison

variable (hL : ∀ f, L (n, f) (n', f))

include hL

theorem agrees_settled {P : Branches → Branches → Prop} {o o' : Outcome}
    {f f' : Value → Walk Branches} (hfindings : o'.findings = o.findings)
    (h : Agrees L P (f o.value) (f' o'.value)) :
    Agrees L P (o.settle n >>= f) (o'.settle n' >>= f') := by
  have hsettle : Agrees L (fun v v' => v = o.value ∧ v' = o'.value) (o.settle n)
      (o'.settle n') := by
    unfold Outcome.settle
    rw [hfindings]
    exact (agrees_report hL).andThen fun _ => agrees_pure ⟨rfl, rfl⟩
  refine hsettle.bind ?_
  rintro _ _ ⟨rfl, rfl⟩
  exact h

theorem splitAlike_comparison (hb : below.Agree L below') :
    SplitAlike L negated (below.comparison ctx n rel l r s)
      (below'.comparison ctx n' (rel.withOutcome !negated) l r s) := by
  refine (hb.expr l s).andThen fun ⟨v, s⟩ => ?_
  refine (hb.expr r s).andThen fun ⟨w, s⟩ => ?_
  cases negated with
  | false =>
    show Agrees L _ _ ((v.test rel w).settle n' >>= _)
    refine agrees_settled hL rfl ?_
    rcases (v.test rel w).value.flags? with _ | ⟨t, f⟩
    · exact agrees_pure rfl
    · exact agrees_pure rfl
  | true =>
    obtain ⟨hfindings, hflags⟩ := v.test_negation w rel
    show Agrees L _ _ ((v.test rel.negation w).settle n' >>= _)
    refine agrees_settled hL hfindings ?_
    rw [hflags]
    rcases (v.test rel w).value.flags? with _ | ⟨t, f⟩
    · exact agrees_pure rfl
    · refine agrees_pure ?_
      simp [Branches.swapIf, Branches.swap, Relation.withOutcome, rel.negation_negation]

end Comparison

theorem splitAlike_shortCircuit (b : Bool)
    (hl : ∀ s, SplitAlike L negated (below.cond l s) (below'.cond l' s))
    (hr : ∀ s, SplitAlike L negated (below.cond r s) (below'.cond r' s))
    (hwrite : ctx.tree.mayWrite r' = ctx.tree.mayWrite r) :
    SplitAlike L negated (below.shortCircuit ctx b l r s)
      (below'.shortCircuit ctx (b ^^ negated) l' r' s) := by
  have hconjoin : ctx.tree.conjoin r' = ctx.tree.conjoin r := by
    funext left right
    rw [Tree.conjoin, Tree.conjoin, hwrite]
  -- the swapped operand has on the other branch what the operand has on this one
  have hback : ∀ c : Bool, ((c ^^ negated) ^^ negated) = c := by
    intro c
    rw [Bool.xor_assoc, Bool.xor_self, Bool.xor_false]
  have hother : (!(b ^^ negated)) = (!b ^^ negated) := (Bool.not_xor b negated).symm
  refine (hl s).bind fun left left' hleft => ?_
  rw [hleft, Branches.on_swapIf, Branches.on_swapIf, hother, hback, hback]
  refine (hr (left.on b)).bind fun right right' hright => ?_
  rw [hright, Branches.on_swapIf, Branches.on_swapIf, hback, hback, hconjoin]
  exact agrees_pure (Branches.swapIf_ofOutcome negated b _ _).symm

end Evaluators

namespace Context

open Evaluators Walk

variable {ctx : Context} {L : Located → Located → Prop} {negated : Bool} {n n' : NodeId}
  {s : State} {depth depth' : Nat}

theorem splitAlike_of_live (h : s.unreachable = false → SplitAlike L negated
      ((ctx.evaluators depth).cond n s) ((ctx.evaluators depth').cond n' s)) :
    SplitAlike L negated ((ctx.evaluators depth).cond n s) ((ctx.evaluators depth').cond n' s) := by
  cases hs : s.unreachable with
  | false => exact h hs
  | true =>
    cases depth with
    | zero => exact agrees_throw_left _ _
    | succ depth =>
      cases depth' with
      | zero => exact agrees_throw_right _ _
      | succ depth' =>
        rw [ctx.cond_succ, ctx.cond_succ, Tree.visit_of_dead hs, Tree.visit_of_dead hs]
        refine agrees_pure ?_
        cases negated <;> rfl

section Live

variable {e e' : Expr} {m : Walk Branches} (hlive : s.unreachable = false)

include hlive

theorem splitAlike_left (he : ctx.tree.expr n = .ok e)
    (h : ∀ depth, SplitAlike L negated ((ctx.evaluators depth).condOf ctx n s e) m) :
    SplitAlike L negated ((ctx.evaluators depth).cond n s) m := by
  cases depth with
  | zero => exact agrees_throw_left _ _
  | succ depth =>
    rw [ctx.cond_succ, Tree.visit_of_ok hlive he]
    exact h depth

theorem splitAlike_right (he : ctx.tree.expr n = .ok e)
    (h : ∀ depth, SplitAlike L negated m ((ctx.evaluators depth).condOf ctx n s e)) :
    SplitAlike L negated m ((ctx.evaluators depth).cond n s) := by
  cases depth with
  | zero => exact agrees_throw_right _ _
  | succ depth =>
    rw [ctx.cond_succ, Tree.visit_of_ok hlive he]
    exact h depth

theorem splitAlike_both (he : ctx.tree.expr n = .ok e) (he' : ctx.tree.expr n' = .ok e')
    (h : ∀ depth depth', SplitAlike L negated ((ctx.evaluators depth).condOf ctx n s e)
      ((ctx.evaluators depth').condOf ctx n' s e')) :
    SplitAlike L negated ((ctx.evaluators depth).cond n s) ((ctx.evaluators depth').cond n' s) :=
  splitAlike_left hlive he fun depth => splitAlike_right hlive he' (h depth)

end Live

/-- Pushing negations inward swaps the branches of a negated condition and changes nothing else. -/
theorem splitAlike_pushed (hacyclic : ctx.tree.Acyclic)
    (h : ctx.tree.PushesNegation negated n n') (depth depth' : Nat) (s : State) :
    SplitAlike ctx.tree.SameFinding negated ((ctx.evaluators depth).cond n s)
      ((ctx.evaluators depth').cond n' s) := by
  have hagree : ∀ depth depth', (ctx.evaluators depth).Agree ctx.tree.SameFinding
      (ctx.evaluators depth') := Reporting.agree_evaluators ctx.tree.sameFinding_refl
  -- along the rules, for all depths at once: `!!a` stands two levels above the `a` it becomes
  induction h generalizing depth depth' s with
  | keep n => exact .of_agrees ((hagree depth depth').cond n s)
  | negate he =>
    refine splitAlike_of_live fun hlive => splitAlike_right hlive he fun depth' => ?_
    exact (SplitAlike.of_agrees ((hagree depth depth').cond _ s)).swap_right
  | compare he he' =>
    refine splitAlike_of_live fun hlive => splitAlike_both hlive he he' fun depth depth' => ?_
    exact splitAlike_comparison (fun f => ⟨rfl, .inr ⟨_, _, _, _, he, he'⟩⟩) (hagree depth depth')
  | not he _ ih =>
    refine splitAlike_of_live fun hlive => splitAlike_left hlive he fun depth => ?_
    exact (ih depth depth' s).swap_left
  | @and negated _ _ _ _ _ _ he he' _ hr ihl ihr =>
    refine splitAlike_of_live fun hlive => splitAlike_both hlive he he' fun depth depth' => ?_
    -- `&&` and `||` are the two short circuits by definition
    have hsplit := splitAlike_shortCircuit (s := s) true (ihl depth depth') (ihr depth depth')
      (hr.mayWrite_eq hacyclic)
    cases negated <;> exact hsplit
  | @or negated _ _ _ _ _ _ he he' _ hr ihl ihr =>
    refine splitAlike_of_live fun hlive => splitAlike_both hlive he he' fun depth depth' => ?_
    have hsplit := splitAlike_shortCircuit (s := s) false (ihl depth depth') (ihr depth depth')
      (hr.mayWrite_eq hacyclic)
    cases negated <;> exact hsplit

end Context

/-- If a condition can be split on before and after negations are pushed inward, both ways leave the
same branches, and report the same findings in the same order: only a comparison that was turned
into its opposite may stand at another node. -/
theorem splitting_survives_pushing_negation (ctx : Context) (hacyclic : ctx.tree.Acyclic)
    {n n' : NodeId} (h : ctx.tree.PushesNegation false n n') {S : State} {depth depth' : Nat}
    {σ σ' τ τ' : Session} {B B' : Branches}
    (hB : (ctx.evaluators depth).cond n S σ = .ok B τ)
    (hB' : (ctx.evaluators depth').cond n' S σ' = .ok B' τ') :
    B'.whenTrue = B.whenTrue ∧ B'.whenFalse = B.whenFalse ∧
      ∃ fs fs', ((ctx.evaluators depth).cond n S).Emits B fs ∧
        ((ctx.evaluators depth').cond n' S).Emits B' fs' ∧
        List.Forall₂ ctx.tree.SameFinding fs fs' := by
  obtain ⟨hsame, reports⟩ := Context.splitAlike_pushed hacyclic h depth depth' S hB hB'
  have hbranches : B' = B := hsame
  exact ⟨congrArg _ hbranches, congrArg _ hbranches, reports⟩

/-- `!(level < 5 || limit > 0)`, and after that `level >= 5 && limit <= 0`. -/
def neither : Tree where
  nodes := #[.expr (.name ⟨0⟩), .expr (.literal (.int 5)), .expr (.compare .lt ⟨0⟩ ⟨1⟩),
    .expr (.name ⟨1⟩), .expr (.literal (.int 0)), .expr (.compare .gt ⟨3⟩ ⟨4⟩),
    .expr (.or ⟨2⟩ ⟨5⟩), .expr (.unary .not ⟨6⟩), .expr (.compare .ge ⟨0⟩ ⟨1⟩),
    .expr (.compare .le ⟨3⟩ ⟨4⟩), .expr (.and ⟨8⟩ ⟨9⟩)]
  decls := #[⟨"level", .primitive .int, [], .var⟩, ⟨"limit", .boxed .int, [], .var⟩]

def neither.entry : State := (State.initial.set ⟨0⟩ (.intRange 0 9)).set ⟨1⟩ .null

def neither.split (n : NodeId) : Walk Branches :=
  (Context.evaluators ⟨neither, {}, none, []⟩ 12).cond n neither.entry

theorem neither_pushed : neither.PushesNegation false ⟨7⟩ ⟨10⟩ := by
  have hand : neither.expr ⟨10⟩ = .ok (if true then .and ⟨8⟩ ⟨9⟩ else .or ⟨8⟩ ⟨9⟩) := rfl
  exact .not rfl (.or rfl hand (.compare rfl rfl) (.compare rfl rfl))

/-- Either way the limit is found to be missing once the level is at least 5, which leaves the
levels below. -/
theorem neither_finds_missing_limit_either_way :
    neither.Acyclic ∧ neither.PushesNegation false ⟨7⟩ ⟨10⟩ ∧ ∃ B fs fs',
      (neither.split ⟨7⟩).Emits B fs ∧ (neither.split ⟨10⟩).Emits B fs' ∧
      List.Forall₂ neither.SameFinding fs fs' ∧ fs ≠ [] ∧ B.whenTrue.unreachable = true ∧
      B.whenFalse.get ⟨0⟩ = .intRange 0 4 := by
  have hdown : neither.Descending := by decide
  have hanswer : ∃ B τ, neither.split ⟨7⟩ {} = .ok B τ ∧ τ.report.entries.length = 1 ∧
      B.whenTrue.unreachable = true ∧ B.whenFalse.get ⟨0⟩ = .intRange 0 4 :=
    ⟨_, _, rfl, by decide +kernel, by decide +kernel, by decide +kernel⟩
  have hanswer' : ∃ B τ, neither.split ⟨10⟩ {} = .ok B τ := ⟨_, _, rfl⟩
  obtain ⟨B, τ, hok, hlength, hdead, hlevel⟩ := hanswer
  obtain ⟨B', τ', hok'⟩ := hanswer'
  obtain ⟨htrue, hfalse, fs, fs', hfs, hfs', hsame⟩ :=
    splitting_survives_pushing_negation ⟨neither, {}, none, []⟩ hdown.acyclic neither_pushed hok
      hok'
  obtain rfl : B' = B := by
    cases B
    cases B'
    cases htrue
    cases hfalse
    rfl
  refine ⟨hdown.acyclic, neither_pushed, B', fs, fs', hfs, hfs', hsame, ?_, hdead, hlevel⟩
  rintro rfl
  have hnothing := hok.symm.trans (hfs {})
  cases hnothing
  cases hlength

end ValueFlow

import ValueFlow.Proofs.Splitting.Operand

namespace ValueFlow

namespace Relation

variable {rel : Relation} {a b : Value} {x y : Concrete}

theorem canHold_of_holds (h : rel.Holds x y) : rel.CanHold a b x y := by
  cases rel with
  | ne =>
    unfold CanHold
    simp only
    split
    · exact h
    · exact fun hnull => h.2.1 hnull.1
  | _ => exact h

theorem canHold_converse (h : rel.CanHold a b x y) : rel.converse.CanHold b a y x := by
  cases rel with
  | ne =>
    unfold CanHold at h ⊢
    simp only [converse, Bool.or_comm b.isPrimitive] at h ⊢
    split at h
    · rename_i hprimitive
      rw [if_pos hprimitive]
      exact ⟨h.1.symm, h.2.2, h.2.1⟩
    · rename_i hreferences
      rw [if_neg hreferences]
      exact fun hnull => h ⟨hnull.2, hnull.1⟩
  | _ =>
    simp only [CanHold] at h
    exact holds_converse h

/-- Of references, only two nulls are sure to be equal. -/
theorem canHold_of_compares {c : Bool} (h : rel.Compares x y c) (ha : a.isPrimitive = false)
    (hb : b.isPrimitive = false) : (rel.withOutcome c).CanHold a b x y := by
  have hne : x.MayEqual y false → CanHold .ne a b x y := by
    intro h
    unfold CanHold
    simp only [ha, hb, Bool.or_false, Bool.false_eq_true, if_false]
    rintro ⟨rfl, rfl⟩
    rcases h with h | h
    · exact h rfl
    · cases h
  cases rel with
  | eq =>
    cases c with
    | true => exact h
    | false => exact hne h
  | ne =>
    cases c with
    | true => exact hne h
    | false => exact h
  | lt | le | gt | ge => exact h.elim

end Relation

theorem Value.flags?_test_of_canHold {rel : Relation} {a b : Value} {x y : Concrete} {c : Bool}
    (h : (rel.withOutcome c).CanHold a b x y) (hx : x ∈ a) (hy : y ∈ b) :
    ∃ t f, (a.test rel b).value.flags? = some (t, f) ∧ (if c then t else f) = true := by
  have hmem : .bool c ∈ ofFlags (!(a.restrict rel b).isEmpty)
      (!(a.restrict rel.negation b).isEmpty) := by
    have hkept := isEmpty_eq_false (mem_restrict_of_canHold h hx hy)
    cases c with
    | true => exact mem_ofFlags.2 (.inl ⟨congrArg (!·) hkept, rfl⟩)
    | false => exact mem_ofFlags.2 (.inr ⟨congrArg (!·) hkept, rfl⟩)
  have heither : rel.CanHold a b x y ∨ rel.negation.CanHold a b x y := by
    cases c with
    | true => exact .inl h
    | false => exact .inr h
  rw [test_of_canHold heither hx hy]
  have hflags := flags?_of_mem_ofFlags hmem
  exact ⟨_, _, hflags, flag_of_mem hflags hmem⟩

theorem Tree.mem_conjoin_of_extends {t : Tree} {n : NodeId} {L R : State} {s : Store}
    (hL : L.WellFormedWithin lengths) (hs : s ∈ L)
    (hR : ∀ u : Store, u.Extends s → u ∈ L → u ∈ R) : s ∈ t.conjoin n L R := by
  have hsR : s ∈ R := hR s (fun _ _ h => h) hs
  unfold Tree.conjoin
  rw [hs.1, hsR.1]
  simp only [Bool.or_false, Bool.false_eq_true, if_false]
  split
  · exact hsR
  · exact State.mem_intersect_of_extends hL hs hR

/-- Each store of `S` is found on every branch that the outcome may take in it. -/
structure Tree.Splits (t : Tree) (S : State) (outcome : Store → Bool → Prop) (B : Branches) :
    Prop where
  suits : ∀ b, t.Suits (B.on b)
  keeps : ∀ s b, outcome s b → s ∈ S → s ∈ B.on b

namespace Context

variable {ctx : Context} {depth : Nat} {n p q : NodeId} {S : State} {s : Store} {rel : Relation}
  {kind : Value → Prop} {f g : Store → Option Concrete} {outcome : Store → Bool → Prop}

theorem splits_dead (h : ∀ s b, outcome s b → s ∉ S) : ctx.tree.Splits S outcome .dead where
  suits b := by cases b <;> exact .dead
  keeps s b hb hs := absurd hs (h s b hb)

theorem answers_cond {e : Expr} (he : ctx.tree.expr n = .ok e)
    (h : ((ctx.evaluators depth).condOf ctx n S e).Answers (ctx.tree.Splits S outcome)) :
    ((ctx.evaluators (depth + 1)).cond n S).Answers (ctx.tree.Splits S outcome) := by
  rw [ctx.cond_succ]
  refine Walk.answers_visit he (fun hdead => splits_dead fun s b _ hs => ?_) h
  exact absurd (hdead.symm.trans hs.1) (by simp)

section Comparison

variable {below : Evaluators} {a b : Value} (hl : ctx.Operand below kind p f)
  (hr : ctx.Operand below kind q g)

include hl hr

theorem suits_assume (hrestrict : ∀ rel a b, kind a → kind b → kind (a.restrict rel b))
    (hS : ctx.tree.Suits S) (ha : a.WellFormedWithin lengths) (hb : b.WellFormedWithin lengths)
    (hka : kind a) (hkb : kind b) : ctx.tree.Suits (ctx.assume rel p q a b S) := by
  unfold assume
  refine hr.suits ?_ (Value.wf_restrict _ hb ha) (hrestrict _ _ _ hkb hka)
  split
  · exact hS
  · exact hl.suits hS (Value.wf_restrict _ ha hb) (hrestrict _ _ _ hka hkb)

theorem mem_assume_of_canHold {x y : Concrete} (h : rel.CanHold a b x y) (hx : f s = some x)
    (hy : g s = some y) (hxa : x ∈ a) (hyb : y ∈ b) (hs : s ∈ S) :
    s ∈ ctx.assume rel p q a b S := by
  unfold assume
  refine hr.keeps hy (Value.mem_restrict_of_canHold (Relation.canHold_converse h) hyb hxa) ?_
  split
  · exact hs
  · exact hl.keeps hx (Value.mem_restrict_of_canHold h hxa hyb) hs

/-- A comparison of two operands keeps the store on the side that the comparison can take. -/
theorem answers_comparison (hrestrict : ∀ rel a b, kind a → kind b → kind (a.restrict rel b))
    (hcan : ∀ s c, outcome s c → ∃ x y, f s = some x ∧ g s = some y ∧
      ∀ a b, kind a → kind b → (rel.withOutcome c).CanHold a b x y)
    (hS : ctx.tree.Suits S) :
    (below.comparison ctx n rel p q S).Answers (ctx.tree.Splits S outcome) := by
  refine (hl.answers hS).bind ?_
  rintro ⟨a, S₁⟩ ha
  refine (hr.answers ha.suits).bind ?_
  rintro ⟨b, S₂⟩ hb
  refine (Walk.answers_settle _ n).bind fun w hw => ?_
  subst hw
  have hsuits : ∀ rel, ctx.tree.Suits (ctx.assume rel p q a b S₂) := fun rel =>
    suits_assume hl hr hrestrict hb.suits ha.wellFormed hb.wellFormed ha.ofKind hb.ofKind
  -- the operands' values are known now; a store that takes a branch belongs to both of them
  have hmem : ∀ s c, outcome s c → s ∈ S → s ∈ ctx.assume (rel.withOutcome c) p q a b S₂ ∧
      ∃ t f, (a.test rel b).value.flags? = some (t, f) ∧ (if c then t else f) = true := by
    intro s c hc hs
    obtain ⟨x, y, hx, hy, hcan⟩ := hcan s c hc
    have hcan := hcan a b ha.ofKind hb.ofKind
    obtain ⟨hxa, hs₁⟩ := ha.keeps s x hx hs
    obtain ⟨hyb, hs₂⟩ := hb.keeps s y hy hs₁
    exact ⟨mem_assume_of_canHold hl hr hcan hx hy hxa hyb hs₂,
      Value.flags?_test_of_canHold hcan hxa hyb⟩
  cases hflags : (a.test rel b).value.flags? with
  | none =>
    refine Walk.answers_pure (splits_dead fun s c hc hs => ?_)
    obtain ⟨-, t, f, htest, -⟩ := hmem s c hc hs
    cases hflags.symm.trans htest
  | some flags =>
    refine Walk.answers_pure ⟨fun c => ?_, fun s c hc hs => ?_⟩
    · cases c
      · exact (hsuits _).killUnless _
      · exact (hsuits _).killUnless _
    · obtain ⟨hs', t, f, htest, hflag⟩ := hmem s c hc hs
      cases hflags.symm.trans htest
      cases c with
      | true => exact State.mem_killUnless hs' hflag
      | false => exact State.mem_killUnless hs' hflag

end Comparison

theorem splits_truth {d : DeclId} {v : Value} (hreads : ctx.tree.Reads n Ty.isBoolean d)
    (hS : ctx.tree.Suits S) (hv : v.WellFormedWithin lengths)
    (hmem : ∀ s b, s d = some (.bool b) → s ∈ S → .bool b ∈ v) :
    ctx.tree.Splits S (fun s b => s d = some (.bool b)) (Evaluators.truth ctx n v S) := by
  -- a variable declared as a boolean is none of those that hold references only
  have hassume : ∀ b, ctx.tree.Suits (ctx.assumeBool n v b S) := by
    intro b
    unfold assumeBool
    rw [hreads.1]
    refine hS.set (Value.wf_restrictEqual hv (Value.wf_ofFlags b (!b))) fun href => ?_
    exact absurd href (hreads.2.not_other fun h => Ty.not_plain (.inr h))
  constructor
  · intro b
    unfold Evaluators.truth
    split
    · cases b <;> exact .dead
    · cases b <;> exact (hassume _).killUnless _
  · intro s b hb hs
    refine mem_truth (fun e he => ?_) hs (hmem s b hb hs)
    cases hreads.1.symm.trans he
    exact hb

theorem answers_flag {d : DeclId} (hreads : ctx.tree.Reads n Ty.isBoolean d)
    (hS : ctx.tree.Suits S) : ((ctx.evaluators (depth + 1)).cond n S).Answers
      (ctx.tree.Splits S fun s b => s d = some (.bool b)) := by
  obtain ⟨e, he⟩ := Tree.expr_of_variableOf hreads.1
  obtain ⟨decl, hdecl, -⟩ := hreads.2
  have hjudged : (ctx.evaluators depth).condOf ctx n S e =
      (ctx.evaluators depth).judged ctx n S e := by
    rcases Tree.variableOf_cases hreads.1 with h | h | ⟨_, h, -⟩ <;> cases he.symm.trans h <;> rfl
  refine answers_cond he ?_
  rw [hjudged, Evaluators.judged, exprOf_of_variableOf hreads.1 hdecl he]
  refine Walk.answers_pure (splits_truth hreads hS (hS.wf_read decl) fun s b hb hs => ?_)
  obtain ⟨v, hv, hmem⟩ := hs.2 d _ hb
  rw [hv]
  exact hmem

/-- The right operand is judged on the branch `c` of the left one, and both meet there. -/
theorem splits_shortCircuit {c : Bool} {left right : Store → Bool → Prop} {L R B : Branches}
    (hL : ctx.tree.Splits S left L) (hR : ctx.tree.Splits (L.on c) right R)
    (hextends : ∀ {s u : Store} {b : Bool}, u.Extends s → right s b → right u b)
    (hmeet : B.on c = ctx.tree.conjoin q (L.on c) (R.on c))
    (hjoin : B.on (!c) = (L.on !c).merge (R.on !c)) :
    ctx.tree.Splits S (fun s b => (b = !c ∧ left s !c) ∨ (left s c ∧ right s b)) B := by
  constructor
  · intro b
    rcases Bool.eq_or_eq_not b c with rfl | rfl
    · rw [hmeet]
      exact (hL.suits b).conjoin (hR.suits b) q
    · rw [hjoin]
      exact (hL.suits _).merge (hR.suits _)
  · rintro s b (⟨rfl, hleft⟩ | ⟨hleft, hright⟩) hs
    · rw [hjoin]
      exact State.mem_merge_left (hL.keeps s _ hleft hs)
    · have hs₁ := hL.keeps s c hleft hs
      rcases Bool.eq_or_eq_not b c with rfl | rfl
      · rw [hmeet]
        -- the right operand comes out alike in a larger store, so the two states do not clash
        exact Tree.mem_conjoin_of_extends (hL.suits b).wellFormed hs₁ fun u hu hu₁ =>
          hR.keeps u b (hextends hu hright) hu₁
      · rw [hjoin]
        exact State.mem_merge_right (hR.keeps s _ hright hs₁)

/-- A guard that a tree spells out is split on without fail, if the walk goes deep enough. -/
theorem answers_guard {g : Guard} (h : ctx.tree.Spells n g) (hdepth : ctx.tree.Within depth n)
    (hS : ctx.tree.Suits S) :
    ((ctx.evaluators depth).cond n S).Answers (ctx.tree.Splits S (g.ComesOut ·)) := by
  -- along the spelling, not along the depth: a node may be shared, and its depth differs then
  induction h generalizing depth S with
  | flag hreads =>
    obtain ⟨depth, rfl⟩ := hdepth.exists_succ
    exact answers_flag hreads hS
  | numbers he hl hr =>
    obtain ⟨depth, rfl⟩ := hdepth.exists_succ
    have hleft := operand_measure hl (hdepth.of_expr he (by simp [Expr.children]))
    have hright := operand_measure hr (hdepth.of_expr he (by simp [Expr.children]))
    refine answers_cond he (answers_comparison hleft hright (fun _ _ _ _ _ => trivial) ?_ hS)
    rintro s c ⟨m, k, hm, hk, hholds⟩
    refine ⟨.number m, .number k, by rw [hm]; rfl, by rw [hk]; rfl, fun _ _ _ _ => ?_⟩
    exact Relation.canHold_of_holds (Relation.holds_withOutcome (congrArg some hholds))
  | references he _ hl hr =>
    obtain ⟨depth, rfl⟩ := hdepth.exists_succ
    obtain ⟨depth, rfl⟩ := (hdepth.of_expr he (List.mem_cons_self ..)).exists_succ
    refine answers_cond he (answers_comparison (operand_reference hl) (operand_reference hr)
      (fun rel _ _ ha hb => Value.isPrimitive_restrict ha hb rel) ?_ hS)
    rintro s c ⟨x, y, hx, hy, hcompares⟩
    exact ⟨x, y, hx, hy, fun _ _ ha hb => Relation.canHold_of_compares hcompares ha hb⟩
  | not he _ ih =>
    obtain ⟨depth, rfl⟩ := hdepth.exists_succ
    refine answers_cond he ?_
    refine (ih (hdepth.of_expr he (by simp [Expr.children])) hS).bind fun B hB => ?_
    refine Walk.answers_pure ⟨fun b => ?_, fun s b hb hs => ?_⟩
    · rw [Branches.on_swap]
      exact hB.suits _
    · rw [Branches.on_swap]
      exact hB.keeps s _ hb hs
  | and he _ _ ihl ihr =>
    obtain ⟨depth, rfl⟩ := hdepth.exists_succ
    refine answers_cond he ?_
    refine (ihl (hdepth.of_expr he (by simp [Expr.children])) hS).bind fun L hL => ?_
    refine (ihr (hdepth.of_expr he (by simp [Expr.children])) (hL.suits true)).bind fun R hR => ?_
    exact Walk.answers_pure (splits_shortCircuit hL hR (fun hu => .extends hu) rfl rfl)
  | or he _ _ ihl ihr =>
    obtain ⟨depth, rfl⟩ := hdepth.exists_succ
    refine answers_cond he ?_
    refine (ihl (hdepth.of_expr he (by simp [Expr.children])) hS).bind fun L hL => ?_
    refine (ihr (hdepth.of_expr he (by simp [Expr.children])) (hL.suits false)).bind fun R hR => ?_
    exact Walk.answers_pure (splits_shortCircuit hL hR (fun hu => .extends hu) rfl rfl)

end Context

/-- Splitting a state on a guard answers from every session, and each store of the state is found on
the branch that the guard takes in it: a branch that can be taken stays reachable, and no narrowing
excludes what a variable holds. -/
theorem guard_keeps_store_on_branch_taken (ctx : Context) {n : NodeId} {g : Guard} {S : State}
    (hg : ctx.tree.Spells n g) (hS : ctx.tree.Suits S) {depth : Nat}
    (hdepth : ctx.tree.size < depth) (σ : Session) :
    ∃ B τ, (ctx.evaluators depth).cond n S σ = .ok B τ ∧ ∀ s ∈ S,
      (g.ComesOut s true → s ∈ B.whenTrue) ∧ (g.ComesOut s false → s ∈ B.whenFalse) := by
  obtain ⟨B, τ, hok, hB⟩ := Context.answers_guard hg (hg.within.mono hdepth) hS σ
  exact ⟨B, τ, hok, fun s hs => ⟨(hB.keeps s true · hs), (hB.keeps s false · hs)⟩⟩

/-- `text != null && !(text.length() > limit)` -/
def withinLimit : Tree where
  nodes := #[.expr (.name ⟨0⟩), .expr (.literal .null), .expr (.compare .ne ⟨0⟩ ⟨1⟩),
    .expr (.name ⟨0⟩), .expr (.length ⟨3⟩), .expr (.name ⟨1⟩), .expr (.compare .gt ⟨4⟩ ⟨5⟩),
    .expr (.unary .not ⟨6⟩), .expr (.and ⟨2⟩ ⟨7⟩)]
  decls := #[⟨"text", .string, [], .param⟩, ⟨"limit", .primitive .int, [], .param⟩]

def withinLimit.guard : Guard :=
  .and (.references .ne (.name ⟨0⟩) .null) (.not (.numbers .gt (.length ⟨0⟩) (.name ⟨1⟩)))

def withinLimit.text : Value := .str (.saturated 0 10 (by decide)) true

def withinLimit.entry : State := (State.initial.set ⟨1⟩ (.intRange 0 5)).set ⟨0⟩ withinLimit.text

def withinLimit.store (text : Concrete) : Store := fun d =>
  if d = ⟨0⟩ then some text else if d = ⟨1⟩ then some (.number 3) else none

/-- A text of two characters is found where the guard holds, null where it does not. -/
theorem withinLimit_keeps_text_and_null :
    withinLimit.Spells ⟨8⟩ withinLimit.guard ∧ withinLimit.Suits withinLimit.entry ∧
    ∃ B τ, (Context.evaluators ⟨withinLimit, {}, none, []⟩ 10).cond ⟨8⟩ withinLimit.entry {} =
        .ok B τ ∧
      withinLimit.store (.str 0 2) ∈ B.whenTrue ∧ withinLimit.store .null ∈ B.whenFalse := by
  have hspells : withinLimit.Spells ⟨8⟩ withinLimit.guard := by
    refine .and rfl (.references rfl rfl (.name ⟨rfl, _, rfl, rfl⟩) (.null rfl)) ?_
    exact .not rfl (.numbers rfl (.length rfl ⟨rfl, _, rfl, rfl⟩) (.name ⟨rfl, _, rfl, rfl⟩))
  have hsuits : withinLimit.Suits withinLimit.entry := by
    have hinitial : withinLimit.Suits State.initial :=
      ⟨fun _ _ h => (by cases h), fun _ _ h => (by cases h)⟩
    have hlimit : (Value.intRange 0 5).WellFormedWithin lengths := trivial
    have htext : withinLimit.text.WellFormedWithin lengths := rfl
    refine (hinitial.set hlimit ?_).set htext fun _ => rfl
    rintro ⟨decl, hdecl, hty⟩
    cases hdecl
    cases hty
  have hmem : ∀ x ∈ withinLimit.text, withinLimit.store x ∈ withinLimit.entry := by
    refine fun x hx => ⟨rfl, fun d y hy => ?_⟩
    unfold withinLimit.store at hy
    split at hy
    · rename_i hd
      subst hd
      cases hy
      exact ⟨_, rfl, hx⟩
    · split at hy
      · rename_i hd
        subst hd
        cases hy
        exact ⟨_, rfl, 3, by decide, rfl⟩
      · cases hy
  have hsize : withinLimit.size < 10 := by decide
  obtain ⟨B, τ, hok, hB⟩ := guard_keeps_store_on_branch_taken ⟨withinLimit, {}, none, []⟩ hspells
    hsuits hsize {}
  have htext := hB _ (hmem (.str 0 2) (.inr ⟨0, 2, by decide, rfl⟩))
  have hnull := hB _ (hmem .null (.inl ⟨rfl, rfl⟩))
  refine ⟨hspells, hsuits, B, τ, hok, htext.1 (.inr ⟨?_, ?_⟩), hnull.2 (.inl ⟨rfl, ?_⟩)⟩
  · exact ⟨_, _, rfl, rfl, .inl (by decide)⟩
  · exact ⟨2, 3, rfl, rfl, by decide⟩
  · exact ⟨_, _, rfl, rfl, rfl⟩

end ValueFlow

import ValueFlow.Proofs.Fault
import ValueFlow.Proofs.Guard
import ValueFlow.Proofs.Splitting.Suits

namespace ValueFlow

/-- From every session the step goes on, and `Q` holds of what it answers. -/
def Walk.Answers {α : Type} (m : Walk α) (Q : α → Prop) : Prop := ∀ σ, ∃ a τ, m σ = .ok a τ ∧ Q a

namespace Walk

variable {α β : Type} {m : Walk α} {f : α → Walk β} {P : α → Prop} {Q : β → Prop}

theorem answers_pure {a : α} (h : P a) : (pure a : Walk α).Answers P := fun σ => ⟨a, σ, rfl, h⟩

theorem Answers.bind (hm : m.Answers P) (hf : ∀ a, P a → (f a).Answers Q) :
    (m >>= f).Answers Q := by
  intro σ
  obtain ⟨a, τ, ha, hP⟩ := hm σ
  obtain ⟨b, ρ, hb, hQ⟩ := hf a hP τ
  exact ⟨b, ρ, (bind_of_ok ha).trans hb, hQ⟩

theorem answers_report (n : NodeId) (fs : List Finding) :
    (Walk.report n fs).Answers fun _ => True := fun _ => ⟨_, _, rfl, trivial⟩

theorem answers_settle (o : Outcome) (n : NodeId) : (o.settle n).Answers (· = o.value) :=
  fun _ => ⟨_, _, rfl, rfl⟩

theorem answers_visit {t : Tree} {n : NodeId} {s : State} {dead : α} {live : Expr → Walk α}
    {e : Expr} (he : t.expr n = .ok e) (hdead : s.unreachable = true → P dead)
    (h : (live e).Answers P) : (t.visit n s dead live).Answers P := by
  cases hs : s.unreachable with
  | false =>
    rw [Tree.visit_of_ok hs he]
    exact h
  | true =>
    rw [Tree.visit_of_dead hs]
    exact answers_pure (hdead hs)

end Walk

section Lengths

namespace Value

variable {v : Value} {x : Concrete} {k : Int} {l : Interval}

theorem mem_of_length? (hl : v.length? = some l) (hx : x ∈ v) (hk : x.length? = some k) :
    k ∈ l := by
  obtain ⟨kind, i, n, hkind, rfl⟩ | hnone := overLength_or_length?_eq_none v
  · cases hkind.length?.symm.trans hl
    obtain ⟨m, -, hm, hmem⟩ := hkind.mem_iff hx (by rintro rfl; cases hk)
    cases hm.symm.trans hk
    exact (hmem _ _).1 hx
  · cases hnone.symm.trans hl

theorem mem_withLength (hx : x ∈ v) (hk : x.length? = some k) (hl : k ∈ l) :
    x ∈ v.withLength (some l) := by
  obtain ⟨kind, i, n, hkind, rfl⟩ | hnone := overLength_or_length?_eq_none v
  · obtain ⟨m, hm, hxm, hmem⟩ := hkind.mem_iff hx (by rintro rfl; cases hk)
    cases hxm.symm.trans hk
    obtain ⟨c, hc, hkc⟩ := Interval.meet_isSome_of_mem hl hm
    show x ∈ (kind i n).withLength (some l)
    rw [hkind.withLength, hkind.mem_overLength]
    exact .inr ⟨c, hc, (hmem c n).2 hkc⟩
  · cases v <;> first | exact hx | cases hnone

end Value

theorem Concrete.mem_lengths_of_length? {x : Concrete} {k : Int} (h : x.length? = some k) :
    k ∈ lengths := by
  cases x with
  | str id m | array id m =>
    cases h
    exact Value.mem_lengths m
  | _ => cases h

theorem State.mem_narrowLength {S : State} {s : Store} {d : DeclId} {x : Concrete} {k : Int}
    {range : Interval} (hs : s ∈ S) (hd : s d = some x) (hk : x.length? = some k)
    (hrange : k ∈ range) : s ∈ S.narrowLength d range := by
  obtain ⟨v, hv, hx⟩ := hs.2 d x hd
  have hget : S.get d = v := by
    unfold State.get
    rw [if_neg (by simp [hs.1]), hv]
    rfl
  unfold State.narrowLength
  rw [hget]
  split
  · rename_i l hl
    obtain ⟨c, hc, hkc⟩ := Interval.meet_isSome_of_mem (Value.mem_of_length? hl hx hk) hrange
    have hx' : x ∈ v.withLength (l.meet range) := hc ▸ Value.mem_withLength hx hk hkc
    simp only [Value.isEmpty_eq_false hx', Bool.false_eq_true, if_false]
    exact State.mem_set_of_has hs hd hx'
  · exact hs

end Lengths

/-- What evaluation answers from `S` is well formed and of the kind, and stands for the operand's
value in each store of `S`. -/
structure Tree.Foresees (t : Tree) (kind : Value → Prop) (S : State)
    (meaning : Store → Option Concrete) (r : Value × State) : Prop where
  wellFormed : r.1.WellFormedWithin lengths
  ofKind : kind r.1
  suits : t.Suits r.2
  keeps : ∀ s x, meaning s = some x → s ∈ S → x ∈ r.1 ∧ s ∈ r.2

/-- The node can be evaluated from every state, and what a comparison leaves of it can be bound. -/
structure Context.Operand (ctx : Context) (below : Evaluators) (kind : Value → Prop) (n : NodeId)
    (meaning : Store → Option Concrete) : Prop where
  answers : ∀ {S : State}, ctx.tree.Suits S →
    (below.expr n S).Answers (ctx.tree.Foresees kind S meaning)
  suits : ∀ {S : State} {v : Value}, ctx.tree.Suits S → v.WellFormedWithin lengths → kind v →
    ctx.tree.Suits (ctx.narrow n v S)
  keeps : ∀ {S : State} {v : Value} {s : Store} {x : Concrete}, meaning s = some x → x ∈ v →
    s ∈ S → s ∈ ctx.narrow n v S

namespace Context

variable {ctx : Context} {depth : Nat} {n p q : NodeId} {S : State} {d : DeclId} {decl : Decl}
  {v : Value} {s : Store} {x : Concrete} {kind : Value → Prop} {meaning : Store → Option Concrete}

/-- In an unreachable state there is nothing to stand for. -/
theorem answers_expr {e : Expr} (he : ctx.tree.expr n = .ok e) (hS : ctx.tree.Suits S)
    (hempty : kind .empty)
    (h : ((ctx.evaluators depth).exprOf ctx n S e).Answers (ctx.tree.Foresees kind S meaning)) :
    ((ctx.evaluators (depth + 1)).expr n S).Answers (ctx.tree.Foresees kind S meaning) := by
  rw [ctx.expr_succ]
  refine Walk.answers_visit he (fun hdead => ⟨trivial, hempty, hS, fun s x _ hs => ?_⟩) h
  exact absurd (hdead.symm.trans hs.1) (by simp)

section Plain

variable (hvar : ctx.tree.variableOf n = none)
  (hlength : ∀ target, ctx.tree.expr n ≠ .ok (.length target))

include hvar hlength

theorem suits_narrow_of_plain (hS : ctx.tree.Suits S) : ctx.tree.Suits (ctx.narrow n v S) := by
  unfold narrow
  rw [hvar]
  split
  · exact hS
  · split
    · exact hS.kill
    · split
      · contradiction
      · rename_i hexpr
        exact absurd hexpr (hlength _)
      · exact hS

theorem operand_of_plain {below : Evaluators} (h : ∀ {S : State}, ctx.tree.Suits S →
    (below.expr n S).Answers (ctx.tree.Foresees kind S meaning)) :
    ctx.Operand below kind n meaning where
  answers := h
  suits hS _ _ := suits_narrow_of_plain hvar hlength hS
  keeps _ hxv hs := mem_narrow hlength (by simp [hvar]) hs hxv

end Plain

section Variable

variable (hvar : ctx.tree.variableOf n = some d) (hdecl : ctx.tree.decl d = .ok decl)

include hvar hdecl

theorem exprOf_of_variableOf {e : Expr} (he : ctx.tree.expr n = .ok e) (below : Evaluators) :
    below.exprOf ctx n S e = pure ((S.lookup d).getD decl.initialValue, S) := by
  have hread : ctx.read d S = .ok ((S.lookup d).getD decl.initialValue) := by
    unfold read
    rw [hdecl]
    rfl
  have hfield : ∀ target, below.field ctx n target d S =
      pure ((S.lookup d).getD decl.initialValue, S) := by
    intro target
    unfold Evaluators.field
    rw [hdecl, hvar, hread]
    cases target <;> rfl
  rcases Tree.variableOf_cases hvar with hname | hown | ⟨target, hself, -⟩
  · cases he.symm.trans hname
    show (Walk.require (ctx.read d S) >>= fun v => pure (v, S)) = _
    rw [hread]
    rfl
  · cases he.symm.trans hown
    exact hfield none
  · cases he.symm.trans hself
    exact hfield (some target)

omit hdecl in
theorem suits_narrow_of_variableOf (hS : ctx.tree.Suits S) (hv : v.WellFormedWithin lengths)
    (href : ctx.tree.Declares Ty.isPlainReference d → v.isPrimitive = false) :
    ctx.tree.Suits (ctx.narrow n v S) := by
  unfold narrow
  rw [hvar]
  split
  · exact hS
  · split
    · exact hS.kill
    · exact hS.set hv href

theorem operand_of_variableOf (hempty : kind .empty)
    (hread : ∀ S, ctx.tree.Suits S → kind ((S.lookup d).getD decl.initialValue))
    (hbind : ∀ v, kind v → ctx.tree.Declares Ty.isPlainReference d → v.isPrimitive = false)
    (hmeaning : ∀ s x, meaning s = some x → s d = some x) :
    ctx.Operand (ctx.evaluators (depth + 1)) kind n meaning where
  answers := by
    intro S hS
    obtain ⟨e, he⟩ := Tree.expr_of_variableOf hvar
    refine answers_expr he hS hempty ?_
    rw [exprOf_of_variableOf hvar hdecl he]
    refine Walk.answers_pure ⟨hS.wf_read decl, hread S hS, hS, fun s x hx hs => ⟨?_, hs⟩⟩
    -- a variable that a store of the state has is tracked, so its declaration plays no part
    obtain ⟨v, hv, hxv⟩ := hs.2 d x (hmeaning s x hx)
    rw [hv]
    exact hxv
  suits hS hv hkind := suits_narrow_of_variableOf hvar hS hv (hbind _ hkind)
  keeps hx hxv hs := mem_narrow (Tree.expr_ne_length_of_variableOf hvar) (fun e he => by
    cases hvar.symm.trans he
    exact hmeaning _ _ hx) hs hxv

end Variable

section Operands

theorem operand_literal {l : Literal} (he : ctx.tree.expr n = .ok (.literal l))
    (hempty : kind .empty) (hwf : l.value.WellFormedWithin lengths) (hkind : kind l.value)
    (hmeaning : ∀ s x, meaning s = some x → x ∈ l.value) :
    ctx.Operand (ctx.evaluators (depth + 1)) kind n meaning := by
  refine operand_of_plain (by simp [Tree.variableOf, he]) (by simp [he]) fun hS => ?_
  refine answers_expr he hS hempty (Walk.answers_pure ⟨hwf, hkind, hS, fun s x hx hs => ?_⟩)
  exact ⟨hmeaning s x hx, hs⟩

theorem operand_arith {op : Arith} {l r : Measure} (he : ctx.tree.expr n = .ok (.arith op p q))
    (hop : op.isDivision = false)
    (hl : ctx.Operand (ctx.evaluators depth) (fun _ => True) p fun s => (l.eval? s).map .number)
    (hr : ctx.Operand (ctx.evaluators depth) (fun _ => True) q fun s => (r.eval? s).map .number) :
    ctx.Operand (ctx.evaluators (depth + 1)) (fun _ => True) n fun s =>
      ((Measure.arith op l r).eval? s).map .number := by
  refine operand_of_plain (by simp [Tree.variableOf, he]) (by simp [he]) fun hS => ?_
  refine answers_expr he hS trivial ?_
  refine (hl.answers hS).bind ?_
  rintro ⟨a, S₁⟩ ha
  refine (hr.answers ha.suits).bind ?_
  rintro ⟨b, S₂⟩ hb
  refine (Walk.answers_settle _ n).bind fun w hw => Walk.answers_pure ?_
  subst hw
  refine ⟨Value.wf_arith (by decide) op ha.wellFormed hb.wellFormed, trivial, hb.suits, ?_⟩
  intro s x hx hs
  obtain ⟨k, hk, rfl⟩ := Option.map_eq_some_iff.1 hx
  obtain ⟨i, hi, hk⟩ := Option.bind_eq_some_iff.1 hk
  obtain ⟨j, hj, hk⟩ := Option.bind_eq_some_iff.1 hk
  obtain ⟨hia, hs₁⟩ := ha.keeps s (.number i) (by rw [hi]; rfl) hs
  obtain ⟨hjb, hs₂⟩ := hb.keeps s (.number j) (by rw [hj]; rfl) hs₁
  refine ⟨(Value.mem_arith hk hia hjb).resolve_left ?_, hs₂⟩
  -- of two numbers only a division can go wrong
  rintro ⟨definite, hfault⟩
  obtain ⟨-, hdivision, -⟩ := Value.fault_arith_of_numbers
    (Value.carriesContent_of_wellFormed ha.wellFormed)
    (Value.carriesContent_of_wellFormed hb.wellFormed) hia hjb hfault
  rcases hdivision with rfl | rfl <;> cases hop

section Length

variable {e : NodeId} (hvar : ctx.tree.variableOf e = some d)

include hvar

theorem suits_afterDeref (hS : ctx.tree.Suits S) (hv : v.WellFormedWithin lengths)
    (href : v.isPrimitive = false) : ctx.tree.Suits (ctx.afterDeref e v S) := by
  unfold afterDeref
  rw [hvar]
  split
  · exact hS.set (Value.wf_withNullable false hv) fun _ => Value.isPrimitive_withNullable.trans href
  · exact hS

theorem mem_afterDeref (hs : s ∈ S) (hd : s d = some x) (hx : x ∈ v.withNullable false) :
    s ∈ ctx.afterDeref e v S := by
  unfold afterDeref
  rw [hvar]
  split
  · exact State.mem_set_of_has hs hd hx
  · exact hs

/-- A dereference keeps the stores in which there is something to dereference. -/
theorem answers_deref (hS : ctx.tree.Suits S)
    (htarget : ctx.Operand (ctx.evaluators depth) (·.isPrimitive = false) e fun s => s d) :
    ((ctx.evaluators depth).deref ctx n e S).Answers fun r => ctx.tree.Suits r.2 ∧
      ∀ s x, s d = some x → x ≠ .null → s ∈ S → x ∈ r.1 ∧ s ∈ r.2 := by
  refine (htarget.answers hS).bind ?_
  rintro ⟨v, S₁⟩ hv
  refine (Walk.answers_report n _).bind fun _ _ => Walk.answers_pure ?_
  refine ⟨suits_afterDeref hvar hv.suits hv.wellFormed hv.ofKind, fun s x hx hne hs => ?_⟩
  obtain ⟨hxv, hs₁⟩ := hv.keeps s x hx hs
  have hx' : x ∈ v.withNullable false := Value.mem_withNullable_of_mem hxv fun h => absurd h hne
  exact ⟨hx', mem_afterDeref hvar hs₁ hx hx'⟩

theorem narrow_of_length (he : ctx.tree.expr n = .ok (.length e)) :
    ctx.narrow n v S = if S.unreachable then S else if v.isEmpty then S.kill
      else v.range?.elim S (S.narrowLength d) := by
  have hnone : ctx.tree.variableOf n = none := by simp [Tree.variableOf, he]
  unfold narrow
  simp only [hnone, he, hvar]
  cases v.range? <;> rfl

/-- The length of a variable is an operand. What is left of it is bound to the variable. -/
theorem operand_length (he : ctx.tree.expr n = .ok (.length e))
    (htarget : ctx.Operand (ctx.evaluators depth) (·.isPrimitive = false) e fun s => s d) :
    ctx.Operand (ctx.evaluators (depth + 1)) (fun _ => True) n fun s =>
      ((Measure.length d).eval? s).map .number := by
  have hmeaning : ∀ {s : Store} {x : Concrete}, ((Measure.length d).eval? s).map .number = some x →
      ∃ y k, s d = some y ∧ y.length? = some k ∧ x = .number k := by
    intro s x hx
    obtain ⟨k, hk, rfl⟩ := Option.map_eq_some_iff.1 hx
    obtain ⟨y, hy, hk⟩ := Option.bind_eq_some_iff.1 hk
    exact ⟨y, k, hy, hk, rfl⟩
  constructor
  · intro S hS
    refine answers_expr he hS trivial ?_
    refine (answers_deref hvar hS htarget).bind ?_
    rintro ⟨v, S₁⟩ hv
    refine Walk.answers_pure ⟨?_, trivial, hv.1, fun s x hx hs => ?_⟩
    · dsimp only
      split <;> trivial
    · obtain ⟨y, k, hy, hk, rfl⟩ := hmeaning hx
      have hne : y ≠ .null := by
        rintro rfl
        cases hk
      obtain ⟨hyv, hs₁⟩ := hv.2 s y hy hne hs
      refine ⟨?_, hs₁⟩
      simp only [Value.isEmpty_eq_false hyv, Bool.false_eq_true, if_false]
      refine ⟨k, ?_, rfl⟩
      cases hl : v.length? with
      | none => exact Concrete.mem_lengths_of_length? hk
      | some l => exact Value.mem_of_length? hl hyv hk
  · intro S v hS _ _
    rw [narrow_of_length hvar he]
    split
    · exact hS
    · split
      · exact hS.kill
      · cases v.range? with
        | none => exact hS
        | some range => exact hS.narrowLength range
  · intro S v s x hx hxv hs
    obtain ⟨y, k, hy, hk, rfl⟩ := hmeaning hx
    rw [narrow_of_length hvar he, if_neg (by simp [hs.1]),
      if_neg (by simp [Value.isEmpty_eq_false hxv])]
    cases hrange : v.range? with
    | none => exact hs
    | some range => exact State.mem_narrowLength hs hy hk (Value.mem_of_range? hrange hxv)

end Length

end Operands

section Spelled

theorem operand_reference {e : Reference} (h : ctx.tree.SpellsReference n e) :
    ctx.Operand (ctx.evaluators (depth + 1)) (·.isPrimitive = false) n e.eval? := by
  cases h with
  | null he =>
    refine operand_literal he rfl trivial rfl fun s x hx => ?_
    cases hx
    rfl
  | name hreads =>
    obtain ⟨hvar, decl, hdecl, hty⟩ := hreads
    exact operand_of_variableOf hvar hdecl rfl (fun S hS => hS.isPrimitive_read hdecl hty)
      (fun v hv _ => hv) fun s x hx => hx

/-- What spells a number is an operand, if the walk goes deep enough. -/
theorem operand_measure {e : Measure} (h : ctx.tree.SpellsMeasure n e)
    (hdepth : ctx.tree.Within depth n) :
    ctx.Operand (ctx.evaluators depth) (fun _ => True) n fun s => (e.eval? s).map .number := by
  induction h generalizing depth with
  | literal he hcode =>
    obtain ⟨depth, rfl⟩ := hdepth.exists_succ
    refine operand_literal he trivial (Literal.wf_of_code? hcode) trivial fun s x hx => ?_
    obtain ⟨k, hk, rfl⟩ := Option.map_eq_some_iff.1 hx
    exact Literal.mem_value_of_code? hk
  | name hreads =>
    obtain ⟨depth, rfl⟩ := hdepth.exists_succ
    obtain ⟨decl, hdecl, -⟩ := hreads.2
    refine operand_of_variableOf hreads.1 hdecl trivial (fun _ _ => trivial) (fun v _ href => ?_) ?_
    · exact absurd href (hreads.2.not_other fun h => Ty.not_plain (.inl h))
    · intro s x hx
      obtain ⟨k, hk, rfl⟩ := Option.map_eq_some_iff.1 hx
      obtain ⟨y, hy, hk⟩ := Option.bind_eq_some_iff.1 hk
      cases y <;> cases hk
      exact hy
  | length he hreads =>
    obtain ⟨depth, rfl⟩ := hdepth.exists_succ
    have htarget := hdepth.of_expr he (List.mem_singleton.2 rfl)
    obtain ⟨depth, rfl⟩ := htarget.exists_succ
    have href := hreads.2.mono Ty.isPlainReference_of_hasLength
    exact operand_length hreads.1 he (operand_reference (.name ⟨hreads.1, href⟩))
  | arith he hop _ _ ihl ihr =>
    obtain ⟨depth, rfl⟩ := hdepth.exists_succ
    exact operand_arith he hop (ihl (hdepth.of_expr he (by simp [Expr.children])))
      (ihr (hdepth.of_expr he (by simp [Expr.children])))

end Spelled

end Context

end ValueFlow

import ValueFlow.Proofs.Invariant

namespace ValueFlow

def Literal.fits : Literal → Bool
  | str s => textLength s ≤ 2147483647
  | _ => true

/-- All texts of the tree, labels included, fit into strings. -/
def Tree.TextsFit (t : Tree) : Prop :=
  ∀ node ∈ t.nodes.toList, ∀ l ∈ node.literals, l.fits = true

instance (t : Tree) : Decidable t.TextsFit :=
  inferInstanceAs (Decidable (∀ node ∈ t.nodes.toList, ∀ l ∈ node.literals, l.fits = true))

theorem Literal.wf_of_fits {l : Literal} (h : l.fits = true) :
    l.value.WellFormedWithin lengths := by
  cases l with
  | int x => trivial
  | char code => exact Literal.wf_value (.char code)
  | bool b => exact Value.wf_ofFlags b (!b)
  | str s =>
    have hlength : textLength s ≤ 2147483647 := of_decide_eq_true h
    show lengths.includes (.point (textLength s)) = true
    rw [Interval.includes_iff]
    simp only [lengths, Interval.point, Interval.saturated, saturate, minInt, maxInt]
    omega
  | null => trivial

theorem Tree.TextsFit.wf_value {t : Tree} (h : t.TextsFit) {n : NodeId} {node : Node}
    {l : Literal} (hn : t.node n = .ok node) (hl : l ∈ node.literals) :
    l.value.WellFormedWithin lengths := by
  apply Literal.wf_of_fits
  unfold Tree.node at hn
  split at hn
  · rename_i hm
    cases hn
    exact h node (Array.mem_toList_iff.2 (Array.mem_of_getElem? hm)) l hl
  · cases hn

namespace Value

/-- The property is kept by everything the analysis does with values. -/
structure Closed (P : Value → Prop) : Prop where
  merge {a b : Value} : P a → P b → P (a.merge b)
  intersect {a b : Value} : P a → P b → P (a.intersect b)
  widen {a b : Value} : P a → P b → P (a.widen b)
  arith (op : Arith) {a b : Value} : P a → P b → P (a.arith op b).value
  negate {v : Value} : P v → P v.negate.value
  promote {v : Value} : P v → P v.promote.value
  complement {v : Value} : P v → P v.complement.value
  test (rel : Relation) {a b : Value} : P a → P b → P (a.test rel b).value
  restrict (rel : Relation) {a b : Value} : P a → P b → P (a.restrict rel b)
  withNullable (nullable : Bool) {v : Value} : P v → P (v.withNullable nullable)
  withLength (length : Option Interval) {v : Value} : P v → P (v.withLength length)
  narrow (c : Contract) {v : Value} : P v → P (c.narrow v)
  initialValue (ty : Ty) (contracts : List Contract) : P (ty.initialValue contracts)
  coerce (ty : Ty) {v : Value} : P v → P (ty.coerce v).value
  cast (ty : Ty) {v : Value} : P v → P (ty.cast v).value

theorem wf_test {limit : Interval} (rel : Relation) (a b : Value) :
    (test rel a b).value.WellFormedWithin limit := by
  unfold test
  split
  · trivial
  · split
    · trivial
    · exact wf_ofFlags _ _

theorem closed_wellFormed {limit : Interval} (hlimit : limit.includes lengths = true) :
    Closed (WellFormedWithin limit) where
  merge := wf_merge
  intersect := wf_intersect
  widen := wf_widen hlimit
  arith op _ _ := wf_arith hlimit op
  negate := wf_negate
  promote := wf_promote
  complement := wf_complement
  test rel a b _ _ := wf_test rel a b
  restrict rel _ _ := wf_restrict rel
  withNullable n _ := wf_withNullable n
  withLength l _ := wf_withLength hlimit l
  narrow c _ := wf_narrow hlimit c
  initialValue := wf_initialValue hlimit
  coerce ty _ := wf_convert ty .saturate
  cast ty _ := wf_convert ty .wrap

end Value

def wellFormedness : Invariant where
  value := Value.WellFormedWithin lengths
  state := State.WellFormedWithin lengths
  decl _ := True

theorem kept_wellFormedness (ctx : Context) (ht : ctx.tree.TextsFit) :
    wellFormedness.Kept ctx fun _ => True where
  value := Context.valueLaws_wellFormed (by decide)
  state := Context.stateLaws_wellFormed
  advance := wf_advance ctx (by decide)
  giveUp hs _ _ := State.wf_giveUp _ hs
  child _ _ _ := trivial
  mention _ _ _ := trivial
  literal _ := ht.wf_value

section EntryState

variable {s s' : State}

theorem State.wf_declare {d : DeclId} (decl : Decl) (hs : s.WellFormedWithin lengths) :
    (s.set d decl.initialValue).WellFormedWithin lengths :=
  wf_set hs (Value.wf_initialValue (by decide) _ _)

theorem State.wf_declareFields (fields : List (DeclId × Decl)) (hs : s.WellFormedWithin lengths) :
    (fields.foldl (fun s (d, decl) => s.set d decl.initialValue) s).WellFormedWithin lengths := by
  induction fields generalizing s with
  | nil => exact hs
  | cons x rest ih => exact ih (wf_declare x.2 hs)

theorem State.wf_declareParams (t : Tree) {params : List DeclId} (hs : s.WellFormedWithin lengths)
    (h : params.foldlM (fun s d => (t.decl d).map fun decl => s.set d decl.initialValue) s =
      .ok s') : s'.WellFormedWithin lengths := by
  induction params generalizing s with
  | nil =>
    cases h
    exact hs
  | cons d rest ih =>
    rw [List.foldlM_cons] at h
    cases hd : t.decl d with
    | error e =>
      rw [hd] at h
      cases h
    | ok decl =>
      rw [hd] at h
      exact ih (wf_declare decl hs) h

theorem Tree.wf_entryState (t : Tree) {m : Method} (h : t.entryState m = .ok s) :
    s.WellFormedWithin lengths := by
  have hinitial : State.initial.WellFormedWithin lengths := fun _ _ h => by cases h
  exact State.wf_declareParams t (State.wf_declareFields _ hinitial) h

end EntryState

/-- If the texts of a tree fit into strings, an analysis from well-formed values answers and traces
well-formed values only, whether it succeeds or fails on the way, and so does the analysis of a
method; and every operation on values keeps them well-formed. -/
theorem analysis_keeps_values_wellFormed (t : Tree) (ht : t.TextsFit) (settings : Settings) :
    (∀ (body : NodeId) (initial : State), initial.WellFormedWithin lengths →
      (∀ r, t.analyze settings body initial = .ok r →
        r.Upholds (State.WellFormedWithin lengths)) ∧
      ∀ e ∈ (Session.ofResult (((t.context settings).evaluators
          (t.context settings).depthBound).stmt body initial {})).events,
        e.state.WellFormedWithin lengths) ∧
    (∀ (m : MethodId) (r : Analysis), t.analyzeMethod settings m = .ok r →
      r.Upholds (State.WellFormedWithin lengths)) ∧
    Value.Closed (Value.WellFormedWithin lengths) := by
  refine ⟨fun body initial hwf => ?_, fun m r hr => ?_, Value.closed_wellFormed (by decide)⟩
  · have hkept := kept_wellFormedness (t.context settings) ht
    have hfresh : Session.Upholds (State.WellFormedWithin lengths) [] {} :=
      Session.Upholds.of_fresh State.wf_dead rfl rfl rfl
    exact ⟨fun r hr => hkept.upholds_run trivial hwf hfresh hr,
      (hkept.upholds_walk trivial hwf hfresh _).events⟩
  · rcases t.analyzeMethod_eq m with ⟨e, he⟩ | ⟨method, body, initial, hentry, hrun⟩
    · rw [he] at hr
      cases hr
    rw [hrun] at hr
    have hkept := kept_wellFormedness
      ⟨t, settings, some method.returnType, method.returnContracts⟩ ht
    exact hkept.upholds_run trivial (t.wf_entryState hentry)
      (Session.Upholds.of_fresh State.wf_dead rfl rfl rfl) hr

def growingText : Tree where
  nodes := #[.expr (.name ⟨0⟩), .expr (.literal (.str "ab")), .expr (.assign (some .add) ⟨0⟩ ⟨1⟩),
    .stmt (.expr ⟨2⟩), .expr (.name ⟨1⟩), .stmt (.whileLoop ⟨4⟩ ⟨3⟩)]
  decls := #[⟨"s", .string, [], .var⟩, ⟨"b", .primitive .boolean, [], .param⟩]

def growingText.start : State := (State.initial.set ⟨0⟩ (.ofText "")).set ⟨1⟩ .anyBool

/-- Widening lets the text grow as long as a string can be, but no longer. -/
theorem growingText_stays_wellFormed : growingText.TextsFit ∧
    growingText.start.WellFormedWithin lengths ∧
    ∃ r, growingText.analyze {} ⟨5⟩ growingText.start = .ok r ∧
      r.final.lookup ⟨0⟩ = some (.str lengths false) ∧
      r.Upholds (State.WellFormedWithin lengths) := by
  have hfits : growingText.TextsFit := by decide
  have hwf : growingText.start.WellFormedWithin lengths :=
    State.wf_set (State.wf_set (fun _ _ h => by cases h) rfl) (Value.wf_ofFlags true true)
  have hfinal : (growingText.analyze {} ⟨5⟩ growingText.start).map (·.final.lookup ⟨0⟩) =
      .ok (some (.str lengths false)) := by decide +kernel
  have hkeeps := ((analysis_keeps_values_wellFormed growingText hfits {}).1 ⟨5⟩ _ hwf).1
  refine ⟨hfits, hwf, ?_⟩
  cases hr : growingText.analyze {} ⟨5⟩ growingText.start with
  | error e =>
    rw [hr] at hfinal
    cases hfinal
  | ok r =>
    rw [hr] at hfinal
    exact ⟨r, rfl, Except.ok.inj hfinal, hkeeps r hr⟩

end ValueFlow

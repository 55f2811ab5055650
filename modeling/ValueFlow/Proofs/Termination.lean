import Mathlib.Data.Finset.Card
import ValueFlow.Proofs.Lockstep

namespace ValueFlow

open Bindings

def Node.children : Node → List NodeId
  | stmt s => s.children
  | expr e => e.children

def Node.decl? : Node → Option DeclId
  | expr (.name d) | expr (.field _ d) | stmt (.declare d _) => some d
  | _ => none

def State.tracked (s : State) : List DeclId := s.values.entries.map (·.1)

namespace Tree

/-- Every node refers to nodes before it only. -/
def Descending (t : Tree) : Prop :=
  ∀ i : Fin t.nodes.size, ∀ c ∈ t.nodes[i].children, c.index < i.val

instance (t : Tree) : Decidable t.Descending :=
  inferInstanceAs (Decidable (∀ i : Fin t.nodes.size, ∀ c ∈ t.nodes[i].children, c.index < i.val))

/-- The declarations that some node mentions. -/
def mentioned (t : Tree) : List DeclId := t.nodes.toList.filterMap Node.decl?

/-- The declarations that an analysis from `initial` may track. -/
def scope (t : Tree) (initial : State) : Finset DeclId :=
  (initial.tracked ++ t.mentioned).toFinset

variable {t : Tree} {n c : NodeId}

theorem Descending.node (h : t.Descending) {node : Node} (hn : t.node n = .ok node)
    (hc : c ∈ node.children) : c.index < n.index := by
  unfold Tree.node at hn
  split at hn
  · rename_i m hm
    cases hn
    obtain ⟨hlt, rfl⟩ := Array.getElem?_eq_some_iff.1 hm
    exact h ⟨n.index, hlt⟩ c hc
  · cases hn

theorem node_of_expr {e : Expr} (h : t.expr n = .ok e) : t.node n = .ok (.expr e) := by
  unfold Tree.expr at h
  split at h <;> cases h
  assumption

theorem node_of_stmt {s : Stmt} (h : t.stmt n = .ok s) : t.node n = .ok (.stmt s) := by
  unfold Tree.stmt at h
  split at h <;> cases h
  assumption

theorem index_lt_of_node {node : Node} (h : t.node n = .ok node) : n.index < t.size := by
  unfold Tree.node at h
  split at h
  · rename_i hm
    exact (Array.getElem?_eq_some_iff.1 hm).1
  · cases h

theorem mem_mentioned {node : Node} {d : DeclId} (hn : t.node n = .ok node)
    (hd : node.decl? = some d) : d ∈ t.mentioned := by
  unfold Tree.node at hn
  split at hn
  · rename_i hm
    cases hn
    refine List.mem_filterMap.2 ⟨node, ?_, hd⟩
    exact Array.mem_toList_iff.2 (Array.mem_of_getElem? hm)
  · cases hn

theorem length_mentioned_le (t : Tree) : t.mentioned.length ≤ t.size :=
  (List.length_filterMap_le _ _).trans (Nat.le_of_eq t.nodes.length_toList)

/-- The nodes that a walk of this depth can finish: those with few nodes before them, and those
out of the table. -/
def upTo (t : Tree) (depth : Nat) : Places where
  expr n := n.index < depth ∨ (t.size ≤ n.index ∧ 0 < depth)
  stmt _ n := n.index < depth ∨ (t.size ≤ n.index ∧ 0 < depth)

end Tree

namespace Stmt

theorem mem_children_of_exprs {s : Stmt} {c : NodeId} (h : c ∈ s.exprs) : c ∈ s.children := by
  cases s <;> simp_all [exprs, children]
  grind

theorem mem_children_of_plain {s : Stmt} {c : NodeId} (h : c ∈ s.plain) : c ∈ s.children := by
  cases s <;> simp_all [plain, children]

theorem mem_children_of_framed {s : Stmt} {kind : FrameKind} {c : NodeId}
    (h : (kind, c) ∈ s.framed) : c ∈ s.children := by
  cases s <;> simp_all [framed, children]

end Stmt

/-- Places for each depth of a walk: none for the depth 0, and each leads to those one level less
deep. -/
structure Places.Ladder (N : Nat → Places) (t : Tree) : Prop where
  expr_zero (n : NodeId) : ¬ (N 0).expr n
  stmt_zero (ks : List FrameKind) (n : NodeId) : ¬ (N 0).stmt ks n
  step (depth : Nat) : (N (depth + 1)).Over (N depth) t

/-- The nodes below a node can be finished one level less deep. -/
theorem Tree.upTo_over (t : Tree) (h : t.Descending) (depth : Nat) :
    (t.upTo (depth + 1)).Over (t.upTo depth) t := by
  have hchild : ∀ {n c : NodeId} {node : Node}, t.node n = .ok node → c ∈ node.children →
      n.index < depth + 1 ∨ (t.size ≤ n.index ∧ 0 < depth + 1) → c.index < depth := by
    intro n c node hn hc hdepth
    have hlt := h.node hn hc
    have hsize := index_lt_of_node hn
    omega
  constructor
  · exact fun hn he hc => .inl (hchild (node_of_expr he) hc hn)
  · intro n c b e e' hn he hc he' hb
    have hc' := hchild (node_of_expr he) hc hn
    have hlt := h.node (node_of_expr he') hb
    exact .inl (Nat.lt_trans hlt hc')
  · exact fun hn hs hc => .inl (hchild (node_of_stmt hs) (Stmt.mem_children_of_exprs hc) hn)
  · exact fun hn hs hc => .inl (hchild (node_of_stmt hs) (Stmt.mem_children_of_plain hc) hn)
  · exact fun hn hs hc => .inl (hchild (node_of_stmt hs) (Stmt.mem_children_of_framed hc) hn)

theorem Tree.upTo_ladder (t : Tree) (h : t.Descending) : Places.Ladder t.upTo t := by
  have hnone : ∀ n : NodeId, ¬ (n.index < 0 ∨ (t.size ≤ n.index ∧ 0 < 0)) := by omega
  exact ⟨hnone, fun _ => hnone, t.upTo_over h⟩

namespace State

variable {s other : State} {d : DeclId} {v : Value}

theorem mem_tracked : d ∈ s.tracked ↔ ∃ v, s.lookup d = some v := by
  unfold tracked lookup Bindings.find?
  induction s.values.entries with
  | nil => simp
  | cons x rest ih =>
    obtain ⟨e, w⟩ := x
    rw [List.map_cons, List.mem_cons, ih, findIn_cons]
    by_cases h : e = d
    · simp [h]
    · simp [h, Ne.symm h]

theorem length_tracked (s : State) : s.tracked.length = s.size := List.length_map _

theorem exists_combineValues {f : Value → Value → Value} {o o' : Option Value} :
    (∃ v, combineValues f o o' = some v) ↔ (∃ v, o = some v) ∨ ∃ v, o' = some v := by
  cases o <;> cases o' <;> simp [combineValues]

/-- Unreachable, or the declarations tracked lie between `least` and `most`. -/
def TracksBetween (least most : Finset DeclId) (s : State) : Prop :=
  s.unreachable = false → (∀ d ∈ least, d ∈ s.tracked) ∧ ∀ d ∈ s.tracked, d ∈ most

variable {least most : Finset DeclId}

theorem tracksBetween_set (hs : s.TracksBetween least most) (hd : d ∈ most) :
    (s.set d v).TracksBetween least most := by
  intro hlive
  obtain ⟨hleast, hmost⟩ := hs hlive
  constructor
  · intro e he
    rw [mem_tracked, lookup_set]
    by_cases h : d = e
    · exact ⟨v, if_pos h⟩
    · rw [if_neg h]
      exact mem_tracked.1 (hleast e he)
  · intro e he
    rw [mem_tracked, lookup_set] at he
    by_cases h : d = e
    · exact h ▸ hd
    · rw [if_neg h] at he
      exact hmost e (mem_tracked.2 he)

theorem CombinesBy.tracksBetween {g : Value → Value → Value} {op : State → State → State}
    (hop : CombinesBy g op) (hs : s.TracksBetween least most)
    (hother : other.TracksBetween least most) : (op s other).TracksBetween least most := by
  refine hop.of_lookup hs hother fun hlive hlive' hlookup _ => ?_
  have htracked : ∀ d, d ∈ (op s other).tracked ↔ d ∈ s.tracked ∨ d ∈ other.tracked := by
    intro d
    rw [mem_tracked, hlookup, exists_combineValues, mem_tracked, mem_tracked]
  constructor
  · intro d hd
    exact (htracked d).2 (.inl ((hs hlive).1 d hd))
  · intro d hd
    rcases (htracked d).1 hd with h | h
    · exact (hs hlive).2 d h
    · exact (hother hlive').2 d h

theorem tracksBetween_map {g : DeclId → Value → Value} {mapped : State}
    (hlookup : ∀ d, mapped.lookup d = (s.lookup d).map (g d)) (hlive : s.unreachable = false)
    (hs : s.TracksBetween least most) : mapped.TracksBetween least most := by
  intro _
  have htracked : ∀ d, d ∈ mapped.tracked ↔ d ∈ s.tracked := by
    intro d
    rw [mem_tracked, hlookup, mem_tracked]
    cases s.lookup d <;> simp
  exact ⟨fun d hd => (htracked d).2 ((hs hlive).1 d hd),
    fun d hd => (hs hlive).2 d ((htracked d).1 hd)⟩

theorem tracksBetween_giveUp (previous : State) (hs : s.TracksBetween least most) :
    (s.giveUp previous).TracksBetween least most := by
  intro hlive
  have hs' : s.unreachable = false := (giveUp_unreachable s previous).symm.trans hlive
  exact tracksBetween_map (fun d => lookup_giveUp s previous hs') hs' hs hlive

/-- The declarations of `most` about which nothing is known. -/
def anys (most : Finset DeclId) (s : State) : Finset DeclId :=
  most.filter fun d => s.lookup d = some .any

theorem mem_anys : d ∈ s.anys most ↔ d ∈ most ∧ s.lookup d = some .any := by
  rw [anys, Finset.mem_filter]

theorem card_anys_le (s : State) (most : Finset DeclId) : (s.anys most).card ≤ most.card :=
  Finset.card_le_card (Finset.filter_subset _ _)

end State

theorem Value.any_merge (v : Value) : Value.any.merge v = .any := by
  cases v <;> rfl

theorem Value.any_widen (v : Value) : Value.any.widen v = .any := by
  cases v <;> rfl

theorem Tree.fitDeclared_any (t : Tree) (d : DeclId) : t.fitDeclared d .any = .any := by
  unfold Tree.fitDeclared
  split
  · rename_i k _
    cases k <;> rfl
  · rfl
  · rfl

theorem combineValues_any {f : Value → Value → Value} (hf : ∀ v, f .any v = .any)
    (o : Option Value) : combineValues f (some .any) o = some .any := by
  cases o with
  | none => rfl
  | some w => exact congrArg some (hf w)

namespace Context

variable (ctx : Context) {head back : State} {least most : Finset DeclId} {d : DeclId}

theorem tracksBetween_advance (iteration : Nat) (hhead : head.TracksBetween least most)
    (hback : back.TracksBetween least most) :
    (ctx.advance iteration head back).TracksBetween least most := by
  unfold Context.advance
  split
  · intro hlive
    have hw : (head.widen back).unreachable = false :=
      (ctx.tree.fitState_unreachable _).symm.trans hlive
    exact State.tracksBetween_map (fun d => ctx.tree.lookup_fitState hw) hw
      (State.combinesBy_widen.tracksBetween hhead hback) hlive
  · exact State.combinesBy_merge.tracksBetween hhead hback

/-- What the head tracks stays tracked, and what is `any` stays so. -/
theorem lookup_advance (iteration : Nat) (back : State) (hlive : head.unreachable = false)
    {v : Value} (h : head.lookup d = some v) :
    ∃ w, (ctx.advance iteration head back).lookup d = some w ∧ (v = .any → w = .any) := by
  -- join and widening both keep what the head tracks, and `any` as it is
  have hcombined : ∀ (f : Value → Value → Value), (∀ v, f .any v = .any) →
      ∃ w, combineValues f (head.lookup d) (back.lookup d) = some w ∧ (v = .any → w = .any) := by
    intro f hf
    obtain ⟨w, hw⟩ := State.exists_combineValues.2 (.inl ⟨v, h⟩)
    refine ⟨w, hw, fun hv => ?_⟩
    rw [h, hv, combineValues_any hf] at hw
    exact (Option.some.inj hw).symm
  unfold Context.advance
  cases hback : back.unreachable with
  | true =>
    rw [State.widen, State.merge, State.combine_of_dead_right hback,
      State.combine_of_dead_right hback]
    split
    · rw [ctx.tree.lookup_fitState hlive, h]
      exact ⟨_, rfl, fun hv => hv ▸ ctx.tree.fitDeclared_any d⟩
    · exact ⟨v, h, id⟩
  | false =>
    split
    · have hw : (head.widen back).unreachable = false := by
        rw [State.widen_unreachable, hlive, Bool.false_and]
      obtain ⟨w, hlookup, hany⟩ := hcombined Value.widen Value.any_widen
      rw [ctx.tree.lookup_fitState hw, State.lookup_widen hlive hback, hlookup]
      exact ⟨_, rfl, fun hv => hany hv ▸ ctx.tree.fitDeclared_any d⟩
    · rw [State.lookup_merge hlive hback]
      exact hcombined Value.merge Value.any_merge

theorem exists_lookup_ne {s other : State} (hs : s.unreachable = false)
    (h : other.unreachable = false) (hne : s ≠ other) : ∃ d, s.lookup d ≠ other.lookup d := by
  apply Classical.byContradiction
  intro hall
  apply hne
  have hvalues : s.values = other.values := ext_find? fun d =>
    Classical.byContradiction fun hd => hall ⟨d, hd⟩
  cases s
  cases other
  simp_all

/-- Giving up on what has changed makes one more declaration `any`. -/
theorem card_anys_lt (iteration : Nat) (hlive : head.unreachable = false)
    (hhead : head.TracksBetween least most) (hback : back.TracksBetween least most)
    (hne : ctx.advance iteration head back ≠ head) :
    (head.anys most).card < (((ctx.advance iteration head back).giveUp head).anys most).card := by
  have hnext : (ctx.advance iteration head back).unreachable = false :=
    ctx.advance_reachable iteration hlive
  have htracks := ctx.tracksBetween_advance iteration hhead hback hnext
  obtain ⟨d, hd⟩ := exists_lookup_ne hnext hlive hne
  apply Finset.card_lt_card
  refine Finset.ssubset_iff_subset_ne.2 ⟨?_, ?_⟩
  · -- what is given up already stays given up
    intro e he
    obtain ⟨hmost, hany⟩ := State.mem_anys.1 he
    obtain ⟨w, hw, hwany⟩ := ctx.lookup_advance iteration back hlive hany
    refine State.mem_anys.2 ⟨hmost, ?_⟩
    rw [State.lookup_giveUp _ _ hnext, hw, hwany rfl]
    simp
  · -- the declaration that differs is not `any` in the head, but is given up
    intro heq
    have hnext_d : ∃ w, (ctx.advance iteration head back).lookup d = some w := by
      cases hh : head.lookup d with
      | some v =>
        obtain ⟨w, hw, -⟩ := ctx.lookup_advance iteration back hlive hh
        exact ⟨w, hw⟩
      | none =>
        cases hn : (ctx.advance iteration head back).lookup d with
        | none => exact absurd (hn.trans hh.symm) hd
        | some w => exact ⟨w, rfl⟩
    obtain ⟨w, hw⟩ := hnext_d
    have hmost : d ∈ most := htracks.2 d (State.mem_tracked.2 ⟨w, hw⟩)
    have hgiven : d ∈ ((ctx.advance iteration head back).giveUp head).anys most := by
      refine State.mem_anys.2 ⟨hmost, ?_⟩
      rw [State.lookup_giveUp _ _ hnext, hw]
      have hkeeps : head.keeps d w = false := by
        rw [hw] at hd
        simp [State.keeps, hlive, Ne.symm hd]
      simp only [Option.map_some, State.givesUp, hkeeps]
      cases w <;> simp [Value.isAny]
    rw [← heq] at hgiven
    obtain ⟨-, hany⟩ := State.mem_anys.1 hgiven
    obtain ⟨w', hw', hwany⟩ := ctx.lookup_advance iteration back hlive hany
    exact hd (by rw [hw', hany, hwany rfl])

/-- The iterations that a loop may take with the declarations `most` in play. -/
def iterationBound (most : Finset DeclId) : Nat := ctx.patience - 1 + most.card

/-- No loop that has settled since the entries of `old` took too long. -/
def Timely (most : Finset DeclId) (old : List Entry) (σ : Session) : Prop :=
  ∀ n k, Entry.stabilized n k ∈ σ.history →
    Entry.stabilized n k ∈ old ∨ k ≤ ctx.iterationBound most

/-- The analysis beside itself, keeping to the declarations in scope and to the iterations that
its loops may take. -/
def settling (least most : Finset DeclId) (base : List FrameKind) (old : List Entry) :
    Simulation where
  tree := ctx.tree
  leftSettings := ctx.settings
  rightSettings := ctx.settings
  returnType := ctx.returnType
  returnContracts := ctx.returnContracts
  value _ := True
  state := State.TracksBetween least most
  decl d := d ∈ most
  halt e := e ≠ .exhausted
  session ks _ σ τ := σ = τ ∧
    Lockstep (State.TracksBetween least most) base ks σ.frames σ.frames ∧ ctx.Timely most old σ

variable {base : List FrameKind} {old : List Entry}

theorem stateLaws_tracksBetween :
    Simulation.StateLaws (fun _ => True) (State.TracksBetween least most) (· ∈ most) where
  lookup _ _ := trivial
  dead h := Bool.noConfusion h
  kill _ h := Bool.noConfusion h
  set hs hd _ := State.tracksBetween_set hs hd
  merge := State.combinesBy_merge.tracksBetween
  intersect := State.combinesBy_intersect.tracksBetween

theorem keeps_settling {f : Session → Session} (hframes : ∀ σ, (f σ).frames = σ.frames)
    (hhistory : ∀ σ n k, Entry.stabilized n k ∈ (f σ).history →
      Entry.stabilized n k ∈ σ.history) : (ctx.settling least most base old).Keeps f f := by
  intro ks k σ τ ⟨hστ, hlock, htimely⟩
  refine ⟨congrArg f hστ, ?_, fun n k h => htimely n k (hhistory σ n k h)⟩
  rw [hframes]
  exact hlock

end Context

namespace Session

variable {n : NodeId} {k : Nat}

theorem stabilized_find {m : NodeId} {f : Finding} {σ : Session}
    (h : Entry.stabilized n k ∈ (σ.find m f).history) : Entry.stabilized n k ∈ σ.history := by
  unfold find at h
  split at h
  · exact (List.mem_cons.1 h).resolve_left (by simp)
  · exact h

theorem stabilized_foldl_find {m : NodeId} {fs : List Finding} {σ : Session}
    (h : Entry.stabilized n k ∈ (fs.foldl (Session.find m) σ).history) :
    Entry.stabilized n k ∈ σ.history := by
  induction fs generalizing σ with
  | nil => exact h
  | cons f fs ih => exact stabilized_find (ih h)

theorem stabilized_trace {e : Entry} {σ : Session} (he : e ≠ .stabilized n k)
    (h : Entry.stabilized n k ∈ (σ.trace e).history) : Entry.stabilized n k ∈ σ.history := by
  unfold trace at h
  split at h
  · exact (List.mem_cons.1 h).resolve_left he.symm
  · exact h

end Session

namespace Context

variable (ctx : Context) {least most : Finset DeclId} {base : List FrameKind} {old : List Entry}

theorem sessionLaws_settling : (ctx.settling least most base old).SessionLaws where
  find n f _ := ctx.keeps_settling (fun σ => σ.find_frames n f) fun _ _ _ => Session.stabilized_find
  unboxing n _ := ctx.keeps_settling (Session.foldl_find_frames n _) fun _ _ _ =>
    Session.stabilized_foldl_find
  deref n _ _ := ctx.keeps_settling (Session.foldl_find_frames n _) fun _ _ _ =>
    Session.stabilized_foldl_find
  dead n _ := ctx.keeps_settling (Session.foldl_find_frames n _) fun _ _ _ =>
    Session.stabilized_foldl_find
  entered n _ _ := ctx.keeps_settling (Session.trace_frames _) fun _ _ _ =>
    Session.stabilized_trace (by simp)
  left n _ _ := ctx.keeps_settling (Session.trace_frames _) fun _ _ _ =>
    Session.stabilized_trace (by simp)
  returning _ := ctx.keeps_settling (fun _ => rfl) fun _ _ _ h => h
  enter kind _ _ _ _ h :=
    ⟨congrArg _ h.1, ⟨rfl, rfl, fun h => Bool.noConfusion h, fun h => Bool.noConfusion h, h.2.1⟩,
      h.2.2⟩
  leave {_ _ _ σ _} h := by
    obtain ⟨f, rest, rest', hf, hg, -, -, -, hrest⟩ := Lockstep.cons_inv h.2.1
    obtain rfl : rest = rest' := by simpa [hf] using hg
    refine ⟨congrArg _ h.1, ?_, h.2.2⟩
    simp only [Session.leaveFrame, hf]
    exact hrest
  gathered h := by
    obtain ⟨f, rest, rest', hf, hg, -, hb, hc, -⟩ := Lockstep.cons_inv h.2.1
    exact ⟨f, rest, rest', hf, h.1 ▸ hg, hb, hc⟩

/-- The passes left suffice: while there is patience, for the rest of it and all declarations, and
then for the declarations not given up yet. -/
def Room (most : Finset DeclId) (bound iteration : Nat) (head : State) : Prop :=
  (iteration < ctx.patience ∧ ctx.patience + most.card ≤ bound + iteration) ∨
  (ctx.patience ≤ iteration ∧ iteration ≤ ctx.patience - 1 + (head.anys most).card ∧
    most.card + 1 ≤ bound + (head.anys most).card)

theorem patience_pos : 1 ≤ ctx.patience := Nat.le_max_left _ _

variable {ks : List FrameKind} {n : NodeId} {pass pass' : State → Walk Pass}

theorem inStep_solve_settling
    (hpass : ∀ head : State, head.TracksBetween least most → head.unreachable = false →
      (ctx.settling least most base old).InStep ks (ctx.settling least most base old).Passed
        (pass head) (pass' head))
    {bound iteration : Nat} {head : State} (hs : head.TracksBetween least most)
    (hlive : head.unreachable = false) (hroom : ctx.Room most bound iteration head) :
    (ctx.settling least most base old).InStep ks
      (fun a => a.1.TracksBetween least most ∧ a.1.unreachable = false ∧
        a.2 ≤ ctx.iterationBound most)
      (ctx.solve n pass bound iteration head) (ctx.solve n pass' bound iteration head) := by
  induction bound generalizing iteration head with
  | zero =>
    have hcard := head.card_anys_le most
    unfold Room at hroom
    omega
  | succ bound ih =>
    refine (hpass head hs hlive).bind fun p hp => ?_
    have hcard := head.card_anys_le most
    have hpos := ctx.patience_pos
    have hnext := ctx.tracksBetween_advance iteration hs hp.1
    have hreached : (ctx.advance iteration head p.back).unreachable = false :=
      ctx.advance_reachable iteration hlive
    dsimp only
    split
    · -- settled: there was room for the iterations so far
      refine Simulation.inStep_pure ⟨hs, hlive, ?_⟩
      show iteration ≤ ctx.patience - 1 + most.card
      unfold Room at hroom
      omega
    · rename_i hne
      split
      · refine ih hnext hreached ?_
        unfold Room at hroom ⊢
        omega
      · -- out of patience: each pass that changes the head gives up one more declaration
        have hlt := ctx.card_anys_lt iteration hlive hs hp.1 hne
        have hgiven := State.tracksBetween_giveUp head hnext
        have hlive' := (State.giveUp_unreachable (ctx.advance iteration head p.back) head).trans
          hreached
        have hroom' : ctx.Room most bound (iteration + 1)
            ((ctx.advance iteration head p.back).giveUp head) := by
          unfold Room at hroom ⊢
          omega
        have hrest := ih hgiven hlive' hroom'
        split
        · refine Simulation.InStep.bind (Q := fun _ => True) ?_ fun _ _ => hrest
          refine Simulation.inStep_modify (ctx.keeps_settling (fun _ => rfl) fun σ m k h => ?_)
          exact (List.mem_cons.1 h).resolve_left (by simp)
        · exact hrest

theorem loop_settling (hcard : most.card ≤ least.card + ctx.tree.size) :
    (ctx.settling least most base old).LoopLaw := by
  intro ks n pass pass' entry hpass hs hlive
  -- the bound of the solver counts what the entry tracks, which is no less than `least`
  have hsize : least.card ≤ entry.size := by
    have hsub : least ⊆ entry.tracked.toFinset := fun d hd =>
      List.mem_toFinset.2 ((hs hlive).1 d hd)
    calc least.card ≤ entry.tracked.toFinset.card := Finset.card_le_card hsub
      _ ≤ entry.tracked.length := List.toFinset_card_le _
      _ = entry.size := entry.length_tracked
  have hpos := ctx.patience_pos
  have hroom : ctx.Room most (ctx.passBound entry) 0 entry := by
    unfold Room passBound
    omega
  have hsolve := Simulation.inStep_muted (S := ctx.settling least most base old)
    (fun _ _ _ h => ⟨congrArg _ h.1, h.2⟩) (fun _ _ _ h => ⟨congrArg _ h.1, h.2⟩)
    (ctx.inStep_solve_settling (n := n) hpass hs hlive hroom)
  refine hsolve.bind ?_
  intro ⟨head, iterations⟩ ⟨hhead, hreached, htime⟩
  refine Simulation.InStep.bind (Q := fun _ => True) (Simulation.inStep_modify ?_) fun _ _ => ?_
  · intro ks k σ τ ⟨hστ, hlock, htimely⟩
    refine ⟨congrArg _ hστ, hlock, fun m k h => ?_⟩
    rcases List.mem_cons.1 h with h | h
    · cases h
      exact .inr htime
    · exact htimely m k h
  · exact (hpass head hhead hreached).bind fun p hp => Simulation.inStep_pure hp.2

theorem routed_settling {route : List Frame → Option (List Frame)}
    (h : Frame.Routes (Lockstep (State.TracksBetween least most) base ks) route) :
    (ctx.settling least most base old).Routed ks n route :=
  Simulation.routed_of_frames (fun hστ => ⟨congrArg _ hστ.1, hστ.2.1⟩)
    (fun ⟨hστ, _, htimely⟩ ⟨hfg, hlock⟩ => ⟨by rw [hστ, hfg], hlock, htimely⟩)
    (fun _ _ _ _ => by simp [settling]) h.same

theorem placeLaws_settling (N : Places) (hmost : ∀ d ∈ ctx.tree.mentioned, d ∈ most) :
    (ctx.settling least most base old).PlaceLaws N where
  expr_error _ _ h := by cases h
  stmt_error _ _ h := by cases h
  decl_error _ _ h := by cases h
  call_error _ _ _ h := by cases h
  param_error _ _ _ _ _ h := by cases h
  name _ he := hmost _ (Tree.mem_mentioned (Tree.node_of_expr he) rfl)
  field _ he := hmost _ (Tree.mem_mentioned (Tree.node_of_expr he) rfl)
  declare _ hs := hmost _ (Tree.mem_mentioned (Tree.node_of_stmt hs) rfl)
  literal _ _ := trivial
  label _ _ _ _ := trivial
  breakOut _ _ hs :=
    ctx.routed_settling (Lockstep.routes_addBreak State.combinesBy_merge.tracksBetween hs)
  continueLoop _ _ hs :=
    ctx.routed_settling (Lockstep.routes_addContinue State.combinesBy_merge.tracksBetween hs)

section Ladder

variable (hmost : ∀ d ∈ ctx.tree.mentioned, d ∈ most)
  (hcard : most.card ≤ least.card + ctx.tree.size)

include hmost hcard

theorem laws_settling {N' N : Places} (hdown : N'.Over N ctx.tree) (base : List FrameKind)
    (old : List Entry) : (ctx.settling least most base old).Laws N' N where
  value := Simulation.valueLaws_trivial
  state := stateLaws_tracksBetween
  session := ctx.sessionLaws_settling
  loop := ctx.loop_settling hcard
  here := ctx.placeLaws_settling _ hmost
  below := ctx.placeLaws_settling _ hmost
  down := hdown

/-- A walk deep enough for its node ends in time. -/
theorem related_settling {N : Nat → Places} (hN : Places.Ladder N ctx.tree)
    (base : List FrameKind) (old : List Entry) (depth : Nat) :
    (ctx.settling least most base old).Related (N depth) (ctx.evaluators depth)
      (ctx.evaluators depth) := by
  induction depth with
  | zero =>
    exact ⟨fun _ hn _ => absurd hn (hN.expr_zero _), fun _ hn _ => absurd hn (hN.expr_zero _),
      fun hn _ => absurd hn (hN.stmt_zero _ _)⟩
  | succ depth ih =>
    exact Simulation.related_succ (ctx.laws_settling hmost hcard (hN.step depth) base old) ih

end Ladder

end Context

def Session.ofResult {α : Type} : EStateM.Result Halt Session α → Session
  | .ok _ τ => τ
  | .error _ τ => τ

namespace Tree

theorem mem_scope_of_mentioned (t : Tree) (s : State) {d : DeclId} (h : d ∈ t.mentioned) :
    d ∈ t.scope s :=
  List.mem_toFinset.2 (List.mem_append_right _ h)

theorem mem_scope_of_tracked (t : Tree) {s : State} {d : DeclId} (h : d ∈ s.tracked) :
    d ∈ t.scope s :=
  List.mem_toFinset.2 (List.mem_append_left _ h)

theorem tracksBetween_scope (t : Tree) (s : State) :
    s.TracksBetween s.tracked.toFinset (t.scope s) :=
  fun _ => ⟨fun _ hd => List.mem_toFinset.1 hd, fun _ hd => t.mem_scope_of_tracked hd⟩

theorem card_scope_le (t : Tree) (s : State) :
    (t.scope s).card ≤ s.tracked.toFinset.card + t.size := by
  unfold scope
  rw [List.toFinset_append]
  calc (s.tracked.toFinset ∪ t.mentioned.toFinset).card
      ≤ s.tracked.toFinset.card + t.mentioned.toFinset.card := Finset.card_union_le _ _
    _ ≤ s.tracked.toFinset.card + t.mentioned.length :=
      Nat.add_le_add_left (List.toFinset_card_le _) _
    _ ≤ s.tracked.toFinset.card + t.size := Nat.add_le_add_left t.length_mentioned_le _

end Tree

namespace Context

variable (ctx : Context)

/-- The walk of a whole body ends, and its loops end in time. -/
theorem stmt_settling_of {N : Nat → Places} (hN : Places.Ladder N ctx.tree) {body : NodeId}
    (hbody : (N ctx.depthBound).stmt [] body) (initial : State) :
    (ctx.settling initial.tracked.toFinset (ctx.tree.scope initial) [] []).Agree [] 0
      (State.TracksBetween initial.tracked.toFinset (ctx.tree.scope initial))
      ((ctx.evaluators ctx.depthBound).stmt body initial {})
      ((ctx.evaluators ctx.depthBound).stmt body initial {}) := by
  have hrelated := ctx.related_settling (fun _ => ctx.tree.mem_scope_of_mentioned initial)
    (ctx.tree.card_scope_le initial) hN [] [] ctx.depthBound
  exact hrelated.stmt hbody (ctx.tree.tracksBetween_scope initial) 0 {} {}
    ⟨rfl, ⟨rfl, rfl⟩, fun _ _ h => by cases h⟩

theorem stmt_settling (hdown : ctx.tree.Descending) (body : NodeId) (initial : State) :
    (ctx.settling initial.tracked.toFinset (ctx.tree.scope initial) [] []).Agree [] 0
      (State.TracksBetween initial.tracked.toFinset (ctx.tree.scope initial))
      ((ctx.evaluators ctx.depthBound).stmt body initial {})
      ((ctx.evaluators ctx.depthBound).stmt body initial {}) := by
  apply ctx.stmt_settling_of (ctx.tree.upTo_ladder hdown)
  show body.index < ctx.depthBound ∨ (ctx.tree.size ≤ body.index ∧ 0 < ctx.depthBound)
  unfold depthBound
  omega

variable {ctx} in
theorem timely_of_agree {α : Type} {Q : α → Prop} {least most : Finset DeclId}
    {base ks : List FrameKind} {old : List Entry} {k : Nat} {r : EStateM.Result Halt Session α}
    (h : (ctx.settling least most base old).Agree ks k Q r r) :
    (∀ τ, r ≠ .error .exhausted τ) ∧ ctx.Timely most old (Session.ofResult r) := by
  cases r with
  | ok a τ => exact ⟨by simp, h.2.2.2.2⟩
  | error e τ =>
    refine ⟨fun τ' heq => ?_, h.2.2.2.2⟩
    cases heq
    exact h.2.1 rfl

theorem run_ne_exhausted {body : NodeId} {initial : State} {σ : Session}
    (h : ∀ τ, (ctx.evaluators ctx.depthBound).stmt body initial σ ≠ .error .exhausted τ) :
    ctx.run body initial σ ≠ .error .exhausted := by
  intro hrun
  rw [run_def] at hrun
  dsimp only at hrun
  generalize (ctx.evaluators ctx.depthBound).stmt body initial σ = r at h hrun
  cases r with
  | ok final τ => cases hrun
  | error e τ =>
    cases hrun
    exact h τ rfl

/-- No activation of a loop runs out of passes, if it has one for each step of its patience and one
for each declaration in play. -/
theorem solve_not_exhausted (hdown : ctx.tree.Descending) {most : Finset DeclId}
    (hmost : ∀ d ∈ ctx.tree.mentioned, d ∈ most) {n : NodeId} {stmt : Stmt} {depth : Nat}
    (hstmt : ctx.tree.stmt n = .ok stmt) (hdepth : n.index ≤ depth) {pass : State → Walk Pass}
    (hpass : (ctx.evaluators depth).pass? stmt = some pass) {entry : State}
    (hlive : entry.unreachable = false) (hentry : ∀ d ∈ entry.tracked, d ∈ most) {bound : Nat}
    (hbound : ctx.patience + most.card ≤ bound) (σ : Session) {e : Halt} {τ : Session}
    (h : ctx.solve n pass bound 0 entry σ = .error e τ) : e ≠ .exhausted := by
  have hsub : ctx.tree.scope entry ⊆ most := by
    intro d hd
    rcases List.mem_append.1 (List.mem_toFinset.1 hd) with hd | hd
    · exact hentry d hd
    · exact hmost d hd
  have hroom : ctx.Room (ctx.tree.scope entry) bound 0 entry := by
    have hcard := Finset.card_le_card hsub
    have hpos := ctx.patience_pos
    unfold Room
    omega
  have hscope := fun d => ctx.tree.mem_scope_of_mentioned entry (d := d)
  have hcard := ctx.tree.card_scope_le entry
  have hL := ctx.laws_settling hscope hcard (ctx.tree.upTo_over hdown depth) σ.kinds σ.history
  have hb := ctx.related_settling hscope hcard (ctx.tree.upTo_ladder hdown) σ.kinds σ.history depth
  have hchild : ∀ c ∈ stmt.children, c.index < depth := fun c hc =>
    Nat.lt_of_lt_of_le (hdown.node (Tree.node_of_stmt hstmt) hc) hdepth
  -- a pass keeps to the declarations in scope, which are among those of `most`
  have hsteps : ∀ head : State, head.TracksBetween entry.tracked.toFinset (ctx.tree.scope entry) →
      head.unreachable = false → (ctx.settling entry.tracked.toFinset (ctx.tree.scope entry) σ.kinds
        σ.history).InStep [] (ctx.settling entry.tracked.toFinset (ctx.tree.scope entry) σ.kinds
        σ.history).Passed (pass head) (pass head) := fun head hhead _ =>
    Simulation.inStep_pass hL hb (fun c hc => .inl (hchild c (Stmt.mem_children_of_exprs hc)))
      (fun p hp => .inl (hchild p.2 (Stmt.mem_children_of_framed hp))) hpass hpass hhead
  have hagree :=
    ctx.inStep_solve_settling (n := n) hsteps (ctx.tree.tracksBetween_scope entry) hlive
    hroom 0 σ σ ⟨rfl, ⟨rfl, rfl⟩, fun _ _ h => .inl h⟩
  rw [h] at hagree
  exact hagree.2.1

end Context

def Tree.context (t : Tree) (settings : Settings) : Context := { tree := t, settings }

/-- An analysis comes to an end. Every loop that settles on the way, in whatever nesting, has taken
at most as many iterations as its patience allows and one more for each declaration in play; and
no activation of a loop, however it ends, makes more passes than that. -/
theorem analysis_terminates_in_time (t : Tree) (hdown : t.Descending) (settings : Settings)
    (body : NodeId) (initial : State) :
    t.analyze settings body initial ≠ .error .exhausted ∧
      (∀ n k, Entry.stabilized n k ∈ (Session.ofResult (((t.context settings).evaluators
          (t.context settings).depthBound).stmt body initial {})).history →
        k ≤ max settings.maxIterations 1 - 1 + (t.scope initial).card) ∧
      ∀ depth n stmt pass entry σ, t.stmt n = .ok stmt → n.index ≤ depth →
        ((t.context settings).evaluators depth).pass? stmt = some pass →
        entry.unreachable = false → (∀ d ∈ entry.tracked, d ∈ t.scope initial) →
        ∀ e τ, (t.context settings).solve n pass
          (max settings.maxIterations 1 - 1 + (t.scope initial).card + 1) 0 entry σ = .error e τ →
          e ≠ .exhausted := by
  have hpatience : (t.context settings).patience = max settings.maxIterations 1 :=
    Nat.max_comm _ _
  obtain ⟨hends, htimely⟩ := Context.timely_of_agree
    ((t.context settings).stmt_settling hdown body initial)
  refine ⟨(t.context settings).run_ne_exhausted hends, ?_, ?_⟩
  · intro n k h
    have hk := (htimely n k h).resolve_left (by simp)
    rwa [Context.iterationBound, hpatience] at hk
  · intro depth n stmt pass entry σ hstmt hdepth hpass hlive hentry e τ h
    refine (t.context settings).solve_not_exhausted hdown
      (fun _ => t.mem_scope_of_mentioned initial) hstmt hdepth hpass hlive hentry ?_ σ h
    rw [hpatience]
    omega

/-- `while (true) while (true) ++i;` -/
def nestedCounter : Tree where
  nodes := #[.expr (.name ⟨0⟩), .expr (.unary .preInc ⟨0⟩), .stmt (.expr ⟨1⟩),
    .expr (.literal (.bool true)), .stmt (.whileLoop ⟨3⟩ ⟨2⟩), .stmt (.whileLoop ⟨3⟩ ⟨4⟩)]
  decls := #[⟨"i", .primitive .long, [], .var⟩]

/-- Without any patience, both loops settle after one iteration at most. -/
theorem nestedCounter_terminates_in_time : nestedCounter.Descending ∧
    nestedCounter.analyze { maxIterations := 0 } ⟨5⟩ .initial ≠ .error .exhausted ∧
    ∀ n k, Entry.stabilized n k ∈ (Session.ofResult
      (((nestedCounter.context { maxIterations := 0 }).evaluators
        (nestedCounter.context { maxIterations := 0 }).depthBound).stmt ⟨5⟩ .initial {})).history →
      k ≤ 1 := by
  have hdown : nestedCounter.Descending := by decide
  have h := analysis_terminates_in_time nestedCounter hdown { maxIterations := 0 } ⟨5⟩ .initial
  have hcard : (nestedCounter.scope .initial).card = 1 := by decide
  rw [hcard] at h
  exact ⟨hdown, h.1, h.2.1⟩

end ValueFlow

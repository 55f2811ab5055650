import Mathlib.Data.Set.Basic
import ValueFlow.Proofs.Unmentioned

namespace ValueFlow

namespace Tree

def Child (t : Tree) (n c : NodeId) : Prop := ∃ node, t.node n = .ok node ∧ c ∈ node.children

/-- The node `c` stands below `n`, at least one level down. -/
def Under (t : Tree) (n c : NodeId) : Prop := ∃ b, t.Child n b ∧ t.Below b c

/-- No node stands below itself. -/
def Acyclic (t : Tree) : Prop := ∀ n, ¬ t.Under n n

variable {t : Tree} {a b c n x : NodeId}

theorem Child.below (h : t.Child n c) : t.Below n c := by
  obtain ⟨node, hn, hc⟩ := h
  exact .child .root hn hc

theorem Child.under (h : t.Child n c) : t.Under n c := ⟨c, h, .root⟩

theorem Child.index_lt (h : t.Child n c) : n.index < t.size := by
  obtain ⟨node, hn, -⟩ := h
  exact index_lt_of_node hn

theorem Below.trans (h : t.Below a b) (h' : t.Below b c) : t.Below a c := by
  induction h' with
  | root => exact h
  | child _ hn hc ih => exact .child ih hn hc

theorem Under.below (h : t.Under n c) : t.Below n c := by
  obtain ⟨b, hb, hc⟩ := h
  exact hb.below.trans hc

theorem Under.trans_below (h : t.Under n b) (h' : t.Below b c) : t.Under n c := by
  obtain ⟨a, ha, hb⟩ := h
  exact ⟨a, ha, hb.trans h'⟩

/-- A measure that falls from a node to its children rules out cycles. -/
theorem acyclic_of_rank (rank : NodeId → Nat)
    (h : ∀ n c, t.Child n c → rank c < rank n) : t.Acyclic := by
  have hbelow : ∀ {a b : NodeId}, t.Below a b → rank b ≤ rank a := by
    intro a b hab
    induction hab with
    | root => exact Nat.le_refl _
    | child _ hn hc ih => exact (Nat.le_of_lt (h _ _ ⟨_, hn, hc⟩)).trans ih
  rintro n ⟨b, hb, hn⟩
  have hlt := h n b hb
  have hle := hbelow hn
  omega

theorem Descending.acyclic (h : t.Descending) : t.Acyclic :=
  acyclic_of_rank NodeId.index fun _ _ ⟨_, hn, hc⟩ => h.node hn hc

/-- A walk from the node goes down less than `depth` levels. -/
inductive Within (t : Tree) : (depth : Nat) → NodeId → Prop
  | children {depth : Nat} {n : NodeId} : (∀ c, t.Child n c → t.Within depth c) →
      t.Within (depth + 1) n

theorem Within.child {depth : Nat} (h : t.Within (depth + 1) n) (hc : t.Child n c) :
    t.Within depth c := by
  cases h with
  | children h => exact h c hc

theorem Within.exists_succ {depth : Nat} (h : t.Within depth n) : ∃ below, depth = below + 1 := by
  cases h with
  | children => exact ⟨_, rfl⟩

theorem Within.of_expr {depth : Nat} {e : Expr} {c : NodeId} (h : t.Within (depth + 1) n)
    (he : t.expr n = .ok e) (hc : c ∈ e.children) : t.Within depth c :=
  h.child ⟨_, node_of_expr he, hc⟩

theorem Within.succ {depth : Nat} (h : t.Within depth n) : t.Within (depth + 1) n := by
  induction h with
  | children _ ih => exact .children ih

theorem Within.mono {depth depth' : Nat} (h : t.Within depth n) (hle : depth ≤ depth') :
    t.Within depth' n := by
  induction hle with
  | refl => exact h
  | step _ ih => exact ih.succ

theorem Below.under_child (h : t.Below a n) (hc : t.Child n c) : t.Under a c := by
  induction h generalizing c with
  | root => exact hc.under
  | child _ hn hmem ih => exact (ih ⟨_, hn, hmem⟩).trans_below hc.below

theorem Within.of_below {depth : Nat} (h : t.Within depth n) (hb : t.Below n b) :
    t.Within depth b := by
  induction hb with
  | root => exact h
  | child _ hn hc ih =>
    cases ih with
    | children ih => exact (ih _ ⟨_, hn, hc⟩).succ

theorem Within.not_under {depth : Nat} (h : t.Within depth n) : ¬ t.Under n n := by
  induction h with
  | children _ ih =>
    rintro ⟨b, hb, hn⟩
    exact ih b hb (hn.under_child hb)

/-- The nodes on the way down to `n` are different from each other and from `n`, and all of them are
in the table; so there is no room for more than `depth` levels below. -/
theorem within_of_path (h : ∀ b, t.Below n b → ¬ t.Under b b) {depth : Nat} (path : Finset Nat)
    (hpath : ∀ i ∈ path, i < t.size ∧ t.Under ⟨i⟩ n) (hroom : t.size + 1 ≤ depth + path.card) :
    t.Within depth n := by
  induction depth generalizing n path with
  | zero =>
    have hsub : path ⊆ Finset.range t.size := fun i hi => Finset.mem_range.2 (hpath i hi).1
    have hcard := Finset.card_le_card hsub
    rw [Finset.card_range] at hcard
    omega
  | succ depth ih =>
    refine .children fun c hc => ?_
    -- `n` itself joins the way down to its children
    have hfresh : n.index ∉ path := fun hn => h n .root (hpath n.index hn).2
    refine ih (fun b hb => h b (hc.below.trans hb)) (insert n.index path) ?_ ?_
    · intro i hi
      rcases Finset.mem_insert.1 hi with rfl | hi
      · exact ⟨hc.index_lt, hc.under⟩
      · exact ⟨(hpath i hi).1, (hpath i hi).2.trans_below hc.below⟩
    · rw [Finset.card_insert_of_notMem hfresh]
      omega

theorem Acyclic.within (h : t.Acyclic) (n : NodeId) : t.Within (t.size + 1) n :=
  within_of_path (fun b _ => h b) ∅ (by simp) (by simp)

/-- A walk that ends at all goes down no more levels than there are nodes. -/
theorem Within.within_size {depth : Nat} (h : t.Within depth n) : t.Within (t.size + 1) n :=
  within_of_path (fun _ hb => (h.of_below hb).not_under) ∅ (by simp) (by simp)

/-- No node is a child in two places. -/
def Unshared (t : Tree) : Prop := (t.nodes.toList.flatMap Node.children).Nodup

instance (t : Tree) : Decidable t.Unshared :=
  inferInstanceAs (Decidable (t.nodes.toList.flatMap Node.children).Nodup)

def Apart (t : Tree) (a b : NodeId) : Prop := ∀ c, t.Below a c → ¬ t.Below b c

theorem Apart.symm (h : t.Apart a b) : t.Apart b a := fun c hb ha => h c ha hb

theorem getElem_of_node {node : Node} (h : t.node n = .ok node) :
    ∃ hlt : n.index < t.nodes.toList.length, t.nodes.toList[n.index] = node := by
  unfold Tree.node at h
  split at h
  · rename_i hm
    cases h
    obtain ⟨hlt, hget⟩ := Array.getElem?_eq_some_iff.1 hm
    exact ⟨hlt, hget⟩
  · cases h

theorem Unshared.nodup_children (h : t.Unshared) {node : Node} (hn : t.node n = .ok node) :
    node.children.Nodup := by
  obtain ⟨hlt, rfl⟩ := getElem_of_node hn
  exact (List.nodup_flatMap.1 h).1 _ (List.getElem_mem hlt)

theorem Unshared.parent_unique (h : t.Unshared) (ha : t.Child a c) (hb : t.Child b c) : a = b := by
  obtain ⟨node, hn, hc⟩ := ha
  obtain ⟨node', hn', hc'⟩ := hb
  obtain ⟨hlt, rfl⟩ := getElem_of_node hn
  obtain ⟨hlt', rfl⟩ := getElem_of_node hn'
  have hpairs := List.pairwise_iff_getElem.1 (List.nodup_flatMap.1 h).2
  rcases Nat.lt_trichotomy a.index b.index with hab | hab | hab
  · exact absurd hc' (hpairs _ _ hlt hlt' hab hc)
  · cases a
    cases b
    cases hab
    rfl
  · exact absurd hc (hpairs _ _ hlt' hlt hab hc')

/-- Of two nodes above a third, one stands above the other. -/
theorem Unshared.below_or_below (h : t.Unshared) (ha : t.Below a c) (hb : t.Below b c) :
    t.Below a b ∨ t.Below b a := by
  -- both ways end in the step from the one parent of `c`, so both go on from there
  induction ha generalizing b with
  | root => exact .inr hb
  | @child m c node ham hm hc ih =>
    cases hb with
    | root => exact .inl (.child ham hm hc)
    | @child m' _ node' hbm hm' hc' =>
      obtain rfl := h.parent_unique ⟨node, hm, hc⟩ ⟨node', hm', hc'⟩
      exact ih hbm

variable (hacyclic : t.Acyclic) (hunshared : t.Unshared)

include hacyclic in
/-- No node stands below its children. -/
theorem Acyclic.not_below_child (hc : t.Child n c) : ¬ t.Below c n :=
  fun h => hacyclic n ⟨c, hc, h⟩

include hacyclic hunshared

theorem not_below_sibling (ha : t.Child n a) (hb : t.Child n b) (hne : a ≠ b) :
    ¬ t.Below a b := by
  intro h
  cases h with
  | root => exact hne rfl
  | @child m _ node ham hm hbm =>
    -- the only parent of `b` is `n`, which would stand below its own child
    obtain rfl := hunshared.parent_unique ⟨node, hm, hbm⟩ hb
    exact hacyclic.not_below_child ha ham

theorem pairwise_apart {node : Node} (hn : t.node n = .ok node) :
    node.children.Pairwise t.Apart := by
  refine (hunshared.nodup_children hn).imp_of_mem fun {a b} ha hb hne c hac hbc => ?_
  have hchild : t.Child n a := ⟨node, hn, ha⟩
  have hchild' : t.Child n b := ⟨node, hn, hb⟩
  rcases hunshared.below_or_below hac hbc with hab | hba
  · exact not_below_sibling hacyclic hunshared hchild hchild' hne hab
  · exact not_below_sibling hacyclic hunshared hchild' hchild hne.symm hba

end Tree

end ValueFlow

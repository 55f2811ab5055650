import Mathlib.Algebra.GroupWithZero.Nat
import Mathlib.Data.List.Dedup
import Mathlib.Data.List.Induction
import Mathlib.Data.List.Sort
import Mathlib.Data.String.Basic
import ValueFlow.Proofs.Report

namespace ValueFlow

open Std

section Order

theorem compareLex_eq_lt {α β : Type} [Ord β] [LawfulEqOrd β] {key : α → β}
    {cmp : α → α → Ordering} {a b : α} : compareLex (compareOn key) cmp a b = .lt ↔
      compare (key a) (key b) = .lt ∨ key a = key b ∧ cmp a b = .lt := by
  rw [compareLex, compareOn, Ordering.then_eq_lt, LawfulEqCmp.compare_eq_iff_eq]

/-- Contracts come in the order of their declaration, and those that differ only in the numbers
written in them in the order of these. -/
def Contract.Precedes (c d : Contract) : Prop :=
  c.ctorIdx < d.ctorIdx ∨
    match c, d with
    | min m, min n | max m, max n => m < n
    | size least most, size least' most' => least < least' ∨ least = least' ∧ most < most'
    | _, _ => False

/-- Kinds come in the order of their declaration, violations in that of their contracts. -/
def FindingKind.Precedes (a b : FindingKind) : Prop :=
  a.ctorIdx < b.ctorIdx ∨
    match a, b with
    | contractViolation c, contractViolation d => c.Precedes d
    | _, _ => False

/-- A finding that is only possible comes before the same finding made definite. -/
def Finding.Precedes (f g : Finding) : Prop :=
  f.kind.Precedes g.kind ∨ f.kind = g.kind ∧
    (f.message < g.message ∨ f.message = g.message ∧ f.definite < g.definite)

def Located.Precedes (x y : Located) : Prop :=
  x.1.index < y.1.index ∨ x.1 = y.1 ∧ x.2.Precedes y.2

theorem Contract.compare_eq_lt {c d : Contract} : compare c d = .lt ↔ c.Precedes d := by
  have hlex : compare c d = .lt ↔ c.rank < d.rank ∨ c.rank = d.rank ∧
      (c.bounds.1 < d.bounds.1 ∨ c.bounds.1 = d.bounds.1 ∧ c.bounds.2 < d.bounds.2) := by
    unfold compare instOrd
    rw [compareLex_eq_lt, compareLex_eq_lt, compareOn, compare_lt_iff_lt, compare_lt_iff_lt,
      compare_lt_iff_lt]
  rw [hlex]
  cases c <;> cases d <;> simp [Precedes, rank, bounds, Contract.ctorIdx]

theorem FindingKind.compare_eq_lt {a b : FindingKind} : compare a b = .lt ↔ a.Precedes b := by
  rw [compare_eq_lex, compareLex_eq_lt, compare_lt_iff_lt]
  cases a with
  | contractViolation c =>
    cases b with
    | contractViolation d =>
      have hcontracts : compareOn contract? (contractViolation c) (contractViolation d) = .lt ↔
          c.Precedes d := Contract.compare_eq_lt
      simp [Precedes, rank, FindingKind.ctorIdx, hcontracts]
    | _ => simp [Precedes, rank, FindingKind.ctorIdx]
  | _ => cases b <;> simp [Precedes, rank, contract?, FindingKind.ctorIdx, compareOn]

theorem Finding.compare_eq_lt {f g : Finding} : compare f g = .lt ↔ f.Precedes g := by
  unfold compare instOrd Precedes
  rw [compareLex_eq_lt, compareLex_eq_lt, FindingKind.compare_eq_lt, compareOn, compare_lt_iff_lt,
    compare_lt_iff_lt]

instance : LawfulEqCmp (compareOn NodeId.index) where
  compare_self := ReflCmp.compare_self
  eq_of_compare h := NodeId.index_inj.1 (LawfulEqCmp.eq_of_compare h)

theorem Located.order_eq_lt {x y : Located} : order x y = .lt ↔ x.Precedes y := by
  unfold order Precedes
  rw [compareLex_eq_lt, compare_lt_iff_lt, NodeId.index_inj, compareOn, Finding.compare_eq_lt]

theorem Located.not_order_self (x : Located) : order x x ≠ .lt := by
  have hself : order x x = .eq := ReflCmp.compare_self
  rw [hself]
  nofun

end Order

/-- Two ascending lists of the same members are the same list. -/
theorem eq_of_ascending {α : Type} {cmp : α → α → Ordering} [OrientedCmp cmp] {l l' : List α}
    (h : l.Pairwise (cmp · · = .lt)) (h' : l'.Pairwise (cmp · · = .lt))
    (hmem : ∀ a, a ∈ l ↔ a ∈ l') : l = l' := by
  have : Antisymm (cmp · · = .lt) := ⟨fun a b hab hba => absurd hba (OrientedCmp.not_lt_of_lt hab)⟩
  have : Irrefl (cmp · · = .lt) := ⟨fun a ha => OrientedCmp.not_lt_of_lt ha ha⟩
  exact h.eq_of_mem_iff h' hmem

section Runs

variable {α : Type} [DecidableEq α]

theorem eraseReps_loop (l : List α) (a : α) (acc : List α) :
    List.eraseRepsBy.loop (· == ·) a l acc = acc.reverse ++ (a :: l).eraseReps := by
  induction l generalizing a acc with
  | nil => simp [List.eraseRepsBy.loop, List.eraseReps, List.eraseRepsBy]
  | cons b l ih =>
    simp only [List.eraseReps, List.eraseRepsBy, List.eraseRepsBy.loop]
    split <;> simp [ih]

theorem eraseReps_cons_cons (a b : α) (l : List α) : (a :: b :: l).eraseReps =
    if a = b then (b :: l).eraseReps else a :: (b :: l).eraseReps := by
  by_cases heq : a = b
  · simp [List.eraseReps, List.eraseRepsBy, List.eraseRepsBy.loop, heq]
  · rw [if_neg heq, List.eraseReps, List.eraseRepsBy, List.eraseRepsBy.loop, beq_false_of_ne heq]
    exact eraseReps_loop l b [a]

theorem mem_eraseReps {a : α} {l : List α} : a ∈ l.eraseReps ↔ a ∈ l := by
  induction l with
  | nil => exact Iff.rfl
  | cons b l ih =>
    cases l with
    | nil => exact Iff.rfl
    | cons c l =>
      rw [eraseReps_cons_cons]
      split
      · next heq => simp [ih, heq]
      · simp [ih]

theorem NodeId.ascending_eraseReps {l : List NodeId} (h : l.Pairwise (·.index ≤ ·.index)) :
    l.eraseReps.Pairwise (·.index < ·.index) := by
  induction l with
  | nil => exact .nil
  | cons n l ih =>
    cases l with
    | nil => exact List.pairwise_singleton _ n
    | cons m l =>
      obtain ⟨hn, hl⟩ := List.pairwise_cons.1 h
      rw [eraseReps_cons_cons]
      split
      · exact ih hl
      · next hne =>
        refine List.pairwise_cons.2 ⟨fun k hk => ?_, ih hl⟩
        have hnm : n.index < m.index :=
          (hn m List.mem_cons_self).lt_of_ne fun heq => hne (NodeId.index_inj.1 heq)
        rcases List.mem_cons.1 (mem_eraseReps.1 hk) with rfl | hk
        · exact hnm
        · exact hnm.trans_le ((List.pairwise_cons.1 hl).1 k hk)

end Runs

namespace Report

variable {x : Located} {entries made : List Located} {n : NodeId} {f : Finding} {r : Report}

theorem Ascending.nodup (h : Ascending entries) : entries.Nodup := by
  refine List.Pairwise.imp ?_ h
  rintro x _ hxy rfl
  exact Located.not_order_self x hxy

theorem isNew_place (h : Ascending entries) : (place x entries).1 = true ↔ x ∉ entries := by
  induction entries with
  | nil => simp [place]
  | cons z rest ih =>
    cases horder : Located.order x z with
    | lt =>
      have hx : x ∉ z :: rest := fun hx => Located.not_order_self x (lt_of_lt_head h horder hx)
      simp only [place, horder, hx, not_false_eq_true]
    | eq =>
      have hx : x ∈ z :: rest := Located.eq_of_order horder ▸ List.mem_cons_self
      simp only [place, horder, hx, not_true_eq_false, Bool.false_eq_true]
    | gt =>
      have hne : x ≠ z := fun heq =>
        Located.not_order_self z (OrientedCmp.gt_iff_lt.1 (heq ▸ horder))
      have hrest := ih (List.pairwise_cons.1 h).2
      simp only [place, horder, Prod.map_fst, id_eq, hrest, List.mem_cons, hne, false_or]

/-- The report of these findings, made one after the other. -/
def ofFindings (made : List Located) : Report :=
  made.foldl (fun r x => (r.add x.1 x.2).2) empty

theorem ofFindings_concat (made : List Located) (x : Located) :
    ofFindings (made ++ [x]) = ((ofFindings made).add x.1 x.2).2 := List.foldl_concat ..

theorem ascending_ofFindings (made : List Located) : Ascending (ofFindings made).entries := by
  induction made using List.reverseRecOn with
  | nil => exact .nil
  | append_singleton made x ih =>
    rw [ofFindings_concat]
    exact ascending_place ih

theorem mem_ofFindings : x ∈ (ofFindings made).entries ↔ x ∈ made := by
  induction made using List.reverseRecOn with
  | nil => exact Iff.rfl
  | append_singleton made y ih =>
    rw [ofFindings_concat, List.mem_append, List.mem_singleton, ← ih, or_comm]
    exact mem_place

section Queries

theorem map_findingsAt (r : Report) (n : NodeId) :
    (r.findingsAt n).map (n, ·) = r.entries.filter (·.1 = n) := by
  have hback : ∀ x ∈ r.entries.filter (·.1 = n), (n, x.2) = x := fun x hx =>
    Prod.ext (of_decide_eq_true (List.mem_filter.1 hx).2).symm rfl
  unfold findingsAt
  rw [List.map_map]
  exact (List.map_congr_left hback).trans (List.map_id' _)

theorem mem_findingsAt : f ∈ r.findingsAt n ↔ (n, f) ∈ r.entries := by
  rw [← List.mem_map_of_injective (Prod.mk_right_injective n), map_findingsAt, List.mem_filter]
  simp

theorem ascending_findingsAt (h : Ascending r.entries) (n : NodeId) :
    (r.findingsAt n).Pairwise (compare · · = .lt) := by
  have hstretch : Ascending ((r.findingsAt n).map (n, ·)) := by
    rw [map_findingsAt]
    exact List.Pairwise.filter _ h
  refine (List.pairwise_map.1 hstretch).imp fun {f g} hfg => ?_
  obtain hlt | ⟨-, hlt⟩ := compareLex_eq_lt.1 hfg
  · exact absurd (compare_lt_iff_lt.1 hlt) (lt_irrefl _)
  · exact hlt

theorem mem_nodes : n ∈ r.nodes ↔ ∃ f, (n, f) ∈ r.entries := by
  unfold nodes
  rw [mem_eraseReps, List.mem_map]
  exact ⟨fun ⟨(_, f), hx, hn⟩ => ⟨f, hn ▸ hx⟩, fun ⟨f, hx⟩ => ⟨(n, f), hx, rfl⟩⟩

theorem ascending_nodes (h : Ascending r.entries) : r.nodes.Pairwise (·.index < ·.index) := by
  refine NodeId.ascending_eraseReps (List.pairwise_map.2 (h.imp fun hxy => ?_))
  obtain hlt | ⟨heq, -⟩ := Located.order_eq_lt.1 hxy
  · exact hlt.le
  · exact (congrArg NodeId.index heq).le

end Queries

/-- The report lists each of the findings made, once and in order, and its queries answer from that
list. -/
structure Collects (r : Report) (made : List Located) : Prop where
  ascending : r.entries.Pairwise Located.Precedes
  -- `dedup` leaves each finding once, in some order.
  distinct : r.entries.Perm made.dedup
  isNew (n : NodeId) (f : Finding) : (r.add n f).1 = true ↔ (n, f) ∉ r.entries
  findingsAt (n : NodeId) : (r.findingsAt n).map (n, ·) = r.entries.filter (·.1 = n)
  nodes_ascending : r.nodes.Pairwise (·.index < ·.index)
  mem_nodes (n : NodeId) : n ∈ r.nodes ↔ ∃ f, (n, f) ∈ r.entries
  parts : r.entries.partition (·.2.definite) = (r.definite, r.potential)
  size : r.size = r.entries.length
  isEmpty : r.isEmpty = true ↔ r.entries = []
  count (kind : FindingKind) : r.count kind = (r.entries.filter (·.2.kind = kind)).length

theorem collects_ofFindings (made : List Located) : (ofFindings made).Collects made := by
  have hascending := ascending_ofFindings made
  exact
    { ascending := hascending.imp Located.order_eq_lt.1
      distinct := by
        rw [List.perm_ext_iff_of_nodup hascending.nodup made.nodup_dedup]
        exact fun x => mem_ofFindings.trans List.mem_dedup.symm
      isNew := fun n f => isNew_place hascending
      findingsAt := map_findingsAt _
      nodes_ascending := ascending_nodes hascending
      mem_nodes := fun n => mem_nodes
      parts := List.partition_eq_filter_filter
      size := rfl
      isEmpty := List.isEmpty_iff
      count := fun kind => List.countP_eq_length_filter }

end Report

/-- The findings of each node as a set, and these sets as a map from the nodes. -/
structure ByNode where
  sets : TreeMap NodeId (TreeSet Finding) (compareOn NodeId.index)

namespace ByNode

def empty : ByNode := ⟨∅⟩

/-- Whether the finding is new in the set of its node, and the map with it. -/
def add (t : ByNode) (n : NodeId) (f : Finding) : Bool × ByNode :=
  let (present, findings) := (t.sets.getD n ∅).containsThenInsert f
  (!present, ⟨t.sets.insert n findings⟩)

def ofFindings (made : List Located) : ByNode :=
  made.foldl (fun t x => (t.add x.1 x.2).2) empty

def entries (t : ByNode) : List Located :=
  t.sets.toList.flatMap fun (n, findings) => findings.toList.map (n, ·)

def findingsAt (t : ByNode) (n : NodeId) : List Finding := (t.sets.getD n ∅).toList

def nodes (t : ByNode) : List NodeId := t.sets.keys

def size (t : ByNode) : Nat := (t.sets.toList.map fun (_, findings) => findings.size).sum

def isEmpty (t : ByNode) : Bool := t.sets.isEmpty

/-- No node has an empty set. The nodes are the keys of the map, so they are those with a finding
only as long as this holds. -/
def Filled (t : ByNode) : Prop := ∀ n ∈ t.sets, ∃ f, (n, f) ∈ t.entries

variable {t : ByNode} {n : NodeId} {f : Finding} {x : Located}

theorem mem_entries : (n, f) ∈ t.entries ↔ f ∈ t.sets.getD n ∅ := by
  have hmem : (n, f) ∈ t.entries ↔ ∃ findings, t.sets[n]? = some findings ∧ f ∈ findings := by
    simp [entries, TreeMap.mem_toList_iff_getElem?_eq_some]
  rw [hmem, TreeMap.getD_eq_getD_getElem?]
  cases t.sets[n]? <;> simp

theorem mem_findingsAt : f ∈ t.findingsAt n ↔ (n, f) ∈ t.entries := by
  rw [mem_entries, findingsAt, TreeSet.mem_toList]

theorem ascending_entries (t : ByNode) : Report.Ascending t.entries := by
  refine List.pairwise_flatMap.2 ⟨fun (n, findings) _ => ?_, ?_⟩
  · refine List.pairwise_map.2 (findings.ordered_toList.imp fun hfg => ?_)
    exact compareLex_eq_lt.2 (.inr ⟨rfl, hfg⟩)
  · refine TreeMap.ordered_keys_toList.imp fun hnm x hx y hy => ?_
    obtain ⟨f, -, rfl⟩ := List.mem_map.1 hx
    obtain ⟨g, -, rfl⟩ := List.mem_map.1 hy
    exact compareLex_eq_lt.2 (.inl hnm)

theorem isNew_add : (t.add n f).1 = true ↔ (n, f) ∉ t.entries := by
  rw [mem_entries, TreeSet.mem_iff_contains, Bool.not_eq_true]
  simp only [add, TreeSet.containsThenInsert_fst, Bool.not_eq_true']

theorem sets_add (t : ByNode) (n : NodeId) (f : Finding) :
    (t.add n f).2.sets = t.sets.insert n ((t.sets.getD n ∅).insert f) := by
  simp [add]

theorem mem_add : x ∈ (t.add n f).2.entries ↔ x = (n, f) ∨ x ∈ t.entries := by
  obtain ⟨m, g⟩ := x
  rw [mem_entries, mem_entries, sets_add, TreeMap.getD_insert]
  split
  · next hnode =>
    obtain rfl := LawfulEqCmp.eq_of_compare hnode
    rw [TreeSet.mem_insert, LawfulEqCmp.compare_eq_iff_eq, Prod.mk_right_inj, eq_comm]
  · next hnode =>
    have hne : (m, g) ≠ (n, f) := fun heq =>
      hnode (LawfulEqCmp.compare_eq_iff_eq.2 (congrArg Prod.fst heq).symm)
    rw [or_iff_right hne]

theorem Filled.add (h : t.Filled) (n : NodeId) (f : Finding) : (t.add n f).2.Filled := by
  intro m hm
  rw [sets_add, TreeMap.mem_insert, LawfulEqCmp.compare_eq_iff_eq] at hm
  rcases hm with rfl | hm
  · exact ⟨f, mem_add.2 (.inl rfl)⟩
  · obtain ⟨g, hg⟩ := h m hm
    exact ⟨g, mem_add.2 (.inr hg)⟩

/-- The map answers each query, set by set, as the report does from its list. -/
structure AnswersAs (t : ByNode) (r : Report) : Prop where
  entries : t.entries = r.entries
  isNew (n : NodeId) (f : Finding) : (t.add n f).1 = (r.add n f).1
  findingsAt (n : NodeId) : t.findingsAt n = r.findingsAt n
  nodes : t.nodes = r.nodes
  size : t.size = r.size
  isEmpty : t.isEmpty = r.isEmpty

theorem mem_nodes (h : t.Filled) : n ∈ t.nodes ↔ ∃ f, (n, f) ∈ t.entries := by
  rw [nodes, TreeMap.mem_keys]
  refine ⟨h n, fun ⟨f, hf⟩ => ?_⟩
  by_contra hn
  rw [mem_entries, TreeMap.getD_eq_fallback hn] at hf
  exact TreeSet.not_mem_emptyc hf

theorem size_eq_length (t : ByNode) : t.size = t.entries.length := by
  unfold size entries
  rw [List.length_flatMap]
  simp

theorem isEmpty_iff (h : t.Filled) : t.isEmpty = true ↔ t.entries = [] := by
  rw [isEmpty, TreeMap.isEmpty_iff_forall_not_mem, List.eq_nil_iff_forall_not_mem]
  constructor
  · intro hnone x hx
    exact hnone x.1 (TreeMap.mem_keys.1 ((mem_nodes h).2 ⟨x.2, hx⟩))
  · intro hnone n hn
    obtain ⟨f, hf⟩ := h n hn
    exact hnone (n, f) hf

-- The list is what the map holds in full, so the other answers follow from the order of both.
theorem Filled.answersAs {r : Report} (h : t.Filled) (hr : Report.Ascending r.entries)
    (hentries : t.entries = r.entries) : t.AnswersAs r where
  entries := hentries
  isNew n f := by
    rw [Bool.eq_iff_iff, isNew_add, hentries]
    exact (Report.isNew_place hr).symm
  findingsAt n := by
    refine eq_of_ascending TreeSet.ordered_toList (Report.ascending_findingsAt hr n) fun f => ?_
    exact mem_findingsAt.trans (hentries ▸ Report.mem_findingsAt.symm)
  nodes := by
    refine eq_of_ascending TreeMap.ordered_keys ?_ fun n => ?_
    · exact (Report.ascending_nodes hr).imp compare_lt_iff_lt.2
    · rw [mem_nodes h, hentries, Report.mem_nodes]
  size := by rw [size_eq_length, hentries, Report.size]
  isEmpty := by
    rw [Bool.eq_iff_iff, isEmpty_iff h, hentries]
    exact List.isEmpty_iff.symm

theorem ofFindings_concat (made : List Located) (x : Located) :
    ofFindings (made ++ [x]) = ((ofFindings made).add x.1 x.2).2 := List.foldl_concat ..

theorem filled_ofFindings (made : List Located) : (ofFindings made).Filled := by
  induction made using List.reverseRecOn with
  | nil => exact fun n hn => absurd hn TreeMap.not_mem_emptyc
  | append_singleton made x ih =>
    rw [ofFindings_concat]
    exact ih.add x.1 x.2

theorem mem_ofFindings {made : List Located} : x ∈ (ofFindings made).entries ↔ x ∈ made := by
  induction made using List.reverseRecOn with
  | nil => exact Iff.rfl
  | append_singleton made y ih =>
    rw [ofFindings_concat, mem_add, List.mem_append, List.mem_singleton, ← ih, or_comm]

theorem answersAs_ofFindings (made : List Located) :
    (ofFindings made).AnswersAs (Report.ofFindings made) := by
  have hr := Report.ascending_ofFindings made
  refine (filled_ofFindings made).answersAs hr
    (eq_of_ascending (ascending_entries _) hr fun x => ?_)
  rw [mem_ofFindings, Report.mem_ofFindings]

end ByNode

/-- A report lists exactly the findings made, each once and in ascending order of node, kind,
message and certainty, says of each whether it is new, and answers all queries from that list,
as the map of sets does. It depends only on which findings are made, not on their order or on
how often each is made, and with it every answer and its text. -/
theorem findings_form_canonical_set :
    (∀ made : List Located, (Report.ofFindings made).Collects made ∧
      (ByNode.ofFindings made).AnswersAs (Report.ofFindings made)) ∧
    ∀ made made' : List Located, (∀ x, x ∈ made ↔ x ∈ made') →
      Report.ofFindings made = Report.ofFindings made' := by
  refine ⟨fun made => ⟨Report.collects_ofFindings made, ByNode.answersAs_ofFindings made⟩, ?_⟩
  intro made made' hmem
  have hentries : (Report.ofFindings made).entries = (Report.ofFindings made').entries := by
    refine eq_of_ascending (Report.ascending_ofFindings made) (Report.ascending_ofFindings made') ?_
    intro x
    rw [Report.mem_ofFindings, Report.mem_ofFindings, hmem]
  exact congrArg Report.mk hentries

def twoPasses : List Located :=
  [(⟨7⟩, ⟨.unreachableCode, "unreachable code", true⟩),
    (⟨4⟩, ⟨.contractViolation (.size 1 9), "name may violate @Size(min = 1, max = 9)", false⟩),
    (⟨4⟩, ⟨.contractViolation (.max 9), "count may violate @Max(9)", false⟩),
    (⟨4⟩, ⟨.contractViolation (.size 1 9), "name may violate @Size(min = 1, max = 9)", false⟩),
    (⟨4⟩, ⟨.contractViolation (.max 9), "count may violate @Max(9)", false⟩),
    (⟨4⟩, ⟨.divisionByZero, "division by zero", true⟩)]

def onePass : List Located :=
  [(⟨4⟩, ⟨.divisionByZero, "division by zero", true⟩),
    (⟨4⟩, ⟨.contractViolation (.max 9), "count may violate @Max(9)", false⟩),
    (⟨4⟩, ⟨.contractViolation (.size 1 9), "name may violate @Size(min = 1, max = 9)", false⟩),
    (⟨7⟩, ⟨.unreachableCode, "unreachable code", true⟩)]

theorem twoPasses_form_set_of_onePass :
    (∀ x, x ∈ twoPasses ↔ x ∈ onePass) ∧
    Report.ofFindings twoPasses = Report.ofFindings onePass ∧
    (Report.ofFindings twoPasses).entries = onePass ∧
    (Report.ofFindings twoPasses).text =
      "n4: error: division by zero\nn4: warning: count may violate @Max(9)\n" ++
      "n4: warning: name may violate @Size(min = 1, max = 9)\nn7: error: unreachable code\n" := by
  have hmem : ∀ x, x ∈ twoPasses ↔ x ∈ onePass := fun x => by
    simp only [twoPasses, onePass, List.mem_cons, List.not_mem_nil, or_false]
    tauto
  exact ⟨hmem, findings_form_canonical_set.2 _ _ hmem, by decide +kernel, by decide +kernel⟩

end ValueFlow

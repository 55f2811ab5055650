import Mathlib.Order.Compare
import ValueFlow.Report

namespace ValueFlow

open Std

theorem NodeId.index_inj {n m : NodeId} : n.index = m.index ↔ n = m := by
  cases n
  cases m
  rw [NodeId.mk.injEq]

namespace Contract

instance : TransOrd Contract :=
  inferInstanceAs (TransCmp
    (compareLex (compareOn rank) (compareLex (compareOn (·.bounds.1)) (compareOn (·.bounds.2)))))

theorem eq_of_rank_of_bounds {a b : Contract} (hrank : a.rank = b.rank)
    (hbounds : a.bounds = b.bounds) : a = b := by
  cases a <;> cases b <;> simp_all [rank, bounds]

instance : LawfulEqOrd Contract where
  eq_of_compare {a b} h := by
    obtain ⟨hrank, h⟩ := compareLex_eq_eq.1 h
    obtain ⟨hleast, hmost⟩ := compareLex_eq_eq.1 h
    apply eq_of_rank_of_bounds
    · exact LawfulEqCmp.eq_of_compare hrank
    · exact Prod.ext (LawfulEqCmp.eq_of_compare hleast) (LawfulEqCmp.eq_of_compare hmost)

end Contract

namespace FindingKind

def contract? : FindingKind → Option Contract
  | contractViolation c => some c
  | _ => none

theorem compare_eq_lex : (compare : FindingKind → FindingKind → Ordering) =
    compareLex (compareOn rank) (compareOn contract?) := by
  funext a b
  cases a <;> cases b <;> rfl

instance : TransOrd FindingKind := by
  unfold TransOrd
  rw [compare_eq_lex]
  infer_instance

instance : LawfulEqOrd FindingKind where
  eq_of_compare {a b} h := by
    rw [compare_eq_lex] at h
    obtain ⟨hrank, hcontract⟩ := compareLex_eq_eq.1 h
    have hrank : a.rank = b.rank := LawfulEqCmp.eq_of_compare hrank
    have hcontract : a.contract? = b.contract? := LawfulEqCmp.eq_of_compare hcontract
    cases a <;> cases b <;> simp_all [rank, contract?]

end FindingKind

namespace Finding

instance : TransOrd Finding :=
  inferInstanceAs (TransCmp
    (compareLex (compareOn kind) (compareLex (compareOn message) (compareOn definite))))

instance : LawfulEqOrd Finding where
  eq_of_compare {a b} h := by
    obtain ⟨hkind, h⟩ := compareLex_eq_eq.1 h
    obtain ⟨hmessage, hdefinite⟩ := compareLex_eq_eq.1 h
    cases a
    cases b
    rw [Finding.mk.injEq]
    exact ⟨LawfulEqCmp.eq_of_compare hkind, LawfulEqCmp.eq_of_compare hmessage,
      LawfulEqCmp.eq_of_compare hdefinite⟩

end Finding

namespace Located

instance : TransCmp order :=
  inferInstanceAs (TransCmp
    (compareLex (compareOn fun x : Located => x.1.index) (compareOn fun x : Located => x.2)))

theorem eq_of_order {x y : Located} (h : order x y = .eq) : x = y := by
  obtain ⟨hnode, hfinding⟩ := compareLex_eq_eq.1 h
  have hindex : x.1.index = y.1.index := LawfulEqCmp.eq_of_compare hnode
  exact Prod.ext (NodeId.index_inj.1 hindex) (LawfulEqCmp.eq_of_compare hfinding)

end Located

namespace Report

/-- Every entry comes before those that follow it. -/
def Ascending (entries : List Located) : Prop := entries.Pairwise (Located.order · · = .lt)

variable {x y z : Located} {entries : List Located}

theorem place_cons_of_lt (h : Located.order x z = .lt) :
    (place x (z :: entries)).2 = x :: z :: entries := by
  simp only [place, h]

theorem place_cons_of_eq (h : Located.order x z = .eq) :
    (place x (z :: entries)).2 = z :: entries := by
  simp only [place, h]

theorem place_cons_of_gt (h : Located.order x z = .gt) :
    (place x (z :: entries)).2 = z :: (place x entries).2 := by
  simp only [place, h, Prod.map_snd]

theorem mem_place : y ∈ (place x entries).2 ↔ y = x ∨ y ∈ entries := by
  induction entries with
  | nil => simp [place]
  | cons z rest ih =>
    cases horder : Located.order x z with
    | lt => rw [place_cons_of_lt horder, List.mem_cons]
    | eq =>
      rw [place_cons_of_eq horder, Located.eq_of_order horder, List.mem_cons]
      grind
    | gt =>
      rw [place_cons_of_gt horder, List.mem_cons, ih, List.mem_cons]
      grind

theorem place_of_lt (h : ∀ y ∈ entries, Located.order x y = .lt) :
    (place x entries).2 = x :: entries := by
  cases entries with
  | nil => rfl
  | cons z rest => exact place_cons_of_lt (h z (by simp))

/-- What comes before the first entry of an ascending list comes before all of them. -/
theorem lt_of_lt_head (h : Ascending (z :: entries)) (hx : Located.order x z = .lt)
    (hy : y ∈ z :: entries) : Located.order x y = .lt := by
  rcases List.mem_cons.1 hy with rfl | hy
  · exact hx
  · exact TransCmp.lt_trans hx ((List.pairwise_cons.1 h).1 y hy)

theorem ascending_place (h : Ascending entries) : Ascending (place x entries).2 := by
  induction entries with
  | nil => simp [place, Ascending]
  | cons z rest ih =>
    obtain ⟨hz, hrest⟩ := List.pairwise_cons.1 h
    cases horder : Located.order x z with
    | lt =>
      rw [place_cons_of_lt horder]
      exact List.pairwise_cons.2 ⟨fun y hy => lt_of_lt_head h horder hy, h⟩
    | eq =>
      rw [place_cons_of_eq horder]
      exact h
    | gt =>
      rw [place_cons_of_gt horder]
      refine List.pairwise_cons.2 ⟨fun y hy => ?_, ih hrest⟩
      rcases mem_place.1 hy with rfl | hy
      · exact OrientedCmp.gt_iff_lt.1 horder
      · exact hz y hy

/-- A selection from a report with one more finding is the selection from the report, with that
finding if it is selected. -/
theorem filter_place (keep : Located → Bool) (h : Ascending entries) :
    (place x entries).2.filter keep =
      if keep x then (place x (entries.filter keep)).2 else entries.filter keep := by
  induction entries with
  | nil => cases hx : keep x <;> simp [place, hx]
  | cons z rest ih =>
    have hrest := (List.pairwise_cons.1 h).2
    cases horder : Located.order x z with
    | lt =>
      have hall : ∀ y ∈ (z :: rest).filter keep, Located.order x y = .lt := fun y hy =>
        lt_of_lt_head h horder (List.mem_filter.1 hy).1
      rw [place_cons_of_lt horder, place_of_lt hall, List.filter_cons]
    | eq =>
      rw [place_cons_of_eq horder]
      obtain rfl := Located.eq_of_order horder
      cases hx : keep x with
      | false => rfl
      | true => simp only [List.filter_cons, hx, if_true, place_cons_of_eq horder]
    | gt =>
      rw [place_cons_of_gt horder, List.filter_cons, List.filter_cons, ih hrest]
      cases hz : keep z with
      | false => rfl
      | true =>
        cases hx : keep x with
        | false => rfl
        | true => simp only [if_true, place_cons_of_gt horder]

end Report

end ValueFlow

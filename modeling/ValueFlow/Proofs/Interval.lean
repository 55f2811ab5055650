import ValueFlow.Interval.Arithmetic
import ValueFlow.Interval.Narrowing

namespace ValueFlow.Interval

variable {a b : Interval} {x : Int}

theorem mem_hull_left (h : x ∈ a) : x ∈ a.hull b := by
  rw [mem_def] at h ⊢
  simp only [hull]
  omega

theorem mem_hull_right (h : x ∈ b) : x ∈ a.hull b := by
  rw [mem_def] at h ⊢
  simp only [hull]
  omega

theorem mem_widen_left (h : x ∈ a) : x ∈ a.widen b := by
  have ha := a.minInt_le_lo
  have hb := a.hi_le_maxInt
  rw [mem_def] at h ⊢
  simp only [widen]
  split <;> split <;> omega

theorem mem_widen_right (h : x ∈ b) : x ∈ a.widen b := by
  have ha := b.minInt_le_lo
  have hb := b.hi_le_maxInt
  rw [mem_def] at h ⊢
  simp only [widen]
  split <;> split <;> omega

theorem meet_isSome_of_mem (ha : x ∈ a) (hb : x ∈ b) : ∃ c, a.meet b = some c ∧ x ∈ c := by
  rw [mem_def] at ha hb
  have h : max a.lo b.lo ≤ min a.hi b.hi := by omega
  refine ⟨_, dif_pos h, ?_⟩
  rw [mem_def]
  simp only
  omega

theorem mem_of_includes (h : a.includes b = true) (hx : x ∈ b) : x ∈ a := by
  simp only [includes, Bool.and_eq_true, decide_eq_true_eq] at h
  rw [mem_def] at hx ⊢
  omega

end ValueFlow.Interval

import ValueFlow.Analysis.Loop
import ValueFlow.Proofs.Lattice

namespace ValueFlow

namespace Primitive

/-- A concrete value stored as the kind: a number stops at the nearest bound. -/
def clamp (k : Primitive) : Concrete → Concrete
  | .number n => .number (k.range?.elim n fun range => max range.lo (min range.hi n))
  | x => x

def Admits (k : Primitive) (x : Concrete) : Prop :=
  match k.range? with
  | some range => ∃ n ∈ range, x = .number n
  | none => x ≠ .null

theorem clamp_of_admits {k : Primitive} {x : Concrete} (h : k.Admits x) : k.clamp x = x := by
  unfold Admits at h
  cases hr : k.range? with
  | none =>
    cases x with
    | number n => simp [clamp, hr]
    | _ => rfl
  | some range =>
    rw [hr] at h
    obtain ⟨n, ⟨hlo, hhi⟩, rfl⟩ := h
    simp only [clamp, hr, Option.elim]
    congr 1
    omega

theorem ne_null_of_admits {k : Primitive} {x : Concrete} (h : k.Admits x) : x ≠ .null := by
  unfold Admits at h
  split at h
  · obtain ⟨n, -, rfl⟩ := h
    simp
  · exact h

end Primitive

namespace Ty

/-- What a variable of the type can hold; floating-point wrappers and other references are not
looked into. -/
def Admits : Ty → Concrete → Prop
  | primitive k, x => k.Admits x
  | boxed k, x => k.isIntegral = true → k.Admits x ∨ x = .null
  | _, _ => True

end Ty

def Tree.Admits (t : Tree) (d : DeclId) (x : Concrete) : Prop :=
  match (t.decl d).map Decl.ty with
  | .ok ty => ty.Admits x
  | .error _ => True

namespace Interval

variable {i range : Interval} {n : Int}

theorem clamp_mem_fit (h : n ∈ i) :
    max range.lo (min range.hi n) ∈ Overflow.saturate.fit i range := by
  have hr := range.lo_le_hi
  rw [mem_def] at h
  unfold Overflow.fit
  split
  · rename_i hi
    rw [includes_iff] at hi
    rw [mem_def]
    omega
  · rw [mem_def]
    simp only [clampInto]
    omega

end Interval

namespace Value

variable {v : Value} {x : Concrete} {k : Primitive}

theorem range?_eq_some {i : Interval} (h : v.range? = some i) : v = integer i ∨ v = char i := by
  cases v <;> simp_all [range?]

theorem clamp_of_range?_eq_none (hv : v.range? = none) (hbox : ∀ w n, v ≠ boxed w n) (hx : x ∈ v)
    (hne : x ≠ .null) : k.clamp x ∈ v := by
  cases x with
  | number n =>
    cases v with
    | any => trivial
    | integer i | char i => cases hv
    | boxed w n => exact absurd rfl (hbox w n)
    | object m => exact .inr (by simp [Primitive.clamp])
    | empty => exact hx.elim
    | null => cases hx
    | boolean t f => rcases hx with ⟨-, h⟩ | ⟨-, h⟩ <;> cases h
    | str l m | array l m => rcases hx with ⟨-, h⟩ | ⟨_, _, -, h⟩ <;> cases h
  | _ => exact hx

/-- What is not null and no wrapper is converted like each value it stands for. -/
theorem clamp_mem_convert (hbox : ∀ w n, v ≠ boxed w n) (hx : x ∈ v) (hne : x ≠ .null) :
    k.clamp x ∈ k.convert .saturate v := by
  -- a number of the value is fitted to the width; whatever else stays as it is
  have hnumeric : ∀ (range i : Interval), k.range? = some range → v.range? = some i →
      ∃ n ∈ Overflow.saturate.fit i range, k.clamp x = .number n := by
    intro range i hk hv
    have hx' : ∃ n ∈ i, x = .number n := by
      rcases range?_eq_some hv with rfl | rfl <;> exact hx
    obtain ⟨n, hn, rfl⟩ := hx'
    exact ⟨_, Interval.clamp_mem_fit hn, by simp [Primitive.clamp, hk]⟩
  have hother : v.range? = none → k.clamp x ∈ v := fun hv =>
    clamp_of_range?_eq_none hv hbox hx hne
  unfold Primitive.convert
  split
  · cases x <;> exact hx
  · trivial
  · trivial
  · split
    · rename_i i hi
      exact hnumeric charCodes i rfl hi
    · rename_i hv
      exact hother hv
  · split
    · rename_i i range hi hk
      exact hnumeric range i hk hi
    · rename_i hnone
      cases hv : v.range? with
      | none => exact hother hv
      | some i =>
        cases hk : k.range? with
        | some range => exact absurd hk (hnone i range hv)
        | none => cases k <;> simp_all [Primitive.range?, Interval.ofBounds?]

theorem not_boxed_of_isContent (h : v.isContent = true) : ∀ w n, v ≠ boxed w n := by
  intro w n hv
  rw [hv] at h
  cases h

/-- Conversion to a primitive contains what it stores of every value that is not null. -/
theorem clamp_mem_coerce_primitive {limit : Interval} (hwf : v.WellFormedWithin limit) (hx : x ∈ v)
    (hne : x ≠ .null) : k.clamp x ∈ ((Ty.primitive k).coerce v).value := by
  cases v with
  | empty => exact hx.elim
  | null => exact absurd hx hne
  | boxed w n =>
    rcases hx with ⟨-, h⟩ | ⟨-, hw⟩
    · exact absurd h hne
    · exact clamp_mem_convert (not_boxed_of_isContent hwf.1) hw hne
  | _ => exact clamp_mem_convert (by simp) hx hne

theorem mem_coerce_boxed {limit : Interval} (hwf : v.WellFormedWithin limit) (hx : x ∈ v)
    (hfit : k.clamp x = x) : x ∈ ((Ty.boxed k).coerce v).value := by
  cases v with
  | empty => exact hx.elim
  | boxed w n =>
    show x ∈ box (k.convert .saturate w) n
    rw [mem_box]
    rcases hx with h | ⟨hne, hw⟩
    · exact .inl h
    · have hclamp := clamp_mem_convert (k := k) (not_boxed_of_isContent hwf.1) hw hne
      exact .inr ⟨hne, hfit ▸ hclamp⟩
  | integer i | char i | boolean t f =>
    have hne := ne_null_of_isPrimitive rfl hx
    have hclamp := clamp_mem_convert (k := k) (by simp) hx hne
    exact mem_box.2 (.inr ⟨hne, hfit ▸ hclamp⟩)
  | _ => exact hx

end Value

theorem Tree.mem_fitDeclared (t : Tree) {limit : Interval} {d : DeclId} {v : Value} {x : Concrete}
    (hwf : v.WellFormedWithin limit) (hx : x ∈ v) (hadm : t.Admits d x) :
    x ∈ t.fitDeclared d v := by
  unfold Tree.Admits at hadm
  unfold Tree.fitDeclared
  split
  · rename_i k hty
    rw [hty] at hadm
    have hclamp := Value.clamp_mem_coerce_primitive (k := k) hwf hx
      (Primitive.ne_null_of_admits hadm)
    rwa [Primitive.clamp_of_admits hadm] at hclamp
  · rename_i k hty
    rw [hty] at hadm
    apply Value.mem_coerce_boxed hwf hx
    cases hk : k.range? with
    | none => cases x <;> simp [Primitive.clamp, hk]
    | some range =>
      rcases hadm (by simp [Primitive.isIntegral, hk]) with h | rfl
      · exact Primitive.clamp_of_admits h
      · rfl
  · exact hx

end ValueFlow

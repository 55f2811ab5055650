import ValueFlow.Proofs.Fault
import ValueFlow.Proofs.Idempotence

namespace ValueFlow

namespace Primitive

variable {k : Primitive} {range i : Interval} {n : Int} {policy : Overflow}

def modulus : Primitive → Nat
  | byte => 256
  | short | char => 65536
  | int => 4294967296
  | long => 18446744073709551616
  | boolean | float | double => 1

/-- What the low bits of a number stand for: two's complement, except that a character has no
sign. -/
def reduce (k : Primitive) (n : Int) : Int :=
  if k = char then n % k.modulus else n.bmod k.modulus

/-- What becomes of a number that is stored as the kind. -/
def land (k : Primitive) (range : Interval) (policy : Overflow) (n : Int) : Int :=
  match policy with
  | .saturate => max range.lo (min range.hi n)
  | .wrap => k.reduce n

theorem bounds_of_range? (hk : k.range? = some range) : 0 < k.modulus ∧
    ((k = char ∧ range.lo = 0 ∧ range.hi = k.modulus - 1) ∨
      (k ≠ char ∧ 2 * range.lo = -k.modulus ∧ 2 * range.hi = k.modulus - 2)) := by
  cases k with
  | boolean | float | double => cases hk
  | _ =>
    cases hk
    decide

theorem reduce_mem (hk : k.range? = some range) : k.reduce n ∈ range := by
  obtain ⟨hpos, ⟨hchar, hlo, hhi⟩ | ⟨hchar, hlo, hhi⟩⟩ := bounds_of_range? hk
  · have hnonneg := Int.emod_nonneg n (b := k.modulus) (by omega)
    have hlt := Int.emod_lt_of_pos n (b := k.modulus) (by omega)
    rw [reduce, if_pos hchar, Interval.mem_def]
    omega
  · have hle := Int.le_bmod (x := n) hpos
    have hlt := Int.bmod_lt (x := n) hpos
    rw [reduce, if_neg hchar, Interval.mem_def]
    omega

theorem reduce_of_mem (hk : k.range? = some range) (hn : n ∈ range) : k.reduce n = n := by
  rw [Interval.mem_def] at hn
  obtain ⟨-, ⟨hchar, hlo, hhi⟩ | ⟨hchar, hlo, hhi⟩⟩ := bounds_of_range? hk
  · rw [reduce, if_pos hchar]
    exact Int.emod_eq_of_lt (by omega) (by omega)
  · rw [reduce, if_neg hchar]
    exact Int.bmod_eq_of_le_mul_two (by omega) (by omega)

/-- The fit of an interval contains what each of its numbers becomes. -/
theorem land_mem_fit (policy : Overflow) (hk : k.range? = some range) (hn : n ∈ i) :
    k.land range policy n ∈ policy.fit i range := by
  cases policy with
  | saturate => exact Interval.clamp_mem_fit hn
  | wrap =>
    unfold Overflow.fit
    split
    · rename_i hi
      rw [land, reduce_of_mem hk (Interval.mem_of_includes hi hn)]
      exact hn
    · exact reduce_mem hk

def numeral (k : Primitive) (i : Interval) : Value := if k = char then .char i else .integer i

theorem convert_of_range? {v : Value} (hk : k.range? = some range) (hv : v.range? = some i) :
    k.convert policy v = k.numeral (policy.fit i range) := by
  cases k with
  | boolean | float | double => cases hk
  | char =>
    cases hk
    simp only [convert, hv]
    rfl
  | _ =>
    simp only [convert, hv, hk]
    rfl

theorem convert_of_range?_eq_none {v : Value} (hk : k.range? = some range)
    (hv : v.range? = none) : k.convert policy v = v := by
  cases k with
  | boolean | float | double => cases hk
  | _ => simp only [convert, hv]

theorem range?_numeral : (k.numeral i).range? = some i := by
  unfold numeral
  split <;> rfl

/-- Converting the result of a conversion changes nothing. -/
theorem convert_convert (hk : k.range? = some range) (v : Value) :
    k.convert policy (k.convert policy v) = k.convert policy v := by
  cases hv : v.range? with
  | none => rw [convert_of_range?_eq_none hk hv, convert_of_range?_eq_none hk hv]
  | some i =>
    have hfit : policy.fit (policy.fit i range) range = policy.fit i range :=
      if_pos (Value.includes_fit policy i range)
    rw [convert_of_range? hk hv, convert_of_range? hk range?_numeral, hfit]

end Primitive

namespace Value

variable {v w : Value} {x : Concrete} {k : Primitive} {range limit : Interval} {n : Int}
  {m : Bool} {policy : Overflow}

/-- A number is within the range of the kind, and a character exactly if the kind is. -/
def Fits (k : Primitive) (range : Interval) : Value → Prop
  | integer i => k ≠ .char ∧ range.includes i = true
  | char i => k = .char ∧ range.includes i = true
  | _ => True

theorem fits_convert (hk : k.range? = some range) (v : Value) :
    (k.convert policy v).Fits k range := by
  cases hv : v.range? with
  | none =>
    rw [Primitive.convert_of_range?_eq_none hk hv]
    cases v <;> trivial
  | some i =>
    rw [Primitive.convert_of_range? hk hv, Primitive.numeral]
    split
    · rename_i hchar
      exact ⟨hchar, includes_fit policy i range⟩
    · rename_i hchar
      exact ⟨hchar, includes_fit policy i range⟩

/-- What is no number and no wrapper stands for all numbers or for none. -/
theorem number_mem_of_range?_eq_none {n' : Int} (hv : v.range? = none)
    (hbox : ∀ w m, v ≠ boxed w m) (hn : .number n ∈ v) : .number n' ∈ v := by
  cases v with
  | any => trivial
  | object m => exact .inr (by simp)
  | integer i | char i => cases hv
  | boxed w m => exact absurd rfl (hbox w m)
  | empty => exact hn.elim
  | null => cases hn
  | boolean t f => rcases hn with ⟨-, h⟩ | ⟨-, h⟩ <;> cases h
  | str l m | array l m => rcases hn with ⟨-, h⟩ | ⟨_, _, -, h⟩ <;> cases h

theorem land_mem_convert (hk : k.range? = some range) (hbox : ∀ w m, v ≠ boxed w m)
    (hn : .number n ∈ v) : .number (k.land range policy n) ∈ k.convert policy v := by
  cases hv : v.range? with
  | none =>
    rw [Primitive.convert_of_range?_eq_none hk hv]
    exact number_mem_of_range?_eq_none hv hbox hn
  | some i =>
    have hfit := Primitive.land_mem_fit policy hk (mem_of_range? hv hn)
    rw [Primitive.convert_of_range? hk hv, Primitive.numeral]
    split <;> exact ⟨_, hfit, rfl⟩

section Unboxing

def needsUnboxing : Value → Bool
  | null | boxed .. => true
  | _ => false

theorem needsUnboxing_convert (policy : Overflow) (hk : k.range? = some range)
    (hv : v.needsUnboxing = false) : (k.convert policy v).needsUnboxing = false := by
  cases hr : v.range? with
  | none => rwa [Primitive.convert_of_range?_eq_none hk hr]
  | some i =>
    rw [Primitive.convert_of_range? hk hr, Primitive.numeral]
    split <;> rfl

theorem needsUnboxing_unboxed (hv : v.WellFormedWithin limit) (hnull : v ≠ null) :
    v.unboxed.needsUnboxing = false := by
  cases v with
  | null => exact absurd rfl hnull
  | boxed w m =>
    have hw := hv.1
    show w.needsUnboxing = false
    cases w <;> first | rfl | cases hw
  | _ => rfl

theorem value_convert_primitive (hk : k.range? = some range) (hnull : v ≠ null) :
    ((Ty.primitive k).convert policy v).value = k.convert policy v.unboxed := by
  cases v with
  | empty => exact (Primitive.convert_of_range?_eq_none hk rfl).symm
  | null => exact absurd rfl hnull
  | _ => rfl

theorem convert_primitive_of_unboxed (hk : k.range? = some range) (hv : v.needsUnboxing = false) :
    (Ty.primitive k).convert policy v = .ok (k.convert policy v) := by
  cases v with
  | empty => rw [Primitive.convert_of_range?_eq_none hk rfl, Ty.convert]
  | null | boxed w m => cases hv
  | _ => rfl

theorem fits_convert_primitive (hk : k.range? = some range) (v : Value) :
    ((Ty.primitive k).convert policy v).value.Fits k range := by
  by_cases hnull : v = null
  · rw [hnull]
    trivial
  · rw [value_convert_primitive hk hnull]
    exact fits_convert hk v.unboxed

theorem land_mem_convert_primitive (policy : Overflow) (hv : v.WellFormedWithin limit)
    (hk : k.range? = some range) (hn : .number n ∈ v) :
    .number (k.land range policy n) ∈ ((Ty.primitive k).convert policy v).value := by
  have hnull : v ≠ null := by
    rintro rfl
    cases hn
  have hplain := needsUnboxing_unboxed hv hnull
  rw [value_convert_primitive hk hnull]
  apply land_mem_convert hk
  · intro w m h
    rw [h] at hplain
    cases hplain
  · cases v with
    | boxed w m => exact number_mem_boxed.1 hn
    | _ => exact hn

theorem convert_convert_primitive (policy : Overflow) (hv : v.WellFormedWithin limit)
    (hk : k.range? = some range) :
    (Ty.primitive k).convert policy ((Ty.primitive k).convert policy v).value =
      .ok ((Ty.primitive k).convert policy v).value := by
  by_cases hnull : v = null
  · rw [hnull]
    rfl
  · have hplain := needsUnboxing_convert policy hk (needsUnboxing_unboxed hv hnull)
    rw [value_convert_primitive hk hnull, convert_primitive_of_unboxed hk hplain,
      Primitive.convert_convert hk]

theorem fault_convert_primitive (k : Primitive) (policy : Overflow) (v : Value) :
    ((Ty.primitive k).convert policy v).fault =
      if v = null then some ⟨.nullDereference, true⟩
      else if v.isNullableBox then some ⟨.nullDereference, false⟩ else none := by
  cases v <;> rfl

theorem fault_eq_definite_iff :
    ((Ty.primitive k).convert policy v).fault = some ⟨.nullDereference, true⟩ ↔ v = null := by
  rw [fault_convert_primitive]
  by_cases hnull : v = null
  · simp [hnull]
  · cases v.isNullableBox <;> simp [hnull]

theorem fault_eq_possible_iff :
    ((Ty.primitive k).convert policy v).fault = some ⟨.nullDereference, false⟩ ↔
      ∃ w, v = boxed w true := by
  have hbox : v.isNullableBox = true ↔ ∃ w, v = boxed w true := by
    cases v <;> simp [isNullableBox]
  rw [fault_convert_primitive, ← hbox]
  by_cases hnull : v = null
  · simp [hnull, isNullableBox]
  · cases v.isNullableBox <;> simp [hnull]

end Unboxing

section Boxing

/-- What a wrapper takes over from the value, and whether it may be null. -/
def carried? : Value → Option (Value × Bool)
  | boxed w m => some (w, m)
  | v => if v.isPrimitive then some (v, false) else none

theorem mem_of_carried? (h : v.carried? = some (w, m)) : x ∈ v ↔ x ∈ boxed w m := by
  cases v with
  | boxed w' m' =>
    cases h
    rfl
  | integer i | char i | boolean t f =>
    cases h
    simp only [mem_boxed, Bool.false_eq_true, false_and, false_or]
    exact ⟨fun hx => ⟨ne_null_of_isPrimitive rfl hx, hx⟩, fun hx => hx.2⟩
  | _ => cases h

theorem isContent_of_carried? (hv : v.WellFormedWithin limit) (h : v.carried? = some (w, m)) :
    w.isContent = true := by
  cases v with
  | boxed w' m' =>
    cases h
    exact hv.1
  | integer i | char i | boolean t f =>
    cases h
    rfl
  | _ => cases h

theorem isContent_convert (hk : k.range? = some range) (hw : w.isContent = true) :
    (k.convert policy w).isContent = true := by
  cases hr : w.range? with
  | none => rwa [Primitive.convert_of_range?_eq_none hk hr]
  | some i =>
    rw [Primitive.convert_of_range? hk hr, Primitive.numeral]
    split <;> rfl

theorem value_convert_boxed (hv : v.WellFormedWithin limit) (hk : k.range? = some range)
    (h : v.carried? = some (w, m)) :
    ((Ty.boxed k).convert policy v).value = boxed (k.convert policy w) m := by
  rw [← box_of_isContent (isContent_convert hk (isContent_of_carried? hv h))]
  cases v with
  | boxed w' m' | integer i | char i | boolean t f =>
    cases h
    rfl
  | _ => cases h

theorem value_convert_boxed_of_none (h : v.carried? = none) :
    ((Ty.boxed k).convert policy v).value = v := by
  cases v with
  | boxed w' m' | integer i | char i | boolean t f => cases h
  | _ => rfl

theorem fits_convert_boxed (hv : v.WellFormedWithin limit) (hk : k.range? = some range)
    (h : ((Ty.boxed k).convert policy v).value = boxed w m) : w.Fits k range := by
  cases hc : v.carried? with
  | none =>
    rw [value_convert_boxed_of_none hc] at h
    rw [h] at hc
    cases hc
  | some c =>
    rw [value_convert_boxed hv hk hc] at h
    cases h
    exact fits_convert hk c.1

theorem land_mem_convert_boxed (policy : Overflow) (hv : v.WellFormedWithin limit)
    (hk : k.range? = some range) (hn : .number n ∈ v) :
    .number (k.land range policy n) ∈ ((Ty.boxed k).convert policy v).value := by
  cases hc : v.carried? with
  | none =>
    rw [value_convert_boxed_of_none hc]
    refine number_mem_of_range?_eq_none ?_ ?_ hn
    · cases v <;> first | rfl | cases hc
    · rintro w m rfl
      cases hc
  | some c =>
    have hcontent := isContent_of_carried? hv hc
    rw [mem_of_carried? hc, number_mem_boxed] at hn
    rw [value_convert_boxed hv hk hc, number_mem_boxed]
    exact land_mem_convert hk (not_boxed_of_isContent hcontent) hn

theorem null_mem_convert_boxed (hv : v.WellFormedWithin limit) (hk : k.range? = some range)
    (hnull : .null ∈ v) : .null ∈ ((Ty.boxed k).convert policy v).value := by
  cases hc : v.carried? with
  | none => rwa [value_convert_boxed_of_none hc]
  | some c =>
    rw [mem_of_carried? hc, mem_boxed] at hnull
    rw [value_convert_boxed hv hk hc, mem_boxed]
    simpa using hnull

theorem value_convert_convert_boxed (hv : v.WellFormedWithin limit) (hk : k.range? = some range) :
    ((Ty.boxed k).convert policy ((Ty.boxed k).convert policy v).value).value =
      ((Ty.boxed k).convert policy v).value := by
  have hwf := wf_convert (Ty.boxed k) policy hv
  cases hc : v.carried? with
  | none => rw [value_convert_boxed_of_none hc, value_convert_boxed_of_none hc]
  | some c =>
    rw [value_convert_boxed hv hk hc] at hwf ⊢
    rw [value_convert_boxed hwf hk rfl, Primitive.convert_convert hk]

end Boxing

theorem fault_convert_of_not_primitive {ty : Ty} (hty : ∀ k, ty ≠ .primitive k) (v : Value) :
    (ty.convert policy v).fault = none := by
  cases ty with
  | primitive k => exact absurd rfl (hty k)
  | _ => cases v <;> rfl

end Value

/-- Converting a value to an integral kind or to its wrapper. The numbers of the result fit the
kind. An assignment clamps a number and a cast keeps its low bits, and the result stands for what
that gives; a wrapper keeps null. Assigning the result once more changes nothing and raises no
fault. Only unboxing has one, definite for null and possible for a wrapper that may be null. -/
theorem conversion_fits_contains_and_settles {limit : Interval} {v : Value}
    (hv : v.WellFormedWithin limit) {k : Primitive} {range : Interval}
    (hk : k.range? = some range) :
    (∀ policy, ((Ty.primitive k).convert policy v).value.Fits k range ∧
      ∀ w m, ((Ty.boxed k).convert policy v).value = .boxed w m → w.Fits k range) ∧
    (∀ ty : Ty, ty = .primitive k ∨ ty = .boxed k → ∀ n, .number n ∈ v →
      .number (max range.lo (min range.hi n)) ∈ (ty.coerce v).value ∧
      .number (k.reduce n) ∈ (ty.cast v).value) ∧
    (.null ∈ v → .null ∈ ((Ty.boxed k).coerce v).value ∧ .null ∈ ((Ty.boxed k).cast v).value) ∧
    (∀ ty : Ty, ty = .primitive k ∨ ty = .boxed k →
      (ty.coerce (ty.coerce v).value).value = (ty.coerce v).value) ∧
    ((Ty.primitive k).coerce ((Ty.primitive k).coerce v).value).fault = none ∧
    ∀ policy,
      (((Ty.primitive k).convert policy v).fault = some ⟨.nullDereference, true⟩ ↔ v = .null) ∧
      (((Ty.primitive k).convert policy v).fault = some ⟨.nullDereference, false⟩ ↔
        ∃ w, v = .boxed w true) ∧
      ∀ ty : Ty, (∀ k', ty ≠ .primitive k') → (ty.convert policy v).fault = none := by
  have hagain := Value.convert_convert_primitive .saturate hv hk
  refine ⟨fun policy => ⟨Value.fits_convert_primitive hk v, fun w m => ?_⟩, ?_, ?_, ?_, ?_, ?_⟩
  · exact Value.fits_convert_boxed hv hk
  · rintro ty (rfl | rfl) n hn
    · exact ⟨Value.land_mem_convert_primitive .saturate hv hk hn,
        Value.land_mem_convert_primitive .wrap hv hk hn⟩
    · exact ⟨Value.land_mem_convert_boxed .saturate hv hk hn,
        Value.land_mem_convert_boxed .wrap hv hk hn⟩
  · intro hnull
    exact ⟨Value.null_mem_convert_boxed hv hk hnull, Value.null_mem_convert_boxed hv hk hnull⟩
  · rintro ty (rfl | rfl)
    · rw [Ty.coerce, Ty.coerce, hagain]
      rfl
    · exact Value.value_convert_convert_boxed hv hk
  · rw [Ty.coerce, Ty.coerce, hagain]
    rfl
  · intro policy
    exact ⟨Value.fault_eq_definite_iff, Value.fault_eq_possible_iff, fun ty hty =>
      Value.fault_convert_of_not_primitive hty v⟩

def wideOrNull : Value := .boxed (.intRange (-1) 70000) true

/-- As a character, minus one stops at zero if it is assigned and is the last code if it is cast; a
null inside the wrapper may make unboxing fail. -/
theorem wideOrNull_as_character : wideOrNull.WellFormedWithin lengths ∧
    Primitive.range? .char = some charCodes ∧ .number (-1) ∈ wideOrNull ∧
    .number 0 ∈ ((Ty.primitive .char).coerce wideOrNull).value ∧
    .number 65535 ∈ ((Ty.primitive .char).cast wideOrNull).value ∧
    ((Ty.primitive .char).cast wideOrNull).fault = some ⟨.nullDereference, false⟩ ∧
    .null ∈ ((Ty.boxed .char).coerce wideOrNull).value := by
  have hwf : wideOrNull.WellFormedWithin lengths := ⟨rfl, trivial⟩
  have hone : .number (-1) ∈ wideOrNull := .inr ⟨by simp, -1, by decide, rfl⟩
  obtain ⟨-, hnumbers, hnull, -, -, hfault⟩ :=
    conversion_fits_contains_and_settles hwf (k := .char) rfl
  obtain ⟨hcoerce, hcast⟩ := hnumbers (.primitive .char) (.inl rfl) (-1) hone
  exact ⟨hwf, rfl, hone, hcoerce, hcast, (hfault .wrap).2.1.2 ⟨_, rfl⟩, (hnull (.inl ⟨rfl, rfl⟩)).1⟩

end ValueFlow

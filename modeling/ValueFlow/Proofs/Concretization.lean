import ValueFlow.Proofs.Execution
import ValueFlow.Proofs.LoopHead

namespace ValueFlow

/-- Some execution may reach the point with the store: it has the variables that the state
tracks, each with a value that the state allows. -/
def State.Denotes (S : State) (s : Store) : Prop :=
  S.unreachable = false ∧ ∀ d x, s d = some x → ∃ v, S.lookup d = some v ∧ x ∈ v

instance : Membership Store State := ⟨State.Denotes⟩

namespace State

variable {S T : State} {s : Store} {d : DeclId} {x : Concrete} {v : Value}

theorem reachable_of_mem (h : s ∈ S) : S.unreachable = false := h.1

theorem mem_of_lookup (h : s ∈ S) (hT : T.unreachable = false)
    (hlookup : ∀ d x v, s d = some x → S.lookup d = some v → x ∈ v →
      ∃ w, T.lookup d = some w ∧ x ∈ w) : s ∈ T := by
  refine ⟨hT, fun d x hx => ?_⟩
  obtain ⟨v, hv, hxv⟩ := h.2 d x hx
  exact hlookup d x v hx hv hxv

theorem mem_of_covers {t : Tree} (h : s ∈ S) (hT : T.unreachable = false) (hcovers : t.Covers T S)
    (hs : t.Typed s) : s ∈ T := by
  refine mem_of_lookup h hT fun d x v hx hv hxv => ?_
  obtain ⟨w, hw, hvw⟩ := hcovers d v hv
  exact ⟨w, hw, hvw x hxv (hs d x hx)⟩

theorem mem_merge_left (h : s ∈ S) : s ∈ S.merge T := by
  cases hT : T.unreachable with
  | true => rwa [merge, combine_of_dead_right hT]
  | false =>
    refine mem_of_lookup h (by rw [merge_unreachable, h.1]; rfl) fun d x v _ hv hxv => ?_
    rw [lookup_merge h.1 hT, hv]
    cases hw : T.lookup d with
    | none => exact ⟨v, rfl, hxv⟩
    | some w => exact ⟨v.merge w, rfl, Value.mem_merge (.inl hxv)⟩

theorem mem_merge_right (h : s ∈ T) : s ∈ S.merge T := by
  cases hS : S.unreachable with
  | true => rwa [merge, combine_of_dead_left hS h.1]
  | false =>
    refine mem_of_lookup h (by rw [merge_unreachable, hS]; rfl) fun d x w _ hw hxw => ?_
    rw [lookup_merge hS h.1, hw]
    cases hv : S.lookup d with
    | none => exact ⟨w, rfl, hxw⟩
    | some v => exact ⟨v.merge w, rfl, Value.mem_merge (.inr hxw)⟩

/-- Binding a variable anew: to a value it takes now, or to one it has already. -/
theorem mem_set (h : s ∈ S) (hx : x ∈ v) : s.set d x ∈ S.set d v := by
  refine ⟨h.1, fun e y hy => ?_⟩
  unfold Store.set at hy
  rw [lookup_set]
  split at hy
  · rename_i hde
    cases hy
    rw [if_pos hde]
    exact ⟨v, rfl, hx⟩
  · rename_i hde
    rw [if_neg hde]
    exact h.2 e y hy

theorem mem_set_of_has (h : s ∈ S) (hd : s d = some x) (hx : x ∈ v) : s ∈ S.set d v := by
  refine ⟨h.1, fun e y hy => ?_⟩
  rw [lookup_set]
  split
  · rename_i hde
    subst hde
    cases hd.symm.trans hy
    exact ⟨v, rfl, hx⟩
  · exact h.2 e y hy

theorem mem_killUnless {live : Bool} (h : s ∈ S) (hlive : live = true) : s ∈ S.killUnless live := by
  rw [killUnless, if_pos hlive]
  exact h

end State

section Intersect

variable {L R : State} {s u : Store}

theorem Value.exists_mem {v : Value} (hwf : v.WellFormedWithin lengths) (h : v.isEmpty = false) :
    ∃ x, x ∈ v := by
  have hlength : ∀ {l : Interval}, lengths.includes l = true →
      ∃ k : Fin 2147483648, (k.val : Int) ∈ l := by
    intro l hl
    rw [Interval.includes_iff] at hl
    have hlo := l.lo_le_hi
    have hmin : lengths.lo = 0 := rfl
    have hmax : lengths.hi = 2147483647 := rfl
    refine ⟨⟨l.lo.toNat, by omega⟩, ?_⟩
    rw [Interval.mem_def]
    simp only
    omega
  have hnumber : ∀ {i : Interval}, ∃ n : Int, n ∈ i := fun {i} => ⟨i.lo, Int.le_refl _, i.lo_le_hi⟩
  induction v with
  | any => exact ⟨.null, trivial⟩
  | empty => cases h
  | integer i | char i =>
    obtain ⟨n, hn⟩ := hnumber
    exact ⟨.number n, n, hn, rfl⟩
  | boolean t f =>
    rcases hwf with rfl | rfl
    · exact ⟨.bool true, .inl ⟨rfl, rfl⟩⟩
    · exact ⟨.bool false, .inr ⟨rfl, rfl⟩⟩
  | str l n =>
    obtain ⟨k, hk⟩ := hlength hwf
    exact ⟨.str 0 k, .inr ⟨0, k, hk, rfl⟩⟩
  | array l n =>
    obtain ⟨k, hk⟩ := hlength hwf
    exact ⟨.array 0 k, .inr ⟨0, k, hk, rfl⟩⟩
  | null => exact ⟨.null, rfl⟩
  | boxed v n ih =>
    obtain ⟨hcontent, hv⟩ := hwf
    cases v with
    -- inside a wrapper null does not count, so that of `any` is no help
    | any => exact ⟨.number 0, .inr ⟨by simp, trivial⟩⟩
    | integer i | char i | boolean t f =>
      obtain ⟨x, hx⟩ := ih hv rfl
      exact ⟨x, .inr ⟨Value.ne_null_of_isPrimitive rfl hx, hx⟩⟩
    | _ => cases hcontent
  | object n => exact ⟨.number 0, .inr (by simp)⟩

/-- Every variable for which the state allows some value exists in the store. -/
def Store.Fills (u : Store) (S : State) : Prop :=
  ∀ d v, S.lookup d = some v → v.isEmpty = false → ∃ x, u d = some x

theorem State.exists_fills (hwf : L.WellFormedWithin lengths) (h : s ∈ L) :
    ∃ u : Store, u.Extends s ∧ u ∈ L ∧ u.Fills L := by
  -- a variable that the store lacks gets any value that the state allows for it
  have hchoice : ∀ d, ∃ o : Option Concrete, (∀ x, s d = some x → o = some x) ∧
      (∀ x, o = some x → ∃ v, L.lookup d = some v ∧ x ∈ v) ∧
      ∀ v, L.lookup d = some v → v.isEmpty = false → ∃ x, o = some x := by
    intro d
    cases hs : s d with
    | some x =>
      exact ⟨some x, fun _ h => h, fun y hy => h.2 d y (hs.trans hy), fun _ _ _ => ⟨x, rfl⟩⟩
    | none =>
      cases hv : L.lookup d with
      | none => exact ⟨none, by simp, by simp, by simp⟩
      | some v =>
        cases he : v.isEmpty with
        | true => exact ⟨none, by simp, by simp, fun w hw hne => by cases hw; simp [he] at hne⟩
        | false =>
          obtain ⟨x, hx⟩ := Value.exists_mem (hwf d v hv) he
          refine ⟨some x, by simp, fun y hy => ?_, fun _ _ _ => ⟨x, rfl⟩⟩
          cases hy
          exact ⟨v, rfl, hx⟩
  refine ⟨fun d => (hchoice d).choose, fun d => ?_, ⟨h.1, fun d => ?_⟩, fun d => ?_⟩
  · exact (hchoice d).choose_spec.1
  · exact (hchoice d).choose_spec.2.1
  · exact (hchoice d).choose_spec.2.2

/-- Two states do not clash if one store that fills the first belongs to both. -/
theorem State.clash_eq_false (hL : u ∈ L) (hR : u ∈ R) (hfill : u.Fills L) {d : DeclId} {v : Value}
    (hv : R.lookup d = some v) : L.clash d v = false := by
  unfold State.clash
  cases hw : L.lookup d with
  | none => rfl
  | some w =>
    cases he : w.isEmpty with
    | true => simp [he]
    | false =>
      obtain ⟨x, hx⟩ := hfill d w hw he
      obtain ⟨w', hw', hxw⟩ := hL.2 d x hx
      obtain ⟨v', hv', hxv⟩ := hR.2 d x hx
      cases hw.symm.trans hw'
      cases hv.symm.trans hv'
      simp [Value.isEmpty_eq_false (Value.mem_intersect hxw hxv)]

theorem State.mem_intersect (hsL : s ∈ L) (hsR : s ∈ R) (hL : u ∈ L) (hR : u ∈ R)
    (hfill : u.Fills L) : s ∈ L.intersect R := by
  have hreach : (L.intersect R).unreachable = false := by
    rw [State.intersect, State.combine_of_reachable hsL.1 hsR.1]
    show (R.values.entries.any fun e => L.clash e.1 e.2) = false
    rw [List.any_eq_false]
    intro e he
    have hv : R.lookup e.1 = some e.2 := Bindings.findIn_of_mem R.values.ascending he
    rw [State.clash_eq_false hL hR hfill hv]
    exact Bool.false_ne_true
  refine State.mem_of_lookup hsL hreach fun d x v hx hv hxv => ?_
  obtain ⟨w, hw, hxw⟩ := hsR.2 d x hx
  rw [State.lookup_intersect hsL.1 hsR.1, hv, hw]
  exact ⟨v.intersect w, rfl, Value.mem_intersect hxv hxw⟩

/-- The store may lack a variable on which the two states would clash; a larger one shows that they
do not. -/
theorem State.mem_intersect_of_extends (hwf : L.WellFormedWithin lengths) (hs : s ∈ L)
    (hR : ∀ u : Store, u.Extends s → u ∈ L → u ∈ R) : s ∈ L.intersect R := by
  obtain ⟨u, hext, hu, hfill⟩ := State.exists_fills hwf hs
  exact State.mem_intersect hs (hR s (fun _ _ h => h) hs) hu (hR u hext hu) hfill

end Intersect

end ValueFlow

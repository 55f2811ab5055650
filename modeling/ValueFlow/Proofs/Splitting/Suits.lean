import ValueFlow.Proofs.Identity
import ValueFlow.Proofs.Soundness.Condition
import ValueFlow.Proofs.Splitting.Guard

namespace ValueFlow

section References

namespace Value

variable {a b v : Value} {n : Bool}

theorem isPrimitive_onlyNull : (onlyNull n).isPrimitive = false := by
  cases n <;> rfl

theorem isPrimitive_box : (box v n).isPrimitive = false := by
  unfold box
  split
  · exact isPrimitive_onlyNull
  · rfl

theorem isPrimitive_withNullable : (v.withNullable n).isPrimitive = v.isPrimitive := by
  cases v with
  | null => exact isPrimitive_onlyNull
  | _ => rfl

theorem isPrimitive_elim {o : Option Interval} {f : Interval → Value}
    (h : ∀ i, (f i).isPrimitive = false) : (o.elim (onlyNull n) f).isPrimitive = false := by
  cases o with
  | none => exact isPrimitive_onlyNull
  | some i => exact h i

theorem isPrimitive_withLength (l : Option Interval) :
    (v.withLength l).isPrimitive = v.isPrimitive := by
  cases v with
  | str i n => exact isPrimitive_elim fun _ => isPrimitive_elim fun _ => rfl
  | array i n => exact isPrimitive_elim fun _ => isPrimitive_elim fun _ => rfl
  | _ => rfl

theorem isPrimitive_narrow (c : Contract) (hv : v.isPrimitive = false) :
    (c.narrow v).isPrimitive = false := by
  have hnull : (if c.forbidsNull then v.withNullable false else v).isPrimitive = false := by
    split
    · exact isPrimitive_withNullable.trans hv
    · exact hv
  unfold Contract.narrow
  split
  · cases v with
    | boxed v n => exact isPrimitive_box
    | integer i | char i => cases hv
    | _ => exact hv
  · unfold withinLength
    split
    · exact (isPrimitive_withLength _).trans hnull
    · exact hnull
  · exact hnull

theorem isPrimitive_initialValue {ty : Ty} (hty : ty.isPlainReference = true)
    (contracts : List Contract) : (ty.initialValue contracts).isPrimitive = false := by
  have hfold : ∀ (cs : List Contract) (v : Value), v.isPrimitive = false →
      (cs.foldl (fun v c => c.narrow v) v).isPrimitive = false := by
    intro cs
    induction cs with
    | nil => exact fun v hv => hv
    | cons c cs ih => exact fun v hv => ih _ (isPrimitive_narrow c hv)
  refine hfold contracts _ ?_
  cases ty with
  | primitive k | boxed k | void => cases hty
  | string | array elem | object name => rfl

variable (ha : a.isPrimitive = false) (hb : b.isPrimitive = false)

include ha hb

theorem isPrimitive_merge : (a.merge b).isPrimitive = false := by
  unfold merge
  split
  · exact isPrimitive_box
  · rw [if_neg (by simp [ha]), if_neg (by simp [hb])]
    cases a <;> cases ha <;> cases b <;> cases hb <;> rfl

theorem isPrimitive_intersect : (a.intersect b).isPrimitive = false := by
  unfold intersect
  split
  · exact isPrimitive_box
  · rw [if_neg (by simp [ha]), if_neg (by simp [hb])]
    cases a <;> cases ha <;> cases b <;> cases hb <;>
      first
      | rfl
      | exact isPrimitive_onlyNull
      | exact isPrimitive_elim fun _ => rfl

omit hb in
theorem isPrimitive_restrictOrdered (narrow : Interval → Interval → Option Interval) :
    (restrictOrdered narrow a b).isPrimitive = false := by
  unfold restrictOrdered
  split
  · split
    · rfl
    · exact isPrimitive_box
  · rcases restrictOrderedRight_eq narrow a b with h | ⟨w, h⟩
    · rw [h]
      rfl
    · rw [h]
      cases a <;> first | exact ha | cases ha

theorem isPrimitive_restrictEqual : (restrictEqual a b).isPrimitive = false := by
  have hflat : (restrictEqualFlat a b).isPrimitive = false := by
    unfold restrictEqualFlat
    split
    · cases ha
    · cases ha
    · split
      · exact ha
      · exact isPrimitive_intersect ha hb
  have hgetD : ((restrictEqualNull a b).getD (restrictEqualFlat a b)).isPrimitive = false := by
    unfold restrictEqualNull
    split
    · rfl
    · split
      · exact isPrimitive_onlyNull
      · split
        · exact isPrimitive_onlyNull
        · exact hflat
  unfold restrictEqual
  split
  · rw [if_neg (by simp [hb])]
    exact hgetD
  · rw [if_neg (by simp [ha])]
    exact hgetD

theorem isPrimitive_restrictNotEqual : (restrictNotEqual a b).isPrimitive = false := by
  rw [restrictNotEqual_of_references ha hb]
  unfold restrictNotEqualNull
  split
  · rfl
  · split
    · exact isPrimitive_withNullable.trans ha
    · split
      · rfl
      · exact ha

/-- What a comparison with a reference leaves of a reference is no primitive either. -/
theorem isPrimitive_restrict (rel : Relation) : (a.restrict rel b).isPrimitive = false := by
  cases rel with
  | lt | le | gt | ge => exact isPrimitive_restrictOrdered ha _
  | eq => exact isPrimitive_restrictEqual ha hb
  | ne => exact isPrimitive_restrictNotEqual ha hb

end Value

end References

section Suits

/-- The state is well formed, and a variable whose type is never unboxed holds no primitive. -/
structure Tree.Suits (t : Tree) (S : State) : Prop where
  wellFormed : S.WellFormedWithin lengths
  references : ∀ d v, S.lookup d = some v → t.Declares Ty.isPlainReference d →
    v.isPrimitive = false

namespace Tree.Suits

variable {t : Tree} {S T : State} {d : DeclId} {v : Value}

theorem dead : t.Suits .dead := ⟨State.wf_dead, fun _ _ h => by cases h⟩

theorem kill (h : t.Suits S) : t.Suits S.kill := ⟨h.wellFormed, h.references⟩

theorem killUnless (h : t.Suits S) (live : Bool) : t.Suits (S.killUnless live) := by
  unfold State.killUnless
  split
  · exact h
  · exact h.kill

theorem set (h : t.Suits S) (hv : v.WellFormedWithin lengths)
    (href : t.Declares Ty.isPlainReference d → v.isPrimitive = false) : t.Suits (S.set d v) := by
  refine ⟨State.wf_set h.wellFormed hv, fun e w hw he => ?_⟩
  rw [State.lookup_set] at hw
  split at hw
  · rename_i hde
    cases hw
    exact href (hde ▸ he)
  · exact h.references e w hw he

/-- What holds of the values of both states holds of the combined ones. -/
theorem combined {g : Value → Value → Value} {op : State → State → State}
    (hop : State.CombinesBy g op) (h : t.Suits S) (h' : t.Suits T)
    (hwf : ∀ a b : Value, a.WellFormedWithin lengths → b.WellFormedWithin lengths →
      (g a b).WellFormedWithin lengths)
    (href : ∀ a b : Value, a.isPrimitive = false → b.isPrimitive = false →
      (g a b).isPrimitive = false) : t.Suits (op S T) :=
  hop.of_lookup h h' fun _ _ hlookup =>
    { wellFormed := hop.wf hwf h.wellFormed h'.wellFormed
      references := fun d v hv hd => Bindings.forall_combineValues href
        (fun a ha => h.references d a ha hd) (fun b hb => h'.references d b hb hd) v
        ((hlookup d).symm.trans hv) }

theorem merge (h : t.Suits S) (h' : t.Suits T) : t.Suits (S.merge T) :=
  combined State.combinesBy_merge h h' (fun _ _ => Value.wf_merge) fun _ _ =>
    Value.isPrimitive_merge

theorem intersect (h : t.Suits S) (h' : t.Suits T) : t.Suits (S.intersect T) :=
  combined State.combinesBy_intersect h h' (fun _ _ => Value.wf_intersect) fun _ _ =>
    Value.isPrimitive_intersect

theorem conjoin (h : t.Suits S) (h' : t.Suits T) (rhs : NodeId) : t.Suits (t.conjoin rhs S T) := by
  unfold Tree.conjoin
  split
  · exact dead
  · split
    · exact h'
    · exact h.intersect h'

theorem narrowLength (h : t.Suits S) (range : Interval) : t.Suits (S.narrowLength d range) := by
  have hget : (S.get d).WellFormedWithin lengths ∧
      (t.Declares Ty.isPlainReference d → (S.get d).isPrimitive = false) := by
    unfold State.get
    split
    · exact ⟨trivial, fun _ => rfl⟩
    · cases hd : S.lookup d with
      | none => exact ⟨trivial, fun _ => rfl⟩
      | some v => exact ⟨h.wellFormed d v hd, h.references d v hd⟩
  unfold State.narrowLength
  split
  · dsimp only
    split
    · exact h.kill
    · exact h.set (Value.wf_withLength (by decide) _ hget.1) fun hd =>
        (Value.isPrimitive_withLength _).trans (hget.2 hd)
  · exact h

/-- What is read of a variable: its tracked value, or what its declaration allows. -/
theorem wf_read (h : t.Suits S) (decl : Decl) :
    ((S.lookup d).getD decl.initialValue).WellFormedWithin lengths := by
  cases hd : S.lookup d with
  | some v => exact h.wellFormed d v hd
  | none => exact Value.wf_initialValue (by decide) decl.ty decl.contracts

theorem isPrimitive_read (h : t.Suits S) {decl : Decl} (hdecl : t.decl d = .ok decl)
    (hty : decl.ty.isPlainReference = true) :
    ((S.lookup d).getD decl.initialValue).isPrimitive = false := by
  cases hd : S.lookup d with
  | some v => exact h.references d v hd ⟨decl, hdecl, hty⟩
  | none => exact Value.isPrimitive_initialValue hty decl.contracts

end Tree.Suits

end Suits

end ValueFlow

import ValueFlow.Analysis.Loop
import ValueFlow.Bindings.Lemmas
import ValueFlow.Proofs.Conversion

namespace ValueFlow

open Bindings

namespace State

variable {s other : State} {d e : DeclId} {v : Value} {f : State → State → State}

@[simp] theorem lookup_dead : State.dead.lookup d = none := rfl

@[simp] theorem lookup_kill : s.kill.lookup d = s.lookup d := rfl

theorem lookup_set : (s.set d v).lookup e = if d = e then some v else s.lookup e :=
  find?_insert s.values

theorem combine_of_dead_right (h : other.unreachable = true) : combine f s other = s := by
  rw [combine, if_pos h]

theorem combine_of_dead_left (hs : s.unreachable = true) (h : other.unreachable = false) :
    combine f s other = other := by
  rw [combine, if_neg (by simp [h]), if_pos hs]

theorem combine_of_reachable (hs : s.unreachable = false) (h : other.unreachable = false) :
    combine f s other = f s other := by
  rw [combine, if_neg (by simp [h]), if_neg (by simp [hs])]

/-- An unreachable state gives way to the other one, and the values of two reachable ones are
combined by `g`. -/
def CombinesBy (g : Value → Value → Value) (op : State → State → State) : Prop :=
  ∃ f, op = combine f ∧
    ∀ s other d, (f s other).lookup d = combineValues g (s.lookup d) (other.lookup d)

theorem combinesBy_merge : CombinesBy Value.merge merge :=
  ⟨_, rfl, fun s other _ => find?_unionWith s.values other.values⟩

theorem combinesBy_intersect : CombinesBy Value.intersect intersect :=
  ⟨_, rfl, fun s other _ => find?_unionWith s.values other.values⟩

theorem combinesBy_widen : CombinesBy Value.widen widen :=
  ⟨_, rfl, fun s other _ => find?_unionWith s.values other.values⟩

namespace CombinesBy

variable {g : Value → Value → Value} {op : State → State → State}

theorem lookup (hop : CombinesBy g op) (hs : s.unreachable = false)
    (h : other.unreachable = false) :
    (op s other).lookup d = combineValues g (s.lookup d) (other.lookup d) := by
  obtain ⟨f, rfl, hf⟩ := hop
  rw [combine_of_reachable hs h, hf]

/-- What holds of both states holds of the result, if it does where their values are combined. -/
theorem of_lookup {P : State → Prop} (hop : CombinesBy g op) (hs : P s) (hother : P other)
    (h : s.unreachable = false → other.unreachable = false →
      (∀ d, (op s other).lookup d = combineValues g (s.lookup d) (other.lookup d)) →
      P (op s other)) : P (op s other) := by
  have hlive : s.unreachable = false → other.unreachable = false → P (op s other) :=
    fun hs' hother' => h hs' hother' fun _ => hop.lookup hs' hother'
  obtain ⟨f, rfl, -⟩ := hop
  cases hother' : other.unreachable with
  | true => rwa [combine_of_dead_right hother']
  | false =>
    cases hs' : s.unreachable with
    | true => rwa [combine_of_dead_left hs' hother']
    | false => exact hlive hs' hother'

end CombinesBy

theorem lookup_merge (hs : s.unreachable = false) (h : other.unreachable = false) :
    (s.merge other).lookup d = combineValues Value.merge (s.lookup d) (other.lookup d) :=
  combinesBy_merge.lookup hs h

theorem lookup_intersect (hs : s.unreachable = false) (h : other.unreachable = false) :
    (s.intersect other).lookup d = combineValues Value.intersect (s.lookup d) (other.lookup d) :=
  combinesBy_intersect.lookup hs h

theorem lookup_widen (hs : s.unreachable = false) (h : other.unreachable = false) :
    (s.widen other).lookup d = combineValues Value.widen (s.lookup d) (other.lookup d) :=
  combinesBy_widen.lookup hs h

theorem lookup_giveUp (s previous : State) (hs : s.unreachable = false) :
    (s.giveUp previous).lookup d =
      (s.lookup d).map fun v => if previous.givesUp d v then .any else v := by
  rw [giveUp, if_neg (by simp [hs])]
  exact find?_map s.values _

end State

theorem Tree.lookup_fitState (t : Tree) {s : State} {d : DeclId} (hs : s.unreachable = false) :
    (t.fitState s).lookup d = (s.lookup d).map (t.fitDeclared d) := by
  rw [Tree.fitState, if_neg (by simp [hs])]
  exact find?_map s.values _

section WellFormed

variable {limit : Interval}

/-- Every tracked value meets the representation invariant. -/
def State.WellFormedWithin (limit : Interval) (s : State) : Prop :=
  ∀ d v, s.lookup d = some v → v.WellFormedWithin limit

namespace State

variable {s other : State}

theorem wf_dead : State.dead.WellFormedWithin limit := by
  intro d v h
  cases h

theorem wf_set {d : DeclId} {v : Value} (hs : s.WellFormedWithin limit)
    (hv : v.WellFormedWithin limit) : (s.set d v).WellFormedWithin limit := by
  intro e w h
  rw [lookup_set] at h
  split at h
  · cases h
    exact hv
  · exact hs e w h

theorem wf_full (hs : s.WellFormedWithin limit) : s.WellFormedWithin .full :=
  fun d v h => Value.wf_full (hs d v h)

theorem CombinesBy.wf {g : Value → Value → Value} {op : State → State → State}
    (hop : CombinesBy g op)
    (hg : ∀ a b : Value, a.WellFormedWithin limit → b.WellFormedWithin limit →
      (g a b).WellFormedWithin limit)
    (hs : s.WellFormedWithin limit) (hother : other.WellFormedWithin limit) :
    (op s other).WellFormedWithin limit :=
  hop.of_lookup hs hother fun _ _ hlookup d v hv =>
    forall_combineValues hg (hs d) (hother d) v ((hlookup d).symm.trans hv)

theorem wf_merge (hs : s.WellFormedWithin limit) (hother : other.WellFormedWithin limit) :
    (s.merge other).WellFormedWithin limit :=
  combinesBy_merge.wf (fun _ _ => Value.wf_merge) hs hother

theorem wf_intersect (hs : s.WellFormedWithin limit) (hother : other.WellFormedWithin limit) :
    (s.intersect other).WellFormedWithin limit :=
  combinesBy_intersect.wf (fun _ _ => Value.wf_intersect) hs hother

theorem wf_widen (hlimit : limit.includes lengths = true) (hs : s.WellFormedWithin limit)
    (hother : other.WellFormedWithin limit) : (s.widen other).WellFormedWithin limit :=
  combinesBy_widen.wf (fun _ _ => Value.wf_widen hlimit) hs hother

theorem wf_giveUp (previous : State) (hs : s.WellFormedWithin limit) :
    (s.giveUp previous).WellFormedWithin limit := by
  cases hr : s.unreachable with
  | true => rwa [giveUp, if_pos hr]
  | false =>
    intro d w h
    rw [lookup_giveUp s previous hr] at h
    obtain ⟨v, hv, rfl⟩ := Option.map_eq_some_iff.1 h
    split
    · trivial
    · exact hs d v hv

end State

theorem wf_fitDeclared (t : Tree) (d : DeclId) {v : Value} (hv : v.WellFormedWithin limit) :
    (t.fitDeclared d v).WellFormedWithin limit := by
  unfold Tree.fitDeclared
  split
  · exact Value.wf_convert _ .saturate hv
  · exact Value.wf_convert _ .saturate hv
  · exact hv

theorem wf_fitState (t : Tree) {s : State} (hs : s.WellFormedWithin limit) :
    (t.fitState s).WellFormedWithin limit := by
  cases hr : s.unreachable with
  | true => rwa [Tree.fitState, if_pos hr]
  | false =>
    intro d w h
    rw [t.lookup_fitState hr] at h
    obtain ⟨v, hv, rfl⟩ := Option.map_eq_some_iff.1 h
    exact wf_fitDeclared t d (hs d v hv)

theorem wf_advance (ctx : Context) (hlimit : limit.includes lengths = true) (iteration : Nat)
    {head back : State} (hhead : head.WellFormedWithin limit)
    (hback : back.WellFormedWithin limit) :
    (ctx.advance iteration head back).WellFormedWithin limit := by
  unfold Context.advance
  split
  · exact wf_fitState ctx.tree (State.wf_widen hlimit hhead hback)
  · exact State.wf_merge hhead hback

end WellFormed

end ValueFlow

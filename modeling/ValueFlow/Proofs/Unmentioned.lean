import ValueFlow.Proofs.Idempotence
import ValueFlow.Proofs.Invariant

namespace ValueFlow

open Bindings

inductive Tree.Below (t : Tree) (root : NodeId) : NodeId → Prop
  | root : t.Below root root
  | child {n c : NodeId} {node : Node} : t.Below root n → t.node n = .ok node →
      c ∈ node.children → t.Below root c

/-- A node from `body` on downwards reads, writes or declares `d`. -/
def Tree.Mentions (t : Tree) (body : NodeId) (d : DeclId) : Prop :=
  ∃ n node, t.Below body n ∧ t.node n = .ok node ∧ node.decl? = some d

/-- The declared type of `d`, if it has a width, does not cut what `s` holds of it. -/
inductive Tree.FitsAlready (t : Tree) (d : DeclId) (s : State) : Prop
  | untracked : s.lookup d = none → t.FitsAlready d s
  | undeclared {e : TreeError} : t.decl d = .error e → t.FitsAlready d s
  | unbounded {decl : Decl} : t.decl d = .ok decl → (∀ k, decl.ty ≠ .primitive k) →
      (∀ k, decl.ty ≠ .boxed k) → t.FitsAlready d s
  | fits {decl : Decl} {v : Value} : t.decl d = .ok decl → s.lookup d = some v →
      (decl.ty.coerce v).value = v → t.FitsAlready d s

theorem Tree.FitsAlready.fitDeclared {t : Tree} {d : DeclId} {s : State} {v : Value}
    (h : t.FitsAlready d s) (hv : s.lookup d = some v) : t.fitDeclared d v = v := by
  unfold Tree.fitDeclared
  cases h with
  | untracked hnone =>
    rw [hnone] at hv
    cases hv
  | undeclared hd => rw [hd, Except.map]
  | @unbounded decl hd hprimitive hboxed =>
    rw [hd, Except.map]
    cases hty : decl.ty with
    | primitive k => exact absurd hty (hprimitive k)
    | boxed k => exact absurd hty (hboxed k)
    | _ => rfl
  | @fits decl w hd hw hfits =>
    rw [hw, Option.some.injEq] at hv
    subst hv
    rw [hd, Except.map]
    cases hty : decl.ty with
    | primitive k | boxed k =>
      rw [hty] at hfits
      exact hfits
    | _ => rfl

/-- Unreachable, or `o` is what is tracked of `d`. -/
def State.Holds (d : DeclId) (o : Option Value) (s : State) : Prop :=
  s.unreachable = false → s.lookup d = o

namespace State

variable {s other : State} {d e : DeclId} {o : Option Value} {v : Value}

theorem combineValues_self {f : Value → Value → Value} (hf : ∀ v, o = some v → f v v = v) :
    combineValues f o o = o := by
  cases o with
  | none => rfl
  | some v => exact congrArg some (hf v rfl)

theorem holds_set (hs : s.Holds d o) (he : e ≠ d) : (s.set e v).Holds d o := by
  intro hlive
  rw [lookup_set, if_neg he]
  exact hs hlive

theorem CombinesBy.holds {g : Value → Value → Value} {op : State → State → State}
    (hop : CombinesBy g op) (hg : ∀ v, o = some v → g v v = v) (hs : s.Holds d o)
    (hother : other.Holds d o) : (op s other).Holds d o := by
  refine hop.of_lookup hs hother fun hlive hlive' hlookup _ => ?_
  rw [hlookup, hs hlive, hother hlive', combineValues_self hg]

section Operations

variable (ho : ∀ v, o = some v → v.WellFormedWithin lengths)

include ho

theorem holds_merge (hs : s.Holds d o) (hother : other.Holds d o) : (s.merge other).Holds d o :=
  combinesBy_merge.holds (fun v hv => Value.merge_self (ho v hv)) hs hother

theorem holds_intersect (hs : s.Holds d o) (hother : other.Holds d o) :
    (s.intersect other).Holds d o :=
  combinesBy_intersect.holds (fun v hv => Value.intersect_self (ho v hv)) hs hother

theorem holds_widen (hs : s.Holds d o) (hother : other.Holds d o) : (s.widen other).Holds d o :=
  combinesBy_widen.holds (fun v hv => Value.widen_self (ho v hv)) hs hother

theorem holds_advance (ctx : Context) (hfit : ∀ v, o = some v → ctx.tree.fitDeclared d v = v)
    (iteration : Nat) (hs : s.Holds d o) (hother : other.Holds d o) :
    (ctx.advance iteration s other).Holds d o := by
  unfold Context.advance
  split
  · intro hlive
    rw [Tree.fitState_unreachable] at hlive
    rw [ctx.tree.lookup_fitState hlive, holds_widen ho hs hother hlive]
    cases o with
    | none => rfl
    | some v => exact congrArg some (hfit v rfl)
  · exact holds_merge ho hs hother

end Operations

theorem holds_giveUp (hs : s.Holds d o) (hother : other.Holds d o)
    (hlive' : other.unreachable = false) : (s.giveUp other).Holds d o := by
  intro hlive
  rw [giveUp_unreachable] at hlive
  rw [lookup_giveUp s other hlive, hs hlive]
  cases o with
  | none => rfl
  | some v =>
    have hkeeps : other.keeps d v = true := by simp [keeps, hlive', hother hlive']
    rw [Option.map_some, givesUp, hkeeps]
    rfl

end State

/-- No state holds anything else of `d`, and no node mentions it. -/
def unmentioned (d : DeclId) (o : Option Value) : Invariant where
  value _ := True
  state := State.Holds d o
  decl e := e ≠ d

theorem kept_unmentioned (ctx : Context) {body : NodeId} {d : DeclId} {o : Option Value}
    (ho : ∀ v, o = some v → v.WellFormedWithin lengths)
    (hfit : ∀ v, o = some v → ctx.tree.fitDeclared d v = v) (hd : ¬ ctx.tree.Mentions body d) :
    (unmentioned d o).Kept ctx (ctx.tree.Below body) where
  value := Simulation.valueLaws_trivial
  state :=
    { lookup := fun _ _ => trivial
      dead := fun h => Bool.noConfusion h
      kill := fun _ h => Bool.noConfusion h
      set := fun hs he _ => State.holds_set hs he
      merge := State.holds_merge ho
      intersect := State.holds_intersect ho }
  advance iteration _ _ := State.holds_advance ho ctx hfit iteration
  giveUp := State.holds_giveUp
  child hn hnode hc := .child hn hnode hc
  mention {n node e} hn hnode he := by
    rintro rfl
    exact hd ⟨n, node, hn, hnode, he⟩
  literal _ _ _ := trivial

/-- If no node of the body mentions a declaration, and its declared width does not cut what the
well-formed initial state holds of it, then this is what every reachable state holds of it in which
the analysis ends, from which it returns, or which it traces. -/
theorem unmentioned_declaration_keeps_entry (t : Tree) (settings : Settings) {body : NodeId}
    {initial : State} {d : DeclId} {r : Analysis} (hwf : initial.WellFormedWithin lengths)
    (hd : ¬ t.Mentions body d) (hfit : t.FitsAlready d initial)
    (hr : t.analyze settings body initial = .ok r) :
    r.Upholds (State.Holds d (initial.lookup d)) := by
  have hkept : (unmentioned d (initial.lookup d)).Kept (t.context settings) (t.Below body) :=
    kept_unmentioned (t.context settings) (hwf d) (fun v hv => hfit.fitDeclared hv) hd
  exact hkept.upholds_run .root (fun _ => rfl)
    (.of_fresh (fun h => Bool.noConfusion h) rfl rfl rfl) hr

/-- `while (i < 100) { if (i == 7) break; ++i; }`, with a `byte` beside it. -/
def searchLoop : Tree where
  nodes := #[.expr (.name ⟨0⟩), .expr (.literal (.int 100)), .expr (.compare .lt ⟨0⟩ ⟨1⟩),
    .expr (.literal (.int 7)), .expr (.compare .eq ⟨0⟩ ⟨3⟩), .stmt .breakOut,
    .stmt (.branch ⟨4⟩ ⟨5⟩ none), .expr (.unary .preInc ⟨0⟩), .stmt (.expr ⟨7⟩),
    .stmt (.block [⟨6⟩, ⟨8⟩]), .stmt (.whileLoop ⟨2⟩ ⟨9⟩)]
  decls := #[⟨"i", .primitive .int, [], .var⟩, ⟨"level", .primitive .byte, [], .param⟩]

def searchLoop.start : State :=
  (State.initial.set ⟨0⟩ (.integer (.point 0))).set ⟨1⟩ (.integer (.saturated 3 5 (by decide)))

def searchLoop.settings : Settings := { wideningThreshold := 0, maxIterations := 1 }

theorem searchLoop_keeps_level : searchLoop.start.WellFormedWithin lengths ∧
    ¬ searchLoop.Mentions ⟨10⟩ ⟨1⟩ ∧ searchLoop.FitsAlready ⟨1⟩ searchLoop.start ∧
    ∃ r, searchLoop.analyze searchLoop.settings ⟨10⟩ searchLoop.start = .ok r ∧
      r.final.unreachable = false ∧
      r.final.lookup ⟨1⟩ = some (.integer (.saturated 3 5 (by decide))) := by
  have hwf : searchLoop.start.WellFormedWithin lengths :=
    State.wf_set (State.wf_set (fun _ _ h => by cases h) trivial) trivial
  have hd : ¬ searchLoop.Mentions ⟨10⟩ ⟨1⟩ := fun ⟨_, _, _, hn, he⟩ =>
    absurd (Tree.mem_mentioned hn he) (by decide)
  have hfit : searchLoop.FitsAlready ⟨1⟩ searchLoop.start := .fits rfl rfl (by decide)
  have hlive : (searchLoop.analyze searchLoop.settings ⟨10⟩ searchLoop.start).map
      (·.final.unreachable) = .ok false := by decide +kernel
  refine ⟨hwf, hd, hfit, ?_⟩
  cases hr : searchLoop.analyze searchLoop.settings ⟨10⟩ searchLoop.start with
  | error e =>
    rw [hr] at hlive
    cases hlive
  | ok r =>
    rw [hr] at hlive
    have hreached : r.final.unreachable = false := Except.ok.inj hlive
    have hkeeps := unmentioned_declaration_keeps_entry searchLoop _ hwf hd hfit hr
    exact ⟨r, rfl, hreached, hkeeps.final hreached⟩

end ValueFlow

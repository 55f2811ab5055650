import ValueFlow.Proofs.Execution
import ValueFlow.Proofs.Shape

namespace ValueFlow

inductive Measure where
  | literal (l : Literal)
  | name (d : DeclId)
  -- the length of the string or array that the variable holds
  | length (d : DeclId)
  | arith (op : Arith) (l r : Measure)

inductive Reference where
  | null
  | name (d : DeclId)

inductive Guard where
  -- a boolean variable
  | flag (d : DeclId)
  | numbers (rel : Relation) (l r : Measure)
  | references (rel : Relation) (l r : Reference)
  | not (g : Guard)
  | and (l r : Guard)
  | or (l r : Guard)

section Meaning

namespace Concrete

def number? : Concrete → Option Int
  | number m => some m
  | _ => none

/-- A primitive is a reference only inside a wrapper. -/
def isWrapped : Concrete → Bool
  | number _ | bool _ => true
  | _ => false

/-- Whether `==` may come out as `b` for two references. A reference is identical with itself alone,
but two wrappers around one primitive may be one object or two. -/
def MayEqual (x y : Concrete) (b : Bool) : Prop :=
  if b then x = y else x ≠ y ∨ x.isWrapped = true

end Concrete

/-- Whether the comparison of two references may come out as `b`. They have no order. -/
def Relation.Compares (rel : Relation) (x y : Concrete) (b : Bool) : Prop :=
  match rel with
  | eq => x.MayEqual y b
  | ne => x.MayEqual y !b
  | _ => False

def Measure.eval? (s : Store) : Measure → Option Int
  | literal l => l.code?
  | name d => (s d).bind Concrete.number?
  | length d => (s d).bind Concrete.length?
  | arith op l r => (l.eval? s).bind fun m => (r.eval? s).bind (op.eval? m)

def Reference.eval? (s : Store) : Reference → Option Concrete
  | null => some .null
  | name d => s d

/-- The guard may come out as `b`. The right operand of `and` and `or` is looked at only if the left
one leaves the outcome open. -/
def Guard.ComesOut (s : Store) : Guard → Bool → Prop
  | flag d, b => s d = some (.bool b)
  | numbers rel l r, b => ∃ m k, l.eval? s = some m ∧ r.eval? s = some k ∧ rel.holds m k = b
  | references rel l r, b => ∃ x y, l.eval? s = some x ∧ r.eval? s = some y ∧ rel.Compares x y b
  | not g, b => g.ComesOut s !b
  | and l r, b => (b = false ∧ l.ComesOut s false) ∨ (l.ComesOut s true ∧ r.ComesOut s b)
  | or l r, b => (b = true ∧ l.ComesOut s true) ∨ (l.ComesOut s false ∧ r.ComesOut s b)

variable {s u : Store} (hu : u.Extends s)

include hu

theorem Store.Extends.bind_eq_some {α : Type} {f : Concrete → Option α} {d : DeclId} {a : α}
    (h : (s d).bind f = some a) : (u d).bind f = some a := by
  obtain ⟨x, hx, ha⟩ := Option.bind_eq_some_iff.1 h
  rw [hu d x hx]
  exact ha

theorem Measure.eval?_extends {e : Measure} {m : Int} (h : e.eval? s = some m) :
    e.eval? u = some m := by
  induction e generalizing m with
  | literal l => exact h
  | name d => exact hu.bind_eq_some h
  | length d => exact hu.bind_eq_some h
  | arith op l r ihl ihr =>
    obtain ⟨p, hp, h⟩ := Option.bind_eq_some_iff.1 h
    obtain ⟨q, hq, h⟩ := Option.bind_eq_some_iff.1 h
    rw [eval?, ihl hp, ihr hq]
    exact h

theorem Reference.eval?_extends {e : Reference} {x : Concrete} (h : e.eval? s = some x) :
    e.eval? u = some x := by
  cases e with
  | null => exact h
  | name d => exact hu d x h

theorem Guard.ComesOut.extends {g : Guard} {b : Bool} (h : g.ComesOut s b) : g.ComesOut u b := by
  induction g generalizing b with
  | flag d => exact hu d _ h
  | numbers rel l r =>
    obtain ⟨m, k, hm, hk, h⟩ := h
    exact ⟨m, k, Measure.eval?_extends hu hm, Measure.eval?_extends hu hk, h⟩
  | references rel l r =>
    obtain ⟨x, y, hx, hy, h⟩ := h
    exact ⟨x, y, Reference.eval?_extends hu hx, Reference.eval?_extends hu hy, h⟩
  | not g ih => exact ih h
  | and l r ihl ihr | or l r ihl ihr =>
    rcases h with ⟨hb, h⟩ | ⟨hl, hr⟩
    · exact .inl ⟨hb, ihl h⟩
    · exact .inr ⟨ihl hl, ihr hr⟩

end Meaning

section Spelling

namespace Ty

def isIntegral : Ty → Bool
  | primitive k => k.isIntegral
  | _ => false

def isBoolean : Ty → Bool
  | primitive .boolean => true
  | _ => false

def hasLength : Ty → Bool
  | string | array _ => true
  | _ => false

def isPlainReference : Ty → Bool
  | string | array _ | object _ => true
  | _ => false

variable {ty : Ty}

theorem not_plain (h : ty.isIntegral = true ∨ ty.isBoolean = true) :
    ty.isPlainReference = false := by
  cases ty with
  | primitive k => rfl
  | _ => rcases h with h | h <;> cases h

theorem isPlainReference_of_hasLength (h : ty.hasLength = true) : ty.isPlainReference = true := by
  cases ty with
  | string | array elem => rfl
  | _ => cases h

end Ty

def Arith.isDivision : Arith → Bool
  | div | rem => true
  | _ => false

namespace Tree

/-- The variable is declared with a type of the kind. -/
def Declares (t : Tree) (kind : Ty → Bool) (d : DeclId) : Prop :=
  ∃ decl, t.decl d = .ok decl ∧ kind decl.ty = true

/-- The node reads a variable that is declared with a type of the kind. -/
def Reads (t : Tree) (n : NodeId) (kind : Ty → Bool) (d : DeclId) : Prop :=
  t.variableOf n = some d ∧ t.Declares kind d

inductive SpellsMeasure (t : Tree) : NodeId → Measure → Prop
  | literal {n : NodeId} {l : Literal} : t.expr n = .ok (.literal l) → l.code?.isSome = true →
      t.SpellsMeasure n (.literal l)
  | name {n : NodeId} {d : DeclId} : t.Reads n Ty.isIntegral d → t.SpellsMeasure n (.name d)
  | length {n e : NodeId} {d : DeclId} : t.expr n = .ok (.length e) → t.Reads e Ty.hasLength d →
      t.SpellsMeasure n (.length d)
  | arith {n p q : NodeId} {op : Arith} {l r : Measure} : t.expr n = .ok (.arith op p q) →
      op.isDivision = false → t.SpellsMeasure p l → t.SpellsMeasure q r →
      t.SpellsMeasure n (.arith op l r)

inductive SpellsReference (t : Tree) : NodeId → Reference → Prop
  | null {n : NodeId} : t.expr n = .ok (.literal .null) → t.SpellsReference n .null
  | name {n : NodeId} {d : DeclId} : t.Reads n Ty.isPlainReference d → t.SpellsReference n (.name d)

inductive Spells (t : Tree) : NodeId → Guard → Prop
  | flag {n : NodeId} {d : DeclId} : t.Reads n Ty.isBoolean d → t.Spells n (.flag d)
  | numbers {n p q : NodeId} {rel : Relation} {l r : Measure} :
      t.expr n = .ok (.compare rel p q) → t.SpellsMeasure p l → t.SpellsMeasure q r →
      t.Spells n (.numbers rel l r)
  | references {n p q : NodeId} {rel : Relation} {l r : Reference} :
      t.expr n = .ok (.compare rel p q) → rel.isOrdering = false → t.SpellsReference p l →
      t.SpellsReference q r → t.Spells n (.references rel l r)
  | not {n p : NodeId} {g : Guard} : t.expr n = .ok (.unary .not p) → t.Spells p g →
      t.Spells n (.not g)
  | and {n p q : NodeId} {l r : Guard} : t.expr n = .ok (.and p q) → t.Spells p l →
      t.Spells q r → t.Spells n (.and l r)
  | or {n p q : NodeId} {l r : Guard} : t.expr n = .ok (.or p q) → t.Spells p l →
      t.Spells q r → t.Spells n (.or l r)

variable {t : Tree} {n : NodeId} {d : DeclId} {kind kind' : Ty → Bool}

theorem Declares.not_other (h : t.Declares kind d)
    (hkinds : ∀ {ty}, kind ty = true → kind' ty = false) : ¬ t.Declares kind' d := by
  rintro ⟨decl, hdecl, hkind'⟩
  obtain ⟨decl', hdecl', hkind⟩ := h
  cases hdecl.symm.trans hdecl'
  simp [hkinds hkind] at hkind'

theorem Declares.mono (h : t.Declares kind d) (hkinds : ∀ {ty}, kind ty = true → kind' ty = true) :
    t.Declares kind' d := by
  obtain ⟨decl, hdecl, hkind⟩ := h
  exact ⟨decl, hdecl, hkinds hkind⟩

/-- A node that reads a variable is a name, or a field of the object itself. -/
theorem variableOf_cases (h : t.variableOf n = some d) :
    t.expr n = .ok (.name d) ∨ t.expr n = .ok (.field none d) ∨
      ∃ target, t.expr n = .ok (.field (some target) d) ∧ t.expr target = .ok .self := by
  unfold variableOf at h
  split at h
  · rename_i he
    cases h
    exact .inl he
  · rename_i he
    cases h
    exact .inr (.inl he)
  · rename_i target _ he
    obtain ⟨hself, h⟩ := Option.ite_none_right_eq_some.1 h
    cases h
    refine .inr (.inr ⟨target, he, ?_⟩)
    unfold isSelf at hself
    split at hself
    · assumption
    · cases hself
  · cases h

theorem expr_of_variableOf (h : t.variableOf n = some d) : ∃ e, t.expr n = .ok e := by
  rcases variableOf_cases h with he | he | ⟨_, he, -⟩ <;> exact ⟨_, he⟩

theorem expr_ne_length_of_variableOf (h : t.variableOf n = some d) (target : NodeId) :
    t.expr n ≠ .ok (.length target) := by
  intro he
  simp [variableOf, he] at h

theorem within_of_children {e : Expr} (he : t.expr n = .ok e)
    (h : ∀ c ∈ e.children, t.Within (t.size + 1) c) : t.Within (t.size + 1) n := by
  apply Within.within_size
  refine .children fun c hc => h c ?_
  obtain ⟨node, hnode, hc⟩ := hc
  cases (node_of_expr he).symm.trans hnode
  exact hc

theorem within_of_variableOf (h : t.variableOf n = some d) : t.Within (t.size + 1) n := by
  rcases variableOf_cases h with he | he | ⟨target, he, hself⟩
  · exact within_of_children he (by simp [Expr.children])
  · exact within_of_children he (by simp [Expr.children])
  · have htarget : t.Within (t.size + 1) target :=
      within_of_children hself (by simp [Expr.children])
    exact within_of_children he (by simpa [Expr.children] using htarget)

theorem SpellsMeasure.within {e : Measure} (h : t.SpellsMeasure n e) : t.Within (t.size + 1) n := by
  induction h with
  | literal he _ => exact within_of_children he (by simp [Expr.children])
  | name hreads => exact within_of_variableOf hreads.1
  | length he hreads =>
    exact within_of_children he (by simpa [Expr.children] using within_of_variableOf hreads.1)
  | arith he _ _ _ ihl ihr => exact within_of_children he (by simp [Expr.children, ihl, ihr])

theorem SpellsReference.within {e : Reference} (h : t.SpellsReference n e) :
    t.Within (t.size + 1) n := by
  cases h with
  | null he => exact within_of_children he (by simp [Expr.children])
  | name hreads => exact within_of_variableOf hreads.1

/-- What spells a guard has no cycles, whatever else is in the tree. -/
theorem Spells.within {g : Guard} (h : t.Spells n g) : t.Within (t.size + 1) n := by
  induction h with
  | flag hreads => exact within_of_variableOf hreads.1
  | numbers he hl hr => exact within_of_children he (by simp [Expr.children, hl.within, hr.within])
  | references he _ hl hr =>
    exact within_of_children he (by simp [Expr.children, hl.within, hr.within])
  | not he _ ih => exact within_of_children he (by simpa [Expr.children] using ih)
  | and he _ _ ihl ihr => exact within_of_children he (by simp [Expr.children, ihl, ihr])
  | or he _ _ ihl ihr => exact within_of_children he (by simp [Expr.children, ihl, ihr])

end Tree

end Spelling

end ValueFlow

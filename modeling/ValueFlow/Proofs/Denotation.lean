import ValueFlow.State
import ValueFlow.Ty

namespace ValueFlow

/-- A value at run time. Strings, arrays and other objects have an identity; strings and arrays
also have a length, which is below 2^31. -/
inductive Concrete where
  | number (x : Int)
  | bool (b : Bool)
  | str (id : Nat) (length : Fin 2147483648)
  | array (id : Nat) (length : Fin 2147483648)
  | object (id : Nat)
  | null
deriving DecidableEq

def Concrete.length? : Concrete → Option Int
  | str _ k | array _ k => some k.val
  | _ => none

namespace Value

/-- Whether the abstract value stands for the concrete one. -/
def Denotes : Value → Concrete → Prop
  | any, _ => True
  | empty, _ => False
  | integer i, x => ∃ n ∈ i, x = .number n
  | char i, x => ∃ n ∈ i, x = .number n
  | boolean t f, x => (t = true ∧ x = .bool true) ∨ (f = true ∧ x = .bool false)
  | str l n, x => (n = true ∧ x = .null) ∨ ∃ id k, (k.val : Int) ∈ l ∧ x = .str id k
  | array l n, x => (n = true ∧ x = .null) ∨ ∃ id k, (k.val : Int) ∈ l ∧ x = .array id k
  | null, x => x = .null
  | boxed v n, x => (n = true ∧ x = .null) ∨ (x ≠ .null ∧ v.Denotes x)
  | object n, x => n = true ∨ x ≠ .null

instance : Membership Concrete Value := ⟨Denotes⟩

variable {x : Concrete}

@[simp] theorem mem_any : x ∈ any := trivial

@[simp] theorem not_mem_empty : x ∉ empty := id

theorem mem_boolean {t f : Bool} :
    x ∈ boolean t f ↔ (t = true ∧ x = .bool true) ∨ (f = true ∧ x = .bool false) := Iff.rfl

theorem mem_str {l : Interval} {n : Bool} :
    x ∈ str l n ↔ (n = true ∧ x = .null) ∨ ∃ id k, (k.val : Int) ∈ l ∧ x = .str id k := Iff.rfl

theorem mem_array {l : Interval} {n : Bool} :
    x ∈ array l n ↔ (n = true ∧ x = .null) ∨ ∃ id k, (k.val : Int) ∈ l ∧ x = .array id k := Iff.rfl

@[simp] theorem mem_null : x ∈ null ↔ x = .null := Iff.rfl

theorem mem_boxed {v : Value} {n : Bool} :
    x ∈ boxed v n ↔ (n = true ∧ x = .null) ∨ (x ≠ .null ∧ x ∈ v) := Iff.rfl

end Value

end ValueFlow

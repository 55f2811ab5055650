import ValueFlow.Interval.Basic
import ValueFlow.Text

namespace ValueFlow

def charCodes : Interval := Interval.saturated 0 65535 (by decide)

/-- The lengths of a string or an array. -/
def lengths : Interval := Interval.saturated 0 2147483647 (by decide)

/-- Each value stands for a set of runtime values. References carry their nullability beside
what is known of their non-null part. -/
inductive Value where
  | any
  | empty
  | integer (range : Interval)
  -- a character, by its code
  | char (codes : Interval)
  | boolean (canBeTrue canBeFalse : Bool)
  -- a string, by its length
  | str (length : Interval) (nullable : Bool)
  -- an array, by its length
  | array (length : Interval) (nullable : Bool)
  | null
  -- a primitive in a wrapper
  | boxed (inner : Value) (nullable : Bool)
  -- any other reference
  | object (nullable : Bool)
deriving DecidableEq, Ord

namespace Value

def int (x : Int) : Value := integer (.point x)

def ofCode (code : UInt16) : Value := char (.point code.toNat)

def integerOf (range : Option Interval) : Value := range.elim empty integer

def charOf (codes : Option Interval) : Value := codes.elim empty char

def intRange (lo hi : Int) : Value := integerOf (Interval.ofBounds? lo hi)

def charRange (lo hi : Int) : Value := charOf ((Interval.ofBounds? lo hi).bind (·.meet charCodes))

/-- The boolean with these outcomes, `empty` if there is none. -/
def ofFlags (canBeTrue canBeFalse : Bool) : Value :=
  if canBeTrue || canBeFalse then boolean canBeTrue canBeFalse else empty

def bool (b : Bool) : Value := ofFlags b (!b)

def anyBool : Value := ofFlags true true

/-- A reference whose non-null part has vanished. -/
def onlyNull (nullable : Bool) : Value := if nullable then null else empty

def ofText (s : String) : Value := str (.point (textLength s)) false

def string (length : Interval) (nullable : Bool) : Value :=
  (length.meet lengths).elim (onlyNull nullable) (str · nullable)

def arrayOf (length : Interval) (nullable : Bool) : Value :=
  (length.meet lengths).elim (onlyNull nullable) (array · nullable)

/-- `boxed`, except that an empty inner value leaves at most null. -/
def box (inner : Value) (nullable : Bool) : Value :=
  if inner = empty then onlyNull nullable else boxed inner nullable

def isEmpty : Value → Bool
  | empty => true
  | _ => false

def isAny : Value → Bool
  | any => true
  | _ => false

def isNull : Value → Bool
  | null => true
  | _ => false

def isReference : Value → Bool
  | str .. | array .. | null | boxed .. | object .. => true
  | _ => false

def isPrimitive : Value → Bool
  | integer _ | char _ | boolean .. => true
  | _ => false

def mayBeNull : Value → Bool
  | null | any => true
  | str _ n | array _ n | boxed _ n | object n => n
  | _ => false

def withNullable (nullable : Bool) : Value → Value
  | null => onlyNull nullable
  | str l _ => str l nullable
  | array l _ => array l nullable
  | boxed v _ => boxed v nullable
  | object _ => object nullable
  | v => v

/-- The numbers of a numeric value; a character counts as its code. -/
def range? : Value → Option Interval
  | integer i | char i => some i
  | _ => none

def length? : Value → Option Interval
  | str l _ | array l _ => some l
  | _ => none

/-- The same reference with another length; no length leaves at most null. -/
def withLength (length : Option Interval) : Value → Value
  | str _ n => length.elim (onlyNull n) (string · n)
  | array _ n => length.elim (onlyNull n) (arrayOf · n)
  | v => v

def flags? : Value → Option (Bool × Bool)
  | boolean t f => some (t, f)
  | boxed v _ => v.flags?
  | _ => none

def nullMark (nullable : Bool) : String := if nullable then "?" else ""

def text : Value → String
  | any => "⊤"
  | empty => "⊥"
  | integer i => "int" ++ i.text
  | char i => "char" ++ i.text
  | boolean true true => "bool"
  | boolean true false => "true"
  | boolean false _ => "false"
  | str l n => "String" ++ nullMark n ++ "(len " ++ l.text ++ ")"
  | array l n => "array" ++ nullMark n ++ "(len " ++ l.text ++ ")"
  | null => "null"
  | boxed v n => "boxed" ++ nullMark n ++ "(" ++ v.text ++ ")"
  | object n => "object" ++ nullMark n

end Value

end ValueFlow

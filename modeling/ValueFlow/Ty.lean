import ValueFlow.Value.Basic

namespace ValueFlow

inductive Primitive where
  | boolean | byte | short | char | int | long | float | double
deriving DecidableEq

namespace Primitive

def range? : Primitive → Option Interval
  | byte => Interval.ofBounds? (-128) 127
  | short => Interval.ofBounds? (-32768) 32767
  | char => some charCodes
  | int => Interval.ofBounds? (-2147483648) 2147483647
  | long => some .full
  | boolean | float | double => none

def isIntegral (k : Primitive) : Bool := k.range?.isSome

def text : Primitive → String
  | boolean => "boolean"
  | byte => "byte"
  | short => "short"
  | char => "char"
  | int => "int"
  | long => "long"
  | float => "float"
  | double => "double"

def boxedText : Primitive → String
  | boolean => "Boolean"
  | byte => "Byte"
  | short => "Short"
  | char => "Character"
  | int => "Integer"
  | long => "Long"
  | float => "Float"
  | double => "Double"

def anyValue : Primitive → Value
  | boolean => .anyBool
  | char => .char charCodes
  -- floating-point numbers are not approximated
  | k => k.range?.elim .any .integer

end Primitive

inductive Ty where
  | primitive (kind : Primitive)
  | string
  | array (elem : Ty)
  | boxed (kind : Primitive)
  | object (name : String)
  | void
deriving DecidableEq

namespace Ty

def isReference : Ty → Bool
  | primitive _ | void => false
  | _ => true

def text : Ty → String
  | primitive k => k.text
  | string => "String"
  | array elem => elem.text ++ "[]"
  | boxed k => k.boxedText
  | object name => name
  | void => "void"

def anyValue : Ty → Value
  | primitive k => k.anyValue
  | string => .string lengths true
  | array _ => .arrayOf lengths true
  | boxed k => .box k.anyValue true
  | object _ => .object true
  | void => .any

end Ty

end ValueFlow

import ValueFlow.Value.Basic

namespace ValueFlow.Value

def mergeFlat : Value → Value → Value
  | empty, v => v
  | v, empty => v
  | any, _ => any
  | _, any => any
  | integer a, integer b => integer (a.hull b)
  | integer a, char b => integer (a.hull b)
  | char a, integer b => integer (a.hull b)
  | char a, char b => char (a.hull b)
  | boolean t f, boolean t' f' => ofFlags (t || t') (f || f')
  | str a n, str b m => str (a.hull b) (n || m)
  | array a n, array b m => array (a.hull b) (n || m)
  | null, v => if v.isReference then v.withNullable true else any
  | v, null => if v.isReference then v.withNullable true else any
  | object n, v => if v.isReference then object (n || v.mayBeNull) else any
  | v, object n => if v.isReference then object (v.mayBeNull || n) else any
  | _, _ => any

def mergePrimitive (p : Value) : Value → Value
  | boxed v n => box (mergePrimitive p v) n
  | v => mergeFlat p v

/-- An approximation from above of what either value stands for; a pair that no rule covers
joins to `any`. -/
def merge : Value → Value → Value
  | boxed a n, boxed b m => box (merge a b) (n || m)
  | a, b =>
    if a.isPrimitive then mergePrimitive a b
    else if b.isPrimitive then mergePrimitive b a
    else mergeFlat a b

def intersectFlat : Value → Value → Value
  | empty, _ => empty
  | _, empty => empty
  | any, v => v
  | v, any => v
  | integer a, integer b => integerOf (a.meet b)
  | integer a, char b => charOf (a.meet b)
  | char a, integer b => charOf (a.meet b)
  | char a, char b => charOf (a.meet b)
  | boolean t f, boolean t' f' => ofFlags (t && t') (f && f')
  | str a n, str b m => (a.meet b).elim (onlyNull (n && m)) (str · (n && m))
  | array a n, array b m => (a.meet b).elim (onlyNull (n && m)) (array · (n && m))
  | null, v => if v.isReference then onlyNull v.mayBeNull else any
  | v, null => if v.isReference then onlyNull v.mayBeNull else any
  | object n, v => if v.isReference then v.withNullable (v.mayBeNull && n) else any
  | v, object n => if v.isReference then v.withNullable (v.mayBeNull && n) else any
  | _, _ => any

/-- The meet of a primitive with a value, inside its wrappers: none of them is null then. -/
def intersectPrimitive (p : Value) : Value → Value
  | boxed v _ => box (intersectPrimitive p v) false
  | v => intersectFlat p v

def intersect : Value → Value → Value
  | boxed a n, boxed b m => box (intersect a b) (n && m)
  | a, b =>
    if a.isPrimitive then intersectPrimitive a b
    else if b.isPrimitive then intersectPrimitive b a
    else intersectFlat a b

def widenWithin (range a b : Interval) : Interval := ((a.widen b).meet range).getD range

/-- Like `merge`, except that a bound that has grown jumps to the end of its range. -/
def widen : Value → Value → Value
  | integer a, integer b => integer (a.widen b)
  | char a, char b => char (widenWithin charCodes a b)
  | str a n, str b m => str (widenWithin lengths a b) (n || m)
  | array a n, array b m => array (widenWithin lengths a b) (n || m)
  | boxed a n, boxed b m => box (widen a b) (n || m)
  | a, b => merge a b

end ValueFlow.Value

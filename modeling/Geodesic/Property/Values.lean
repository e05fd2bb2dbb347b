import Geodesic.Number
import Geodesic.Property.ValueType

/-!
# Property values

One array per value type. Every scalar array can be read as numbers of the wide type `D`; a narrow
number of type `F` is read as the wide one of the same value.
-/

namespace Geodesic

/-- The values of a property map, with floating-point numbers in `F` and `D`. -/
inductive Values (F D : Type) where
  | bool (values : Array Bool)
  | int32 (values : Array Int32)
  | int64 (values : Array Int64)
  | single (values : Array F)
  | double (values : Array D)
  | string (values : Array String)
deriving DecidableEq

namespace Values

variable {F D : Type}

def valueType : Values F D → ValueType
  | bool _ => .bool
  | int32 _ => .int32
  | int64 _ => .int64
  | single _ => .single
  | double _ => .double
  | string _ => .string

def size : Values F D → Nat
  | bool xs => xs.size
  | int32 xs => xs.size
  | int64 xs => xs.size
  | single xs => xs.size
  | double xs => xs.size
  | string xs => xs.size

def isEmpty (v : Values F D) : Bool :=
  v.size = 0

/-- `n` zeros of a type; the empty text stands for zero. -/
def zeros [Zero F] [Zero D] (t : ValueType) (n : Nat) : Values F D :=
  match t with
  | .bool => bool (Array.replicate n false)
  | .int32 => int32 (Array.replicate n 0)
  | .int64 => int64 (Array.replicate n 0)
  | .single => single (Array.replicate n 0)
  | .double => double (Array.replicate n 0)
  | .string => string (Array.replicate n "")

@[simp] theorem size_zeros [Zero F] [Zero D] (t : ValueType) (n : Nat) :
    (zeros t n : Values F D).size = n := by
  cases t <;> simp [zeros, size]

variable [Zero D] [One D] [IntCast D] [Precision F D]

omit [IntCast D] [Precision F D] in
def ofBool (b : Bool) : D :=
  if b then 1 else 0

/-- All values as numbers; texts have none. -/
def numbers? : Values F D → Option (Array D)
  | bool xs => some (xs.map ofBool)
  | int32 xs => some (xs.map fun x => (x.toInt : D))
  | int64 xs => some (xs.map fun x => (x.toInt : D))
  | single xs => some (xs.map Precision.widen)
  | double xs => some xs
  | string _ => none

/-- All values as narrow numbers, by way of the wide ones. -/
def narrowNumbers? (v : Values F D) : Option (Array F) :=
  v.numbers?.map fun xs => xs.map Precision.narrow

def get? (v : Values F D) (i : Nat) : Option D :=
  v.numbers?.bind (·[i]?)

theorem numbers?_eq_none_iff (v : Values F D) :
    v.numbers? = none ↔ v.valueType.isScalar = false := by
  cases v <;> simp [numbers?, valueType, ValueType.isScalar]

theorem size_of_numbers? {v : Values F D} {xs : Array D} (h : v.numbers? = some xs) :
    xs.size = v.size := by
  cases v <;> simp only [numbers?, Option.some.injEq, reduceCtorEq] at h <;> subst h <;>
    simp [size]

end Values

end Geodesic

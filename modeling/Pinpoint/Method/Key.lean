namespace Pinpoint

/-- A method's name with its parameter descriptors in parentheses; the return type is left out. -/
structure MethodKey where
  text : String
deriving DecidableEq

namespace MethodKey

instance : Ord MethodKey where
  compare a b := compare a.text b.text

instance : Std.TransOrd MethodKey := inferInstanceAs (Std.TransCmp (compareOn MethodKey.text))

instance : Std.LawfulEqOrd MethodKey where
  eq_of_compare {a b} horder := by
    cases a
    cases b
    exact congrArg MethodKey.mk (Std.LawfulEqOrd.eq_of_compare horder)

/-- The key of a method with the given descriptor, which must hold a closing parenthesis. -/
def ofDescriptor? (name descriptor : String) : Option MethodKey :=
  let cs := descriptor.toList
  if ')' ∈ cs then some ⟨name ++ String.ofList (cs.takeWhile (· ≠ ')') ++ [')'])⟩
  else none

end MethodKey

end Pinpoint

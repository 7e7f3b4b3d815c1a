/-
  The errors that callers get to see, and their wording.
-/

namespace SegregatedFit

/-
  The reasons for which a request is turned down: the heap
  cannot grow by that many bytes, the new bytes would not
  join the heap, the allocator is in use already, or the
  configuration makes no sense.
-/
inductive Error where
  | outOfMemory (requested : Nat)
  | discontiguous
  | alreadyInitialized
  | invalidConfig (reason : String)
  deriving DecidableEq, Repr

namespace Error

/- The wording of an error. -/
def message :
    Error → String
| outOfMemory requested =>
    "out of memory: heap cannot grow by " ++
      toString requested ++ " bytes"
| discontiguous =>
    "heap extension is not contiguous with the heap"
| alreadyInitialized =>
    "allocator is already initialized"
| invalidConfig reason =>
    "invalid configuration: " ++ reason

end Error

end SegregatedFit

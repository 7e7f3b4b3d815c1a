import SegregatedFit.Consistency.Violation
import SegregatedFit.Error

/-
  Events: what the allocator reports while it works.

  Each event has a level, a message and named fields, and one
  line of text that holds all three: `Event.toText`.
-/

namespace SegregatedFit

/- The importance of an event. -/
inductive Level where
  | trace
  | debug
  | info
  | warn
  deriving DecidableEq, Repr

/- The name of a level in a line of text. -/
def Level.toText :
    Level → String
| trace => "TRACE"
| debug => "DEBUG"
| info => "INFO"
| warn => "WARN"

/- A thing worth reporting. -/
inductive Event where
  | initialized (heapSize chunkSize : Nat)
  | extended (size heapSize : Nat)
  | split (offset adjusted remainder : Nat)
  | allocated (size adjusted offset : Nat)
  | allocationFailed (size : Nat) (error : Error)
  | allocationBeforeInit (size : Nat)
  | freed (size offset : Nat)
  | freeBeforeInit (offset : Nat)
  | resizedInPlace (offset size blockSize : Nat)
  | moved (source target size : Nat)
  | resizeBeforeInit (offset size : Nat)
  | inconsistent (violation : Violation)
  | unreadableVariable (name value : String)
  deriving DecidableEq, Repr

namespace Event

/- The level of an event. -/
def level :
    Event → Level
| initialized _ _ => .info
| extended _ _ => .debug
| split _ _ _ => .debug
| allocated _ _ _ => .trace
| allocationFailed _ _ => .warn
| allocationBeforeInit _ => .warn
| freed _ _ => .trace
| freeBeforeInit _ => .warn
| resizedInPlace _ _ _ => .trace
| moved _ _ _ => .trace
| resizeBeforeInit _ _ => .warn
| inconsistent _ => .warn
| unreadableVariable _ _ => .warn

/- The message of an event. -/
def message :
    Event → String
| initialized _ _ => "allocator initialized"
| extended _ _ => "extended heap"
| split _ _ _ => "split block"
| allocated _ _ _ => "allocated block"
| allocationFailed _ _ => "allocation failed"
| allocationBeforeInit _ => "allocation before init"
| freed _ _ => "freed block"
| freeBeforeInit _ => "free before init"
| resizedInPlace _ _ _ => "resized in place"
| moved _ _ _ => "moved block"
| resizeBeforeInit _ _ => "resize before init"
| inconsistent _ => "heap consistency violation"
| unreadableVariable _ _ =>
    "ignoring unparsable configuration variable"

/- The named fields of an event. -/
def fields :
    Event → List (String × String)
| initialized heapSize chunkSize =>
    [("heap_size", toString heapSize),
      ("chunk_size", toString chunkSize)]
| extended size heapSize =>
    [("size", toString size),
      ("heap_size", toString heapSize)]
| split offset adjusted remainder =>
    [("offset", toString offset),
      ("asize", toString adjusted),
      ("remainder", toString remainder)]
| allocated size adjusted offset =>
    [("size", toString size),
      ("asize", toString adjusted),
      ("offset", toString offset)]
| allocationFailed size error =>
    [("size", toString size),
      ("err", error.message)]
| allocationBeforeInit size =>
    [("size", toString size)]
| freed size offset =>
    [("size", toString size),
      ("offset", toString offset)]
| freeBeforeInit offset =>
    [("offset", toString offset)]
| resizedInPlace offset size blockSize =>
    [("offset", toString offset),
      ("size", toString size),
      ("block_size", toString blockSize)]
| moved source target size =>
    [("from", toString source),
      ("to", toString target),
      ("size", toString size)]
| resizeBeforeInit offset size =>
    [("offset", toString offset),
      ("size", toString size)]
| inconsistent violation =>
    [("violation", violation.message)]
| unreadableVariable name value =>
    [("name", name),
      ("value", value)]

/- The line of an event: level, message and fields. -/
def toText
    (event : Event) : String :=
  event.fields.foldl
    (fun line field =>
      line ++ " " ++ field.1 ++ "=" ++ field.2)
    (event.level.toText ++ " " ++ event.message)

end Event

end SegregatedFit

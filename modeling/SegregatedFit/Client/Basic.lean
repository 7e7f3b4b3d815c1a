import SegregatedFit.Allocator.Operations
import SegregatedFit.Allocator.Payload

/-
  Clients: an allocator together with the addresses that its
  caller still owns.

  A client makes calls and keeps a record of what it was
  given.  A call is allowed if it names no address that the
  client does not own.

  Key definitions include:
    * `Call`
    * `Reply`
    * `Client`
    * `Client.perform`
    * `Call.Allowed`
-/

namespace SegregatedFit

------------------------------------------------------------
-- Calls and Replies
------------------------------------------------------------

/- What a caller can do, and what other code can do meanwhile. -/
inductive Call where
  | init
  | allocate (size : Nat)
  | free (address : Option Address)
  | resize (address : Option Address) (size : Nat)
  | write (address : Address) (position : Nat)
      (bytes : List UInt8)
  | moveBreak (displacement : Int)
  deriving DecidableEq, Repr

/-
  How many operations of the allocator a call asks for.
  Writes into a payload and moves of the program break pass
  it by.
-/
def Call.operations :
    Call → Nat
| .write _ _ _ => 0
| .moveBreak _ => 0
| _ => 1

/- What a caller gets back. -/
inductive Reply where
  | done
  | failed (error : Error)
  | address (address : Option Address)
  deriving DecidableEq, Repr

/- Carry out a call on an allocator. -/
def Allocator.perform
    (a : Allocator) :
    Call → Traced (Reply × Allocator)
| .init => do
    let (result, a) ← a.init
    match result with
    | .ok () => return (.done, a)
    | .error error => return (.failed error, a)
| .allocate size => do
    let (address, a) ← a.allocate size
    return (.address address, a)
| .free address => do
    let a ← a.free address
    return (.done, a)
| .resize address size => do
    let (address, a) ← a.resize address size
    return (.address address, a)
| .write address position bytes => do
    let a ← a.writePayload address position bytes
    return (.done, a)
| .moveBreak displacement =>
    match a.region.moveBreak displacement with
    | some region => pure (.done, { a with region := region })
    | none => pure (.done, a)

------------------------------------------------------------
-- Clients
------------------------------------------------------------

/- An address that is owned, and the size it was asked for with. -/
structure Owned where
  address : Address
  requested : Nat
  deriving DecidableEq, Repr

/-
  An allocator, the addresses that its caller owns, and the
  number of operations that it was asked for.
-/
structure Client where
  allocator : Allocator
  owned : List Owned
  operations : Nat

namespace Client

/- The client owns an address. -/
def Owns
    (client : Client)
    (address : Address) : Prop :=
  ∃ entry ∈ client.owned, entry.address = address

/- The record without an address. -/
def disown
    (owned : List Owned)
    (address : Option Address) : List Owned :=
  owned.filter (fun entry => some entry.address ≠ address)

/- The record after a call and its reply. -/
def record
    (owned : List Owned) :
    Call → Reply → List Owned
| .allocate size, .address (some address) =>
    { address := address, requested := size } :: owned
| .free address, _ =>
    disown owned address
| .resize address 0, _ =>
    disown owned address
| .resize address size, .address (some target) =>
    { address := target, requested := size } ::
      disown owned address
| _, _ => owned

/- Carry out a call and record what it gives and takes. -/
def perform
    (client : Client)
    (call : Call) : Traced (Reply × Client) := do
  let (reply, allocator) ← client.allocator.perform call
  return (reply, {
    allocator := allocator,
    owned := record client.owned call reply,
    operations := client.operations + call.operations })

end Client

------------------------------------------------------------
-- Allowed Calls
------------------------------------------------------------

/-
  Calls with sizes that are words, on addresses that the
  client owns, that write inside a payload.
-/
def Call.Allowed
    (client : Client) :
    Call → Prop
| .init => True
| .allocate size => size < Word.limit
| .free none => True
| .free (some address) => client.Owns address
| .resize none size => size < Word.limit
| .resize (some address) size =>
    client.Owns address ∧ size < Word.limit
| .write address position bytes =>
    client.Owns address ∧
      ∃ usable,
        client.allocator.usableSize address = .ok usable ∧
          position + bytes.length ≤ usable
| .moveBreak _ => True

end SegregatedFit

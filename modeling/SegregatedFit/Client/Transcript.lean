import SegregatedFit.Client.History
import SegregatedFit.Consistency.Check

/-
  Transcripts: what a caller gets to see, call by call.

  After each call a caller has its reply and the events, and
  may ask for the statistics, the checks, and the size and
  the state of every block that it owns.  The bytes of the
  payloads are no part of a transcript.

  Key definitions include:
    * `Observation`
    * `Client.Transcript`
    * `Call.SameButWrites`
-/

namespace SegregatedFit

/-
  All answers that a client can ask for without another call,
  except for the bytes of its payloads.
-/
structure Observation where
  owned : List Owned
  statistics : Except Fault Statistics
  usableSizes : List (Except Fault Nat)
  blocks : List (Except Fault Block)
  check : Traced Report
  verboseCheck : Traced Report

/- What is seen of a client and of all that it owns. -/
def Client.observe
    (client : Client) : Observation where
  owned := client.owned
  statistics := client.allocator.statistics
  usableSizes := client.owned.map (fun entry =>
    client.allocator.usableSize entry.address)
  blocks := client.owned.map (fun entry =>
    client.allocator.block entry.address)
  check := client.allocator.checkConsistency false
  verboseCheck := client.allocator.checkConsistency true

/- The reply to a call, its events, and what is seen after it. -/
structure Line where
  reply : Reply
  events : List Event
  seen : Observation

/-
  `Transcript client calls lines`: the calls are allowed one
  after the other, beginning at the client, and these are
  their lines.
-/
inductive Client.Transcript :
    Client → List Call → List Line → Prop where
  | done
      (client : Client) :
      Transcript client [] []
  | call
      {client next : Client}
      {call : Call}
      {calls : List Call}
      {reply : Reply}
      {lines : List Line}
      (allowed : call.Allowed client)
      (few :
        client.operations + call.operations < Word.limit)
      (outcome :
        (client.perform call).outcome = .ok (reply, next))
      (rest : Transcript next calls lines) :
      Transcript client (call :: calls)
        ({ reply := reply,
           events := (client.perform call).events,
           seen := next.observe } :: lines)

/- The same call, or a write of any bytes to any payload. -/
inductive Call.SameButWrites :
    Call → Call → Prop where
  | same
      (call : Call) :
      SameButWrites call call
  | write
      (address address' : Address)
      (position position' : Nat)
      (bytes bytes' : List UInt8) :
      SameButWrites (.write address position bytes)
        (.write address' position' bytes')

end SegregatedFit

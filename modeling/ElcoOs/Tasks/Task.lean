import ElcoOs.Lib.Chain
import ElcoOs.Lib.Memory

/-!
# Tasks and the scheduler

The process table, the ready queues and the functions of `task.c`. A pointer to
a task is its index in the table, NULL is `none`; following NULL, and a loop
that has not ended after more rounds than there are tasks, have no result.
-/

namespace ElcoOs.Tasks

-- ---------------------------------------------------------------------------
-- Constants
-- ---------------------------------------------------------------------------

def lowestTaskPriority : Nat := 16
def taskDefaultQuantum : Nat := 10
def kernelClockFreq : Int := 1000
def messageSize : Nat := 64
def pidNoTask : Int := -2147483648
def pidAllTasks : Int := -2147483647

-- ---------------------------------------------------------------------------
-- Data
-- ---------------------------------------------------------------------------

/-- The 64 bytes of a message. The stamp tells equal messages apart: it counts
the sends, it is copied with the contents, and no code looks at it. -/
structure Message where
  contents : Fin messageSize → UInt8
  stamp : Nat

def Message.zero : Message := ⟨fun _ => 0, 0⟩

/-- `MESSAGE_FLAGS_SENDING`, `_RECEIVING` and `_DELIVERING`, which are distinct bits. -/
structure MessageFlags where
  sending : Bool
  receiving : Bool
  delivering : Bool
  deriving DecidableEq, Repr

/-- `TASK_FLAGS_PREEMPTIBLE` and `_AFTER_SWITCH`, likewise. -/
structure TaskFlags where
  preemptible : Bool
  afterSwitch : Bool
  deriving DecidableEq, Repr

/-- The registers of a saved context that carry a kernel call. -/
structure Context where
  eax : Nat
  ecx : Nat
  edx : Nat
  deriving DecidableEq, Repr

structure Task where
  context : Context
  timerNext : Option Nat
  timerExpire : Nat
  priority : Nat
  nextReady : Option Nat
  ticksLeft : Nat
  quantum : Nat
  messageBuffer : Message
  messagePtr : Nat
  messageFlags : MessageFlags
  messageSendTo : Option Nat
  messageRecPid : Int
  messageQHead : Option Nat
  messageQNext : Option Nat
  pid : Int
  flags : TaskFlags

/-- What the message calls do with the tasks' own memory. Events only record. -/
inductive Event where
  /-- `message_send` has taken a message from `caller` for `dest`, for its buffer
  if it is direct, else for that of the caller -/
  | sent (message : Message) (caller dest : Nat) (direct : Bool)
  /-- `message_receive` has been called by `task` for a message of `origin`, to be put at `ptr` -/
  | asked (task ptr : Nat) (origin : Int)
  /-- a message has been copied to `ptr`, where `task` has asked for one of `origin` -/
  | copied (message : Message) (task ptr : Nat) (origin : Int)

structure Kernel where
  /-- `TASK_COUNT` -/
  taskCount : Nat
  ptable : Nat → Task
  idleTask : Option Nat
  nextTask : Option Nat
  currentTask : Option Nat
  rescheduleNeeded : Bool
  pidCount : Int
  queueHead : Nat → Option Nat
  queueTail : Nat → Option Nat
  clockTicks : Nat
  nextTimerEvent : Option Nat
  /-- the memory of the tasks -/
  mem : Memory
  /-- latest first -/
  trace : List Event

namespace Kernel

variable (s : Kernel)

def modify (tsk : Nat) (f : Task → Task) : Kernel :=
  { s with ptable := Function.update s.ptable tsk (f (s.ptable tsk)) }

/-- More rounds than a loop along distinct tasks can take. -/
def rounds : Nat := s.taskCount + 1

def setNextReady (tsk : Nat) (v : Option Nat) : Kernel := s.modify tsk fun t =>
    { t with nextReady := v }

def readyLinks (prio : Nat) : Links Nat := ⟨s.queueHead prio, fun t => (s.ptable t).nextReady⟩

/-- `*cur = v`, where `cur` is the address of the link behind `before`. -/
def setReadyLink (prio : Nat) (before v : Option Nat) : Kernel :=
  match before with
  | none => { s with queueHead := Function.update s.queueHead prio v }
  | some tsk => s.setNextReady tsk v

end Kernel

-- ---------------------------------------------------------------------------
-- Set-up
-- ---------------------------------------------------------------------------

def newTask (pid : Int) (priority : Nat) (t : Task) : Task :=
  { t with
    pid := pid
    priority := priority
    flags := ⟨true, false⟩
    quantum := taskDefaultQuantum
    ticksLeft := taskDefaultQuantum
    nextReady := none
    context := ⟨0, 0, 0⟩
    timerNext := none
    messageBuffer := .zero
    messagePtr := 0
    messageFlags := ⟨false, false, false⟩
    messageSendTo := none
    messageRecPid := pidNoTask
    messageQHead := none
    messageQNext := none }

def addTask (s : Kernel) (tsk priority : Nat) : Kernel :=
  { s.modify tsk (newTask s.pidCount priority) with pidCount := s.pidCount + 1 }

/-- The first slot of the table that is free, with a fresh task in it. `stack` is
whether `kmalloc` has found room for a stack. -/
def createKernelTask (s : Kernel) (stack : Bool) (priority : Int) : Option Nat × Kernel :=
  if priority < 0 ∨ priority > lowestTaskPriority then (none, s)
  else
    match (List.range s.taskCount).find? (fun i => (s.ptable i).pid == pidNoTask) with
    | none => (none, s)
    | some tsk => if stack then (some tsk, addTask s tsk priority.toNat) else (none, s)

def withPreemptible (preemptible : Bool) (t : Task) : Task :=
  { t with flags := { t.flags with preemptible := preemptible } }

def setPreemptible (s : Kernel) (tsk : Nat) (preemptible : Bool) : Kernel :=
  s.modify tsk (withPreemptible preemptible)

def clearTask (t : Task) : Task :=
  { t with
    pid := pidNoTask
    timerNext := none
    priority := lowestTaskPriority
    nextReady := none
    quantum := 0
    ticksLeft := 0
    messageBuffer := .zero
    messagePtr := 0
    messageFlags := ⟨false, false, false⟩
    messageSendTo := none
    messageRecPid := pidNoTask
    messageQHead := none
    messageQNext := none }

def clearTable (s : Kernel) : Kernel :=
  { s with
    ptable := fun i => if i < s.taskCount then clearTask (s.ptable i) else s.ptable i
    nextTask := none
    currentTask := none
    pidCount := 0
    queueHead := fun _ => none
    queueTail := fun _ => none }

def multitaskingInit (s : Kernel) (stack : Bool) : Option Kernel :=
  match createKernelTask (clearTable s) stack lowestTaskPriority with
  | (none, _) => none
  | (some idle, s) =>
    some { setPreemptible { s with idleTask := some idle } idle false with
    rescheduleNeeded := true }

def findTask (s : Kernel) (pid : Int) : Option Nat :=
  if pid = pidAllTasks ∨ pid = pidNoTask then none
  else (List.range s.taskCount).find? fun i => (s.ptable i).pid == pid

-- ---------------------------------------------------------------------------
-- Ready queues
-- ---------------------------------------------------------------------------

def enqueueTask (s : Kernel) (tsk : Nat) : Option Kernel :=
  let prio := (s.ptable tsk).priority
  let s := s.setNextReady tsk none
  let queued := if s.queueHead prio = none then
      some { s with
        queueHead := Function.update s.queueHead prio (some tsk)
        queueTail := Function.update s.queueTail prio (some tsk) }
    else (s.queueTail prio).map fun tail =>
      { s.setNextReady tail (some tsk) with
        queueTail := Function.update s.queueTail prio (some tsk) }
  queued.map fun s => { s with rescheduleNeeded := true }

/-- Cut `tsk`, which is behind `prev`, out of its queue. -/
def unlinkReady (s : Kernel) (tsk : Nat) (prev : Option Nat) : Kernel :=
  let prio := (s.ptable tsk).priority
  let s := s.setReadyLink prio prev (s.ptable tsk).nextReady
  let s := s.setNextReady tsk none
  { s with
    queueTail := if s.queueTail prio = some tsk then Function.update s.queueTail prio prev else
      s.queueTail
    rescheduleNeeded :=
      if some tsk = s.currentTask ∨ some tsk = s.nextTask then true else s.rescheduleNeeded }

def dequeueTask (s : Kernel) (tsk : Nat) : Option Kernel :=
  let prio := (s.ptable tsk).priority
  (seek (s.readyLinks prio).next (· == tsk) s.rounds none (s.queueHead prio)).map fun (prev, cur) =>
    if cur = none then s else unlinkReady s tsk prev

def scheduler (s : Kernel) : Kernel :=
  if s.rescheduleNeeded then
    { s with
      rescheduleNeeded := false
      nextTask := ((List.range (lowestTaskPriority + 1)).findSome? s.queueHead).or s.idleTask }
  else s

def preempt (s : Kernel) : Option Kernel := do
  let cur ← s.currentTask
  let s ← dequeueTask s cur
  enqueueTask s cur

def blockTask (s : Kernel) (tsk : Nat) : Option Kernel := dequeueTask s tsk

def unblockTask (s : Kernel) (tsk : Nat) : Option Kernel := enqueueTask s tsk

end ElcoOs.Tasks

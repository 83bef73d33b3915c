import ElcoOs.Tasks.Task

/-!
# Kernel entries

The timer of `clock.c`, the messages of `message.c`, the kernel calls and what
is done on the way back to a task. Interrupts are off inside the kernel, so an
entry runs to its end.
-/

namespace ElcoOs.Tasks

-- ---------------------------------------------------------------------------
-- Machine integers
-- ---------------------------------------------------------------------------

/-- The `int32_t` with these bits. -/
def toInt32 (x : Nat) : Int := if x < 2147483648 then x else (x : Int) - 4294967296

/-- The `uint32_t` of an integer. -/
def toUInt32 (x : Int) : Nat := (x % 4294967296).toNat

-- ---------------------------------------------------------------------------
-- The clock
-- ---------------------------------------------------------------------------

namespace Kernel

variable (s : Kernel)

def setTimerNext (tsk : Nat) (v : Option Nat) : Kernel := s.modify tsk fun t =>
    { t with timerNext := v }

def timerLinks : Links Nat := ⟨s.nextTimerEvent, fun t => (s.ptable t).timerNext⟩

/-- `*nxtPtr = v`, where `nxtPtr` is the address of the link behind `before`. -/
def setTimerLink (before v : Option Nat) : Kernel :=
  match before with
  | none => { s with nextTimerEvent := v }
  | some tsk => s.setTimerNext tsk v

/-- Take the first timer, that of `tsk`, off the list. -/
def popTimer (tsk : Nat) : Kernel :=
  ({ s with nextTimerEvent := (s.ptable tsk).timerNext }).setTimerNext tsk none

end Kernel

def wakeExpired : Nat → Kernel → Option Kernel
  | 0, _ => none
  | fuel + 1, s =>
    match s.nextTimerEvent with
    | none => some s
    | some tsk =>
      if (s.ptable tsk).timerExpire ≤ s.clockTicks then
        (unblockTask (s.popTimer tsk) tsk).bind (wakeExpired fuel)
      else some s

/-- `--` on a `uint16_t`. -/
def dec16 : Nat → Nat
  | 0 => 65535
  | n + 1 => n

def useTick (t : Task) : Task := { t with ticksLeft := dec16 t.ticksLeft }

def refill (t : Task) : Task := { t with ticksLeft := t.quantum }

def countTick (s : Kernel) : Option Kernel := do
  let cur ← s.currentTask
  if (s.ptable cur).flags.preemptible then
    let s := s.modify cur useTick
    if (s.ptable cur).ticksLeft = 0 then preempt (s.modify cur refill) else some s
  else some s

def timerCallback (s : Kernel) : Option Kernel := do
  let s ← countTick { s with clockTicks := (s.clockTicks + 1) % 4294967296 }
  -- the test before the loop is the loop's own
  wakeExpired s.rounds s

def clockSetup (s : Kernel) : Kernel := { s with nextTimerEvent := none }

/-- `(uint32_t) ((KERNEL_CLOCK_FREQ * ms) + 999) / 1000`; the `int` operations wrap
around as the i386 does them. -/
def sleepTicks (ms : Int) : Nat := toUInt32 (kernelClockFreq * ms + 999) / 1000

/-- One of the `int` operations has a result that is not an `int`. -/
def sleepOverflows (ms : Int) : Prop :=
  ¬(-2147483648 ≤ kernelClockFreq * ms ∧ kernelClockFreq * ms + 999 ≤ 2147483647)

/-- `ticks += clock_ticks`: when a sleep that begins now ends. -/
def wakeTick (s : Kernel) (ms : Int) : Nat := (sleepTicks ms + s.clockTicks) % 4294967296

def setExpire (ticks : Nat) (t : Task) : Task := { t with timerExpire := ticks }

def sleepMs (s : Kernel) (ms : Int) : Option Kernel :=
  if ms ≤ 0 then some s
  else do
    let ticks := wakeTick s ms
    let cur ← s.currentTask
    let s := s.modify cur (setExpire ticks)
    let place ← seek s.timerLinks.next (fun t => decide ((s.ptable t).timerExpire > ticks))
      s.rounds none
      s.nextTimerEvent
    let s := s.setTimerNext cur place.2
    let s := s.setTimerLink place.1 (some cur)
    blockTask s cur

-- ---------------------------------------------------------------------------
-- Messages
-- ---------------------------------------------------------------------------

/-- The message at an address. -/
def readMessage (m : Memory) (ptr stamp : Nat) : Message := ⟨fun i => m (ptr + i), stamp⟩

def writeMessage (m : Memory) (ptr : Nat) (message : Message) : Memory := fun x =>
  if h : ptr ≤ x ∧ x - ptr < messageSize then message.contents ⟨x - ptr, h.2⟩ else m x

/-- How many messages have been sent. -/
def sends (trace : List Event) : Nat :=
  trace.countP fun e => match e with | .sent .. => true | _ => false

namespace Kernel

variable (s : Kernel)

def setQNext (tsk : Nat) (v : Option Nat) : Kernel := s.modify tsk fun t =>
    { t with messageQNext := v }

/-- The senders that wait for `dest`. -/
def inboxLinks (dest : Nat) : Links Nat :=
  ⟨(s.ptable dest).messageQHead, fun t => (s.ptable t).messageQNext⟩

/-- Write the link behind `before` in the queue of `dest`. -/
def setInboxLink (dest : Nat) (before v : Option Nat) : Kernel :=
  match before with
  | none => s.modify dest fun t => { t with messageQHead := v }
  | some tsk => s.setQNext tsk v

def emit (e : Event) : Kernel := { s with trace := e :: s.trace }

end Kernel

def waitsFor (dest caller : Task) : Prop :=
  dest.messageFlags.receiving ∧ (dest.messageRecPid = caller.pid ∨ dest.messageRecPid = pidAllTasks)

instance (dest caller : Task) : Decidable (waitsFor dest caller) :=
  inferInstanceAs (Decidable (_ ∧ _))

def acceptDirect (message : Message) (t : Task) : Task :=
  { t with
    messageBuffer := message
    messageFlags := { t.messageFlags with receiving := false, delivering := true }
    flags := { t.flags with afterSwitch := true } }

def startSend (dest : Nat) (message : Message) (t : Task) : Task :=
  { t with
    messageFlags := { t.messageFlags with sending := true }
    messageSendTo := some dest
    messageBuffer := message }

def endSend (t : Task) : Task :=
  { t with
    messageQNext := none
    messageSendTo := none
    messageFlags := { t.messageFlags with sending := false } }

def startReceive (ptr : Nat) (originPid : Int) (t : Task) : Task :=
  { t with
    messagePtr := ptr
    messageRecPid := originPid
    messageFlags := { t.messageFlags with receiving := true } }

def endReceive (t : Task) : Task :=
  { t with
    messageBuffer := .zero
    messageFlags := { t.messageFlags with delivering := false }
    messageRecPid := pidNoTask
    messagePtr := 0 }

/-- Behind the last of the senders that wait for `dest`, which a loop looks for. -/
def appendSender (s : Kernel) (dest caller : Nat) : Option Kernel :=
  let linked : Option Kernel := match (s.ptable dest).messageQHead with
    | none => some (s.setInboxLink dest none (some caller))
    | some tsk =>
      (seek (s.inboxLinks dest).next (fun t => ((s.ptable t).messageQNext).isNone) s.rounds
        none (some tsk)).map
        fun place => s.setInboxLink dest place.2 (some caller)
  linked.map fun s => s.setQNext caller none

def messageSend (s : Kernel) (caller : Nat) (destPid : Int) (ptr : Nat) : Option (Int × Kernel) :=
  match findTask s destPid with
  | none => some (-1, s)
  | some dest =>
    let message := readMessage s.mem ptr (sends s.trace)
    if waitsFor (s.ptable dest) (s.ptable caller) then
      let s := (s.modify dest (acceptDirect message)).emit (.sent message caller dest true)
      (unblockTask s dest).map fun s => (0, s)
    else
      let s := (s.modify caller (startSend dest message)).emit (.sent message caller dest false)
      ((appendSender s dest caller).bind (blockTask · caller)).map fun s => (0, s)

def messageReceive (s : Kernel) (caller : Nat) (originPid : Int) (ptr : Nat) :
    Option (Int × Kernel) :=
  if originPid = pidNoTask then some (-1, s)
  else
    let s := s.emit (.asked caller ptr originPid)
    (seek (s.inboxLinks caller).next (fun t => originPid == pidAllTasks || originPid ==
      (s.ptable t).pid) s.rounds none
      (s.ptable caller).messageQHead).bind fun place =>
    match place.2 with
    | some sender =>
      let message := (s.ptable sender).messageBuffer
      let s :=
        ({ s with mem := writeMessage s.mem ptr message }).emit
          (.copied message caller ptr originPid)
      let s := s.setInboxLink caller place.1 (s.ptable sender).messageQNext
      let s := s.modify sender endSend
      (unblockTask s sender).map fun s => (0, s)
    | none => (blockTask (s.modify caller (startReceive ptr originPid)) caller).map fun s => (0, s)

def messageDeliver (s : Kernel) (caller : Nat) : Bool × Kernel :=
  let t := s.ptable caller
  if t.messageFlags.delivering = false then (false, s)
  else
    let s := ({ s with mem := writeMessage s.mem t.messagePtr t.messageBuffer }).emit
      (.copied t.messageBuffer caller t.messagePtr t.messageRecPid)
    (true, s.modify caller endReceive)

-- ---------------------------------------------------------------------------
-- Entry and return
-- ---------------------------------------------------------------------------

def withEax (v : Nat) (t : Task) : Task := { t with context := { t.context with eax := v } }

def setEax (s : Kernel) (tsk v : Nat) : Kernel := s.modify tsk (withEax v)

/-- The `switch` over the number of the call: its result and the state after it. -/
def dispatch (s : Kernel) (cur : Nat) (c : Context) : Option (Int × Kernel) :=
  match c.eax with
  | 0 => (sleepMs s (toInt32 c.ecx)).map fun s => (0, s)
  | 1 => (preempt s).map fun s => (0, s)
  | 2 => some ((s.ptable cur).pid, s)
  | 3 => messageSend s cur (toInt32 c.ecx) c.edx
  | 4 => messageReceive s cur (toInt32 c.ecx) c.edx
  | _ => some (0, s)

def handleKernelCall (s : Kernel) : Option Kernel :=
  s.currentTask.bind fun cur =>
    (dispatch s cur (s.ptable cur).context).map fun r => setEax r.2 cur (toUInt32 r.1)

def clearAfterSwitch (t : Task) : Task := { t with flags := { t.flags with afterSwitch := false } }

def afterContextSwitch (s : Kernel) : Option Kernel :=
  s.currentTask.map fun cur =>
    if (s.ptable cur).flags.afterSwitch then
      let delivered := messageDeliver (s.modify cur clearAfterSwitch) cur
      if delivered.1 then setEax delivered.2 cur 0 else delivered.2
    else s

/-- `resume` on the way out of the kernel. -/
def resume (s : Kernel) : Option Kernel :=
  let s := scheduler s
  afterContextSwitch { s with currentTask := s.nextTask }

/-- How the running task came back into the kernel: with which registers, with what
in the memory, and by which interrupt. -/
structure Entry where
  context : Context
  mem : Memory
  /-- `int 128`, else the timer -/
  call : Bool

def setContext (cx : Context) (t : Task) : Task := { t with context := cx }

def save (s : Kernel) (cur : Nat) (e : Entry) : Kernel :=
  { s.modify cur (setContext e.context) with mem := e.mem }

/-- The way in: `save` and the handler of the interrupt. -/
def enter (s : Kernel) (e : Entry) : Option Kernel :=
  s.currentTask.bind fun cur => if e.call then handleKernelCall (save s cur e) else
  timerCallback (save s cur e)

end ElcoOs.Tasks

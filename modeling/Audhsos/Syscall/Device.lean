import Audhsos.Syscall.Message

/-!
The calls on interrupts, ports and device memory, and those that only ask the environment.
-/

namespace Audhsos.Calls

open Lib Prog Environment Objects

variable {ε : Type} [Environment ε] {z : Sizes}

/-! ## Interrupts -/

def interruptRights : Rights := (Rights.manage.union .duplicate).union .transfer

section

variable (process : ProcessId) (request : Request)

def interruptCreate : Call ε z Reply := do
  let line ← narrow 8 (request.argument 1)
  let m ← Prog.get
  let vector ← ofOption (interruptVector line m.environment) .invalidArgument
  require (Ipc.interruptOfLine m.objects line).isNone .alreadyExists
  chargeObject process
  (env (routeInterrupt line vector)).orUndo (refundObject process)
  let handle ← createObject process interruptRights
    (onInterrupts (Pool.allocate (.new line vector)))
    fun id => (objs (onInterrupts (Pool.release id))).ignore
  pure (.value handle.raw)

def interruptCreateMsi : Call ε z Reply := do
  chargeObject process
  let (vector, address, data) ←
    (env allocateMessageVector).orUndo (refundObject process)
  let id ← (objs (onInterrupts (Pool.allocate (.message vector)))).orUndo (do
    envDo (releaseMessageVector vector)
    refundObject process)
  let handle ← (objs (installHandle process ⟨.of id, interruptRights, 0⟩)).orUndo (do
    (objs (onInterrupts (Pool.release id))).ignore
    envDo (releaseMessageVector vector)
    refundObject process)
  pure ((Reply.value handle.raw).withWords [address, data])

def interruptBind : Call ε z Reply := do
  let (id, _) ← objectOf .interrupt process request .manage
  let second ← handleAt request 1
  let (notification, _) ← objs (resolve .notification process second .bind)
  let bit ← narrow 8 (request.argument 2)
  objs (Ipc.bind id notification bit)
  let m ← Prog.get
  match (m.objects.interrupt? id).bind (·.line) with
  | some line => envDo (unmaskInterrupt line)
  | none => pure ()
  pure .done

def interruptAck : Call ε z Reply := do
  let (id, _) ← objectOf .interrupt process request .manage
  let line ← objs (Ipc.acknowledge id)
  match line with
  | some line => envDo (unmaskInterrupt line)
  | none => pure ()
  pure .done

end

/-! ## Ports -/

def ioPortRights : Rights := ((Rights.read.union .write).union .duplicate).union .transfer

section

variable (process : ProcessId) (request : Request)

def ioPortCreate : Call ε z Reply := do
  let first ← narrow 16 (request.argument 1)
  let count ← narrow 16 (request.argument 2)
  let range ← ofExcept (IoPortRange.new first count)
  let m ← Prog.get
  require (¬ m.objects.ports.iter.any fun (_, held) => held.overlaps range) .alreadyExists
  chargeObject process
  let handle ← createObject process ioPortRights (onPorts (Pool.allocate range))
    fun id => (objs (onPorts (Pool.release id))).ignore
  pure (.value handle.raw)

variable (required : Rights)

/-- The port of a request, after the range has allowed an access of `width` bytes. -/
def portAt (width : Nat) :
    Call ε z Nat := do
  let (id, _) ← objectOf .ioPortRange process request required
  let port ← narrow 16 (request.argument 1)
  require (width ∈ [1, 2, 4]) .invalidArgument
  let m ← Prog.get
  let held ← ofOption (m.objects.ports.find id) .invalidHandle
  require (held.value.holds port width) .invalidArgument
  pure port

def portOf :
    Call ε z (Nat × Nat) := do
  let width ← narrow 8 (request.argument 2)
  let port ← portAt process request required width
  pure (port, width)

def ioPortRead : Call ε z Reply := do
  let (port, width) ← portOf process request .read
  let value ← env (readPort port width)
  pure (.value value)

def ioPortWrite : Call ε z Reply := do
  let (port, width) ← portOf process request .write
  env (writePort port width (request.argument 3))
  pure .done

end

def payloadByte (buffer : Buffer) (index : Nat) : Nat :=
  buffer.words (index / 8) / 2 ^ (8 * (index % 8)) % 256

variable (process : ProcessId) (request : Request)

def ioPortWriteString : Call ε z Reply := do
  let port ← portAt process request .write 1
  let count := request.argument 2
  require (count ≤ maxMessageWords * 8) .invalidArgument
  let m ← Prog.get
  env (writePortString port ((List.range count).map (payloadByte m.buffer)))
  pure (.value count)

/-! ## Device memory -/

def deviceMemoryRights : Rights :=
  ((((Rights.read.union .write).union .map).union .info).union .duplicate).union .transfer

def memoryCreateDevice : Call ε z Reply := do
  let first := request.argument 1
  let count := request.argument 2
  require (count ≠ 0) .invalidArgument
  require (first ≤ maxFrameNumber) .invalidArgument
  let frames ← ofOption (PhysFrameRange.new ⟨first⟩ count) .invalidArgument
  let m ← Prog.get
  require (¬ meetsRam frames m.environment) .invalidArgument
  require (isDeviceMemory frames m.environment) .invalidArgument
  chargeObject process
  let handle ← createObject process deviceMemoryRights
    (onMemory (Pool.allocate ⟨frames, .device, .uncached⟩))
    fun id => (objs (onMemory (Pool.release id))).ignore
  pure (.value handle.raw)

/-! ## The machine -/

def ticksPerSecond : Nat := 1000

/-- How many objects of each kind the machine can hold, and how many it holds. -/
def population (o : Objects z) : List (Nat × Nat) :=
  [(z.processes, o.processes.live), (z.threads, o.threads.live), (z.memory, o.memory.live),
    (1024, o.endpoints.live), (1024, o.notifications.live), (1024, o.replies.live),
    (64, o.interrupts.live), (64, o.ports.live), (z.handles, o.handles.live)]

def systemInfo : Call ε z Reply := do
  let m ← Prog.get
  let counts := (population m.objects).flatMap fun (capacity, live) => [capacity, live]
  let (start, len, width, height, stride, format) :=
    (framebuffer m.environment).getD (0, 0, 0, 0, 0, 0)
  let (base, segment, firstBus, lastBus) := (ecam m.environment).getD (0, 0, 0, 0)
  pure (.message (counts ++ [ticksPerSecond, acpiPointer m.environment,
    start, len, width, height, stride, format, base, segment, firstBus, lastBus]))

def clockNow : Call ε z Reply := do
  let m ← Prog.get
  pure (.value (nowMicros m.environment))

/-- The seconds of the boot in microseconds, and what has passed since. -/
def wallMicros (seconds : Int) (now : Nat) : Option Nat :=
  if seconds < 0 then none
  else do
    let boot ← checkedMul64 seconds.toNat 1000000
    checkedAdd64 boot now

def clockWall : Call ε z Reply := do
  let m ← Prog.get
  let (seconds, source) ← ofOption (bootWall m.environment) .unavailable
  let micros ← ofOption (wallMicros seconds (nowMicros m.environment))
    .unavailable
  pure (.ofValues micros source)

def randomBytes : Call ε z Reply := do
  let (a, b, c, d) ← env randomSeed
  pure (.message [a, b, c, d])

def trailingBytes (label : Nat) : Nat := if 1 ≤ label ∧ label ≤ 7 then label else 8

def debugLog : Call ε z Reply := do
  let m ← Prog.get
  let message ← ofExcept m.buffer.message
  let length (index : Nat) :=
    if index + 1 = message.wordCount then trailingBytes message.label else 8
  let bytes (index : Nat) :=
    (List.range (length index)).map fun i => payloadByte m.buffer (8 * index + i)
  envDo fun e => (List.range message.wordCount).foldl (fun e i => log (bytes i) e) e
  pure (.value ((List.range message.wordCount).map length).sum)

end Audhsos.Calls

import Audhsos.Memory.Region

/-!
What the calls reach outside the object store: the IPC buffer of a thread, which is read and
written word by word, and the environment that keeps address spaces, stacks, frames and vectors.
-/

namespace Audhsos

open Lib

/-! ## IPC buffers -/

/-- What the status word of a buffer says about a call. -/
inductive Status where
  | ok
  | partially
  | failed (error : Error)
deriving DecidableEq, Repr

namespace Status

def raw : Status → Nat
  | .ok => 0
  | .partially => 2 ^ 32
  | .failed error => error.code

def isPartial (status : Status) : Bool := status = .partially

end Status

/-- The words of an IPC buffer, by the area they lie in. -/
structure Buffer where
  syscallNumber : Nat
  arguments : Nat → Nat
  status : Nat
  returns : Nat → Nat
  label : Nat
  wordCount : Nat
  handleCount : Nat
  handleWords : Nat → Nat
  words : Nat → Nat

/-- The header of a message, after its counts have been checked. -/
structure Message where
  label : Nat
  wordCount : Nat
  handleCount : Nat
deriving DecidableEq, Repr

def kernelLabelBase : Nat := 0xFFFFFFFFFFFFFF00

def Message.isKernelLabel (message : Message) : Bool := kernelLabelBase ≤ message.label

namespace Buffer

section

variable (buffer : Buffer)

def message : Except Error Message :=
  if maxMessageWords < buffer.wordCount then .error .invalidArgument
  else if maxMessageHandles < buffer.handleCount then .error .invalidArgument
  else .ok ⟨buffer.label, buffer.wordCount, buffer.handleCount⟩

def handle (index : Nat) : Option Handle :=
  if maxMessageHandles ≤ index then none else Handle.fromRaw (buffer.handleWords index)

def setStatus (status : Status) : Buffer := { buffer with status := status.raw }

def setReturnWords (values : Nat × Nat) : Buffer :=
  { buffer with returns := fun index => if index = 0 then values.1 else if index = 1 then values.2
      else buffer.returns index }

def setHandle (index : Nat) (handle : Handle) : Buffer :=
  if maxMessageHandles ≤ index then buffer
  else { buffer with handleWords := Function.update buffer.handleWords index handle.raw }

def setCounts (wordCount handleCount : Nat) : Except Error Buffer :=
  if maxMessageWords < wordCount then .error .invalidArgument
  else if maxMessageHandles < handleCount then .error .invalidArgument
  else .ok { buffer with wordCount, handleCount }

def setWord (index value : Nat) : Buffer :=
  if maxMessageWords ≤ index then buffer
  else { buffer with words := Function.update buffer.words index value }

def clearResult : Buffer :=
  { buffer with status := 0, returns := fun index => if index < 2 then 0 else buffer.returns index }

end

def copyWords (source target : Buffer) (count : Nat) : Buffer :=
  { target with words := fun index => if index < count then source.words index
      else target.words index }

end Buffer

/-! ## The environment -/

structure KernelStack where
  slot : Nat
  top : Nat
deriving DecidableEq, Repr

/-- Everything the calls do that is not a change to an object. `with_buffer` of the source is the
pair of reading and writing the buffer in a frame; `ecam` and `framebuffer` answer the words that
`system_info` reports of them. -/
class Environment (ε : Type) where
  createAddressSpace : Prog Error ε PhysFrame
  destroyAddressSpace : PhysFrame → ε → ε
  map : PhysFrame → Page → PhysFrame → Permissions → CachePolicy → Prog Error ε Unit
  unmap : PhysFrame → Page → Prog Error ε Unit
  protect : PhysFrame → Page → Permissions → Prog Error ε Unit
  allocateKernelStack : Prog Error ε KernelStack
  prepareThread : Nat → Nat → Nat → Nat → Prog Error ε Nat
  releaseKernelStack : Nat → ε → ε
  allocateFrame : Prog Error ε PhysFrame
  releaseFrame : PhysFrame → ε → ε
  log : List Nat → ε → ε
  readBuffer : PhysFrame → ε → Except Error Buffer
  writeBuffer : PhysFrame → Buffer → ε → ε
  nowMicros : ε → Nat
  allocateMessageVector : Prog Error ε (Nat × Nat × Nat)
  releaseMessageVector : Nat → ε → ε
  interruptVector : Nat → ε → Option Nat
  routeInterrupt : Nat → Nat → Prog Error ε Unit
  unmaskInterrupt : Nat → ε → ε
  meetsRam : PhysFrameRange → ε → Bool
  isDeviceMemory : PhysFrameRange → ε → Bool
  readPort : Nat → Nat → Prog Error ε Nat
  writePort : Nat → Nat → Nat → Prog Error ε Unit
  writePortString : Nat → List Nat → Prog Error ε Unit
  bootWall : ε → Option (Int × Nat)
  randomSeed : Prog Error ε (Nat × Nat × Nat × Nat)
  acpiPointer : ε → Nat
  ecam : ε → Option (Nat × Nat × Nat × Nat)
  framebuffer : ε → Option (Nat × Nat × Nat × Nat × Nat × Nat)

end Audhsos

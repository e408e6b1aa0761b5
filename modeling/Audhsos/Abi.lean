import Mathlib.Algebra.Ring.Nat
import Mathlib.Tactic.Tauto

/-!
The interface between the kernel and its callers: error codes, object types, rights, handles,
thread states and the constants of the address space layout.
-/

namespace Audhsos

abbrev Byte := BitVec 8

/-- Machine words of 32 bits are natural numbers below this bound. -/
def u32Size : Nat := 2 ^ 32

/-- Machine words of 64 bits are natural numbers below this bound. -/
def u64Size : Nat := 2 ^ 64

def u64Max : Nat := 2 ^ 64 - 1

variable (a b : Nat)

def satAdd32 : Nat := min (a + b) (u32Size - 1)

theorem satAdd32_eq {a b : Nat} (h : a + b < u32Size) : satAdd32 a b = a + b :=
  Nat.min_eq_left (Nat.le_sub_one_of_lt h)

def checkedAdd64 : Option Nat := if a + b < u64Size then some (a + b) else none

def checkedMul64 : Option Nat := if a * b < u64Size then some (a * b) else none

/-- The generation after `generation`: one more, wrapping, and never zero. -/
def nextGeneration (generation : Nat) : Nat :=
  match (generation + 1) % u32Size with
  | 0 => 1
  | next => next

inductive Error where
  | invalidHandle
  | wrongObjectType
  | accessDenied
  | invalidArgument
  | outOfKernelMemory
  | poolExhausted
  | outOfHandles
  | quotaExceeded
  | addressInUse
  | notMapped
  | alreadyMapped
  | unaligned
  | bufferTooSmall
  | wouldBlock
  | busy
  | objectDestroyed
  | replyDropped
  | notFound
  | alreadyExists
  | unsupported
  | unknownSyscall
  | argumentCount
  | invalidState
  | notRunnable
  | cancelled
  | outOfMemory
  | unavailable
  | noVector
deriving DecidableEq, Repr

namespace Error

/-- The number an error is told to user code by. -/
def code (error : Error) : Nat := error.ctorIdx + 1

end Error

inductive ObjectType where
  | process
  | thread
  | memoryObject
  | endpoint
  | reply
  | notification
  | interrupt
  | ioPortRange
  | systemControl
deriving DecidableEq, Repr

/-! ## Rights -/

/-- What the holder of a handle may do with the object. -/
structure Rights where
  bits : BitVec 32
deriving DecidableEq, Repr

namespace Rights

def single (bit : Nat) : Rights := ⟨1#32 <<< bit⟩

def empty : Rights := ⟨0⟩
def read : Rights := single 0
def write : Rights := single 1
def execute : Rights := single 2
def map : Rights := single 3
def info : Rights := single 4
def send : Rights := single 5
def recv : Rights := single 6
def badge : Rights := single 7
def signal : Rights := single 8
def wait : Rights := single 9
def bind : Rights := single 10
def manage : Rights := single 11
def install : Rights := single 12
def duplicate : Rights := single 13
def transfer : Rights := single 14

variable (a b : Rights)

def union : Rights := ⟨a.bits ||| b.bits⟩

def intersection : Rights := ⟨a.bits &&& b.bits⟩

/-- Every right there is: the low fifteen bits. -/
def all : Rights := ⟨0x7FFF#32⟩

def contains : Bool := a.bits &&& b.bits == b.bits

def isSubsetOf : Bool := b.contains a

def fromBits (bits : Nat) : Except Error Rights :=
  if BitVec.ofNat 32 bits &&& ~~~all.bits = 0 then .ok ⟨BitVec.ofNat 32 bits⟩
  else .error .invalidArgument

end Rights

/-! ## Handles -/

/-- A slot index in the low 32 bits and a generation, never zero, above them. -/
structure Handle where
  raw : Nat
  generation_ne : raw / u32Size ≠ 0
deriving DecidableEq

namespace Handle

def index (handle : Handle) : Nat := handle.raw % u32Size

def generation (handle : Handle) : Nat := handle.raw / u32Size

variable {generation index : Nat}

theorem new_generation_ne (h : ¬ generation = 0) :
    (generation * u32Size + index) / u32Size ≠ 0 := by
  unfold u32Size
  omega

def new (index generation : Nat) : Option Handle :=
  if h : generation = 0 then none
  else some ⟨generation * u32Size + index, new_generation_ne h⟩

def fromRaw (raw : Nat) : Option Handle :=
  if h : raw / u32Size = 0 then none else some ⟨raw, h⟩

theorem ext_iff {a b : Handle} : a = b ↔ a.index = b.index ∧ a.generation = b.generation := by
  constructor
  · rintro rfl
    exact ⟨rfl, rfl⟩
  · rintro ⟨hi, hg⟩
    obtain ⟨a, ha⟩ := a
    obtain ⟨b, hb⟩ := b
    have hab : a = b := by
      have h₁ := Nat.div_add_mod a u32Size
      have h₂ := Nat.div_add_mod b u32Size
      unfold index at hi
      unfold generation at hg
      simp only at hi hg
      rw [← h₁, ← h₂, hi, hg]
    subst hab
    rfl

theorem new_eq_some {handle : Handle} (hi : index < u32Size) :
    new index generation = some handle ↔
      generation ≠ 0 ∧ handle.index = index ∧ handle.generation = generation := by
  unfold new
  split
  · simp_all
  rename_i hg
  have hindex : (generation * u32Size + index) % u32Size = index := by
    rw [Nat.mul_add_mod_self_right, Nat.mod_eq_of_lt hi]
  have hgen : (generation * u32Size + index) / u32Size = generation := by
    rw [Nat.mul_comm, Nat.mul_add_div (by decide : u32Size > 0), Nat.div_eq_of_lt hi]
    rfl
  rw [Option.some.injEq, ext_iff]
  simp only [Handle.index, Handle.generation, hindex, hgen]
  tauto

end Handle

/-! ## Threads and the address space -/

inductive ThreadState where
  | inactive
  | ready
  | running
  | blockedSend
  | blockedRecv
  | blockedReply
  | blockedNotification
  | suspended
  | faulted
  | exited
deriving DecidableEq, Repr

def ThreadState.code (state : ThreadState) : Nat := state.ctorIdx + 1

def pageSize : Nat := 4096
def userSpaceStart : Nat := 0x10000
def userSpaceEnd : Nat := 0x800000000000
def kernelSpaceStart : Nat := 0xFFFF800000000000
def ipcBufferTop : Nat := userSpaceEnd - pageSize
def maxMessageWords : Nat := 480
def maxMessageHandles : Nat := 4
def threadsPerProcess : Nat := 64
def regionsPerProcess : Nat := 64
def watchersPerProcess : Nat := 4
def priorityCount : Nat := 32
def defaultTimeSliceTicks : Nat := 10
def maxPagesPerCall : Nat := 64

/-- Where the IPC buffer of the thread in slot `index` of its process is mapped. -/
def ipcBufferAddress (index : Nat) : Option Nat :=
  if threadsPerProcess ≤ index then none else some (ipcBufferTop - index * pageSize)

end Audhsos

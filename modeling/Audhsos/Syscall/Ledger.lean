import Audhsos.Syscall.Dispatch

/-!
An environment that keeps accounts: which kernel stacks and frames are out, which pages are mapped
and what the buffers hold. It has room for everything and no devices. A machine over it boots with
one process, which has a handle to itself and one thread.
-/

namespace Audhsos

open Lib Objects

structure Ledger where
  kernelStacks : List Nat
  frames : List PhysFrame
  pages : List (PhysFrame × Page)
  buffers : PhysFrame → Buffer

namespace Ledger

def emptyBuffer : Buffer := ⟨0, fun _ => 0, 0, fun _ => 0, 0, 0, 0, fun _ => 0, fun _ => 0⟩

def new : Ledger := ⟨[], [], [], fun _ => emptyBuffer⟩

def takeFrame : Prog Error Ledger PhysFrame := fun l =>
  (.ok ⟨l.frames.length⟩, { l with frames := ⟨l.frames.length⟩ :: l.frames })

def giveFrame (frame : PhysFrame) (l : Ledger) : Ledger :=
  { l with frames := l.frames.erase frame }

instance : Environment Ledger where
  createAddressSpace := takeFrame
  destroyAddressSpace := giveFrame
  map root page _ _ _ := fun l =>
    if (root, page) ∈ l.pages then (.error .alreadyMapped, l)
    else (.ok (), { l with pages := (root, page) :: l.pages })
  unmap root page := fun l =>
    if (root, page) ∈ l.pages then (.ok (), { l with pages := l.pages.erase (root, page) })
    else (.error .notMapped, l)
  protect _ _ _ := fun l => (.ok (), l)
  allocateKernelStack := fun l =>
    (.ok ⟨l.kernelStacks.length, 0⟩, { l with kernelStacks := l.kernelStacks.length :: l.kernelStacks })
  prepareThread _ _ _ _ := fun l => (.ok 0, l)
  releaseKernelStack slot l := { l with kernelStacks := l.kernelStacks.erase slot }
  allocateFrame := takeFrame
  releaseFrame := giveFrame
  log _ l := l
  readBuffer frame l := .ok (l.buffers frame)
  writeBuffer frame buffer l := { l with buffers := Function.update l.buffers frame buffer }
  nowMicros _ := 0
  allocateMessageVector := fun l => (.error .poolExhausted, l)
  releaseMessageVector _ l := l
  interruptVector _ _ := none
  routeInterrupt _ _ := fun l => (.error .invalidArgument, l)
  unmaskInterrupt _ l := l
  meetsRam _ _ := false
  isDeviceMemory _ _ := false
  readPort _ _ := fun l => (.error .invalidArgument, l)
  writePort _ _ _ := fun l => (.error .invalidArgument, l)
  writePortString _ _ := fun l => (.error .invalidArgument, l)
  bootWall _ := none
  randomSeed := fun l => (.error .unsupported, l)
  acpiPointer _ := 0
  ecam _ := none
  framebuffer _ := none

def noObjects : Objects ⟨2, 2, 1, 8⟩ where
  processes := .new (by decide)
  threads := .new (by decide)
  memory := .new (by decide)
  endpoints := .new queues_lt
  notifications := .new queues_lt
  replies := .new queues_lt
  interrupts := .new devices_lt
  ports := .new devices_lt
  handles := .new

/-- The first process and its thread. The process may hold `capacity` handles. -/
def boot (capacity : Nat) : Call Ledger ⟨2, 2, 1, 8⟩ ThreadId := do
  let root ← env Environment.createAddressSpace
  let process ← objs (onProcesses (Pool.allocate
    (Process.new root (.withCapacity capacity) (.new 8) (.new 8))))
  let stack ← env Environment.allocateKernelStack
  let frame ← env Environment.allocateFrame
  let thread ← Prog.ofExcept (Thread.new process 0 (priorityCount - 1) stack.slot frame)
  let id ← objs (onThreads (Pool.allocate thread))
  let _ ← Calls.recordThread process id
  let _ ← objs (installHandle process ⟨.of process, Calls.processRights, 0⟩)
  objs (retain (.of process))
  let _ ← sys (sched (Processors.start id))
  Calls.chooseNext 0

def booted (capacity : Nat) : Machine Ledger ⟨2, 2, 1, 8⟩ :=
  (boot capacity ⟨⟨noObjects, .new⟩, new, emptyBuffer, []⟩).2

end Ledger

end Audhsos

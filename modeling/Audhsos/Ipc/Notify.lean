import Audhsos.Ipc.Outcome

/-!
Notifications, whose bits accumulate until the one thread that may wait takes them, and the
interrupts that signal them.
-/

namespace Audhsos.Ipc

open Lib Objects

variable {z : Sizes}

def getNotification (id : NotificationId) : Store z Notification := fun o =>
  ((o.notification? id).elim (.error .invalidHandle) .ok, o)

variable (notification : NotificationId)

/-- Hands the word of `held` to its waiter, if there is one and there is anything to hand over. -/
def deliverWord (held : Notification) : Sys z Outcome := do
  match held.waiter with
  | none => pure .done
  | some waiter =>
    if held.word = 0 then pure .done
    else do
      let woken ← wake waiter
      match woken with
      | none => pure .done
      | some reschedule => do
        let word ← Prog.gets fun s => ((s.objects.notification? notification).map (·.word)).getD 0
        store (withNotification notification fun _ => ⟨0, none⟩)
        store (forget waiter)
        pure ((Outcome.done.waking (.ok waiter (word, 0))).switching reschedule)

/-- Sets bits of the word and hands it to the waiter. -/
def signal (bits : Nat) : Sys z Outcome := do
  let held ← store (getNotification notification)
  let held := { held with word := held.word ||| bits }
  store (withNotification notification fun _ => held)
  deliverWord notification held

/-- Takes what is present, which may be nothing. -/
def poll : Store z Outcome := do
  let held ← getNotification notification
  withNotification notification ({ · with word := 0 })
  pure (.ofValues held.word 0)

section

variable (waiter : ThreadId) (notification : NotificationId)

/-- Makes `waiter` the waiter of the notification and blocks it with `blocking`. -/
def waitBy (blocking : Sys z Bool) :
    Sys z Outcome := do
  store (withNotification notification ({ · with waiter := some waiter }))
  store (record waiter (.notification notification))
  let reschedule ← blocking.orUndo (do
    store (withNotification notification ({ · with waiter := none }))
    store (forget waiter))
  pure (Outcome.ofBlocked.switching reschedule)

/-- Takes what is present, or blocks until something is. -/
def wait : Sys z Outcome := do
  let held ← store (getNotification notification)
  if held.word ≠ 0 then store (poll notification)
  else do
    Prog.require (held.waiter = none) .busy
    waitBy waiter notification (block waiter .blockNotification)

/-- Takes what is present, or blocks until something is or until `deadline`. -/
def waitUntil (deadline now : Nat) :
    Sys z Outcome := do
  let held ← store (getNotification notification)
  if held.word ≠ 0 then store (poll notification)
  else do
    Prog.require (held.waiter = none) .busy
    if deadline ≤ now then pure (.ofValues 0 0)
    else
      waitBy waiter notification (do
        let outcome ← sched (Processors.onBlockUntil waiter .blockNotification deadline)
        pure outcome.reschedule)

end

/-- Makes the next waiter whose deadline has passed ready with no bits. -/
def expire (now : Nat) : Sys z (Option Outcome) := do
  let waiter ← sched (Processors.expired now)
  match waiter with
  | none => pure none
  | some waiter => do
    let waitedOn ← Prog.gets fun s => (s.objects.thread? waiter).map (·.wait)
    let woken ← wake waiter
    match woken with
    | none => pure (some .done)
    | some reschedule => do
      match waitedOn with
      | some (Wait.notification notification) =>
        store (withNotification notification ({ · with waiter := none }))
      | _ => pure ()
      store (forget waiter)
      pure (some ((Outcome.done.waking (.ok waiter (0, 0))).switching reschedule))

/-! ## Interrupts -/

def getInterrupt (id : InterruptId) : Store z Interrupt := fun o =>
  ((o.interrupt? id).elim (.error .invalidHandle) .ok, o)

def interruptFor (o : Objects z) (vector : Nat) : Option InterruptId :=
  (o.interrupts.iter.find? fun (_, held) => held.vector = vector).map (·.1)

def interruptOfLine (o : Objects z) (line : Nat) : Option InterruptId :=
  (o.interrupts.iter.find? fun (_, held) => held.line = some line).map (·.1)

/-- Signals bit `bit` of a notification and wakes its waiter. -/
def raise (notification : NotificationId) (bit : Nat) : Sys z Outcome := do
  let s ← Prog.get
  match s.objects.notification? notification with
  | none => pure .done
  | some held => do
    let held := { held with word := held.word ||| 2 ^ (bit % 64) }
    store (withNotification notification fun _ => held)
    deliverWord notification held

/-- An interrupt arrived on `vector`; `none` when no object names it. -/
def deliver (vector : Nat) : Sys z (Option Outcome) := do
  let s ← Prog.get
  match interruptFor s.objects vector with
  | none => pure none
  | some id =>
    match s.objects.interrupt? id with
    | none => pure none
    | some held => do
      store (withInterrupt id ({ · with masked := true }))
      match held.notification with
      | none => pure (some .done)
      | some (notification, bit) => do
        let outcome ← raise notification bit
        pure (some outcome)

variable (interrupt : InterruptId)

/-- The interrupt may arrive again; answers the line to unmask. -/
def acknowledge : Store z (Option Nat) := do
  let held ← getInterrupt interrupt
  withInterrupt interrupt ({ · with masked := false })
  pure held.line

def bind (notification : NotificationId) (bit : Nat) : Store z Unit := do
  Prog.require (bit < 64) .invalidArgument
  let _ ← getNotification notification
  let _ ← getInterrupt interrupt
  withInterrupt interrupt ({ · with notification := some (notification, bit) })

end Audhsos.Ipc

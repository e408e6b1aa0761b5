import Audhsos.Ipc.Endpoint
import Audhsos.Ipc.NotifyCalls
import Audhsos.Objects.WaitQueueSpec

/-!
A rendezvous that is undone. The peer was taken from the head of its queue and is put back by
`requeue`, which looks at the priorities of now: the peer is the head again only if the thread
behind it has not become more urgent.
-/

namespace Audhsos

open Lib Prog Objects Threads Pool Processors

namespace WaitQueue

variable {n : Nat} {s : WaitState n} {l rest : List ThreadId} {id peer : ThreadId} {t : Thread}
  {queue : WaitQueue} {threads : Threads n} {f : Thread → Thread}

theorem Stands.modify (h : Stands ⟨queue, threads⟩ l) (id : ThreadId)
    (hf : ∀ t, (f t).waitLinks = t.waitLinks) : Stands ⟨queue, threads.modify id f⟩ l := by
  refine h.keepsLinks fun j _ => ?_
  rw [get?_modify]
  by_cases hj : j = id
  · rw [if_pos hj, hj, Option.map_map]
    exact congrArg (fun g => (threads.get? id).map g) (funext hf)
  · rw [if_neg hj]

theorem priorityOf_modify (threads : Threads n) (id j : ThreadId)
    (hf : ∀ t, (f t).priority = t.priority) :
    priorityOf (threads.modify id f) j = priorityOf threads j := by
  unfold priorityOf
  rw [get?_modify]
  by_cases hj : j = id
  · rw [if_pos hj, hj]
    cases threads.get? id with
    | none => rfl
    | some t => exact hf t
  · rw [if_neg hj]

/-- A thread that goes in front of those of at most its priority is the head exactly when the
first of the others is not more urgent. -/
theorem placedAt_eq_cons (hnot : peer ∉ rest) :
    placedAt (· ≤ priorityOf threads peer) threads peer rest = peer :: rest ↔
      ∀ next, rest.head? = some next → priorityOf threads next ≤ priorityOf threads peer := by
  unfold placedAt
  cases rest with
  | nil => simp
  | cons next rest =>
    by_cases hle : priorityOf threads next ≤ priorityOf threads peer
    · simp [hle]
    · have hne : next ≠ peer := fun heq => hnot (heq ▸ List.mem_cons_self)
      simp [hle, hne]

theorem Stands.requeue (h : Stands s rest) (ht : s.threads.get? peer = some t)
    (hwait : t.wait = .nothing) (hlinks : t.waitLinks = .unlinked) (hnot : peer ∉ rest) :
    ∃ s', requeue peer s = (.ok (), s') ∧
      Stands s' (placedAt (· ≤ priorityOf s.threads peer) s.threads peer rest) := by
  have hprio : priorityOf s.threads peer = t.priority := by rw [priorityOf, ht]; rfl
  have hfree : Free s peer t := by
    refine ⟨hwait, by rw [hlinks]; rfl, fun heq => hnot ?_⟩
    exact List.mem_of_head? (h.head_eq.symm.trans heq)
  have hplace : firstAtOrBelow s.queue s.threads t.priority =
      s.queue.findByPriority s.threads fun p => p ≤ t.priority := rfl
  obtain ⟨s', heq, -, hstands, -⟩ := h.enqueueAt (fun p => p ≤ t.priority) ht hfree hplace
  rw [← hprio] at hstands
  exact ⟨s', heq, hstands⟩

end WaitQueue

namespace Ipc

open WaitQueue

variable {z : Sizes} {o : Objects z} {endpoint : EndpointId} {held : Endpoint} {peer : ThreadId}
  {rest : List ThreadId} {t : Thread}

variable (queue : Queue)

def side (held : Endpoint) : WaitQueue :=
  if queue.isSender then held.senders else held.receivers

variable (left : WaitQueue)

def putSide (held : Endpoint) : Endpoint :=
  if queue.isSender then { held with senders := left } else { held with receivers := left }

@[simp] theorem side_putSide (held : Endpoint) : side queue (putSide queue left held) = left := by
  unfold side putSide
  split <;> rfl

theorem endpoint?_withEndpoint (hheld : o.endpoint? endpoint = some held)
    (f : Endpoint → Endpoint) :
    (withEndpoint endpoint f o).2.endpoint? endpoint = some (f held) := by
  obtain ⟨occupant, hfind, rfl⟩ := Option.map_eq_some_iff.mp hheld
  change ((o.endpoints.modify endpoint f).find endpoint).map (·.value) = _
  rw [find_modify, if_pos rfl, hfind]
  rfl

/-- `undoMeeting` puts the thread in front of those of at most its priority. -/
theorem undoMeeting_eq (hheld : o.endpoint? endpoint = some held) (queue : Queue)
    (hstands : Stands ⟨side queue held, o.threads⟩ rest) (ht : o.thread? peer = some t)
    (hlinks : t.waitLinks = .unlinked) (hnot : peer ∉ rest) (badge : Nat) (kernelMessage : Bool) :
    ∃ o' held', undoMeeting endpoint peer queue badge kernelMessage o = (.ok (), o') ∧
      o'.endpoint? endpoint = some held' ∧
      Stands ⟨side queue held', o'.threads⟩
        (placedAt (· ≤ priorityOf o.threads peer) o.threads peer rest) := by
  -- the record is cleared first, so that `requeue` takes the thread
  have hcleared := hstands.modify peer (f := (·.setWait .nothing)) fun _ => rfl
  have ht' : get? (o.threads.modify peer (·.setWait .nothing)) peer =
      some (t.setWait .nothing) := by
    rw [get?_modify, if_pos rfl, show get? o.threads peer = some t from ht]
    rfl
  have hprio : priorityOf (o.threads.modify peer (·.setWait .nothing)) = priorityOf o.threads :=
    funext fun j => priorityOf_modify o.threads peer j (f := (·.setWait .nothing)) fun _ => rfl
  obtain ⟨w, heq, hback⟩ := hcleared.requeue ht' rfl hlinks hnot
  unfold placedAt at hback ⊢
  dsimp only at hback
  rw [hprio] at hback
  let o₁ : Objects z := { o with threads := w.threads }
  have hrun : undoMeeting endpoint peer queue badge kernelMessage o =
      record peer (.endpoint endpoint queue badge kernelMessage)
        (withEndpoint endpoint (putSide queue w.queue) o₁).2 := by
    unfold undoMeeting
    rw [run_bind_ok (run_get o), hheld]
    dsimp only
    rw [run_bind_ok (show forget peer o = (.ok (), { o with
      threads := o.threads.modify peer (·.setWait .nothing) }) from rfl)]
    unfold side at heq
    by_cases hside : queue.isSender = true
    · have hput : putSide queue w.queue = fun held => { held with senders := w.queue } := by
        funext held
        rw [putSide, if_pos hside]
      have hq : (onQueue held.senders (WaitQueue.requeue peer) : Store z _) { o with
          threads := o.threads.modify peer (·.setWait .nothing) } = (.ok (.ok (), w.queue), o₁) := by
        rw [if_pos hside] at heq
        unfold onQueue
        rw [heq]
      rw [if_pos hside, run_bind_ok hq, hput]
      rfl
    · have hput : putSide queue w.queue = fun held => { held with receivers := w.queue } := by
        funext held
        rw [putSide, if_neg hside]
      have hq : (onQueue held.receivers (WaitQueue.requeue peer) : Store z _) { o with
          threads := o.threads.modify peer (·.setWait .nothing) } = (.ok (.ok (), w.queue), o₁) := by
        rw [if_neg hside] at heq
        unfold onQueue
        rw [heq]
      rw [if_neg hside, run_bind_ok hq, hput]
      rfl
  have hput := endpoint?_withEndpoint (o := o₁) hheld (putSide queue w.queue)
  refine ⟨_, putSide queue w.queue held, hrun.trans rfl, hput, ?_⟩
  rw [side_putSide]
  exact hback.modify peer
    (f := (·.setWait (.endpoint endpoint queue badge kernelMessage))) fun _ => rfl

/-! ## Taking a peer -/

/-- A peer was taken from the head of its queue: the rest of the queue is there, and the peer is in
no queue. -/
structure Taken (s s₁ : System z) (endpoint : EndpointId) (queue : Queue) (peer : ThreadId)
    (rest : List ThreadId) : Prop where
  held : ∃ held, s₁.objects.endpoint? endpoint = some held ∧
    Stands ⟨side queue held, s₁.objects.threads⟩ rest
  unlinked : ∃ t, s₁.objects.thread? peer = some t ∧ t.waitLinks = .unlinked
  priority : ∀ j, priorityOf s₁.objects.threads j = priorityOf s.objects.threads j

section

variable {s s₁ : System z}

theorem onQueue_run {queue : WaitQueue} {α : Type} {m : Prog Error (WaitState z.threads) α}
    {answer : Except Error α} {w : WaitState z.threads} (h : m ⟨queue, o.threads⟩ = (answer, w)) :
    onQueue queue m o = (.ok (answer, w.queue), { o with threads := w.threads }) := by
  unfold onQueue
  rw [h]

theorem getEndpoint_run (hheld : o.endpoint? endpoint = some held) :
    getEndpoint endpoint o = (.ok held, o) := by
  unfold getEndpoint
  rw [hheld]
  rfl

theorem recv_takes (hheld : s.objects.endpoint? endpoint = some held)
    (hstands : Stands ⟨held.senders, s.objects.threads⟩ (peer :: rest)) (receiver : ThreadId)
    (blocking : Bool) :
    ∃ (intent : Intent) (s₁ : System z), recv receiver endpoint blocking s =
      (.ok (.sender peer intent.wantsReply intent.badge intent.kernelMessage), s₁) ∧
      Taken s s₁ endpoint (if intent.wantsReply then .callers else .senders) peer rest := by
  obtain ⟨w, heq, hrest, hpeer, hprio, -⟩ := hstands.dequeueFront
  obtain ⟨t, ht, hlinks⟩ := hpeer peer rfl
  let o₁ : Objects z := { s.objects with threads := w.threads }
  let left : Endpoint := { held with senders := w.queue }
  let o₂ := (withEndpoint endpoint (fun _ => left) o₁).2
  have hside : ∀ wantsReply : Bool,
      side (if wantsReply then Queue.callers else .senders) left = w.queue := by
    intro wantsReply
    cases wantsReply <;> rfl
  refine ⟨queuedIntent o₁ peer, { s with objects := o₂ }, ?_, ⟨left, ?_, ?_⟩, ⟨t, ht, hlinks⟩, hprio⟩
  · unfold recv
    rw [run_bind_ok (store_run (getEndpoint_run hheld)), run_bind_ok (store_run (onQueue_run heq))]
    rfl
  · exact endpoint?_withEndpoint (o := o₁) hheld fun _ => left
  · rw [hside]
    exact hrest

theorem send_takes (hheld : s.objects.endpoint? endpoint = some held)
    (hstands : Stands ⟨held.receivers, s.objects.threads⟩ (peer :: rest)) (sender : ThreadId)
    (intent : Intent) :
    ∃ s₁, send sender endpoint intent s = (.ok (.receiver peer), s₁) ∧
      Taken s s₁ endpoint .receivers peer rest := by
  obtain ⟨w, heq, hrest, hpeer, hprio, -⟩ := hstands.dequeueFront
  obtain ⟨t, ht, hlinks⟩ := hpeer peer rfl
  let o₁ : Objects z := { s.objects with threads := w.threads.modify peer (·.setWait .nothing) }
  let left : Endpoint := { held with receivers := w.queue }
  let o₂ := (withEndpoint endpoint (fun _ => left) o₁).2
  refine ⟨{ s with objects := o₂ }, ?_, ⟨left, ?_, ?_⟩, ⟨t.setWait .nothing, ?_, hlinks⟩,
    fun j => ?_⟩
  · unfold send
    rw [run_bind_ok (store_run (getEndpoint_run hheld)), run_bind_ok (store_run (onQueue_run heq))]
    rfl
  · exact endpoint?_withEndpoint (o := o₁) hheld fun _ => left
  · exact hrest.modify peer (f := (·.setWait .nothing)) fun _ => rfl
  · change get? (w.threads.modify peer (·.setWait .nothing)) peer = _
    rw [get?_modify, if_pos rfl, ht]
    rfl
  · exact (priorityOf_modify w.threads peer j (f := (·.setWait .nothing)) fun _ => rfl).trans
      (hprio j)

theorem Taken.undo {queue : Queue} (h : Taken s s₁ endpoint queue peer rest) (hnot : peer ∉ rest)
    (badge : Nat) (kernelMessage : Bool) :
    ∃ s₂ held₂ l, store (undoMeeting endpoint peer queue badge kernelMessage) s₁ = (.ok (), s₂) ∧
      s₂.objects.endpoint? endpoint = some held₂ ∧
      Stands ⟨side queue held₂, s₂.objects.threads⟩ l ∧
      (l = peer :: rest ↔ ∀ next, rest.head? = some next →
        priorityOf s.objects.threads next ≤ priorityOf s.objects.threads peer) := by
  obtain ⟨held₁, hheld₁, hstands⟩ := h.held
  obtain ⟨t, ht, hlinks⟩ := h.unlinked
  obtain ⟨o', held', heq, hheld', hback⟩ :=
    undoMeeting_eq hheld₁ queue hstands ht hlinks hnot badge kernelMessage
  refine ⟨{ s₁ with objects := o' }, held', _, store_run heq, hheld', hback, ?_⟩
  rw [placedAt_eq_cons hnot]
  simp only [h.priority]

end

/-- A rendezvous that is undone puts the peer back into its queue. In every state that the calls of
the queue lead to, with changes of priorities between them, the queue is what it was, the same
threads in the same order, exactly when the thread behind the head is not more urgent than the head
is now. -/
theorem undone_meeting_restores_queue (s : System z) (endpoint : EndpointId) (held : Endpoint)
    (peer : ThreadId) (rest : List ThreadId) (hheld : s.objects.endpoint? endpoint = some held) :
    (Reached KeepsLinks ⟨held.senders, s.objects.threads⟩ (peer :: rest) → ∀ receiver blocking,
      ∃ (intent : Intent) (s₁ s₂ : System z) (held₂ : Endpoint) (l : List ThreadId),
        recv receiver endpoint blocking s =
          (.ok (.sender peer intent.wantsReply intent.badge intent.kernelMessage), s₁) ∧
        store (undoMeeting endpoint peer (if intent.wantsReply then .callers else .senders)
          intent.badge intent.kernelMessage) s₁ = (.ok (), s₂) ∧
        s₂.objects.endpoint? endpoint = some held₂ ∧
        Stands ⟨held₂.senders, s₂.objects.threads⟩ l ∧
        (l = peer :: rest ↔ ∀ next, rest.head? = some next →
          priorityOf s.objects.threads next ≤ priorityOf s.objects.threads peer)) ∧
    (Reached KeepsLinks ⟨held.receivers, s.objects.threads⟩ (peer :: rest) → ∀ sender intent,
      ∃ (s₁ s₂ : System z) (held₂ : Endpoint) (l : List ThreadId),
        send sender endpoint intent s = (.ok (.receiver peer), s₁) ∧
        store (undoMeeting endpoint peer .receivers 0 false) s₁ = (.ok (), s₂) ∧
        s₂.objects.endpoint? endpoint = some held₂ ∧
        Stands ⟨held₂.receivers, s₂.objects.threads⟩ l ∧
        (l = peer :: rest ↔ ∀ next, rest.head? = some next →
          priorityOf s.objects.threads next ≤ priorityOf s.objects.threads peer)) := by
  constructor
  · intro hreached receiver blocking
    have hstands := stands_of_reached (fun _ _ _ => id) hreached
    obtain ⟨intent, s₁, heq, htaken⟩ := recv_takes hheld hstands receiver blocking
    obtain ⟨s₂, held₂, l, hundo, hheld₂, hback, hiff⟩ := htaken.undo
      (List.nodup_cons.mp hstands.linked.nodup).1 intent.badge intent.kernelMessage
    refine ⟨intent, s₁, s₂, held₂, l, heq, hundo, hheld₂, ?_, hiff⟩
    cases hreply : intent.wantsReply with
    | false => rwa [hreply] at hback
    | true => rwa [hreply] at hback
  · intro hreached sender intent
    have hstands := stands_of_reached (fun _ _ _ => id) hreached
    obtain ⟨s₁, heq, htaken⟩ := send_takes hheld hstands sender intent
    obtain ⟨s₂, held₂, l, hundo, hheld₂, hback, hiff⟩ := htaken.undo
      (List.nodup_cons.mp hstands.linked.nodup).1 0 false
    exact ⟨s₁, s₂, held₂, l, heq, hundo, hheld₂, hback, hiff⟩

/-! ## Two senders -/

/-- Three threads with the priorities 5, 3 and 1, and an endpoint. -/
def threeThreads : System ⟨1, 3, 1, 1⟩ where
  objects :=
    { processes := .new (by decide)
      threads := (allocate (SchedCall.inactiveThread 1)
        (allocate (SchedCall.inactiveThread 3)
          (allocate (SchedCall.inactiveThread 5) (new (by decide))).2).2).2
      memory := .new (by decide)
      endpoints := (allocate Endpoint.new (new queues_lt)).2
      notifications := .new queues_lt, replies := .new queues_lt
      interrupts := .new devices_lt, ports := .new devices_lt, handles := .new }
  scheduler := .new

/-- The first thread runs. -/
def firstRuns : System ⟨1, 3, 1, 1⟩ := ((do
  let _ ← sched (start ⟨0, 1⟩)
  let _ ← sched (start ⟨1, 1⟩)
  let _ ← sched (start ⟨2, 1⟩)
  let _ ← sched pickNext
  pure () : Sys ⟨1, 3, 1, 1⟩ Unit) threeThreads).2

/-- The first thread has sent a message that nobody has received, and the second runs. -/
def secondRuns : System ⟨1, 3, 1, 1⟩ := ((do
  let _ ← send ⟨0, 1⟩ ⟨0, 1⟩ (.badged 0)
  let _ ← sched pickNext
  pure () : Sys ⟨1, 3, 1, 1⟩ Unit) firstRuns).2

/-- The second thread has sent a message too, and the third runs. -/
def twoSenders : System ⟨1, 3, 1, 1⟩ := ((do
  let _ ← send ⟨1, 1⟩ ⟨0, 1⟩ (.badged 0)
  let _ ← sched pickNext
  pure () : Sys ⟨1, 3, 1, 1⟩ Unit) secondRuns).2

variable (s : System ⟨1, 3, 1, 1⟩)

def sendersOf : List ThreadId :=
  (s.objects.endpoint? ⟨0, 1⟩).elim [] fun held => held.senders.iter s.objects.threads

/-- The third thread receives; the rendezvous is undone. -/
def undone : System ⟨1, 3, 1, 1⟩ :=
  (store (undoMeeting ⟨0, 1⟩ ⟨0, 1⟩ .senders 0 false) (recv ⟨2, 1⟩ ⟨0, 1⟩ true s).2).2

theorem reached_twoSenders :
    Reached KeepsLinks ⟨⟨some ⟨0, 1⟩, some ⟨1, 1⟩, 2⟩, twoSenders.objects.threads⟩
      [⟨0, 1⟩, ⟨1, 1⟩] := by
  have hfirst := Reached.call _ _ (.enqueue ⟨0, 1⟩)
    (.start _ : Reached KeepsLinks ⟨.empty, firstRuns.objects.threads⟩ []) trivial
  have hsecond := Reached.call _ _ (.enqueue ⟨1, 1⟩)
    (hfirst.elsewhere _ _ secondRuns.objects.threads fun id hid => ?_) trivial
  · refine hsecond.elsewhere _ _ twoSenders.objects.threads fun id hid => ?_
    have hid' : id ∈ [(⟨0, 1⟩ : ThreadId), ⟨1, 1⟩] := hid
    simp only [List.mem_cons, List.not_mem_nil, or_false] at hid'
    rcases hid' with rfl | rfl <;> decide +kernel
  · have hid' : id ∈ [(⟨0, 1⟩ : ThreadId)] := hid
    obtain rfl := List.mem_singleton.mp hid'
    decide +kernel

theorem undone_meeting_restores_queue_two_senders :
    let held : Endpoint := ⟨⟨some ⟨0, 1⟩, some ⟨1, 1⟩, 2⟩, .empty⟩
    twoSenders.objects.endpoint? ⟨0, 1⟩ = some held ∧
    ∃ (intent : Intent) (s₁ s₂ : System ⟨1, 3, 1, 1⟩) (held₂ : Endpoint),
      recv ⟨2, 1⟩ ⟨0, 1⟩ true twoSenders =
        (.ok (.sender ⟨0, 1⟩ intent.wantsReply intent.badge intent.kernelMessage), s₁) ∧
      store (undoMeeting ⟨0, 1⟩ ⟨0, 1⟩ (if intent.wantsReply then .callers else .senders)
        intent.badge intent.kernelMessage) s₁ = (.ok (), s₂) ∧
      s₂.objects.endpoint? ⟨0, 1⟩ = some held₂ ∧
      Stands ⟨held₂.senders, s₂.objects.threads⟩ [⟨0, 1⟩, ⟨1, 1⟩] := by
  intro held
  have hheld : twoSenders.objects.endpoint? ⟨0, 1⟩ = some held := by decide +kernel
  obtain ⟨intent, s₁, s₂, held₂, l, htaken, hundo, hheld₂, hstands, hiff⟩ :=
    (undone_meeting_restores_queue twoSenders ⟨0, 1⟩ held ⟨0, 1⟩ [⟨1, 1⟩] hheld).1
      reached_twoSenders ⟨2, 1⟩ true
  have hsame : l = [⟨0, 1⟩, ⟨1, 1⟩] := by
    refine hiff.mpr fun next hnext => ?_
    obtain rfl := Option.some.inj hnext
    decide +kernel
  exact ⟨hheld, intent, s₁, s₂, held₂, htaken, hundo, hheld₂, hsame ▸ hstands⟩

/-- The first sender has become the less urgent one while it waited. It is received from first, and
when that is undone it is behind the other. -/
theorem undone_meeting_reorders_queue :
    let s := (sched (setPriority ⟨0, 1⟩ 2) twoSenders).2
    sendersOf s = [⟨0, 1⟩, ⟨1, 1⟩] ∧
    (recv ⟨2, 1⟩ ⟨0, 1⟩ true s).1 = .ok (.sender ⟨0, 1⟩ false 0 false) ∧
    sendersOf (undone s) = [⟨1, 1⟩, ⟨0, 1⟩] := by
  decide +kernel

end Ipc

end Audhsos

import Audhsos.Syscall.Process

/-!
The calls on memory. Mappings are recorded twice, in the region table of the process and in its
page table; a memory object is held by the regions that name it, one reference each.
-/

namespace Audhsos.Calls

open Lib Prog Objects Environment

variable {ε : Type} [Environment ε] {z : Sizes}

def mappingRights : Rights := (Rights.read.union .write).union .execute

def rightsOf (perms : Permissions) : Rights :=
  (Rights.read.union (if perms.write then .write else .empty)).union
    (if perms.execute then .execute else .empty)

/-- The rights a region records: those of the handle for a mapping of one's own, and no more than
the mapping uses for a mapping in another process. -/
def regionRights (caller target : ProcessId) (held : Rights) (perms : Permissions) : Rights :=
  if target = caller then held.intersection mappingRights else rightsOf perms

def permissionsOf (bits : Nat) : Except Error Permissions :=
  if 4 ≤ bits then .error .invalidArgument
  else .ok ⟨bits % 2 = 1, 2 ≤ bits, true⟩

/-- The rights bound what a mapping may allow. -/
def checkPermissions (rights : Rights) (perms : Permissions) : Except Error Unit :=
  if perms.write ∧ ¬ rights.contains .write then .error .accessDenied
  else if perms.execute ∧ ¬ rights.contains .execute then .error .accessDenied
  else .ok ()

def frameAt (frames : PhysFrameRange) (offset : Nat) : Except Error PhysFrame :=
  if frames.count ≤ offset / pageSize then .error .invalidArgument
  else (frames.start.checkedAdd (offset / pageSize)).elim (.error .invalidArgument) .ok

def rangeOf (start length : Nat) : Call ε z PageRange :=
  ofExcept ((userRange start length).mapError RegionError.toError)

def onRegions {α : Type} (process : ProcessId)
    (m : Prog RegionError (RegionTable MemoryObjectId regionsPerProcess) α) : Store z α := do
  let holder ← getProcess process
  let (answer, regions) := m holder.regions
  withProcess process ({ · with regions })
  ofExcept (answer.mapError RegionError.toError)

/-! ## Mapping -/

def unwind (root : PhysFrame) : List Page → Call ε z Unit
  | [] => pure ()
  | page :: rest => do
    (env (unmap root page)).ignore
    unwind root rest

/-- Maps the pages from number `mapped` on, `left` of them, and answers how many are mapped. A
page that cannot be mapped takes back those before it. -/
def mapLoop (root : PhysFrame) (pages : PageRange) (first : PhysFrame) (perms : Permissions)
    (cache : CachePolicy) : Nat → Nat → Call ε z Nat
  | 0, mapped => pure mapped
  | left + 1, mapped =>
    match pages.start.checkedAdd mapped, first.checkedAdd mapped with
    | some page, some frame => do
      (env (map root page frame perms cache)).orUndo
        (unwind root (pages.pages.take mapped))
      mapLoop root pages first perms cache left (mapped + 1)
    | _, _ => pure mapped

def partialUnless (done count : Nat) : Reply :=
  if done < count then .progress done else .value done

variable (caller : ProcessId) (request : Request)

def memoryMap : Call ε z Reply := do
  let target ← processOf caller request
  let objectHandle ← handleAt request 1
  let (objectId, objectRights) ← objs (resolve .memoryObject caller objectHandle .map)
  let offset := request.argument 3
  let perms ← ofExcept (permissionsOf (request.argument 5))
  ofExcept (checkPermissions objectRights perms)
  require (offset % pageSize = 0) .unaligned
  let pages ← rangeOf (request.argument 2) (request.argument 4)
  let object ← objs (getMemory objectId)
  let first ← ofExcept (frameAt object.frames offset)
  require (pages.count ≤ object.frames.count - offset / pageSize) .invalidArgument
  let holder ← objs (getProcess target)
  require (holder.regions.find pages.start).isNone .addressInUse
  let budget := min pages.count maxPagesPerCall
  let mapped ← mapLoop holder.root pages first perms object.cache budget 0
  let mappedPages ← ofOption (PageRange.new pages.start mapped) .invalidArgument
  let region : Region MemoryObjectId :=
    { pages := mappedPages
      backing := objectId
      offset
      perms
      rights := regionRights caller target objectRights perms }
  let inserted ← (objs (onRegions target (RegionTable.insert region))).orUndo
    (unwind holder.root (pages.pages.take mapped))
  match inserted with
  | .merged => pure ()
  | .added => objs (onMemory (Pool.retain objectId))
  pure (partialUnless mapped pages.count)

/-! ## Unmapping -/

def unmapPages (root : PhysFrame) : List Page → Call ε z Unit
  | [] => pure ()
  | page :: rest => do
    env (unmap root page)
    unmapPages root rest

/-- Unmaps the pieces that were taken out of the region table. A region that went with its piece
gives its reference back; one that fell into two takes one more. -/
def unmapPieces (root : PhysFrame) : List (Taken MemoryObjectId) → Call ε z Unit
  | [] => pure ()
  | piece :: rest => do
    unmapPages root piece.region.pages.pages
    if piece.vanished then do
      let _ ← objs (onMemory (Pool.release piece.region.backing))
      pure ()
    else if piece.divided then objs (onMemory (Pool.retain piece.region.backing))
    else pure ()
    unmapPieces root rest

def memoryUnmap : Call ε z Reply := do
  let target ← processOf caller request
  let pages ← rangeOf (request.argument 1) (request.argument 2)
  let holder ← objs (getProcess target)
  require (holder.regions.find pages.start).isSome .notMapped
  let budget := min pages.count maxPagesPerCall
  let taken ← ofOption (PageRange.new pages.start budget) .invalidArgument
  let removed ← objs (onRegions target (RegionTable.remove 2 taken))
  unmapPieces holder.root removed.items
  let done := removed.remaining.elim budget fun rest => rest.start.number - pages.start.number
  pure (partialUnless done pages.count)

/-! ## Protecting -/

def restore (root : PhysFrame) (perms : Permissions) : List Page → Call ε z Unit
  | [] => pure ()
  | page :: rest => do
    (env (protect root page perms)).ignore
    restore root perms rest

/-- Protects the pages in turn; `done` are those before. A page that cannot be protected gives
those before it back what they allowed. -/
def protectLoop (root : PhysFrame) (perms old : Permissions) :
    List Page → List Page → Call ε z Unit
  | _, [] => pure ()
  | done, page :: rest => do
    (env (protect root page perms)).orUndo (restore root old done)
    protectLoop root perms old (done ++ [page]) rest

def retainTimes (id : MemoryObjectId) : Nat → Call ε z Unit
  | 0 => pure ()
  | times + 1 => do
    objs (onMemory (Pool.retain id))
    retainTimes id times

def memoryProtect : Call ε z Reply := do
  let target ← processOf caller request
  let pages ← rangeOf (request.argument 1) (request.argument 2)
  let perms ← ofExcept (permissionsOf (request.argument 3))
  let holder ← objs (getProcess target)
  let region ← ofOption (holder.regions.find pages.start) .notMapped
  ofExcept (checkPermissions region.rights perms)
  let budget := min pages.count maxPagesPerCall
  let touched ← ofOption (PageRange.new pages.start budget) .invalidArgument
  ofExcept ((holder.regions.checkProtect touched).mapError RegionError.toError)
  protectLoop holder.root perms region.perms [] (pages.pages.take budget)
  let gained ← objs (onRegions target (RegionTable.protect touched perms))
  retainTimes region.backing gained
  pure (partialUnless budget pages.count)

/-! ## Memory objects -/

variable (process : ProcessId)

def installMemory (object : MemoryObjectId) (rights : Rights) :
    Call ε z Nat := do
  let handle ← objs (installHandle process ⟨.of object, rights, 0⟩)
  pure handle.raw

def memorySplit (request : Request) : Call ε z Reply := do
  let (id, rights) ← objectOf .memoryObject process request .map
  let offset := request.argument 1
  require (offset % pageSize = 0) .unaligned
  let object ← objs (getMemory id)
  let index := offset / pageSize
  require (index ≠ 0 ∧ index < object.frames.count) .invalidArgument
  let tailStart ← ofOption (object.frames.start.checkedAdd index) .invalidArgument
  let tail ← ofOption (PhysFrameRange.new tailStart (object.frames.count - index))
    .invalidArgument
  let head ← ofOption (PhysFrameRange.new object.frames.start index) .invalidArgument
  chargeObject process
  let second ← (objs (onMemory (Pool.allocate ⟨tail, object.kind, object.cache⟩))).orUndo
    (refundObject process)
  let raw ← (installMemory process second rights).orUndo (do
    (objs (onMemory (Pool.release second))).ignore
    refundObject process)
  let _ ← objs (getMemory id)
  objs (withMemory id ({ · with frames := head }))
  pure (.value raw)

def memoryReferenceCount (id : MemoryObjectId) : Store z Nat := fun o =>
  ((o.memory.find id).elim (.error .invalidHandle) fun held => .ok held.refs, o)

section

variable (process : ProcessId) (request : Request)

def memoryMerge : Call ε z Reply := do
  let lowerHandle ← handleOf request
  let upperHandle ← handleAt request 1
  let (lower, lowerRights) ← objs (resolve .memoryObject process lowerHandle .map)
  let (upper, upperRights) ← objs (resolve .memoryObject process upperHandle .map)
  require (lower ≠ upper) .invalidArgument
  require (lowerRights = upperRights) .accessDenied
  let low ← objs (getMemory lower)
  let high ← objs (getMemory upper)
  require (low.kind = high.kind ∧ low.cache = high.cache) .invalidArgument
  let stop ← ofOption (low.frames.start.checkedAdd low.frames.count) .invalidArgument
  require (stop = high.frames.start) .invalidArgument
  let count ← ofOption (checkedAdd64 low.frames.count high.frames.count) .invalidArgument
  let joined ← ofOption (PhysFrameRange.new low.frames.start count) .invalidArgument
  let lowerReferences ← objs (memoryReferenceCount lower)
  let upperReferences ← objs (memoryReferenceCount upper)
  require (lowerReferences = 1 ∧ upperReferences = 1) .busy
  let switch ← consume process upperHandle
  let _ ← objs (getMemory lower)
  objs (withMemory lower ({ · with frames := joined }))
  refundObject process
  pure (Reply.done.switching switch)

def memoryInfo : Call ε z Reply := do
  let (id, _) ← objectOf .memoryObject process request .info
  let object ← objs (getMemory id)
  pure (.ofValues (object.frames.start.number * pageSize) (object.frames.count * pageSize))

def memoryReferences : Call ε z Reply := do
  let (id, _) ← objectOf .memoryObject process request .info
  let references ← objs (memoryReferenceCount id)
  pure (.value references)

end

end Audhsos.Calls

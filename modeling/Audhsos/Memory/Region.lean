import Audhsos.Abi
import Audhsos.Lib.Prog

/-!
Pages, frames and the region table of an address space. A page is its number; a range carries the
bound that its constructor checks. The table is the list of its regions in array order.
-/

namespace Audhsos

open Lib Prog

/-! ## Pages and frames -/

/-- An address is canonical when it lies in the user half or in the kernel half. -/
def isCanonical (raw : Nat) : Bool := raw < userSpaceEnd || kernelSpaceStart ≤ raw

structure Page where
  number : Nat
deriving DecidableEq, Repr

namespace Page

variable (page : Page)

def start : Nat := page.number * pageSize

def isUser : Bool := page.start < userSpaceEnd

def containing (address : Nat) : Page := ⟨address / pageSize⟩

def checkedAdd (count : Nat) : Option Page :=
  match checkedMul64 count pageSize with
  | none => none
  | some bytes =>
    match checkedAdd64 page.start bytes with
    | none => none
    | some raw =>
      if isCanonical raw ∧ decide (raw < userSpaceEnd) = page.isUser then some (containing raw)
      else none

end Page

/-- The page number one past the half of the address space that `page` lies in. -/
def pageLimit (page : Page) : Nat :=
  if page.isUser then userSpaceEnd / pageSize else u64Size / pageSize

/-- Consecutive pages that stay in one half of the address space. -/
structure PageRange where
  start : Page
  count : Nat
  end_le : start.number + count ≤ pageLimit start
deriving DecidableEq

namespace PageRange

def new (start : Page) (count : Nat) : Option PageRange :=
  if h : start.number + count ≤ pageLimit start then some ⟨start, count, h⟩ else none

section

variable (range : PageRange)

def endNumber : Nat := range.start.number + range.count

def bytes : Nat := range.count * pageSize

def isEmpty : Bool := range.count = 0

def isUser : Bool := range.start.isUser

def last : Option Page :=
  if range.count = 0 then none else range.start.checkedAdd (range.count - 1)

def contains (page : Page) : Bool :=
  range.start.number ≤ page.number && page.number < range.endNumber

end

def overlaps (a b : PageRange) : Bool :=
  !a.isEmpty && !b.isEmpty && a.start.number < b.endNumber && b.start.number < a.endNumber

def pages (range : PageRange) : List Page :=
  (List.range range.count).map fun i => ⟨range.start.number + i⟩

end PageRange

def maxFrameNumber : Nat := 2 ^ 40 - 1

structure PhysFrame where
  number : Nat
deriving DecidableEq, Repr

def PhysFrame.checkedAdd (frame : PhysFrame) (count : Nat) : Option PhysFrame :=
  if frame.number + count ≤ maxFrameNumber then some ⟨frame.number + count⟩ else none

/-- Consecutive frames below the end of physical memory. -/
structure PhysFrameRange where
  start : PhysFrame
  count : Nat
  end_le : start.number + count ≤ maxFrameNumber + 1
deriving DecidableEq

namespace PhysFrameRange

def new (start : PhysFrame) (count : Nat) : Option PhysFrameRange :=
  if h : start.number + count ≤ maxFrameNumber + 1 then some ⟨start, count, h⟩ else none

def endNumber (range : PhysFrameRange) : Nat := range.start.number + range.count

end PhysFrameRange

/-- What an entry of a page table allows beyond reading. -/
structure Permissions where
  write : Bool
  execute : Bool
  user : Bool
deriving DecidableEq, Repr

def Permissions.forUser (perms : Permissions) : Permissions := { perms with user := true }

inductive CachePolicy where
  | writeBack
  | uncached
deriving DecidableEq, Repr

/-! ## Regions -/

inductive RegionError where
  | empty
  | unaligned
  | overflow
  | outsideUserSpace
  | addressInUse
  | notMapped
  | quotaExceeded
deriving DecidableEq, Repr

def RegionError.toError : RegionError → Error
  | .empty | .overflow | .outsideUserSpace => .invalidArgument
  | .unaligned => .unaligned
  | .addressInUse => .addressInUse
  | .notMapped => .notMapped
  | .quotaExceeded => .quotaExceeded

/-- The pages of a request for `len` bytes at `start`. -/
def userRange (start len : Nat) : Except RegionError PageRange :=
  if len = 0 then .error .empty
  else if start % pageSize ≠ 0 ∨ len % pageSize ≠ 0 then .error .unaligned
  else if ¬ isCanonical start then .error .outsideUserSpace
  else if userSpaceEnd ≤ start ∨ start < userSpaceStart then .error .outsideUserSpace
  else (PageRange.new (.containing start) (len / pageSize)).elim (.error .overflow) .ok

/-- Pages mapped from an offset of a backing, with what they allow and what the handle they were
mapped through allowed. -/
structure Region (B : Type) where
  pages : PageRange
  backing : B
  offset : Nat
  perms : Permissions
  rights : Rights
deriving DecidableEq

namespace Region

variable {B : Type}

/-- `next` starts where `region` ends, in the address space and in the backing. -/
def continuesInto [DecidableEq B] (region next : Region B) : Bool :=
  region.pages.endNumber = next.pages.start.number && region.backing = next.backing &&
    region.perms = next.perms && region.rights = next.rights &&
    checkedAdd64 region.offset region.pages.bytes = some next.offset

variable (region : Region B)

def head (page : Page) : Option (Region B) :=
  if page.number ≤ region.pages.start.number then none
  else
    (PageRange.new region.pages.start (page.number - region.pages.start.number)).map fun pages =>
      { region with pages }

def tail (page : Page) : Option (Region B) :=
  if page.number < region.pages.start.number then none
  else
    let skipped := page.number - region.pages.start.number
    if region.pages.count ≤ skipped then none
    else do
      let pages ← PageRange.new page (region.pages.count - skipped)
      let bytes ← checkedMul64 skipped pageSize
      let offset ← checkedAdd64 region.offset bytes
      pure { region with pages, offset }

def clipped (pages : PageRange) : Option (Region B) :=
  let start := max region.pages.start.number pages.start.number
  let stop := min region.pages.endNumber pages.endNumber
  if stop ≤ start then none
  else do
    let page ← region.pages.start.checkedAdd (start - region.pages.start.number)
    let region ← region.tail page
    let pages ← PageRange.new page (stop - start)
    pure { region with pages }

end Region

/-- A piece taken out of a region: the region went with it, or fell into two. -/
structure Taken (B : Type) where
  region : Region B
  vanished : Bool
  divided : Bool
deriving DecidableEq

inductive InsertedRegion where
  | added
  | merged
deriving DecidableEq, Repr

/-- What one call of `remove` took, and the pages it left for the next. -/
structure Removed (B : Type) where
  items : List (Taken B)
  remaining : Option PageRange

def remainingFrom (page : Page) (pages : PageRange) : Option PageRange :=
  if pages.endNumber ≤ page.number then none else PageRange.new page (pages.endNumber - page.number)

/-- The regions of an address space, at most `n` of them. -/
structure RegionTable (B : Type) (n : Nat) where
  regions : List (Region B)
  kernel : Bool

namespace RegionTable

variable {B : Type} {n : Nat}

def new : RegionTable B n := ⟨[], false⟩

section

variable (table : RegionTable B n)

def freeSlots : Nat := n - table.regions.length

def find (page : Page) : Option (Region B) :=
  table.regions.find? (·.pages.contains page)

def checkRange (pages : PageRange) : Except RegionError Unit :=
  if pages.isEmpty then .error .empty
  else if table.kernel then .ok ()
  else if ¬ pages.isUser ∨ pages.start.start < userSpaceStart then .error .outsideUserSpace
  else .ok ()

def positionFor (page : Page) : Nat :=
  (table.regions.takeWhile fun region => region.pages.start.number < page.number).length

end

def insertAt (index : Nat) (region : Region B) : Prog RegionError (RegionTable B n) Unit :=
  fun table =>
    if n ≤ table.regions.length ∨ table.regions.length < index then (.error .quotaExceeded, table)
    else (.ok (), { table with regions := table.regions.insertIdx index region })

/-- Records a region, growing the one it continues if there is one. -/
def insert [DecidableEq B] (region : Region B) :
    Prog RegionError (RegionTable B n) InsertedRegion := do
  let table ← Prog.get
  ofExcept (table.checkRange region.pages)
  require (¬ table.regions.any (·.pages.overlaps region.pages)) .addressInUse
  match table.regions.findIdx? (·.continuesInto region) with
  | some index =>
    Prog.modify fun table => { table with
      regions := table.regions.modify index fun held => { held with
        pages := (PageRange.new held.pages.start (held.pages.count + region.pages.count)).getD
          held.pages } }
    pure .merged
  | none =>
    insertAt (table.positionFor region.pages.start) region
    pure .added

/-- The loop of `remove`: `done` are the regions behind the index, `todo` those from it on. -/
def removeLoop (limit : Nat) (pages : PageRange) (kernel : Bool) :
    List (Region B) → List (Taken B) → List (Region B) →
      Except RegionError (Removed B) × RegionTable B n
  | done, taken, [] => (.ok ⟨taken, none⟩, ⟨done, kernel⟩)
  | done, taken, region :: todo =>
    if ¬ region.pages.overlaps pages then removeLoop limit pages kernel (done ++ [region]) taken todo
    else match region.clipped pages with
      | none => removeLoop limit pages kernel (done ++ [region]) taken todo
      | some piece =>
        if limit ≤ taken.length then
          (.ok ⟨taken, remainingFrom piece.pages.start pages⟩, ⟨done ++ region :: todo, kernel⟩)
        else
          let tail := (piece.pages.last.bind (·.checkedAdd 1)).bind region.tail
          match region.head piece.pages.start, tail with
          | none, none => removeLoop limit pages kernel done (taken ++ [⟨piece, true, false⟩]) todo
          | some head, none =>
            removeLoop limit pages kernel (done ++ [head]) (taken ++ [⟨piece, false, false⟩]) todo
          | none, some tail =>
            removeLoop limit pages kernel (done ++ [tail]) (taken ++ [⟨piece, false, false⟩]) todo
          | some head, some tail =>
            if n ≤ (done ++ region :: todo).length then
              (.error .quotaExceeded, ⟨done ++ region :: todo, kernel⟩)
            else
              removeLoop limit pages kernel (done ++ [head, tail])
                (taken ++ [⟨piece, false, true⟩]) todo

/-- Takes `pages` out of the table, at most `limit` pieces of it in one call. -/
def remove (limit : Nat) (pages : PageRange) :
    Prog RegionError (RegionTable B n) (Removed B) := do
  let table ← Prog.get
  ofExcept (table.checkRange pages)
  require (table.regions.any (·.pages.overlaps pages)) .notMapped
  fun table => removeLoop limit pages table.kernel [] [] table.regions

variable (table : RegionTable B n) (pages : PageRange)

/-- The region that holds all of `pages`, its index, and how many regions a change of `pages`
alone adds. -/
def protectPlan :
    Except RegionError (Nat × Region B × Nat) := do
  table.checkRange pages
  let index ← (table.regions.findIdx? (·.pages.contains pages.start)).elim (.error .notMapped) .ok
  let region ← (table.regions[index]?).elim (.error .notMapped) .ok
  if region.pages.endNumber < pages.endNumber then .error .notMapped
  else
    let extra := (if region.pages.start.number < pages.start.number then 1 else 0) +
      if pages.endNumber < region.pages.endNumber then 1 else 0
    if table.freeSlots < extra then .error .quotaExceeded else .ok (index, region, extra)

def checkProtect : Except RegionError Unit :=
  (table.protectPlan pages).map fun _ => ()

/-- Changes what `pages` allow; answers how many regions that added. -/
def protect (perms : Permissions) :
    Prog RegionError (RegionTable B n) Nat := do
  let table ← Prog.get
  let (index, region, extra) ← ofExcept (table.protectPlan pages)
  let tail := (pages.last.bind (·.checkedAdd 1)).bind region.tail
  let clipped ← ofOption (region.clipped pages) .notMapped
  let middle := { clipped with perms }
  let next ← match region.head pages.start with
    | some head => do
      Prog.modify fun table => { table with regions := table.regions.set index head }
      insertAt (index + 1) middle
      pure (index + 2)
    | none => do
      Prog.modify fun table => { table with regions := table.regions.set index middle }
      pure (index + 1)
  match tail with
  | some tail => insertAt next tail
  | none => pure ()
  pure extra

/-- The loop of `checkInvariants`, with the pages of the region before. -/
def checkFrom (kernel : Bool) : Option PageRange → List (Region B) → Bool
  | _, [] => true
  | previous, region :: regions =>
    if region.pages.isEmpty then false
    else if ¬ kernel ∧ (¬ region.pages.isUser ∨ region.pages.start.start < userSpaceStart) then
      false
    else if previous.any fun pages => region.pages.start.number < pages.endNumber then false
    else checkFrom kernel (some region.pages) regions

/-- The regions are sorted, non-empty, disjoint and, for a user table, in the mappable half. -/
def checkInvariants : Bool :=
  checkFrom table.kernel none table.regions

end RegionTable

end Audhsos

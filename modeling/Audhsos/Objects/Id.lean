import Audhsos.Abi

/-!
Names of kernel objects. An id is typed by the kind of object it names; `AnyObjectId` carries the
type as data, as a handle entry does.
-/

namespace Audhsos

/-- The name of a pool object: a slot and the generation the slot had when it was handed out. -/
@[ext]
structure ObjectId (type : ObjectType) where
  index : Nat
  generation : Nat
deriving DecidableEq, Repr

abbrev ProcessId := ObjectId .process
abbrev ThreadId := ObjectId .thread
abbrev MemoryObjectId := ObjectId .memoryObject
abbrev EndpointId := ObjectId .endpoint
abbrev ReplyId := ObjectId .reply
abbrev NotificationId := ObjectId .notification
abbrev InterruptId := ObjectId .interrupt

/-- The name of an object of any type. -/
@[ext]
structure AnyObjectId where
  objectType : ObjectType
  index : Nat
  generation : Nat
deriving DecidableEq, Repr

namespace AnyObjectId

def of {type : ObjectType} (id : ObjectId type) : AnyObjectId := ⟨type, id.index, id.generation⟩

def typed (type : ObjectType) (id : AnyObjectId) : Except Error (ObjectId type) :=
  if id.objectType = type then .ok ⟨id.index, id.generation⟩ else .error .wrongObjectType

end AnyObjectId

end Audhsos

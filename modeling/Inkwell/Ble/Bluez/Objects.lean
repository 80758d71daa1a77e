import Mathlib.Data.List.Nodup
import Inkwell.Base.Errno
import Inkwell.Base.Text

namespace Inkwell.Bluez

def handleMax : Nat := 128
def addressMax : Nat := 40
def nameMax : Nat := 64
def uuidLen : Nat := 37

inductive Interface
  | adapter | device | characteristic
  deriving DecidableEq

inductive Property
  | powered | discovering | address | name | aliasName | paired | rssi | uuids | uuid | other
  deriving DecidableEq

inductive Variant
  | text (s : Text)
  | boolean (b : Bool)
  | int16 (n : Int)
  | array (texts : List Text)
  | other
  deriving DecidableEq

/-- An `a{sv}`. -/
abbrev Properties := List (Property × Variant)

/-- An `a{sa{sv}}`, with none for an interface that is not kept. -/
abbrev Interfaces := List (Option Interface × Properties)

structure Object where
  path : Text
  interfaces : Interface → Bool := fun _ => false
  poweredOff : Bool := false
  discovering : Bool := false
  address : Text := []
  name : Text := []
  aliasName : Text := []
  rssi : Int := 0
  hasRssi : Bool := false
  paired : Bool := false
  services : List Text := []
  uuid : Text := []

structure Objects where
  objects : List Object := []
  loaded : Bool := false
  serial : Nat := 0

def objectFind (objects : List Object) (path : Text) : Option Object :=
  objects.find? fun object => object.path = path

def objectPut (object : Object) : List Object → List Object
  | [] => [object]
  | first :: objects =>
    if first.path = object.path then object :: objects else first :: objectPut object objects

def objectAdd (memory : Bool) (objects : List Object) (path : Text) : Option Object :=
  match objectFind objects path with
  | some object => some object
  | none => if memory then some { path := strCopy handleMax path } else none

def objectRemove (objects : List Object) (path : Text) : List Object :=
  objects.eraseP fun object => object.path = path

def objectsClear (o : Objects) : Objects := { o with objects := [], loaded := false }

namespace Object
variable (o : Object)

def setServices (memory : Bool) (texts : List Text) : Object × Bool :=
  if texts = [] then ({ o with services := [] }, true)
  else if memory then ({ o with services := texts.map (strCopy uuidLen) }, true)
  else ({ o with services := [] }, false)

/-- A property is set, and false is what a value that could not be kept comes to. -/
def setProperty (memory : Bool) (interface : Interface) (key : Property) (value : Variant) :
    Object × Bool :=
  match interface, key, value with
  | .adapter, .powered, .boolean b => ({ o with poweredOff := !b }, true)
  | .adapter, .discovering, .boolean b => ({ o with discovering := b }, true)
  | .characteristic, .uuid, .text s => ({ o with uuid := strCopy uuidLen s }, true)
  | .device, .address, .text s => ({ o with address := strCopy addressMax s }, true)
  | .device, .name, .text s => ({ o with name := strCopy nameMax s }, true)
  | .device, .aliasName, .text s => ({ o with aliasName := strCopy nameMax s }, true)
  | .device, .paired, .boolean b => ({ o with paired := b }, true)
  | .device, .rssi, .int16 n => ({ o with rssi := n, hasRssi := true }, true)
  | .device, .uuids, .array texts => o.setServices memory texts
  | _, _, _ => (o, true)

def unsetProperty (interface : Interface) (key : Property) : Object :=
  match interface, key with
  | .device, .rssi => { o with hasRssi := false, rssi := 0 }
  | .device, .name => { o with name := [] }
  | .device, .aliasName => { o with aliasName := [] }
  | .device, .paired => { o with paired := false }
  | .device, .uuids => { o with services := [] }
  | _, _ => o

def setProperties (o : Object) (memory : Bool) (interface : Interface) : Properties → Object × Bool
  | [] => (o, true)
  | (key, value) :: properties =>
    let (o, kept) := o.setProperty memory interface key value
    let (o, kept') := o.setProperties memory interface properties
    (o, kept && kept')

def unsetProperties (interface : Interface) (keys : List Property) : Object :=
  keys.foldl (fun o key => o.unsetProperty interface key) o

def give (interface : Interface) : Object :=
  { o with interfaces := Function.update o.interfaces interface true }

def lose (interface : Interface) : Object :=
  { o with interfaces := Function.update o.interfaces interface false }

def bare : Bool := !(o.interfaces .adapter || o.interfaces .device || o.interfaces .characteristic)

end Object

def addEach (memory : Bool) (path : Text) (objects : List Object) : Interfaces → List Object × Bool
  | [] => (objects, true)
  | (none, _) :: rest => addEach memory path objects rest
  | (some interface, properties) :: rest =>
    match objectAdd memory objects path with
    | none => (objects, false)
    | some object =>
      let (object, kept) := (object.give interface).setProperties memory interface properties
      let (objects, kept') := addEach memory path (objectPut object objects) rest
      (objects, kept && kept')

def objectsAddInterfaces (memory : Bool) (objects : List Object) (path : Text)
    (interfaces : Interfaces) : List Object × Bool :=
  if handleMax ≤ path.length then (objects, true) else addEach memory path objects interfaces

def objectsRemoveInterfaces (objects : List Object) (path : Text)
    (names : List (Option Interface)) :
    List Object :=
  match objectFind objects path with
  | none => objects
  | some object =>
    let object := (names.filterMap id).foldl Object.lose object
    if object.bare then objectRemove objects path else objectPut object objects

inductive TreeReply
  | error
  | other
  | tree (entries : List (Text × Interfaces))

def loadEach (memory : Bool) (objects : List Object) : List (Text × Interfaces) → List Object × Bool
  | [] => (objects, true)
  | (path, interfaces) :: entries =>
    match objectsAddInterfaces memory objects path interfaces with
    | (objects, false) => (objects, false)
    | (objects, true) => loadEach memory objects entries

def objectsLoad (memory : Bool) (o : Objects) : TreeReply → Objects
  | .error => o
  | .other => o
  | .tree entries =>
    match loadEach memory [] entries with
    | (_, false) => objectsClear o
    | (objects, true) => { o with objects, loaded := true }

/-- The signals of bluetoothd's object tree, and of the bus about its owner. -/
inductive TreeSignal
  | ownerChanged (bluez : Bool) (owned : Bool)
  | interfacesAdded (path : Text) (interfaces : Interfaces)
  | interfacesRemoved (path : Text) (names : List (Option Interface))
  | propertiesChanged (path : Text) (interface : Interface) (changed : Properties)
      (invalidated : List Property)

def objectsPropertiesChanged (memory : Bool) (o : Objects) (path : Text) (interface : Interface)
    (changed : Properties) (invalidated : List Property) : Objects :=
  match if o.loaded then objectFind o.objects path else none with
  | none => o
  | some object =>
    if object.interfaces interface then
      match object.setProperties memory interface changed with
      | (_, false) => objectsClear o
      | (object, true) =>
        { o with objects := objectPut (object.unsetProperties interface invalidated) o.objects }
    else o

/-- `sent` is the serial that a new GetManagedObjects gets, or none when it cannot be sent. -/
def objectsHandleSignal (memory : Bool) (sent : Option Nat) (o : Objects) : TreeSignal → Objects
  | .ownerChanged bluez owned =>
    if bluez then
      let o := { objectsClear o with serial := 0 }
      if owned then { o with serial := sent.getD 0 } else o
    else o
  | .interfacesAdded path interfaces =>
    if o.loaded then
      match objectsAddInterfaces memory o.objects path interfaces with
      | (_, false) => objectsClear o
      | (objects, true) => { o with objects }
    else o
  | .interfacesRemoved path names =>
    if o.loaded then { o with objects := objectsRemoveInterfaces o.objects path names } else o
  | .propertiesChanged path interface changed invalidated =>
    -- a characteristic's is not kept, it carries the values of a subscription
    match interface with
    | .characteristic => o
    | _ => objectsPropertiesChanged memory o path interface changed invalidated

end Inkwell.Bluez

import Libacorn.Support.RefGraph
import Libacorn.Bytestream
import Libacorn.JsArray

/-!
# Requests: lib/http.cpp

`js_httpreq` copies three values of its caller, reads its options through `unwrap` of libacorn.h
and starts a download task. The tasks complete on a thread of the session, in any order; each
completion puts a block on the main queue, and the block calls `resolve` and frees the copies. The
script runs between the blocks, and inside the call that a block makes.

Objects are cells with a reference count, and have references to other objects. `unwrap` takes a
reference to each property of an object and never frees it; that to an element of an array it
frees at once, so that only the properties are counted here. Strings and big integers are
immutable, and their counts are not modelled; nor is the collector of cycles.
-/

namespace Libacorn

open Support

/-- The content of `string(fieldName, -1)`. -/
def fieldKey (name : JsString) : Outcome Bytes :=
  let fieldName := toCStringLen name
  let cb := int32 (fieldName.takeWhile (· ≠ 0)).length
  if cb < 0 then .fault else .done (fieldName.take cb.toNat)

/-- `val::set`; `none` is an assertion that fails. -/
def Val.set (v : CVal) (key : Bytes) (value : CVal) : Option CVal :=
  match v with
  | .empty => some (.map (OrderedMap.assign key value []))
  | .map fields => some (.map (OrderedMap.assign key value fields))
  | _ => none

/-- `val::operator[]`: the val with an entry under the key, and that entry. -/
def Val.index (v : CVal) (key : Bytes) : Option (CVal × CVal) :=
  match v with
  | .empty => some (.map (OrderedMap.insert key .empty []), .empty)
  | .map fields =>
    some (.map (OrderedMap.insert key .empty fields), (OrderedMap.lookup key fields).getD .empty)
  | _ => none

/-- `val::stringRef`. A val of another type gives the empty string that has no buffer. -/
def Val.stringRef : CVal → Option Bytes
  | .string s => some s
  | _ => none

namespace Http

/-! ## Values -/

/-- A value that is no object. -/
def Primitive : JsVal → Prop
  | .array _ _ => False
  | _ => True

/-- A string of characters below `U+0100`. -/
def jsText (s : String) : JsString := ⟨false, s.toList.map Char.toNat⟩

/-- A `JSValue`: a primitive, or an object. -/
inductive JSValue where
  | plain (v : { v : JsVal // Primitive v })
  | counted (i : Nat)

def JSValue.undefined : JSValue := .plain ⟨.undefined, trivial⟩

def JSValue.null : JSValue := .plain ⟨.null, trivial⟩

def JSValue.string (s : JsString) : JSValue := .plain ⟨.string s, trivial⟩

def JSValue.id? : JSValue → Option Nat
  | .plain _ => none
  | .counted i => some i

/-- What an object has in it. The own properties of a plain object stand in the order of
`JS_GetOwnPropertyNames`; `other` is an object of a class that is not a C++ class, such as a
function, with what it has captured. -/
inductive JsData (α : Type) where
  | array (elements : List α)
  | object (fields : List (JsString × α))
  | native (id : Nat)
  | other (captured : List α)

def JsData.values {α : Type} : JsData α → List α
  | .array elements => elements
  | .object fields => fields.map Prod.snd
  | .native _ => []
  | .other captured => captured

/-- The objects that an object refers to. -/
def JsData.ids (d : JsData JSValue) : List Nat := d.values.filterMap JSValue.id?

abbrev Heap := RefHeap (JsData JSValue)

/-- A value can be used as long as its object is live. -/
def usable (H : Heap) : JSValue → Bool
  | .plain _ => true
  | .counted i => (H.get? i).isSome

/-- `JS_DupValue`; the count is an `int`. -/
def dupValue (H : Heap) : JSValue → Outcome Heap
  | .plain _ => .done H
  | .counted i =>
    match H.cells i, H.retain i with
    | some c, some H => if c.refs + 1 < 2 ^ 31 then .done H else .fault
    | _, _ => .fault

def dupValues (H : Heap) : List JSValue → Outcome Heap
  | [] => .done H
  | v :: vs => (dupValue H v).bind fun H => dupValues H vs

/-- `JS_FreeValue` of several values; an object without references gives up what it has. -/
def freeValues (H : Heap) (vs : List JSValue) : Outcome Heap :=
  let ids := vs.filterMap JSValue.id?
  match RefHeap.free JsData.ids ((RefHeap.edges JsData.ids H).card + ids.length) H ids with
  | some H => .done H
  | none => .fault

def freeValue (H : Heap) (v : JSValue) : Outcome Heap := freeValues H [v]

/-! ## js_traits<acorn::val> on objects -/

/-- What `unwrap` returns, behind the references that it takes and does not free. -/
abbrev Unwrapped := List JSValue × CVal

def unwrapElements (unwrap : JSValue → Outcome Unwrapped) :
    List JSValue → Outcome (List JSValue × List CVal)
  | [] => .done ([], [])
  | w :: elements => (unwrap w).bind fun r =>
    (unwrapElements unwrap elements).bind fun rs => .done (r.1 ++ rs.1, r.2 :: rs.2)

/-- The loop over the names of the properties, which fills `rv`. -/
def unwrapFields (unwrap : JSValue → Outcome Unwrapped) :
    List (JsString × JSValue) → CVal → Outcome Unwrapped
  | [], rv => .done ([], rv)
  | (name, fieldVal) :: fields, rv => (unwrap fieldVal).bind fun r =>
    (fieldKey name).bind fun key =>
    match rv.set key r.2 with
    | none => .fault
    | some rv => (unwrapFields unwrap fields rv).bind fun rs =>
      .done (fieldVal :: r.1 ++ rs.1, rs.2)

def unwrapObject (unwrap : JSValue → Outcome Unwrapped) : JsData JSValue → Outcome Unwrapped
  | .array elements => (unwrapElements unwrap elements).bind fun r => .done (r.1, .array r.2)
  | .object fields => unwrapFields unwrap fields .empty
  | .native id => .done ([], .object id)
  | .other _ => .fault

/-- `unwrap`, for objects that are nested up to a depth. -/
def unwrapValue (H : Heap) : Nat → JSValue → Outcome Unwrapped
  | _, .plain v => (unwrapVal v.1).bind fun r =>
    match r with
    | some v => .done ([], v)
    | none => .fault
  | 0, .counted _ => .timeout
  | n + 1, .counted i =>
    match H.get? i with
    | some d => unwrapObject (unwrapValue H n) d
    | none => .fault

/-! ## js_httpreq -/

/-- `stringWithUTF8String` and `stringWithCString`: whether there is a string for these bytes. -/
class Foundation where
  decodes : Bytes → Bool

/-- What the block of a task has captured, and what was set on the request. A method that could
not be decoded is nil. -/
structure Request where
  thisVal : JSValue
  resolve : JSValue
  reject : JSValue
  url : Bytes
  method : Option Bytes
  body : Option Bytes

def methodKey : Bytes := utf8 "method".toList
def headersKey : Bytes := utf8 "headers".toList
def bodyKey : Bytes := utf8 "body".toList

/-- The C string at these bytes. -/
def cString (s : Bytes) : Bytes := s.takeWhile (· ≠ 0)

/-- `str2ns`; a string without buffer gives NULL, and `stringWithCString` throws. -/
def str2ns [Foundation] : Option Bytes → Outcome (Option Bytes)
  | none => .fault
  | some s => .done (if Foundation.decodes (cString s) then some (cString s) else none)

/-- The NSURL; `URLWithString` throws when the string is nil. -/
def urlWithString [Foundation] (url : JsString) : Outcome Bytes :=
  let s := cString (toCStringLen url)
  if Foundation.decodes s then .done s else .fault

/-- The method and the body that `options` have. -/
def buildRequest [Foundation] (options : CVal) : Outcome (Option Bytes × Option Bytes) :=
  match options.index methodKey with
  | none => .fault
  | some (options, method) => (str2ns method.stringRef).bind fun method =>
    match options.index headersKey with
    | none => .fault
    | some (options, _) =>
      match options.index bodyKey with
      | none => .fault
      | some (_, .empty) => .done (method, none)
      | some (_, .bytearray b) => .done (method, some b)
      | some _ => .fault

/-- How a call ends: a task is started, or there is a TypeError. -/
inductive Called where
  | started (r : Request)
  | refused (thisVal resolve reject : JSValue) (message : String)

/-- `js_httpreq` from its first check on. -/
def startTask [Foundation] (thisVal resolve reject url : JSValue) (options : CVal) :
    Outcome Called :=
  match url with
  | .plain ⟨.string url, _⟩ =>
    match options with
    | .empty | .map _ =>
      (urlWithString url).bind fun url =>
      (buildRequest options).bind fun r =>
      .done (.started ⟨thisVal, resolve, reject, url, r.1, r.2⟩)
    | _ => .done (.refused thisVal resolve reject "Options param should be a plain object")
  | _ => .done (.refused thisVal resolve reject "Only string urls supported")

/-- `js_httpreq`, with the arguments that it was called with, and the references that `unwrap` has
taken. Objects that are nested deeper than the heap has ids contain themselves. -/
def httpreq [Foundation] (H : Heap) (thisVal : JSValue) :
    List JSValue → Outcome (Heap × List JSValue × Called)
  | [url, options, resolve, reject] =>
    (dupValue H thisVal).bind fun H =>
    (unwrapValue H H.next options).bind fun r =>
    (dupValues H r.1).bind fun H =>
    (dupValue H resolve).bind fun H =>
    (dupValue H reject).bind fun H =>
    (startTask thisVal resolve reject url r.2).bind fun c => .done (H, r.1, c)
  | _ => .fault

/-! ## The session, the main queue and the script -/

/-- The response with which a task completes. -/
inductive Response where
  | none
  | http (statusCode : BitVec 64)
  | other

/-- `(int)httpres.statusCode`; nil answers 0, and a response without the method throws. -/
def Response.status : Response → Outcome (BitVec 32)
  | .none => .done 0
  | .http statusCode => .done (statusCode.truncate 32)
  | .other => .fault

structure Task where
  id : Nat
  request : Request

inductive Event where
  | unwrapped (taken : List JSValue)
  | started (id : Nat) (r : Request)
  | refused (thisVal resolve reject : JSValue) (message : String)
  | completed (id : Nat) (res : Response)
  | resolved (id : Nat) (func thisVal : JSValue) (status : BitVec 32)
  | returned (v : JSValue)

/-- The block that is in its call of `resolve`, with the cell of `resval`. -/
structure Running where
  task : Task
  resval : Nat

/-- `held` are the references of the script; `running` is the block on the main thread. -/
structure State where
  heap : Heap
  held : List JSValue
  next : Nat
  inFlight : List Task
  queue : List (Task × Response)
  running : Option Running
  log : List Event

def State.start : State := ⟨.empty, [], 0, [], [], none, []⟩

/-- A value as the script names it. In the call of `resolve` it has the function, its `this` and
its argument. -/
inductive Name where
  | plain (v : { v : JsVal // Primitive v })
  | held (k : Nat)
  | callee
  | receiver
  | argument

def Name.undefined : Name := .plain ⟨.undefined, trivial⟩

def Name.string (s : String) : Name := .plain ⟨.string (jsText s), trivial⟩

inductive Action where
  | make (d : JsData Name)
  | copy (n : Name)
  | drop (k : Nat)
  | change (n : Name) (d : JsData Name)
  | httpreq (thisVal : Name) (argv : List Name)
  | complete (k : Nat) (res : Response)
  | deliver
  | finish (result : Name)

namespace State

def value (S : State) : Name → Option JSValue
  | .plain v => some (.plain v)
  | .held k => S.held[k]?
  | .callee => S.running.map fun r => r.task.request.resolve
  | .receiver => S.running.map fun r => r.task.request.thisVal
  | .argument => S.running.map fun r => .counted r.resval

def values (S : State) : List Name → Option (List JSValue)
  | [] => some []
  | n :: ns =>
    match S.value n, S.values ns with
    | some v, some vs => some (v :: vs)
    | _, _ => none

def data (S : State) : JsData Name → Option (JsData JSValue)
  | .array elements => (S.values elements).map .array
  | .object fields =>
    (S.values (fields.map Prod.snd)).map fun vs => .object ((fields.map Prod.fst).zip vs)
  | .native id => some (.native id)
  | .other captured => (S.values captured).map .other

/-- The options have been read. -/
def noted (S : State) (H : Heap) (taken : List JSValue) : State :=
  { S with heap := H, log := S.log ++ [.unwrapped taken] }

/-- The call is over, and its task is with the session. -/
def called (S : State) : Called → State
  | .started r =>
    { S with next := S.next + 1, inFlight := S.inFlight ++ [⟨S.next, r⟩],
             log := S.log ++ [.started S.next r] }
  | .refused v resolve reject message =>
    { S with log := S.log ++ [.refused v resolve reject message] }

/-- `resval` -/
def responseData (status : BitVec 32) : JsData JSValue :=
  .object [(jsText "status", .plain ⟨.int status, trivial⟩)]

/-- The block up to its call of `resolve`. -/
def call (S : State) (t : Task) (res : Response) (queue : List (Task × Response)) : Outcome State :=
  res.status.bind fun status =>
  let H := S.heap.alloc (responseData status)
  if usable H t.request.resolve ∧ usable H t.request.thisVal then
    .done { S with heap := H, queue := queue, running := some ⟨t, S.heap.next⟩,
                   log := S.log ++ [.resolved t.id t.request.resolve t.request.thisVal status] }
  else .fault

/-- The block from there on; what `resolve` has returned is not freed. -/
def freeAll (H : Heap) (r : Running) : Outcome Heap :=
  (freeValue H r.task.request.thisVal).bind fun H =>
  (freeValue H r.task.request.resolve).bind fun H =>
  (freeValue H r.task.request.reject).bind fun H =>
  freeValue H (.counted r.resval)

/-- An action that is not possible changes nothing. -/
def step [Foundation] (S : State) : Action → Outcome State
  | .make d =>
    match S.data d with
    | some d => (dupValues S.heap d.values).bind fun H =>
      .done { S with heap := H.alloc d, held := S.held ++ [.counted H.next] }
    | none => .done S
  | .copy n =>
    match S.value n with
    | some v => (dupValue S.heap v).bind fun H => .done { S with heap := H, held := S.held ++ [v] }
    | none => .done S
  | .drop k =>
    match S.held[k]? with
    | some v => (freeValue S.heap v).bind fun H =>
      .done { S with heap := H, held := S.held.eraseIdx k }
    | none => .done S
  | .change n d =>
    match S.value n, S.data d with
    | some (.counted i), some d => (dupValues S.heap d.values).bind fun H =>
      match H.get? i with
      | some old => (freeValues (H.modify i d) old.values).bind fun H => .done { S with heap := H }
      | none => .fault
    | _, _ => .done S
  | .httpreq this argv =>
    match S.value this, S.values argv with
    | some v, some vs => (httpreq S.heap v vs).bind fun r =>
      .done ((S.noted r.1 r.2.1).called r.2.2)
    | _, _ => .done S
  | .complete k res =>
    match S.inFlight[k]? with
    | some t => .done { S with inFlight := S.inFlight.eraseIdx k, queue := S.queue ++ [(t, res)],
                               log := S.log ++ [.completed t.id res] }
    | none => .done S
  | .deliver =>
    match S.running, S.queue with
    | none, (t, res) :: queue => S.call t res queue
    | _, _ => .done S
  | .finish result =>
    match S.running, S.value result with
    | some r, some v =>
      (dupValue S.heap v).bind fun H =>
      (freeAll H r).bind fun H =>
      .done { S with heap := H, running := none, log := S.log ++ [.returned v] }
    | _, _ => .done S

def run [Foundation] (S : State) : List Action → Outcome State
  | [] => .done S
  | a :: as => (S.step a).bind fun S => S.run as

end State

end Http

end Libacorn

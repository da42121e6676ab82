import Libacorn.Views
import Libacorn.Json

/-!
# ux/view.cpp, ux/window.cpp: views from a description

`View::createImpl` makes a view for a val and applies its properties; under the key
`views` it makes the subviews, each from its own val. `describe` reads the same val as a
tree without addresses, and `Stands` says where such a tree is.

The keys that only reach AppKit (a text, an image, a title) change nothing here; but a C string
that is NULL is refused.
-/

namespace Libacorn.Views

open Support Layout

/-! ## Classes and properties -/

/-- The classes with `DECLARE_DYNCREATE`, and `View`. -/
inductive ViewClass where
  | View
  | TextView
  | ImageView
  | Button
  deriving DecidableEq, Repr

/-- The members of a view that properties set. -/
structure Props where
  id : Bytes
  backgroundColor : CVal
  layout : Bytes
  margin : CVal
  x : CVal
  y : CVal
  width : CVal
  height : CVal
  flexBasis : CVal
  flexGrow : Float32
  flexShrink : Float32
  gravityH : Float32
  gravityV : Float32
  padding : CVal
  borderColor : CVal
  borderWidth : CVal
  borderStyle : CVal

/-- The members of a new view. -/
def Props.initial : Props where
  id := []
  backgroundColor := .empty
  layout := []
  margin := .empty
  x := .empty
  y := .empty
  width := .empty
  height := .empty
  flexBasis := .empty
  flexGrow := 0
  flexShrink := 0
  gravityH := 0
  gravityV := 0
  padding := .empty
  borderColor := .empty
  borderWidth := .empty
  borderStyle := .empty

section Keys

variable [Platform] [FormatF]

/-- `val::stringVal` -/
def stringVal : CVal → Bytes
  | .int32 i => utf8 (decimal i.toInt)
  | .int64 i => utf8 (decimal i.toInt)
  | .uint32 u => utf8 (decimal u.toNat)
  | .uint64 u => utf8 (decimal u.toNat)
  | .float32 f => FormatF.f32 f
  | .float64 f => FormatF.f64 f
  | .string s => s
  | _ => []

/-- The C string that `v.stringVal().c_str()` points to; `none` is NULL, or one without an
end. -/
def cStringVal (v : Val Text) : Option Bytes :=
  match v with
  | .string s => s.cStr.bind cString
  | v => cString (stringVal v.content ++ [0])

/-- `val::floatVal` of a val with handles: `atof` reads a C string. -/
def floatValOf (v : Val Text) : Option Float32 :=
  match v with
  | .string s => (s.cStr.bind cString).map fun p => (Platform.atof p).toFloat32
  | v => some (floatVal v.content)

/-- AppKit takes the text of the val. -/
def showsText (v : Val Text) : Bool := (cStringVal v).any Platform.takesText

/-- `log_error("Bad gravity val: %s", v.debugString()); return 0;` -/
def badGravity (v : Val Text) : Option Float32 := v.toJson.map fun _ => 0

/-- `getGravity`; `none` when `debugString` prints no text. -/
def getGravity (v : Val Text) : Option Float32 :=
  match v with
  | .string s =>
    let g := s.content
    if g = lit ['l', 'e', 'f', 't'] ∨ g = lit ['t', 'o', 'p'] then some 0
    else if g = lit ['c', 'e', 'n', 't', 'e', 'r'] ∨ g = lit ['c', 'e', 'n', 't', 'r', 'e'] then
      some 0.5
    else if g = lit ['r', 'i', 'g', 'h', 't'] ∨ g = lit ['b', 'o', 't', 't', 'o', 'm'] then some 1
    else badGravity v
  | v => if isNumeric v.content then some (floatVal v.content) else badGravity v

def isString : Val Text → Bool
  | .string _ => true
  | _ => false

/-- The branch `key == "gravity"`; `none` when an assertion of it fails, or a bad val is not
printed. -/
def setGravity (v : Val Text) (p : Props) : Option Props :=
  match v with
  | .array [h, v] => do
    let gravityH ← getGravity h
    let gravityV ← getGravity v
    some { p with gravityH := gravityH, gravityV := gravityV }
  | .array _ => none
  | v =>
    if isString v || isNumeric v.content then
      (getGravity v).map fun gravityH => { p with gravityH := gravityH }
    else (badGravity v).map fun _ => p

/-- The branch `key == "border"`; `none` when it throws. -/
def setBorder (v : Val Text) (p : Props) : Option Props :=
  match v with
  | .array [color, width, style] =>
    some { p with
      borderColor := color.content
      borderWidth := width.content
      borderStyle := style.content }
  | _ => none

def viewsKey : Bytes := lit ['v', 'i', 'e', 'w', 's']
def gravityKey : Bytes := lit ['g', 'r', 'a', 'v', 'i', 't', 'y']
def textKey : Bytes := lit ['t', 'e', 'x', 't']
def imageKey : Bytes := lit ['i', 'm', 'a', 'g', 'e']
def classKey : Bytes := lit ['c', 'l', 'a', 's', 's']

/-- `View::applyProp` for every key but `views`: whether it knows the key, and the members. -/
def setProp (key : Bytes) (v : Val Text) (p : Props) : Option (Bool × Props) :=
  if key = lit ['i', 'd'] then some (true, { p with id := stringVal v.content })
  else if key = lit ['b', 'a', 'c', 'k', 'g', 'r', 'o', 'u', 'n', 'd', 'C', 'o', 'l', 'o', 'r'] then
    some (true, { p with backgroundColor := v.content })
  else if key = lit ['l', 'a', 'y', 'o', 'u', 't'] then
    some (true, { p with layout := stringVal v.content })
  else if key = lit ['m', 'a', 'r', 'g', 'i', 'n'] then some (true, { p with margin := v.content })
  else if key = lit ['x'] then some (true, { p with x := v.content })
  else if key = lit ['y'] then some (true, { p with y := v.content })
  else if key = lit ['w', 'i', 'd', 't', 'h'] then some (true, { p with width := v.content })
  else if key = lit ['h', 'e', 'i', 'g', 'h', 't'] then some (true, { p with height := v.content })
  else if key = lit ['f', 'l', 'e', 'x', '-', 'b', 'a', 's', 'i', 's'] then
    some (true, { p with flexBasis := v.content })
  else if key = lit ['f', 'l', 'e', 'x', '-', 'g', 'r', 'o', 'w'] then
    (floatValOf v).map fun x => (true, { p with flexGrow := x })
  else if key = lit ['f', 'l', 'e', 'x', '-', 's', 'h', 'r', 'i', 'n', 'k'] then
    (floatValOf v).map fun x => (true, { p with flexShrink := x })
  else if key = gravityKey then (setGravity v p).map fun p => (true, p)
  else if key = lit ['p', 'a', 'd', 'd', 'i', 'n', 'g'] then
    some (true, { p with padding := v.content })
  else if key = lit ['b', 'o', 'r', 'd', 'e', 'r'] then (setBorder v p).map fun p => (true, p)
  else some (false, p)

/-- The string of an image's path has a buffer, as it has after `resolvePath`. -/
def hasBuffer (v : Val Text) : Bool :=
  match v with
  | .string s => !s.mem.isEmpty
  | _ => true

/-- What the class does with a key first: it needs nothing more, or it passes a key on to
`View::applyProp`. The outer `none` is a call that AppKit refuses. -/
def ViewClass.passes (key : Bytes) (v : Val Text) : ViewClass → Option (Option Bytes)
  | .View => some (some key)
  | .TextView =>
    if key = textKey then if showsText v then some none else none
    else if key = lit ['t', 'e', 'x', 't', '-', 's', 'i', 'z', 'e'] ∨
        key = lit ['f', 'o', 'n', 't', '-', 's', 'i', 'z', 'e'] then
      (floatValOf v).map fun _ => none
    else if key = lit ['t', 'e', 'x', 't', '-', 'a', 'l', 'i', 'g', 'n'] then some (some gravityKey)
    else some (some key)
  -- `image` is passed on
  | .ImageView => if key = imageKey ∧ hasBuffer v = false then none else some (some key)
  | .Button =>
    if key = textKey then if showsText v then some none else none
    else some (some key)

/-- `Object::createByName`; `none` when its assertion fails. -/
def createByName (className : Bytes) : Option ViewClass :=
  if className = lit ['T', 'e', 'x', 't', 'V', 'i', 'e', 'w'] then some .TextView
  else if className = lit ['I', 'm', 'a', 'g', 'e', 'V', 'i', 'e', 'w'] then some .ImageView
  else if className = lit ['B', 'u', 't', 't', 'o', 'n'] then some .Button
  else none

/-- `map::find` -/
def field (key : Bytes) (fields : List (Bytes × CVal)) : Option CVal := OrderedMap.lookup key fields

/-- The class of the view that `createImpl` makes for a map. -/
def viewClass (fields : List (Bytes × CVal)) : Option ViewClass :=
  let viewClassName := ((field classKey fields).map stringVal).getD []
  if viewClassName.length ≠ 0 then createByName viewClassName
  else if (field textKey fields).isSome then createByName
    (lit ['T', 'e', 'x', 't', 'V', 'i', 'e', 'w'])
  else if (field imageKey fields).isSome then createByName
    (lit ['I', 'm', 'a', 'g', 'e', 'V', 'i', 'e', 'w'])
  else some .View

/-! ## The views of a program -/

/-- The views by address; those from `next` on are not made yet. -/
structure Ui where
  next : Nat
  cls : Nat → ViewClass
  props : Nat → Props
  isRoot : Nat → Bool
  superview : Nat → Option Nat
  subviews : Nat → List Nat

namespace Ui

/-- `new View()`, or a class of its own, at the address `next`. -/
def alloc (cls : ViewClass) (u : Ui) : Ui where
  next := u.next + 1
  cls := Function.update u.cls u.next cls
  props := Function.update u.props u.next .initial
  isRoot := Function.update u.isRoot u.next false
  superview := Function.update u.superview u.next none
  subviews := Function.update u.subviews u.next []

def setProps (a : Nat) (p : Props) (u : Ui) : Ui := { u with props := Function.update u.props a p }

/-- `p->addView(c)`; `none` when the assertion fails. -/
def addView (p c : Nat) (u : Ui) : Option Ui :=
  if u.superview c = none then
    some { u with
      superview := Function.update u.superview c (some p)
      subviews := Function.update u.subviews p (u.subviews p ++ [c]) }
  else none

end Ui

mutual

/-- `View::createImpl`: the address of the new view; `none` when an assertion fails,
`applyProp` throws or a C string is NULL. -/
def createImpl : Val Text → Ui → Option (Nat × Ui)
  | .empty, u => some (u.next, u.alloc .View)
  | .map fields, u => do
    let cls ← viewClass (Val.fieldContents fields)
    let u' ← applyProps u.next fields (u.alloc cls)
    some (u.next, u')
  | _, _ => none

/-- `JSObj::applyProps` on the view at `a` -/
def applyProps (a : Nat) : List (Text × Val Text) → Ui → Option Ui
  | [], u => some u
  | (key, v) :: fields, u => do
    let r ← applyProp a key.content v u
    applyProps a fields r.2

/-- `applyProp` of the class, and then `View::applyProp` -/
def applyProp (a : Nat) (key : Bytes) (v : Val Text) (u : Ui) : Option (Bool × Ui) :=
  match (u.cls a).passes key v with
  | none => none
  | some none => some (true, u)
  | some (some key) =>
    if key = viewsKey then
      match v with
      | .array vec => (addViews a vec u).map fun u => (true, u)
      -- `arrayRef` of another val is empty
      | _ => some (true, u)
    else (setProp key v (u.props a)).map fun r => (r.1, u.setProps a r.2)

/-- `for (val& vs : a) addView(View::create<View>(vs));` -/
def addViews (a : Nat) : List (Val Text) → Ui → Option Ui
  | [], u => some u
  | vs :: vec, u => do
    let r ← createImpl vs u
    let u' ← r.2.addView a r.1
    addViews a vec u'

end

/-! ## ux/window.cpp -/

def Ui.setRoot (a : Nat) (u : Ui) : Ui := { u with isRoot := Function.update u.isRoot a true }

/-- The keys that `Window::applyProp` hands to AppKit. -/
def windowKey (key : Bytes) : Bool :=
  key == lit ['w', 'i', 'd', 't', 'h'] || key == lit ['h', 'e', 'i', 'g', 'h', 't'] ||
    key == lit ['t', 'i', 't', 'l', 'e']

/-- `Window::applyProp`, with the root view at `a` -/
def applyWindowProp (a : Nat) (key : Bytes) (v : Val Text) (u : Ui) : Option (Bool × Ui) :=
  if key = lit ['t', 'i', 't', 'l', 'e'] then if showsText v then some (true, u) else none
  else if windowKey key then some (true, u)
  else applyProp a key v u

/-- `JSObj::applyProps` on a window -/
def applyWindowProps (a : Nat) : List (Text × Val Text) → Ui → Option Ui
  | [], u => some u
  | (key, v) :: fields, u => do
    let r ← applyWindowProp a key.content v u
    applyWindowProps a fields r.2

/-- `Window::Window`, with the val of its file: the address of the root view. -/
def openWindow (props : Val Text) (u : Ui) : Option (Nat × Ui) := do
  let r ← createImpl .empty u
  match props with
  | .map fields =>
    let u' ← applyWindowProps r.1 fields (r.2.setRoot r.1)
    some (r.1, u')
  | _ => some (r.1, r.2.setRoot r.1)

/-! ## The description as a tree

What a description means, by tables of the keys and names that stand in one. -/

/-- What the last of the fields under one of the keys gives; `default` where none does. -/
def lastOf {α : Type} (keys : List Bytes) (read : Val Text → Option α) (default : α)
    (fields : List (Text × Val Text)) : α :=
  ((fields.filter fun f => f.1.content ∈ keys).filterMap fun f => read f.2).getLastD default

/-- The names of the registered classes. -/
def classNames : List (Bytes × ViewClass) :=
  [(lit ['T', 'e', 'x', 't', 'V', 'i', 'e', 'w'], .TextView),
    (lit ['I', 'm', 'a', 'g', 'e', 'V', 'i', 'e', 'w'], .ImageView),
    (lit ['B', 'u', 't', 't', 'o', 'n'], .Button)]

/-- The class of a description: the one it names, or else one that shows what it has. -/
def describedClass (fields : List (Text × Val Text)) : Option ViewClass :=
  match (fields.find? fun f => f.1.content = classKey).map fun f => stringVal f.2.content with
  | some (c :: name) => classNames.lookup (c :: name)
  | _ =>
    if fields.any fun f => f.1.content = textKey then some .TextView
    else if fields.any fun f => f.1.content = imageKey then some .ImageView
    else some .View

/-- The names of a gravity. -/
def gravityNames : List (Bytes × Float32) :=
  [(lit ['l', 'e', 'f', 't'], 0), (lit ['t', 'o', 'p'], 0),
    (lit ['c', 'e', 'n', 't', 'e', 'r'], 0.5), (lit ['c', 'e', 'n', 't', 'r', 'e'], 0.5),
    (lit ['r', 'i', 'g', 'h', 't'], 1),
    (lit ['b', 'o', 't', 't', 'o', 'm'], 1)]

/-- The keys of a gravity. -/
def ViewClass.gravityKeys : ViewClass → List Bytes
  | .TextView => [gravityKey, lit ['t', 'e', 'x', 't', '-', 'a', 'l', 'i', 'g', 'n']]
  | _ => [gravityKey]

/-- A number, or what a name stands for; anything else is 0. -/
def gravityOf (v : Val Text) : Float32 :=
  match v with
  | .string s => (gravityNames.lookup s.content).getD 0
  | v => if isNumeric v.content then floatVal v.content else 0

/-- The horizontal gravity that a val gives: alone, or as the first of two. -/
def horizontal (v : Val Text) : Option Float32 :=
  match v with
  | .array [h, _] => some (gravityOf h)
  | .array _ => none
  | v => if isString v || isNumeric v.content then some (gravityOf v) else none

def vertical : Val Text → Option Float32
  | .array [_, v] => some (gravityOf v)
  | _ => none

/-- One part of a border. -/
def borderPart (i : Nat) : Val Text → Option CVal
  | .array vec => vec[i]?.map Val.content
  | _ => none

/-- The members of a view of the class with these fields: for each member its keys, and how it
is read. -/
def described (cls : ViewClass) (p : Props) (fields : List (Text × Val Text)) : Props where
  id := lastOf [lit ['i', 'd']] (fun v => some (stringVal v.content)) p.id fields
  backgroundColor :=
    lastOf [lit ['b', 'a', 'c', 'k', 'g', 'r', 'o', 'u', 'n', 'd', 'C', 'o', 'l', 'o', 'r']]
      (fun v => some v.content) p.backgroundColor fields
  layout :=
    lastOf [lit ['l', 'a', 'y', 'o', 'u', 't']] (fun v => some (stringVal v.content)) p.layout
      fields
  margin := lastOf [lit ['m', 'a', 'r', 'g', 'i', 'n']] (fun v => some v.content) p.margin fields
  x := lastOf [lit ['x']] (fun v => some v.content) p.x fields
  y := lastOf [lit ['y']] (fun v => some v.content) p.y fields
  width := lastOf [lit ['w', 'i', 'd', 't', 'h']] (fun v => some v.content) p.width fields
  height := lastOf [lit ['h', 'e', 'i', 'g', 'h', 't']] (fun v => some v.content) p.height fields
  flexBasis :=
    lastOf [lit ['f', 'l', 'e', 'x', '-', 'b', 'a', 's', 'i', 's']] (fun v => some v.content)
      p.flexBasis fields
  flexGrow := lastOf [lit ['f', 'l', 'e', 'x', '-', 'g', 'r', 'o', 'w']] floatValOf p.flexGrow
    fields
  flexShrink :=
    lastOf [lit ['f', 'l', 'e', 'x', '-', 's', 'h', 'r', 'i', 'n', 'k']] floatValOf p.flexShrink
      fields
  gravityH := lastOf cls.gravityKeys horizontal p.gravityH fields
  gravityV := lastOf cls.gravityKeys vertical p.gravityV fields
  padding := lastOf [lit ['p', 'a', 'd', 'd', 'i', 'n', 'g']] (fun v => some v.content) p.padding
    fields
  borderColor := lastOf [lit ['b', 'o', 'r', 'd', 'e', 'r']] (borderPart 0) p.borderColor fields
  borderWidth := lastOf [lit ['b', 'o', 'r', 'd', 'e', 'r']] (borderPart 1) p.borderWidth fields
  borderStyle := lastOf [lit ['b', 'o', 'r', 'd', 'e', 'r']] (borderPart 2) p.borderStyle fields

/-- The val is a gravity, or one that the log can print. -/
def gravityLogged (v : Val Text) : Bool :=
  match v with
  | .string s => (gravityNames.lookup s.content).isSome || v.toJson.isSome
  | v => isNumeric v.content || v.toJson.isSome

def gravityAccepted (v : Val Text) : Bool :=
  match v with
  | .array vec => vec.length == 2 && vec.all gravityLogged
  | v => gravityLogged v

def borderAccepted : Val Text → Bool
  | .array vec => vec.length == 3
  | _ => false

/-- The keys of a view of the class that ask something of their vals, and what it is. -/
def ViewClass.requires : ViewClass → List (Bytes × (Val Text → Bool))
  | .View => common
  | .TextView =>
    (textKey, showsText) :: (lit ['t', 'e', 'x', 't', '-', 's', 'i', 'z', 'e'], isNumber) ::
      (lit ['f', 'o', 'n', 't', '-', 's', 'i', 'z', 'e'], isNumber) ::
      (lit ['t', 'e', 'x', 't', '-', 'a', 'l', 'i', 'g', 'n'], gravityAccepted) :: common
  | .ImageView => (imageKey, hasBuffer) :: common
  | .Button => (textKey, showsText) :: common
where
  isNumber (v : Val Text) : Bool := (floatValOf v).isSome
  common : List (Bytes × (Val Text → Bool)) :=
    [(lit ['f', 'l', 'e', 'x', '-', 'g', 'r', 'o', 'w'], isNumber),
      (lit ['f', 'l', 'e', 'x', '-', 's', 'h', 'r', 'i', 'n', 'k'], isNumber),
      (gravityKey, gravityAccepted), (lit ['b', 'o', 'r', 'd', 'e', 'r'], borderAccepted)]

/-- The val is one that the view takes under the key. -/
def ViewClass.accepts (cls : ViewClass) (key : Bytes) (v : Val Text) : Bool :=
  cls.requires.all fun r => key != r.1 || r.2 v

/-- A view with its subviews, without addresses. -/
inductive Desc where
  | view (cls : ViewClass) (props : Props) (subviews : List Desc)

mutual

/-- The tree that a val describes. -/
def describe : Val Text → Option Desc
  | .empty => some (.view .View .initial [])
  | .map fields => do
    let cls ← describedClass fields
    let subviews ← describeFields cls fields
    some (.view cls (described cls .initial fields) subviews)
  | _ => none

/-- The subviews in the fields, which are all accepted. -/
def describeFields (cls : ViewClass) : List (Text × Val Text) → Option (List Desc)
  | [] => some []
  | (key, v) :: fields => do
    let ds ← describeField cls key.content v
    let rest ← describeFields cls fields
    some (ds ++ rest)

def describeField (cls : ViewClass) (key : Bytes) (v : Val Text) : Option (List Desc) :=
  if key = viewsKey then
    match v with
    | .array vec => describeAll vec
    | _ => some []
  else if cls.accepts key v then some []
  else none

def describeAll : List (Val Text) → Option (List Desc)
  | [] => some []
  | vs :: vec => do
    let d ← describe vs
    let ds ← describeAll vec
    some (d :: ds)

end

def describeWindowField (key : Bytes) (v : Val Text) : Option (List Desc) :=
  if key = lit ['t', 'i', 't', 'l', 'e'] then if showsText v then some [] else none
  else if windowKey key then some []
  else describeField .View key v

/-- The subviews in the fields of a window, whose title AppKit takes. -/
def describeWindowFields : List (Text × Val Text) → Option (List Desc)
  | [] => some []
  | (key, v) :: fields => do
    let ds ← describeWindowField key.content v
    let rest ← describeWindowFields fields
    some (ds ++ rest)

/-- The tree under the root view of a window: that of the keys that are not the window's own. -/
def describeWindow : Val Text → Option Desc
  | .map fields =>
    let props := described .View .initial (fields.filter fun f => !windowKey f.1.content)
    (describeWindowFields fields).map fun subviews => .view .View props subviews
  | _ => some (.view .View .initial [])

end Keys

/-! ## What a field gives -/

section Fields

variable {α : Type}

theorem lookup_of_notMem {k : Bytes} {l : List (Bytes × α)} (h : k ∉ l.map Prod.fst) :
    l.lookup k = none := by
  rw [List.lookup_eq_none_iff]
  intro e he
  rw [bne_iff_ne]
  rintro rfl
  exact h (List.mem_map_of_mem he)

theorem lastOf_nil (keys : List Bytes) (read : Val Text → Option α) (default : α) :
    lastOf keys read default [] = default := rfl

theorem lastOf_cons (keys : List Bytes) (read : Val Text → Option α) (default : α) (key : Text)
    (v : Val Text) (fields : List (Text × Val Text)) :
    lastOf keys read default ((key, v) :: fields) =
      lastOf keys read (if key.content ∈ keys then (read v).getD default else default) fields := by
  rw [lastOf, lastOf, List.filter_cons]
  split_ifs with hkey hkey' hkey'
  · rw [List.filterMap_cons]
    cases read v with
    | none => rfl
    | some a => exact List.getLastD_cons
  · exact absurd (of_decide_eq_true hkey) hkey'
  · exact absurd (decide_eq_true hkey') hkey
  · rfl

theorem lookup_gravityNames (g : Bytes) :
    gravityNames.lookup g =
      if g = lit ['l', 'e', 'f', 't'] ∨ g = lit ['t', 'o', 'p'] then some 0
      else if g = lit ['c', 'e', 'n', 't', 'e', 'r'] ∨ g = lit ['c', 'e', 'n', 't', 'r', 'e'] then
        some 0.5
      else if g = lit ['r', 'i', 'g', 'h', 't'] ∨ g = lit ['b', 'o', 't', 't', 'o', 'm'] then some 1
      else none := by
  by_cases hname : g ∈ gravityNames.map Prod.fst
  · simp only [gravityNames, List.map_cons, List.map_nil, List.mem_cons, List.not_mem_nil,
      or_false] at hname
    rcases hname with rfl | rfl | rfl | rfl | rfl | rfl <;> rfl
  · have hnone := lookup_of_notMem hname
    simp only [gravityNames, List.map_cons, List.map_nil, List.mem_cons, List.not_mem_nil, or_false,
      not_or] at hname
    simp [hnone, hname]

theorem createByName_eq (className : Bytes) :
    createByName className = classNames.lookup className := by
  by_cases hname : className ∈ classNames.map Prod.fst
  · simp only [classNames, List.map_cons, List.map_nil, List.mem_cons, List.not_mem_nil,
      or_false] at hname
    rcases hname with rfl | rfl | rfl <;> rfl
  · have hnone := lookup_of_notMem hname
    simp only [classNames, List.map_cons, List.map_nil, List.mem_cons, List.not_mem_nil, or_false,
      not_or] at hname
    simp [createByName, hnone, hname]

theorem field_contents (key : Bytes) (fields : List (Text × Val Text)) :
    field key (Val.fieldContents fields) =
      (fields.find? fun f => f.1.content = key).map fun f => f.2.content := by
  induction fields with
  | nil => rfl
  | cons f fields ih =>
    obtain ⟨name, v⟩ := f
    rw [Val.fieldContents, field, OrderedMap.lookup, List.find?_cons, List.find?_cons]
    by_cases hkey : name.content = key
    · simp only [hkey, decide_true, Option.map_some]
    · simp only [hkey, decide_false]
      exact ih

theorem isSome_field (key : Bytes) (fields : List (Text × Val Text)) :
    (field key (Val.fieldContents fields)).isSome = fields.any fun f => f.1.content = key := by
  rw [field_contents, Option.isSome_map, List.isSome_find?]

theorem setBorder_eq (v : Val Text) (p : Props) :
    setBorder v p = if borderAccepted v then
      some { p with
        borderColor := (borderPart 0 v).getD p.borderColor
        borderWidth := (borderPart 1 v).getD p.borderWidth
        borderStyle := (borderPart 2 v).getD p.borderStyle }
      else none := by
  cases v with
  | array vec =>
    match vec with
    | [] => rfl
    | [_] => rfl
    | [_, _] => rfl
    | [_, _, _] => rfl
    | _ :: _ :: _ :: _ :: vec => simp [setBorder, borderAccepted]
  | _ => rfl

/-- The keys of `View::applyProp` that take every val. -/
def plainKeys : List Bytes :=
  [lit ['i', 'd'], lit ['b', 'a', 'c', 'k', 'g', 'r', 'o', 'u', 'n', 'd', 'C', 'o', 'l', 'o', 'r'],
    lit ['l', 'a', 'y', 'o', 'u', 't'], lit ['m', 'a', 'r', 'g', 'i', 'n'], lit ['x'], lit ['y'],
    lit ['w', 'i', 'd', 't', 'h'], lit ['h', 'e', 'i', 'g', 'h', 't'],
    lit ['f', 'l', 'e', 'x', '-', 'b', 'a', 's', 'i', 's'], lit ['p', 'a', 'd', 'd', 'i', 'n', 'g']]

section Members

variable [FormatF]

/-- `createImpl` chooses the class that is described. -/
theorem viewClass_eq (fields : List (Text × Val Text)) :
    viewClass (Val.fieldContents fields) = describedClass fields := by
  have hname : ((field classKey (Val.fieldContents fields)).map stringVal).getD [] =
      ((fields.find? fun f => f.1.content = classKey).map fun f => stringVal f.2.content).getD
        [] := by
    rw [field_contents, Option.map_map]
    rfl
  rw [viewClass, describedClass, hname, isSome_field, isSome_field]
  cases (fields.find? fun f => f.1.content = classKey).map fun f => stringVal f.2.content with
  | none => rfl
  | some name =>
    cases name with
    | nil => rfl
    | cons c name => exact createByName_eq (c :: name)

theorem badGravity_eq (v : Val Text) : badGravity v = if v.toJson.isSome then some 0 else none := by
  rw [badGravity]
  cases v.toJson with
  | none => rfl
  | some t => rfl

variable [Platform]

theorem described_nil (cls : ViewClass) (p : Props) : described cls p [] = p := rfl

/-- The members after one more field. -/
theorem described_cons (cls : ViewClass) (p : Props) (f : Text × Val Text)
    (fields : List (Text × Val Text)) :
    described cls p (f :: fields) = described cls (described cls p [f]) fields := by
  obtain ⟨key, v⟩ := f
  simp only [described, lastOf_cons, lastOf_nil]

/-- A gravity is read as it is described, or is logged. -/
theorem getGravity_eq (v : Val Text) :
    getGravity v = if gravityLogged v then some (gravityOf v) else none := by
  cases v with
  | string s =>
    rw [getGravity, badGravity_eq]
    simp only [gravityLogged, gravityOf, lookup_gravityNames]
    split_ifs <;> simp_all
  | _ =>
    simp only [getGravity, gravityLogged, gravityOf, badGravity_eq]
    split_ifs <;> simp_all

theorem setGravity_eq (v : Val Text) (p : Props) :
    setGravity v p = if gravityAccepted v then
      some { p with
        gravityH := (horizontal v).getD p.gravityH
        gravityV := (vertical v).getD p.gravityV }
      else none := by
  cases v with
  | array vec =>
    match vec with
    | [] => rfl
    | [_] => rfl
    | [h, v] =>
      simp only [setGravity, getGravity_eq, gravityAccepted, horizontal, vertical]
      by_cases hh : gravityLogged h <;> by_cases hv : gravityLogged v <;> simp [hh, hv]
    | _ :: _ :: _ :: vec => simp [setGravity, gravityAccepted]
  | _ => 
    simp only [setGravity, getGravity_eq, gravityAccepted, horizontal, vertical, gravityLogged,
      isString, badGravity_eq]
    split_ifs <;> simp_all

theorem setProp_eq (key : Text) (v : Val Text) (p : Props) :
    (setProp key.content v p).map Prod.snd =
      if ViewClass.View.accepts key.content v then some (described .View p [(key, v)]) else
        none := by
  simp only [described, lastOf_cons, lastOf_nil, ViewClass.accepts, ViewClass.requires,
    ViewClass.requires.common, ViewClass.requires.isNumber, ViewClass.gravityKeys,
    List.mem_singleton, List.all_cons, List.all_nil]
  generalize key.content = k
  by_cases hplain : k ∈ plainKeys
  · simp only [plainKeys, List.mem_cons, List.not_mem_nil, or_false] at hplain
    rcases hplain with rfl | rfl | rfl | rfl | rfl | rfl | rfl | rfl | rfl | rfl <;> simp +decide
      [setProp]
  by_cases hgravity : k = gravityKey
  · subst hgravity
    simp +decide [setProp, setGravity_eq]
  by_cases hborder : k = lit ['b', 'o', 'r', 'd', 'e', 'r']
  · subst hborder
    simp +decide [setProp, setBorder_eq]
  by_cases hgrow : k = lit ['f', 'l', 'e', 'x', '-', 'g', 'r', 'o', 'w']
  · subst hgrow
    cases hv : floatValOf v with
    | none => simp +decide [setProp, hv]
    | some x => simp +decide [setProp, hv]
  by_cases hshrink : k = lit ['f', 'l', 'e', 'x', '-', 's', 'h', 'r', 'i', 'n', 'k']
  · subst hshrink
    cases hv : floatValOf v with
    | none => simp +decide [setProp, hv]
    | some x => simp +decide [setProp, hv]
  · simp only [plainKeys, List.mem_cons, List.not_mem_nil, or_false, not_or] at hplain
    simp [setProp, hplain, hgravity, hborder, hgrow, hshrink]

theorem described_append (cls : ViewClass) (p : Props) (fields fields' : List (Text × Val Text)) :
    described cls p (fields ++ fields') = described cls (described cls p fields) fields' := by
  induction fields generalizing p with
  | nil => rfl
  | cons f fields ih => rw [List.cons_append, described_cons, ih, ← described_cons]

theorem described_views {key : Text} (hkey : key.content = viewsKey) (cls : ViewClass)
    (v : Val Text) (p : Props) : described cls p [(key, v)] = p := by
  cases cls <;> simp +decide [described, lastOf_cons, lastOf_nil, hkey, ViewClass.gravityKeys]

theorem passes_views (v : Val Text) (cls : ViewClass) :
    cls.passes viewsKey v = some (some viewsKey) := by
  cases cls <;> simp +decide [ViewClass.passes]

/-- What becomes of a field, whichever class has it: AppKit refuses it, or takes it and the
members stay, or `View::applyProp` takes it under this key or another. -/
theorem passes_eq (cls : ViewClass) {key : Text} (hkey : key.content ≠ viewsKey) (v : Val Text)
    (p : Props) :
    (cls.passes key.content v = none ∧ cls.accepts key.content v = false) ∨
      (cls.passes key.content v = some none ∧ cls.accepts key.content v = true ∧
        described cls p [(key, v)] = p) ∨
      ∃ k, cls.passes key.content v = some (some k) ∧ k ≠ viewsKey ∧
        (setProp k v p).map Prod.snd =
          if cls.accepts key.content v then some (described cls p [(key, v)]) else none := by
  have hview := setProp_eq key v p
  cases cls with
  | View => exact Or.inr (Or.inr ⟨key.content, rfl, hkey, hview⟩)
  | ImageView =>
    have haccepts : ViewClass.ImageView.accepts key.content v =
        ((key.content != imageKey || hasBuffer v) && ViewClass.View.accepts key.content v) := rfl
    by_cases himage : key.content = imageKey ∧ hasBuffer v = false
    · left
      rw [haccepts, himage.1, himage.2, ViewClass.passes, if_pos ⟨rfl, himage.2⟩]
      exact ⟨rfl, by simp⟩
    · refine Or.inr (Or.inr ⟨key.content, by rw [ViewClass.passes, if_neg himage], hkey, ?_⟩)
      have htrue : (key.content != imageKey || hasBuffer v) = true := by
        rw [Bool.or_eq_true, bne_iff_ne]
        by_contra hno
        rw [not_or, Bool.not_eq_true, not_not] at hno
        exact himage hno
      rw [haccepts, htrue, Bool.true_and]
      exact hview
  | Button =>
    by_cases htext : key.content = textKey
    · cases hshows : showsText v <;>
        simp +decide [described, lastOf_cons, lastOf_nil, htext, ViewClass.gravityKeys,
        ViewClass.passes, ViewClass.accepts, ViewClass.requires, ViewClass.requires.common, hshows]
    · refine Or.inr (Or.inr ⟨key.content, by rw [ViewClass.passes, if_neg htext], hkey, ?_⟩)
      have haccepts : ViewClass.Button.accepts key.content v =
          ((key.content != textKey || showsText v) && ViewClass.View.accepts key.content v) := rfl
      rw [haccepts, bne_iff_ne.mpr htext, Bool.true_or, Bool.true_and]
      exact hview
  | TextView =>
    by_cases htext : key.content = textKey
    · cases hshows : showsText v <;>
        simp +decide [described, lastOf_cons, lastOf_nil, htext, ViewClass.gravityKeys,
        ViewClass.passes, ViewClass.accepts, ViewClass.requires, ViewClass.requires.common, hshows]
    by_cases hsize : key.content = lit ['t', 'e', 'x', 't', '-', 's', 'i', 'z', 'e'] ∨
        key.content = lit ['f', 'o', 'n', 't', '-', 's', 'i', 'z', 'e']
    · rcases hsize with hsize | hsize <;> cases hnumber : floatValOf v <;>
        simp +decide [described, lastOf_cons, lastOf_nil, hsize, ViewClass.gravityKeys,
        ViewClass.passes, ViewClass.accepts, ViewClass.requires, ViewClass.requires.common,
        ViewClass.requires.isNumber, hnumber]
    by_cases halign : key.content = lit ['t', 'e', 'x', 't', '-', 'a', 'l', 'i', 'g', 'n']
    · refine Or.inr (Or.inr ⟨gravityKey, ?_, by decide, ?_⟩)
      · rw [ViewClass.passes, halign]
        simp +decide
      · simp +decide [described, lastOf_cons, lastOf_nil, halign, ViewClass.gravityKeys, setProp,
          setGravity_eq, ViewClass.accepts, ViewClass.requires, ViewClass.requires.common]
    · refine Or.inr (Or.inr ⟨key.content, ?_, hkey, ?_⟩)
      · rw [ViewClass.passes, if_neg htext, if_neg hsize, if_neg halign]
      · have haccepts : ViewClass.TextView.accepts key.content v =
            ViewClass.View.accepts key.content v := by
          obtain ⟨hsize, hfont⟩ := not_or.mp hsize
          simp only [ViewClass.accepts, ViewClass.requires, List.all_cons, bne_iff_ne.mpr htext,
            bne_iff_ne.mpr hsize, bne_iff_ne.mpr hfont, bne_iff_ne.mpr halign, Bool.true_or,
            Bool.true_and]
        have hsame : described .TextView p [(key, v)] = described .View p [(key, v)] := by
          simp [described, lastOf_cons, lastOf_nil, ViewClass.gravityKeys, halign]
        rw [haccepts, hsame]
        exact hview

end Members

end Fields

/-! ## Where a tree stands -/

mutual

/-- The number of views of a tree. -/
def Desc.size : Desc → Nat
  | .view _ _ subviews => sizeAll subviews + 1

def sizeAll : List Desc → Nat
  | [] => 0
  | d :: ds => d.size + sizeAll ds

end

/-- The addresses of trees that stand one after the other from `n` on. -/
def starts : List Desc → Nat → List Nat
  | [], _ => []
  | d :: ds, n => n :: starts ds (n + d.size)

mutual

/-- The tree stands at `a`, below `p`: a view before its subviews, everything in order and
without gaps. Only the view at `a` may be the root of a window. -/
def Stands (u : Ui) : Desc → Bool → Option Nat → Nat → Prop
  | .view cls props subviews, root, p, a =>
    (u.cls a = cls ∧ u.props a = props ∧ u.isRoot a = root) ∧ u.superview a = p ∧
      u.subviews a = starts subviews (a + 1) ∧ StandAll u subviews (some a) (a + 1)

def StandAll (u : Ui) : List Desc → Option Nat → Nat → Prop
  | [], _, _ => True
  | d :: ds, p, a => Stands u d false p a ∧ StandAll u ds p (a + d.size)

end

theorem sizeAll_append (ds es : List Desc) : sizeAll (ds ++ es) = sizeAll ds + sizeAll es := by
  induction ds with
  | nil => rw [sizeAll, List.nil_append, Nat.zero_add]
  | cons d ds ih => rw [List.cons_append, sizeAll, sizeAll, ih, Nat.add_assoc]

theorem starts_append (ds es : List Desc) (n : Nat) :
    starts (ds ++ es) n = starts ds n ++ starts es (n + sizeAll ds) := by
  induction ds generalizing n with
  | nil => rfl
  | cons d ds ih =>
    rw [List.cons_append, starts, starts, ih, List.cons_append, sizeAll, Nat.add_assoc]

theorem standAll_append {u : Ui} {ds es : List Desc} {p : Option Nat} {n : Nat} :
    StandAll u (ds ++ es) p n ↔ StandAll u ds p n ∧ StandAll u es p (n + sizeAll ds) := by
  induction ds generalizing n with
  | nil => exact ⟨fun h => ⟨trivial, h⟩, fun h => h.2⟩
  | cons d ds ih => rw [List.cons_append, StandAll, StandAll, ih, sizeAll, Nat.add_assoc, and_assoc]

/-- Everything about the view at `a` is the same. -/
structure SameAt (u u' : Ui) (a : Nat) : Prop where
  cls : u'.cls a = u.cls a
  props : u'.props a = u.props a
  isRoot : u'.isRoot a = u.isRoot a
  superview : u'.superview a = u.superview a
  subviews : u'.subviews a = u.subviews a

theorem SameAt.rfl {u : Ui} {a : Nat} : SameAt u u a :=
  ⟨Eq.refl _, Eq.refl _, Eq.refl _, Eq.refl _, Eq.refl _⟩

theorem SameAt.trans {u v w : Ui} {a : Nat} (h : SameAt u v a) (h' : SameAt v w a) : SameAt u w a :=
  ⟨h'.cls.trans h.cls, h'.props.trans h.props, h'.isRoot.trans h.isRoot,
    h'.superview.trans h.superview, h'.subviews.trans h.subviews⟩

mutual

theorem Stands.frame {u u' : Ui} : ∀ (d : Desc) {root : Bool} {p : Option Nat} {a : Nat},
    (∀ x, a ≤ x → x < a + d.size → SameAt u u' x) → Stands u d root p a → Stands u' d root p a
  | .view cls props subviews, root, p, a, hsame, h => by
    obtain ⟨⟨hcls, hprops, hroot⟩, hsuper, hsubs, hall⟩ := h
    rw [Desc.size] at hsame
    have ha := hsame a (Nat.le_refl a) (by omega)
    refine ⟨⟨ha.cls.trans hcls, ha.props.trans hprops, ha.isRoot.trans hroot⟩,
      ha.superview.trans hsuper, ha.subviews.trans hsubs, ?_⟩
    exact StandAll.frame subviews (fun x hx hlt => hsame x (by omega) (by omega)) hall

theorem StandAll.frame {u u' : Ui} : ∀ (ds : List Desc) {p : Option Nat} {a : Nat},
    (∀ x, a ≤ x → x < a + sizeAll ds → SameAt u u' x) → StandAll u ds p a → StandAll u' ds p a
  | [], _, _, _, _ => trivial
  | d :: ds, p, a, hsame, h => by
    rw [sizeAll] at hsame
    exact ⟨Stands.frame d (fun x hx hlt => hsame x hx (by omega)) h.1,
      StandAll.frame ds (fun x hx hlt => hsame x (by omega) (by omega)) h.2⟩

end

theorem Desc.size_pos (d : Desc) : 0 < d.size := by
  cases d with
  | view cls props subviews => exact Nat.succ_pos _

theorem Stands.superview {u : Ui} {d : Desc} {root : Bool} {p : Option Nat} {a : Nat}
    (h : Stands u d root p a) :
    u.superview a = p := by
  cases d with
  | view cls props subviews => exact h.2.1

end Libacorn.Views

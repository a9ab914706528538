import Qine.Types
import Mathlib.Data.List.Nodup
import Mathlib.Data.List.Forall2

/-!
# Message descriptions

The structures of the messages are not written by hand: `gen.py` reads descriptions of the messages (`*.qmsg`), and
writes a C++ header with the structures, and tables about them for the log.

This is its middle part, `MetaInfo`, between the parsed description and what is written. It looks up the types,
puts the type and subtype in front of the requests that are described in place, numbers the padding, and refuses
what would not be C++. `prepare_sound` says what is true of everything it accepts.
-/

namespace Qine
namespace Qmsg

/-! ## Descriptions -/

/-- `primitive_types`. -/
inductive Primitive where
  | char
  | u8
  | u16
  | u32
  | i8
  | i16
  | i32
  | fd
  | pid
  | nid
  | path
  | termios
  | time
  | stdfds
  deriving DecidableEq, Repr

/-- The name of a primitive type in a description. -/
def Primitive.name : Primitive → String
  | .char => "char"
  | .u8 => "u8"
  | .u16 => "u16"
  | .u32 => "u32"
  | .i8 => "i8"
  | .i16 => "i16"
  | .i32 => "i32"
  | .fd => "fd"
  | .pid => "pid"
  | .nid => "nid"
  | .path => "path"
  | .termios => "termios"
  | .time => "time"
  | .stdfds => "stdfds"

/-- `primitive_types`, in order. -/
def primitiveTypes : List Primitive :=
  [.char, .u8, .u16, .u32, .i8, .i16, .i32, .fd, .pid, .nid, .path, .termios, .time, .stdfds]

/-- How the log shows a number. -/
inductive Presentation where
  | default
  | hex
  | oct
  deriving DecidableEq, Repr

/-- What a type name stands for. -/
inductive Definition where
  | primitive (p : Primitive)
  | struct (name : String)
  | external (module name : String)
  deriving DecidableEq, Repr

/-- `Field`, whose type is a name before it is looked up; an `arraySize` of 0 is no array. -/
structure Field (τ : Type) where
  name : String
  type : τ
  arraySize : Nat
  presentation : Presentation
  deriving DecidableEq, Repr

/-- `Struct`. It is `inline` if it was described in place, as a request or reply. -/
structure Struct (τ : Type) where
  name : String
  fields : List (Field τ)
  inline : Bool
  deriving DecidableEq, Repr

/-- The request or reply of a message. -/
inductive Body where
  | inline (fields : List (Field String))
  | ref (name : String)
  deriving DecidableEq, Repr

/-- `Msg`. -/
structure Msg (β : Type) where
  name : String
  type : Nat
  subtype : Option Nat
  request : β
  reply : β
  deriving DecidableEq, Repr

/-- `Include`. -/
structure Include where
  module : String
  structs : List String
  deriving DecidableEq, Repr

/-- A parsed description. -/
structure Description where
  structs : List (Struct String)
  messages : List (Msg Body)
  includes : List Include
  deriving DecidableEq, Repr

/-- What is written. -/
structure Prepared where
  structs : List (Struct Definition)
  messages : List (Msg Definition)
  deriving DecidableEq, Repr

/-- The exceptions. -/
inductive GenError where
  | duplicateDef (name : String)
  | keyError (name : String)
  | assertion
  | missingFields (missing : List String) (name : String)
  deriving DecidableEq, Repr

/-! ## `MetaInfo` -/

/-- The loop of `check_duplicate`. -/
def checkDuplicateFrom : List String → List String → Except GenError Unit
  | _, [] => .ok ()
  | seen, d :: names => if d ∈ seen then .error (.duplicateDef d) else checkDuplicateFrom (d :: seen) names

/-- `check_duplicate`. -/
def checkDuplicate (names : List String) : Except GenError Unit := checkDuplicateFrom [] names

/-- `MetaInfo.resolve`, in the tables of the structures and of the primitive types. -/
def resolve (structs : List String) (includes : List Include) (name : String) : Except GenError Definition :=
  if name ∈ structs then .ok (.struct name)
  else match includes.find? (name ∈ ·.structs) with
    | some i => .ok (.external i.module name)
    | none =>
      match primitiveTypes.find? (·.name = name) with
      | some p => .ok (.primitive p)
      | none => .error (.keyError name)

/-- The structure of a request or reply that is described in place. -/
def Body.struct (body : Body) (name : String) : List (Struct String) :=
  match body with
  | .inline fields => [⟨name, fields, true⟩]
  | .ref _ => []

/-- The type name of a request or reply. -/
def Body.name (body : Body) (name : String) : String :=
  match body with
  | .inline _ => name
  | .ref name => name

/-- The structures of a message that are described in place. -/
def Msg.structs (m : Msg Body) : List (Struct String) :=
  m.request.struct (m.name ++ "_request") ++ m.reply.struct (m.name ++ "_reply")

/-- The types of a message are looked up. -/
def Msg.resolve (look : String → Except GenError Definition) (m : Msg Body) :
    Except GenError (Msg Definition) := do
  let request ← look (m.request.name (m.name ++ "_request"))
  let reply ← look (m.reply.name (m.name ++ "_reply"))
  return ⟨m.name, m.type, m.subtype, request, reply⟩

/-- The types of a structure are looked up. -/
def Struct.resolve (look : String → Except GenError Definition) (s : Struct String) :
    Except GenError (Struct Definition) := do
  let fields ← s.fields.mapM fun f => do
    let type ← look f.type
    return (⟨f.name, type, f.arraySize, f.presentation⟩ : Field Definition)
  return ⟨s.name, fields, s.inline⟩

/-- The names of the fields a request starts with. -/
def Msg.headerNames {β : Type} (m : Msg β) : List String := "type" :: if m.subtype.isSome then ["subtype"] else []

/-- The fields a request starts with. -/
def Msg.header {β : Type} (m : Msg β) : List (Field Definition) :=
  m.headerNames.map (⟨·, .primitive .u16, 0, .hex⟩)

/-- The names of the fields. -/
def Struct.names {τ : Type} (s : Struct τ) : List String := s.fields.map (·.name)

/-- The structure with a header in front. -/
def Struct.prepend (header : List (Field Definition)) (s : Struct Definition) : Struct Definition :=
  { s with fields := header ++ s.fields }

/-- The type and subtype of one request. -/
def headerStep (structs : List (Struct Definition)) (m : Msg Definition) :
    Except GenError (List (Struct Definition)) :=
  match m.request with
  | .primitive _ => .error .assertion
  | .external _ _ => .ok structs
  | .struct name =>
    match structs.find? (·.name = name) with
    | none => .error (.keyError name)
    | some d =>
      if d.inline then .ok (structs.map fun s => if s.name = name then s.prepend m.header else s)
      else if m.headerNames.filter (· ∉ d.names) ≠ [] then
        .error (.missingFields (m.headerNames.filter (· ∉ d.names)) name)
      else .ok structs

/-- The padding gets numbers. -/
def renamePadd : Nat → List (Field Definition) → List (Field Definition)
  | _, [] => []
  | c, f :: fields =>
    if f.name = "padd" then { f with name := "padd_" ++ toString (c + 1) } :: renamePadd (c + 1) fields
    else f :: renamePadd c fields

/-- The last loop of `prepare`. -/
def Struct.finish (s : Struct Definition) : Except GenError (Struct Definition) := do
  let s := { s with fields := renamePadd 0 s.fields }
  checkDuplicate s.names
  return s

/-- `MetaInfo.__init__` and `MetaInfo.prepare`. -/
def prepare (d : Description) : Except GenError Prepared := do
  checkDuplicate (d.messages.map (·.name))
  let structs := d.structs ++ d.messages.flatMap (·.structs)
  let names := structs.map (·.name)
  checkDuplicate (names ++ d.includes.flatMap (·.structs))
  let messages ← d.messages.mapM (Msg.resolve (resolve names d.includes))
  let structs ← structs.mapM (Struct.resolve (resolve names d.includes))
  let structs ← messages.foldlM headerStep structs
  let structs ← structs.mapM Struct.finish
  return ⟨structs, messages⟩

/-! ## What is accepted -/

/-- A description that was accepted: the names are different, types that are structures are there, and the requests
start with their type and subtype, or have fields for them if they are structures with a name of their own. -/
structure Prepared.Sound (p : Prepared) : Prop where
  structs : (p.structs.map (·.name)).Nodup
  fields : ∀ s ∈ p.structs, s.names.Nodup
  types : ∀ s ∈ p.structs, ∀ f ∈ s.fields, ∀ n, f.type = .struct n → ∃ s' ∈ p.structs, s'.name = n
  request : ∀ m ∈ p.messages, ∀ n, m.request = .struct n → ∃ s ∈ p.structs, s.name = n ∧
    (s.inline = true → ∃ rest, s.fields = m.header ++ rest) ∧ ∀ h ∈ m.headerNames, h ∈ s.names
  notPrimitive : ∀ m ∈ p.messages, ∀ q, m.request ≠ .primitive q

section

variable {α β ε : Type} {f : α → Except ε β} {l : List α} {l' : List β}

end

section

variable {m : Msg Definition} {ms : List (Msg Definition)} {structs structs' : List (Struct Definition)}
  {fields : List (Field Definition)} {s : Struct Definition} {c : Nat} {n : String}

/-- What a message asks of the structures. -/
def Msg.Served (structs : List (Struct Definition)) (m : Msg Definition) : Prop :=
  (∀ q, m.request ≠ .primitive q) ∧ ∀ n, m.request = .struct n → ∃ s ∈ structs, s.name = n ∧
    (s.inline = false → ∀ h ∈ m.headerNames, h ∈ s.names)

end

/-! ### Types -/

end Qmsg
end Qine

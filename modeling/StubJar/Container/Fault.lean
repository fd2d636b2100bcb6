import StubJar.Bytes.Leb128
import StubJar.Dalvik.Instruction
import StubJar.Text.ModifiedUtf8

/-!
# What can be wrong with a container

Reading stops at the first thing that does not fit the format; writing stops
at the first thing that the format cannot hold. Each fault is a cause with
its data, and its wording is in one place.
-/

namespace StubJar.Container

open StubJar.Bytes StubJar.Text

/-- The tables that indices point into. -/
inductive TableName where
  | strings
  | types
  | prototypes
  | fields
  | methods
  | handles
deriving DecidableEq, Repr

/-- The name of a table in messages. -/
def TableName.text : TableName → String
  | strings => "string_ids"
  | types => "type_ids"
  | prototypes => "proto_ids"
  | fields => "field_ids"
  | methods => "method_ids"
  | handles => "method_handles"

/-- What can be wrong with the bytes of a string. -/
inductive StringFault where
  /-- No zero byte follows. -/
  | unterminated
  /-- The bytes before the zero byte spell no string. -/
  | undecodable (cause : ModifiedUtf8.Fault)
  /-- The string has another number of UTF-16 units than it should. -/
  | wrongLength (declared found : Nat)
deriving DecidableEq, Repr

/-- The wording of a fault. -/
def StringFault.message : StringFault → String
  | unterminated => "missing null terminator"
  | undecodable cause => cause.message
  | wrongLength declared found => s!"declared {declared} UTF-16 code units but found {found}"

/-- Further ways in which bytes do not fit the format. -/
inductive Malformation where
  /-- There are fewer bytes than a header has. -/
  | noHeader (size : Nat)
  /-- An offset points behind the last byte. -/
  | offsetPastEnd (offset : Nat)
  | unknownVisibility (code : Nat)
  | unknownHandleKind (code : Nat)
  /-- The indices of the members of a class add up to more than 32 bits. -/
  | memberIndexOverflow
deriving DecidableEq, Repr

/-- The wording of a malformation. -/
def Malformation.message : Malformation → String
  | noHeader size => s!"{size} bytes is too short to hold a header"
  | offsetPastEnd offset => s!"offset {hexLiteral 1 offset} is past the end of the file"
  | unknownVisibility code => s!"unknown annotation visibility {hexLiteral 1 code}"
  | unknownHandleKind code => s!"unknown method handle type {hexLiteral 1 code}"
  | memberIndexOverflow => "member index overflows in class data"

/-- Why bytes are no container. -/
inductive DecodeFault where
  /-- The bytes end too early, or a number of variable length is none. -/
  | unreadable (cause : Leb128.Fault)
  | badMagic (magic : List UInt8)
  | unsupportedVersion (digits : String)
  | badEndianTag (tag : Nat)
  /-- The header gives a size that the bytes cannot have. -/
  | sizeMismatch (declared available : Nat)
  | checksumMismatch (declared computed : Nat)
  | indexOutOfRange (table : TableName) (index : Nat)
  | malformedString (offset : Nat) (reason : StringFault)
  /-- The first byte of a value names no kind of value, or no size it can
  have. -/
  | malformedValue (type arg : Nat)
  /-- The flags of an item have bits without a meaning. -/
  | unknownFlags (item : String) (bits : UInt32)
  | malformed (reason : Malformation)
deriving DecidableEq, Repr

/-- The bytes of a magic, in brackets. -/
def renderMagic (magic : List UInt8) : String :=
  "[" ++ String.intercalate ", " (magic.map fun b => hex 2 b.toNat) ++ "]"

/-- The wording of a fault. -/
def DecodeFault.message : DecodeFault → String
  | unreadable cause => s!"truncated or unreadable data: {cause.message}"
  | badMagic magic => s!"not a DEX file (magic {renderMagic magic})"
  | unsupportedVersion digits => s!"unsupported DEX version '{digits}'"
  | badEndianTag tag => s!"unsupported endian tag {hexLiteral 8 tag}"
  | sizeMismatch declared available =>
    s!"header declares {declared} bytes but only {available} are available"
  | checksumMismatch declared computed =>
    s!"checksum mismatch (header {hexLiteral 8 declared}, computed {hexLiteral 8 computed})"
  | indexOutOfRange table index => s!"index {index} out of range for {table.text} table"
  | malformedString offset reason =>
    s!"malformed string data at {hexLiteral 1 offset}: {reason.message}"
  | malformedValue type arg => s!"malformed encoded value (type {hexLiteral 2 type}, arg {arg})"
  | unknownFlags item bits => s!"unknown access flags {hexLiteral 1 bits.toNat} on {item}"
  | malformed reason => reason.message

/-- Why a file has no container. -/
inductive EncodeFault where
  /-- A type of the prototype has no letter. -/
  | malformedDescriptor (prototype : String)
  /-- The indices into a table have no room for its items. -/
  | tooManyItems (table : TableName) (count : Nat)
  /-- The code of a method is not made of instructions without indices. -/
  | unsupportedBody (method : String) (reason : Dalvik.InstructionFault)
  /-- The code of a method has try blocks, of which only the number is
  known. -/
  | tryBlocks (method : String)
  /-- A class of the file builds on itself. -/
  | cyclicHierarchy (type : String)
deriving DecidableEq, Repr

/-- The wording of a fault. -/
def EncodeFault.message : EncodeFault → String
  | malformedDescriptor prototype => s!"malformed type descriptor '{prototype}'"
  | tooManyItems table count => s!"{count} entries do not fit in the {table.text} table"
  | unsupportedBody method reason => s!"cannot encode body of {method}: {reason.message}"
  | tryBlocks method => s!"cannot encode body of {method}: it has try blocks"
  | cyclicHierarchy type => s!"class hierarchy of {type} is cyclic"

end StubJar.Container

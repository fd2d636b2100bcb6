import StubJar.Bytes.Endian
import StubJar.Bytes.Leb128
import StubJar.ClassFile.Attribute
import StubJar.ClassFile.Basic
import StubJar.ClassFile.ConstantPool
import StubJar.ClassFile.Fault
import StubJar.ClassFile.Flags
import StubJar.ClassFile.Instruction
import StubJar.Container.AnnotationLayout
import StubJar.Container.ClassLayout
import StubJar.Container.ClassTable
import StubJar.Container.Decoder
import StubJar.Container.Encoder
import StubJar.Container.Fault
import StubJar.Container.Format
import StubJar.Container.Hierarchy
import StubJar.Container.Layout
import StubJar.Container.Members
import StubJar.Container.Mention
import StubJar.Container.Pool
import StubJar.Container.Tables
import StubJar.Container.ValueForm
import StubJar.Dalvik.Agreement
import StubJar.Dalvik.Descriptor
import StubJar.Dalvik.File
import StubJar.Dalvik.Flags
import StubJar.Dalvik.Instruction
import StubJar.Dalvik.Reference
import StubJar.Dalvik.Value
import StubJar.Digest.Adler32
import StubJar.Digest.Crc32
import StubJar.Digest.Sha1
import StubJar.Jar.Archive
import StubJar.Jar.Zip
import StubJar.Main
import StubJar.Order.Key
import StubJar.Order.Table
import StubJar.Output
import StubJar.Path
import StubJar.Proofs.Bytes.Leb128
import StubJar.Proofs.Bytes.Numbers
import StubJar.Proofs.ClassFile.CodeArrays
import StubJar.Proofs.ClassFile.Contents
import StubJar.Proofs.ClassFile.Grammar
import StubJar.Proofs.ClassFile.OperandStack
import StubJar.Proofs.ClassFile.Pool
import StubJar.Proofs.ClassFile.Requests
import StubJar.Proofs.Container.Acceptance
import StubJar.Proofs.Container.Attachments
import StubJar.Proofs.Container.ClassOrder
import StubJar.Proofs.Container.ClassRows
import StubJar.Proofs.Container.Cycles
import StubJar.Proofs.Container.Damage
import StubJar.Proofs.Container.Decoded
import StubJar.Proofs.Container.Geometry
import StubJar.Proofs.Container.Lookups
import StubJar.Proofs.Container.MemberLists
import StubJar.Proofs.Container.MemberOrder
import StubJar.Proofs.Container.Ordered
import StubJar.Proofs.Container.Placement
import StubJar.Proofs.Container.Positions
import StubJar.Proofs.Container.Reachable
import StubJar.Proofs.Container.ReadValues
import StubJar.Proofs.Container.Reads
import StubJar.Proofs.Container.Rearranging
import StubJar.Proofs.Container.Rereading
import StubJar.Proofs.Container.Rewriting
import StubJar.Proofs.Container.RoundTrip
import StubJar.Proofs.Container.Sections
import StubJar.Proofs.Container.Settled
import StubJar.Proofs.Container.SharedCode
import StubJar.Proofs.Container.ShortestForms
import StubJar.Proofs.Container.TableRows
import StubJar.Proofs.Container.Values
import StubJar.Proofs.Container.WholeIndices
import StubJar.Proofs.Container.Yields
import StubJar.Proofs.Dalvik.Coding
import StubJar.Proofs.Dalvik.Execution
import StubJar.Proofs.Dalvik.LastWrites
import StubJar.Proofs.Dalvik.NormalForm
import StubJar.Proofs.Dalvik.Rearranged
import StubJar.Proofs.Jar.Additions
import StubJar.Proofs.Order.Sorting
import StubJar.Proofs.Order.Tables
import StubJar.Proofs.Paths
import StubJar.Proofs.Stub.Bodies
import StubJar.Proofs.Stub.Files
import StubJar.Proofs.Stub.Refusals
import StubJar.Proofs.Stub.Renumbering
import StubJar.Proofs.Stub.Zeros
import StubJar.Proofs.Success
import StubJar.Proofs.Text.ByteOrder
import StubJar.Proofs.Text.Grammar
import StubJar.Proofs.Text.ModifiedUtf8
import StubJar.Proofs.Translation.Archives
import StubJar.Proofs.Translation.Attributes
import StubJar.Proofs.Translation.Contents
import StubJar.Proofs.Translation.Duplicates
import StubJar.Proofs.Translation.Expressible
import StubJar.Proofs.Translation.Failures
import StubJar.Proofs.Translation.Faithful
import StubJar.Proofs.Translation.Independence
import StubJar.Proofs.Translation.Oblivious
import StubJar.Proofs.Translation.Parts
import StubJar.Proofs.Translation.Pushing
import StubJar.Proofs.Translation.Registers
import StubJar.Proofs.Translation.Reruns
import StubJar.Proofs.Translation.Simulation
import StubJar.Proofs.Translation.StubCode
import StubJar.Proofs.Workspaces
import StubJar.Session
import StubJar.Settings
import StubJar.Stub.Plan
import StubJar.Stub.Shape
import StubJar.Stub.Substitution
import StubJar.Text.ModifiedUtf8
import StubJar.Text.Numeral
import StubJar.Text.Utf16
import StubJar.Text.Utf8
import StubJar.Translation.Annotation
import StubJar.Translation.Archive
import StubJar.Translation.Body
import StubJar.Translation.Class
import StubJar.Translation.Fault
import StubJar.Workspace

import StubJar.ClassFile.Basic
import StubJar.Proofs.Bytes.Numbers
import StubJar.Proofs.ClassFile.Pool
import StubJar.Proofs.Success
import StubJar.Proofs.Text.ModifiedUtf8

/-!
# The grammar of class files

A class file is read front to back: the constants, then the parts of the class,
where a slot of the pool stands for the name that it holds. The attributes are
names and bytes; those of the name `Code` are taken apart, the others are read
over (`Grammar.read`).

What a class file is written from is what such a reader makes of it
(`Grammar.read_encode`), as long as every count fits its width.
-/

namespace StubJar.ClassFile.Grammar

open StubJar.Bytes StubJar.ClassFile.ConstantPool

/-! ## Reading -/

/-- Reads something off the front of a byte list, if it is there. -/
abbrev Reader := StateT (List UInt8) Option

namespace Reader

/-- The next `n` bytes. -/
def bytes (n : Nat) : Reader (List UInt8) := fun input =>
  if n ≤ input.length then some (input.take n, input.drop n) else none

/-- A number of `n` bytes, highest first. -/
def number (n : Nat) : Reader Nat := do return ofLe (← bytes n).reverse

/-- What is known without reading, if it is. -/
def known {α : Type} (a? : Option α) : Reader α := fun input => a?.map (·, input)

/-- Reads `n` things one after another. -/
def times {α : Type} (d : Reader α) : Nat → Reader (List α)
  | 0 => return []
  | n + 1 => do return (← d) :: (← times d n)

/-- Reads things behind their number in `width` bytes. -/
def counted {α : Type} (width : Nat) (d : Reader α) : Reader (List α) := do
  times d (← number width)

end Reader

/-! ## Constants -/

/-- Reads a constant: the letter of its kind, then its contents. -/
def readConstant : Reader Constant := do
  match ← Reader.number 1 with
  | 1 => do
    match Text.ModifiedUtf8.decode (← Reader.bytes (← Reader.number 2)) with
    | .ok s => return .utf8 s
    | .error _ => failure
  | 3 => return .integer (UInt32.ofNat (← Reader.number 4)).toInt32
  | 4 => return .float (UInt32.ofNat (← Reader.number 4))
  | 5 => return .long (UInt64.ofNat (← Reader.number 8)).toInt64
  | 6 => return .double (UInt64.ofNat (← Reader.number 8))
  | 7 => return .classRef (← Reader.number 2)
  | 8 => return .stringRef (← Reader.number 2)
  | _ => failure

/-- Reads constants that take `n` slots together. -/
def readConstants : Nat → Reader (List Constant)
  | 0 => return []
  | 1 => do
    let c ← readConstant
    if c.width = 1 then return [c] else failure
  | n + 2 => do
    let c ← readConstant
    if c.width = 1 then return c :: (← readConstants (n + 1)) else return c :: (← readConstants n)

/-- The text at a slot. -/
def text? (cs : List Constant) (n : Nat) : Option String :=
  match constantAt 1 cs n with
  | some (.utf8 s) => some s
  | _ => none

/-- The name of the class at a slot. -/
def className? (cs : List Constant) (n : Nat) : Option String :=
  match constantAt 1 cs n with
  | some (.classRef text) => text? cs text
  | _ => none

/-! ## Parts of a class -/

/-- An attribute. -/
structure Attribute where
  name : String
  info : List UInt8
deriving DecidableEq, Repr

/-- The code of a method. An exception handler is eight bytes. -/
structure Code where
  maxStack : Nat
  maxLocals : Nat
  bytes : List UInt8
  handlers : List (List UInt8)
  attributes : List Attribute
deriving DecidableEq, Repr

/-- A field or a method, its other attributes apart. -/
structure Member where
  flags : Nat
  name : String
  descriptor : String
  codes : List Code
deriving DecidableEq, Repr

/-- A class, its attributes apart. -/
structure Class where
  version : Nat
  flags : Nat
  name : String
  superclass : Option String
  interfaces : List String
  fields : List Member
  methods : List Member
deriving DecidableEq, Repr

/-- Reads a slot and what stands there. -/
def readSlot {α : Type} (find? : Nat → Option α) : Reader α := do
  Reader.known (find? (← Reader.number 2))

/-- Reads an attribute. -/
def readAttribute (cs : List Constant) : Reader Attribute := do
  let name ← readSlot (text? cs)
  let info ← Reader.bytes (← Reader.number 4)
  return ⟨name, info⟩

/-- Reads the contents of a code attribute. -/
def readCode (cs : List Constant) : Reader Code := do
  let maxStack ← Reader.number 2
  let maxLocals ← Reader.number 2
  let bytes ← Reader.bytes (← Reader.number 4)
  let handlers ← Reader.counted 2 (Reader.bytes 8)
  let attributes ← Reader.counted 2 (readAttribute cs)
  return ⟨maxStack, maxLocals, bytes, handlers, attributes⟩

/-- What all of the bytes are read as. -/
def whole? {α : Type} (d : Reader α) (bytes : List UInt8) : Option α :=
  match d bytes with
  | some (a, []) => some a
  | _ => none

/-- The contents of the code attributes among some. -/
def codes? (cs : List Constant) (attributes : List Attribute) : Option (List Code) :=
  (attributes.filter (·.name == "Code")).mapM fun a => whole? (readCode cs) a.info

/-- Reads a field or a method. -/
def readMember (cs : List Constant) : Reader Member := do
  let flags ← Reader.number 2
  let name ← readSlot (text? cs)
  let descriptor ← readSlot (text? cs)
  let attributes ← Reader.counted 2 (readAttribute cs)
  return ⟨flags, name, descriptor, ← Reader.known (codes? cs attributes)⟩

/-- Reads the slot of a superclass, which may be missing. -/
def readSuperclass (cs : List Constant) : Reader (Option String) := do
  let n ← Reader.number 2
  if n = 0 then return none else return some (← Reader.known (className? cs n))

/-- Reads a class file. -/
def readClass : Reader Class := do
  let lead ← Reader.bytes 4
  guard (lead = magic)
  let _ ← Reader.number 2
  let version ← Reader.number 2
  let cs ← readConstants ((← Reader.number 2) - 1)
  let flags ← Reader.number 2
  let name ← readSlot (className? cs)
  let superclass ← readSuperclass cs
  let interfaces ← Reader.counted 2 (readSlot (className? cs))
  let fields ← Reader.counted 2 (readMember cs)
  let methods ← Reader.counted 2 (readMember cs)
  let _ ← Reader.counted 2 (readAttribute cs)
  return ⟨version, flags, name, superclass, interfaces, fields, methods⟩

/-- The class that a class file is of. -/
def read (bytes : List UInt8) : Option Class := whole? readClass bytes

/-! ## Reading what was written -/

/-- The reader reads the value off the front of all input that begins with the
bytes. -/
def Spells {α : Type} (d : Reader α) (bytes : List UInt8) (a : α) : Prop :=
  ∀ rest, d (bytes ++ rest) = some (a, rest)

namespace Spells

variable {α β : Type}

/-- A result is spelled by no bytes. -/
theorem pure (a : α) : Spells (Pure.pure a) [] a := fun _ => rfl

/-- Two steps are spelled by the bytes of the first and then those of the second. -/
theorem bind {d : Reader α} {f : α → Reader β} {front back : List UInt8} {a : α} {b : β}
    (first : Spells d front a) (second : Spells (f a) back b) :
    Spells (d >>= f) (front ++ back) b := by
  intro rest
  change (d (front ++ back ++ rest) >>= fun found => f found.1 found.2) = _
  rw [List.append_assoc, first]
  exact second rest

/-- What is made of a result is spelled by its bytes. -/
theorem map {d : Reader α} {bytes : List UInt8} {a : α} (f : α → β) (h : Spells d bytes a) :
    Spells (do return f (← d)) bytes (f a) := by
  have read := h.bind (f := fun a => Pure.pure (f a)) (Spells.pure (f a))
  rwa [List.append_nil] at read

/-- What is known is spelled by no bytes. -/
theorem known (a : α) : Spells (Reader.known (some a)) [] a := fun _ => rfl

/-- Bytes are spelled by themselves. -/
theorem bytes (bytes : List UInt8) : Spells (Reader.bytes bytes.length) bytes bytes := by
  intro rest
  rw [Reader.bytes, if_pos (by rw [List.length_append]; omega), List.take_left, List.drop_left]

/-- A number that fits is spelled by its bytes. -/
theorem number {k n : Nat} (fits : n < 256 ^ k) : Spells (Reader.number k) (be k n) n := by
  have read := (bytes (be k n)).map fun found => ofLe found.reverse
  rwa [length_be, be, List.reverse_reverse, ofLe_le fits, ← be] at read

/-- Items are spelled by their pieces in a row. -/
theorem times {d : Reader α} {pieces : List (List UInt8)} {as : List α}
    (each : List.Forall₂ (Spells d) pieces as) :
    Spells (Reader.times d as.length) pieces.flatten as := by
  induction each with
  | nil => exact pure []
  | cons head _ ih =>
    rw [List.length_cons, Reader.times, List.flatten_cons]
    exact head.bind (ih.map _)

/-- With their number in front, they are spelled by counted pieces. -/
theorem counted {width : Nat} {d : Reader α} {pieces : List (List UInt8)} {as : List α}
    (each : List.Forall₂ (Spells d) pieces as) (few : as.length < 256 ^ width) :
    Spells (Reader.counted width d) (countedItems width pieces) as := by
  rw [countedItems, each.length_eq]
  exact (number few).bind (times each)

/-- Bytes behind their number. -/
theorem sized {k : Nat} {data : List UInt8} (short : data.length < 256 ^ k) :
    Spells (do Reader.bytes (← Reader.number k)) (be k data.length ++ data) data :=
  (number short).bind (bytes data)

/-- What a slot leads to is spelled by its number. -/
theorem slot {find? : Nat → Option α} {n : Nat} {a : α} (small : n < 2 ^ 16)
    (found : find? n = some a) : Spells (readSlot find?) (be 2 n) a := by
  have read := (number (k := 2) small).bind (f := fun n => Reader.known (find? n))
    (found ▸ known a)
  rwa [List.append_nil] at read

/-- What all bytes are read as. -/
theorem whole {d : Reader α} {bytes : List UInt8} {a : α} (h : Spells d bytes a) :
    whole? d bytes = some a := by
  have all := h []
  rw [List.append_nil] at all
  rw [whole?, all]

end Spells

/-! ### Constants -/

/-- The text of a constant has a number of bytes that two bytes can count. -/
def Short (c : Constant) : Prop :=
  ∀ s, c = .utf8 s → (Text.ModifiedUtf8.encode s).length < 2 ^ 16

/-- A constant of a pool is spelled by its form. -/
theorem spells_constant {p : ConstantPool} {c : Constant} (wf : WellFormed p)
    (resolves : p.Resolves c) (short : Short c) : Spells readConstant c.encode c := by
  have tagged (n : Nat) (fits : n < 256) {form : List UInt8} {next : Nat → Reader Constant}
      (rest : Spells (next n) form c) :
      Spells (Reader.number 1 >>= next) (UInt8.ofNat n :: form) c :=
    (Spells.number (k := 1) fits).bind rest
  cases c with
  | utf8 s =>
    refine tagged 1 (by decide) ?_
    have text := Spells.sized (k := 2) (short s rfl)
    change Spells (Reader.number 2 >>= fun n => Reader.bytes n >>= fun found =>
      match Text.ModifiedUtf8.decode found with
      | .ok s => pure (Constant.utf8 s)
      | .error _ => failure) _ _
    rw [← bind_assoc, ← List.append_nil (be 2 _ ++ _)]
    refine text.bind ?_
    rw [Text.ModifiedUtf8.decode_encode]
    exact Spells.pure _
  | integer v =>
    have read := (Spells.number (k := 4) v.toUInt32.toNat_lt).map
      fun n => Constant.integer (UInt32.ofNat n).toInt32
    rw [UInt32.ofNat_toNat, Int32.toInt32_toUInt32] at read
    exact tagged 3 (by decide) read
  | float bits =>
    have read := (Spells.number (k := 4) bits.toNat_lt).map
      fun n => Constant.float (UInt32.ofNat n)
    rw [UInt32.ofNat_toNat] at read
    exact tagged 4 (by decide) read
  | long v =>
    have read := (Spells.number (k := 8) v.toUInt64.toNat_lt).map
      fun n => Constant.long (UInt64.ofNat n).toInt64
    rw [UInt64.ofNat_toNat, Int64.toInt64_toUInt64] at read
    exact tagged 5 (by decide) read
  | double bits =>
    have read := (Spells.number (k := 8) bits.toNat_lt).map
      fun n => Constant.double (UInt64.ofNat n)
    rw [UInt64.ofNat_toNat] at read
    exact tagged 6 (by decide) read
  | classRef n =>
    obtain ⟨s, found⟩ := resolves
    exact tagged 7 (by decide) ((Spells.number (k := 2) (found.lt wf)).map Constant.classRef)
  | stringRef n =>
    obtain ⟨s, found⟩ := resolves
    exact tagged 8 (by decide) ((Spells.number (k := 2) (found.lt wf)).map Constant.stringRef)

/-- A constant of one slot, then those of the others. -/
theorem readConstants_one (n : Nat) : readConstants (n + 1) = do
    let c ← readConstant
    if c.width = 1 then return c :: (← readConstants n)
    else match n with
      | 0 => failure
      | n + 1 => return c :: (← readConstants n) := by
  cases n with
  | zero => rfl
  | succ n => rfl

theorem spells_constants {cs : List Constant}
    (each : ∀ c ∈ cs, Spells readConstant c.encode c) :
    Spells (readConstants (slotsOf cs)) (cs.flatMap Constant.encode) cs := by
  induction cs with
  | nil => exact Spells.pure []
  | cons c cs ih =>
    have rest := (ih fun d hd => each d (List.mem_cons_of_mem _ hd)).map (c :: ·)
    have slots : slotsOf (c :: cs) = c.width + slotsOf cs := rfl
    have widths : c.width = 1 ∨ c.width = 2 := by cases c <;> simp [Constant.width]
    rw [slots, List.flatMap_cons]
    rcases widths with one | two
    · rw [one, Nat.add_comm, readConstants_one]
      refine (each c List.mem_cons_self).bind ?_
      rw [if_pos one]
      exact rest
    · rw [two, Nat.add_comm, readConstants_one]
      refine (each c List.mem_cons_self).bind ?_
      rw [if_neg (by omega)]
      exact rest

/-- A text is found in its slot. -/
theorem text?_eq {p : ConstantPool} {n : Nat} {s : String} (h : p.Holds n (.utf8 s)) :
    text? p.constants.toList n = some s := by
  rw [text?, show constantAt 1 p.constants.toList n = some (.utf8 s) from h]

/-- So is the name of a class. -/
theorem className?_eq {p : ConstantPool} {n : Nat} {s : String} (h : p.HoldsClass n s) :
    className? p.constants.toList n = some s := by
  obtain ⟨text, stands, holds⟩ := h
  rw [className?, show constantAt 1 p.constants.toList n = some (.classRef text) from stands]
  exact text?_eq holds

/-! ### Members -/

/-- The attribute has the name and the bytes. -/
def AttributeMeans (p : ConstantPool) (a : ClassFile.Attribute) (r : Attribute) : Prop :=
  p.Holds a.name (.utf8 r.name) ∧ a.info = r.info

/-- The attribute is a code attribute with the contents, wherever it stands. -/
def CodeMeans (p : ConstantPool) (a : ClassFile.Attribute) (c : Code) : Prop :=
  a.Named p "Code" ∧ ∀ cs, whole? (readCode cs) a.info = some c

/-- The form of a member says what it is. -/
structure MemberMeans (p : ConstantPool) (x : ClassFile.Member) (m : Member) : Prop where
  flags : x.flags.toNat = m.flags ∧ m.flags < 2 ^ 16
  name : p.Holds x.name (.utf8 m.name)
  descriptor : p.Holds x.descriptor (.utf8 m.descriptor)
  attributes : ∃ codes others, x.attributes = codes ++ others
    ∧ List.Forall₂ (CodeMeans p) codes m.codes ∧ ∀ a ∈ others, a.Plain p
  few : x.attributes.length < 2 ^ 16

/-- The form of a class says what it is. -/
structure ClassMeans (p : ConstantPool) (x : Parts) (c : Class) : Prop where
  flags : x.flags.toNat = c.flags ∧ c.flags < 2 ^ 16
  name : p.HoldsClass x.thisClass c.name
  superclass : Option.Rel p.HoldsClass x.superClass c.superclass
  interfaces : List.Forall₂ p.HoldsClass x.interfaces c.interfaces
  fields : List.Forall₂ (MemberMeans p) x.fields c.fields
  methods : List.Forall₂ (MemberMeans p) x.methods c.methods
  attributes : ∀ a ∈ x.attributes, a.Plain p
  few : x.attributes.length < 2 ^ 16

section Members

variable {p : ConstantPool}

/-- An attribute is spelled by its form. -/
theorem spells_attribute (wf : WellFormed p) {a : ClassFile.Attribute} {r : Attribute}
    (means : AttributeMeans p a r) (short : a.info.length < 2 ^ 32) :
    Spells (readAttribute p.constants.toList) a.encode r := by
  obtain ⟨name, info⟩ := means
  rw [ClassFile.Attribute.encode, List.append_assoc]
  refine (Spells.slot (name.lt wf) (text?_eq name)).bind ?_
  have read := (Spells.sized (k := 4) short).map fun data => (⟨r.name, data⟩ : Attribute)
  rw [info] at read ⊢
  rwa [bind_assoc] at read

/-- The attributes are read as some of the same names. -/
theorem exists_means {as : List ClassFile.Attribute} (named : ∀ a ∈ as, ∃ name, a.Named p name) :
    ∃ rs, List.Forall₂ (AttributeMeans p) as rs := by
  refine exists_forall₂ fun a mem => ?_
  obtain ⟨name, holds⟩ := named a mem
  exact ⟨⟨name, a.info⟩, holds, rfl⟩

/-- No piece is longer than all pieces. -/
theorem length_le_countedItems {width : Nat} {piece : List UInt8} {pieces : List (List UInt8)}
    (mem : piece ∈ pieces) : piece.length ≤ (countedItems width pieces).length := by
  have inside := (List.sublist_flatten_of_mem mem).length_le
  rw [countedItems, List.length_append]
  omega

/-- The contents of an attribute are no longer than the attribute. -/
theorem length_info_le (a : ClassFile.Attribute) : a.info.length ≤ a.encode.length := by
  rw [ClassFile.Attribute.encode, List.length_append]
  omega

/-- Attributes are read as what they mean, one by one. -/
theorem spells_attributes (wf : WellFormed p) {as : List ClassFile.Attribute} {rs : List Attribute}
    (means : List.Forall₂ (AttributeMeans p) as rs) (few : as.length < 2 ^ 16)
    (short : (encodeAttributes as).length < 2 ^ 32) :
    Spells (Reader.counted 2 (readAttribute p.constants.toList)) (encodeAttributes as) rs := by
  have each : ∀ a ∈ as, a.info.length < 2 ^ 32 := fun a mem =>
    Nat.lt_of_le_of_lt (Nat.le_trans (length_info_le a)
      (length_le_countedItems (List.mem_map_of_mem mem))) short
  refine Spells.counted (List.forall₂_map_left_iff.mpr ?_) (means.length_eq ▸ few)
  exact ((List.forall₂_and_left _ _).mpr ⟨each, means⟩).imp fun a r found =>
    spells_attribute wf found.2 found.1

/-- An attribute has one name. -/
theorem name_unique {a : ClassFile.Attribute} {r : Attribute} {name : String}
    (means : AttributeMeans p a r) (named : a.Named p name) : r.name = name := by
  have same := means.1.symm.trans named
  injection same with same
  injection same

/-- The codes are those of the attributes in front. -/
theorem codes?_eq {codes others : List ClassFile.Attribute} {cs : List Code} {rs : List Attribute}
    (first : List.Forall₂ (CodeMeans p) codes cs) (plain : ∀ a ∈ others, a.Plain p)
    (means : List.Forall₂ (AttributeMeans p) (codes ++ others) rs) (constants : List Constant) :
    codes? constants rs = some cs := by
  rw [codes?]
  induction first generalizing rs with
  | nil =>
    have none : rs.filter (·.name == "Code") = [] := by
      rw [List.nil_append] at means
      induction means with
      | nil => rfl
      | cons head _ ih =>
        obtain ⟨name, named, other⟩ := plain _ List.mem_cons_self
        rw [List.filter_cons_of_neg (by rwa [name_unique head named, beq_iff_eq])]
        exact ih fun a mem => plain a (List.mem_cons_of_mem _ mem)
    rw [none]
    rfl
  | cons code _ ih =>
    cases means with
    | cons head rest =>
      obtain ⟨named, contents⟩ := code
      rw [List.filter_cons_of_pos (by rw [name_unique head named, beq_self_eq_true]), List.mapM_cons,
        ih rest, ← head.2, contents]
      rfl

/-- Attributes that mean code are called so. -/
theorem named_code {codes : List ClassFile.Attribute} {cs : List Code}
    (first : List.Forall₂ (CodeMeans p) codes cs) {a : ClassFile.Attribute} (mem : a ∈ codes) :
    a.Named p "Code" := by
  induction first with
  | nil => cases mem
  | cons code _ ih =>
    rcases List.mem_cons.mp mem with rfl | later
    · exact code.1
    · exact ih later

/-- A member is spelled by its form. -/
theorem spells_member (wf : WellFormed p) {x : ClassFile.Member} {m : Member}
    (means : MemberMeans p x m) (short : x.encode.length < 2 ^ 32) :
    Spells (readMember p.constants.toList) x.encode m := by
  obtain ⟨codes, others, parts, first, plain⟩ := means.attributes
  obtain ⟨rs, told⟩ : ∃ rs, List.Forall₂ (AttributeMeans p) x.attributes rs := by
    refine exists_means fun a mem => ?_
    rw [parts] at mem
    rcases List.mem_append.mp mem with code | other
    · exact ⟨"Code", named_code first code⟩
    · exact (plain a other).imp fun _ found => found.1
  have found := codes?_eq first plain (parts ▸ told) p.constants.toList
  rw [ClassFile.Member.encode, List.length_append] at short
  rw [ClassFile.Member.encode, means.flags.1]
  simp only [List.append_assoc]
  refine (Spells.number (k := 2) means.flags.2).bind
    ((Spells.slot (means.name.lt wf) (text?_eq means.name)).bind
    ((Spells.slot (means.descriptor.lt wf) (text?_eq means.descriptor)).bind ?_))
  rw [← List.append_nil (encodeAttributes _)]
  refine (spells_attributes wf told means.few (by omega)).bind ?_
  rw [found]
  exact Spells.pure _

/-- Code without attributes. -/
theorem spells_code {c : ClassFile.Code} (stack : c.maxStack < 2 ^ 16) (locals : c.maxLocals < 2 ^ 16)
    (short : c.code.length < 2 ^ 32) (bare : c.attributes = []) (cs : List Constant) :
    Spells (readCode cs) c.encode ⟨c.maxStack, c.maxLocals, c.code, [], []⟩ := by
  have no_handlers : Spells (Reader.counted 2 (Reader.bytes 8)) (countedItems 2 []) [] :=
    Spells.counted .nil (by decide)
  have no_attributes : Spells (Reader.counted 2 (readAttribute cs)) (countedItems 2 []) [] :=
    Spells.counted .nil (by decide)
  have none : be 2 0 = countedItems 2 [] := rfl
  have last := no_attributes.map fun found => (⟨c.maxStack, c.maxLocals, c.code, [], found⟩ : Code)
  have data := (Spells.sized (k := 4) short).bind (f := fun code => Reader.counted 2 (Reader.bytes 8)
    >>= fun handlers => Reader.counted 2 (readAttribute cs) >>= fun attributes =>
      pure (⟨c.maxStack, c.maxLocals, code, handlers, attributes⟩ : Code)) (no_handlers.bind last)
  rw [bind_assoc, List.append_assoc] at data
  rw [ClassFile.Code.encode, bare, List.map_nil, none]
  simp only [List.append_assoc]
  exact (Spells.number (k := 2) stack).bind ((Spells.number (k := 2) locals).bind data)

/-- The members of a class are spelled behind their number. -/
theorem spells_members (wf : WellFormed p) {xs : List ClassFile.Member} {ms : List Member}
    (means : List.Forall₂ (MemberMeans p) xs ms) (few : ms.length < 2 ^ 16)
    (short : (countedItems 2 (xs.map ClassFile.Member.encode)).length < 2 ^ 32) :
    Spells (Reader.counted 2 (readMember p.constants.toList))
      (countedItems 2 (xs.map ClassFile.Member.encode)) ms := by
  have each : ∀ x ∈ xs, x.encode.length < 2 ^ 32 := fun x mem =>
    Nat.lt_of_le_of_lt (length_le_countedItems (List.mem_map_of_mem mem)) short
  refine Spells.counted (List.forall₂_map_left_iff.mpr ?_) few
  exact ((List.forall₂_and_left _ _).mpr ⟨each, means⟩).imp fun x m found =>
    spells_member wf found.2 found.1

/-- The superclass is spelled by its slot, or by zero. -/
theorem spells_superclass (wf : WellFormed p) {n? : Option Nat} {name? : Option String}
    (means : Option.Rel p.HoldsClass n? name?) :
    Spells (readSuperclass p.constants.toList) (be 2 (n?.getD 0)) name? := by
  rw [← List.append_nil (be 2 _)]
  cases means with
  | none => exact (Spells.number (k := 2) (by decide)).bind (Spells.pure none)
  | some found =>
    rename_i n name
    obtain ⟨text, stands, holds⟩ := found
    have positive := (constantAt_lt stands).1
    refine (Spells.number (k := 2) (stands.lt wf)).bind ?_
    rw [if_neg (Nat.ne_of_gt positive), className?_eq ⟨text, stands, holds⟩]
    exact Spells.pure _

/-- What a class file is written from is what it is read as. -/
theorem read_encode {version : Version} {x : Parts} {c : Class} (wf : WellFormed p)
    (texts : ∀ k ∈ p.constants.toList, Short k) (means : ClassMeans p x c)
    (versioned : c.version = version.major.toNat)
    (few : c.interfaces.length < 2 ^ 16 ∧ c.fields.length < 2 ^ 16 ∧ c.methods.length < 2 ^ 16)
    (short : (encode version p x).length < 2 ^ 32) : read (encode version p x) = some c := by
  have constants := spells_constants fun k mem => spells_constant wf (wf.resolved k mem) (texts k mem)
  have next : p.next - 1 = slotsOf p.constants.toList := by rw [wf.next]; omega
  obtain ⟨rs, told⟩ := exists_means fun a mem => (means.attributes a mem).imp fun _ found => found.1
  have interfaces : List.Forall₂ (Spells (readSlot (className? p.constants.toList)))
      (x.interfaces.map (be 2)) c.interfaces := by
    refine List.forall₂_map_left_iff.mpr (means.interfaces.imp fun n name found => ?_)
    obtain ⟨text, stands, holds⟩ := found
    exact Spells.slot (stands.lt wf) (className?_eq ⟨text, stands, holds⟩)
  obtain ⟨text, stands, holds⟩ := means.name
  have major : c.version < 256 ^ 2 := versioned ▸ version.major.toNat_lt
  have room : p.next < 256 ^ 2 := Nat.lt_of_le_of_lt wf.room (by decide)
  have recognised : Spells (guard (magic = magic)) [] () := by
    rw [guard, if_pos rfl]
    exact Spells.pure ()
  simp only [encode, List.length_append] at short
  refine Spells.whole ?_
  simp only [encode, Version.encode, ConstantPool.encode, List.append_assoc]
  refine (Spells.bytes magic).bind ?_
  rw [← List.nil_append (be 2 0 ++ _)]
  refine recognised.bind ((Spells.number (k := 2) (by decide)).bind ?_)
  rw [← versioned, means.flags.1]
  refine (Spells.number (k := 2) major).bind ((Spells.number (k := 2) room).bind ?_)
  rw [next]
  refine constants.bind ((Spells.number (k := 2) means.flags.2).bind
    ((Spells.slot (stands.lt wf) (className?_eq ⟨text, stands, holds⟩)).bind
    ((spells_superclass wf means.superclass).bind ((Spells.counted interfaces few.1).bind
    ((spells_members wf means.fields few.2.1 (by omega)).bind
    ((spells_members wf means.methods few.2.2 (by omega)).bind ?_))))))
  rw [← List.append_nil (encodeAttributes _)]
  exact (spells_attributes wf told means.few (by omega)).bind (Spells.pure c)

end Members

end StubJar.ClassFile.Grammar

import StubJar.Proofs.Container.MemberLists

/-!
# Methods that are listed more than once

The code of a method is found through the index of its reference, and nothing keeps a file
from listing a reference in two classes, or twice in one. All its listings then lead to one
code, that of the last body in the order in which the code stands (`code_of_last_body`): a
method keeps its own code just if this is its own body, as it is where every reference is
listed once (`lastBody_of_distinct`).
-/

namespace StubJar.Container

open StubJar.Bytes StubJar.Dalvik StubJar.Order

/-- The bodies of a file in the order in which the code stands, each with the reference of
its method. -/
def codedOf (f : File) : List (MethodRef × Body) :=
  (bodies (placedOf f)).map fun (_, m, body) => (m.ref, body)

/-- The last body that a file has for a reference. -/
def lastBody (f : File) (r : MethodRef) : Option Body := lastFor (codedOf f) r

section Listings

variable {f : File} {c : Placed} {i : Nat} {m : Method}

/-- The methods of placed classes have the indices of their references. -/
theorem index_of_listed (hc : c ∈ placedOf f) (hm : (i, m) ∈ c.members.methods) :
    i = (poolOf f).method m.ref ∧ m.ref ∈ f.mentions.flatMap Mention.methods := by
  obtain ⟨stands, members⟩ := mem_placedOf.mp hc
  obtain ⟨listed, index⟩ := mem_methods.mp (members ▸ hm)
  exact ⟨index, method_mentioned (List.mem_of_getElem? stands) listed⟩

/-- A reference has a body just if one of its listings has. -/
theorem mem_codedOf {r : MethodRef} {body : Body} : (r, body) ∈ codedOf f ↔
    ∃ c ∈ placedOf f, ∃ i m, (i, m) ∈ c.members.methods ∧ m.ref = r ∧ m.body = some body := by
  rw [codedOf, List.mem_map]
  constructor
  · rintro ⟨⟨i, m, body⟩, mem, same⟩
    cases same
    obtain ⟨c, hc, hm, has⟩ := mem_bodies.mp mem
    exact ⟨c, hc, i, m, hm, rfl, has⟩
  · rintro ⟨c, hc, i, m, hm, rfl, has⟩
    exact ⟨(i, m, body), mem_bodies.mpr ⟨c, hc, hm, has⟩, rfl⟩

/-- The indices of the methods with a body, each with its body. -/
theorem indexed_bodies : ((bodies (placedOf f)).map Prod.fst).zip ((bodies (placedOf f)).map (·.2.2))
    = (codedOf f).map fun x => ((poolOf f).method x.1, x.2) := by
  rw [codedOf, List.map_map, List.zip_map']
  refine List.map_congr_left ?_
  rintro ⟨i, m, body⟩ mem
  obtain ⟨c, hc, hm, _⟩ := mem_bodies.mp mem
  exact congrArg (·, body) (index_of_listed hc hm).1

/-- The last body of an index is the last body of its reference. -/
theorem lastFor_indexed (hc : c ∈ placedOf f) (hm : (i, m) ∈ c.members.methods) :
    lastFor (((bodies (placedOf f)).map Prod.fst).zip ((bodies (placedOf f)).map (·.2.2))) i
      = lastBody f m.ref := by
  obtain ⟨rfl, mentioned⟩ := index_of_listed hc hm
  rw [indexed_bodies, lastBody]
  refine lastFor_map_key fun x mem same => ?_
  obtain ⟨d, hd, j, n, hn, ref, _⟩ := mem_codedOf.mp mem
  exact Table.indexOf_injective _ (ref ▸ (index_of_listed hd hn).2) mentioned same

/-- The last body is one that a listing has; there is none just if no listing has any. -/
theorem listed_of_lastBody {r : MethodRef} {body : Body} (last : lastBody f r = some body) :
    ∃ c ∈ placedOf f, ∃ i m, (i, m) ∈ c.members.methods ∧ m.ref = r ∧ m.body = some body :=
  mem_codedOf.mp (mem_of_lastFor last)

/-- A reference has no body if none of its methods has one. -/
theorem lastBody_eq_none {r : MethodRef} : lastBody f r = none ↔
    ∀ c ∈ placedOf f, ∀ i m, (i, m) ∈ c.members.methods → m.ref = r → m.body = none := by
  rw [lastBody, lastFor_eq_none, List.mem_map]
  constructor
  · intro absent c hc i m hm ref
    cases has : m.body with
    | none => rfl
    | some body => exact absurd ⟨(r, body), mem_codedOf.mpr ⟨c, hc, i, m, hm, ref, has⟩, rfl⟩ absent
  · rintro none ⟨⟨_, body⟩, mem, rfl⟩
    obtain ⟨c, hc, i, m, hm, ref, has⟩ := mem_codedOf.mp mem
    cases (none c hc i m hm ref).symm.trans has

/-- Where no reference is listed twice, its last body is its own. -/
theorem lastBody_of_distinct (distinct : f.MethodsDistinct) (hc : c ∈ placedOf f)
    (hm : (i, m) ∈ c.members.methods) : lastBody f m.ref = m.body := by
  have only : ∀ d ∈ placedOf f, ∀ j n, (j, n) ∈ d.members.methods → n.ref = m.ref → n = m := by
    intro d hd j n hn ref
    have index : j = i := by rw [(index_of_listed hd hn).1, ref, ← (index_of_listed hc hm).1]
    exact same_method distinct hd hc (index ▸ hn) hm
  cases last : lastBody f m.ref with
  | some body =>
    obtain ⟨d, hd, j, n, hn, ref, has⟩ := listed_of_lastBody last
    rw [← only d hd j n hn ref, has]
  | none => exact (lastBody_eq_none.mp last c hc i m hm rfl).symm

end Listings

/-! ## The code that is found -/

section Found

variable {f : File} {order : List Nat} {b bytes : List UInt8} {c : Placed} {i : Nat} {m : Method}

/-- Bodies of one place are one body, and a place is no place. -/
theorem body_unique {x y : Option Body} {offset : Nat} (short : bytes.length < 2 ^ 32)
    (plain : ∀ body, x = some body ∨ y = some body → body.tries = 0)
    (hx : FoundAt bytes (x.map encodeBody) offset) (hy : FoundAt bytes (y.map encodeBody) offset) :
    x = y := by
  have few : ∀ body : Body, Stands bytes offset (encodeBody body) → body.units.length < 2 ^ 32 := by
    intro body stands
    have bound := stands.bound
    rw [encodeBody, List.length_append, length_flatMap_of fun _ _ => length_le 2 _] at bound
    omega
  cases x with
  | none =>
    cases y with
    | none => rfl
    | some body => exact absurd hx (Nat.ne_of_gt hy.1)
  | some body =>
    cases y with
    | none => exact absurd hy (Nat.ne_of_gt hx.1)
    | some other =>
      have one := Legible.reads_body (few body hx.2) (plain body (.inl rfl))
      have two := Legible.reads_body (few other hy.2) (plain other (.inr rfl))
      obtain ⟨front, rest, bytes_eq, length⟩ := hx.2
      obtain ⟨front', rest', bytes_eq', length'⟩ := hy.2
      have same := (List.append_inj (bytes_eq.symm.trans bytes_eq') (length.trans length'.symm)).2
      have read := one rest
      rw [same, two rest'] at read
      cases read
      rfl

namespace Writes

/-- The index of a method leads to the last body of its reference. -/
theorem code_found (h : Writes f order b) (signed : Stands bytes 32 (signedOf f order))
    (hc : c ∈ placedOf f) (hm : (i, m) ∈ c.members.methods) :
    FoundAt bytes ((lastBody f m.ref).map encodeBody) ((codeOffsetsOf f).getD i 0) := by
  have run : (layoutOf f).code ∈ (layoutOf f).runs := by simp [Layout.runs]
  have found : List.Forall₂ (fun item offset => 0 < offset ∧ Stands bytes offset item)
      ((bodies (placedOf f)).map fun x => encodeBody x.2.2)
      (layoutOf f).code.offsets.toList := h.items_at signed run
  have each : List.Forall₂ (fun body offset => 0 < offset ∧ Stands bytes offset (encodeBody body))
      ((bodies (placedOf f)).map (·.2.2)) (layoutOf f).code.offsets.toList :=
    List.forall₂_map_left_iff.mpr (List.forall₂_map_left_iff.mp found)
  have related := lastFor_zip each ((bodies (placedOf f)).map Prod.fst) i
  rw [lastFor_indexed hc hm] at related
  rw [Std.HashMap.getD_eq_getD_getElem?, codeOffsetsOf, getElem?_ofList]
  generalize lastFor _ i = offset? at related ⊢
  generalize lastBody f m.ref = last at related ⊢
  cases related with
  | none => rfl
  | some holds => exact holds

/-- Bodies that are written have no try blocks. -/
theorem lastBody_plain (h : Writes f order b) {r : MethodRef} {body : Body}
    (last : lastBody f r = some body) : body.tries = 0 := by
  obtain ⟨c, hc, i, m, hm, _, has⟩ := listed_of_lastBody last
  exact Legible.tries_eq_zero h (mem_bodies.mpr ⟨c, hc, hm, has⟩)

end Writes

end Found

/-- The members of a class stand where its row says, and the entry of each method there has
the offset of the code of the last body that the file has for its reference; it has none just
if no listing of the reference has a body. So a method keeps its own code just if its body
is that one. -/
theorem code_of_last_body {f : File} {b : List UInt8} (written : encode f = .ok b)
    (known : 35 ≤ f.version ∧ f.version ≤ 39) (small : b.length < 2 ^ 32) {c : Placed}
    (hc : c ∈ placedOf f) :
    FoundAt b (encodeClassData? (codeOffsetsOf f) c.members)
      ((layoutOf f).classDataOffsets.getD c.position 0)
    ∧ ∀ i m, (i, m) ∈ c.members.methods →
      FoundAt b ((lastBody f m.ref).map encodeBody) ((codeOffsetsOf f).getD i 0)
      ∧ (FoundAt b (m.body.map encodeBody) ((codeOffsetsOf f).getD i 0) ↔ lastBody f m.ref = m.body) := by
  obtain ⟨order, _, h⟩ := encode_eq_ok.mp written
  have signed := h.signed_known known
  have run : (layoutOf f).classData ∈ (layoutOf f).runs := by simp [Layout.runs]
  refine ⟨h.optional_at signed run hc, fun i m hm => ?_⟩
  have found := h.code_found signed hc hm
  refine ⟨found, fun own => body_unique small (fun body some => ?_) found own, fun same => same ▸ found⟩
  rcases some with last | has
  · exact h.lastBody_plain last
  · exact Legible.tries_eq_zero h (mem_bodies.mpr ⟨c, hc, hm, has⟩)

/-- A method of the name that returns what the code says. -/
def listing (units : List UInt16) : Method :=
  ⟨⟨⟨"LA;"⟩, "m", ⟨⟨"I"⟩, []⟩⟩, ⟨9⟩, [], [], some ⟨1, 0, 0, 0, units⟩⟩

/-- Two classes that list one method, each with code of its own. -/
def sharedFile : File :=
  ⟨35, [⟨⟨"LA;"⟩, ⟨1⟩, none, [], none, [], [], [listing [0x1012, 0x0F]]⟩,
    ⟨⟨"LB;"⟩, ⟨1⟩, none, [], none, [], [], [listing [0x2012, 0x0F]]⟩]⟩

example : lastBody sharedFile (listing [0x1012, 0x0F]).ref = (listing [0x2012, 0x0F]).body := by cbv

end StubJar.Container

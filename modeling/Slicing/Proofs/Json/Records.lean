import Mathlib.Data.List.Nodup
import Slicing.Json.Decoder

/-!
# Decoding what was encoded

An object that has the fields of a record, each once and with a value that the field decodes,
is decoded (`Record.decode_obj`), and so is a tagged object whose tag names a shape with
such a record (`tagged_obj`). With these, lists and optional values, a decoder is shown to
undo an encoder field by field.
-/

namespace Slicing.Json

variable {α β : Type}

/-! ## Values -/

/-- Items that are each read back are read back in order. -/
theorem decodeItems_eq_ok {decode : Decoder α} {encode : α → Json} {items : List α}
    (h : ∀ a ∈ items, decode (encode a) = .ok a) :
    decodeItems decode (items.map encode) = .ok items := by
  induction items with
  | nil => rfl
  | cons a items ih =>
    rw [List.map_cons, decodeItems, h a List.mem_cons_self,
      ih fun a ha => h a (List.mem_cons_of_mem _ ha)]
    rfl

/-- A list is read back if its items are. -/
theorem decodeList_ofList {decode : Decoder α} {encode : α → Json} {items : List α}
    (h : ∀ a ∈ items, decode (encode a) = .ok a) :
    decodeList decode (ofList encode items) = .ok items :=
  decodeItems_eq_ok h

/-- A value that may be missing is read back, as no value is written as null. -/
theorem decodeOption_ofOption {decode : Decoder α} {encode : α → Json} {value : Option α}
    (hnull : ∀ a, encode a ≠ .null) (h : ∀ a ∈ value, decode (encode a) = .ok a) :
    decodeOption decode (ofOption encode value) = .ok value := by
  cases value with
  | none => rfl
  | some a =>
    have hsome : decodeOption decode (encode a) = some <$> decode (encode a) := by
      rw [decodeOption.eq_def]
      split
      · exact absurd ‹_› (hnull a)
      · rfl
    rw [ofOption, hsome, h a rfl]
    rfl

/-! ## Records -/

namespace Record

variable {members : List (String × Json)} {name : String} {value : Json} {a : α}

/-- A field that is there is read. -/
theorem read_fieldOr {absent omitted : Option α} {decode : Decoder α}
    (hvalue : members.lookup name = some value) (hdecode : decode value = .ok a) :
    (fieldOr name absent omitted decode).read members = .ok a := by
  have hsome : (members.findIdx? (·.1 == name)).isSome := by
    rw [List.findIdx?_isSome, List.any_eq_true]
    obtain ⟨before, after, rfl, -⟩ := List.lookup_eq_some_iff.1 hvalue
    exact ⟨(name, value), by simp, by simp⟩
  obtain ⟨place, hplace⟩ := Option.isSome_iff_exists.1 hsome
  simp [fieldOr, hplace, hvalue, hdecode]

/-- A required field that is there is read. -/
theorem read_required {decode : Decoder α} (hvalue : members.lookup name = some value)
    (hdecode : decode value = .ok a) : (required name decode).read members = .ok a :=
  read_fieldOr hvalue hdecode

/-- A field with a default that is there is read. -/
theorem read_defaulted {default : α} {decode : Decoder α}
    (hvalue : members.lookup name = some value) (hdecode : decode value = .ok a) :
    (defaulted name default decode).read members = .ok a :=
  read_fieldOr hvalue hdecode

/-- A list that is there is read. -/
theorem read_listOf {decode : Decoder α} {items : List α}
    (hvalue : members.lookup name = some value) (hdecode : decodeList decode value = .ok items) :
    (listOf name decode).read members = .ok items :=
  read_defaulted hvalue hdecode

theorem read_optional {decode : Decoder α} {content : Option α}
    (hvalue : members.lookup name = some value)
    (hdecode : decodeOption decode value = .ok content) :
    (optional name decode).read members = .ok content :=
  read_defaulted hvalue hdecode

/-- Two parts of a record are read one after the other. -/
theorem read_seq {f : Record (α → β)} {x : Record α} {g : α → β} (hf : f.read members = .ok g)
    (hx : x.read members = .ok a) : (f <*> x).read members = .ok (g a) := by
  have h : (f <*> x).read members = (Record.seq f x).read members := rfl
  simp only [h, Record.seq, hf, hx]

theorem read_map {x : Record α} (f : α → β) (hx : x.read members = .ok a) :
    (f <$> x).read members = .ok (f a) :=
  read_seq (f := Record.pure f) rfl hx

/-- Members with known names, each given once, have no fault. -/
theorem memberFault?_eq_none {names seen : List String} {place : Nat}
    (hknown : ∀ member ∈ members, member.1 ∈ names)
    (hnodup : (members.map (·.1)).Nodup) (hseen : ∀ member ∈ members, member.1 ∉ seen) :
    memberFault? names seen place members = none := by
  induction members generalizing seen place with
  | nil => rfl
  | cons member members ih =>
    obtain ⟨name, value⟩ := member
    rw [List.map_cons, List.nodup_cons] at hnodup
    have hname : names.contains name := by simpa using hknown (name, value) List.mem_cons_self
    have hnew : seen.contains name = false := by simpa using hseen (name, value) List.mem_cons_self
    rw [memberFault?, if_pos hname, hnew]
    refine ih (fun m hm => hknown m (List.mem_cons_of_mem _ hm)) hnodup.2 fun m hm hmem => ?_
    rcases List.mem_cons.1 hmem with heq | hmem
    · exact hnodup.1 (List.mem_map.2 ⟨m, hm, heq⟩)
    · exact hseen m (List.mem_cons_of_mem _ hm) hmem

variable {record : Record α}

/-- Members with just the names of a record are decoded. -/
theorem decodeMembers_eq_ok (hnames : members.map (·.1) = record.names)
    (hnodup : (members.map (·.1)).Nodup) (hread : record.read members = .ok a) :
    record.decodeMembers members = .ok a := by
  have hfault : memberFault? record.names [] 0 members = none :=
    memberFault?_eq_none (fun m hm => hnames ▸ List.mem_map_of_mem hm) hnodup (by simp)
  rw [decodeMembers, hfault, hread]

/-- A record is decoded if its members have its names and can be read. -/
theorem decode_obj (hnames : members.map (·.1) = record.names)
    (hnodup : (members.map (·.1)).Nodup) (hread : record.read members = .ok a) :
    record.decode (.obj members) = .ok a :=
  decodeMembers_eq_ok hnames hnodup hread

end Record

/-! ## Tagged objects -/

/-- The shape without a tag is taken where no tag is given. -/
theorem shapeOf_eq_ok {form : TagForm} {tag : String} {shapes : List (String × α)} {shape : α}
    {members : List (String × Json)} (htag : ∀ member ∈ members, member.1 ≠ tag)
    (hvalued : membersValued members) :
    shapeOf form tag shapes (some shape) members = .ok shape := by
  induction members with
  | nil => rfl
  | cons member members ih =>
    obtain ⟨name, value⟩ := member
    rw [membersValued, Bool.and_eq_true] at hvalued
    have hname : (name == tag) = false := by simpa using htag (name, value) List.mem_cons_self
    rw [shapeOf, hname]
    simp only [Bool.false_eq_true, if_false, hvalued.1, if_true]
    exact ih (fun m hm => htag m (List.mem_cons_of_mem _ hm)) hvalued.2

/-- An object with its tag in front is decoded by the record for the tag. -/
theorem tagged_obj {form : TagForm} {tag word : String} {shapes : List (String × Record α)}
    {record : Record α} {members : List (String × Json)} {a : α}
    (hshape : shapes.lookup word = some record) (htag : ∀ member ∈ members, member.1 ≠ tag)
    (hvalued : membersValued members) (hdecode : record.decodeMembers members = .ok a) :
    tagged form tag shapes (.obj ((tag, .str word) :: members)) = .ok a := by
  have hfound : shapeOf form tag shapes none ((tag, .str word) :: members) = .ok record := by
    rw [shapeOf]
    simp only [beq_self_eq_true, if_true, decodeTag, wordMeaning, hshape]
    exact shapeOf_eq_ok htag hvalued
  have hothers : ((tag, Json.str word) :: members).filter (·.1 != tag) = members := by
    rw [List.filter_cons_of_neg (by simp), List.filter_eq_self]
    simpa using fun name value hm => htag (name, value) hm
  rw [tagged, hfound]
  change asShape (record.decodeMembers (((tag, Json.str word) :: members).filter (·.1 != tag))) = _
  rw [hothers, hdecode]
  rfl

end Slicing.Json

import TaggedCache.Proofs.Codec.Ambiguity
import TaggedCache.Proofs.Codec.TypedRead
import TaggedCache.Proofs.Json.Rearrange

namespace TaggedCache

open Json

variable {M : ObjectModel}

namespace Value

mutual

-- A value holds what a tree does, part by part. Whole numbers are signed as long as they fit.
def Mirrors : Value M → Tree → Prop
  | null, .null => True
  | scalar (.bool a), .bool b => a = b
  | scalar (.int a), .number (.whole value _ _) => a.toInt = value
  | scalar (.uint a), .number (.whole value _ _) => a.toNat = value ∧ 0x8000000000000000 ≤ value
  | scalar (.float a), .number (.double value _) => a = value
  | scalar (.string a), .string b => a = b
  | collection .list items, .array trees => MirrorsItems items trees
  | map .unordered entries, .object fields => MirrorsFields entries fields
  | _, _ => False

def MirrorsItems : List (Value M) → List Tree → Prop
  | [], [] => True
  | item :: items, tree :: trees => item.Mirrors tree ∧ MirrorsItems items trees
  | _, _ => False

def MirrorsFields : List (String × Value M) → List (String × Tree) → Prop
  | [], [] => True
  | (key, value) :: entries, (name, tree) :: fields =>
      key = name ∧ value.Mirrors tree ∧ MirrorsFields entries fields
  | _, _ => False

end

theorem mirrorsItems_iff {items : List (Value M)} {trees : List Tree} :
    MirrorsItems items trees ↔ List.Forall₂ Mirrors items trees := by
  induction items generalizing trees with
  | nil => cases trees <;> simp [MirrorsItems]
  | cons item items ih => cases trees <;> simp [MirrorsItems, ih]

theorem mirrorsFields_iff {entries : List (String × Value M)} {fields : List (String × Tree)} :
    MirrorsFields entries fields ↔
      List.Forall₂ (fun entry field => entry.1 = field.1 ∧ entry.2.Mirrors field.2)
        entries fields := by
  induction entries generalizing fields with
  | nil => cases fields <;> simp [MirrorsFields]
  | cons entry entries ih => cases fields <;> simp [MirrorsFields, ih, and_assoc]

theorem mirrors_number (number : Number) :
    (scalar (Scalar.ofNumber number) : Value M).Mirrors (.number number) := by
  cases number with
  | double value finite => rw [Scalar.ofNumber, Mirrors]
  | whole value least greatest =>
      by_cases hsmall : value < 0x8000000000000000
      · rw [Scalar.ofNumber, if_pos hsmall, Mirrors]
        exact Int64.toInt_ofInt_of_le least hsmall
      · rw [Scalar.ofNumber, if_neg hsmall, Mirrors]
        have hnat : value.toNat < UInt64.size := by
          simp only [UInt64.size]
          omega
        rw [UInt64.toNat_ofNat_of_lt' hnat]
        omega

theorem mirrors_ofTree (tree : Tree) : (ofTree tree : Value M).Mirrors tree := by
  induction tree with
  | null => trivial
  | bool | string => rfl
  | number value => exact mirrors_number value
  | array items ih =>
      rw [ofTree, ofItems_eq, Mirrors, mirrorsItems_iff, List.forall₂_map_left_iff]
      exact List.forall₂_same.mpr ih
  | object fields ih =>
      rw [ofTree, ofFields_eq, Mirrors, mirrorsFields_iff, List.forall₂_map_left_iff]
      exact List.forall₂_same.mpr fun field hfield => ⟨rfl, ih field hfield⟩

theorem isData_of_mirrors {value : Scalar} {number : Number}
    (h : (scalar value : Value M).Mirrors (.number number)) : (scalar value : Value M).IsData := by
  refine every_scalar.mpr ?_
  cases value with
  | bool | int | string => trivial
  | uint value =>
      cases number with
      | double => exact h.elim
      | whole number least greatest =>
          obtain ⟨heq, hlarge⟩ := h
          show 0x8000000000000000 ≤ value.toNat
          omega
  | float value =>
      cases number with
      | double number finite => exact (h : value = number) ▸ finite
      | whole => exact h.elim

theorem isData_ofTree (tree : Tree) : (ofTree tree : Value M).IsData := by
  induction tree with
  | null => exact every_null.mpr trivial
  | bool | string => exact every_scalar.mpr trivial
  | number value => exact isData_of_mirrors (mirrors_number value)
  | array items ih =>
      rw [ofTree, ofItems_eq, isData_collection, List.forall_mem_map]
      exact ⟨rfl, ih⟩
  | object fields ih =>
      rw [ofTree, ofFields_eq, isData_map, List.forall_mem_map]
      exact ⟨rfl, ih⟩

end Value

namespace Codec

-- A tree without tags decodes to a value that holds what it does, and whatever order its maps
-- are in, the value is written as that tree up to the order of fields. Conversely, data decodes
-- to an equal value from its tree, if nothing in the tree is a tag.
theorem decodeTree_mirrors (codec : Codec M) :
    (∀ tree isItem, codec.Untagged tree →
      (codec.decodeTree isItem tree).Mirrors tree ∧ (codec.decodeTree isItem tree).IsData ∧
        ∀ other, (codec.decodeTree isItem tree).Reorders other →
          ∃ own, other.toTree = .ok own ∧ own.Rearranges tree) ∧
    ∀ value : Value M, value.WellFormed → value.IsData → ∃ tree, value.toTree = .ok tree ∧
      (tree.Every (Tree.LacksField codec.config.discriminator) → tree.Every codec.Headless →
        ∀ isItem other, (codec.decodeTree isItem tree).Reorders other →
          other.equal value = true) := by
  constructor
  · intro tree isItem h
    rw [decodeTree_untagged h]
    refine ⟨Value.mirrors_ofTree tree, Value.isData_ofTree tree, fun other horder => ?_⟩
    obtain ⟨-, own, hown, hsame⟩ :=
      Value.writesAs_of_reorders horder (steady_ofTree h.distinct) (writesAs_ofTree tree)
    exact ⟨own, hown, Tree.rearranges_of_canonical_eq hsame⟩
  · intro value hvalue hdata
    obtain ⟨tree, htree, rfl⟩ := Value.exists_ofTree_of_isData hdata
    refine ⟨tree, htree, fun hlacks hheadless isItem other horder => ?_⟩
    rw [decodeTree_untagged ⟨wellFormed_ofTree.mp hvalue, hlacks, hheadless⟩] at horder
    have hrefills : Value.Refills _ other :=
      Relation.ReflTransGen.mono (fun _ _ => Value.refill_of_reorder) _ _ horder
    exact Value.equal_iff.mpr (Value.wellFormed_of_refills hrefills hvalue).2.symm

-- A name that resolves is no tag in front of two others.
theorem decodeTree_mirrors_mixed :
    let large : Number := .whole 0x8000000000000000 (by decide) (by decide)
    let tree : Tree := .object
      [("n", .number large), ("l", .array [.string "demo.Switch", .null, .bool true])]
    let value : Value Switch := .map .unordered
      [("n", .scalar (.uint 0x8000000000000000)),
        ("l", .collection .list [.scalar (.string "demo.Switch"), .null, .scalar (.bool true)])]
    ((Switch.codec false).decodeTree false tree).Mirrors tree ∧
      ((Switch.codec false).decodeTree false tree).equal value = true := by
  intro large tree value
  have hlacks : tree.Every (Tree.LacksField "@class") := by decide
  have hheadless : tree.Every (Switch.codec false).Headless := by decide +kernel
  have hvalue : value.WellFormed := by
    simp [value, Value.wellFormed_map, Keyed.Proper, Keyed.keys, Collection.Proper]
  obtain ⟨hmirrors, hback⟩ := decodeTree_mirrors (Switch.codec false)
  obtain ⟨written, hwritten, hequal⟩ := hback value hvalue (by decide)
  obtain rfl : tree = written := Except.ok.inj hwritten
  exact ⟨(hmirrors tree false ⟨by decide, hlacks, hheadless⟩).1,
    hequal hlacks hheadless false _ .refl⟩

end Codec

end TaggedCache

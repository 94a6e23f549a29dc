import TaggedCache.Proofs.Codec.Decoding
import TaggedCache.Proofs.Codec.Reading
import TaggedCache.Proofs.Order.Value
import TaggedCache.Proofs.Switch

namespace TaggedCache

open Json

variable {M : ObjectModel}

-- Values are kept without repetition: each is one of the given ones, and each of those is equal
-- to one that is kept.
structure Value.Deduplicates (kept values : List (Value M)) : Prop where
  distinct : kept.Pairwise fun a b => a.equal b = false
  subset : kept ⊆ values
  covers : ∀ value ∈ values, ∃ member ∈ kept, value.equal member

namespace Collection

theorem ofList_sequence {kind : CollectionKind} (h : kind.isSet = false)
    (values : List (Value M)) : (ofList kind values).items = values := by
  have hproper : Proper ⟨kind, values⟩ := by
    cases kind with
    | list | linkedList => trivial
    | unorderedSet | orderedSet | sortedSet => contradiction
  exact congrArg items (ofList_of_proper hproper)

theorem deduplicates_ofList {kind : CollectionKind} (h : kind.isSet = true)
    (values : List (Value M)) : Value.Deduplicates (ofList kind values).items values where
  distinct := distinct_of_proper (by rwa [ofList_kind]) (proper_ofList kind values)
  subset := fun _ hmember => mem_of_mem_ofList hmember
  covers := by
    intro value hvalue
    obtain ⟨member, hmember, heq⟩ := exists_eq_mem_ofList kind hvalue
    exact ⟨member, hmember, by rw [Value.equal, heq]; rfl⟩

end Collection

namespace Codec

-- An array is the name of a collection kind in front of another array.
def IsWrapper (codec : Codec M) (items : List Tree) : Prop :=
  ∃ name kind inner, items = [.string name, .array inner] ∧
    codec.registry.resolve name = some (.container (.collection kind))

-- Only where it is an item of an array can an array that is no wrapper have a heading.
theorem heading?_of_not_isWrapper {codec : Codec M} {items : List Tree}
    (h : ¬codec.IsWrapper items) : codec.heading? false items = none := by
  cases hheading : codec.heading? false items with
  | none => rfl
  | some heading =>
      obtain ⟨name, second, rfl, hsecond⟩ := heading?_eq_some hheading
      cases heading with
      | collection kind =>
          obtain ⟨hname, inner, rfl⟩ := hsecond
          exact absurd ⟨name, kind, inner, rfl, hname⟩ h
      | object type fields => exact absurd hsecond.2.1 nofun
      | map kind => exact absurd hsecond.2.1 nofun

-- Under the name of a collection kind, an array gives a collection of this kind that is filled
-- with the members of the list which the array alone gives: at the top, in a field (both no
-- items of an array) and as an item. Sequences hold the same members in the same order, sets
-- hold them without repetition.
theorem decode_wrapper_of_plain (codec : Codec M) {name : String} {kind : CollectionKind}
    {items : List Tree}
    (hname : codec.registry.resolve name = some (.container (.collection kind)))
    (hitems : ¬codec.IsWrapper items) :
    ∃ members,
      (codec.decodeTree false (.array items) = .collection .list members ∧
        (codec.heading? true items = none →
          codec.decodeTree true (.array items) = .collection .list members)) ∧
      (∀ isItem, codec.decodeTree isItem (.array [.string name, .array items]) =
        (Collection.ofList kind members).toValue) ∧
      (∀ document, tree? document = some (.array [.string name, .array items]) →
        codec.decode document = .ok (Collection.ofList kind members).toValue) ∧
      (Collection.ofList kind members).kind = kind ∧
      (kind.isSet = false → (Collection.ofList kind members).items = members) ∧
      (kind.isSet = true →
        Value.Deduplicates (Collection.ofList kind members).items members) := by
  have hwrapper (isItem : Bool) := decodeTree_wrapper hname isItem items
  refine ⟨items.map (codec.decodeTree true), ⟨?_, decodeTree_array⟩, hwrapper, ?_,
    Collection.ofList_kind kind _, fun h => Collection.ofList_sequence h _,
    fun h => Collection.deduplicates_ofList h _⟩
  · exact decodeTree_array (heading?_of_not_isWrapper hitems)
  · exact fun document htree => decode_eq_ok_iff.mpr (.inr ⟨_, htree, hwrapper false⟩)

-- A string that names a kind of map makes no wrapper.
theorem decode_wrapper_of_plain_pair :
    let items : List Tree := [.string "java.util.HashMap", .array [.null, .null]]
    ∃ members,
      (Switch.codec false).decodeTree false (.array items) = .collection .list members ∧
      (Switch.codec false).decodeTree true (.array [.string "java.util.HashSet", .array items]) =
        (Collection.ofList .unorderedSet members).toValue := by
  intro items
  have hset : (Switch.codec false).registry.resolve "java.util.HashSet" =
      some (.container (.collection .unorderedSet)) := by decide +kernel
  have hmap : (Switch.codec false).registry.resolve "java.util.HashMap" =
      some (.container (.map .unordered)) := by decide +kernel
  have hitems : ¬(Switch.codec false).IsWrapper items := by
    rintro ⟨name, kind, inner, heq, hname⟩
    obtain ⟨rfl, -⟩ : "java.util.HashMap" = name ∧ _ := by simpa [items] using heq
    cases hmap.symm.trans hname
  obtain ⟨members, ⟨hplain, -⟩, hwrapper, -⟩ :=
    decode_wrapper_of_plain (Switch.codec false) hset hitems
  exact ⟨members, hplain, hwrapper true⟩

end Codec

end TaggedCache

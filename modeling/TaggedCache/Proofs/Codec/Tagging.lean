import TaggedCache.Proofs.Codec.RoundTrip
import TaggedCache.Proofs.Json.Injective

namespace TaggedCache

open Json

-- The object that comes second starts with a field of a given name, which holds a text.
-- The fields of the first object follow in their order, less any field of that name.
inductive Json.Tree.Headed (name text : String) : Tree → Tree → Prop
  | intro {fields others : List (String × Tree)} (rest : others = fields.filter (·.1 ≠ name))
      (once : name ∉ Assoc.keys others) :
      Headed name text (.object fields) (.object ((name, .string text) :: others))

theorem Json.Tree.headed_iff {name text : String} {plain tree : Tree} :
    plain.Headed name text tree ↔ ∃ fields, plain = .object fields ∧
      tree = .object ((name, .string text) :: Assoc.erase name fields) := by
  constructor
  · rintro ⟨rfl, -⟩
    exact ⟨_, rfl, rfl⟩
  · rintro ⟨fields, rfl, rfl⟩
    exact .intro rfl (Assoc.notMem_keys_erase name fields)

variable {M : ObjectModel}

namespace Codec

-- How the document of a member of the outermost collection differs from the member's plain tree:
-- an object and a map name their type, and anything else is as it is.
inductive TagsMember (codec : Codec M) : Value M → Tree → Tree → Prop
  | scalar (value : Scalar) (plain : Tree) : TagsMember codec (.scalar value) plain plain
  | collection (kind : CollectionKind) (items : List (Value M)) (plain : Tree) :
      TagsMember codec (.collection kind items) plain plain
  | object {object : Object M} {plain tree : Tree}
      (names : plain.Headed codec.config.discriminator (codec.registry.nameOf object) tree) :
      TagsMember codec (.object object) plain tree
  | map {kind : MapKind} {entries : List (String × Value M)} {plain tree : Tree}
      (names : plain.Headed codec.config.discriminator kind.wireName tree) :
      TagsMember codec (.map kind entries) plain tree

-- The same for all members. The plain trees of nulls have no counterpart.
inductive TagsMembers (codec : Codec M) : List (Value M) → List Tree → List Tree → Prop
  | nil : TagsMembers codec [] [] []
  | null {items : List (Value M)} {plains trees : List Tree}
      (rest : TagsMembers codec items plains trees) :
      TagsMembers codec (.null :: items) (.null :: plains) trees
  | cons {item : Value M} {plain tree : Tree} {items : List (Value M)} {plains trees : List Tree}
      (first : TagsMember codec item plain tree) (rest : TagsMembers codec items plains trees) :
      TagsMembers codec (item :: items) (plain :: plains) (tree :: trees)

-- How the document of a value differs from the plain tree of the value. Below the members of an
-- outermost collection, and below an outermost map or object, nothing differs.
inductive Tags (codec : Codec M) : Value M → Tree → Tree → Prop
  | scalar (value : Scalar) (plain : Tree) : Tags codec (.scalar value) plain plain
  | map (kind : MapKind) (entries : List (String × Value M)) (plain : Tree) :
      Tags codec (.map kind entries) plain plain
  | object {object : Object M} {plain tree : Tree}
      (names : plain.Headed codec.config.discriminator (codec.registry.nameOf object) tree) :
      Tags codec (.object object) plain tree
  | array {kind : CollectionKind} {items : List (Value M)} {plains trees : List Tree}
      (bare : kind = .list ∨ codec.config.wrapCollections = false)
      (members : codec.TagsMembers items plains trees) :
      Tags codec (.collection kind items) (.array plains) (.array trees)
  | wrapper {kind : CollectionKind} {items : List (Value M)} {plains trees : List Tree}
      (kept : kind ≠ .list) (wraps : codec.config.wrapCollections = true)
      (members : codec.TagsMembers items plains trees) :
      Tags codec (.collection kind items) (.array plains)
        (.array [.string kind.wireName, .array trees])

section

variable {codec : Codec M}

theorem objectDocument_iff_headed {object : Object M} {tree : Tree} :
    codec.objectDocument object = .ok tree ↔ ∃ plain, object.toTree = .ok plain ∧
      plain.Headed codec.config.discriminator (codec.registry.nameOf object) tree := by
  rw [objectDocument_eq_ok_iff]
  constructor
  · rintro ⟨fields, htree, rfl⟩
    exact ⟨_, htree, Tree.headed_iff.mpr ⟨fields, rfl, rfl⟩⟩
  · rintro ⟨plain, htree, hheaded⟩
    obtain ⟨fields, rfl, rfl⟩ := Tree.headed_iff.mp hheaded
    exact ⟨fields, htree, rfl⟩

theorem memberDocument_iff_tagsMember {member : Value M} {tree : Tree}
    (hnull : member.isNull = false) :
    codec.memberDocument member = .ok tree ↔
      ∃ plain, member.toTree = .ok plain ∧ codec.TagsMember member plain tree := by
  cases member with
  | null => contradiction
  | object object =>
      refine objectDocument_iff_headed.trans (exists_congr fun plain => and_congr_right fun _ => ?_)
      exact ⟨.object, fun | .object names => names⟩
  | map kind entries =>
      rw [memberDocument_map]
      constructor
      · rintro ⟨fields, htree, rfl⟩
        exact ⟨_, htree, .map (Tree.headed_iff.mpr ⟨fields, rfl, rfl⟩)⟩
      · rintro ⟨plain, htree, hmember⟩
        cases hmember with
        | map names =>
            obtain ⟨fields, rfl, rfl⟩ := Tree.headed_iff.mp names
            exact ⟨fields, htree, rfl⟩
  | scalar value =>
      constructor
      · exact fun htree => ⟨tree, htree, .scalar value tree⟩
      · rintro ⟨plain, htree, hmember⟩
        cases hmember with
        | scalar => exact htree
  | collection kind items =>
      constructor
      · exact fun htree => ⟨tree, htree, .collection kind items tree⟩
      · rintro ⟨plain, htree, hmember⟩
        cases hmember with
        | collection => exact htree

theorem isNull_of_tagsMember {member : Value M} {plain tree : Tree}
    (h : codec.TagsMember member plain tree) : member.isNull = false := by
  cases h <;> rfl

-- All members but the nulls are written, each as its own tree says.
theorem memberDocuments_iff_tagsMembers {items : List (Value M)} {trees : List Tree} :
    List.Forall₂ (fun item tree => codec.memberDocument item = .ok tree)
        (items.filter (!·.isNull)) trees ↔
      ∃ plains, List.Forall₂ (fun item plain => item.toTree = .ok plain) items plains ∧
        codec.TagsMembers items plains trees := by
  induction items generalizing trees with
  | nil =>
      simp only [List.filter_nil, List.forall₂_nil_left_iff, exists_eq_left]
      constructor
      · rintro rfl
        exact .nil
      · rintro ⟨⟩
        rfl
  | cons item rest ih =>
      by_cases hnull : item.isNull = true
      · have hitem : item = .null := by cases item <;> first | rfl | contradiction
        subst hitem
        rw [List.filter_cons_of_neg (by simp [hnull]), ih]
        constructor
        · rintro ⟨plains, hplains, hmembers⟩
          exact ⟨.null :: plains, .cons rfl hplains, .null hmembers⟩
        · rintro ⟨plains, hplains, hmembers⟩
          cases hmembers with
          | null hrest => exact ⟨_, (List.forall₂_cons.mp hplains).2, hrest⟩
          | cons hfirst _ => exact absurd (isNull_of_tagsMember hfirst) (by simp [hnull])
      · have hnull : item.isNull = false := by simpa using hnull
        rw [List.filter_cons_of_pos (by simp [hnull]), List.forall₂_cons_left_iff]
        constructor
        · rintro ⟨tree, others, hfirst, hothers, rfl⟩
          obtain ⟨plain, hplain, hmember⟩ := (memberDocument_iff_tagsMember hnull).mp hfirst
          obtain ⟨plains, hplains, hmembers⟩ := ih.mp hothers
          exact ⟨plain :: plains, .cons hplain hplains, .cons hmember hmembers⟩
        · rintro ⟨plains, hplains, hmembers⟩
          cases hmembers with
          | null => contradiction
          | cons hfirst hrest =>
              obtain ⟨hplain, hplains⟩ := List.forall₂_cons.mp hplains
              exact ⟨_, _, (memberDocument_iff_tagsMember hnull).mpr ⟨_, hplain, hfirst⟩,
                ih.mpr ⟨_, hplains, hrest⟩, rfl⟩

theorem collectionDocument_iff_tags {kind : CollectionKind} {items : List (Value M)} {tree : Tree} :
    codec.collectionDocument kind items = .ok tree ↔
      ∃ plain, (Value.collection kind items).toTree = .ok plain ∧
        codec.Tags (.collection kind items) plain tree := by
  rw [collectionDocument_eq_ok_iff]
  constructor
  · rintro ⟨trees, htrees, rfl⟩
    obtain ⟨plains, hplains, hmembers⟩ := memberDocuments_iff_tagsMembers.mp htrees
    refine ⟨.array plains, Value.toTree_collection.mpr ⟨plains, hplains, rfl⟩, ?_⟩
    by_cases hwraps : codec.config.wrapCollections = true ∧ kind ≠ .list
    · rw [if_pos (by simpa using hwraps)]
      exact .wrapper hwraps.2 hwraps.1 hmembers
    · rw [if_neg (by simpa using hwraps)]
      refine .array ?_ hmembers
      by_cases hkind : kind = .list
      · exact .inl hkind
      · exact .inr (by simpa [hkind] using hwraps)
  · rintro ⟨plain, hplain, htags⟩
    obtain ⟨_, hplains, rfl⟩ := Value.toTree_collection.mp hplain
    cases htags with
    | array bare members =>
        refine ⟨_, memberDocuments_iff_tagsMembers.mpr ⟨_, hplains, members⟩, if_neg ?_⟩
        rcases bare with rfl | hwraps <;> simp_all
    | wrapper kept wraps members =>
        exact ⟨_, memberDocuments_iff_tagsMembers.mpr ⟨_, hplains, members⟩,
          if_pos (by simp [kept, wraps])⟩

theorem document_iff_tags {value : Value M} {tree : Tree} :
    codec.document value = .ok (some tree) ↔
      ∃ plain, value.toTree = .ok plain ∧ codec.Tags value plain tree := by
  rw [document_eq_ok_some_iff]
  cases value with
  | null => exact ⟨False.elim, fun ⟨_, _, htags⟩ => nomatch htags⟩
  | collection kind items => exact collectionDocument_iff_tags
  | object object =>
      refine objectDocument_iff_headed.trans (exists_congr fun plain => and_congr_right fun _ => ?_)
      exact ⟨.object, fun | .object names => names⟩
  | scalar value =>
      exact ⟨fun htree => ⟨tree, htree, .scalar value tree⟩, fun ⟨_, htree, .scalar _ _⟩ => htree⟩
  | map kind entries =>
      exact ⟨fun htree => ⟨tree, htree, .map kind entries tree⟩,
        fun ⟨_, htree, .map _ _ _⟩ => htree⟩

end

-- The document of a value is its plain tree with tags, and nothing else. It is the text of that
-- tree and of no other one, and is read back as that tree unless names repeat or it is too deep.
theorem encode_eq_ok_iff_tags (codec : Codec M) {value : Value M} (hnull : value ≠ .null)
    (bytes : ByteArray) :
    codec.encode value = .ok bytes ↔ ∃ plain tree, value.toTree = .ok plain ∧
      codec.Tags value plain tree ∧ bytes = tree.text.toUTF8 ∧
      (∀ other : Tree, other.text.toUTF8 = bytes → other = tree) ∧
      (tree.Distinct → tree.depth ≤ maxDepth → tree? bytes = some tree) := by
  rw [encode_eq_ok_iff, or_iff_right fun h => hnull h.1]
  simp only [document_iff_tags]
  constructor
  · rintro ⟨tree, ⟨plain, hplain, htags⟩, rfl⟩
    exact ⟨plain, tree, hplain, htags, rfl, fun _ hother => Tree.toUTF8_text_injective hother,
      tree?_text⟩
  · rintro ⟨plain, tree, hplain, htags, rfl, -, -⟩
    exact ⟨tree, ⟨plain, hplain, htags⟩, rfl⟩

-- A null is left out where it is a member, but not further inside, and an entry of a map gives
-- way to the name of the map's kind.
theorem encode_eq_ok_iff_tags_wrapped :
    let value : Value Switch := .collection .linkedList [.null, .object ⟨(), true⟩,
      .map .sorted [("@class", .scalar (.bool true)), ("k", .null)], .collection .list [.null]]
    let tree := Tree.array [.string "std::collections::LinkedList", .array [
      .object [("@class", .string "demo.Switch"), ("on", .bool true)],
      .object [("@class", .string "std::collections::BTreeMap"), ("k", .null)],
      .array [.null]]]
    (Switch.codec true).encode value = .ok tree.text.toUTF8 ∧
      tree? tree.text.toUTF8 = some tree := by
  intro value tree
  have htags : (Switch.codec true).Tags value (.array [.null, .object [("on", .bool true)],
      .object [("@class", .bool true), ("k", .null)], .array [.null]]) tree := by
    refine .wrapper (by decide) rfl (.null (.cons (.object ?_) (.cons (.map ?_)
      (.cons (.collection _ _ _) .nil))))
    · exact .intro rfl (by decide)
    · exact .intro rfl (by decide)
  have hiff := encode_eq_ok_iff_tags (Switch.codec true) (show value ≠ .null from nofun)
    tree.text.toUTF8
  have hencode := hiff.mpr ⟨_, tree, rfl, htags, rfl,
    fun _ hother => Tree.toUTF8_text_injective hother, tree?_text⟩
  refine ⟨hencode, ?_⟩
  obtain ⟨_, other, -, -, -, honly, hread⟩ := hiff.mp hencode
  obtain rfl := honly tree rfl
  exact hread (by decide) (by decide)

end Codec

end TaggedCache

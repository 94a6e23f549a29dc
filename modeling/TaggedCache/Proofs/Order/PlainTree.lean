import TaggedCache.Proofs.Json.FieldOrder
import TaggedCache.Proofs.Order.Reorder
import TaggedCache.Proofs.Value.Plain

namespace TaggedCache

open Json

variable {M : ObjectModel}

namespace Value

-- The plain tree of a value is the given one, up to the order of fields.
def WritesAs (value : Value M) (tree : Tree) : Prop :=
  ∃ own, value.toTree = .ok own ∧ own.canonical = tree.canonical

-- No map inside a value holds a key twice, and there are no unordered sets in it. So the order
-- in which its hash containers yield their members is nothing but an order of fields.
def Steady (value : Value M) : Prop :=
  value.Every fun
    | .collection kind _ => kind ≠ .unorderedSet
    | .map _ entries => (Assoc.keys entries).Nodup
    | _ => True

theorem steady_null : (null : Value M).Steady := every_null.mpr trivial

theorem steady_scalar (value : Scalar) : (scalar value : Value M).Steady :=
  every_scalar.mpr trivial

theorem steady_object (value : Object M) : (object value).Steady := every_object.mpr trivial

theorem steady_collection {kind : CollectionKind} {items : List (Value M)} :
    (collection kind items).Steady ↔ kind ≠ .unorderedSet ∧ ∀ item ∈ items, item.Steady :=
  every_collection

theorem steady_map {kind : MapKind} {entries : List (String × Value M)} :
    (map kind entries).Steady ↔
      (Assoc.keys entries).Nodup ∧ ∀ entry ∈ entries, entry.2.Steady := every_map

theorem writesAs_collection {kind : CollectionKind} {items : List (Value M)} {tree : Tree} :
    (collection kind items).WritesAs tree ↔
      ∃ trees, (Tree.array trees).canonical = tree.canonical ∧
        List.Forall₂ WritesAs items trees := by
  constructor
  · rintro ⟨own, hown, hsame⟩
    obtain ⟨trees, htrees, rfl⟩ := toTree_collection.mp hown
    exact ⟨trees, hsame, htrees.imp fun item tree htree => ⟨tree, htree, rfl⟩⟩
  · rintro ⟨trees, hsame, htrees⟩
    obtain ⟨owns, howns, hcanonical⟩ := exists_between_of_forall₂ htrees
    have hall := Tree.canonical_array_eq_iff.mpr hcanonical
    exact ⟨.array owns, toTree_collection.mpr ⟨owns, howns, rfl⟩, hall.trans hsame⟩

theorem writesAs_map {kind : MapKind} {entries : List (String × Value M)} {tree : Tree} :
    (map kind entries).WritesAs tree ↔
      ∃ fields, (Tree.object fields).canonical = tree.canonical ∧
        List.Forall₂ (fun entry field => entry.1 = field.1 ∧ entry.2.WritesAs field.2)
          entries fields := by
  constructor
  · rintro ⟨own, hown, hsame⟩
    obtain ⟨fields, hfields, rfl⟩ := toTree_map.mp hown
    exact ⟨fields, hsame, hfields.imp fun entry field h => ⟨h.1, field.2, h.2, rfl⟩⟩
  · rintro ⟨fields, hsame, hfields⟩
    have hsplit : List.Forall₂ (fun entry field => ∃ own : String × Tree,
        (entry.1 = own.1 ∧ entry.2.toTree = .ok own.2) ∧
          own.1 = field.1 ∧ own.2.canonical = field.2.canonical) entries fields :=
      hfields.imp fun entry field ⟨hname, own, hown, hcanonical⟩ =>
        ⟨(entry.1, own), ⟨rfl, hown⟩, hname, hcanonical⟩
    obtain ⟨owns, howns, hcanonical⟩ := exists_between_of_forall₂ hsplit
    have hall := Tree.canonical_object_congr hcanonical
    exact ⟨.object owns, toTree_map.mpr ⟨owns, howns, rfl⟩, hall.trans hsame⟩

-- The order of entries is only an order of fields, whatever the kinds of map are.
theorem writesAs_of_perm {kind kind' : MapKind} {entries others : List (String × Value M)}
    {tree : Tree} (hperm : entries.Perm others) (hkeys : (Assoc.keys entries).Nodup)
    (h : (map kind entries).WritesAs tree) : (map kind' others).WritesAs tree := by
  obtain ⟨fields, hsame, hfields⟩ := writesAs_map.mp h
  obtain ⟨arranged, harranged, hmoved⟩ := List.perm_comp_forall₂ hperm.symm hfields
  have hnames : Assoc.keys entries = Assoc.keys fields :=
    map_eq_map_of_forall₂ hfields fun _ _ _ _ hentry => hentry.1
  have hcanonical := Tree.canonical_object_of_perm hmoved.symm (hnames ▸ hkeys)
  exact writesAs_map.mpr ⟨arranged, hcanonical.symm.trans hsame, harranged⟩

theorem writesAs_of_reorder {a b : Value M} (h : Reorder a b) (ha : a.Steady) :
    b.Steady ∧ ∀ tree, a.WritesAs tree → b.WritesAs tree := by
  induction h with
  | members hperm => exact absurd rfl (steady_collection.mp ha).1
  | entries hkind hperm =>
      obtain ⟨hkeys, hentries⟩ := steady_map.mp ha
      have hothers := (hperm.map Prod.fst).nodup_iff.mp hkeys
      refine ⟨steady_map.mpr ⟨hothers, fun entry hentry => ?_⟩, fun tree htree => ?_⟩
      · exact hentries entry (hperm.mem_iff.mpr hentry)
      · exact writesAs_of_perm hperm hkeys htree
  | @member kind before after item other h ih =>
      obtain ⟨hkind, hitems⟩ := steady_collection.mp ha
      obtain ⟨hother, hwrites⟩ := ih (hitems item (by simp))
      have hothers := forall_mem_replace hitems hother
      refine ⟨steady_collection.mpr ⟨hkind, hothers⟩, fun tree htree => ?_⟩
      obtain ⟨trees, hsame, htrees⟩ := writesAs_collection.mp htree
      exact writesAs_collection.mpr ⟨trees, hsame, forall₂_replace htrees hwrites⟩
  | @entry kind before after key value other h ih =>
      obtain ⟨hkeys, hentries⟩ := steady_map.mp ha
      obtain ⟨hother, hwrites⟩ := ih (hentries (key, value) (by simp))
      have hothers : ∀ part ∈ before ++ (key, other) :: after, part.2.Steady :=
        forall_mem_replace hentries hother
      have hnames : Assoc.keys (before ++ (key, other) :: after) =
          Assoc.keys (before ++ (key, value) :: after) := by simp [Assoc.keys]
      refine ⟨steady_map.mpr ⟨hnames ▸ hkeys, hothers⟩, fun tree htree => ?_⟩
      obtain ⟨fields, hsame, hfields⟩ := writesAs_map.mp htree
      refine writesAs_map.mpr ⟨fields, hsame, forall₂_replace hfields ?_⟩
      exact fun field hfield => ⟨hfield.1, hwrites field.2 hfield.2⟩

-- In whatever order its hash containers yield their members, a value has the same plain tree
-- up to the order of fields.
theorem writesAs_of_reorders {a b : Value M} (h : Reorders a b) (ha : a.Steady) {tree : Tree}
    (htree : a.WritesAs tree) : b.Steady ∧ b.WritesAs tree := by
  induction h with
  | refl => exact ⟨ha, htree⟩
  | tail _ hlast ih =>
      obtain ⟨hsteady, hwrites⟩ := writesAs_of_reorder hlast ih.1
      exact ⟨hsteady, hwrites tree ih.2⟩

theorem ne_null_of_reorders {a b : Value M} (h : Reorders a b) (ha : a ≠ .null) : b ≠ .null := by
  cases h with
  | refl => exact ha
  | tail _ hlast => cases hlast <;> exact nofun

end Value

end TaggedCache

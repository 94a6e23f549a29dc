import Mathlib.Logic.Relation
import TaggedCache.Proofs.Json.FieldOrder
import TaggedCache.Proofs.Json.Injective

namespace TaggedCache.Json.Tree

-- An object at some place in a tree has its fields in another order.
inductive Rearrange : Tree → Tree → Prop
  | fields {fields others : List (String × Tree)} :
      fields.Perm others → Rearrange (.object fields) (.object others)
  | item {before after : List Tree} {item other : Tree} : Rearrange item other →
      Rearrange (.array (before ++ item :: after)) (.array (before ++ other :: after))
  | field {before after : List (String × Tree)} {name : String} {value other : Tree} :
      Rearrange value other →
      Rearrange (.object (before ++ (name, value) :: after))
        (.object (before ++ (name, other) :: after))

-- The same tree up to the order of the fields of its objects, at every depth
def Rearranges : Tree → Tree → Prop := Relation.ReflTransGen Rearrange

theorem canonical_eq_of_rearrange {a b : Tree} (h : Rearrange a b) (ha : a.Distinct) :
    a.canonical = b.canonical := by
  induction h with
  | fields hperm => exact canonical_object_of_perm hperm (distinct_object.mp ha).1
  | @item before after item other h ih =>
      have hsame := ih (distinct_array.mp ha item (by simp))
      have hrefl : List.Forall₂ (fun item other => item.canonical = other.canonical)
          (before ++ other :: after) (before ++ other :: after) :=
        List.forall₂_same.mpr fun _ _ => rfl
      exact canonical_array_eq_iff.mpr (forall₂_replace hrefl fun _ hother => hsame.trans hother)
  | @field before after name value other h ih =>
      have hsame := ih ((distinct_object.mp ha).2 (name, value) (by simp))
      have hrefl : List.Forall₂ (fun field other : String × Tree =>
            field.1 = other.1 ∧ field.2.canonical = other.2.canonical)
          (before ++ (name, other) :: after) (before ++ (name, other) :: after) :=
        List.forall₂_same.mpr fun _ _ => ⟨rfl, rfl⟩
      exact canonical_object_congr
        (forall₂_replace hrefl fun _ hother => ⟨hother.1, hsame.trans hother.2⟩)

-- Items are rearranged one after the other.
theorem rearranges_array {items others : List Tree} (h : List.Forall₂ Rearranges items others) :
    Rearranges (.array items) (.array others) := by
  have hbefore (before : List Tree) :
      Rearranges (.array (before ++ items)) (.array (before ++ others)) := by
    induction h generalizing before with
    | nil => exact .refl
    | @cons item other items others hfirst _ ih =>
        have hitem : Rearranges (.array (before ++ item :: items))
            (.array (before ++ other :: items)) :=
          hfirst.lift (fun tree => array (before ++ tree :: items)) fun _ _ => .item
        have hrest := ih (before ++ [other])
        rw [List.append_assoc, List.append_assoc] at hrest
        exact hitem.trans hrest
  exact hbefore []

theorem rearranges_object {fields others : List (String × Tree)}
    (h : List.Forall₂ (fun field other => field.1 = other.1 ∧ Rearranges field.2 other.2)
      fields others) : Rearranges (.object fields) (.object others) := by
  have hbefore (before : List (String × Tree)) :
      Rearranges (.object (before ++ fields)) (.object (before ++ others)) := by
    induction h generalizing before with
    | nil => exact .refl
    | @cons field other fields others hfirst _ ih =>
        obtain ⟨name, value⟩ := field
        obtain ⟨rfl, hvalue⟩ := hfirst
        have hfield : Rearranges (.object (before ++ (other.1, value) :: fields))
            (.object (before ++ other :: fields)) :=
          hvalue.lift (fun tree => object (before ++ (other.1, tree) :: fields)) fun _ _ => .field
        have hrest := ih (before ++ [other])
        rw [List.append_assoc, List.append_assoc] at hrest
        exact hfield.trans hrest
  exact hbefore []

theorem eq_of_canonical_eq_leaf {leaf tree : Tree} (hleaf : leaf.IsLeaf)
    (h : leaf.canonical = tree.canonical) : tree = leaf := by
  rwa [hleaf.canonical_eq_iff.mpr rfl, eq_comm, hleaf.canonical_eq_iff] at h

theorem rearranges_of_canonical_eq {a b : Tree} (h : a.canonical = b.canonical) :
    Rearranges a b := by
  induction a generalizing b with
  | null | bool | number | string =>
      obtain rfl := eq_of_canonical_eq_leaf (by trivial) h
      exact .refl
  | array items ih =>
      obtain ⟨others, rfl, hothers⟩ := exists_items_of_canonical_eq h
      exact rearranges_array (forall₂_imp_mem hothers fun item hitem other _ => ih item hitem)
  | object fields ih =>
      obtain ⟨others, arranged, rfl, hperm, harranged⟩ := exists_fields_of_canonical_eq h
      have hfields : Rearranges (.object fields) (.object arranged) :=
        rearranges_object (forall₂_imp_mem harranged fun field hfield other _ hsame =>
          ⟨hsame.1, ih field hfield hsame.2⟩)
      exact hfields.tail (.fields hperm)

-- The canonical form tells trees apart that differ in more than the order of fields, and no others.
theorem canonical_eq_iff {a b : Tree} (ha : a.Distinct) :
    a.canonical = b.canonical ↔ Rearranges a b := by
  refine ⟨rearranges_of_canonical_eq, fun h => ?_⟩
  induction h with
  | refl => rfl
  | tail _ hlast ih =>
      exact ih.trans (canonical_eq_of_rearrange hlast (distinct_of_canonical_eq ih.symm ha))

-- Of a leaf there is one order only.
theorem rearranges_leaf_iff {leaf tree : Tree} (h : leaf.IsLeaf) :
    Rearranges leaf tree ↔ tree = leaf := by
  refine ⟨fun hsame => ?_, fun heq => heq ▸ .refl⟩
  exact eq_of_canonical_eq_leaf h ((canonical_eq_iff h.distinct).mpr hsame)

theorem canonical_text_eq_iff {a b : Tree} (ha : a.Distinct) :
    a.canonical.text = b.canonical.text ↔ Rearranges a b := by
  rw [text_injective.eq_iff, canonical_eq_iff ha]

end TaggedCache.Json.Tree

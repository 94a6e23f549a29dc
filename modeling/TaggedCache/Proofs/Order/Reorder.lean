import TaggedCache.Proofs.Order.Value
import TaggedCache.Proofs.Pointwise
import TaggedCache.Value.Tree
import Mathlib.Logic.Relation

namespace TaggedCache

variable {M : ObjectModel}

namespace Value

-- A hash container at some place in a value yields its members in another order.
inductive Reorder : Value M → Value M → Prop
  | members {items others : List (Value M)} : items.Perm others →
      Reorder (collection .unorderedSet items) (collection .unorderedSet others)
  | entries {kind : MapKind} {entries others : List (String × Value M)} :
      isUnordered kind = true → entries.Perm others → Reorder (map kind entries) (map kind others)
  | member {kind : CollectionKind} {before after : List (Value M)} {item other : Value M} :
      Reorder item other →
      Reorder (collection kind (before ++ item :: after))
        (collection kind (before ++ other :: after))
  | entry {kind : MapKind} {before after : List (String × Value M)} {key : String}
      {value other : Value M} : Reorder value other →
      Reorder (map kind (before ++ (key, value) :: after))
        (map kind (before ++ (key, other) :: after))

-- The same value, whatever the order in which its hash containers yield their members
def Reorders : Value M → Value M → Prop := Relation.ReflTransGen Reorder

-- A container at some place in a value was filled in another order: a hash container, or a map
-- that keeps its keys as they came.
inductive Refill : Value M → Value M → Prop
  | members {items others : List (Value M)} : items.Perm others →
      Refill (collection .unorderedSet items) (collection .unorderedSet others)
  | entries {kind : MapKind} {entries others : List (String × Value M)} :
      kind ≠ .sorted → entries.Perm others → Refill (map kind entries) (map kind others)
  | member {kind : CollectionKind} {before after : List (Value M)} {item other : Value M} :
      Refill item other →
      Refill (collection kind (before ++ item :: after))
        (collection kind (before ++ other :: after))
  | entry {kind : MapKind} {before after : List (String × Value M)} {key : String}
      {value other : Value M} : Refill value other →
      Refill (map kind (before ++ (key, value) :: after))
        (map kind (before ++ (key, other) :: after))

-- The same value, whatever the order in which its containers were filled
def Refills : Value M → Value M → Prop := Relation.ReflTransGen Refill

theorem refill_of_reorder {a b : Value M} (h : Reorder a b) : Refill a b := by
  induction h with
  | members hperm => exact .members hperm
  | entries hkind hperm => exact .entries (by rintro rfl; contradiction) hperm
  | member _ ih => exact .member ih
  | entry _ ih => exact .entry ih

theorem refills_of_reorders {a b : Value M} (h : Reorders a b) : Refills a b :=
  h.lift id fun _ _ => refill_of_reorder

theorem proper_members_perm {items others : List (Value M)} (h : items.Perm others)
    (hproper : Collection.Proper ⟨.unorderedSet, items⟩) :
    Collection.Proper ⟨.unorderedSet, others⟩ :=
  (h.pairwise_iff fun hne heq => hne (Std.OrientedCmp.eq_comm.mp heq)).mp hproper

-- Another order leaves a value equal.
theorem wellFormed_of_refill {a b : Value M} (h : Refill a b) (ha : a.WellFormed) :
    b.WellFormed ∧ a.arrangement = b.arrangement := by
  induction h with
  | members hperm =>
      obtain ⟨hproper, hitems⟩ := wellFormed_collection.mp ha
      refine ⟨wellFormed_collection.mpr ⟨proper_members_perm hperm hproper,
        fun item hitem => hitems item (hperm.mem_iff.mpr hitem)⟩, ?_⟩
      rw [arrangement, arrangement, if_pos rfl, if_pos rfl, arrangements_eq, arrangements_eq,
        Assoc.mergeSort_eq_of_perm (hperm.map _) fun _ _ _ _ => Arrangement.eq_of_compare_eq]
  | @entries kind entries others hkind hperm =>
      obtain ⟨hproper, hentries⟩ := wellFormed_map.mp ha
      have hkeys : (Assoc.keys (arrangedEntries entries)).Nodup :=
        keys_arrangedEntries entries ▸ hproper.1
      refine ⟨wellFormed_map.mpr ⟨⟨(hperm.map Prod.fst).nodup_iff.mp hproper.1,
        fun hsorted => absurd hsorted hkind⟩,
        fun entry hentry => hentries entry (hperm.mem_iff.mpr hentry)⟩, ?_⟩
      rw [arrangement, arrangement, Assoc.sorted_eq_of_perm (arrangedEntries_perm hperm) hkeys]
  | @member kind before after item other h ih =>
      obtain ⟨hproper, hitems⟩ := wellFormed_collection.mp ha
      obtain ⟨hother, heq⟩ := ih (hitems item (by simp))
      have harranged : (before ++ item :: after).map arrangement =
          (before ++ other :: after).map arrangement := by simp [heq]
      exact ⟨wellFormed_collection.mpr
          ⟨Collection.proper_congr harranged hproper, forall_mem_replace hitems hother⟩,
        arrangement_collection_congr harranged⟩
  | @entry kind before after key value other h ih =>
      obtain ⟨hproper, hentries⟩ := wellFormed_map.mp ha
      obtain ⟨hother, heq⟩ := ih (hentries (key, value) (by simp))
      refine ⟨wellFormed_map.mpr ⟨by simpa [Keyed.Proper, Keyed.keys] using hproper, ?_⟩, ?_⟩
      · exact forall_mem_replace hentries hother
      · simp [arrangement, arrangedEntries_eq, heq]

theorem wellFormed_of_refills {a b : Value M} (h : Refills a b) (ha : a.WellFormed) :
    b.WellFormed ∧ a.arrangement = b.arrangement := by
  induction h with
  | refl => exact ⟨ha, rfl⟩
  | tail _ hlast ih =>
      obtain ⟨hwellFormed, heq⟩ := wellFormed_of_refill hlast ih.1
      exact ⟨hwellFormed, ih.2.trans heq⟩

theorem wellFormed_of_reorder {a b : Value M} (h : Reorder a b) (ha : a.WellFormed) :
    b.WellFormed ∧ a.arrangement = b.arrangement :=
  wellFormed_of_refill (refill_of_reorder h) ha

-- The leaves of a value are the same in every order.
theorem every_iff_of_reorder {p : Value M → Prop}
    (hcollection : ∀ kind items, p (collection kind items))
    (hmap : ∀ kind entries, p (map kind entries)) {a b : Value M} (h : Reorder a b) :
    a.Every p ↔ b.Every p := by
  induction h with
  | members hperm => simp only [every_collection, hcollection, true_and, hperm.mem_iff]
  | entries hkind hperm => simp only [every_map, hmap, true_and, hperm.mem_iff]
  | member h ih =>
      simp only [every_collection, hcollection, true_and, List.forall_mem_append,
        List.forall_mem_cons, ih]
  | entry h ih =>
      simp only [every_map, hmap, true_and, List.forall_mem_append, List.forall_mem_cons, ih]

theorem every_iff_of_reorders {p : Value M → Prop}
    (hcollection : ∀ kind items, p (collection kind items))
    (hmap : ∀ kind entries, p (map kind entries)) {a b : Value M} (h : Reorders a b) :
    a.Every p ↔ b.Every p := by
  induction h with
  | refl => rfl
  | tail _ hlast ih => exact ih.trans (every_iff_of_reorder hcollection hmap hlast)

theorem mem_objects_iff_of_reorders {a b : Value M} (h : Reorders a b) (object : Object M) :
    object ∈ a.objects ↔ object ∈ b.objects := by
  have hevery (value : Value M) :
      object ∈ value.objects ↔ ¬value.Every (· ≠ .object object) := by
    simp [mem_objects, Every]
  rw [hevery, hevery, every_iff_of_reorders (by simp) (by simp) h]

-- There is one order only in which an object can be.
theorem eq_of_reorders_object {value : Object M} {other : Value M}
    (h : Reorders (object value) other) : other = object value := by
  induction h with
  | refl => rfl
  | tail _ hlast ih =>
      subst ih
      cases hlast

theorem reorders_member {kind : CollectionKind} {item other : Value M} (h : Reorders item other)
    (before after : List (Value M)) :
    Reorders (collection kind (before ++ item :: after))
      (collection kind (before ++ other :: after)) :=
  h.lift (fun value => collection kind (before ++ value :: after)) fun _ _ => .member

-- A list stays in order, and its members are reordered on their own.
theorem exists_of_reorders_list {items : List (Value M)} {other : Value M}
    (h : Reorders (collection .list items) other) :
    ∃ others, other = collection .list others ∧ List.Forall₂ Reorders items others := by
  induction h with
  | refl => exact ⟨items, rfl, List.forall₂_same.mpr fun _ _ => .refl⟩
  | tail _ hlast ih =>
      obtain ⟨others, rfl, hothers⟩ := ih
      cases hlast with
      | member hmember =>
          have hreplaced := forall₂_replace hothers.flip fun item horder => horder.tail hmember
          exact ⟨_, rfl, hreplaced.flip⟩

end Value

end TaggedCache

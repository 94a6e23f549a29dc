import TaggedCache.Proofs.Order.Hashing
import Mathlib.Data.List.Induction

namespace TaggedCache

open Arrangement (Word)

variable {M : ObjectModel}

-- The kinds of collection that are sets
inductive SetKind where
  | unordered
  | ordered
  | sorted

namespace SetKind

def toKind : SetKind → CollectionKind
  | unordered => .unorderedSet
  | ordered => .orderedSet
  | sorted => .sortedSet

instance : Coe SetKind CollectionKind := ⟨toKind⟩

theorem isSet_iff {kind : CollectionKind} : kind.isSet = true ↔ ∃ set : SetKind, set = kind := by
  constructor
  · intro h
    cases kind with
    | list | linkedList => contradiction
    | unorderedSet => exact ⟨unordered, rfl⟩
    | orderedSet => exact ⟨ordered, rfl⟩
    | sortedSet => exact ⟨sorted, rfl⟩
  · rintro ⟨set, rfl⟩
    cases set <;> rfl

theorem isSet (set : SetKind) : set.toKind.isSet = true := isSet_iff.mpr ⟨set, rfl⟩

end SetKind

namespace Collection

theorem contains_iff {c : Collection M} {value : Value M} :
    c.contains value ↔ ∃ member ∈ c.items, member.equal value := by
  rw [contains, Distinct.holds_iff]
  refine exists_congr fun member => and_congr_right fun _ => ?_
  rw [Value.equal_iff, Value.compare_eq_eq_iff, eq_comm]

theorem contains_perm {c d : Collection M} (h : c.items.Perm d.items) (value : Value M) :
    c.contains value = d.contains value :=
  Distinct.holds_perm h

theorem accepts_of_isSet {c : Collection M} (h : c.kind.isSet = true) (value : Value M) :
    c.accepts value = !c.contains value := by
  rw [accepts, h, Bool.not_true, Bool.false_or]

-- A set of any kind takes a new value as its only new member, and leaves out any other.
theorem insert_perm {c : Collection M} (h : c.kind.isSet = true) (hproper : c.Proper)
    (value : Value M) :
    (c.insert value).items.Perm (if c.contains value then c.items else value :: c.items) := by
  obtain ⟨kind, items⟩ := c
  cases kind with
  | list | linkedList => contradiction
  | unorderedSet | orderedSet => exact Distinct.insert_perm value items
  | sortedSet => exact Distinct.insertSorted_perm value hproper

-- So sets of two kinds that hold the same members still do after the same insertions.
theorem insert_perm_insert {c d : Collection M} (hc : c.kind.isSet = true)
    (hd : d.kind.isSet = true) (hproperC : c.Proper) (hproperD : d.Proper)
    (h : c.items.Perm d.items) (value : Value M) :
    (c.insert value).items.Perm (d.insert value).items := by
  refine (insert_perm hc hproperC value).trans (.trans ?_ (insert_perm hd hproperD value).symm)
  rw [contains_perm h value]
  split
  · exact h
  · exact h.cons value

theorem extend_perm_extend {c d : Collection M} (hc : c.kind.isSet = true)
    (hd : d.kind.isSet = true) (hproperC : c.Proper) (hproperD : d.Proper)
    (h : c.items.Perm d.items) (values : List (Value M)) :
    (c.extend values).items.Perm (d.extend values).items := by
  induction values generalizing c d with
  | nil => exact h
  | cons value rest ih =>
      exact ih (c := c.insert value) (d := d.insert value) hc hd (proper_insert hproperC value)
        (proper_insert hproperD value) (insert_perm_insert hc hd hproperC hproperD h value)

theorem ofList_perm_ofList (kind other : SetKind) (values : List (Value M)) :
    (ofList kind values).items.Perm (ofList other values).items :=
  extend_perm_extend (c := empty kind) (d := empty other) kind.isSet other.isSet
    (proper_ofList kind []) (proper_ofList other []) (.refl _) values

end Collection

namespace Value

instance : BEq (Value M) := ⟨equal⟩

instance : EquivBEq (Value M) where
  rfl := equal_iff.mpr rfl
  symm hab := equal_iff.mpr (equal_iff.mp hab).symm
  trans hab hbc := equal_iff.mpr ((equal_iff.mp hab).trans (equal_iff.mp hbc))

instance : Std.LawfulBEqCmp (compare (M := M)) where
  compare_eq_iff_beq := Ordering.isEq_iff_eq_eq.symm

theorem contains_eq_holds (value : Value M) (items : List (Value M)) :
    items.contains value = Distinct.holds compare value items := by
  rw [List.contains_eq_any_beq]
  rfl

end Value

-- The last value is left out exactly if it has arrived before.
theorem eraseDups_append_singleton {α : Type} [BEq α] (values : List α) (value : α) :
    (values ++ [value]).eraseDups =
      if values.eraseDups.any (value == ·) then values.eraseDups
      else values.eraseDups ++ [value] := by
  induction hlength : values.length using Nat.strong_induction_on generalizing values with
  | _ length ih =>
      subst hlength
      cases values with
      | nil => simp [List.eraseDups_cons]
      | cons first rest =>
          have hshorter : (rest.filter fun other => !other == first).length <
              (first :: rest).length := Nat.lt_succ_of_le (List.length_filter_le _ _)
          rw [List.cons_append, List.eraseDups_cons, List.eraseDups_cons, List.filter_append,
            List.any_cons]
          by_cases hfirst : value == first
          · simp [hfirst]
          · rw [List.filter_cons_of_pos (by simpa using hfirst), List.filter_nil,
              ih _ hshorter _ rfl]
            simp only [hfirst, Bool.false_or]
            split
            · rfl
            · exact (List.cons_append ..).symm

namespace Collection

theorem ofList_append_singleton (kind : CollectionKind) (values : List (Value M))
    (value : Value M) : ofList kind (values ++ [value]) = (ofList kind values).insert value := by
  simp [ofList, extend]

theorem ofList_eq (kind : CollectionKind) (values : List (Value M)) :
    ofList kind values = ⟨kind, (ofList kind values).items⟩ :=
  congrArg (Collection.mk · (ofList kind values).items) (ofList_kind kind values)

theorem ascending_ofList (values : List (Value M)) :
    (ofList .sortedSet values).items.Pairwise fun a b => Value.compare a b = .lt := by
  have hproper := proper_ofList .sortedSet values
  rwa [ofList_eq] at hproper

-- An ordered set lists its members as they first came.
theorem ofList_orderedSet (values : List (Value M)) :
    (ofList .orderedSet values).items = values.eraseDups := by
  induction values using List.reverseRecOn with
  | nil => rfl
  | append_singleton values value ih =>
      rw [ofList_append_singleton, insert, ofList_kind, eraseDups_append_singleton, ← ih]
      rfl

end Collection

-- What a hasher makes of the words that it is fed
class Hasher where
  digest : List Word → UInt64

instance [Hasher] : Hashable (Value M) := ⟨fun value => Hasher.digest value.hashWords⟩

instance [Hasher] : LawfulHashable (Value M) where
  hash_eq _ _ heq := congrArg Hasher.digest (Value.hashWords_eq_iff.mpr heq)

-- A set that has its own means to find a member: by its hash, by its hash among the places in
-- the order of arrival, or by comparing on the way down an ordered tree
inductive SearchSet (M : ObjectModel) [Hasher] : SetKind → Type where
  | hashed (members : Std.HashSet (Value M)) : SearchSet M .unordered
  | indexed (members : List (Value M)) (places : UInt64 → List Nat) : SearchSet M .ordered
  | tree (members : Std.TreeSet (Value M) Value.compare) : SearchSet M .sorted

namespace SearchSet

variable [Hasher] {kind : SetKind}

def empty : (kind : SetKind) → SearchSet M kind
  | .unordered => hashed ∅
  | .ordered => indexed [] fun _ => []
  | .sorted => tree ∅

-- The members in the order in which the set yields them
def items : SearchSet M kind → List (Value M)
  | hashed members => members.toList
  | indexed members _ => members
  | tree members => members.toList

def finds (value : Value M) : SearchSet M kind → Bool
  | hashed members => members.contains value
  | indexed members places =>
      (places (hash value)).any fun place => members[place]?.any (value.equal ·)
  | tree members => members.contains value

-- Insert a value unless an equal one is found, and say whether it was new
def insert (value : Value M) : SearchSet M kind → Bool × SearchSet M kind
  | hashed members =>
      let (found, members) := members.containsThenInsert value
      (!found, hashed members)
  | indexed members places =>
      if finds value (indexed members places) then (false, indexed members places)
      else
        (true, indexed (members ++ [value]) fun digest =>
          if digest = hash value then members.length :: places digest else places digest)
  | tree members =>
      let (found, members) := members.containsThenInsert value
      (!found, tree members)

def ofList (kind : SetKind) (values : List (Value M)) : SearchSet M kind :=
  values.foldl (fun set value => (set.insert value).2) (empty kind)

theorem insert_hashed (members : Std.HashSet (Value M)) (value : Value M) :
    (hashed members).insert value =
      (!members.contains value, hashed (members.insert value)) := by
  rw [insert, ← Std.HashSet.containsThenInsert_fst, ← Std.HashSet.containsThenInsert_snd]

theorem insert_tree (members : Std.TreeSet (Value M) Value.compare) (value : Value M) :
    (tree members).insert value = (!members.contains value, tree (members.insert value)) := by
  rw [insert, ← Std.TreeSet.containsThenInsert_fst, ← Std.TreeSet.containsThenInsert_snd]

-- Each place is known under the hash of the member that has it.
def Filed (members : List (Value M)) (places : UInt64 → List Nat) : Prop :=
  ∀ digest place, place ∈ places digest ↔
    ∃ member, members[place]? = some member ∧ hash member = digest

theorem filed_append {members : List (Value M)} {places : UInt64 → List Nat}
    (h : Filed members places) (value : Value M) :
    Filed (members ++ [value]) fun digest =>
      if digest = hash value then members.length :: places digest else places digest := by
  intro digest place
  dsimp only
  rcases Nat.lt_trichotomy place members.length with hlt | rfl | hgt
  · rw [List.getElem?_append_left hlt, ← h digest place]
    split
    · rw [List.mem_cons, or_iff_right hlt.ne]
    · rfl
  · have hnew : members.length ∉ places digest := by
      rw [h digest]
      simp
    rw [List.getElem?_concat_length]
    by_cases hdigest : digest = hash value
    · simp [hdigest]
    · simp [hdigest, hnew, Ne.symm hdigest]
  · have hnone : (members ++ [value])[place]? = none :=
      List.getElem?_eq_none (by simpa using Nat.succ_le_of_lt hgt)
    have hnew : place ∉ places digest := by
      rw [h digest, List.getElem?_eq_none hgt.le]
      simp
    rw [hnone]
    split
    · simp [hnew, hgt.ne']
    · simp [hnew]

-- A search set holds these members. A hash set may yield them in any order.
def Holds : SearchSet M kind → List (Value M) → Prop
  | hashed members, items => members.toList.Perm items
  | indexed members places, items => members = items ∧ Filed members places
  | tree members, items => members.toList = items

-- Whichever way a set searches, it finds what it holds.
theorem finds_eq_holds {set : SearchSet M kind} {items : List (Value M)} (h : set.Holds items)
    (value : Value M) : set.finds value = Distinct.holds Value.compare value items := by
  cases set with
  | hashed members =>
      rw [finds, ← Std.HashSet.contains_toList, Value.contains_eq_holds]
      exact Distinct.holds_perm h
  | indexed members places =>
      obtain ⟨rfl, hplaces⟩ := h
      rw [Bool.eq_iff_iff, finds, List.any_eq_true, Distinct.holds_iff]
      constructor
      · rintro ⟨place, -, hfound⟩
        obtain ⟨member, hmember, heq⟩ := (Option.any_eq_true _ _).mp hfound
        exact ⟨member, List.mem_of_getElem? hmember, Ordering.isEq_iff_eq_eq.mp heq⟩
      · rintro ⟨member, hmember, heq⟩
        obtain ⟨place, hplace⟩ := List.getElem?_of_mem hmember
        have hequal : value.equal member := Ordering.isEq_iff_eq_eq.mpr heq
        refine ⟨place, (hplaces _ _).mpr ⟨member, hplace, ?_⟩, by simpa [hplace] using hequal⟩
        exact (LawfulHashable.hash_eq value member hequal).symm
  | tree members =>
      obtain rfl : members.toList = items := h
      rw [finds, ← Std.TreeSet.contains_toList, Value.contains_eq_holds]

-- So an insertion answers like that of a collection, and it leaves the same members.
theorem holds_insert {set : SearchSet M kind} {items : List (Value M)} (h : set.Holds items)
    (hproper : Collection.Proper ⟨kind, items⟩) (value : Value M) :
    (set.insert value).1 = Collection.accepts ⟨kind, items⟩ value ∧
      (set.insert value).2.Holds (Collection.insert ⟨kind, items⟩ value).items := by
  have hfinds := finds_eq_holds h value
  have hinsert := Collection.insert_perm (c := ⟨kind, items⟩) kind.isSet hproper value
  rw [Collection.accepts_of_isSet kind.isSet]
  rw [Collection.contains, ← hfinds] at hinsert ⊢
  cases set with
  | hashed members =>
      rw [insert_hashed]
      refine ⟨rfl, Std.HashSet.toList_insert_perm.trans (.trans ?_ hinsert.symm)⟩
      rw [finds]
      by_cases hfound : value ∈ members
      · rw [if_pos hfound, if_pos (Std.HashSet.mem_iff_contains.mp hfound)]
        exact h
      · rw [if_neg hfound, if_neg (mt Std.HashSet.mem_iff_contains.mpr hfound)]
        exact h.cons value
  | indexed members places =>
      obtain ⟨rfl, hplaces⟩ := h
      rw [insert]
      split
      · rename_i hfound
        rw [hfinds] at hfound
        exact ⟨by rw [hfinds, hfound]; rfl, (if_pos hfound).symm, hplaces⟩
      · rename_i hnew
        rw [hfinds] at hnew
        exact ⟨by simpa [hfinds] using hnew, (if_neg hnew).symm, filed_append hplaces value⟩
  | tree members =>
      obtain rfl : members.toList = items := h
      rw [insert_tree]
      refine ⟨rfl, ?_⟩
      have hperm : (members.insert value).toList.Perm
          (Collection.insert ⟨.sortedSet, members.toList⟩ value).items := by
        refine Std.TreeSet.toList_insert_perm.trans (.trans ?_ hinsert.symm)
        simp only [finds, Std.TreeSet.mem_iff_contains]
        rfl
      refine hperm.eq_of_pairwise (fun a b _ _ hab hba => ?_) Std.TreeSet.ordered_toList
        (Collection.proper_insert hproper value)
      exact absurd hba (Std.OrientedCmp.not_lt_of_lt hab)

theorem holds_foldl_insert {set : SearchSet M kind} {items : List (Value M)} (h : set.Holds items)
    (hproper : Collection.Proper ⟨kind, items⟩) (values : List (Value M)) :
    (values.foldl (fun set value => (set.insert value).2) set).Holds
      (Collection.extend ⟨kind, items⟩ values).items := by
  induction values generalizing set items with
  | nil => exact h
  | cons value rest ih =>
      exact ih (holds_insert h hproper value).2 (Collection.proper_insert hproper value)

theorem holds_ofList (kind : SetKind) (values : List (Value M)) :
    (ofList kind values).Holds (Collection.ofList kind values).items := by
  refine holds_foldl_insert ?_ (Collection.proper_ofList kind []) values
  cases kind with
  | unordered => exact .of_eq Std.HashSet.toList_empty
  | ordered => exact ⟨rfl, by simp [Filed]⟩
  | sorted => rfl

theorem items_perm {set : SearchSet M kind} {items : List (Value M)} (h : set.Holds items) :
    set.items.Perm items := by
  cases set with
  | hashed => exact h
  | indexed => exact .of_eq h.1
  | tree => exact .of_eq h

theorem items_eq {set : SearchSet M kind} {items : List (Value M)} (h : set.Holds items)
    (hkind : kind ≠ .unordered) : set.items = items := by
  cases set with
  | hashed => contradiction
  | indexed => exact h.1
  | tree => exact h

end SearchSet

namespace Collection

-- Sets of all kinds that were filled with the same values hold the same members, no two of them
-- equal, and they answer the next insertion and every search alike: a value is new unless a member
-- is equal. The three ways to search lead to the same members and answers. An ordered set lists
-- its members as they first came, a sorted one ascending.
theorem sets_agree [Hasher] (kind other : SetKind) (values : List (Value M)) :
    ((ofList kind values).items.Perm (ofList other values).items ∧
      (ofList kind values).items.Pairwise fun a b => a.equal b = false) ∧
    ((ofList SetKind.ordered values).items = values.eraseDups ∧
      (SearchSet.ofList .ordered values).items = (ofList SetKind.ordered values).items) ∧
    ((ofList SetKind.sorted values).items.Pairwise (fun a b => Value.compare a b = .lt) ∧
      (SearchSet.ofList .sorted values).items = (ofList SetKind.sorted values).items) ∧
    ∀ value,
      ((ofList kind values).accepts value = (ofList other values).accepts value ∧
        ((ofList kind values).accepts value ↔
          ∀ member ∈ (ofList kind values).items, member.equal value = false)) ∧
      ((ofList kind values).contains value = (ofList other values).contains value ∧
        ((ofList kind values).contains value ↔
          ∃ member ∈ (ofList kind values).items, member.equal value)) ∧
      ((SearchSet.ofList kind values).items.Perm (ofList kind values).items ∧
        ((SearchSet.ofList kind values).insert value).1 = (ofList kind values).accepts value ∧
        (SearchSet.ofList kind values).finds value = (ofList kind values).contains value) := by
  have hset (kind : SetKind) : (ofList (M := M) kind values).kind.isSet = true :=
    (ofList_kind kind.toKind values).symm ▸ kind.isSet
  have hproper := proper_ofList (M := M) kind values
  have hperm := ofList_perm_ofList kind other values
  have hholds := SearchSet.holds_ofList kind values
  refine ⟨⟨hperm, distinct_of_proper (hset kind) hproper⟩,
    ⟨ofList_orderedSet values, SearchSet.items_eq (SearchSet.holds_ofList _ values) nofun⟩,
    ⟨ascending_ofList values, SearchSet.items_eq (SearchSet.holds_ofList _ values) nofun⟩,
    fun value => ?_⟩
  have hsame := contains_perm hperm value
  have haccepts := accepts_of_isSet (hset kind) value
  have hinsert := (SearchSet.holds_insert hholds (ofList_eq kind values ▸ hproper) value).1
  rw [← ofList_eq] at hinsert
  refine ⟨⟨?_, ?_⟩, ⟨hsame, contains_iff⟩, SearchSet.items_perm hholds, hinsert,
    SearchSet.finds_eq_holds hholds value⟩
  · rw [haccepts, accepts_of_isSet (hset other), hsame]
  · rw [haccepts, Bool.not_eq_true', ← Bool.not_eq_true, contains_iff]
    simp

end Collection

end TaggedCache

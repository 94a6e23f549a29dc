import TaggedCache.Proofs.Order.Reorder

namespace TaggedCache

open Arrangement (Word)

variable {M : ObjectModel}

namespace Arrangement

theorem scalarWords_append_inj {value other : Scalar} {s t : List Word}
    (h : scalarWords value ++ s = scalarWords other ++ t) : value = other ∧ s = t := by
  simp only [scalarWords, List.cons_append, List.cons.injEq, Word.number.injEq,
    Int.ofNat_inj] at h
  obtain ⟨hrank, h⟩ := h
  cases value with
  | bool value =>
      cases other with
      | bool other => cases value <;> cases other <;> simp_all
      | _ => simp [Scalar.rank] at hrank
  | int value =>
      cases other with
      | int other => simpa [Int64.toInt_inj] using h
      | _ => simp [Scalar.rank] at hrank
  | uint value =>
      cases other with
      | uint other => simpa [UInt64.toNat_inj] using h
      | _ => simp [Scalar.rank] at hrank
  | float value =>
      cases other with
      | float other =>
          obtain ⟨bits⟩ := value
          obtain ⟨otherBits⟩ := other
          simpa [UInt64.toNat_inj] using h
      | _ => simp [Scalar.rank] at hrank
  | string value =>
      cases other with
      | string other => simpa using h
      | _ => simp [Scalar.rank] at hrank

-- The words of an arrangement are told apart from whatever follows them.
def FeedsFirst (a : Arrangement) : Prop :=
  ∀ b s t, a.words ++ s = b.words ++ t → a = b ∧ s = t

theorem wordsOfItems_append_inj {items others : List Arrangement}
    (h : ∀ item ∈ items, item.FeedsFirst) (hlength : items.length = others.length)
    {s t : List Word} (hwords : wordsOfItems items ++ s = wordsOfItems others ++ t) :
    items = others ∧ s = t := by
  induction items generalizing others with
  | nil =>
      cases List.length_eq_zero_iff.mp hlength.symm
      exact ⟨rfl, hwords⟩
  | cons item items ih =>
      cases others with
      | nil => contradiction
      | cons other others =>
          simp only [wordsOfItems, List.append_assoc] at hwords
          obtain ⟨rfl, hrest⟩ := h item List.mem_cons_self other _ _ hwords
          obtain ⟨rfl, htail⟩ := ih (fun item hitem => h item (List.mem_cons_of_mem _ hitem))
            (Nat.succ.inj hlength) hrest
          exact ⟨rfl, htail⟩

theorem wordsOfEntries_append_inj {entries others : List (String × Arrangement)}
    (h : ∀ entry ∈ entries, entry.2.FeedsFirst) (hlength : entries.length = others.length)
    {s t : List Word} (hwords : wordsOfEntries entries ++ s = wordsOfEntries others ++ t) :
    entries = others ∧ s = t := by
  induction entries generalizing others with
  | nil =>
      cases List.length_eq_zero_iff.mp hlength.symm
      exact ⟨rfl, hwords⟩
  | cons entry entries ih =>
      cases others with
      | nil => contradiction
      | cons other others =>
          obtain ⟨key, value⟩ := entry
          obtain ⟨otherKey, otherValue⟩ := other
          simp only [wordsOfEntries, List.cons_append, List.append_assoc, List.cons.injEq,
            Word.text.injEq] at hwords
          obtain ⟨rfl, hwords⟩ := hwords
          obtain ⟨rfl, hrest⟩ := h (key, value) List.mem_cons_self otherValue _ _ hwords
          obtain ⟨rfl, htail⟩ := ih (fun entry hentry => h entry (List.mem_cons_of_mem _ hentry))
            (Nat.succ.inj hlength) hrest
          exact ⟨rfl, htail⟩

theorem feedsFirst (a : Arrangement) : a.FeedsFirst := by
  intro b s t h
  induction a generalizing b s t with
  | null =>
      cases b with
      | null => exact ⟨rfl, by simpa [words] using h⟩
      | _ => simp [words] at h
  | scalar value =>
      cases b with
      | scalar other =>
          simp only [words, List.cons_append, List.cons.injEq, true_and] at h
          obtain ⟨rfl, hrest⟩ := scalarWords_append_inj h
          exact ⟨rfl, hrest⟩
      | _ => simp [words] at h
  | object typeName text =>
      cases b with
      | object otherName otherText => simpa [words, and_assoc] using h
      | _ => simp [words] at h
  | collection kind items ih =>
      cases b with
      | collection otherKind others =>
          simp only [words, List.cons_append, List.cons.injEq, Word.number.injEq, Int.ofNat_inj,
            true_and] at h
          obtain ⟨hkind, hlength, hwords⟩ := h
          obtain ⟨rfl, hrest⟩ := wordsOfItems_append_inj ih hlength hwords
          rw [CollectionKind.eq_of_rank_eq hkind]
          exact ⟨rfl, hrest⟩
      | _ => simp [words] at h
  | map kind entries ih =>
      cases b with
      | map otherKind others =>
          simp only [words, List.cons_append, List.cons.injEq, Word.number.injEq, Int.ofNat_inj,
            true_and] at h
          obtain ⟨hkind, hlength, hwords⟩ := h
          obtain ⟨rfl, hrest⟩ := wordsOfEntries_append_inj ih hlength hwords
          rw [MapKind.eq_of_rank_eq hkind]
          exact ⟨rfl, hrest⟩
      | _ => simp [words] at h

end Arrangement

namespace Value

-- Values feed a hasher the same words exactly if they are equal.
theorem hashWords_eq_iff {a b : Value M} : a.hashWords = b.hashWords ↔ a.equal b := by
  rw [equal_iff]
  constructor
  · intro h
    have hwords : a.arrangement.words ++ [] = b.arrangement.words ++ [] := congrArg (· ++ []) h
    exact (Arrangement.feedsFirst a.arrangement _ _ _ hwords).1
  · exact congrArg Arrangement.words

end Value

namespace Collection

-- A collection holds a value if one of those it was filled with is equal.
theorem contains_ofList_iff {kind : CollectionKind} {values : List (Value M)} {value : Value M} :
    (ofList kind values).contains value ↔ ∃ member ∈ values, value.equal member := by
  simp only [contains, Distinct.holds_iff, Value.equal, Ordering.isEq_iff_eq_eq]
  constructor
  · rintro ⟨member, hmember, heq⟩
    exact ⟨member, mem_of_mem_ofList hmember, heq⟩
  · rintro ⟨member, hmember, heq⟩
    obtain ⟨kept, hkept, hsame⟩ := exists_eq_mem_ofList kind hmember
    exact ⟨kept, hkept, Std.TransCmp.eq_trans heq hsame⟩

end Collection

-- Values in slots. The words that a value feeds to a hasher say which slot is its own.
structure HashTable (M : ObjectModel) where
  slotOf : List Word → Nat
  slots : Nat → List (Value M)

namespace HashTable

def empty (slotOf : List Word → Nat) : HashTable M := ⟨slotOf, fun _ => []⟩

-- The slot in which a value is looked for
def own (table : HashTable M) (value : Value M) : Nat := table.slotOf value.hashWords

-- Whether the slot of a value holds an equal one. No other slot is searched.
def finds (table : HashTable M) (value : Value M) : Bool :=
  (table.slots (table.own value)).any value.equal

-- Put a value into its slot, unless an equal one is found there
def insert (table : HashTable M) (value : Value M) : HashTable M :=
  if table.finds value then table
  else
    { table with
      slots := fun slot =>
        if slot = table.own value then value :: table.slots slot else table.slots slot }

def ofList (slotOf : List Word → Nat) (values : List (Value M)) : HashTable M :=
  values.foldl insert (empty slotOf)

def Stores (table : HashTable M) (value : Value M) : Prop :=
  ∃ slot, value ∈ table.slots slot

-- Each value stands in its own slot.
def Filed (table : HashTable M) : Prop :=
  ∀ slot, ∀ value ∈ table.slots slot, slot = table.own value

-- Equal values have the same slot, so looking into that one is enough.
theorem finds_iff {table : HashTable M} (h : table.Filed) {value : Value M} :
    table.finds value ↔ ∃ member, table.Stores member ∧ value.equal member := by
  rw [finds, List.any_eq_true]
  constructor
  · rintro ⟨member, hmember, heq⟩
    exact ⟨member, ⟨_, hmember⟩, heq⟩
  · rintro ⟨member, ⟨slot, hmember⟩, heq⟩
    have hslot : slot = table.own value := by
      rw [h slot member hmember, own, own, Value.hashWords_eq_iff.mpr heq]
    exact ⟨member, hslot ▸ hmember, heq⟩

theorem slotOf_insert (table : HashTable M) (value : Value M) :
    (table.insert value).slotOf = table.slotOf := by
  rw [insert]
  split <;> rfl

theorem filed_empty (slotOf : List Word → Nat) : (empty slotOf : HashTable M).Filed :=
  fun _ _ h => absurd h List.not_mem_nil

theorem filed_insert {table : HashTable M} (h : table.Filed) (value : Value M) :
    (table.insert value).Filed := by
  intro slot member hmember
  rw [own, slotOf_insert, ← own]
  rw [insert] at hmember
  split at hmember
  · exact h slot member hmember
  · simp only at hmember
    split at hmember
    · rename_i hslot
      rcases List.mem_cons.mp hmember with rfl | hmember
      · exact hslot
      · exact h slot member hmember
    · exact h slot member hmember

-- What a table stores after an insertion, up to equal values
theorem exists_stores_insert_iff {table : HashTable M} (h : table.Filed) {value other : Value M} :
    (∃ member, (table.insert value).Stores member ∧ other.equal member) ↔
      other.equal value ∨ ∃ member, table.Stores member ∧ other.equal member := by
  by_cases hfound : table.finds value
  · obtain ⟨member, hmember, heq⟩ := (finds_iff h).mp hfound
    rw [insert, if_pos hfound]
    refine ⟨.inr, fun hother => hother.elim (fun hother => ⟨member, hmember, ?_⟩) id⟩
    exact Value.equal_iff.mpr ((Value.equal_iff.mp hother).trans (Value.equal_iff.mp heq))
  · rw [insert, if_neg hfound]
    constructor
    · rintro ⟨member, ⟨slot, hmember⟩, heq⟩
      simp only at hmember
      split at hmember
      · rcases List.mem_cons.mp hmember with rfl | hmember
        · exact .inl heq
        · exact .inr ⟨member, ⟨slot, hmember⟩, heq⟩
      · exact .inr ⟨member, ⟨slot, hmember⟩, heq⟩
    · rintro (heq | ⟨member, ⟨slot, hmember⟩, heq⟩)
      · exact ⟨value, ⟨table.own value, by simp⟩, heq⟩
      · refine ⟨member, ⟨slot, ?_⟩, heq⟩
        simp only
        split
        · exact List.mem_cons_of_mem _ hmember
        · exact hmember

theorem filed_foldl_insert {table : HashTable M} (h : table.Filed) (values : List (Value M)) :
    (values.foldl insert table).Filed := by
  induction values generalizing table with
  | nil => exact h
  | cons value rest ih => exact ih (filed_insert h value)

theorem exists_stores_foldl_insert_iff {table : HashTable M} (h : table.Filed)
    {values : List (Value M)} {value : Value M} :
    (∃ member, (values.foldl insert table).Stores member ∧ value.equal member) ↔
      (∃ member ∈ values, value.equal member) ∨
        ∃ member, table.Stores member ∧ value.equal member := by
  induction values generalizing table with
  | nil => simp
  | cons first rest ih =>
      rw [List.foldl_cons, ih (filed_insert h first), exists_stores_insert_iff h]
      simp only [List.exists_mem_cons_iff]
      rw [← or_assoc, or_comm (b := value.equal first = true)]

theorem finds_ofList_iff {slotOf : List Word → Nat} {values : List (Value M)} {value : Value M} :
    (ofList slotOf values).finds value ↔ ∃ member ∈ values, value.equal member := by
  have hempty := filed_empty (M := M) slotOf
  have hnone : ¬∃ member, (empty slotOf).Stores member ∧ value.equal member := by
    rintro ⟨member, ⟨slot, hmember⟩, -⟩
    exact absurd hmember List.not_mem_nil
  rw [ofList, finds_iff (filed_foldl_insert hempty values), exists_stores_foldl_insert_iff hempty,
    or_iff_left hnone]

end HashTable

namespace Value

-- Equal values feed a hasher the same words, and only they do, in whatever order their hash
-- containers yield the members and their other maps were filled. So a table that searches one
-- slot finds a value exactly if it stores an equal one, like the set filled with the same values.
theorem hash_lawful :
    (∀ a b : Value M, a.hashWords = b.hashWords ↔ a.equal b) ∧
      (∀ a b a' b' : Value M, a.equal b → a.WellFormed → b.WellFormed →
        Refills a a' → Refills b b' → a'.hashWords = b'.hashWords) ∧
      (∀ (table : HashTable M) (value : Value M), table.Filed →
        (table.finds value ↔ ∃ member, table.Stores member ∧ value.equal member)) ∧
      ∀ (slotOf : List Word → Nat) (kind : CollectionKind) (values : List (Value M)) value,
        ((HashTable.ofList slotOf values).finds value ↔ ∃ member ∈ values, value.equal member) ∧
          ((Collection.ofList kind values).contains value ↔
            (HashTable.ofList slotOf values).finds value) := by
  refine ⟨fun a b => hashWords_eq_iff, ?_, fun table value h => HashTable.finds_iff h, ?_⟩
  · intro a b a' b' heq ha hb hrefillA hrefillB
    have hsameA := (wellFormed_of_refills hrefillA ha).2
    have hsameB := (wellFormed_of_refills hrefillB hb).2
    exact hashWords_eq_iff.mpr
      (equal_iff.mpr (hsameA.symm.trans ((equal_iff.mp heq).trans hsameB)))
  · intro slotOf kind values value
    rw [HashTable.finds_ofList_iff, Collection.contains_ofList_iff]
    exact ⟨Iff.rfl, Iff.rfl⟩

-- A set with a map in it, both filled in two orders, and an object in a table
theorem hash_lawful_nested :
    (collection .unorderedSet [.null, .map .insertionOrdered
        [("y", .scalar (.bool true)), ("x", .null)]] : Value Switch).hashWords =
      (collection .unorderedSet [.map .insertionOrdered
        [("x", .null), ("y", .scalar (.bool true))], .null] : Value Switch).hashWords ∧
    HashTable.finds ⟨List.length, fun slot => if slot = 3 then [.object ⟨(), true⟩] else []⟩
      (.object ⟨(), true⟩ : Value Switch) := by
  let pairs (entries : List (String × Value Switch)) : Value Switch :=
    .map .insertionOrdered entries
  have hmap : Refill (pairs [("x", .null), ("y", .scalar (.bool true))])
      (pairs [("y", .scalar (.bool true)), ("x", .null)]) := .entries nofun (.swap _ _ _)
  have hset : Refills
      (collection .unorderedSet [pairs [("x", .null), ("y", .scalar (.bool true))], .null])
      (collection .unorderedSet [.null, pairs [("y", .scalar (.bool true)), ("x", .null)]]) :=
    .tail (.single (@Refill.member Switch .unorderedSet [] _ _ _ hmap)) (.members (.swap _ _ _))
  have hproper : Collection.Proper
      ⟨.unorderedSet, [pairs [("x", .null), ("y", .scalar (.bool true))], .null]⟩ :=
    List.pairwise_pair.mpr (by decide +kernel)
  have hpairs : (pairs [("x", .null), ("y", .scalar (.bool true))]).WellFormed :=
    wellFormed_map.mpr ⟨⟨by decide, nofun⟩, by simp⟩
  have hwellFormed := wellFormed_collection.mpr ⟨hproper, by simpa using hpairs⟩
  have hfiled : HashTable.Filed (M := Switch)
      ⟨List.length, fun slot => if slot = 3 then [.object ⟨(), true⟩] else []⟩ := by
    intro slot value hvalue
    simp only at hvalue
    split at hvalue
    · cases List.mem_singleton.mp hvalue
      assumption
    · contradiction
  refine ⟨hash_lawful.2.1 _ _ _ _ (equal_iff.mpr rfl) hwellFormed hwellFormed hset .refl, ?_⟩
  refine (hash_lawful.2.2.1 _ _ hfiled).mpr ⟨.object ⟨(), true⟩, ⟨3, ?_⟩, equal_iff.mpr rfl⟩
  exact List.mem_cons_self

end Value

end TaggedCache

import TaggedCache.Proofs.Distinct
import TaggedCache.Proofs.Value.Shape

namespace TaggedCache

variable {M : ObjectModel}

namespace Collection

theorem mem_of_mem_insert {c : Collection M} {value member : Value M}
    (h : member ∈ (c.insert value).items) : member = value ∨ member ∈ c.items := by
  obtain ⟨kind, items⟩ := c
  cases kind with
  | list | linkedList => simpa [insert, or_comm] using h
  | unorderedSet | orderedSet => exact Distinct.mem_of_mem_insert h
  | sortedSet => exact Distinct.mem_of_mem_insertSorted h

theorem extend_kind (c : Collection M) (values : List (Value M)) :
    (c.extend values).kind = c.kind := by
  induction values generalizing c with
  | nil => rfl
  | cons value rest ih => exact ih (c.insert value)

theorem mem_of_mem_extend {c : Collection M} {values : List (Value M)} {member : Value M}
    (h : member ∈ (c.extend values).items) : member ∈ c.items ∨ member ∈ values := by
  induction values generalizing c with
  | nil => exact .inl h
  | cons value rest ih =>
      rcases ih h with h | h
      · rcases mem_of_mem_insert h with rfl | h
        · exact .inr List.mem_cons_self
        · exact .inl h
      · exact .inr (List.mem_cons_of_mem _ h)

theorem ofList_kind (kind : CollectionKind) (values : List (Value M)) :
    (ofList kind values).kind = kind := extend_kind _ _

theorem mem_of_mem_ofList {kind : CollectionKind} {values : List (Value M)} {member : Value M}
    (h : member ∈ (ofList kind values).items) : member ∈ values :=
  (mem_of_mem_extend h).resolve_left List.not_mem_nil

theorem extend_list (items values : List (Value M)) :
    (Collection.mk .list items).extend values = ⟨.list, items ++ values⟩ := by
  induction values generalizing items with
  | nil => simp [extend]
  | cons value rest ih =>
      rw [extend, List.foldl_cons, ← extend, insert]
      simp only [ih, List.append_assoc, List.singleton_append]

theorem ofList_list (items : List (Value M)) : ofList .list items = ⟨.list, items⟩ :=
  extend_list [] items

end Collection

theorem Value.list_eq (items : List (Value M)) : Value.list items = .collection .list items := by
  rw [Value.list, Collection.ofList_list]
  rfl

namespace Keyed

theorem put_eq_of_new {m : Keyed M} {key : String} (value : Value M) (hnew : key ∉ m.keys)
    (hlast : m.kind = .sorted → ∀ k ∈ m.keys, compare key k = .gt) :
    m.put key value = ⟨m.kind, m.entries ++ [(key, value)]⟩ := by
  obtain ⟨kind, entries⟩ := m
  cases kind with
  | sorted => simp only [put, Assoc.putSorted_of_forall_gt value (hlast rfl)]
  | unordered | insertionOrdered | concurrent => simp only [put, Assoc.put_of_notMem value hnew]

theorem extend_of_proper {kind : MapKind} {before entries : List (String × Value M)}
    (h : Proper ⟨kind, before ++ entries⟩) :
    (Keyed.mk kind before).extend entries = ⟨kind, before ++ entries⟩ := by
  induction entries generalizing before with
  | nil => simp [extend]
  | cons entry rest ih =>
      have hkeys : (Keyed.mk kind (before ++ entry :: rest)).keys =
          (Keyed.mk kind before).keys ++ entry.1 :: (Keyed.mk kind rest).keys := by simp [keys]
      have hnew : entry.1 ∉ (Keyed.mk kind before).keys := by
        intro hmem
        have hnodup := h.1
        rw [hkeys, List.nodup_append] at hnodup
        exact hnodup.2.2 _ hmem _ List.mem_cons_self rfl
      have hlast (hsorted : kind = .sorted) :
          ∀ k ∈ (Keyed.mk kind before).keys, compare entry.1 k = .gt := by
        intro k hk
        have hascending := h.2 hsorted
        rw [hkeys, List.pairwise_append] at hascending
        exact Std.OrientedCmp.gt_iff_lt.mpr (hascending.2.2 k hk _ List.mem_cons_self)
      rw [extend, List.foldl_cons, ← extend, put_eq_of_new _ hnew hlast]
      rw [ih (by simpa using h), List.append_assoc, List.singleton_append]

-- A map filled with its own entries is the same map.
theorem ofList_of_proper {kind : MapKind} {entries : List (String × Value M)}
    (h : Proper ⟨kind, entries⟩) : ofList kind entries = ⟨kind, entries⟩ :=
  extend_of_proper (by simpa using h)

theorem extend_kind (m : Keyed M) (entries : List (String × Value M)) :
    (m.extend entries).kind = m.kind := by
  induction entries generalizing m with
  | nil => rfl
  | cons entry rest ih => exact ih (m.put entry.1 entry.2)

theorem ofList_kind (kind : MapKind) (entries : List (String × Value M)) :
    (ofList kind entries).kind = kind := extend_kind _ _

theorem mem_of_mem_put {m : Keyed M} {key : String} {value : Value M} {entry : String × Value M}
    (h : entry ∈ (m.put key value).entries) : entry = (key, value) ∨ entry ∈ m.entries := by
  obtain ⟨kind, entries⟩ := m
  cases kind with
  | sorted => exact Assoc.mem_of_mem_putSorted (fun _ _ => Std.LawfulEqCmp.eq_of_compare) h
  | unordered | insertionOrdered | concurrent => exact Assoc.mem_of_mem_put h

theorem mem_of_mem_extend {m : Keyed M} {entries : List (String × Value M)}
    {entry : String × Value M} (h : entry ∈ (m.extend entries).entries) :
    entry ∈ m.entries ∨ entry ∈ entries := by
  induction entries generalizing m with
  | nil => exact .inl h
  | cons first rest ih =>
      rcases ih h with h | h
      · rcases mem_of_mem_put h with rfl | h
        · exact .inr List.mem_cons_self
        · exact .inl h
      · exact .inr (List.mem_cons_of_mem _ h)

theorem mem_of_mem_ofList {kind : MapKind} {entries : List (String × Value M)}
    {entry : String × Value M} (h : entry ∈ (ofList kind entries).entries) : entry ∈ entries :=
  (mem_of_mem_extend h).resolve_left List.not_mem_nil

theorem put_perm {m : Keyed M} {key : String} (value : Value M) (hnew : key ∉ m.keys) :
    (m.put key value).entries.Perm ((key, value) :: m.entries) := by
  obtain ⟨kind, entries⟩ := m
  cases kind with
  | sorted => exact Assoc.putSorted_perm (fun _ _ => Std.LawfulEqCmp.eq_of_compare) value hnew
  | unordered | insertionOrdered | concurrent =>
      simp only [put, Assoc.put_of_notMem value hnew]
      exact List.perm_append_singleton _ _

theorem extend_perm {m : Keyed M} {entries : List (String × Value M)}
    (h : (Assoc.keys (entries ++ m.entries)).Nodup) :
    (m.extend entries).entries.Perm (entries ++ m.entries) := by
  induction entries generalizing m with
  | nil => exact .refl _
  | cons entry rest ih =>
      have hnew : entry.1 ∉ m.keys := by
        intro hmem
        simp only [List.cons_append, Assoc.keys_cons, List.nodup_cons] at h
        exact h.1 (by simpa [Assoc.keys] using Or.inr (List.mem_map.mp hmem))
      have hput := put_perm entry.2 hnew
      have hmiddle : (rest ++ (m.put entry.1 entry.2).entries).Perm (entry :: rest ++ m.entries) :=
        (hput.append_left rest).trans List.perm_middle
      have hnodup : (Assoc.keys (rest ++ (m.put entry.1 entry.2).entries)).Nodup :=
        (hmiddle.map Prod.fst).nodup_iff.mpr h
      exact (ih hnodup).trans hmiddle

-- Entries with different keys are all kept.
theorem ofList_perm {entries : List (String × Value M)} (kind : MapKind)
    (h : (Assoc.keys entries).Nodup) : (ofList kind entries).entries.Perm entries := by
  have hempty : entries ++ (empty kind : Keyed M).entries = entries := List.append_nil _
  have hperm := extend_perm (m := empty kind) (hempty.symm ▸ h)
  rwa [hempty] at hperm

theorem proper_unordered {entries : List (String × Value M)} :
    Proper ⟨.unordered, entries⟩ ↔ (Assoc.keys entries).Nodup := by
  simp [Proper, keys, Assoc.keys]

end Keyed

end TaggedCache

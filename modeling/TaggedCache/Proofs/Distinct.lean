import TaggedCache.Distinct

namespace TaggedCache.Distinct

variable {α : Type} {compare : α → α → Ordering}

theorem holds_iff {value : α} {members : List α} :
    holds compare value members ↔ ∃ member ∈ members, compare value member = .eq := by
  simp [holds, Ordering.isEq_iff_eq_eq]

theorem mem_of_mem_insert {value member : α} {members : List α}
    (h : member ∈ insert compare value members) : member = value ∨ member ∈ members := by
  rw [insert] at h
  split at h
  · exact .inr h
  · simpa [or_comm] using h

theorem mem_of_mem_insertSorted {value member : α} {members : List α}
    (h : member ∈ insertSorted compare value members) : member = value ∨ member ∈ members := by
  induction members with
  | nil => simpa [insertSorted] using h
  | cons first rest ih =>
      rw [insertSorted] at h
      split at h
      · simpa using h
      · exact .inr h
      · rcases List.mem_cons.mp h with rfl | h
        · exact .inr List.mem_cons_self
        · exact (ih h).imp_right (List.mem_cons_of_mem _)

theorem subset_insert (value : α) (members : List α) :
    members ⊆ insert compare value members := by
  rw [insert]
  split
  · exact List.Subset.refl _
  · exact List.subset_append_left _ _

theorem subset_insertSorted (value : α) (members : List α) :
    members ⊆ insertSorted compare value members := by
  induction members with
  | nil => exact List.nil_subset _
  | cons first rest ih =>
      rw [insertSorted]
      split
      · exact List.subset_cons_self _ _
      · exact List.Subset.refl _
      · exact List.cons_subset_cons _ ih

-- An insertion goes the same way wherever the members are compared by their images.
section Map

variable {β : Type} {compareImages : β → β → Ordering} {f : α → β}

theorem map_insert (h : ∀ a b, compareImages (f a) (f b) = compare a b) (value : α)
    (members : List α) :
    (insert compare value members).map f = insert compareImages (f value) (members.map f) := by
  have hholds : holds compareImages (f value) (members.map f) = holds compare value members := by
    simp only [holds, List.any_map, Function.comp_def, h]
  rw [insert, insert, hholds]
  split
  · rfl
  · exact List.map_append

theorem map_insertSorted (h : ∀ a b, compareImages (f a) (f b) = compare a b) (value : α)
    (members : List α) :
    (insertSorted compare value members).map f =
      insertSorted compareImages (f value) (members.map f) := by
  induction members with
  | nil => rfl
  | cons first rest ih =>
      rw [insertSorted, List.map_cons, insertSorted, h]
      cases compare value first with
      | lt | eq => rfl
      | gt => exact congrArg (f first :: ·) ih

end Map

theorem holds_perm {value : α} {members others : List α} (h : members.Perm others) :
    holds compare value members = holds compare value others :=
  h.any_eq

-- A new value is added to the members, and nothing else changes.
theorem insert_perm (value : α) (members : List α) :
    (insert compare value members).Perm
      (if holds compare value members then members else value :: members) := by
  rw [insert]
  split
  · exact .refl _
  · exact List.perm_append_singleton _ _

variable [Std.TransCmp compare]

-- A value that was inserted is there, or an equal one.
theorem exists_eq_mem_insert (value : α) (members : List α) :
    ∃ member ∈ insert compare value members, compare value member = .eq := by
  rw [insert]
  split
  · exact holds_iff.mp ‹_›
  · exact ⟨value, List.mem_append_right _ List.mem_cons_self, Std.ReflCmp.compare_self⟩

theorem exists_eq_mem_insertSorted (value : α) (members : List α) :
    ∃ member ∈ insertSorted compare value members, compare value member = .eq := by
  induction members with
  | nil => exact ⟨value, List.mem_cons_self, Std.ReflCmp.compare_self⟩
  | cons first rest ih =>
      rw [insertSorted]
      split
      · exact ⟨value, List.mem_cons_self, Std.ReflCmp.compare_self⟩
      · exact ⟨first, List.mem_cons_self, ‹_›⟩
      · obtain ⟨member, hmember, heq⟩ := ih
        exact ⟨member, List.mem_cons_of_mem _ hmember, heq⟩

theorem insert_of_new {value : α} {members : List α}
    (h : ∀ member ∈ members, compare member value ≠ .eq) :
    insert compare value members = members ++ [value] := by
  refine if_neg fun hholds => ?_
  obtain ⟨member, hmember, heq⟩ := holds_iff.mp hholds
  exact h member hmember (Std.OrientedCmp.eq_comm.mp heq)

theorem insertSorted_of_last {value : α} {members : List α}
    (h : ∀ member ∈ members, compare member value = .lt) :
    insertSorted compare value members = members ++ [value] := by
  induction members with
  | nil => rfl
  | cons first rest ih =>
      have hgt : compare value first = .gt :=
        Std.OrientedCmp.gt_iff_lt.mpr (h first List.mem_cons_self)
      rw [insertSorted, hgt, List.cons_append]
      exact congrArg _ (ih fun member hmember => h member (List.mem_cons_of_mem _ hmember))

theorem pairwise_insert (value : α) {members : List α}
    (h : members.Pairwise fun a b => compare a b ≠ .eq) :
    (insert compare value members).Pairwise fun a b => compare a b ≠ .eq := by
  rw [insert]
  split
  · exact h
  · rename_i hnew
    refine List.pairwise_append.mpr ⟨h, List.pairwise_singleton _ _, fun member hmember => ?_⟩
    simp only [List.mem_singleton, forall_eq]
    exact fun heq => hnew (holds_iff.mpr ⟨member, hmember, Std.OrientedCmp.eq_comm.mp heq⟩)

theorem pairwise_insertSorted (value : α) {members : List α}
    (h : members.Pairwise fun a b => compare a b = .lt) :
    (insertSorted compare value members).Pairwise fun a b => compare a b = .lt := by
  induction members with
  | nil => exact List.pairwise_singleton _ _
  | cons first rest ih =>
      obtain ⟨hfirst, hrest⟩ := List.pairwise_cons.mp h
      rw [insertSorted]
      split
      · rename_i hlt
        refine List.pairwise_cons.mpr ⟨?_, h⟩
        exact List.forall_mem_cons.mpr
          ⟨hlt, fun member hmember => Std.TransCmp.lt_trans hlt (hfirst member hmember)⟩
      · exact h
      · rename_i hgt
        refine List.pairwise_cons.mpr ⟨fun member hmember => ?_, ih hrest⟩
        rcases mem_of_mem_insertSorted hmember with rfl | hmember
        · exact Std.OrientedCmp.gt_iff_lt.mp hgt
        · exact hfirst member hmember

-- The search for an equal member may end at the first greater one.
theorem insertSorted_perm (value : α) {members : List α}
    (h : members.Pairwise fun a b => compare a b = .lt) :
    (insertSorted compare value members).Perm
      (if holds compare value members then members else value :: members) := by
  induction members with
  | nil => exact .refl _
  | cons first rest ih =>
      obtain ⟨hfirst, hrest⟩ := List.pairwise_cons.mp h
      rw [insertSorted]
      cases hcompare : compare value first with
      | lt =>
          have hnew : ¬holds compare value (first :: rest) := by
            rw [holds_iff]
            rintro ⟨member, hmember, heq⟩
            rcases List.mem_cons.mp hmember with rfl | hmember
            · cases hcompare.symm.trans heq
            · cases (Std.TransCmp.lt_trans hcompare (hfirst member hmember)).symm.trans heq
          rw [if_neg hnew]
      | eq =>
          have hheld : holds compare value (first :: rest) :=
            holds_iff.mpr ⟨first, List.mem_cons_self, hcompare⟩
          rw [if_pos hheld]
      | gt =>
          have hholds : holds compare value (first :: rest) = holds compare value rest := by
            simp [holds, hcompare]
          rw [hholds]
          refine ((ih hrest).cons first).trans ?_
          split
          · exact .refl _
          · exact .swap _ _ _

end TaggedCache.Distinct

import TaggedCache.Kind.Name
import Mathlib.Data.List.DropRight

namespace TaggedCache

namespace Text

theorem dropEndWhile_eq {α : Type} (test : α → Bool) (members : List α) :
    dropEndWhile test members = members.rdropWhile test := rfl

-- What is left of a list whose start is kept starts the same way.
theorem dropWhile_rdropWhile {α : Type} {test : α → Bool} {members : List α}
    (h : members.dropWhile test = members) :
    (members.rdropWhile test).dropWhile test = members.rdropWhile test := by
  rw [List.dropWhile_eq_self_iff] at h ⊢
  intro hlength
  have hprefix := List.rdropWhile_prefix (p := test) (l := members)
  have hfirst := hprefix.getElem hlength
  rw [hfirst]
  exact h (Nat.lt_of_lt_of_le hlength hprefix.length_le)

-- Dropping from the front stops at an item that is kept.
theorem dropWhile_append_cons {α : Type} {test : α → Bool} {item : α} (h : test item = false)
    (before after : List α) :
    (before ++ item :: after).dropWhile test = before.dropWhile test ++ item :: after := by
  rw [List.dropWhile_append]
  split
  · rename_i hempty
    rw [List.isEmpty_iff.mp hempty, List.nil_append, List.dropWhile_cons_of_neg (by simp [h])]
  · rfl

-- Dropping from the end stops there too.
theorem rdropWhile_append_cons {α : Type} {test : α → Bool} {item : α} (h : test item = false)
    (before after : List α) :
    (before ++ item :: after).rdropWhile test = before ++ item :: after.rdropWhile test := by
  have hreverse : (before ++ item :: after).reverse = after.reverse ++ item :: before.reverse := by
    simp
  rw [List.rdropWhile, hreverse, dropWhile_append_cons h]
  simp [List.rdropWhile]

theorem rdropWhile_append_of_forall {α : Type} {test : α → Bool} {after : List α}
    (h : ∀ item ∈ after, test item) (items : List α) :
    (items ++ after).rdropWhile test = items.rdropWhile test := by
  rw [List.rdropWhile, List.reverse_append, List.dropWhile_append_of_pos (by simpa using h),
    ← List.rdropWhile]

theorem rdropWhile_append_of_self {α : Type} {test : α → Bool} {after : List α} (hne : after ≠ [])
    (h : after.rdropWhile test = after) (items : List α) :
    (items ++ after).rdropWhile test = items ++ after := by
  refine List.rdropWhile_eq_self_iff.mpr fun hitems => ?_
  rw [List.getLast_append_of_ne_nil hitems hne]
  exact List.rdropWhile_eq_self_iff.mp h hne

theorem toList_trim (s : String) :
    (trim s).toList = (s.toList.dropWhile isBlank).rdropWhile isBlank := by
  rw [trim, dropEndWhile_eq, String.toList_ofList]

-- Blanks around a text are trimmed with those at its ends.
theorem trim_append {before after : String} (hbefore : ∀ c ∈ before.toList, isBlank c)
    (hafter : ∀ c ∈ after.toList, isBlank c) (s : String) :
    trim (before ++ s ++ after) = trim s := by
  rw [trim, trim, String.toList_append, String.toList_append, List.append_assoc,
    List.dropWhile_append_of_pos hbefore, List.dropWhile_append, dropEndWhile_eq, dropEndWhile_eq]
  split
  · rename_i hempty
    rw [List.isEmpty_iff.mp hempty, List.dropWhile_eq_nil_iff.mpr hafter]
  · rw [rdropWhile_append_of_forall hafter]

theorem trim_trim (s : String) : trim (trim s) = trim s := by
  simp only [trim, dropEndWhile_eq, String.toList_ofList]
  rw [dropWhile_rdropWhile (List.dropWhile_idempotent _ _), List.rdropWhile_idempotent]

end Text

-- Blanks around a name are not part of it.
theorem baseName_trim (name : String) : baseName (Text.trim name) = baseName name := by
  rw [baseName, baseName, Text.trim_trim]

end TaggedCache

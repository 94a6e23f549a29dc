import TaggedCache.Assoc
import TaggedCache.Proofs.Distinct
import Mathlib.Data.List.Nodup
import Mathlib.Data.List.Perm.Basic

namespace TaggedCache.Assoc

variable {κ α β : Type}

-- The keys of a keyed list, in its order
def keys (entries : List (κ × α)) : List κ := entries.map (·.1)

@[simp] theorem notMem_keys_nil (key : κ) : key ∉ keys ([] : List (κ × α)) :=
  List.not_mem_nil

@[simp] theorem keys_cons (entry : κ × α) (rest : List (κ × α)) :
    keys (entry :: rest) = entry.1 :: keys rest := rfl

theorem mem_keys_flatMap {items : List β} {entries : β → List (κ × α)} {key : κ} :
    key ∈ keys (items.flatMap entries) ↔ ∃ item ∈ items, key ∈ keys (entries item) := by
  simp only [keys, List.map_flatMap, List.mem_flatMap]

-- No key has two values.
def Functional (entries : List (κ × α)) : Prop :=
  ∀ x ∈ entries, ∀ y ∈ entries, x.1 = y.1 → x.2 = y.2

instance [DecidableEq κ] [DecidableEq α] (entries : List (κ × α)) :
    Decidable (Functional entries) :=
  inferInstanceAs (Decidable (∀ x ∈ entries, ∀ y ∈ entries, x.1 = y.1 → x.2 = y.2))

theorem Functional.of_subset {entries others : List (κ × α)} (h : Functional others)
    (hsub : entries ⊆ others) : Functional entries :=
  fun x hx y hy => h x (hsub hx) y (hsub hy)

theorem putSorted_of_forall_gt {compare : κ → κ → Ordering} {key : κ} {entries : List (κ × α)}
    (value : α) (h : ∀ k ∈ keys entries, compare key k = .gt) :
    putSorted compare key value entries = entries ++ [(key, value)] := by
  induction entries with
  | nil => rfl
  | cons entry rest ih =>
      simp only [keys_cons, List.mem_cons, forall_eq_or_imp] at h
      rw [putSorted, h.1]
      simp only [ih h.2, List.cons_append]

theorem mem_of_mem_putSorted {compare : κ → κ → Ordering}
    (hcompare : ∀ a b, compare a b = .eq → a = b) {key : κ} {value : α} {entry : κ × α}
    {entries : List (κ × α)} (h : entry ∈ putSorted compare key value entries) :
    entry = (key, value) ∨ entry ∈ entries := by
  induction entries with
  | nil => simpa [putSorted] using h
  | cons first rest ih =>
      obtain ⟨k, a⟩ := first
      rw [putSorted] at h
      split at h
      · simpa using h
      · rename_i heq
        rcases List.mem_cons.mp h with rfl | h
        · exact .inl (by rw [hcompare _ _ heq])
        · exact .inr (List.mem_cons_of_mem _ h)
      · rcases List.mem_cons.mp h with rfl | h
        · exact .inr List.mem_cons_self
        · exact (ih h).imp_right (List.mem_cons_of_mem _)

theorem putSorted_perm {compare : κ → κ → Ordering} (hcompare : ∀ a b, compare a b = .eq → a = b)
    {key : κ} {entries : List (κ × α)} (value : α) (h : key ∉ keys entries) :
    (putSorted compare key value entries).Perm ((key, value) :: entries) := by
  induction entries with
  | nil => exact .refl _
  | cons entry rest ih =>
      simp only [keys_cons, List.mem_cons, not_or] at h
      rw [putSorted]
      split
      · exact .refl _
      · rename_i heq
        exact absurd (hcompare _ _ heq) h.1
      · exact ((ih h.2).cons entry).trans (.swap _ _ _)

theorem keys_putSorted {compare : κ → κ → Ordering} (key : κ) (value : α)
    (entries : List (κ × α)) :
    keys (putSorted compare key value entries) =
      Distinct.insertSorted compare key (keys entries) := by
  induction entries with
  | nil => rfl
  | cons entry rest ih =>
      rw [putSorted, keys_cons, Distinct.insertSorted]
      cases hkey : compare key entry.1 with
      | lt => rfl
      | eq => rfl
      | gt => exact congrArg (entry.1 :: ·) ih

theorem pairwise_mergeSort {compare : α → α → Ordering} [Std.TransCmp compare] (items : List α) :
    (items.mergeSort fun a b => (compare a b).isLE).Pairwise fun a b => (compare a b).isLE := by
  have hswap (a b : α) : compare b a = (compare a b).swap := Std.OrientedCmp.eq_swap
  refine List.pairwise_mergeSort (fun _ _ _ => Std.TransCmp.isLE_trans) (fun a b => ?_) items
  rw [hswap a b]
  cases compare a b <;> rfl

-- Sorting forgets the order that a list had before.
theorem mergeSort_eq_of_perm {compare : α → α → Ordering} [Std.TransCmp compare]
    {items others : List α} (h : items.Perm others)
    (heq : ∀ a ∈ items, ∀ b ∈ items, compare a b = .eq → a = b) :
    (items.mergeSort fun a b => (compare a b).isLE) =
      others.mergeSort fun a b => (compare a b).isLE := by
  have hswap (a b : α) : compare b a = (compare a b).swap := Std.OrientedCmp.eq_swap
  have hperm := (List.mergeSort_perm items fun a b => (compare a b).isLE).trans
    (h.trans (List.mergeSort_perm others fun a b => (compare a b).isLE).symm)
  refine List.Perm.eq_of_pairwise (fun a b ha hb hab hba => ?_) (pairwise_mergeSort items)
    (pairwise_mergeSort others) hperm
  refine heq a (List.mem_mergeSort.mp ha) b (h.mem_iff.mpr (List.mem_mergeSort.mp hb)) ?_
  rw [hswap a b] at hba
  cases hcompare : compare a b <;> simp [hcompare] at hab hba ⊢

-- Sorting and selecting do not depend on each other.
theorem filter_mergeSort {compare : α → α → Ordering} [Std.TransCmp compare]
    [Std.LawfulEqCmp compare] (p : α → Bool) (items : List α) :
    (items.mergeSort fun a b => (compare a b).isLE).filter p =
      (items.filter p).mergeSort fun a b => (compare a b).isLE := by
  have hsorted : ((items.mergeSort fun a b => (compare a b).isLE).filter p).Pairwise
      fun a b => (compare a b).isLE := (pairwise_mergeSort items).sublist List.filter_sublist
  rw [← List.mergeSort_of_pairwise hsorted]
  exact mergeSort_eq_of_perm ((List.mergeSort_perm items _).filter p)
    fun _ _ _ _ => Std.LawfulEqCmp.eq_of_compare

theorem sorted_eq_of_perm {compare : κ → κ → Ordering} [Std.TransCmp compare]
    [Std.LawfulEqCmp compare] {entries others : List (κ × α)} (h : entries.Perm others)
    (hkeys : (keys entries).Nodup) : sorted compare entries = sorted compare others := by
  have htrans : Std.TransCmp fun a b : κ × α => compare a.1 b.1 :=
    { eq_swap := Std.OrientedCmp.eq_swap, isLE_trans := Std.TransCmp.isLE_trans }
  refine mergeSort_eq_of_perm h fun a ha b hb heq => ?_
  exact List.inj_on_of_nodup_map hkeys ha hb (Std.LawfulEqCmp.eq_of_compare heq)

variable [DecidableEq κ]

theorem has_iff {key : κ} {entries : List (κ × α)} : has key entries ↔ key ∈ keys entries := by
  induction entries with
  | nil => simp [has, get?]
  | cons entry rest ih =>
      by_cases h : entry.1 = key
      · simp [has, get?, h]
      · simp only [has, get?, h, if_false, keys_cons, List.mem_cons, Ne.symm h, false_or]
        exact ih

theorem has_iff_exists_mem {key : κ} {entries : List (κ × α)} :
    has key entries ↔ ∃ value, (key, value) ∈ entries := by
  rw [has_iff, keys, List.mem_map]
  constructor
  · rintro ⟨⟨_, value⟩, hvalue, rfl⟩
    exact ⟨value, hvalue⟩
  · rintro ⟨value, hvalue⟩
    exact ⟨(key, value), hvalue, rfl⟩

theorem get?_eq_none_iff {key : κ} {entries : List (κ × α)} :
    get? key entries = none ↔ key ∉ keys entries := by
  rw [← has_iff, has]
  cases get? key entries <;> simp

theorem exists_get?_of_mem {key : κ} {entries : List (κ × α)} (h : key ∈ keys entries) :
    ∃ value, get? key entries = some value :=
  Option.isSome_iff_exists.mp (has_iff.mpr h)

theorem mem_of_get?_eq_some {key : κ} {value : α} {entries : List (κ × α)}
    (h : get? key entries = some value) : (key, value) ∈ entries := by
  induction entries with
  | nil => contradiction
  | cons entry rest ih =>
      rw [get?] at h
      split at h
      · rename_i hkey
        cases h
        cases hkey
        exact List.mem_cons_self
      · exact List.mem_cons_of_mem _ (ih h)

theorem get?_eq_some_iff_mem {key : κ} {value : α} {entries : List (κ × α)}
    (hkeys : (keys entries).Nodup) : get? key entries = some value ↔ (key, value) ∈ entries := by
  refine ⟨mem_of_get?_eq_some, fun h => ?_⟩
  obtain ⟨other, hother⟩ := exists_get?_of_mem (List.mem_map_of_mem h)
  have hsame := List.inj_on_of_nodup_map hkeys (mem_of_get?_eq_some hother) h rfl
  rw [hother, (Prod.mk.inj hsame).2]

-- A list that holds some entry for each key of a functional one holds the same entries.
theorem get?_eq_some_iff_of_functional {entries others : List (κ × α)}
    (h : Functional others) (hsub : entries ⊆ others) (hkeys : keys others ⊆ keys entries)
    {key : κ} {value : α} : get? key entries = some value ↔ (key, value) ∈ others := by
  refine ⟨fun hget => hsub (mem_of_get?_eq_some hget), fun hmem => ?_⟩
  obtain ⟨found, hfound⟩ := exists_get?_of_mem (hkeys (List.mem_map_of_mem hmem))
  rw [hfound]
  exact congrArg some (h _ (hsub (mem_of_get?_eq_some hfound)) _ hmem rfl)

theorem get?_put (key other : κ) (value : α) (entries : List (κ × α)) :
    get? other (put key value entries) =
      if key = other then some value else get? other entries := by
  induction entries with
  | nil => rfl
  | cons entry rest ih =>
      obtain ⟨k, a⟩ := entry
      by_cases hk : k = key
      · subst hk
        by_cases hother : k = other <;> simp [put, get?, hother]
      · by_cases hother : k = other
        · subst hother
          simp [put, get?, hk, Ne.symm hk]
        · simp [put, get?, hk, hother, ih]

theorem get?_putSorted {compare : κ → κ → Ordering} [Std.TransCmp compare]
    [Std.LawfulEqCmp compare] (key other : κ) (value : α) (entries : List (κ × α)) :
    get? other (putSorted compare key value entries) =
      if key = other then some value else get? other entries := by
  induction entries with
  | nil => rfl
  | cons entry rest ih =>
      obtain ⟨k, a⟩ := entry
      rw [putSorted]
      cases hcompare : compare key k with
      | lt => rfl
      | eq =>
          obtain rfl : key = k := Std.LawfulEqCmp.eq_of_compare hcompare
          by_cases hother : key = other <;> simp [get?, hother]
      | gt =>
          have hne : key ≠ k := by
            rintro rfl
            cases hcompare.symm.trans Std.ReflCmp.compare_self
          by_cases hother : key = other
          · subst hother
            simp [get?, Ne.symm hne, ih]
          · simp [get?, hother, ih]

theorem mem_of_mem_put {key : κ} {value : α} {entry : κ × α} {entries : List (κ × α)}
    (h : entry ∈ put key value entries) : entry = (key, value) ∨ entry ∈ entries := by
  induction entries with
  | nil => exact .inl (by simpa [put] using h)
  | cons first rest ih =>
      obtain ⟨k, a⟩ := first
      by_cases hkey : k = key
      · subst hkey
        rcases List.mem_cons.mp (by simpa only [put, if_true] using h) with h | h
        · exact .inl h
        · exact .inr (List.mem_cons_of_mem _ h)
      · rcases List.mem_cons.mp (by simpa only [put, hkey, if_false] using h) with h | h
        · exact .inr (h ▸ List.mem_cons_self)
        · exact (ih h).imp id (List.mem_cons_of_mem _)

theorem mem_of_mem_foldl_put {entry : κ × α} {acc entries : List (κ × α)}
    (h : entry ∈ entries.foldl (fun acc entry => put entry.1 entry.2 acc) acc) :
    entry ∈ acc ∨ entry ∈ entries := by
  induction entries generalizing acc with
  | nil => exact .inl h
  | cons first rest ih =>
      rcases ih h with h | h
      · rcases mem_of_mem_put h with h | h
        · exact .inr (h ▸ List.mem_cons_self)
        · exact .inl h
      · exact .inr (List.mem_cons_of_mem _ h)

theorem mem_of_mem_ofList {entry : κ × α} {entries : List (κ × α)} (h : entry ∈ ofList entries) :
    entry ∈ entries := by
  simpa using mem_of_mem_foldl_put h

theorem mem_keys_put {key other : κ} {value : α} {entries : List (κ × α)} :
    other ∈ keys (put key value entries) ↔ other = key ∨ other ∈ keys entries := by
  induction entries with
  | nil => simp [put]
  | cons entry rest ih =>
      rw [put]
      split
      · rename_i hkey
        simp [hkey]
      · rw [keys_cons, keys_cons, List.mem_cons, List.mem_cons, ih]
        exact or_left_comm

theorem keys_put (key : κ) (value : α) (entries : List (κ × α)) :
    keys (put key value entries) =
      if key ∈ keys entries then keys entries else keys entries ++ [key] := by
  induction entries with
  | nil => rfl
  | cons entry rest ih =>
      rw [put]
      by_cases hkey : entry.1 = key
      · simp [hkey]
      · rw [if_neg hkey, keys_cons, keys_cons, ih]
        simp only [List.mem_cons, Ne.symm hkey, false_or]
        split
        · rfl
        · exact (List.cons_append ..).symm

theorem nodup_keys_put (key : κ) (value : α) {entries : List (κ × α)} (h : (keys entries).Nodup) :
    (keys (put key value entries)).Nodup := by
  induction entries with
  | nil => simpa [put] using h
  | cons entry rest ih =>
      obtain ⟨k, a⟩ := entry
      obtain ⟨hfirst, hrest⟩ := List.nodup_cons.mp h
      rw [put]
      split
      · exact h
      · rename_i hkey
        refine List.nodup_cons.mpr ⟨fun hmem => ?_, ih hrest⟩
        obtain ⟨other, hother, heq⟩ := List.mem_map.mp hmem
        rcases mem_of_mem_put hother with rfl | hother
        · exact hkey heq.symm
        · exact hfirst (heq ▸ List.mem_map_of_mem hother)

theorem mem_put_iff {key : κ} {value : α} {entry : κ × α} {entries : List (κ × α)}
    (h : (keys entries).Nodup) :
    entry ∈ put key value entries ↔ entry = (key, value) ∨ entry ∈ entries ∧ entry.1 ≠ key := by
  obtain ⟨other, found⟩ := entry
  rw [← get?_eq_some_iff_mem (nodup_keys_put key value h), ← get?_eq_some_iff_mem h, get?_put]
  by_cases hkey : key = other
  · simp [hkey, eq_comm]
  · simp [hkey, Ne.symm hkey]

theorem nodup_keys_foldl_put (entries : List (κ × α)) {acc : List (κ × α)} (h : (keys acc).Nodup) :
    (keys (entries.foldl (fun acc entry => put entry.1 entry.2 acc) acc)).Nodup := by
  induction entries generalizing acc with
  | nil => exact h
  | cons entry rest ih => exact ih (nodup_keys_put entry.1 entry.2 h)

theorem nodup_keys_ofList (entries : List (κ × α)) : (keys (ofList entries)).Nodup :=
  nodup_keys_foldl_put entries List.nodup_nil

theorem put_of_notMem {key : κ} {entries : List (κ × α)} (value : α) (h : key ∉ keys entries) :
    put key value entries = entries ++ [(key, value)] := by
  induction entries with
  | nil => rfl
  | cons entry rest ih =>
      simp only [keys_cons, List.mem_cons, not_or] at h
      simp [put, Ne.symm h.1, ih h.2]

-- Entries with different keys are put as they come.
theorem foldl_put_of_nodup {acc entries : List (κ × α)} (h : (keys (acc ++ entries)).Nodup) :
    entries.foldl (fun acc entry => put entry.1 entry.2 acc) acc = acc ++ entries := by
  induction entries generalizing acc with
  | nil => simp
  | cons entry rest ih =>
      have hnew : entry.1 ∉ keys acc := by
        intro hmem
        simp only [keys, List.map_append, List.map_cons, List.nodup_append] at h
        exact h.2.2 entry.1 hmem entry.1 (by simp) rfl
      rw [List.foldl_cons, put_of_notMem _ hnew, ih (by simpa using h), List.append_assoc,
        List.singleton_append]

theorem ofList_of_nodup {entries : List (κ × α)} (h : (keys entries).Nodup) :
    ofList entries = entries :=
  foldl_put_of_nodup h

theorem erase_subset (key : κ) (entries : List (κ × α)) : erase key entries ⊆ entries :=
  List.filter_subset_self _

theorem mem_erase {key : κ} {entry : κ × α} {entries : List (κ × α)} :
    entry ∈ erase key entries ↔ entry ∈ entries ∧ entry.1 ≠ key := by
  simp [erase]

theorem get?_erase (key other : κ) (entries : List (κ × α)) :
    get? other (erase key entries) = if key = other then none else get? other entries := by
  induction entries with
  | nil => simp [erase, get?]
  | cons entry rest ih =>
      obtain ⟨k, a⟩ := entry
      by_cases hk : k = key
      · rw [erase, List.filter_cons_of_neg (by simp [hk]), ← erase, ih]
        by_cases hother : key = other <;> simp [get?, hk, hother]
      · rw [erase, List.filter_cons_of_pos (by simp [hk]), ← erase, get?, get?, ih]
        by_cases hother : key = other
        · simp [← hother, hk]
        · simp [hother]

theorem erase_of_notMem {key : κ} {entries : List (κ × α)} (h : key ∉ keys entries) :
    erase key entries = entries := by
  simp only [erase, List.filter_eq_self]
  intro entry hentry
  have : entry.1 ≠ key := fun heq => h (heq ▸ List.mem_map_of_mem hentry)
  simpa using this

theorem nodup_keys_erase (key : κ) {entries : List (κ × α)} (h : (keys entries).Nodup) :
    (keys (erase key entries)).Nodup :=
  h.sublist (List.filter_sublist.map Prod.fst)

theorem notMem_keys_erase (key : κ) (entries : List (κ × α)) : key ∉ keys (erase key entries) := by
  simp [keys, erase]

-- Nothing else but its own entry is lost when a key is left out.
theorem keys_erase_perm_iff {key : κ} {entries : List (κ × α)} :
    (keys (erase key entries)).Perm (keys entries) ↔ key ∉ keys entries := by
  constructor
  · intro hperm hkey
    exact notMem_keys_erase key entries (hperm.mem_iff.mpr hkey)
  · intro hkey
    rw [erase_of_notMem hkey]

-- The entry of a key that meets a condition is found among those that do.
theorem get?_filter {p : κ → Bool} {key : κ} (hkey : p key = true) (entries : List (κ × α)) :
    get? key (entries.filter fun entry => p entry.1) = get? key entries := by
  induction entries with
  | nil => rfl
  | cons entry rest ih =>
      obtain ⟨k, a⟩ := entry
      by_cases hk : k = key
      · simp [hk, hkey, get?]
      · by_cases hp : p k = true <;> simp [hp, get?, hk, ih]

theorem filter_put (p : κ → Bool) (key : κ) (value : α) (entries : List (κ × α)) :
    (put key value entries).filter (fun entry => p entry.1) =
      if p key then put key value (entries.filter fun entry => p entry.1)
      else entries.filter fun entry => p entry.1 := by
  induction entries with
  | nil => by_cases hkey : p key = true <;> simp [put, hkey]
  | cons entry rest ih =>
      obtain ⟨k, a⟩ := entry
      by_cases hk : k = key
      · by_cases hkey : p key = true <;> simp [put, hk, hkey]
      · by_cases hp : p k = true
        · by_cases hkey : p key = true <;> simpa [hp, put, hk, hkey] using ih
        · by_cases hkey : p key = true <;> simpa [hp, put, hk, hkey] using ih

theorem filter_erase (p : κ → Bool) (key : κ) (entries : List (κ × α)) :
    (erase key entries).filter (fun entry => p entry.1) =
      erase key (entries.filter fun entry => p entry.1) := by
  rw [erase, erase, List.filter_filter, List.filter_filter]
  exact List.filter_congr fun entry _ => Bool.and_comm _ _

theorem filter_erase_of_neg {p : κ → Bool} {key : κ} (hkey : p key = false)
    (entries : List (κ × α)) :
    (erase key entries).filter (fun entry => p entry.1) =
      entries.filter fun entry => p entry.1 := by
  rw [filter_erase]
  refine erase_of_notMem fun hmem => ?_
  obtain ⟨entry, hentry, rfl⟩ := List.mem_map.mp hmem
  simp [hkey] at hentry

end TaggedCache.Assoc

import TaggedCache.Proofs.Registry
import TaggedCache.Proofs.Switch
import TaggedCache.Proofs.Text.Blank

namespace TaggedCache

open Text

theorem takeWhile_ne {cs : List Char} (h : '<' ∉ cs) (rest : List Char) :
    (cs ++ rest).takeWhile (· ≠ '<') = cs ++ rest.takeWhile (· ≠ '<') :=
  List.takeWhile_append_of_pos fun _ hc => decide_eq_true fun heq => h (heq ▸ hc)

theorem takeWhile_ne_self {cs : List Char} (h : '<' ∉ cs) : cs.takeWhile (· ≠ '<') = cs := by
  simpa using takeWhile_ne h []

-- It does not matter whether a name is trimmed before its type arguments are cut off or after.
theorem baseName_eq (name : String) :
    baseName name = trim (String.ofList (name.toList.takeWhile (· ≠ '<'))) := by
  rw [baseName, trimEnd, dropEndWhile_eq, toList_trim, String.toList_ofList, trim,
    dropEndWhile_eq, String.toList_ofList]
  refine congrArg String.ofList ?_
  generalize name.toList = cs
  by_cases hmem : '<' ∈ cs
  · obtain ⟨front, arguments, rfl, hfront⟩ := List.eq_append_cons_of_mem hmem
    have hdrop : '<' ∉ front.dropWhile isBlank := fun h =>
      hfront ((List.dropWhile_suffix _).subset h)
    rw [dropWhile_append_cons (by decide), rdropWhile_append_cons (by decide),
      takeWhile_ne hdrop, takeWhile_ne hfront]
    simp
  · have htrimmed : '<' ∉ (cs.dropWhile isBlank).rdropWhile isBlank := fun h =>
      hmem ((List.dropWhile_suffix _).subset ((List.rdropWhile_prefix isBlank _).subset h))
    rw [takeWhile_ne_self hmem, takeWhile_ne_self htrimmed, List.rdropWhile_idempotent]

theorem baseName_of_notMem {name : String} (h : '<' ∉ name.toList) : baseName name = trim name := by
  rw [baseName_eq, takeWhile_ne_self h, String.ofList_toList]

-- Type arguments are no part of a name.
theorem baseName_arguments {name : String} (h : '<' ∉ name.toList) (arguments : String) :
    baseName (name ++ "<" ++ arguments) = baseName name := by
  have hchars : (name ++ "<" ++ arguments).toList = name.toList ++ '<' :: arguments.toList := by
    simp
  rw [baseName_of_notMem h, baseName_eq, hchars, takeWhile_ne h]
  simp

-- What can stand in front of the last segment of a qualified name: something other than blanks
-- and separators, without type arguments
structure IsNamePath (path : String) : Prop where
  plain : '<' ∉ path.toList
  named : ∃ c ∈ path.toList, isBlank c = false ∧ isNameSeparator c = false

instance (path : String) : Decidable (IsNamePath path) :=
  decidable_of_iff
    ('<' ∉ path.toList ∧ path.toList.any fun c => !isBlank c && !isNameSeparator c)
    ⟨fun h => ⟨h.1, by simpa using h.2⟩, fun h => ⟨h.plain, by simpa using h.named⟩⟩

-- A segment of a qualified name, without blanks around it and without type arguments
structure IsNameSegment (segment : String) : Prop where
  nonempty : segment ≠ ""
  trimmed : trim segment = segment
  plain : '<' ∉ segment.toList
  single : ∀ c ∈ segment.toList, isNameSeparator c = false

instance (segment : String) : Decidable (IsNameSegment segment) :=
  decidable_of_iff
    (segment ≠ "" ∧ trim segment = segment ∧ '<' ∉ segment.toList ∧
      segment.toList.all fun c => !isNameSeparator c)
    ⟨fun h => ⟨h.1, h.2.1, h.2.2.1, by simpa using h.2.2.2⟩,
      fun h => ⟨h.nonempty, h.trimmed, h.plain, by simpa using h.single⟩⟩

theorem lastSegment?_append {path segment : List Char} {separator : Char}
    (hpath : ∃ c ∈ path, isNameSeparator c = false) (hseparator : isNameSeparator separator)
    (hne : segment ≠ []) (hsegment : ∀ c ∈ segment, isNameSeparator c = false) :
    lastSegment? (String.ofList (path ++ separator :: segment)) =
      some (String.ofList segment) := by
  have hkeep : ∀ c ∈ segment.reverse, (!isNameSeparator c) = true := by simpa using hsegment
  have hchars : (path ++ separator :: segment).reverse =
      segment.reverse ++ separator :: path.reverse := by simp
  have hrest : (separator :: path.reverse).dropWhile isNameSeparator ≠ [] := by
    obtain ⟨c, hc, hkept⟩ := hpath
    intro hnil
    have hdropped := List.dropWhile_eq_nil_iff.mp hnil c (by simp [hc])
    cases hkept.symm.trans hdropped
  have hfirst : (segment.reverse ++ separator :: path.reverse).takeWhile
      (fun c => !isNameSeparator c) = segment.reverse := by
    rw [List.takeWhile_append_of_pos hkeep]
    simp [hseparator]
  have hsecond : (segment.reverse ++ separator :: path.reverse).dropWhile
      (fun c => !isNameSeparator c) = separator :: path.reverse := by
    rw [List.dropWhile_append_of_pos hkeep]
    simp [hseparator]
  have hboth : ¬(segment.reverse.isEmpty ||
      ((separator :: path.reverse).dropWhile isNameSeparator).isEmpty) = true := by
    simp only [Bool.or_eq_true, List.isEmpty_iff, not_or, List.reverse_eq_nil_iff]
    exact ⟨hne, hrest⟩
  simp only [lastSegment?, String.toList_ofList, hchars, hfirst, hsecond]
  rw [if_neg hboth, List.reverse_reverse]

-- Trimming leaves a path and a segment together, apart from blanks in front of the path.
theorem exists_trim_qualified {path segment : String} (hpath : IsNamePath path)
    (hsegment : IsNameSegment segment) (separator : Char) :
    ∃ front : List Char, (∃ c ∈ front, isNameSeparator c = false) ∧
      trim (path ++ String.singleton separator ++ segment) =
        String.ofList (front ++ separator :: segment.toList) := by
  obtain ⟨c, hc, hblank, hkept⟩ := hpath.named
  obtain ⟨before, after, heq⟩ := List.append_of_mem hc
  have hend : segment.toList.rdropWhile isBlank = segment.toList := by
    have htrim := congrArg String.toList hsegment.trimmed
    rw [toList_trim] at htrim
    rw [← htrim, List.rdropWhile_idempotent]
  refine ⟨before.dropWhile isBlank ++ c :: after, ⟨c, by simp, hkept⟩, ?_⟩
  have hchars : (path ++ String.singleton separator ++ segment).toList =
      before ++ c :: (after ++ separator :: segment.toList) := by simp [heq]
  rw [trim, dropEndWhile_eq, hchars, dropWhile_append_cons hblank]
  refine congrArg String.ofList ?_
  have hnil : segment.toList ≠ [] := by simpa using hsegment.nonempty
  have hsplit : before.dropWhile isBlank ++ c :: (after ++ separator :: segment.toList) =
      before.dropWhile isBlank ++ c :: (after ++ [separator]) ++ segment.toList := by simp
  rw [hsplit, rdropWhile_append_of_self hnil hend]
  simp

-- The kind that a qualified name stands for is that of its last segment.
theorem ContainerKind.ofName?_qualified {path segment : String} {separator : Char}
    (hpath : IsNamePath path) (hseparator : isNameSeparator separator)
    (hsegment : IsNameSegment segment) :
    ofName? (path ++ String.singleton separator ++ segment) =
      (known? segment).orElse fun _ => family? segment := by
  obtain ⟨front, hfront, htrim⟩ := exists_trim_qualified hpath hsegment separator
  have hplain : '<' ∉ (path ++ String.singleton separator ++ segment).toList := by
    have hother : '<' ≠ separator := by
      rintro rfl
      cases hseparator
    simp only [String.toList_append, String.toList_singleton, List.mem_append, not_or,
      List.mem_singleton]
    exact ⟨⟨hpath.plain, hother⟩, hsegment.plain⟩
  have hlast := lastSegment?_append hfront hseparator (by simpa using hsegment.nonempty)
    hsegment.single
  rw [ofName?, baseName_of_notMem hplain, htrim, hlast, String.ofList_toList]
  rfl

namespace Registry

variable {M : ObjectModel} {r : Registry M}

theorem resolve_congr_trim {name other : String} (h : trim name = trim other) :
    r.resolve name = r.resolve other := by
  rw [resolve, resolve, h]

-- A name that stands for no type is looked up by its base name only.
theorem resolve_congr_baseName {name other : String} (hname : ¬r.contains name)
    (hother : ¬r.contains other) (h : baseName name = baseName other) :
    r.resolve name = r.resolve other := by
  have hnone {name : String} (hname : ¬r.contains name) : Assoc.get? (trim name) r.objects = none :=
    Assoc.get?_eq_none_iff.mpr (Assoc.has_iff.not.mp hname)
  simp only [resolve, hnone hname, hnone hother, ContainerKind.ofName?, baseName_trim, h]

-- What a name stands for does not depend on blanks around it. For a container it does not depend
-- on type arguments either, and for a container that was not registered not even on the path.
theorem resolve_normalizes (r : Registry M) :
    (∀ before name after : String, (∀ c ∈ before.toList, isBlank c) →
      (∀ c ∈ after.toList, isBlank c) → r.resolve (before ++ name ++ after) = r.resolve name) ∧
    (∀ name arguments : String, '<' ∉ name.toList → ¬r.contains name →
      ¬r.contains (name ++ "<" ++ arguments) →
        r.resolve (name ++ "<" ++ arguments) = r.resolve name) ∧
    ∀ (path other segment : String) (separator otherSeparator : Char),
      IsNamePath path → IsNamePath other → isNameSeparator separator →
      isNameSeparator otherSeparator → IsNameSegment segment →
        ContainerKind.ofName? (path ++ String.singleton separator ++ segment) =
            ContainerKind.ofName? (other ++ String.singleton otherSeparator ++ segment) ∧
          ContainerKind.ofName? (path ++ String.singleton separator ++ segment) =
            (ContainerKind.known? segment).orElse fun _ => ContainerKind.family? segment := by
  refine ⟨fun before name after hbefore hafter => ?_, fun name arguments hplain hname hlong => ?_,
    fun path other segment separator otherSeparator hpath hother hseparator hotherSeparator
      hsegment => ?_⟩
  · exact resolve_congr_trim (trim_append hbefore hafter name)
  · exact resolve_congr_baseName hlong hname (baseName_arguments hplain arguments)
  · have hkind := ContainerKind.ofName?_qualified hpath hseparator hsegment
    have hsame := ContainerKind.ofName?_qualified hother hotherSeparator hsegment
    exact ⟨hkind.trans hsame.symm, hkind⟩

-- A container that was registered under a name with blanks and a type argument
theorem resolve_normalizes_ledger :
    let r : Registry Switch := .ofPlan [.type (), .container " acme.Ledger <K>" (.map .sorted)]
    r.resolve "acme.Ledger" = some (.container (.map .sorted)) ∧
      r.resolve ("\t " ++ "acme.Ledger" ++ "\u3000") = r.resolve "acme.Ledger" ∧
      r.resolve ("acme.Ledger" ++ "<" ++ "String, Row<T>>") = r.resolve "acme.Ledger" ∧
      ContainerKind.ofName? ("java.util" ++ String.singleton '.' ++ "TreeSet") =
        ContainerKind.ofName? (" acme: " ++ String.singleton '$' ++ "TreeSet") ∧
      ContainerKind.ofName? ("java.util" ++ String.singleton '.' ++ "TreeSet") =
        some (.collection .sortedSet) := by
  intro r
  obtain ⟨hblanks, harguments, hpath⟩ := resolve_normalizes r
  have hbefore : ∀ c ∈ "\t ".toList, isBlank c := List.all_eq_true.mp (by decide)
  have hafter : ∀ c ∈ "\u3000".toList, isBlank c := List.all_eq_true.mp (by decide)
  exact ⟨by decide +kernel, hblanks _ _ _ hbefore hafter,
    harguments _ _ (by decide) (by decide +kernel) (by decide +kernel),
    hpath _ _ _ _ _ (by decide) (by decide) rfl rfl (by decide +kernel)⟩

end Registry

end TaggedCache

import TaggedCache.Proofs.Assoc
import TaggedCache.Proofs.Text.Blank
import TaggedCache.Registry

namespace TaggedCache

variable {M : ObjectModel}

namespace Registry

-- What is written under a name is what the name stands for: kinds of container under their
-- wire names, and a type that some name stands for under the name its objects are written under.
structure Consistent (r : Registry M) : Prop where
  wireName : ∀ kind : ContainerKind, r.resolve kind.wireName = some (.container kind)
  nameOf : ∀ name (object : Object M), r.resolve name = some (.object object.type) →
    r.resolve (r.nameOf object) = some (.object object.type)

-- Every type that has a name is registered.
def Known (r : Registry M) : Prop := ∀ entry ∈ r.objects, entry.2 ∈ Assoc.keys r.names

theorem known_register {r : Registry M} (h : r.Known) (type : M.Ty) : (r.register type).Known := by
  intro entry hentry
  refine Assoc.mem_keys_put.mpr ?_
  rcases Assoc.mem_of_mem_put hentry with rfl | hentry
  · exact .inl rfl
  · exact .inr (h entry hentry)

theorem known_registerAlias {r : Registry M} (h : r.Known) (type : M.Ty) (name : String) :
    (r.registerAlias type name).Known := by
  have hknown : (if Assoc.has type r.names then r else r.register type).Known := by
    split
    · exact h
    · exact known_register h type
  rw [registerAlias]
  generalize (if Assoc.has type r.names then r else r.register type) = r at hknown ⊢
  cases htarget : Assoc.get? (M.name type) r.objects with
  | none => simpa [htarget] using hknown
  | some target =>
      intro entry hentry
      rcases Assoc.mem_of_mem_put hentry with rfl | hentry
      · exact hknown (M.name type, target) (Assoc.mem_of_get?_eq_some htarget)
      · exact hknown entry hentry

theorem known_apply {r : Registry M} (h : r.Known) (registration : Registration M) :
    (r.apply registration).Known :=
  match registration with
  | .type type => known_register h type
  | .alias type name => known_registerAlias h type name
  | .container _ _ => h

theorem known_foldl_apply {r : Registry M} (h : r.Known) (plan : List (Registration M)) :
    (plan.foldl apply r).Known := by
  induction plan generalizing r with
  | nil => exact h
  | cons registration rest ih => exact ih (known_apply h registration)

theorem known_ofPlan (plan : List (Registration M)) : (ofPlan plan).Known :=
  known_foldl_apply (r := empty) nofun plan

theorem get?_objects_of_resolve {r : Registry M} {name : String} {type : M.Ty}
    (h : r.resolve name = some (.object type)) :
    Assoc.get? (Text.trim name) r.objects = some type := by
  unfold resolve at h
  cases hobject : Assoc.get? (Text.trim name) r.objects with
  | some other =>
      simp only [hobject, Option.map_some, Option.orElse_some, Option.some.injEq] at h
      cases h
      rfl
  | none =>
      cases hcontainer : Assoc.get? (baseName (Text.trim name)) r.containers <;>
        cases hbuiltIn : ContainerKind.ofName? (Text.trim name) <;>
        simp [hobject, hcontainer, hbuiltIn] at h

theorem resolve_eq_object_iff {r : Registry M} {name : String} {type : M.Ty} :
    r.resolve name = some (.object type) ↔ Assoc.get? (Text.trim name) r.objects = some type := by
  refine ⟨get?_objects_of_resolve, fun h => ?_⟩
  rw [resolve, h]
  rfl

-- A name that a registration gives a meaning: that of a type, an alias, or any name that has
-- the base name of a container. An alias also makes known a type that was not.
def Touches (r : Registry M) (registration : Registration M) (name : String) : Prop :=
  match registration with
  | .type type => Text.trim name = M.name type
  | .alias type other =>
      Text.trim name = other ∨ type ∉ Assoc.keys r.names ∧ Text.trim name = M.name type
  | .container container _ => baseName name = baseName container

instance (r : Registry M) (registration : Registration M) (name : String) :
    Decidable (r.Touches registration name) :=
  match registration with
  | .type type => inferInstanceAs (Decidable (Text.trim name = M.name type))
  | .alias type other => inferInstanceAs (Decidable
      (Text.trim name = other ∨ type ∉ Assoc.keys r.names ∧ Text.trim name = M.name type))
  | .container container _ => inferInstanceAs (Decidable (baseName name = baseName container))

theorem resolve_register {r : Registry M} {type : M.Ty} {name : String}
    (h : Text.trim name ≠ M.name type) : (r.register type).resolve name = r.resolve name := by
  simp only [resolve, register, Assoc.get?_put, if_neg (Ne.symm h)]

theorem resolve_registerAlias {r : Registry M} {type : M.Ty} {other name : String}
    (hother : Text.trim name ≠ other)
    (hknown : type ∉ Assoc.keys r.names → Text.trim name ≠ M.name type) :
    (r.registerAlias type other).resolve name = r.resolve name := by
  have hsame : (if Assoc.has type r.names then r else r.register type).resolve name =
      r.resolve name := by
    split
    · rfl
    · rename_i hnew
      exact resolve_register (hknown fun hkey => hnew (Assoc.has_iff.mpr hkey))
  rw [registerAlias, ← hsame]
  generalize (if Assoc.has type r.names then r else r.register type) = known
  cases Assoc.get? (M.name type) known.objects with
  | none => rfl
  | some target => simp only [resolve, Assoc.get?_put, if_neg (Ne.symm hother)]

theorem resolve_registerContainer {r : Registry M} {container name : String} {kind : ContainerKind}
    (h : baseName name ≠ baseName container) :
    (r.registerContainer container kind).resolve name = r.resolve name := by
  simp only [resolve, registerContainer, baseName_trim, Assoc.get?_put, if_neg (Ne.symm h)]

-- A registration changes the meaning of no other names than those it touches.
theorem resolve_apply {r : Registry M} {registration : Registration M} {name : String}
    (h : ¬r.Touches registration name) : (r.apply registration).resolve name = r.resolve name :=
  match registration with
  | .type _ => resolve_register h
  | .alias _ _ =>
      resolve_registerAlias (fun hname => h (.inl hname)) fun hnew hname => h (.inr ⟨hnew, hname⟩)
  | .container _ _ => resolve_registerContainer h

-- A name that some registration of a plan touches when its turn comes
def TouchedBy (r : Registry M) : List (Registration M) → String → Prop
  | [], _ => False
  | registration :: rest, name =>
      r.Touches registration name ∨ (r.apply registration).TouchedBy rest name

instance decidableTouchedBy (r : Registry M) (plan : List (Registration M)) (name : String) :
    Decidable (r.TouchedBy plan name) :=
  match plan with
  | [] => inferInstanceAs (Decidable False)
  | registration :: rest =>
      have := decidableTouchedBy (r.apply registration) rest name
      inferInstanceAs (Decidable
        (r.Touches registration name ∨ (r.apply registration).TouchedBy rest name))

theorem resolve_foldl_apply {r : Registry M} {plan : List (Registration M)} {name : String}
    (h : ¬r.TouchedBy plan name) : (plan.foldl apply r).resolve name = r.resolve name := by
  induction plan generalizing r with
  | nil => rfl
  | cons registration rest ih =>
      rw [TouchedBy, not_or] at h
      rw [List.foldl_cons, ih h.2, resolve_apply h.1]

-- Without registrations, no name stands for a type.
theorem resolve_empty_ne (name : String) (type : M.Ty) :
    (empty : Registry M).resolve name ≠ some (.object type) := by
  intro h
  have hobject := get?_objects_of_resolve h
  simp [empty, Assoc.get?] at hobject

-- A registry is consistent if the name of each registered type stands for the type.
theorem consistent_ofPlan {plan : List (Registration M)}
    (hkinds : ∀ kind : ContainerKind,
      (ofPlan plan).resolve kind.wireName = some (.container kind))
    (htypes : ∀ type name, Assoc.get? type (ofPlan plan).names = some name →
      (ofPlan plan).resolve name = some (.object type)) : (ofPlan plan).Consistent := by
  refine ⟨hkinds, fun name object hname => ?_⟩
  have hobject := Assoc.mem_of_get?_eq_some (get?_objects_of_resolve hname)
  obtain ⟨canonical, hcanonical⟩ := Assoc.exists_get?_of_mem (known_ofPlan plan _ hobject)
  rw [nameOf, hcanonical]
  exact htypes object.type canonical hcanonical

end Registry

end TaggedCache

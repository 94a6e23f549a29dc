import TaggedCache.Proofs.Codec.Decoding
import TaggedCache.Proofs.Codec.Reading
import TaggedCache.Proofs.Registry.Linked
import TaggedCache.Proofs.Switch

namespace TaggedCache

open Json

variable {M : ObjectModel}

namespace Registry

-- A registration that gives a name to a type anew. The name of a container kind is another one.
def Renames (r : Registry M) (registration : Registration M) (name : String) : Prop :=
  match registration with
  | .type type => M.name type = name
  | .alias type other => other = name ∨ type ∉ Assoc.keys r.names ∧ M.name type = name
  | .container _ _ => False

instance (r : Registry M) (registration : Registration M) (name : String) :
    Decidable (r.Renames registration name) :=
  match registration with
  | .type type => inferInstanceAs (Decidable (M.name type = name))
  | .alias type other => inferInstanceAs (Decidable
      (other = name ∨ type ∉ Assoc.keys r.names ∧ M.name type = name))
  | .container _ _ => inferInstanceAs (Decidable False)

-- A name that some registration of a plan gives to a type when its turn comes
def RenamedBy (r : Registry M) : List (Registration M) → String → Prop
  | [], _ => False
  | registration :: rest, name =>
      r.Renames registration name ∨ (r.apply registration).RenamedBy rest name

instance decidableRenamedBy (r : Registry M) (plan : List (Registration M)) (name : String) :
    Decidable (r.RenamedBy plan name) :=
  match plan with
  | [] => inferInstanceAs (Decidable False)
  | registration :: rest =>
      have := decidableRenamedBy (r.apply registration) rest name
      inferInstanceAs (Decidable
        (r.Renames registration name ∨ (r.apply registration).RenamedBy rest name))

-- What an alias of a type needs in order to mean the type: a type that is known already still
-- has its own name. An alias with blanks around it is never looked up, so it means the type only
-- if the name without the blanks does.
def AliasMeans (r : Registry M) (type : M.Ty) (name : String) : Prop :=
  if Text.trim name = name then
    type ∈ Assoc.keys r.names → Assoc.get? (M.name type) r.objects = some type
  else
    Assoc.get? (Text.trim name) r.objects = some type ∨
      type ∉ Assoc.keys r.names ∧ M.name type = Text.trim name

instance (r : Registry M) (type : M.Ty) (name : String) : Decidable (r.AliasMeans type name) :=
  inferInstanceAs (Decidable
    (if Text.trim name = name then
      type ∈ Assoc.keys r.names → Assoc.get? (M.name type) r.objects = some type
    else
      Assoc.get? (Text.trim name) r.objects = some type ∨
        type ∉ Assoc.keys r.names ∧ M.name type = Text.trim name))

variable {r : Registry M}

theorem get?_objects_registerAlias (h : r.Linked) (type : M.Ty) (other name : String) :
    Assoc.get? name (r.registerAlias type other).objects =
      if other = name then some (r.bearer type)
      else Assoc.get? name (r.knowing type).objects := by
  rw [registerAlias_eq h, Assoc.get?_put]

theorem get?_objects_apply (h : r.Linked) {registration : Registration M} {name : String}
    (hname : ¬r.Renames registration name) :
    Assoc.get? name (r.apply registration).objects = Assoc.get? name r.objects := by
  match registration with
  | .type type =>
      rw [Renames] at hname
      rw [apply, register, Assoc.get?_put, if_neg hname]
  | .alias type other =>
      rw [Renames, not_or] at hname
      rw [apply, get?_objects_registerAlias h, if_neg hname.1, get?_objects_knowing,
        if_neg hname.2]
  | .container _ _ => rfl

-- A name keeps its type as long as it is not given to a type anew.
theorem get?_objects_foldl_apply (h : r.Linked) {plan : List (Registration M)} {name : String}
    (hname : ¬r.RenamedBy plan name) :
    Assoc.get? name (plan.foldl apply r).objects = Assoc.get? name r.objects := by
  induction plan generalizing r with
  | nil => rfl
  | cons registration rest ih =>
      rw [RenamedBy, not_or] at hname
      rw [List.foldl_cons, ih (linked_apply h registration) hname.2, get?_objects_apply h hname.1]

theorem resolve_registerAlias_iff (h : r.Linked) {type : M.Ty} {name : String} :
    (r.registerAlias type name).resolve name = some (.object type) ↔ r.AliasMeans type name := by
  rw [resolve_eq_object_iff, get?_objects_registerAlias h, AliasMeans]
  by_cases htrim : Text.trim name = name
  · rw [if_pos htrim.symm, if_pos htrim, Option.some.injEq, bearer_eq_iff h]
  · rw [if_neg (Ne.symm htrim), if_neg htrim, get?_objects_knowing]
    split
    · rename_i hnew
      exact iff_of_true rfl (.inr hnew)
    · rename_i hold
      exact (or_iff_left hold).symm

end Registry

theorem ObjectModel.materialize_eq_ok_iff {other type : M.Ty} {tree : Tree}
    {payload : M.Payload type} :
    M.materialize other tree = .ok ⟨type, payload⟩ ↔
      other = type ∧ M.read type tree = .ok payload := by
  constructor
  · intro h
    rw [materialize] at h
    split at h
    · rename_i found hfound
      cases h
      exact ⟨rfl, hfound⟩
    · contradiction
  · rintro ⟨rfl, hread⟩
    rw [materialize, hread]

namespace Codec

-- An object is read as a type exactly if its tag stands for the type, which reads its fields.
theorem decodeTree_eq_object_iff {codec : Codec M} {isItem : Bool} {fields : List (String × Tree)}
    {name : String} (htag : codec.typeTag? fields = some name) {type : M.Ty}
    {payload : M.Payload type} :
    codec.decodeTree isItem (.object fields) = .object ⟨type, payload⟩ ↔
      codec.registry.resolve name = some (.object type) ∧
        M.read type (.object (Assoc.erase codec.config.discriminator fields)) = .ok payload := by
  rw [decodeTree_object, htag, Option.bind_some, fieldsAs_eq_object_iff]
  simp only [ObjectModel.materialize_eq_ok_iff]
  constructor
  · rintro ⟨other, hother, rfl, hread⟩
    exact ⟨hother, hread⟩
  · rintro ⟨htype, hread⟩
    exact ⟨type, htype, rfl, hread⟩

end Codec

namespace Registry

-- An alias means its type, until the name is given to a type anew, exactly if the type's own
-- name has not gone to another type before, and if no blanks surround it. Then documents under
-- the alias are read as the type. What the objects of the type are written under stays the same.
theorem resolve_alias_iff (plan later : List (Registration M)) (type : M.Ty) (name : String)
    (hlater : ¬(ofPlan (plan ++ [.alias type name])).RenamedBy later (Text.trim name)) :
    let r := ofPlan (plan ++ .alias type name :: later)
    (r.resolve name = some (.object type) ↔ (ofPlan plan).AliasMeans type name) ∧
    (∀ object : Object M, object.type = type → r.nameOf object = M.name type) ∧
    ∀ (config : CodecConfig) (fields : List (String × Tree)) (payload : M.Payload type),
      (⟨r, config⟩ : Codec M).typeTag? fields = some name →
      (∀ isItem, (⟨r, config⟩ : Codec M).decodeTree isItem (.object fields) =
          .object ⟨type, payload⟩ ↔
        (ofPlan plan).AliasMeans type name ∧
          M.read type (.object (Assoc.erase config.discriminator fields)) = .ok payload) ∧
      ∀ document, Codec.tree? document = some (.object fields) →
        ((⟨r, config⟩ : Codec M).decode document = .ok (.object ⟨type, payload⟩) ↔
          (ofPlan plan).AliasMeans type name ∧
            M.read type (.object (Assoc.erase config.discriminator fields)) = .ok payload) := by
  intro r
  have hrun : r = later.foldl apply (ofPlan (plan ++ [.alias type name])) := by
    rw [ofPlan, ← List.foldl_append, List.append_assoc, List.singleton_append, ← ofPlan]
  have hresolve : r.resolve name = some (.object type) ↔ (ofPlan plan).AliasMeans type name := by
    rw [hrun, resolve_eq_object_iff, get?_objects_foldl_apply (linked_ofPlan _) hlater,
      ← resolve_eq_object_iff, ofPlan_append_singleton]
    exact resolve_registerAlias_iff (linked_ofPlan plan)
  refine ⟨hresolve, ?_, fun config fields payload htag => ?_⟩
  · rintro object rfl
    exact nameOf_eq (linked_ofPlan _) object
  · have htree (isItem : Bool) : (⟨r, config⟩ : Codec M).decodeTree isItem (.object fields) =
          .object ⟨type, payload⟩ ↔
        (ofPlan plan).AliasMeans type name ∧
          M.read type (.object (Assoc.erase config.discriminator fields)) = .ok payload := by
      rw [Codec.decodeTree_eq_object_iff htag, hresolve]
    refine ⟨htree, fun document hdocument => ?_⟩
    rw [Codec.decode_of_tree? hdocument, Except.ok.injEq]
    exact htree false

-- An alias keeps its type although the type's own name goes to another one later on, and
-- although a kind of container gets the name of the alias.
theorem resolve_alias_iff_kept :
    let plan : List (Registration Label) := [.type (Label.older "demo.A")]
    let later : List (Registration Label) :=
      [.type (Label.newer "demo.A"), .container "old.A" (.map .sorted),
        .alias (Label.older "demo.A") "demo.B"]
    let r := ofPlan (plan ++ .alias (Label.older "demo.A") "old.A" :: later)
    let fields : List (String × Tree) := [("@class", .string "old.A"), ("n", .bool true)]
    ¬(ofPlan (plan ++ [.alias (Label.older "demo.A") "old.A"])).RenamedBy later
      (Text.trim "old.A") ∧
    r.resolve "old.A" = some (.object (Label.older "demo.A")) ∧
    r.nameOf ⟨Label.older "demo.A", .null⟩ = "demo.A" ∧
    (⟨r, .default⟩ : Codec Label).decode (Tree.object fields).text.toUTF8 =
      .ok (.object ⟨Label.older "demo.A", .object [("n", .bool true)]⟩) := by
  intro plan later r fields
  have hlater : ¬(ofPlan (plan ++ [.alias (Label.older "demo.A") "old.A"])).RenamedBy later
      (Text.trim "old.A") := by decide
  have hmeans : (ofPlan plan).AliasMeans (Label.older "demo.A") "old.A" := by decide
  obtain ⟨hresolve, hname, hread⟩ := resolve_alias_iff plan later _ _ hlater
  obtain ⟨-, hdocument⟩ := hread .default fields (.object [("n", .bool true)]) rfl
  refine ⟨hlater, hresolve.mpr hmeans, hname _ rfl, ?_⟩
  exact (hdocument _ (Codec.tree?_text (by decide) (by decide))).mpr ⟨hmeans, rfl⟩

-- An alias does not always mean its type: another type can have taken the type's own name, by
-- its registration or by an alias, and blanks around the alias keep it from being found.
theorem resolve_alias_ne :
    (¬∀ (plan : List (Registration Label)) (type : Label.Ty) (name : String),
      Text.trim name = name →
        (ofPlan (plan ++ [.alias type name])).resolve name = some (.object type)) ∧
    ¬∀ (type : Label.Ty) (name : String), Text.trim (Label.name type) = Label.name type →
      (ofPlan [.alias type name]).resolve name = some (.object type) := by
  constructor
  · intro h
    have htaken := h [.type (Label.older "demo.A"), .type (Label.newer "demo.A")]
      (Label.older "demo.A") "old.A" (by decide)
    exact absurd htaken (by decide)
  · intro h
    exact absurd (h (Label.older "demo.A") " old.A " (by decide)) (by decide)

end Registry

end TaggedCache

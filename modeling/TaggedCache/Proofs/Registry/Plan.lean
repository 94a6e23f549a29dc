import TaggedCache.Proofs.Registry.Linked
import TaggedCache.Proofs.Switch
import Mathlib.Data.List.Infix

namespace TaggedCache

variable {M : ObjectModel}

-- The base name that a registration gives to a kind of container
def Registration.kinds : Registration M → List (String × ContainerKind)
  | .container name kind => [(baseName name, kind)]
  | .type _ | .alias _ _ => []

-- No name is given to two types, and no base name to two kinds of container.
structure Unambiguous (plan : List (Registration M)) : Prop where
  names : Assoc.Functional (plan.flatMap Registration.names)
  kinds : Assoc.Functional (plan.flatMap Registration.kinds)

theorem Unambiguous.perm {plan others : List (Registration M)} (h : Unambiguous plan)
    (hperm : plan.Perm others) : Unambiguous others where
  names := h.names.of_subset (hperm.flatMap_right _).symm.subset
  kinds := h.kinds.of_subset (hperm.flatMap_right _).symm.subset

namespace Registry

section Step

variable {r : Registry M}

theorem mem_objects_knowing {type : M.Ty} {entry : String × M.Ty}
    (h : entry ∈ (r.knowing type).objects) : entry = (M.name type, type) ∨ entry ∈ r.objects := by
  unfold knowing at h
  split at h
  · exact .inr h
  · exact Assoc.mem_of_mem_put h

-- A registration adds no other entries than those it gives, if each alias finds its own type.
theorem mem_objects_apply (hlinked : r.Linked) {registration : Registration M}
    (hbearer : ∀ type ∈ registration.type?, r.bearer type = type) {entry : String × M.Ty}
    (h : entry ∈ (r.apply registration).objects) :
    entry ∈ registration.names ∨ entry ∈ r.objects := by
  match registration with
  | .type type => exact (Assoc.mem_of_mem_put h).imp_left List.mem_singleton.mpr
  | .alias type name =>
      rw [apply, registerAlias_eq hlinked, hbearer type rfl] at h
      rcases Assoc.mem_of_mem_put h with rfl | h
      · exact .inl List.mem_cons_self
      · exact (mem_objects_knowing h).imp_left fun heq => by simp [heq, Registration.names]
  | .container _ _ => exact .inr h

theorem mem_containers_apply {registration : Registration M} {entry : String × ContainerKind}
    (h : entry ∈ (r.apply registration).containers) :
    entry ∈ registration.kinds ∨ entry ∈ r.containers := by
  match registration with
  | .type _ => exact .inr h
  | .alias type name =>
      rw [apply, containers_registerAlias] at h
      exact .inr h
  | .container _ _ => exact (Assoc.mem_of_mem_put h).imp_left List.mem_singleton.mpr

theorem mem_keys_containers_apply {registration : Registration M} {base : String} :
    base ∈ Assoc.keys (r.apply registration).containers ↔
      base ∈ Assoc.keys registration.kinds ∨ base ∈ Assoc.keys r.containers := by
  match registration with
  | .type _ => simp [apply, register, Registration.kinds]
  | .alias type name => simp [apply, containers_registerAlias, Registration.kinds]
  | .container _ _ => simp [apply, registerContainer, Registration.kinds, Assoc.mem_keys_put]

end Step

section Run

variable {plan others : List (Registration M)}

-- A table holds nothing but what the registrations of a plan give if each of them, in its turn,
-- adds only what it gives.
theorem ofPlan_subset {β : Type} (table : Registry M → List β) {gives : Registration M → List β}
    (hempty : table empty = []) (plan : List (Registration M))
    (hstep : ∀ before registration, before ++ [registration] <+: plan →
      table (ofPlan before) ⊆ before.flatMap gives →
        ∀ entry ∈ table ((ofPlan before).apply registration),
          entry ∈ gives registration ∨ entry ∈ table (ofPlan before)) :
    table (ofPlan plan) ⊆ plan.flatMap gives := by
  induction plan using List.reverseRecOn with
  | nil =>
      change table empty ⊆ _
      rw [hempty]
      exact List.nil_subset _
  | append_singleton plan registration ih =>
      have hbefore := ih fun before other hstart =>
        hstep before other (hstart.trans (List.prefix_append _ _))
      rw [ofPlan_append_singleton, List.flatMap_append, List.flatMap_singleton]
      intro entry hentry
      rcases hstep plan registration List.prefix_rfl hbefore entry hentry with hnew | hold
      · exact List.mem_append_right _ hnew
      · exact List.mem_append_left _ (hbefore hold)

-- In an unambiguous plan, a type's own name stands for nothing else when the type gets an alias.
theorem bearer_eq_of_functional {registration : Registration M}
    (h : Assoc.Functional ((plan ++ [registration]).flatMap Registration.names))
    (hplan : (ofPlan plan).objects ⊆ plan.flatMap Registration.names) :
    ∀ type ∈ registration.type?, (ofPlan plan).bearer type = type := by
  intro type htype
  refine (bearer_eq_iff (linked_ofPlan plan)).mpr fun hknown => ?_
  obtain ⟨target, htarget⟩ := Assoc.exists_get?_of_mem ((linked_ofPlan plan).named type hknown)
  have hgiven := hplan (Assoc.mem_of_get?_eq_some htarget)
  have hown := Registration.name_mem_names htype
  rw [List.flatMap_append, List.flatMap_singleton] at h
  rw [htarget]
  exact congrArg some
    (h _ (List.mem_append_left _ hgiven) _ (List.mem_append_right _ hown) rfl)

theorem objects_subset (h : Assoc.Functional (plan.flatMap Registration.names)) :
    (ofPlan plan).objects ⊆ plan.flatMap Registration.names := by
  refine ofPlan_subset objects rfl plan
    fun before registration hstart hbefore entry hentry => ?_
  have hfunctional := h.of_subset (hstart.flatMap Registration.names).subset
  exact mem_objects_apply (linked_ofPlan before) (bearer_eq_of_functional hfunctional hbefore)
    hentry

theorem containers_subset : (ofPlan plan).containers ⊆ plan.flatMap Registration.kinds :=
  ofPlan_subset containers rfl plan fun _ _ _ _ _ hentry => mem_containers_apply hentry

-- A name stands for the type that it was given to.
theorem get?_objects_ofPlan (h : Unambiguous plan) {name : String} {type : M.Ty} :
    Assoc.get? name (ofPlan plan).objects = some type ↔
      (name, type) ∈ plan.flatMap Registration.names := by
  refine Assoc.get?_eq_some_iff_of_functional h.names (objects_subset h.names) fun name hname => ?_
  exact mem_keys_objects_ofPlan.mpr (Assoc.mem_keys_flatMap.mp hname)

theorem get?_containers_ofPlan (h : Unambiguous plan) {base : String} {kind : ContainerKind} :
    Assoc.get? base (ofPlan plan).containers = some kind ↔
      (base, kind) ∈ plan.flatMap Registration.kinds := by
  refine Assoc.get?_eq_some_iff_of_functional h.kinds containers_subset fun base hbase => ?_
  exact (ofPlan_iff_exists (p := fun r : Registry M => base ∈ Assoc.keys r.containers) nofun
    (fun _ _ _ => mem_keys_containers_apply) plan).mpr (Assoc.mem_keys_flatMap.mp hbase)

theorem size_eq_of_perm (hperm : plan.Perm others) : (ofPlan plan).size = (ofPlan others).size := by
  have hkeys : (Assoc.keys (ofPlan plan).objects).Perm (Assoc.keys (ofPlan others).objects) := by
    refine (List.perm_ext_iff_of_nodup (linked_ofPlan plan).nodup (linked_ofPlan others).nodup).mpr
      fun name => ?_
    simp only [mem_keys_objects_ofPlan, hperm.mem_iff]
  simpa [size, Assoc.keys] using hkeys.length_eq

end Run

-- Registrations that do not contradict each other lead to the same registry in every order.
theorem ofPlan_perm {plan others : List (Registration M)} (h : Unambiguous plan)
    (hperm : plan.Perm others) :
    (∀ name, (ofPlan plan).resolve name = (ofPlan others).resolve name) ∧
      (∀ object : Object M, (ofPlan plan).nameOf object = (ofPlan others).nameOf object) ∧
      (ofPlan plan).size = (ofPlan others).size := by
  have hothers := h.perm hperm
  have hobjects (name : String) :
      Assoc.get? name (ofPlan plan).objects = Assoc.get? name (ofPlan others).objects := by
    refine Option.ext fun type => ?_
    rw [get?_objects_ofPlan h, get?_objects_ofPlan hothers, (hperm.flatMap_right _).mem_iff]
  have hcontainers (base : String) :
      Assoc.get? base (ofPlan plan).containers = Assoc.get? base (ofPlan others).containers := by
    refine Option.ext fun kind => ?_
    rw [get?_containers_ofPlan h, get?_containers_ofPlan hothers, (hperm.flatMap_right _).mem_iff]
  refine ⟨fun name => ?_, fun object => ?_, size_eq_of_perm hperm⟩
  · simp only [resolve, hobjects, hcontainers]
  · rw [nameOf_eq (linked_ofPlan plan), nameOf_eq (linked_ofPlan others)]

-- Aliases in front of their types and behind them, and a kind of container under two spellings
theorem ofPlan_perm_reversed :
    let plan : List (Registration Label) :=
      [.alias (Label.older "demo.A") "old.A", .container "acme.Bag<T>" (.map .sorted),
        .type (Label.newer "demo.B"), .alias (Label.newer "demo.B") "demo.C",
        .type (Label.older "demo.A"), .container " acme.Bag" (.map .sorted)]
    let object : Object Label := ⟨Label.newer "demo.B", .null⟩
    Unambiguous plan ∧ plan.Perm plan.reverse ∧
      (ofPlan plan).resolve "old.A" = (ofPlan plan.reverse).resolve "old.A" ∧
      (ofPlan plan).nameOf object = (ofPlan plan.reverse).nameOf object ∧
      (ofPlan plan).size = (ofPlan plan.reverse).size := by
  intro plan object
  have hclear : Unambiguous plan := ⟨by decide, by decide +kernel⟩
  have hperm : plan.Perm plan.reverse := (List.reverse_perm plan).symm
  obtain ⟨hresolve, hnameOf, hsize⟩ := ofPlan_perm hclear hperm
  exact ⟨hclear, hperm, hresolve "old.A", hnameOf object, hsize⟩

end Registry

end TaggedCache

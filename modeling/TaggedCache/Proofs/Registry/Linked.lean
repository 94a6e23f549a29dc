import TaggedCache.Proofs.Registry

namespace TaggedCache

variable {M : ObjectModel}

namespace Registration

-- The type that a registration is about
def type? : Registration M → Option M.Ty
  | .type known | .alias known _ => some known
  | .container _ _ => none

-- The names that a registration gives, each with its type. An alias makes the type known under
-- its own name as well, unless an earlier registration has done so.
def names : Registration M → List (String × M.Ty)
  | .type named => [(M.name named, named)]
  | .alias named name => [(name, named), (M.name named, named)]
  | .container _ _ => []

theorem name_mem_names {registration : Registration M} {type : M.Ty}
    (h : type ∈ registration.type?) : (M.name type, type) ∈ registration.names := by
  match registration with
  | .type _ | .alias _ _ =>
      cases h
      simp [names]
  | .container _ _ => cases h

end Registration

namespace Registry

-- The registry that an alias of a type starts from: the type is known in it
def knowing (r : Registry M) (type : M.Ty) : Registry M :=
  if Assoc.has type r.names then r else r.register type

-- The type that a type's own name stands for. It can be another one.
def bearer (r : Registry M) (type : M.Ty) : M.Ty :=
  (Assoc.get? (M.name type) (r.knowing type).objects).getD type

-- How the table of names and the table of types belong together: types are written under their
-- own names, which stand for something, and names stand for known types only.
structure Linked (r : Registry M) : Prop where
  own : ∀ entry ∈ r.names, entry.2 = M.name entry.1
  named : ∀ type ∈ Assoc.keys r.names, M.name type ∈ Assoc.keys r.objects
  known : r.Known
  nodup : (Assoc.keys r.objects).Nodup

theorem linked_empty : (empty : Registry M).Linked where
  own := nofun
  named := nofun
  known := nofun
  nodup := List.nodup_nil

section Step

variable {r : Registry M}

theorem linked_register (h : r.Linked) (type : M.Ty) : (r.register type).Linked where
  own entry hentry := by
    rcases Assoc.mem_of_mem_put hentry with rfl | hentry
    · rfl
    · exact h.own entry hentry
  named other hother := by
    refine Assoc.mem_keys_put.mpr ?_
    rcases Assoc.mem_keys_put.mp hother with rfl | hother
    · exact .inl rfl
    · exact .inr (h.named other hother)
  known := known_register h.known type
  nodup := Assoc.nodup_keys_put _ _ h.nodup

theorem linked_knowing (h : r.Linked) (type : M.Ty) : (r.knowing type).Linked := by
  unfold knowing
  split
  · exact h
  · exact linked_register h type

theorem mem_keys_names_knowing {type other : M.Ty} :
    other ∈ Assoc.keys (r.knowing type).names ↔ type = other ∨ other ∈ Assoc.keys r.names := by
  unfold knowing
  split
  · rename_i hhas
    refine ⟨.inr, ?_⟩
    rintro (rfl | hother)
    · exact Assoc.has_iff.mp hhas
    · exact hother
  · exact Assoc.mem_keys_put.trans (or_congr_left eq_comm)

theorem mem_keys_objects_knowing (h : r.Linked) {type : M.Ty} {name : String} :
    name ∈ Assoc.keys (r.knowing type).objects ↔
      M.name type = name ∨ name ∈ Assoc.keys r.objects := by
  unfold knowing
  split
  · rename_i hhas
    refine ⟨.inr, ?_⟩
    rintro (rfl | hname)
    · exact h.named type (Assoc.has_iff.mp hhas)
    · exact hname
  · exact Assoc.mem_keys_put.trans (or_congr_left eq_comm)

theorem get?_objects_knowing (type : M.Ty) (name : String) :
    Assoc.get? name (r.knowing type).objects =
      if type ∉ Assoc.keys r.names ∧ M.name type = name then some type
      else Assoc.get? name r.objects := by
  unfold knowing
  by_cases hkey : type ∈ Assoc.keys r.names
  · rw [if_pos (Assoc.has_iff.mpr hkey), if_neg fun h => h.1 hkey]
  · rw [if_neg (Assoc.has_iff.not.mpr hkey), register, Assoc.get?_put]
    simp only [hkey, not_false_eq_true, true_and]

theorem get?_bearer (h : r.Linked) (type : M.Ty) :
    Assoc.get? (M.name type) (r.knowing type).objects = some (r.bearer type) := by
  have hmem := mem_keys_names_knowing (r := r).mpr (.inl (rfl : type = type))
  obtain ⟨target, htarget⟩ := Assoc.exists_get?_of_mem ((linked_knowing h type).named type hmem)
  rw [bearer, htarget, Option.getD_some]

theorem bearer_eq_iff (h : r.Linked) {type : M.Ty} :
    r.bearer type = type ↔
      (type ∈ Assoc.keys r.names → Assoc.get? (M.name type) r.objects = some type) := by
  have hbearer := get?_bearer h type
  rw [get?_objects_knowing] at hbearer
  by_cases hkey : type ∈ Assoc.keys r.names
  · rw [if_neg fun h => h.1 hkey] at hbearer
    simp [hkey, hbearer]
  · rw [if_pos ⟨hkey, rfl⟩] at hbearer
    exact iff_of_true (Option.some.inj hbearer).symm fun h => absurd h hkey

-- An alias stands for what the type's own name stands for.
theorem registerAlias_eq (h : r.Linked) (type : M.Ty) (name : String) :
    r.registerAlias type name =
      { r.knowing type with
        objects := Assoc.put name (r.bearer type) (r.knowing type).objects } := by
  have hbearer := get?_bearer h type
  rw [registerAlias]
  rw [knowing] at hbearer ⊢
  simp only [hbearer]

theorem containers_registerAlias (type : M.Ty) (name : String) :
    (r.registerAlias type name).containers = r.containers := by
  have hsame : (if Assoc.has type r.names then r else r.register type).containers =
      r.containers := by
    split <;> rfl
  rw [registerAlias]
  split
  · exact hsame
  · exact hsame

theorem linked_registerAlias (h : r.Linked) (type : M.Ty) (name : String) :
    (r.registerAlias type name).Linked := by
  have hknown := known_registerAlias h.known type name
  have hlinked := linked_knowing h type
  rw [registerAlias_eq h] at hknown ⊢
  exact
    { own := hlinked.own
      named := fun other hother => Assoc.mem_keys_put.mpr (.inr (hlinked.named other hother))
      known := hknown
      nodup := Assoc.nodup_keys_put _ _ hlinked.nodup }

theorem linked_apply (h : r.Linked) (registration : Registration M) :
    (r.apply registration).Linked :=
  match registration with
  | .type type => linked_register h type
  | .alias type name => linked_registerAlias h type name
  | .container _ _ => ⟨h.own, h.named, h.known, h.nodup⟩

theorem mem_keys_names_apply (h : r.Linked) {registration : Registration M} {type : M.Ty} :
    type ∈ Assoc.keys (r.apply registration).names ↔
      registration.type? = some type ∨ type ∈ Assoc.keys r.names := by
  match registration with
  | .type other => simp [apply, register, Registration.type?, Assoc.mem_keys_put, eq_comm]
  | .alias other name =>
      rw [apply, registerAlias_eq h]
      simpa [Registration.type?] using mem_keys_names_knowing
  | .container name kind => simp [apply, registerContainer, Registration.type?]

theorem mem_keys_objects_apply (h : r.Linked) {registration : Registration M} {name : String} :
    name ∈ Assoc.keys (r.apply registration).objects ↔
      name ∈ Assoc.keys registration.names ∨ name ∈ Assoc.keys r.objects := by
  match registration with
  | .type type => simp [apply, register, Registration.names, Assoc.mem_keys_put]
  | .alias type other =>
      rw [apply, registerAlias_eq h, Assoc.mem_keys_put, mem_keys_objects_knowing h]
      simp [Registration.names, or_assoc, eq_comm]
  | .container container kind => simp [apply, registerContainer, Registration.names]

theorem get?_names (h : r.Linked) {type : M.Ty} (htype : type ∈ Assoc.keys r.names) :
    Assoc.get? type r.names = some (M.name type) := by
  obtain ⟨name, hname⟩ := Assoc.exists_get?_of_mem htype
  rw [hname]
  exact congrArg some (h.own _ (Assoc.mem_of_get?_eq_some hname))

-- Objects are written under the name of their type, known or not.
theorem nameOf_eq (h : r.Linked) (object : Object M) : r.nameOf object = object.typeName := by
  rw [nameOf]
  cases hname : Assoc.get? object.type r.names with
  | none => rfl
  | some name => exact h.own _ (Assoc.mem_of_get?_eq_some hname)

end Step

section Run

theorem ofPlan_append_singleton (plan : List (Registration M)) (registration : Registration M) :
    ofPlan (plan ++ [registration]) = (ofPlan plan).apply registration := by
  rw [ofPlan, List.foldl_append, List.foldl_cons, List.foldl_nil, ← ofPlan]

theorem linked_foldl_apply {r : Registry M} (h : r.Linked) (plan : List (Registration M)) :
    (plan.foldl apply r).Linked :=
  List.foldlRecOn plan apply h fun _ h registration _ => linked_apply h registration

theorem linked_ofPlan (plan : List (Registration M)) : (ofPlan plan).Linked :=
  linked_foldl_apply linked_empty plan

-- What registrations bring about and nothing takes away holds at the end exactly if some
-- registration has brought it about.
theorem ofPlan_iff_exists {p : Registry M → Prop} {brings : Registration M → Prop}
    (hempty : ¬p empty)
    (hstep : ∀ r : Registry M, r.Linked → ∀ registration,
      p (r.apply registration) ↔ brings registration ∨ p r) (plan : List (Registration M)) :
    p (ofPlan plan) ↔ ∃ registration ∈ plan, brings registration := by
  induction plan using List.reverseRecOn with
  | nil => exact iff_of_false hempty (by simp)
  | append_singleton plan registration ih =>
      rw [ofPlan_append_singleton, hstep _ (linked_ofPlan plan), ih]
      simp [or_and_right, exists_or, or_comm]

theorem mem_keys_names_ofPlan {plan : List (Registration M)} {type : M.Ty} :
    type ∈ Assoc.keys (ofPlan plan).names ↔
      ∃ registration ∈ plan, registration.type? = some type :=
  ofPlan_iff_exists (p := fun r => type ∈ Assoc.keys r.names) nofun
    (fun _ h _ => mem_keys_names_apply h) plan

theorem mem_keys_objects_ofPlan {plan : List (Registration M)} {name : String} :
    name ∈ Assoc.keys (ofPlan plan).objects ↔
      ∃ registration ∈ plan, name ∈ Assoc.keys registration.names :=
  ofPlan_iff_exists (p := fun r => name ∈ Assoc.keys r.objects) nofun
    (fun _ h _ => mem_keys_objects_apply h) plan

end Run

-- Whatever names were given and taken over: a type that was registered is written under its own
-- name, every name of the table stands for such a type, and so the tag of an object of a
-- registered type can be read back, though perhaps as another type. What a name stands for is the
-- type itself, which brings its own name and its reader along.
theorem readable_ofPlan (plan : List (Registration M)) :
    (∀ registration ∈ plan, ∀ type, registration.type? = some type →
      Assoc.get? type (ofPlan plan).names = some (M.name type) ∧
      (∀ object : Object M, object.type = type → (ofPlan plan).nameOf object = M.name type) ∧
      M.name type ∈ Assoc.keys (ofPlan plan).objects) ∧
    (∀ entry ∈ (ofPlan plan).objects,
      (∃ registration ∈ plan, registration.type? = some entry.2) ∧
      Assoc.get? entry.2 (ofPlan plan).names = some (M.name entry.2)) ∧
    ∀ registration ∈ plan, ∀ object : Object M, registration.type? = some object.type →
      Text.trim (M.name object.type) = M.name object.type →
      ∃ type, (ofPlan plan).resolve ((ofPlan plan).nameOf object) = some (.object type) := by
  have hlinked := linked_ofPlan plan
  have hknown {registration : Registration M} {type : M.Ty} (hmem : registration ∈ plan)
      (htype : registration.type? = some type) : type ∈ Assoc.keys (ofPlan plan).names :=
    mem_keys_names_ofPlan.mpr ⟨registration, hmem, htype⟩
  refine ⟨fun registration hmem type htype => ?_, fun entry hentry => ?_,
    fun registration hmem object htype htrim => ?_⟩
  · refine ⟨get?_names hlinked (hknown hmem htype), ?_, hlinked.named type (hknown hmem htype)⟩
    rintro object rfl
    exact nameOf_eq hlinked object
  · have hentry := hlinked.known entry hentry
    exact ⟨mem_keys_names_ofPlan.mp hentry, get?_names hlinked hentry⟩
  · obtain ⟨type, hget⟩ := Assoc.exists_get?_of_mem (hlinked.named _ (hknown hmem htype))
    refine ⟨type, ?_⟩
    rw [nameOf_eq hlinked, resolve_eq_object_iff, Object.typeName, htrim, hget]

end Registry

-- An application in which every text is the name of two types, an older and a newer one.
-- They keep any tree.
def Label : ObjectModel where
  Ty := Bool × String
  decEq := inferInstance
  name := Prod.snd
  Payload := fun _ => Json.Tree
  write := fun _ tree => .ok tree
  read := fun _ tree => .ok tree
  describe := fun _ _ => ""

def Label.older (name : String) : Label.Ty := (false, name)

def Label.newer (name : String) : Label.Ty := (true, name)

namespace Registry

-- A name that goes from one type to another of the same name, and on to one of another name
theorem readable_ofPlan_taken :
    let plan : List (Registration Label) :=
      [.type (Label.older "demo.A"), .type (Label.newer "demo.A"),
        .alias (Label.older "demo.B") "demo.A"]
    let object : Object Label := ⟨Label.older "demo.A", .null⟩
    (Assoc.get? object.type (ofPlan plan).names = some "demo.A" ∧
      (ofPlan plan).nameOf object = "demo.A" ∧ "demo.A" ∈ Assoc.keys (ofPlan plan).objects) ∧
    ((∃ registration ∈ plan, registration.type? = some (Label.older "demo.B")) ∧
      Assoc.get? (Label.older "demo.B") (ofPlan plan).names = some "demo.B") ∧
    ∃ type, (ofPlan plan).resolve ((ofPlan plan).nameOf object) = some (.object type) := by
  intro plan object
  obtain ⟨htypes, hentries, hresolve⟩ := readable_ofPlan plan
  have hfirst : .type (Label.older "demo.A") ∈ plan := List.mem_cons_self
  have hentry : ("demo.A", Label.older "demo.B") ∈ (ofPlan plan).objects :=
    Assoc.mem_of_get?_eq_some rfl
  obtain ⟨hnames, hnameOf, hkey⟩ := htypes _ hfirst _ rfl
  exact ⟨⟨hnames, hnameOf object rfl, hkey⟩, hentries _ hentry,
    hresolve _ hfirst object rfl (by decide)⟩

end Registry

end TaggedCache

import TaggedCache.Codec.Document
import TaggedCache.Proofs.Value.Plain

namespace TaggedCache

open Json

instance {M : ObjectModel} : DecidableEq (TypeHandle M)
  | .object a, .object b => decidable_of_iff (a = b) (by simp)
  | .container a, .container b => decidable_of_iff (a = b) (by simp)
  | .object _, .container _ | .container _, .object _ => .isFalse nofun

-- An application with one type, a switch that is on or off
def Switch : ObjectModel where
  Ty := Unit
  decEq := inferInstance
  name := fun _ => "demo.Switch"
  Payload := fun _ => Bool
  write := fun _ on => .ok (.object [("on", .bool on)])
  read := fun _ tree =>
    match tree with
    | .object [("on", .bool on)] => .ok on
    | other => .error (.wrongType (Found.ofTree other) "a switch")
  describe := fun _ _ => ""

namespace Switch

def registry : Registry Switch := .ofPlan [.type ()]

def codec (wrapCollections : Bool) : Codec Switch := ⟨registry, ⟨"@class", wrapCollections⟩⟩

@[simp] theorem codec_registry (wrapCollections : Bool) :
    (codec wrapCollections).registry = registry := rfl

@[simp] theorem codec_discriminator (wrapCollections : Bool) :
    (codec wrapCollections).config.discriminator = "@class" := rfl

theorem writesDistinct : Switch.WritesDistinct := by
  rintro _ on _ ⟨⟩
  cases on <;> decide

theorem lacksName {name : String} (hname : name ≠ "on") (value : Object Switch) :
    (Value.object value).LacksName name := by
  refine Value.lacksName_object.mpr ?_
  rintro _ ⟨⟩
  have hpart : (Tree.bool value.payload).IsLeaf := trivial
  have hleaf := (hpart.every (p := Tree.LacksField name)).mpr trivial
  exact Tree.every_object.mpr ⟨by simpa [Tree.LacksField] using hname, by simpa using hleaf⟩

theorem resolve_wireName (kind : ContainerKind) :
    registry.resolve kind.wireName = some (.container kind) := by
  rcases kind with kind | kind <;> cases kind <;> decide +kernel

end Switch

end TaggedCache

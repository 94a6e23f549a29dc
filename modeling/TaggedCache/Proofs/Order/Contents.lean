import TaggedCache.Proofs.Json.Rearrange
import TaggedCache.Proofs.Order.Value

namespace TaggedCache

open Json

variable {M : ObjectModel}

theorem Object.canonicalText_eq {object : Object M} {tree : Tree} (h : object.toTree = .ok tree) :
    object.canonicalText = tree.canonical.text := by
  rw [canonicalText, h]

namespace Value

-- Objects compare equal if and only if they have type names and contents in common. The contents
-- are what the trees hold up to the order of fields, with every leaf as it is, and no canonical
-- text is shared by trees that differ in more.
theorem compare_object_iff {a b : Object M} {s t : Tree} (ha : a.toTree = .ok s)
    (hb : b.toTree = .ok t) (hs : s.Distinct) :
    (compare (object a) (object b) = .eq ↔ a.typeName = b.typeName ∧ s.Rearranges t) ∧
    (∀ tree other : Tree, tree.Distinct →
      (tree.canonical.text = other.canonical.text ↔ tree.Rearranges other)) ∧
    ∀ leaf tree : Tree, leaf.IsLeaf → (leaf.Rearranges tree ↔ tree = leaf) := by
  refine ⟨?_, fun _ _ => Tree.canonical_text_eq_iff, fun _ _ => Tree.rearranges_leaf_iff⟩
  rw [compare_eq_eq_iff, arrangement, arrangement, Arrangement.object.injEq,
    Object.canonicalText_eq ha, Object.canonicalText_eq hb, Tree.canonical_text_eq_iff hs]

-- Objects that are trees, of types that are known by their names
def Sheet : ObjectModel where
  Ty := String
  decEq := inferInstance
  name := id
  Payload := fun _ => Tree
  write := fun _ tree => .ok tree
  read := fun _ tree => .ok tree
  describe := fun _ _ => ""

-- The order of fields makes no difference, and the number one is not the same as a float.
theorem compare_object_iff_sheet :
    let one : Tree := .number (.whole 1 (by decide) (by decide))
    let float : Tree := .number (.double ⟨0x3FF0000000000000⟩ (by decide))
    let sheet (x : Tree) : Object Sheet := ⟨"demo.Sheet", .object [("x", x), ("y", .null)]⟩
    let turned : Object Sheet := ⟨"demo.Sheet", .object [("y", .null), ("x", one)]⟩
    compare (object (sheet one)) (object turned) = .eq ∧
      compare (object (sheet one)) (object (sheet float)) ≠ .eq := by
  intro one float sheet turned
  have hone : one.Distinct := Tree.IsLeaf.distinct trivial
  have hsheet : (Tree.object [("x", one), ("y", .null)]).Distinct := by
    simpa [Tree.distinct_object, Assoc.keys] using ⟨hone, Tree.IsLeaf.distinct trivial⟩
  constructor
  · have hiff := (compare_object_iff (a := sheet one) (b := turned) rfl rfl hsheet).1
    exact hiff.mpr ⟨rfl, .single (.fields (.swap _ _ _))⟩
  · have hiff := (compare_object_iff (a := sheet one) (b := sheet float) rfl rfl hsheet).1
    intro h
    have hperm := Tree.canonicalFields_perm ((Tree.canonical_eq_iff hsheet).mpr (hiff.mp h).2)
    have hmem := hperm.mem_iff (a := ("x", one))
    simp [Tree.canonicalFields_eq, Tree.canonical, one, float] at hmem

end Value

end TaggedCache

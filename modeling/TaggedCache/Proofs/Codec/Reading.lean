import TaggedCache.Codec.Decode
import TaggedCache.Proofs.Json.Depth

namespace TaggedCache

open Json

theorem toList_loop (bytes : ByteArray) (start : Nat) (before : List UInt8) :
    ByteArray.toList.loop bytes start before = before.reverse ++ bytes.data.toList.drop start := by
  induction h : bytes.size - start generalizing start before with
  | zero =>
      have hsize : bytes.data.toList.length ≤ start := by simpa using Nat.le_of_sub_eq_zero h
      rw [ByteArray.toList.loop, if_neg (by omega), List.drop_eq_nil_of_le hsize, List.append_nil]
  | succ n ih =>
      have hlt : start < bytes.size := by omega
      rw [ByteArray.toList.loop, if_pos hlt, ih _ _ (by omega),
        List.drop_eq_getElem_cons (i := start) (by simpa using hlt)]
      simp [ByteArray.get!, getElem!_pos, hlt]

theorem toList_toUTF8_ofList (text : List Char) :
    (String.ofList text).toUTF8.toList = text.flatMap String.utf8EncodeChar := by
  rw [ByteArray.toList, toList_loop]
  simp [List.utf8Encode]

-- What a value can start with is a single byte and no blank.
theorem exists_byte_of_startsValue {c : Char} (h : startsValue c) :
    ∃ byte, String.utf8EncodeChar c = [byte] ∧ Codec.isBlankByte byte = false := by
  simp only [startsValue, Bool.or_eq_true, decide_eq_true_eq] at h
  rcases h with hdigit | hother
  · have hrange : 48 ≤ c.toNat ∧ c.toNat ≤ 57 := by
      simpa [isDigit, Char.le_def, UInt32.le_iff_toNat_le] using hdigit
    have hdigits : ∀ n ∈ List.range 10, String.utf8EncodeChar (Char.ofNat (48 + n)) =
        [UInt8.ofNat (48 + n)] ∧ Codec.isBlankByte (UInt8.ofNat (48 + n)) = false := by decide
    obtain ⟨n, hn⟩ : ∃ n, c.toNat = 48 + n := ⟨c.toNat - 48, by omega⟩
    have hchar : c = Char.ofNat (48 + n) := by rw [← hn, Char.ofNat_toNat]
    exact hchar ▸ ⟨_, hdigits n (List.mem_range.mpr (by omega))⟩
  · simp only [List.mem_cons, List.not_mem_nil, or_false] at hother
    rcases hother with rfl | rfl | rfl | rfl | rfl | rfl | rfl <;> exact ⟨_, rfl, by decide⟩

theorem fromUTF8?_toUTF8 (text : String) : String.fromUTF8? text.toUTF8 = some text := by
  rw [String.toUTF8_eq_toByteArray, String.fromUTF8?, dif_pos text.isValidUTF8]
  rfl

namespace Json.Draft

mutual

-- Whatever a draft repeats, its tree does not.
theorem distinct_of_tree? {draft : Draft} {tree : Tree} (h : draft.tree? = some tree) :
    tree.Distinct := by
  cases draft with
  | null | bool value =>
      cases h
      exact Tree.IsLeaf.distinct trivial
  | number value =>
      obtain ⟨number, -, rfl⟩ := Option.map_eq_some_iff.mp h
      exact Tree.IsLeaf.distinct trivial
  | string value =>
      obtain ⟨text, -, rfl⟩ := Option.map_eq_some_iff.mp h
      exact Tree.IsLeaf.distinct trivial
  | array items closed =>
      rw [tree?] at h
      split at h
      · obtain ⟨trees, htrees, rfl⟩ := Option.map_eq_some_iff.mp h
        exact Tree.distinct_array.mpr (distinct_of_trees? htrees)
      · contradiction
  | object fields closed =>
      rw [tree?] at h
      split at h
      · obtain ⟨read, hread, rfl⟩ := Option.map_eq_some_iff.mp h
        refine Tree.distinct_object.mpr ⟨Assoc.nodup_keys_ofList read, fun field hfield => ?_⟩
        exact distinct_of_fields? hread field (Assoc.mem_of_mem_ofList hfield)
      · contradiction
  | tooDeep | broken => contradiction

theorem distinct_of_trees? {drafts : List Draft} {trees : List Tree}
    (h : trees? drafts = some trees) : ∀ tree ∈ trees, tree.Distinct := by
  cases drafts with
  | nil =>
      cases h
      exact nofun
  | cons draft drafts =>
      obtain ⟨tree, rest, htree, hrest, rfl⟩ := exists_of_trees?_cons h
      exact List.forall_mem_cons.mpr ⟨distinct_of_tree? htree, distinct_of_trees? hrest⟩

theorem distinct_of_fields? {drafts : List (Option String × Draft)}
    {fields : List (String × Tree)} (h : fields? drafts = some fields) :
    ∀ field ∈ fields, field.2.Distinct := by
  cases drafts with
  | nil =>
      cases h
      exact nofun
  | cons draft drafts =>
      obtain ⟨key, tree, rest, htree, hrest, rfl⟩ := exists_of_fields?_cons h
      exact List.forall_mem_cons.mpr ⟨distinct_of_tree? htree, distinct_of_fields? hrest⟩

end

end Json.Draft

theorem distinct_of_ofString? {text : String} {tree : Tree} (h : Tree.ofString? text = some tree) :
    tree.Distinct := by
  rw [Tree.ofString?, Tree.ofChars?] at h
  split at h
  · exact Json.Draft.distinct_of_tree? h
  · contradiction

namespace Codec

variable {M : ObjectModel}

-- The tree that a document holds. Blanks hold none.
def tree? (document : ByteArray) : Option Tree :=
  (document.toList.find? (!isBlankByte ·)).bind fun _ =>
    String.fromUTF8? document >>= Tree.ofString?

theorem decode_eq_ok_iff {codec : Codec M} {document : ByteArray} {value : Value M} :
    codec.decode document = .ok value ↔
      (document.toList.find? (!isBlankByte ·) = none ∧ value = .null) ∨
        ∃ tree, tree? document = some tree ∧ codec.decodeTree false tree = value := by
  rw [decode, tree?]
  cases document.toList.find? (!isBlankByte ·) with
  | none =>
      simp only [true_and, Option.bind_none, reduceCtorEq, false_and, exists_false, or_false]
      exact ⟨fun h => (Except.ok.inj h).symm, fun h => h ▸ rfl⟩
  | some first =>
      cases String.fromUTF8? document >>= Tree.ofString? with
      | none => simp
      | some tree => simp

theorem decode_of_tree? {codec : Codec M} {document : ByteArray} {tree : Tree}
    (h : tree? document = some tree) :
    codec.decode document = .ok (codec.decodeTree false tree) :=
  decode_eq_ok_iff.mpr (.inr ⟨tree, h, rfl⟩)

theorem distinct_of_tree? {document : ByteArray} {tree : Tree} (h : tree? document = some tree) :
    tree.Distinct := by
  obtain ⟨first, -, h⟩ := Option.bind_eq_some_iff.mp h
  obtain ⟨text, -, h⟩ := Option.bind_eq_some_iff.mp h
  exact distinct_of_ofString? h

theorem exists_first_byte (tree : Tree) :
    ∃ first, tree.text.toUTF8.toList.find? (!isBlankByte ·) = some first := by
  obtain ⟨c, cs, hchars, hc⟩ := exists_cons_chars tree
  obtain ⟨byte, hbyte, hblank⟩ := exists_byte_of_startsValue hc
  refine ⟨byte, ?_⟩
  rw [Tree.text, toList_toUTF8_ofList, hchars, List.flatMap_cons, hbyte]
  simp [hblank]

theorem tree?_text {tree : Tree} (hdistinct : tree.Distinct) (hdepth : tree.depth ≤ maxDepth) :
    tree? tree.text.toUTF8 = some tree := by
  obtain ⟨first, hfirst⟩ := exists_first_byte tree
  rw [tree?, hfirst, Option.bind_some, fromUTF8?_toUTF8]
  exact ofString?_text hdistinct hdepth

-- The document of a tree, read back
theorem decode_text (codec : Codec M) {tree : Tree} (hdistinct : tree.Distinct)
    (hdepth : tree.depth ≤ maxDepth) :
    codec.decode tree.text.toUTF8 = .ok (codec.decodeTree false tree) :=
  decode_of_tree? (tree?_text hdistinct hdepth)

-- The document of a tree that is too deep is refused.
theorem decode_text_of_deep (codec : Codec M) {tree : Tree} (hdistinct : tree.Distinct)
    (hdepth : maxDepth < tree.depth) :
    ∃ text, codec.decode tree.text.toUTF8 = .error (.malformed text) := by
  obtain ⟨first, hfirst⟩ := exists_first_byte tree
  refine ⟨expectation first, ?_⟩
  rw [decode, hfirst, fromUTF8?_toUTF8]
  simp [ofString?_text_eq_ite hdistinct, Nat.not_le.mpr hdepth]

-- Only the document of a tree that is not too deep can be read.
theorem depth_le_of_decode_text (codec : Codec M) {tree : Tree} {value : Value M}
    (hdistinct : tree.Distinct) (h : codec.decode tree.text.toUTF8 = .ok value) :
    tree.depth ≤ maxDepth := by
  by_contra hdepth
  obtain ⟨text, herror⟩ := codec.decode_text_of_deep hdistinct (Nat.lt_of_not_le hdepth)
  cases h.symm.trans herror

theorem decode_empty (codec : Codec M) : codec.decode "".toUTF8 = .ok .null := by
  have hbytes : "".toUTF8.toList = [] := toList_toUTF8_ofList []
  rw [decode, hbytes]
  rfl

end Codec

end TaggedCache

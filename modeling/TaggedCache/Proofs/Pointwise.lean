import Mathlib.Data.List.Forall2
import Mathlib.Data.List.Perm.Basic

namespace TaggedCache

-- Results that stand for each other member by member

variable {ε α β γ : Type}

theorem bind_eq_ok_iff {x : Except ε α} {f : α → Except ε β} {result : β} :
    (x >>= f) = .ok result ↔ ∃ a, x = .ok a ∧ f a = .ok result := by
  cases x with
  | error e => exact ⟨nofun, nofun⟩
  | ok a => exact ⟨fun h => ⟨a, rfl, h⟩, fun ⟨_, hx, h⟩ => by cases hx; exact h⟩

theorem bind_eq_error_iff {x : Except ε α} {f : α → Except ε β} {e : ε} :
    (x >>= f) = .error e ↔ x = .error e ∨ ∃ a, x = .ok a ∧ f a = .error e := by
  cases x with
  | error problem =>
      constructor
      · intro h
        exact .inl (congrArg Except.error (Except.error.inj h))
      · rintro (h | ⟨a, ha, -⟩)
        · exact congrArg Except.error (Except.error.inj h)
        · contradiction
  | ok a =>
      constructor
      · exact fun h => .inr ⟨a, rfl, h⟩
      · rintro (h | ⟨_, ha, h⟩)
        · contradiction
        · exact Except.ok.inj ha ▸ h

theorem map_eq_ok_iff {x : Except ε α} {f : α → β} {result : β} :
    x.map f = .ok result ↔ ∃ a, x = .ok a ∧ f a = result := by
  cases x with
  | error e => exact ⟨nofun, nofun⟩
  | ok a => exact ⟨fun h => ⟨a, rfl, Except.ok.inj h⟩, fun ⟨_, hx, h⟩ => by cases hx; exact h ▸ rfl⟩

theorem map_eq_error_iff {x : Except ε α} {f : α → β} {e : ε} :
    x.map f = .error e ↔ x = .error e := by
  cases x with
  | error problem => exact ⟨fun h => Except.error.inj h ▸ rfl, fun h => Except.error.inj h ▸ rfl⟩
  | ok a => exact ⟨nofun, nofun⟩

theorem mapM_eq_ok_iff {f : α → Except ε β} {items : List α} {results : List β} :
    items.mapM f = .ok results ↔
      List.Forall₂ (fun item result => f item = .ok result) items results := by
  induction items generalizing results with
  | nil =>
      simp only [List.mapM_nil, List.forall₂_nil_left_iff]
      exact ⟨fun h => (Except.ok.inj h).symm, fun h => h ▸ rfl⟩
  | cons item rest ih =>
      simp only [List.mapM_cons, bind_eq_ok_iff, ih, List.forall₂_cons_left_iff]
      constructor
      · rintro ⟨first, hfirst, others, hothers, h⟩
        exact ⟨first, others, hfirst, hothers, (Except.ok.inj h).symm⟩
      · rintro ⟨first, others, hfirst, hothers, rfl⟩
        exact ⟨first, hfirst, others, hothers, rfl⟩

theorem exists_of_mapM_eq_error {f : α → Except ε β} {items : List α} {e : ε}
    (h : items.mapM f = .error e) : ∃ item ∈ items, f item = .error e := by
  induction items with
  | nil => contradiction
  | cons item rest ih =>
      rw [List.mapM_cons, bind_eq_error_iff] at h
      rcases h with h | ⟨result, -, h⟩
      · exact ⟨item, List.mem_cons_self, h⟩
      · rcases bind_eq_error_iff.mp h with h | ⟨results, -, h⟩
        · obtain ⟨other, hother, herror⟩ := ih h
          exact ⟨other, List.mem_cons_of_mem _ hother, herror⟩
        · contradiction

theorem forall₂_imp_mem {r s : α → β → Prop} {xs : List α} {ys : List β}
    (h : List.Forall₂ r xs ys) (hrs : ∀ x ∈ xs, ∀ y ∈ ys, r x y → s x y) :
    List.Forall₂ s xs ys := by
  induction h with
  | nil => exact .nil
  | cons hxy _ ih =>
      refine .cons (hrs _ List.mem_cons_self _ List.mem_cons_self hxy) (ih fun x hx y hy => ?_)
      exact hrs x (List.mem_cons_of_mem _ hx) y (List.mem_cons_of_mem _ hy)

theorem map_eq_map_iff {f : α → γ} {g : β → γ} {xs : List α} {ys : List β} :
    xs.map f = ys.map g ↔ List.Forall₂ (fun x y => f x = g y) xs ys := by
  rw [← List.forall₂_eq_eq_eq, List.forall₂_map_left_iff, List.forall₂_map_right_iff]

theorem map_eq_map_of_forall₂ {r : α → β → Prop} {f : α → γ} {g : β → γ}
    {xs : List α} {ys : List β} (h : List.Forall₂ r xs ys)
    (hfg : ∀ x ∈ xs, ∀ y ∈ ys, r x y → f x = g y) : xs.map f = ys.map g :=
  map_eq_map_iff.mpr (forall₂_imp_mem h hfg)

theorem exists_forall₂ {r : α → β → Prop} {xs : List α} (h : ∀ x ∈ xs, ∃ y, r x y) :
    ∃ ys, List.Forall₂ r xs ys := by
  induction xs with
  | nil => exact ⟨[], .nil⟩
  | cons x xs ih =>
      obtain ⟨y, hy⟩ := h x List.mem_cons_self
      obtain ⟨ys, hys⟩ := ih fun z hz => h z (List.mem_cons_of_mem _ hz)
      exact ⟨y :: ys, .cons hy hys⟩

theorem eq_map_of_forall₂ {r : α → β → Prop} {f : β → α} {xs : List α} {ys : List β}
    (h : List.Forall₂ r xs ys) (hf : ∀ x y, r x y → f y = x) : ys.map f = xs := by
  rw [← List.map_id xs]
  exact (map_eq_map_of_forall₂ h fun x _ y _ hr => (hf x y hr).symm).symm

theorem exists_left_of_mem {r : α → β → Prop} {xs : List α} {ys : List β} {y : β}
    (h : List.Forall₂ r xs ys) (hy : y ∈ ys) : ∃ x ∈ xs, r x y := by
  induction h with
  | nil => contradiction
  | cons hxy _ ih =>
      rcases List.mem_cons.mp hy with rfl | hy
      · exact ⟨_, List.mem_cons_self, hxy⟩
      · obtain ⟨x, hx, hr⟩ := ih hy
        exact ⟨x, List.mem_cons_of_mem _ hx, hr⟩

theorem exists_getElem?_of_forall₂ {r : α → β → Prop} {xs : List α} {ys : List β}
    (h : List.Forall₂ r xs ys) {i : Nat} {x : α} (hx : xs[i]? = some x) :
    ∃ y, ys[i]? = some y ∧ r x y := by
  induction h generalizing i with
  | nil => simp at hx
  | cons hxy _ ih =>
      cases i with
      | zero =>
          cases hx
          exact ⟨_, rfl, hxy⟩
      | succ i => exact ih hx

theorem exists_right_of_mem {r : α → β → Prop} {xs : List α} {ys : List β} {x : α}
    (h : List.Forall₂ r xs ys) (hx : x ∈ xs) : ∃ y ∈ ys, r x y := by
  obtain ⟨y, hy, hr⟩ := exists_left_of_mem h.flip hx
  exact ⟨y, hy, hr⟩

theorem exists_map_of_perm {f : α → β} {xs : List α} {ys : List β}
    (h : ys.Perm (xs.map f)) : ∃ zs : List α, ys = zs.map f ∧ zs.Perm xs :=
  (iff_of_eq (congrFun₂ (List.eq_map_comp_perm f) ys xs)).mpr h

-- Two lists stand for each other if a third one stands for both.
theorem forall₂_of_common {r : α → β → Prop} {s : α → γ → Prop} {xs : List α} {ys : List β}
    {zs : List γ} (hr : List.Forall₂ r xs ys) (hs : List.Forall₂ s xs zs) :
    List.Forall₂ (fun y z => ∃ x ∈ xs, r x y ∧ s x z) ys zs := by
  induction hr generalizing zs with
  | nil =>
      cases hs
      exact .nil
  | cons hxy _ ih =>
      cases hs with
      | cons hxz hs =>
          refine .cons ⟨_, List.mem_cons_self, hxy, hxz⟩ ((ih hs).imp ?_)
          exact fun y z ⟨x, hx, hsame⟩ => ⟨x, List.mem_cons_of_mem _ hx, hsame⟩

-- Members are related if as many come before the one as before the other.
theorem of_forall₂_middle {r : α → β → Prop} {before after : List α} {x : α}
    {before' after' : List β} {y : β} (hlength : before.length = before'.length)
    (h : List.Forall₂ r (before ++ x :: after) (before' ++ y :: after')) : r x y := by
  induction before generalizing before' with
  | nil =>
      cases before' with
      | nil => exact (List.forall₂_cons.mp h).1
      | cons => contradiction
  | cons first rest ih =>
      cases before' with
      | nil => contradiction
      | cons first' rest' =>
          exact ih (Nat.succ.inj hlength) (List.forall₂_cons.mp h).2

theorem exists_between_of_forall₂ {r : α → β → Prop} {s : β → γ → Prop} {xs : List α}
    {zs : List γ} (h : List.Forall₂ (fun x z => ∃ y, r x y ∧ s y z) xs zs) :
    ∃ ys, List.Forall₂ r xs ys ∧ List.Forall₂ s ys zs := by
  induction h with
  | nil => exact ⟨[], .nil, .nil⟩
  | cons hxz _ ih =>
      obtain ⟨y, hxy, hyz⟩ := hxz
      obtain ⟨ys, hxs, hzs⟩ := ih
      exact ⟨y :: ys, .cons hxy hxs, .cons hyz hzs⟩

theorem forall_mem_replace {p : α → Prop} {before after : List α} {x x' : α}
    (h : ∀ y ∈ before ++ x :: after, p y) (hx : p x') : ∀ y ∈ before ++ x' :: after, p y := by
  rw [List.forall_mem_append, List.forall_mem_cons] at h ⊢
  exact ⟨h.1, hx, h.2.2⟩

-- A member can be replaced by another that has all its partners.
theorem forall₂_replace {r : α → β → Prop} {before after : List α} {x x' : α} {ys : List β}
    (h : List.Forall₂ r (before ++ x :: after) ys) (hx : ∀ y, r x y → r x' y) :
    List.Forall₂ r (before ++ x' :: after) ys := by
  induction before generalizing ys with
  | nil =>
      cases h with
      | cons hxy hrest => exact .cons (hx _ hxy) hrest
  | cons first rest ih =>
      cases h with
      | cons hfirst hrest => exact .cons hfirst (ih hrest)

end TaggedCache

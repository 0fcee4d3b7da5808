import Mathlib.Tactic

/-! Lists whose elements have pairwise distinct keys, searched from the front: the first
match is the only one, so searching, replacing and removing it are statements about
membership. -/
namespace EnosKernel
namespace KeyedList

variable {α κ : Type*}

theorem split_of_findIdx? {p : α → Bool} {xs : List α} {i : ℕ} (h : xs.findIdx? p = some i) :
    ∃ before x after, xs = before++x::after ∧ before.length = i ∧ p x = true ∧
      ∀ y ∈ before, p y = false := by
  obtain ⟨hi,hp,hbefore⟩ := List.findIdx?_eq_some_iff_getElem.mp h
  refine ⟨xs.take i,xs[i],xs.drop (i+1),?_,by simp; omega,hp,?_⟩
  · rw [List.getElem_cons_drop,List.take_append_drop]
  · intro y hy
    obtain ⟨j,hj,rfl⟩ := List.mem_take_iff_getElem.mp hy
    simpa using hbefore j (by omega)

theorem split_of_getElem? {xs : List α} {i : ℕ} {x : α} (h : xs[i]? = some x) :
    ∃ before after, xs = before++x::after ∧ before.length = i := by
  obtain ⟨hi,rfl⟩ := List.getElem?_eq_some_iff.mp h
  refine ⟨xs.take i,xs.drop (i+1),?_,by simp; omega⟩
  rw [List.getElem_cons_drop,List.take_append_drop]

variable {key : α → κ} {before after : List α} {x : α}

theorem key_ne_of_mem (h : ((before++x::after).map key).Nodup) {y : α} (hy : y ∈ before++after) :
    key y ≠ key x := by
  simp only [List.map_append,List.map_cons,List.nodup_append,List.nodup_cons,List.mem_cons,
    List.mem_map] at h
  obtain ⟨-,⟨hafter,-⟩,hcross⟩ := h
  rcases List.mem_append.mp hy with hy | hy
  · exact hcross _ ⟨y,hy,rfl⟩ _ (Or.inl rfl)
  · exact fun heq => hafter ⟨y,hy,heq⟩

theorem mem_remove_iff (h : ((before++x::after).map key).Nodup) {y : α} :
    y ∈ before++after ↔ y ∈ before++x::after ∧ key y ≠ key x := by
  constructor
  · intro hy
    refine ⟨?_,key_ne_of_mem h hy⟩
    simp only [List.mem_append,List.mem_cons] at hy ⊢
    tauto
  · rintro ⟨hy,hne⟩
    simp only [List.mem_append,List.mem_cons] at hy ⊢
    rcases hy with hy | rfl | hy
    · exact Or.inl hy
    · exact absurd rfl hne
    · exact Or.inr hy

theorem mem_replace_iff (h : ((before++x::after).map key).Nodup) {x' y : α} :
    y ∈ before++x'::after ↔ y = x' ∨ (y ∈ before++x::after ∧ key y ≠ key x) := by
  rw [← mem_remove_iff h]
  simp only [List.mem_append,List.mem_cons]
  tauto

theorem eq_of_key {xs : List α} (h : (xs.map key).Nodup) {y z : α} (hy : y ∈ xs) (hz : z ∈ xs)
    (heq : key y = key z) : y = z := List.inj_on_of_nodup_map h hy hz heq

theorem eq_of_getElem? {xs : List α} (h : (xs.map key).Nodup) {i j : ℕ} {y z : α} (hy : xs[i]? = some y)
    (hz : xs[j]? = some z) (heq : key y = key z) : i = j := by
  have hlt := (List.getElem?_eq_some_iff.mp hy).1
  apply (List.getElem?_inj (by simpa using hlt) h).mp
  simp [hy,hz,heq]

theorem eraseIdx_split (before : List α) (x : α) (after : List α) :
    (before++x::after).eraseIdx before.length = before++after := by
  induction before with
  | nil => rfl
  | cons y before ih => simpa using ih

theorem mem_eraseIdx_iff {xs : List α} (h : (xs.map key).Nodup) {i : ℕ} {x y : α} (hx : xs[i]? = some x) :
    y ∈ xs.eraseIdx i ↔ y ∈ xs ∧ key y ≠ key x := by
  obtain ⟨before,after,rfl,rfl⟩ := split_of_getElem? hx
  rw [eraseIdx_split]
  exact mem_remove_iff h

theorem mem_set_iff {xs : List α} (h : (xs.map key).Nodup) {i : ℕ} {x x' y : α} (hx : xs[i]? = some x) :
    y ∈ xs.set i x' ↔ y = x' ∨ (y ∈ xs ∧ key y ≠ key x) := by
  obtain ⟨before,after,rfl,rfl⟩ := split_of_getElem? hx
  simp only [List.set_append_right _ _ le_rfl, Nat.sub_self, List.set_cons_zero]
  exact mem_replace_iff h

theorem modify_split (f : α → α) (before : List α) (x : α) (after : List α) :
    (before++x::after).modify before.length f = before++f x::after := by
  induction before with
  | nil => rfl
  | cons y before ih => simpa using ih

variable [DecidableEq κ]

theorem find?_eq_some_iff {xs : List α} (h : (xs.map key).Nodup) {k : κ} {y : α} :
    xs.find? (fun z => key z == k) = some y ↔ y ∈ xs ∧ key y = k := by
  constructor
  · intro hfind
    exact ⟨List.mem_of_find?_eq_some hfind,by simpa using List.find?_some hfind⟩
  · rintro ⟨hy,hkey⟩
    cases hfind : xs.find? (fun z => key z == k) with
    | none =>
      have := List.find?_eq_none.mp hfind y hy
      simp [hkey] at this
    | some z =>
      have hz : key z = k := by simpa using List.find?_some hfind
      rw [eq_of_key h (List.mem_of_find?_eq_some hfind) hy (hz.trans hkey.symm)]

end KeyedList
end EnosKernel

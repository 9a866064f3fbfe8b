/-!
# Lists without repeats

An ordered set is a list without repeats: `addLast` enters an element at the end unless it
is there, and `distinctOn` keeps the first element of each key. Membership and the absence
of repeats are stated beside the operations, so that nothing else unfolds them.
-/
namespace MigrationHistory

variable {α κ : Type}

/-- Enters `x` at the end, unless it is already present. -/
def addLast [DecidableEq α] (xs : List α) (x : α) : List α :=
  if x ∈ xs then xs else xs ++ [x]

@[simp] theorem mem_addLast [DecidableEq α] {xs : List α} {x y : α} :
    y ∈ addLast xs x ↔ y ∈ xs ∨ y = x := by
  by_cases hx : x ∈ xs
  · simp only [addLast, hx, if_true]
    exact ⟨Or.inl, fun h => h.elim id (fun e => e ▸ hx)⟩
  · simp [addLast, hx]

theorem nodup_addLast [DecidableEq α] {xs : List α} {x : α} (h : xs.Nodup) :
    (addLast xs x).Nodup := by
  by_cases hx : x ∈ xs
  · simpa [addLast, hx] using h
  · simp only [addLast, hx, if_false]
    refine List.nodup_append.mpr ⟨h, by simp, ?_⟩
    intro a ha b hb hab
    rw [List.mem_singleton] at hb
    exact hx (hb ▸ hab ▸ ha)

@[simp] theorem mem_foldl_addLast [DecidableEq α] {xs ys : List α} {y : α} :
    y ∈ ys.foldl addLast xs ↔ y ∈ xs ∨ y ∈ ys := by
  induction ys generalizing xs with
  | nil => simp
  | cons z zs ih => simp [ih, or_assoc]

theorem nodup_foldl_addLast [DecidableEq α] {xs ys : List α} (h : xs.Nodup) :
    (ys.foldl addLast xs).Nodup := by
  induction ys generalizing xs with
  | nil => exact h
  | cons z zs ih => exact ih (nodup_addLast h)

theorem prefix_foldl_addLast [DecidableEq α] (xs ys : List α) : xs <+: ys.foldl addLast xs := by
  induction ys generalizing xs with
  | nil => exact List.prefix_rfl
  | cons y ys ih =>
    refine List.IsPrefix.trans ?_ (ih (addLast xs y))
    unfold addLast
    split
    · exact List.prefix_rfl
    · exact List.prefix_append xs [y]

theorem foldl_addLast_of_subset [DecidableEq α] {xs ys : List α} (h : ∀ y ∈ ys, y ∈ xs) :
    ys.foldl addLast xs = xs := by
  induction ys with
  | nil => rfl
  | cons y ys ih =>
    rw [List.foldl_cons, addLast, if_pos (h y List.mem_cons_self)]
    exact ih fun z hz => h z (List.mem_cons_of_mem _ hz)

/-- Entering one element several times enters it once. -/
theorem foldl_addLast_same [DecidableEq α] (xs : List α) {ys : List α} {x : α}
    (hsame : ∀ y ∈ ys, y = x) : ys.foldl addLast xs = if ys = [] then xs else addLast xs x := by
  cases ys with
  | nil => rfl
  | cons y ys =>
    obtain ⟨rfl, hrest⟩ := List.forall_mem_cons.mp hsame
    rw [if_neg (List.cons_ne_nil _ _), List.foldl_cons]
    exact foldl_addLast_of_subset fun z hz => mem_addLast.mpr (.inr (hrest z hz))

theorem foldl_addLast_of_nodup [DecidableEq α] {xs ys : List α} (h : (xs ++ ys).Nodup) :
    ys.foldl addLast xs = xs ++ ys := by
  induction ys generalizing xs with
  | nil => simp
  | cons y ys ih =>
    have hnew : y ∉ xs := fun hy =>
      (List.nodup_append.mp h).2.2 y hy y List.mem_cons_self rfl
    rw [List.foldl_cons, addLast, if_neg hnew, ih (by simpa using h)]
    simp

/-- Entering elements after some that are present leaves the elements alone exactly when those
present are the first of them. -/
theorem foldl_addLast_eq_iff [DecidableEq α] {xs ys : List α} (hnodup : ys.Nodup) :
    ys.foldl addLast xs = ys ↔ xs <+: ys := by
  constructor
  · intro h
    have hinitial := prefix_foldl_addLast xs ys
    rwa [h] at hinitial
  · rintro ⟨rest, rfl⟩
    rw [List.foldl_append, foldl_addLast_of_subset fun x hx => hx]
    exact foldl_addLast_of_nodup hnodup

/-- The same with one more element at the end, which may be present before its turn. -/
theorem addLast_foldl_addLast_eq_iff [DecidableEq α] {xs ys : List α} {y : α}
    (hnodup : ys.Nodup) (hy : y ∉ ys) :
    addLast (ys.foldl addLast xs) y = ys ++ [y] ↔ xs <+: ys ∨ xs = ys ++ [y] := by
  constructor
  · intro h
    by_cases hmem : y ∈ ys.foldl addLast xs
    · rw [addLast, if_pos hmem] at h
      have hinitial := prefix_foldl_addLast xs ys
      rw [h, List.prefix_concat_iff] at hinitial
      exact hinitial.symm
    · rw [addLast, if_neg hmem] at h
      exact .inl ((foldl_addLast_eq_iff hnodup).mp (List.append_inj_left' h rfl))
  · rintro (hinitial | rfl)
    · rw [(foldl_addLast_eq_iff hnodup).mpr hinitial, addLast, if_neg hy]
    · rw [foldl_addLast_of_subset fun z hz => List.mem_append_left _ hz, addLast,
        if_pos (List.mem_append_right _ (List.mem_singleton_self y))]

theorem eq_of_length_le_one {xs : List α} (hlength : xs.length ≤ 1) {a b : α} (ha : a ∈ xs)
    (hb : b ∈ xs) : a = b := by
  match xs, hlength with
  | [x], _ => rw [List.mem_singleton.mp ha, List.mem_singleton.mp hb]

/-- Among several elements without repeats one differs from `a`. -/
theorem exists_ne_of_nodup {xs : List α} (hnodup : xs.Nodup) (hlength : 1 < xs.length) (a : α) :
    ∃ x ∈ xs, x ≠ a := by
  match xs, hnodup, hlength with
  | x :: y :: rest, hnodup, _ =>
    have hne : x ≠ y := fun heq => (List.nodup_cons.mp hnodup).1 (heq ▸ List.mem_cons_self)
    by_cases hx : x = a
    · exact ⟨y, by simp, fun hy => hne (hx.trans hy.symm)⟩
    · exact ⟨x, by simp, hx⟩

/-- Keeps, of all elements with one key, the first. -/
def distinctOn [DecidableEq κ] (key : α → κ) : List α → List α
  | [] => []
  | x :: xs => x :: (distinctOn key xs).filter (key · ≠ key x)

theorem mem_of_mem_distinctOn [DecidableEq κ] {key : α → κ} {xs : List α} {x : α}
    (h : x ∈ distinctOn key xs) : x ∈ xs := by
  induction xs with
  | nil => exact h
  | cons y ys ih =>
    simp only [distinctOn, List.mem_cons, List.mem_filter] at h
    rcases h with rfl | ⟨hmem, _⟩
    · exact List.mem_cons_self
    · exact List.mem_cons_of_mem _ (ih hmem)

theorem nodup_map_distinctOn [DecidableEq κ] (key : α → κ) (xs : List α) :
    ((distinctOn key xs).map key).Nodup := by
  induction xs with
  | nil => simp [distinctOn]
  | cons y ys ih =>
    rw [distinctOn, List.map_cons, List.nodup_cons]
    refine ⟨?_, ?_⟩
    · simp only [List.mem_map, List.mem_filter, decide_eq_true_eq]
      rintro ⟨z, ⟨_, hne⟩, heq⟩
      exact hne heq
    · exact ih.sublist (List.filter_sublist.map key)

theorem mem_map_distinctOn [DecidableEq κ] {key : α → κ} {xs : List α} {k : κ} :
    k ∈ (distinctOn key xs).map key ↔ k ∈ xs.map key := by
  constructor
  · intro hk
    obtain ⟨x, hx, rfl⟩ := List.mem_map.mp hk
    exact List.mem_map_of_mem (mem_of_mem_distinctOn hx)
  · intro hk
    induction xs with
    | nil => exact hk
    | cons y ys ih =>
      rw [distinctOn, List.map_cons, List.mem_cons]
      by_cases hky : k = key y
      · exact .inl hky
      · have hys := (List.mem_cons.mp hk).resolve_left hky
        obtain ⟨x, hx, rfl⟩ := List.mem_map.mp (ih hys)
        refine .inr (List.mem_map_of_mem (List.mem_filter.mpr ⟨hx, ?_⟩))
        exact decide_eq_true hky

/-- The elements of a list in order of their first occurrence. -/
def distinct [DecidableEq α] (xs : List α) : List α := distinctOn id xs

theorem distinct_cons [DecidableEq α] (x : α) (xs : List α) :
    distinct (x :: xs) = x :: (distinct xs).filter (· ≠ x) := rfl

@[simp] theorem mem_distinct [DecidableEq α] {xs : List α} {x : α} :
    x ∈ distinct xs ↔ x ∈ xs := by
  have hkeys := @mem_map_distinctOn α α _ id xs x
  rwa [List.map_id, List.map_id] at hkeys

theorem nodup_distinct [DecidableEq α] (xs : List α) : (distinct xs).Nodup := by
  simpa [distinct] using nodup_map_distinctOn id xs

/-- What a second list adds is what the first does not have. -/
theorem distinct_append [DecidableEq α] (xs ys : List α) :
    distinct (xs ++ ys) = distinct xs ++ (distinct ys).filter (· ∉ xs) := by
  induction xs with
  | nil => exact (List.filter_eq_self.mpr (by simp)).symm
  | cons x xs ih =>
    rw [List.cons_append, distinct_cons, ih, distinct_cons, List.filter_append, List.filter_filter,
      List.cons_append]
    congr 2
    apply List.filter_congr
    intro y _
    simp

/-- One more element counts if it is new. -/
theorem distinct_concat [DecidableEq α] (xs : List α) (x : α) :
    distinct (xs ++ [x]) = addLast (distinct xs) x := by
  have hsingle : distinct [x] = [x] := rfl
  rw [distinct_append, hsingle, addLast]
  by_cases hx : x ∈ xs <;> simp [hx]

theorem distinct_filter [DecidableEq α] (p : α → Bool) (xs : List α) :
    distinct (xs.filter p) = (distinct xs).filter p := by
  induction xs with
  | nil => rfl
  | cons x xs ih =>
    rw [distinct_cons, List.filter_cons, List.filter_cons, List.filter_filter]
    by_cases hx : p x
    · simp only [hx, if_true, distinct_cons, ih, List.filter_filter, Bool.and_comm]
    · simp only [hx, Bool.false_eq_true, if_false, ih]
      apply List.filter_congr
      intro y _
      by_cases hy : y = x
      · simp [hy, hx]
      · simp [hy]

end MigrationHistory

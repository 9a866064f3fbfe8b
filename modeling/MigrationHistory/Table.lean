/-!
# Tables

A table holds elements under distinct keys, in the order in which the keys were first entered.
An element entered under a known key takes the place of the one before it. The laws say which
element is found under a key, and that entering one changes nothing under the other keys.
-/
namespace MigrationHistory

/-- Elements in order of entry, no two with one key. -/
structure Table {α κ : Type} (key : α → κ) where
  elements : List α
  distinct_keys : (elements.map key).Nodup
deriving DecidableEq, Repr

namespace Table

variable {α κ : Type} {key : α → κ}

def empty : Table key := ⟨[], List.nodup_nil⟩

def size (t : Table key) : Nat := t.elements.length

def keys (t : Table key) : List κ := t.elements.map key

/-- Changes elements without changing their keys. -/
def update (t : Table key) (f : α → α) (keeps : ∀ x, key (f x) = key x) : Table key where
  elements := t.elements.map f
  distinct_keys := by
    have h : (t.elements.map f).map key = t.elements.map key := by simp [keeps]
    exact h ▸ t.distinct_keys

theorem keys_update {t : Table key} {f : α → α} {keeps : ∀ x, key (f x) = key x} :
    (t.update f keeps).keys = t.keys := by
  simp [keys, update, keeps]

def filter (t : Table key) (p : α → Bool) : Table key where
  elements := t.elements.filter p
  distinct_keys := t.distinct_keys.sublist (List.filter_sublist.map key)

/-- A table is its list of elements. -/
theorem eq_of_elements_eq {t s : Table key} (h : t.elements = s.elements) : t = s := by
  cases t
  cases s
  cases h
  rfl

/-- An element is known by its key. -/
theorem eq_of_key_eq (t : Table key) {x y : α} (hx : x ∈ t.elements) (hy : y ∈ t.elements)
    (h : key x = key y) : x = y := by
  have hd := t.distinct_keys
  generalize t.elements = xs at hx hy hd
  induction xs with
  | nil => cases hx
  | cons z zs ih =>
    rw [List.map_cons, List.nodup_cons] at hd
    rcases List.mem_cons.mp hx with rfl | hx' <;> rcases List.mem_cons.mp hy with rfl | hy'
    · rfl
    · exact absurd (h ▸ List.mem_map_of_mem hy') hd.1
    · exact absurd (h ▸ List.mem_map_of_mem hx') hd.1
    · exact ih hx' hy' hd.2

variable [DecidableEq κ]

def find? (t : Table key) (k : κ) : Option α := t.elements.find? fun x => key x = k

def holds (t : Table key) (k : κ) : Bool := t.elements.any fun x => key x = k

@[simp] theorem holds_iff {t : Table key} {k : κ} : t.holds k ↔ k ∈ t.keys := by
  simp [holds, keys]

theorem holds_eq_false_iff {t : Table key} {k : κ} : t.holds k = false ↔ k ∉ t.keys := by
  rw [← holds_iff, Bool.not_eq_true]

/-- Enters an element in the place of the one with its key, or at the end. -/
def enter (t : Table key) (x : α) : Table key :=
  if h : t.holds (key x) then
    t.update (fun y => if key y = key x then x else y) (fun y => by split <;> simp_all)
  else
    { elements := t.elements ++ [x]
      distinct_keys := by
        have hx : key x ∉ t.elements.map key := fun hm => h (holds_iff.mpr hm)
        rw [List.map_append, List.nodup_append]
        refine ⟨t.distinct_keys, List.pairwise_singleton _ _, ?_⟩
        intro a ha b hb hab
        rw [List.map_singleton, List.mem_singleton] at hb
        exact hx (hb ▸ hab ▸ ha) }

/-- What is found under a key is the one element with that key. -/
theorem find?_eq_some_iff {t : Table key} {k : κ} {x : α} :
    t.find? k = some x ↔ x ∈ t.elements ∧ key x = k := by
  constructor
  · intro h
    exact ⟨List.mem_of_find?_eq_some h, by simpa using List.find?_some h⟩
  · rintro ⟨hx, rfl⟩
    cases h : t.find? (key x) with
    | none => simpa using List.find?_eq_none.mp h x hx
    | some y =>
      have hy : y ∈ t.elements := List.mem_of_find?_eq_some h
      have hkey : key y = key x := by simpa using List.find?_some h
      rw [t.eq_of_key_eq hy hx hkey]

theorem find?_eq_none_iff {t : Table key} {k : κ} : t.find? k = none ↔ k ∉ t.keys := by
  simp [find?, keys, List.find?_eq_none]

/-- An element is entered under its key, and nothing else changes. -/
theorem mem_enter {t : Table key} {x y : α} :
    y ∈ (t.enter x).elements ↔ y = x ∨ y ∈ t.elements ∧ key y ≠ key x := by
  unfold enter
  split
  · rename_i h
    simp only [update, List.mem_map]
    constructor
    · rintro ⟨z, hz, rfl⟩
      split
      · exact .inl rfl
      · rename_i hne
        exact .inr ⟨hz, hne⟩
    · rintro (rfl | ⟨hy, hne⟩)
      · obtain ⟨z, hz, hkey⟩ := List.mem_map.mp (holds_iff.mp h)
        exact ⟨z, hz, if_pos hkey⟩
      · exact ⟨y, hy, if_neg hne⟩
  · rename_i h
    simp only [List.mem_append, List.mem_singleton]
    constructor
    · rintro (hy | rfl)
      · refine .inr ⟨hy, fun hkey => h (holds_iff.mpr ?_)⟩
        exact hkey ▸ List.mem_map_of_mem hy
      · exact .inl rfl
    · rintro (rfl | ⟨hy, _⟩)
      · exact .inr rfl
      · exact .inl hy

/-- An element under a new key goes to the end. -/
theorem elements_enter_of_absent {t : Table key} {x : α} (habsent : key x ∉ t.keys) :
    (t.enter x).elements = t.elements ++ [x] := by
  unfold enter
  rw [dif_neg fun h => habsent (holds_iff.mp h)]

/-- An element under a known key goes in the place of the one before it. -/
theorem elements_enter_of_present {t : Table key} {x : α} (hpresent : key x ∈ t.keys) :
    (t.enter x).elements = t.elements.map fun y => if key y = key x then x else y := by
  unfold enter
  rw [dif_pos (holds_iff.mpr hpresent)]
  rfl

/-- Entering an element that is there changes nothing. -/
theorem enter_of_mem {t : Table key} {x : α} (hx : x ∈ t.elements) : t.enter x = t := by
  have hsame : ∀ y ∈ t.elements, (if key y = key x then x else y) = y := by
    intro y hy
    split
    · rename_i hkey
      exact t.eq_of_key_eq hx hy hkey.symm
    · rfl
  apply eq_of_elements_eq
  rw [elements_enter_of_present (List.mem_map_of_mem hx), List.map_congr_left hsame, List.map_id']

/-- What is entered under one key shows in the table. -/
theorem enter_inj {t : Table key} {x y : α} (hkey : key x = key y) :
    t.enter x = t.enter y ↔ x = y := by
  constructor
  · intro h
    have hmem : x ∈ (t.enter y).elements := h ▸ mem_enter.mpr (.inl rfl)
    rcases mem_enter.mp hmem with hentered | ⟨-, hother⟩
    · exact hentered
    · exact absurd hkey hother
  · exact fun h => h ▸ rfl

/-- Entering an element commutes with changes that keep the keys. -/
theorem update_enter {t : Table key} {x : α} {f : α → α} {keeps : ∀ y, key (f y) = key y} :
    (t.enter x).update f keeps = (t.update f keeps).enter (f x) := by
  have hkeys : (t.update f keeps).keys = t.keys := keys_update
  have helements : ∀ s : Table key, (s.update f keeps).elements = s.elements.map f := fun _ => rfl
  apply eq_of_elements_eq
  rw [helements]
  by_cases hpresent : key x ∈ t.keys
  · have hpresent' : key (f x) ∈ (t.update f keeps).keys := by rwa [hkeys, keeps]
    rw [elements_enter_of_present hpresent, elements_enter_of_present hpresent', helements,
      List.map_map, List.map_map]
    refine List.map_congr_left fun y _ => ?_
    by_cases hkey : key y = key x <;> simp [hkey, keeps]
  · have habsent : key (f x) ∉ (t.update f keeps).keys := by rwa [hkeys, keeps]
    rw [elements_enter_of_absent hpresent, elements_enter_of_absent habsent, helements,
      List.map_append]
    rfl

theorem find?_enter {t : Table key} {x : α} {k : κ} :
    (t.enter x).find? k = if k = key x then some x else t.find? k := by
  apply Option.ext
  intro y
  rw [find?_eq_some_iff, mem_enter]
  split
  · rename_i h
    subst h
    constructor
    · rintro ⟨rfl | ⟨_, hne⟩, hkey⟩
      · rfl
      · exact absurd hkey hne
    · intro h
      cases h
      exact ⟨.inl rfl, rfl⟩
  · rename_i h
    rw [find?_eq_some_iff]
    constructor
    · rintro ⟨rfl | ⟨hy, _⟩, hkey⟩
      · exact absurd hkey.symm h
      · exact ⟨hy, hkey⟩
    · rintro ⟨hy, hkey⟩
      exact ⟨.inr ⟨hy, fun he => h (hkey.symm.trans he)⟩, hkey⟩

end Table

end MigrationHistory

import Mathlib.Data.Finset.Card
import MigrationHistory.Proofs.Ancestry

/-!
# What a closure lists

A closure lists exactly the revisions that its start reaches along edges, each once and each
after one that leads to it, the start first. The walk behind it is followed step by step: it
skips what it has seen, and the revisions not yet seen bound the number of its steps.
-/
namespace MigrationHistory.Nodes

open Relation

variable {nodes : Nodes} {d : Direction}

/-- One step of a walk with fuel: everything on the stack is seen, or the first revision that
is not is listed and its neighbours go on top of what lies below it. -/
theorem walk_succ (nodes : Nodes) (d : Direction) (fuel : Nat) (seen : List RevisionId)
    (stack : List Revision) :
    (nodes.walk d (fuel + 1) seen stack = [] ∧ ∀ r ∈ stack, r.id ∈ seen) ∨
    ∃ passed r rest, stack = passed ++ r :: rest ∧ (∀ s ∈ passed, s.id ∈ seen) ∧ r.id ∉ seen ∧
      nodes.walk d (fuel + 1) seen stack =
        r :: nodes.walk d fuel (r.id :: seen) ((nodes.select (d.step r)).reverse ++ rest) := by
  induction stack with
  | nil => exact .inl ⟨rfl, by simp⟩
  | cons top below ih =>
    by_cases htop : top.id ∈ seen
    · have hwalk : nodes.walk d (fuel + 1) seen (top :: below) =
          nodes.walk d (fuel + 1) seen below := by
        simp only [walk, List.dropWhile_cons, htop, decide_true, if_true]
      rw [hwalk]
      rcases ih with ⟨hnil, hall⟩ | ⟨passed, r, rest, hstack, hpassed, hr, hlist⟩
      · exact .inl ⟨hnil, by simpa [htop] using hall⟩
      · exact .inr ⟨top :: passed, r, rest, by rw [hstack]; rfl, by simpa [htop] using hpassed,
          hr, hlist⟩
    · refine .inr ⟨[], top, below, rfl, by simp, htop, ?_⟩
      simp only [walk, List.dropWhile_cons, htop, decide_false, Bool.false_eq_true, if_false]

/-- What a walk pushes are revisions of the table. -/
theorem pushed_mem {r : Revision} {rest : List Revision} (hrest : ∀ s ∈ rest, s ∈ nodes.elements) :
    ∀ s ∈ (nodes.select (d.step r)).reverse ++ rest, s ∈ nodes.elements := by
  intro s hs
  rcases List.mem_append.mp hs with hnew | hold
  · exact (mem_select.mp (List.mem_reverse.mp hnew)).1
  · exact hrest s hold

/-- A walk from revisions of the table lists revisions of the table that they reach. -/
theorem walk_sound {fuel : Nat} {seen : List RevisionId} {stack : List Revision}
    (hstack : ∀ r ∈ stack, r ∈ nodes.elements) :
    ∀ m ∈ nodes.walk d fuel seen stack,
      m ∈ nodes.elements ∧ ∃ r ∈ stack, ReflTransGen (nodes.Edge d) r.id m.id := by
  induction fuel generalizing seen stack with
  | zero => intro m hm; simp [walk] at hm
  | succ fuel ih =>
    intro m hm
    rcases walk_succ nodes d fuel seen stack with ⟨hnil, -⟩ | ⟨passed, r, rest, hs, -, -, hlist⟩
    · simp [hnil] at hm
    · have hr : r ∈ stack := by simp [hs]
      have hrest : ∀ s ∈ rest, s ∈ nodes.elements := fun s h => hstack s (by simp [hs, h])
      rw [hlist] at hm
      rcases List.mem_cons.mp hm with rfl | hm
      · exact ⟨hstack m hr, m, hr, .refl⟩
      · obtain ⟨hmem, s, hspushed, hreach⟩ := ih (pushed_mem hrest) m hm
        refine ⟨hmem, ?_⟩
        rcases List.mem_append.mp hspushed with hnew | hold
        · obtain ⟨hsmem, hstep⟩ := mem_select.mp (List.mem_reverse.mp hnew)
          have hedge := (edge_iff (hstack r hr)).mpr ⟨id_mem_keys hsmem, hstep⟩
          exact ⟨r, hr, .head hedge hreach⟩
        · exact ⟨s, by simp [hs, hold], hreach⟩

/-- A walk lists no id that was seen before, and none twice. -/
theorem walk_nodup (fuel : Nat) (seen : List RevisionId) (stack : List Revision) :
    ((nodes.walk d fuel seen stack).map Revision.id).Nodup ∧
      ∀ id ∈ (nodes.walk d fuel seen stack).map Revision.id, id ∉ seen := by
  induction fuel generalizing seen stack with
  | zero => simp [walk]
  | succ fuel ih =>
    rcases walk_succ nodes d fuel seen stack with ⟨hnil, -⟩ | ⟨passed, r, rest, -, -, hr, hlist⟩
    · simp [hnil]
    · obtain ⟨hnodup, hunseen⟩ :=
        ih (r.id :: seen) ((nodes.select (d.step r)).reverse ++ rest)
      rw [hlist, List.map_cons]
      constructor
      · exact List.nodup_cons.mpr ⟨fun h => hunseen _ h List.mem_cons_self, hnodup⟩
      · intro id hid hseen
        rcases List.mem_cons.mp hid with rfl | hid
        · exact hr hseen
        · exact hunseen id hid (List.mem_cons_of_mem _ hseen)

/-- The ids of the table that a walk may still list. -/
def unseen (nodes : Nodes) (seen : List RevisionId) : Finset RevisionId :=
  nodes.keys.toFinset \ seen.toFinset

theorem card_unseen_lt {seen : List RevisionId} {id : RevisionId} (hid : id ∈ nodes.keys)
    (hseen : id ∉ seen) : (nodes.unseen (id :: seen)).card < (nodes.unseen seen).card := by
  have herase : nodes.unseen (id :: seen) = (nodes.unseen seen).erase id := by
    rw [unseen, List.toFinset_cons, Finset.sdiff_insert, unseen]
  rw [herase]
  exact Finset.card_erase_lt_of_mem (by simp [unseen, hid, hseen])

theorem card_unseen_nil_lt (nodes : Nodes) : (nodes.unseen []).card < nodes.size + 1 := by
  have hcard := List.toFinset_card_le nodes.keys
  have hsize : nodes.keys.length = nodes.size := by simp [Table.keys, Table.size]
  simp only [unseen, List.toFinset_nil, Finset.sdiff_empty]
  omega

/-- With fuel for every unseen id a walk misses nothing: what lies on the stack, and what a
listed revision leads to, is seen or listed. -/
theorem walk_complete {fuel : Nat} {seen : List RevisionId} {stack : List Revision}
    (hstack : ∀ r ∈ stack, r ∈ nodes.elements) (hfuel : (nodes.unseen seen).card < fuel) :
    (∀ r ∈ stack, r.id ∈ seen ∨ r.id ∈ (nodes.walk d fuel seen stack).map Revision.id) ∧
    ∀ m ∈ nodes.walk d fuel seen stack, ∀ id, nodes.Edge d m.id id →
      id ∈ seen ∨ id ∈ (nodes.walk d fuel seen stack).map Revision.id := by
  induction fuel generalizing seen stack with
  | zero => omega
  | succ fuel ih =>
    rcases walk_succ nodes d fuel seen stack with
      ⟨hnil, hall⟩ | ⟨passed, r, rest, hs, hpassed, hr, hlist⟩
    · rw [hnil]
      exact ⟨fun r h => .inl (hall r h), by simp⟩
    · have hrmem : r ∈ nodes.elements := hstack r (by simp [hs])
      have hrest : ∀ s ∈ rest, s ∈ nodes.elements := fun s h => hstack s (by simp [hs, h])
      have hcard := card_unseen_lt (id_mem_keys hrmem) hr
      obtain ⟨hpushed, hclosed⟩ :=
        @ih (r.id :: seen) _ (pushed_mem (d := d) (r := r) hrest) (by omega)
      -- what the rest of the walk knows of, the whole walk has seen or lists
      have hlift : ∀ id, id ∈ r.id :: seen ∨ id ∈ (nodes.walk d fuel (r.id :: seen)
          ((nodes.select (d.step r)).reverse ++ rest)).map Revision.id →
          id ∈ seen ∨ id ∈ (nodes.walk d (fuel + 1) seen stack).map Revision.id := by
        intro id hid
        rw [hlist, List.map_cons]
        rcases hid with hid | hid
        · rcases List.mem_cons.mp hid with rfl | hid
          · exact .inr List.mem_cons_self
          · exact .inl hid
        · exact .inr (List.mem_cons_of_mem _ hid)
      constructor
      · intro s hsmem
        rw [hs] at hsmem
        rcases List.mem_append.mp hsmem with hp | hmem
        · exact .inl (hpassed s hp)
        · rcases List.mem_cons.mp hmem with rfl | hmem
          · exact hlift s.id (.inl List.mem_cons_self)
          · exact hlift s.id (hpushed s (List.mem_append_right _ hmem))
      · intro m hm id hedge
        rw [hlist] at hm
        rcases List.mem_cons.mp hm with rfl | hm
        · obtain ⟨hkey, hstep⟩ := (edge_iff hrmem).mp hedge
          obtain ⟨s, hsmem, rfl⟩ := mem_keys.mp hkey
          refine hlift s.id (hpushed s (List.mem_append_left _ ?_))
          exact List.mem_reverse.mpr (mem_select.mpr ⟨hsmem, hstep⟩)
        · exact hlift id (hclosed m hm id hedge)

/-- A walk lists every revision that was not on its stack after one that leads to it. -/
theorem walk_preceded {fuel : Nat} {seen : List RevisionId} {stack : List Revision}
    {before after : List Revision} {m : Revision}
    (h : nodes.walk d fuel seen stack = before ++ m :: after) :
    m ∈ stack ∨ ∃ r ∈ before, m.id ∈ d.step r := by
  induction fuel generalizing seen stack before with
  | zero => simp [walk] at h
  | succ fuel ih =>
    rcases walk_succ nodes d fuel seen stack with ⟨hnil, -⟩ | ⟨passed, r, rest, hs, -, -, hlist⟩
    · simp [hnil] at h
    · rw [hlist] at h
      cases before with
      | nil =>
        obtain ⟨rfl, -⟩ := List.cons.inj h
        exact .inl (by simp [hs])
      | cons first before =>
        obtain ⟨rfl, htail⟩ := List.cons.inj h
        rcases ih htail with hmem | ⟨r', hr', hstep⟩
        · rcases List.mem_append.mp hmem with hnew | hold
          · have hstep := (mem_select.mp (List.mem_reverse.mp hnew)).2
            exact .inr ⟨r, List.mem_cons_self, hstep⟩
          · exact .inl (by simp [hs, hold])
        · exact .inr ⟨r', List.mem_cons_of_mem _ hr', hstep⟩

section Closure

variable {start : Revision}

theorem closure_subset (hstart : start ∈ nodes.elements) {m : Revision}
    (hm : m ∈ nodes.closure d start) : m ∈ nodes.elements :=
  (walk_sound (by simpa using hstart) m hm).1

theorem closureIds_nodup (nodes : Nodes) (d : Direction) (start : Revision) :
    (nodes.closureIds d start).Nodup := (walk_nodup _ _ _).1

/-- A closure holds exactly what its start reaches. -/
theorem mem_closureIds (hstart : start ∈ nodes.elements) {id : RevisionId} :
    id ∈ nodes.closureIds d start ↔ ReflTransGen (nodes.Edge d) start.id id := by
  have hstack : ∀ r ∈ [start], r ∈ nodes.elements := by simpa using hstart
  constructor
  · intro h
    obtain ⟨m, hm, rfl⟩ := List.mem_map.mp h
    obtain ⟨-, r, hr, hreach⟩ := walk_sound hstack m hm
    rwa [List.mem_singleton.mp hr] at hreach
  · obtain ⟨htop, hclosed⟩ := walk_complete (d := d) hstack nodes.card_unseen_nil_lt
    intro h
    induction h with
    | refl => exact (htop start List.mem_cons_self).resolve_left List.not_mem_nil
    | tail _ hedge ih =>
      obtain ⟨m, hm, hid⟩ := List.mem_map.mp ih
      rw [← hid] at hedge
      exact (hclosed m hm _ hedge).resolve_left List.not_mem_nil

theorem mem_closure_iff (hstart : start ∈ nodes.elements) {m : Revision} :
    m ∈ nodes.closure d start ↔
      m ∈ nodes.elements ∧ ReflTransGen (nodes.Edge d) start.id m.id := by
  constructor
  · intro hm
    exact ⟨closure_subset hstart hm,
      (mem_closureIds hstart).mp (List.mem_map_of_mem hm)⟩
  · rintro ⟨hm, hreach⟩
    obtain ⟨m', hm', hid⟩ := List.mem_map.mp ((mem_closureIds hstart).mpr hreach)
    rwa [← nodes.eq_of_key_eq (closure_subset hstart hm') hm hid]

/-- All but the start of a closure come after a revision that leads to them. -/
theorem closure_preceded {before after : List Revision} {m : Revision}
    (h : nodes.closure d start = before ++ m :: after) :
    m = start ∨ ∃ r ∈ before, m.id ∈ d.step r := by
  simpa using walk_preceded h

end Closure

/-- The ancestors that a closure lists are those one descends from. -/
theorem mem_ancestors {start : Revision} (hstart : start ∈ nodes.elements) {id : RevisionId} :
    id ∈ nodes.closureIds .ancestors start ↔ nodes.Descends start.id id :=
  mem_closureIds hstart

end MigrationHistory.Nodes

import MigrationHistory.Proofs.Acceptance

/-!
# Why an insertion is refused

An insertion is refused for the first of five reasons that applies: the revision to replace is
absent, its id is a registered label, a label of it is taken, a parent of it is absent, or its
id is given again. The last two count under a strict policy only. Main statement: these are the
refusals and their errors, and a refused insertion leaves the history as it was, although the
checks that pass record their warnings one by one.
-/
namespace MigrationHistory

section First

variable {α β : Type} {xs : List α} {x : α}

/-- The first element of the list that has the property. -/
def First (P : α → Prop) (xs : List α) (x : α) : Prop :=
  ∃ before after, xs = before ++ x :: after ∧ P x ∧ ∀ y ∈ before, ¬ P y

theorem First.holds {P : α → Prop} (h : First P xs x) : P x := by
  obtain ⟨-, -, -, hx, -⟩ := h
  exact hx

theorem First.of_iff {P Q : α → Prop} (hpq : ∀ y ∈ xs, P y ↔ Q y) (h : First P xs x) :
    First Q xs x := by
  obtain ⟨before, after, rfl, hx, hnone⟩ := h
  have hbefore : ∀ y ∈ before, ¬ Q y := fun y hy hq =>
    hnone y hy ((hpq y (List.mem_append_left _ hy)).mpr hq)
  exact ⟨before, after, rfl, (hpq x (by simp)).mp hx, hbefore⟩

theorem first_congr {P Q : α → Prop} (hpq : ∀ y ∈ xs, P y ↔ Q y) :
    First P xs x ↔ First Q xs x :=
  ⟨.of_iff hpq, .of_iff fun y hy => (hpq y hy).symm⟩

theorem first_cons_iff {P : α → Prop} {y : α} :
    First P (y :: xs) x ↔ P y ∧ x = y ∨ ¬ P y ∧ First P xs x := by
  constructor
  · rintro ⟨before, after, hxs, hx, hnone⟩
    cases before with
    | nil =>
      obtain ⟨rfl, rfl⟩ := List.cons.inj hxs
      exact .inl ⟨hx, rfl⟩
    | cons z before =>
      obtain ⟨rfl, rfl⟩ := List.cons.inj hxs
      rw [List.forall_mem_cons] at hnone
      exact .inr ⟨hnone.1, before, after, rfl, hx, hnone.2⟩
  · rintro (⟨hy, rfl⟩ | ⟨hy, before, after, rfl, hx, hnone⟩)
    · exact ⟨[], xs, rfl, hy, by simp⟩
    · exact ⟨y :: before, after, rfl, hx, List.forall_mem_cons.mpr ⟨hy, hnone⟩⟩

/-- As soon as one element has the property there is a first one. -/
theorem exists_first_iff {P : α → Prop} : (∃ x, First P xs x) ↔ ∃ x ∈ xs, P x := by
  constructor
  · rintro ⟨x, before, after, rfl, hx, -⟩
    exact ⟨x, by simp, hx⟩
  · induction xs with
    | nil => simp
    | cons x rest ih =>
      rintro ⟨y, hy, hp⟩
      by_cases hx : P x
      · exact ⟨x, [], rest, rfl, hx, by simp⟩
      · have hrest : y ∈ rest := (List.mem_cons.mp hy).resolve_left fun h => hx (h ▸ hp)
        obtain ⟨z, before, after, rfl, hz, hnone⟩ := ih ⟨y, hrest, hp⟩
        exact ⟨z, x :: before, after, rfl, hz, List.forall_mem_cons.mpr ⟨hx, hnone⟩⟩

/-- The first element with the property comes no later than any other that has it. -/
theorem First.mem_or_eq {P : α → Prop} {before after : List α} {y : α}
    (h : First P (before ++ y :: after) x) (hy : P y) : x ∈ before ∨ x = y := by
  induction before with
  | nil =>
    rcases first_cons_iff.mp h with ⟨-, heq⟩ | ⟨hnot, -⟩
    · exact .inr heq
    · exact absurd hy hnot
  | cons z before ih =>
    rcases first_cons_iff.mp h with ⟨-, rfl⟩ | ⟨-, hrest⟩
    · exact .inl List.mem_cons_self
    · exact (ih hrest).imp_left (List.mem_cons_of_mem z)

theorem find?_eq_some_iff_first {p : α → Bool} :
    xs.find? p = some x ↔ First (fun y => p y = true) xs x := by
  rw [List.find?_eq_some_iff_append]
  constructor
  · rintro ⟨hx, before, after, hxs, hnone⟩
    exact ⟨before, after, hxs, hx, by simpa using hnone⟩
  · rintro ⟨before, after, hxs, hx, hnone⟩
    exact ⟨hx, before, after, hxs, by simpa using hnone⟩

theorem findSome?_eq_some_iff_first {f : α → Option β} {b : β} : xs.findSome? f = some b ↔
    ∃ x, First (fun y => ∃ c, f y = some c) xs x ∧ f x = some b := by
  rw [List.findSome?_eq_some_iff]
  constructor
  · rintro ⟨before, x, after, hxs, hx, hnone⟩
    refine ⟨x, ⟨before, after, hxs, ⟨b, hx⟩, ?_⟩, hx⟩
    rintro y hy ⟨c, hc⟩
    cases hc.symm.trans (hnone y hy)
  · rintro ⟨x, ⟨before, after, hxs, -, hnone⟩, hx⟩
    refine ⟨before, x, after, hxs, hx, fun y hy => ?_⟩
    exact Option.eq_none_iff_forall_ne_some.mpr fun c hc => hnone y hy ⟨c, hc⟩

end First

namespace History

variable {h : History} {r : Revision} {replacing : Bool} {e : Error}

/-- The reason applies to the insertion of `r` and raises the error. -/
inductive Raises (h : History) (r : Revision) (replacing : Bool) : Refusal → Error → Prop
  | absent (hreplacing : replacing = true) (habsent : r.id ∉ h.nodes.keys) :
      Raises h r replacing .absent (.absent r.id.text)
  | idTaken {owner : RevisionId} (howner : h.labelTarget? r.id.text = some owner) :
      Raises h r replacing .idTaken (.labelCollision r.id.text owner.text r.id.text)
  | labelTaken {label : BranchLabel} {existing : String}
      (hfirst : First (fun l => ∃ x, Taken h.nodes h.labels r l x) r.declared label)
      (htaken : Taken h.nodes h.labels r label existing) :
      Raises h r replacing .labelTaken (.labelCollision label.text r.id.text existing)
  | parentMissing {parent : RevisionId} (hstrict : h.config.missingParent = .error)
      (hfirst : First (· ∉ h.nodes.keys) r.parents parent) :
      Raises h r replacing .parentMissing (.missingParent r.id.text parent.text)
  | duplicate (hstrict : h.config.duplicateRevision = .error) (hreplacing : replacing = false)
      (hpresent : r.id ∈ h.nodes.keys) :
      Raises h r replacing .duplicate (.duplicateRevision r.id.text)

/-- The insertion of `r` is refused with the error of the first reason that applies. -/
def Refuses (h : History) (r : Revision) (replacing : Bool) (e : Error) : Prop :=
  ∃ reason, First (fun c => ∃ x, h.Raises r replacing c x) Refusal.order reason ∧
    h.Raises r replacing reason e

theorem labelCollision?_eq_some_iff {nodes : Nodes} {index : LabelIndex} :
    labelCollision? nodes index r = some e ↔ ∃ label existing,
      First (fun l => ∃ x, Taken nodes index r l x) r.declared label ∧
        Taken nodes index r label existing ∧ e = .labelCollision label.text r.id.text existing := by
  have htaken : ∀ label, (∃ c, (labelHolder? nodes index r label).map (fun existing =>
      Error.labelCollision label.text r.id.text existing) = some c) ↔
      ∃ x, Taken nodes index r label x := by
    intro label
    simp only [Option.map_eq_some_iff, labelHolder?_eq_some_iff]
    exact ⟨fun ⟨_, x, hx, _⟩ => ⟨x, hx⟩, fun ⟨x, hx⟩ => ⟨_, x, hx, rfl⟩⟩
  rw [labelCollision?, findSome?_eq_some_iff_first]
  constructor
  · rintro ⟨label, hfirst, hlabel⟩
    obtain ⟨existing, hholder, rfl⟩ := Option.map_eq_some_iff.mp hlabel
    exact ⟨label, existing, hfirst.of_iff fun l _ => htaken l, labelHolder?_eq_some_iff.mp hholder, rfl⟩
  · rintro ⟨label, existing, hfirst, hx, rfl⟩
    refine ⟨label, hfirst.of_iff fun l _ => (htaken l).symm, ?_⟩
    rw [labelHolder?_eq_some_iff.mpr hx, Option.map_some]

theorem head?_missingWarnings_eq_some_iff {nodes : Nodes} {w : Warning} :
    (missingWarnings nodes r).head? = some w ↔ ∃ parent,
      First (· ∉ nodes.keys) r.parents parent ∧ w = .missingParent r.id parent := by
  have habsent : ∀ parent, (!nodes.holds parent) = true ↔ parent ∉ nodes.keys := fun parent => by
    rw [Bool.not_eq_true', Table.holds_eq_false_iff]
  rw [missingWarnings, List.head?_map, List.head?_filter, Option.map_eq_some_iff]
  simp only [find?_eq_some_iff_first, first_congr fun parent _ => habsent parent]
  exact exists_congr fun _ => and_congr_right fun _ => eq_comm

theorem refusal?_eq_some_iff {reason : Refusal} :
    h.refusal? r replacing reason = some e ↔ h.Raises r replacing reason e := by
  constructor
  · intro hfound
    cases reason with
    | absent =>
      simp only [refusal?, Option.ite_none_right_eq_some, Bool.and_eq_true, Bool.not_eq_true',
        Table.holds_eq_false_iff] at hfound
      obtain ⟨⟨hreplacing, habsent⟩, heq⟩ := hfound
      cases heq
      exact .absent hreplacing habsent
    | idTaken =>
      obtain ⟨owner, howner, rfl⟩ := Option.map_eq_some_iff.mp hfound
      exact .idTaken howner
    | labelTaken =>
      obtain ⟨label, existing, hfirst, htaken, rfl⟩ := labelCollision?_eq_some_iff.mp hfound
      exact .labelTaken hfirst htaken
    | parentMissing =>
      simp only [refusal?] at hfound
      split at hfound
      · rename_i hstrict
        obtain ⟨_, hhead, rfl⟩ := Option.map_eq_some_iff.mp hfound
        obtain ⟨parent, hfirst, rfl⟩ := head?_missingWarnings_eq_some_iff.mp hhead
        exact .parentMissing hstrict hfirst
      · cases hfound
    | duplicate =>
      simp only [refusal?, Option.ite_none_right_eq_some, Bool.and_eq_true, Bool.not_eq_true',
        Table.holds_iff, decide_eq_true_eq] at hfound
      obtain ⟨⟨⟨hreplacing, hpresent⟩, hstrict⟩, heq⟩ := hfound
      cases heq
      exact .duplicate hstrict hreplacing hpresent
  · intro hraises
    cases hraises with
    | absent hreplacing habsent =>
      simp [refusal?, hreplacing, Table.holds_eq_false_iff.mpr habsent]
    | idTaken howner => simp [refusal?, howner]
    | labelTaken hfirst htaken =>
      exact labelCollision?_eq_some_iff.mpr ⟨_, _, hfirst, htaken, rfl⟩
    | parentMissing hstrict hfirst =>
      simp only [refusal?, hstrict]
      rw [head?_missingWarnings_eq_some_iff.mpr ⟨_, hfirst, rfl⟩]
      rfl
    | duplicate hstrict hreplacing hpresent =>
      simp [refusal?, hstrict, hreplacing, hpresent]

theorem insertFault?_eq_some_iff :
    h.insertFault? r replacing = some e ↔ h.Refuses r replacing e := by
  rw [insertFault?, findSome?_eq_some_iff_first]
  simp only [refusal?_eq_some_iff, Refuses]

/-- An insertion succeeds when no reason finds anything against it. -/
theorem insertFault?_eq_none_iff : h.insertFault? r replacing = none ↔
    (replacing = true → r.id ∈ h.nodes.keys) ∧ h.labelTarget? r.id.text = none ∧
      labelCollision? h.nodes h.labels r = none ∧
      (h.config.missingParent = .error → ∀ p ∈ r.parents, p ∈ h.nodes.keys) ∧
      (h.config.duplicateRevision = .error → replacing = false → r.id ∉ h.nodes.keys) := by
  have hmissing : h.refusal? r replacing .parentMissing = none ↔
      (h.config.missingParent = .error → ∀ p ∈ r.parents, p ∈ h.nodes.keys) := by
    simp only [refusal?]
    split
    · rename_i hstrict
      rw [Option.map_eq_none_iff, List.head?_eq_none_iff, missingWarnings_eq_nil_iff]
      simp [hstrict]
    · rename_i hlenient
      simp [hlenient]
  rw [insertFault?, List.findSome?_eq_none_iff]
  simp only [Refusal.order, List.forall_mem_cons, List.not_mem_nil, false_implies, implies_true,
    and_true, hmissing]
  refine and_congr ?_ (and_congr ?_ (and_congr Iff.rfl (and_congr Iff.rfl ?_)))
  · simp [refusal?, Table.holds_eq_false_iff]
  · simp [refusal?]
  · simp only [refusal?, ite_eq_right_iff, reduceCtorEq, imp_false, Bool.and_eq_true, not_and,
      Bool.not_eq_true', Table.holds_iff, decide_eq_true_eq]
    tauto

theorem insert_eq_error_iff_fault :
    h.insert r replacing = .error e ↔ h.insertFault? r replacing = some e := by
  unfold insert
  split
  · rename_i error hfault
    simp [hfault]
  · rename_i hfault
    simp [hfault]

theorem insert_eq_error_iff : h.insert r replacing = .error e ↔ h.Refuses r replacing e :=
  insert_eq_error_iff_fault.trans insertFault?_eq_some_iff

theorem insert_succeeds_iff :
    (∃ grown, h.insert r replacing = .ok grown) ↔ h.insertFault? r replacing = none := by
  rw [Option.eq_none_iff_forall_ne_some]
  simp only [ne_eq, ← insert_eq_error_iff_fault]
  cases h.insert r replacing <;> simp

theorem refused_iff : (∃ e, h.insert r replacing = .error e) ↔
    ∃ reason e, h.Raises r replacing reason e := by
  simp only [insert_eq_error_iff, Refuses]
  constructor
  · rintro ⟨e, reason, -, hraises⟩
    exact ⟨reason, e, hraises⟩
  · rintro ⟨reason, e, hraises⟩
    have hlisted : reason ∈ Refusal.order := by cases reason <;> decide
    obtain ⟨first, hfirst⟩ := exists_first_iff (P := fun c => ∃ x, h.Raises r replacing c x).mpr
      ⟨reason, hlisted, e, hraises⟩
    obtain ⟨x, hx⟩ := hfirst.holds
    exact ⟨x, first, hfirst, hx⟩

/-- A check ends the request or leaves the history as it is to what follows. -/
theorem run_raiseFound (found? : History → Option Error) (rest : InPlace Unit) (h : History) :
    (raiseFound found? >>= fun _ => rest).run h =
      match found? h with
      | some e => .error e h
      | none => rest.run h := by
  simp only [raiseFound, EStateM.run_bind, EStateM.run_get]
  cases found? h <;> rfl

theorem run_recordOverwriting (h : History) : (recordOverwriting r replacing).run h =
    match h.refusal? r replacing .duplicate with
    | some e => .error e h
    | none => .ok () { h with warnings := h.warnings ++
        if !replacing && h.nodes.holds r.id then [.duplicateRevision r.id] else [] } := by
  simp only [recordOverwriting, EStateM.run_bind, EStateM.run_get, refusal?]
  by_cases hoverwrites : (!replacing && h.nodes.holds r.id) = true
  · cases hpolicy : h.config.duplicateRevision with
    | error => simp [hoverwrites, recordOrRaise, Warning.toError]
    | warn => simp [hoverwrites, recordOrRaise]
  · simp [hoverwrites]

theorem run_recordMissing (h : History) : (recordMissing r).run h =
    .ok () { h with warnings := h.warnings ++ missingWarnings h.nodes r } := by
  have hrun : ∀ (problems : List Warning) (h : History),
      (forM problems (recordOrRaise .warn) : InPlace Unit).run h =
        .ok () { h with warnings := h.warnings ++ problems } := by
    intro problems
    induction problems with
    | nil => simp
    | cons problem rest ih =>
      intro h
      simp [recordOrRaise, ih]
  simp only [recordMissing, EStateM.run_bind, EStateM.run_get]
  exact hrun (missingWarnings h.nodes r) h

/-- In place, an insertion does what checking first and placing then would do. -/
theorem run_insertInPlace (h : History) (r : Revision) (replacing : Bool) :
    (insertInPlace r replacing).run h =
      match h.insert r replacing with
      | .ok grown => .ok () grown
      | .error e => .error e h := by
  simp only [insertInPlace, run_raiseFound, insert, insertFault?, Refusal.order,
    List.findSome?_cons, List.findSome?_nil]
  cases h.refusal? r replacing .absent with
  | some e => rfl
  | none =>
  cases h.refusal? r replacing .idTaken with
  | some e => rfl
  | none =>
  cases h.refusal? r replacing .labelTaken with
  | some e => rfl
  | none =>
  cases h.refusal? r replacing .parentMissing with
  | some e => rfl
  | none =>
  simp only [EStateM.run_bind, run_recordOverwriting]
  cases h.refusal? r replacing .duplicate with
  | some e => rfl
  | none =>
    simp only [run_recordMissing, EStateM.run_modify, List.append_assoc]
    rfl

/-- A revision is refused with the error of the first reason that applies, and it is refused as
soon as any does. In place, a refusal leaves every part of the history as it was, and what
succeeds leaves the grown history. -/
theorem insertion_atomic (h : History) (r : Revision) (replacing : Bool) :
    (∀ e, h.insert r replacing = .error e ↔ h.Refuses r replacing e) ∧
    ((∃ e, h.insert r replacing = .error e) ↔ ∃ reason e, h.Raises r replacing reason e) ∧
    (∀ e left, (insertInPlace r replacing).run h = .error e left ↔
      h.Refuses r replacing e ∧ left = h) ∧
    ∀ left, (insertInPlace r replacing).run h = .ok () left ↔ h.insert r replacing = .ok left := by
  refine ⟨fun e => insert_eq_error_iff, refused_iff, fun e left => ?_, fun left => ?_⟩
  · rw [← insert_eq_error_iff, run_insertInPlace]
    cases h.insert r replacing <;> simp [eq_comm]
  · rw [run_insertInPlace]
    cases h.insert r replacing <;> simp

end History

end MigrationHistory

import Mathlib.Data.List.Nodup
import MigrationHistory.Proofs.Arms

/-!
# Proper walks

A walk is proper when it starts at the upper ends of its space, when everything else in the
space is named from within the space, and when what is no fork is named there only once.
Then no arm reaches into another one. Main statements: a proper walk passes exactly its
space, without repeats as long as no parent is named twice, and the only thing that can put
a parent before its child is the order in which the arms start.
-/
namespace MigrationHistory

/-- An element of a flattened list stands in the part of one element of the list. -/
theorem exists_of_flatMap_eq {α β : Type} {f : α → List β} {xs : List α} {y : β}
    {before after : List β} (h : xs.flatMap f = before ++ y :: after) :
    ∃ pre x post front back, xs = pre ++ x :: post ∧ f x = front ++ y :: back ∧
      before = pre.flatMap f ++ front := by
  induction xs generalizing before with
  | nil => simp at h
  | cons x xs ih =>
    rw [List.flatMap_cons, List.append_eq_append_iff] at h
    rcases h with ⟨mid, rfl, hrest⟩ | ⟨mid, hx, hmid⟩
    · obtain ⟨pre, x', post, front, back, rfl, hx', rfl⟩ := ih hrest
      exact ⟨x :: pre, x', post, front, back, rfl, hx', by simp⟩
    · cases mid with
      | nil =>
        obtain ⟨pre, x', post, front, back, rfl, hx', hnil⟩ := @ih [] hmid.symm
        exact ⟨x :: pre, x', post, front, back, rfl, hx', by simpa [← hnil] using hx.symm⟩
      | cons first mid =>
        obtain ⟨rfl, -⟩ := List.cons.inj hmid
        exact ⟨[], x, xs, before, mid, rfl, hx, rfl⟩

/-- Each element of the list stands after all of its elements that are related to it. -/
def InOrder {α : Type} (related : α → α → Prop) (xs : List α) : Prop :=
  ∀ before x after, xs = before ++ x :: after → ∀ y ∈ xs, related y x → y ∈ before

theorem Nodes.select_nodup {nodes : Nodes} {ids : List RevisionId} (h : ids.Nodup) :
    (nodes.select ids).Nodup := by
  refine h.filterMap fun a b r ha hb => ?_
  rw [← (Table.find?_eq_some_iff.mp ha).2, ← (Table.find?_eq_some_iff.mp hb).2]

namespace Walk

open Nodes Relation

/-- The walk starts on top of its space, and the space branches at its forks only. -/
structure Proper (w : Walk) : Prop where
  acyclic : w.nodes.Acyclic
  space_mem : ∀ id ∈ w.space, id ∈ w.nodes.keys
  forks_mem : ∀ id ∈ w.forks, id ∈ w.space
  queue_mem : ∀ r ∈ w.queue, r ∈ w.nodes.elements ∧ r.id ∈ w.space
  on_top : ∀ r ∈ w.queue, ∀ c ∈ w.space, ¬ w.nodes.Names c r.id
  queued : w.queued = []
  single : ∀ p ∈ w.space, p ∉ w.forks → ∀ c ∈ w.space, ∀ d ∈ w.space,
    w.nodes.Names c p → w.nodes.Names d p → c = d
  covered : ∀ p ∈ w.space, (∃ r ∈ w.queue, r.id = p) ∨ ∃ c ∈ w.space, w.nodes.Names c p

/-- `p` is a parent of `r` on the same arm. -/
def Continues (w : Walk) (r p : Revision) : Prop :=
  (r ∈ w.nodes.elements ∧ r.id ∈ w.space) ∧ p ∈ w.nodes.elements ∧ p.id ∈ w.onArm r

variable {w : Walk} {r p x g : Revision}

theorem Continues.names (h : w.Continues r p) : w.nodes.Names r.id p.id :=
  (names_iff h.1.1).mpr ⟨id_mem_keys h.2.1, (mem_onArm.mp h.2.2).1⟩

theorem descends_of_continues (h : ReflTransGen w.Continues r x) :
    w.nodes.Descends r.id x.id := h.lift Revision.id fun _ _ hstep => hstep.names

theorem Proper.grounded (hw : w.Proper) : w.Grounded :=
  ⟨hw.acyclic, fun r hr => (hw.queue_mem r hr).1⟩

/-- What continues an arm has a single child on it. -/
theorem Proper.continues_unique (hw : w.Proper) {s : Revision} (hr : w.Continues r p)
    (hs : w.Continues s p) : r = s := by
  obtain ⟨-, hspace, hfork⟩ := mem_onArm.mp hr.2.2
  have hid := hw.single p.id hspace hfork r.id hr.1.2 s.id hs.1.2 hr.names hs.names
  exact w.nodes.eq_of_key_eq hr.1.1 hs.1.1 hid

theorem mem_armOf (hacyclic : w.nodes.Acyclic) (hr : r ∈ w.nodes.elements)
    (hspace : r.id ∈ w.space) : x ∈ w.armOf r ↔ ReflTransGen w.Continues r x := by
  induction hheight : w.nodes.height r.id using Nat.strong_induction_on generalizing r with
  | _ n ih =>
    rw [armOf_eq hacyclic hr, List.mem_cons, List.mem_flatMap]
    constructor
    · rintro (rfl | ⟨p, hp, hx⟩)
      · exact .refl
      · obtain ⟨hmem, honarm⟩ := mem_select.mp hp
        have hlower := (height_onArm hacyclic hr hp).2
        have hpspace := (mem_onArm.mp honarm).2.1
        have hreach := (ih _ (hheight ▸ hlower) hmem hpspace rfl).mp hx
        exact .head ⟨⟨hr, hspace⟩, hmem, honarm⟩ hreach
    · intro h
      rcases ReflTransGen.cases_head h with rfl | ⟨p, hstep, hreach⟩
      · exact .inl rfl
      · have hp := mem_select.mpr hstep.2
        have hlower := (height_onArm hacyclic hr hp).2
        have hpspace := (mem_onArm.mp hstep.2.2).2.1
        exact .inr ⟨p, hp, (ih _ (hheight ▸ hlower) hstep.2.1 hpspace rfl).mpr hreach⟩

/-- An arm does not leave the table or the space. -/
theorem armOf_mem (hacyclic : w.nodes.Acyclic) (hr : r ∈ w.nodes.elements)
    (hspace : r.id ∈ w.space) (hx : x ∈ w.armOf r) : x ∈ w.nodes.elements ∧ x.id ∈ w.space := by
  rcases ReflTransGen.cases_tail ((mem_armOf hacyclic hr hspace).mp hx) with rfl | ⟨c, -, hstep⟩
  · exact ⟨hr, hspace⟩
  · exact ⟨hstep.2.1, (mem_onArm.mp hstep.2.2).2.1⟩

/-- All but the root of an arm come after the child that they continue. -/
theorem armOf_preceded (hacyclic : w.nodes.Acyclic) (hr : r ∈ w.nodes.elements)
    (hspace : r.id ∈ w.space) {before after : List Revision}
    (h : w.armOf r = before ++ x :: after) :
    before = [] ∧ x = r ∨ ∃ c ∈ before, w.Continues c x := by
  induction hheight : w.nodes.height r.id using Nat.strong_induction_on
    generalizing r before after with
  | _ n ih =>
    rw [armOf_eq hacyclic hr] at h
    cases before with
    | nil => exact .inl ⟨rfl, (List.cons.inj h).1.symm⟩
    | cons first before =>
      obtain ⟨rfl, hrest⟩ := List.cons.inj h
      obtain ⟨pre, p, post, front, back, hps, harm, rfl⟩ := exists_of_flatMap_eq hrest
      have hp : p ∈ w.nodes.select (w.onArm r) := by simp [hps]
      obtain ⟨hmem, honarm⟩ := mem_select.mp hp
      have hlower := (height_onArm hacyclic hr hp).2
      rcases ih _ (hheight ▸ hlower) hmem (mem_onArm.mp honarm).2.1 harm rfl with
        ⟨-, rfl⟩ | ⟨c, hc, hstep⟩
      · exact .inr ⟨r, List.mem_cons_self, ⟨hr, hspace⟩, hmem, honarm⟩
      · exact .inr ⟨c, by simp [hc], hstep⟩

theorem Proper.armRoots_mem (hw : w.Proper) (hg : g ∈ w.armRoots) :
    g ∈ w.nodes.elements ∧ g.id ∈ w.space := by
  refine ⟨hw.grounded.armRoots_mem hg, ?_⟩
  rw [armRoots_eq] at hg
  rcases List.mem_append.mp hg with hg | hg
  · exact (hw.queue_mem g hg).2
  · exact hw.forks_mem _ (mem_met.mp (mem_select.mp hg).2).1

/-- A root that is named from the space is a fork. -/
theorem Proper.fork_of_named (hw : w.Proper) (hg : g ∈ w.armRoots) {c : RevisionId}
    (hc : c ∈ w.space) (hnames : w.nodes.Names c g.id) : g.id ∈ w.forks := by
  rw [armRoots_eq] at hg
  rcases List.mem_append.mp hg with hg | hg
  · exact absurd hnames (hw.on_top g hg c hc)
  · exact (mem_met.mp (mem_select.mp hg).2).1

/-- No arm leads into the root of another. -/
theorem Proper.not_continues_root (hw : w.Proper) (hg : g ∈ w.armRoots) :
    ¬ w.Continues r g := by
  intro hstep
  exact (mem_onArm.mp hstep.2.2).2.2 (hw.fork_of_named hg hstep.1.2 hstep.names)

/-- Two ways down to one revision run along each other. -/
theorem Proper.comparable (hw : w.Proper) {s : Revision} (hr : ReflTransGen w.Continues r x)
    (hs : ReflTransGen w.Continues s x) :
    ReflTransGen w.Continues r s ∨ ReflTransGen w.Continues s r := by
  have hunique : Relator.RightUnique (Function.swap w.Continues) :=
    fun _ _ _ hb hc => hw.continues_unique hb hc
  rcases ReflTransGen.total_of_right_unique hunique hr.swap hs.swap with h | h
  · exact .inr h.swap
  · exact .inl h.swap

theorem Proper.root_unique (hw : w.Proper) {f : Revision} (hf : f ∈ w.armRoots)
    (hg : g ∈ w.armRoots) (hxf : x ∈ w.armOf f) (hxg : x ∈ w.armOf g) : f = g := by
  have hend : ∀ a b, b ∈ w.armRoots → ReflTransGen w.Continues a b → a = b := by
    intro a b hb h
    rcases ReflTransGen.cases_tail h with heq | ⟨c, -, hstep⟩
    · exact heq.symm
    · exact absurd hstep (hw.not_continues_root hb)
  obtain ⟨hfmem, hfspace⟩ := hw.armRoots_mem hf
  obtain ⟨hgmem, hgspace⟩ := hw.armRoots_mem hg
  rcases hw.comparable ((mem_armOf hw.acyclic hfmem hfspace).mp hxf)
    ((mem_armOf hw.acyclic hgmem hgspace).mp hxg) with h | h
  · exact hend f g hg h
  · exact (hend g f hf h).symm

theorem mem_passed : x ∈ w.passed ↔ ∃ g ∈ w.armRoots, x ∈ w.armOf g := List.mem_flatMap

theorem Proper.passed_mem (hw : w.Proper) (hx : x ∈ w.passed) :
    x ∈ w.nodes.elements ∧ x.id ∈ w.space := by
  obtain ⟨g, hg, hx⟩ := mem_passed.mp hx
  obtain ⟨hmem, hspace⟩ := hw.armRoots_mem hg
  exact armOf_mem hw.acyclic hmem hspace hx

theorem Proper.mem_passed_iff (hw : w.Proper) :
    x ∈ w.passed ↔ x ∈ w.nodes.elements ∧ x.id ∈ w.space := by
  refine ⟨hw.passed_mem, ?_⟩
  rintro ⟨hx, hspace⟩
  -- from above: what names `x` from within the space is passed before
  induction hdepth : w.nodes.size - w.nodes.height x.id using Nat.strong_induction_on
    generalizing x with
  | _ n ih =>
    rcases hw.covered x.id hspace with ⟨r, hr, hid⟩ | ⟨c, hc, hnames⟩
    · obtain rfl := w.nodes.eq_of_key_eq (hw.queue_mem r hr).1 hx hid
      have hroot : r ∈ w.armRoots := by
        rw [armRoots_eq]
        exact List.mem_append_left _ hr
      exact mem_passed.mpr ⟨r, hroot, (mem_armOf hw.acyclic hx hspace).mpr .refl⟩
    · obtain ⟨child, hchild, rfl⟩ := mem_keys.mp (hw.space_mem c hc)
      have hhigher := height_lt hw.acyclic hnames
      have hbound := height_le_size w.nodes child.id
      have hpassed := ih _ (by omega) hchild hc rfl
      have hparent := ((names_iff hchild).mp hnames).2
      by_cases hfork : x.id ∈ w.forks
      · have hmet : x.id ∈ w.met w.passed :=
          mem_met.mpr ⟨hfork, by simp [hw.queued], child, hpassed, hparent⟩
        have hroot : x ∈ w.armRoots := by
          rw [armRoots_eq]
          exact List.mem_append_right _ (mem_select.mpr ⟨hx, hmet⟩)
        exact mem_passed.mpr ⟨x, hroot, (mem_armOf hw.acyclic hx hspace).mpr .refl⟩
      · obtain ⟨g, hg, hmem⟩ := mem_passed.mp hpassed
        obtain ⟨hgmem, hgspace⟩ := hw.armRoots_mem hg
        have hreach := (mem_armOf hw.acyclic hgmem hgspace).mp hmem
        have hstep : w.Continues child x :=
          ⟨⟨hchild, hc⟩, hx, mem_onArm.mpr ⟨hparent, hspace, hfork⟩⟩
        exact mem_passed.mpr ⟨g, hg, (mem_armOf hw.acyclic hgmem hgspace).mpr (hreach.tail hstep)⟩

/-- Two parents that continue one arm do not meet on it. -/
theorem Proper.siblings_disjoint (hw : w.Proper) {q : Revision} (hp : w.Continues r p)
    (hq : w.Continues r q) (hne : p ≠ q) : List.Disjoint (w.armOf p) (w.armOf q) := by
  have happart : ∀ a b, w.Continues r a → w.Continues r b → ReflTransGen w.Continues a b →
      a = b := by
    intro a b ha hb h
    rcases ReflTransGen.cases_tail h with heq | ⟨c, hreach, hstep⟩
    · exact heq.symm
    · rw [hw.continues_unique hstep hb] at hreach
      exact absurd (descends_of_continues hreach) (hw.acyclic.not_descends ha.names)
  intro x hxp hxq
  have hp' := (mem_armOf hw.acyclic hp.2.1 (mem_onArm.mp hp.2.2).2.1).mp hxp
  have hq' := (mem_armOf hw.acyclic hq.2.1 (mem_onArm.mp hq.2.2).2.1).mp hxq
  rcases hw.comparable hp' hq' with h | h
  · exact hne (happart p q hp hq h)
  · exact hne (happart q p hq hp h).symm

/-- The root of an arm does not come again further down. -/
theorem root_not_below (hacyclic : w.nodes.Acyclic) (hr : r ∈ w.nodes.elements)
    (hspace : r.id ∈ w.space) : r ∉ (w.nodes.select (w.onArm r)).flatMap w.armOf := by
  intro hmem
  obtain ⟨p, hp, hreach⟩ := List.mem_flatMap.mp hmem
  have hstep : w.Continues r p := ⟨⟨hr, hspace⟩, mem_select.mp hp⟩
  rw [mem_armOf hacyclic hstep.2.1 (mem_onArm.mp hstep.2.2).2.1] at hreach
  exact hacyclic.not_descends hstep.names (descends_of_continues hreach)

theorem Proper.armOf_nodup (hw : w.Proper)
    (hparents : ∀ r ∈ w.nodes.elements, r.parents.Nodup) (hr : r ∈ w.nodes.elements)
    (hspace : r.id ∈ w.space) : (w.armOf r).Nodup := by
  induction hheight : w.nodes.height r.id using Nat.strong_induction_on generalizing r with
  | _ n ih =>
    have hstep : ∀ p ∈ w.nodes.select (w.onArm r), w.Continues r p := by
      intro p hp
      exact ⟨⟨hr, hspace⟩, mem_select.mp hp⟩
    rw [armOf_eq hw.acyclic hr, List.nodup_cons, List.nodup_flatMap]
    refine ⟨root_not_below hw.acyclic hr hspace, ?_, ?_⟩
    · intro p hp
      have hlower := (height_onArm hw.acyclic hr hp).2
      exact ih _ (hheight ▸ hlower) (hstep p hp).2.1 (mem_onArm.mp (hstep p hp).2.2).2.1 rfl
    · have hnodup : (w.nodes.select (w.onArm r)).Nodup :=
        select_nodup ((hparents r hr).sublist List.filter_sublist)
      exact hnodup.imp_of_mem fun hp hq hne =>
        hw.siblings_disjoint (hstep _ hp) (hstep _ hq) hne

/-- What starts on top of the space is no fork that an arm shows. -/
theorem Proper.armRoots_nodup (hw : w.Proper) (hqueue : w.queue.Nodup) : w.armRoots.Nodup := by
  rw [armRoots_eq, List.nodup_append]
  refine ⟨hqueue, select_nodup (met_nodup w w.passed), ?_⟩
  rintro r hr s hs rfl
  obtain ⟨-, -, c, hc, hparent⟩ := mem_met.mp (mem_select.mp hs).2
  obtain ⟨hmem, hspace⟩ := hw.passed_mem hc
  have hkey := id_mem_keys (hw.queue_mem r hr).1
  exact hw.on_top r hr c.id hspace ((names_iff hmem).mpr ⟨hkey, hparent⟩)

/-- A proper walk repeats nothing when no parent is named twice. -/
theorem Proper.passed_nodup (hw : w.Proper) (hqueue : w.queue.Nodup)
    (hparents : ∀ r ∈ w.nodes.elements, r.parents.Nodup) : w.passed.Nodup := by
  rw [passed, List.nodup_flatMap]
  constructor
  · intro g hg
    obtain ⟨hmem, hspace⟩ := hw.armRoots_mem hg
    exact hw.armOf_nodup hparents hmem hspace
  · refine (hw.armRoots_nodup hqueue).imp_of_mem fun hf hg hne => ?_
    intro x hxf hxg
    exact hne (hw.root_unique hf hg hxf hxg)

/-- The arm of `g` lists a revision that names `p`, and `p` is listed too. -/
def Leads (w : Walk) (g p : Revision) : Prop :=
  p.id ∉ w.skipped ∧ ∃ c ∈ w.armOf g, c.id ∉ w.skipped ∧ p.id ∈ c.parents

theorem mem_listed {rs : List Revision} : x ∈ w.listed rs ↔ x ∈ rs ∧ x.id ∉ w.skipped := by
  simp [listed]

/-- Of what a proper walk lists, as of the whole table, an id names one revision. -/
theorem Proper.eq_of_listed (hw : w.Proper) {r s : Revision} (hr : r ∈ w.listed w.passed)
    (hs : s ∈ w.listed w.passed) (hid : r.id = s.id) : r = s :=
  w.nodes.eq_of_key_eq (hw.passed_mem (mem_listed.mp hr).1).1 (hw.passed_mem (mem_listed.mp hs).1).1
    hid

theorem Proper.map_id_listed_nodup_iff (hw : w.Proper) :
    ((w.listed w.passed).map Revision.id).Nodup ↔ (w.listed w.passed).Nodup :=
  ⟨List.Nodup.of_map _, fun hnodup => hnodup.map_on fun _ hr _ hs => hw.eq_of_listed hr hs⟩

theorem listed_eq {rs before after : List Revision} (h : w.listed rs = before ++ x :: after) :
    ∃ front back, rs = front ++ x :: back ∧ before = w.listed front := by
  obtain ⟨front, rest, rfl, rfl, hrest⟩ := List.filter_eq_append_iff.mp h
  obtain ⟨mid, back, rfl, hmid, -, -⟩ := List.filter_eq_cons_iff.mp hrest
  refine ⟨front ++ mid, back, by simp, ?_⟩
  have hnone : mid.filter (fun r => r.id ∉ w.skipped) = [] := List.filter_eq_nil_iff.mpr hmid
  rw [listed, List.filter_append, hnone, List.append_nil]

/-- A walk whose arms start in order lists children before their parents. -/
theorem Proper.inOrder_of_roots (hw : w.Proper) (hroots : InOrder w.Leads w.armRoots) :
    InOrder (fun c p => p.id ∈ c.parents) (w.listed w.passed) := by
  intro before x after h c hc hparent
  have hx : x ∈ w.listed w.passed := by simp [h]
  obtain ⟨hxpassed, hxskip⟩ := mem_listed.mp hx
  obtain ⟨hcpassed, hcskip⟩ := mem_listed.mp hc
  obtain ⟨hxmem, hxspace⟩ := hw.passed_mem hxpassed
  obtain ⟨hcmem, hcspace⟩ := hw.passed_mem hcpassed
  obtain ⟨front, back, hpassed, rfl⟩ := listed_eq h
  refine mem_listed.mpr ⟨?_, hcskip⟩
  obtain ⟨pre, g, post, front', back', hgroots, harm, rfl⟩ := exists_of_flatMap_eq hpassed
  have hg : g ∈ w.armRoots := by simp [hgroots]
  obtain ⟨hgmem, hgspace⟩ := hw.armRoots_mem hg
  rcases armOf_preceded hw.acyclic hgmem hgspace harm with ⟨rfl, rfl⟩ | ⟨d, hd, hstep⟩
  · -- `x` starts its arm, and the arm that lists `c` starts before it
    obtain ⟨f, hf, hcarm⟩ := mem_passed.mp hcpassed
    have hbefore := hroots pre x post hgroots f hf ⟨hxskip, c, hcarm, hcskip, hparent⟩
    exact List.mem_append_left _ (List.mem_flatMap.mpr ⟨f, hbefore, hcarm⟩)
  · -- `x` is no fork, so that `c` is the child that it continues
    have hfork := (mem_onArm.mp hstep.2.2).2.2
    have hnames := (names_iff hcmem).mpr ⟨id_mem_keys hxmem, hparent⟩
    have hid := hw.single x.id hxspace hfork c.id hcspace d.id hstep.1.2 hnames hstep.names
    rw [w.nodes.eq_of_key_eq hcmem hstep.1.1 hid]
    exact List.mem_append_right _ hd

/-- A walk that lists children before their parents starts its arms in order. -/
theorem Proper.roots_of_inOrder (hw : w.Proper)
    (hlisted : InOrder (fun c p => p.id ∈ c.parents) (w.listed w.passed)) :
    InOrder w.Leads w.armRoots := by
  rintro pre p post hroots f hf ⟨hpskip, c, hcarm, hcskip, hparent⟩
  have hp : p ∈ w.armRoots := by simp [hroots]
  have harm := armOf_eq hw.acyclic (hw.armRoots_mem hp).1
  have hcut : w.listed w.passed = w.listed (pre.flatMap w.armOf) ++ p ::
      w.listed ((w.nodes.select (w.onArm p)).flatMap w.armOf ++ post.flatMap w.armOf) := by
    simp [passed, hroots, harm, listed, hpskip]
  have hc : c ∈ w.listed w.passed := mem_listed.mpr ⟨mem_passed.mpr ⟨f, hf, hcarm⟩, hcskip⟩
  have hbefore := hlisted _ p _ hcut c hc hparent
  obtain ⟨g, hg, hcg⟩ := List.mem_flatMap.mp (mem_listed.mp hbefore).1
  rwa [hw.root_unique hf (by simp [hroots, hg]) hcarm hcg]

/-- The order in which the arms start is all that can put a parent before its child. -/
theorem Proper.inOrder_iff (hw : w.Proper) :
    InOrder (fun c p => p.id ∈ c.parents) (w.listed w.passed) ↔ InOrder w.Leads w.armRoots :=
  ⟨hw.roots_of_inOrder, hw.inOrder_of_roots⟩

/-- Arms that lead to a fork start at upper bounds only, when no fork stands above another. -/
theorem Proper.roots_inOrder_of_flat (hw : w.Proper)
    (hflat : ∀ p ∈ w.forks, ∀ q ∈ w.forks, w.nodes.Descends p q → p = q) :
    InOrder w.Leads w.armRoots := by
  intro pre p post hroots g hg hleads
  obtain ⟨-, c, hcarm, -, hparent⟩ := hleads
  have hp : p ∈ w.armRoots := by simp [hroots]
  obtain ⟨hpmem, -⟩ := hw.armRoots_mem hp
  obtain ⟨hcmem, hcspace⟩ := hw.passed_mem (mem_passed.mpr ⟨g, hg, hcarm⟩)
  have hnames : w.nodes.Names c.id p.id := (names_iff hcmem).mpr ⟨id_mem_keys hpmem, hparent⟩
  rw [armRoots_eq] at hroots hg
  have hpre : ∀ r ∈ w.queue, r ∈ pre := by
    rcases List.append_eq_append_iff.mp hroots with ⟨mid, rfl, -⟩ | ⟨mid, hqueue, hmid⟩
    · exact fun r hr => List.mem_append_left _ hr
    · cases mid with
      | nil => simp [hqueue]
      | cons first mid =>
        obtain ⟨rfl, -⟩ := List.cons.inj hmid
        exact absurd hnames (hw.on_top p (by simp [hqueue]) c.id hcspace)
  rcases List.mem_append.mp hg with hqueued | hmet
  · exact hpre g hqueued
  · have hgfork := (mem_met.mp (mem_select.mp hmet).2).1
    have hgmem := (mem_select.mp hmet).1
    have hgc : w.nodes.Descends g.id c.id :=
      descends_of_continues ((mem_armOf hw.acyclic hgmem (hw.forks_mem _ hgfork)).mp hcarm)
    have hpfork := hw.fork_of_named hp hcspace hnames
    have hid := hflat g.id hgfork p.id hpfork (hgc.trans (.of_names hnames))
    exact absurd (hid ▸ hgc) (hw.acyclic.not_descends hnames)

end Walk

end MigrationHistory

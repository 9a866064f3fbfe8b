import MigrationHistory.Proofs.RangeExtent

/-!
# What a walk repeats

A walk has no memory of the revisions that it passed: it keeps apart the arms of different roots
and the parts of different parents only because nothing else leads into them. A root that is
queued twice has its arm walked twice, and so has the part of a parent that is named twice on an
arm. Main statement: as long as nothing is named below a skipped revision, these are the only
repetitions in what a proper walk lists.
-/
namespace MigrationHistory

section Lists

variable {α β : Type} {xs : List α} {f g : α → List β}

theorem distinct_eq_self_iff [DecidableEq α] : distinct xs = xs ↔ xs.Nodup := by
  constructor
  · exact fun heq => heq ▸ nodup_distinct xs
  · intro hnodup
    induction xs with
    | nil => rfl
    | cons x xs ih =>
      obtain ⟨hx, hxs⟩ := List.nodup_cons.mp hnodup
      rw [distinct_cons, ih hxs, List.filter_eq_self.mpr]
      intro y hy
      exact decide_eq_true fun heq => hx (heq ▸ hy)

/-- Where keys tell the elements apart, keeping one of each key is keeping each once. -/
theorem distinctOn_eq_distinct [DecidableEq α] [DecidableEq β] {key : α → β}
    (hkey : ∀ x ∈ xs, ∀ y ∈ xs, key x = key y → x = y) : distinctOn key xs = distinct xs := by
  induction xs with
  | nil => rfl
  | cons x xs ih =>
    have hrest := ih fun y hy z hz => hkey y (List.mem_cons_of_mem _ hy) z (List.mem_cons_of_mem _ hz)
    rw [distinctOn, distinct_cons, hrest]
    congr 1
    apply List.filter_congr
    intro y hy
    have hy' := List.mem_cons_of_mem x (mem_distinct.mp hy)
    exact decide_eq_decide.mpr
      (not_congr ⟨hkey y hy' x List.mem_cons_self, congrArg key⟩)

/-- What one element contributes counts once, however often the element comes. -/
theorem distinct_flatMap_distinct [DecidableEq α] [DecidableEq β] (f : α → List β) (xs : List α) :
    distinct ((distinct xs).flatMap f) = distinct (xs.flatMap f) := by
  induction xs with
  | nil => rfl
  | cons x xs ih =>
    -- leaving `x` out of the list leaves nothing out but what `x` contributes
    have hdrop : (((distinct xs).filter (· ≠ x)).flatMap f).filter (· ∉ f x) =
        ((distinct xs).flatMap f).filter (· ∉ f x) := by
      generalize distinct xs = ys
      induction ys with
      | nil => rfl
      | cons y ys ihys =>
        by_cases hy : y = x
        · subst hy
          have hnone : (f y).filter (· ∉ f y) = [] := List.filter_eq_nil_iff.mpr (by simp)
          rw [List.filter_cons_of_neg (by simp), ihys, List.flatMap_cons, List.filter_append, hnone,
            List.nil_append]
        · rw [List.filter_cons_of_pos (by simpa using hy), List.flatMap_cons, List.flatMap_cons,
            List.filter_append, List.filter_append, ihys]
    rw [distinct_cons, List.flatMap_cons, List.flatMap_cons, distinct_append, distinct_append,
      ← distinct_filter, hdrop, distinct_filter, ih]

/-- Contributions that come to the same set in the same order count the same. -/
theorem distinct_flatMap_congr [DecidableEq β] (hsame : ∀ x ∈ xs, distinct (f x) = distinct (g x)) :
    distinct (xs.flatMap f) = distinct (xs.flatMap g) := by
  induction xs with
  | nil => rfl
  | cons x xs ih =>
    have hmem : ∀ y, y ∈ f x ↔ y ∈ g x := by
      intro y
      rw [← mem_distinct, hsame x List.mem_cons_self, mem_distinct]
    rw [List.flatMap_cons, List.flatMap_cons, distinct_append, distinct_append,
      hsame x List.mem_cons_self, ih fun y hy => hsame y (List.mem_cons_of_mem _ hy)]
    simp only [hmem]

/-- Different elements of the list contribute different things. -/
def Separates (f : α → List β) (xs : List α) : Prop :=
  ∀ x ∈ xs, ∀ y ∈ xs, x ≠ y → List.Disjoint (f x) (f y)

theorem Separates.of_subset {ys : List α} (h : Separates f xs) (hsub : ∀ y ∈ ys, y ∈ xs) :
    Separates f ys := fun x hx y hy => h x (hsub x hx) y (hsub y hy)

/-- Contributions that are separate are listed once each, and each without repeats. -/
theorem Separates.distinct_flatMap [DecidableEq α] [DecidableEq β] (hseparate : Separates f xs) :
    distinct (xs.flatMap f) = (distinct xs).flatMap fun x => distinct (f x) := by
  rw [← distinct_flatMap_distinct]
  have hnodup := nodup_distinct xs
  replace hseparate := hseparate.of_subset fun x hx => mem_distinct.mp hx
  generalize distinct xs = ys at hnodup hseparate
  induction ys with
  | nil => rfl
  | cons y ys ih =>
    obtain ⟨hy, hys⟩ := List.nodup_cons.mp hnodup
    have hnew : ∀ z ∈ distinct (ys.flatMap f), z ∉ f y := by
      intro z hz hzy
      obtain ⟨x, hx, hzx⟩ := List.mem_flatMap.mp (mem_distinct.mp hz)
      exact hseparate y List.mem_cons_self x (List.mem_cons_of_mem _ hx) (fun heq => hy (heq ▸ hx))
        hzy hzx
    rw [List.flatMap_cons, List.flatMap_cons, distinct_append,
      List.filter_eq_self.mpr fun z hz => decide_eq_true (hnew z hz),
      ih hys (hseparate.of_subset fun x hx => List.mem_cons_of_mem _ hx)]

/-- Separate contributions come without repeats exactly when each does and none that is not empty
comes twice. -/
theorem Separates.nodup_flatMap_iff [DecidableEq α] (hseparate : Separates f xs) :
    (xs.flatMap f).Nodup ↔
    ∀ x ∈ xs, (f x).Nodup ∧ (f x ≠ [] → xs.count x = 1) := by
  induction xs with
  | nil => simp
  | cons x xs ih =>
    have hrest := ih (hseparate.of_subset fun y hy => List.mem_cons_of_mem _ hy)
    have happart : List.Disjoint (f x) (xs.flatMap f) ↔ (f x ≠ [] → x ∉ xs) := by
      constructor
      · intro hdisjoint hsome hx
        obtain ⟨y, hy⟩ := List.exists_mem_of_ne_nil _ hsome
        exact hdisjoint hy (List.mem_flatMap.mpr ⟨x, hx, hy⟩)
      · intro hx y hy hmem
        obtain ⟨z, hz, hyz⟩ := List.mem_flatMap.mp hmem
        by_cases hxz : x = z
        · exact hx (List.ne_nil_of_mem hy) (hxz ▸ hz)
        · exact hseparate x List.mem_cons_self z (List.mem_cons_of_mem _ hz) hxz hy hyz
    rw [List.flatMap_cons, List.nodup_append', hrest, happart, List.forall_mem_cons,
      List.count_cons_self]
    constructor
    · rintro ⟨hfirst, hothers, hnew⟩
      refine ⟨⟨hfirst, fun hsome => by rw [List.count_eq_zero.mpr (hnew hsome)]⟩, fun y hy => ?_⟩
      refine ⟨(hothers y hy).1, fun hsome => ?_⟩
      have hne : x ≠ y := fun heq => hnew (heq ▸ hsome) (heq ▸ hy)
      rw [List.count_cons_of_ne hne]
      exact (hothers y hy).2 hsome
    · rintro ⟨⟨hfirst, honce⟩, hothers⟩
      have hnew : f x ≠ [] → x ∉ xs := fun hsome => List.count_eq_zero.mp (by
        have hcount := honce hsome
        omega)
      refine ⟨hfirst, fun y hy => ⟨(hothers y hy).1, fun hsome => ?_⟩, hnew⟩
      have hne : x ≠ y := fun heq => hnew (heq ▸ hsome) (heq ▸ hy)
      rw [← List.count_cons_of_ne hne]
      exact (hothers y hy).2 hsome

end Lists

namespace Walk

open Nodes

variable {w : Walk} {r p x : Revision} {rs : List Revision}

/-- A skipped revision names nothing in the space. -/
def Floored (w : Walk) : Prop :=
  ∀ r ∈ w.nodes.elements, r.id ∈ w.skipped → ∀ p ∈ r.parents, p ∉ w.space

theorem listed_cons_of_not_skipped (hlisted : r.id ∉ w.skipped) :
    w.listed (r :: rs) = r :: w.listed rs := List.filter_cons_of_pos (by simpa using hlisted)

theorem listed_cons_of_skipped (hskipped : r.id ∈ w.skipped) :
    w.listed (r :: rs) = w.listed rs := List.filter_cons_of_neg (by simpa using hskipped)

/-- What is listed of the arm of a revision. -/
def listedArm (w : Walk) (r : Revision) : List Revision := w.listed (w.armOf r)

theorem mem_listedArm : x ∈ w.listedArm r ↔ x ∈ w.armOf r ∧ x.id ∉ w.skipped := mem_listed

theorem listed_flatMap (w : Walk) (rs : List Revision) :
    w.listed (rs.flatMap w.armOf) = rs.flatMap w.listedArm := List.filter_flatMap

theorem listedArm_eq (hacyclic : w.nodes.Acyclic) (hr : r ∈ w.nodes.elements)
    (hlisted : r.id ∉ w.skipped) :
    w.listedArm r = r :: (w.nodes.select (w.onArm r)).flatMap w.listedArm := by
  rw [listedArm, armOf_eq hacyclic hr, listed_cons_of_not_skipped hlisted, listed_flatMap]

theorem Floored.listedArm_eq_nil (hfloor : w.Floored) (hacyclic : w.nodes.Acyclic)
    (hr : r ∈ w.nodes.elements) (hskipped : r.id ∈ w.skipped) : w.listedArm r = [] := by
  have honarm : w.onArm r = [] := List.eq_nil_iff_forall_not_mem.mpr fun p hp =>
    hfloor r hr hskipped p (mem_onArm.mp hp).1 (mem_onArm.mp hp).2.1
  rw [listedArm, armOf_eq hacyclic hr, honarm, listed_cons_of_skipped hskipped]
  rfl

theorem Floored.listedArm_ne_nil_iff (hfloor : w.Floored) (hacyclic : w.nodes.Acyclic)
    (hr : r ∈ w.nodes.elements) : w.listedArm r ≠ [] ↔ r.id ∉ w.skipped := by
  constructor
  · exact mt (hfloor.listedArm_eq_nil hacyclic hr)
  · intro hlisted
    rw [listedArm_eq hacyclic hr hlisted]
    exact List.cons_ne_nil _ _

theorem Proper.separates_roots (hw : w.Proper) : Separates w.listedArm w.armRoots := by
  intro f hf g hg hne x hxf hxg
  exact hne (hw.root_unique hf hg (mem_listedArm.mp hxf).1 (mem_listedArm.mp hxg).1)

theorem Proper.separates_onArm (hw : w.Proper) (hr : r ∈ w.nodes.elements)
    (hspace : r.id ∈ w.space) : Separates w.listedArm (w.nodes.select (w.onArm r)) := by
  intro p hp q hq hne x hxp hxq
  have hstep : ∀ s ∈ w.nodes.select (w.onArm r), w.Continues r s := fun s hs =>
    ⟨⟨hr, hspace⟩, mem_select.mp hs⟩
  exact hw.siblings_disjoint (hstep p hp) (hstep q hq) hne (mem_listedArm.mp hxp).1
    (mem_listedArm.mp hxq).1

/-- The revision names none of the revisions that its arm lists on from it twice. -/
def NamesOnce (w : Walk) (r : Revision) : Prop :=
  ∀ p ∈ w.nodes.select (w.onArm r), p.id ∉ w.skipped → (w.nodes.select (w.onArm r)).count p = 1

/-- An arm lists nothing twice exactly when its revisions name once what it lists on from them. -/
theorem Proper.listedArm_nodup_iff (hw : w.Proper) (hfloor : w.Floored)
    (hr : r ∈ w.nodes.elements) (hspace : r.id ∈ w.space) :
    (w.listedArm r).Nodup ↔ ∀ c ∈ w.listedArm r, w.NamesOnce c := by
  induction hheight : w.nodes.height r.id using Nat.strong_induction_on generalizing r with
  | _ n ih =>
    by_cases hskipped : r.id ∈ w.skipped
    · simp [hfloor.listedArm_eq_nil hw.acyclic hr hskipped]
    · have hbelow : r ∉ (w.nodes.select (w.onArm r)).flatMap w.listedArm := by
        rw [← listed_flatMap, mem_listed]
        exact fun hmem => root_not_below hw.acyclic hr hspace hmem.1
      have hparts : ∀ p ∈ w.nodes.select (w.onArm r),
          ((w.listedArm p).Nodup ↔ ∀ c ∈ w.listedArm p, w.NamesOnce c) ∧
            (w.listedArm p ≠ [] ↔ p.id ∉ w.skipped) := by
        intro p hp
        obtain ⟨hmem, hlower⟩ := height_onArm hw.acyclic hr hp
        exact ⟨ih _ (hheight ▸ hlower) hmem (mem_onArm.mp (mem_select.mp hp).2).2.1 rfl,
          hfloor.listedArm_ne_nil_iff hw.acyclic hmem⟩
      rw [listedArm_eq hw.acyclic hr hskipped, List.nodup_cons,
        (hw.separates_onArm hr hspace).nodup_flatMap_iff, List.forall_mem_cons]
      constructor
      · rintro ⟨-, honce⟩
        refine ⟨fun p hp hlisted => (honce p hp).2 ((hparts p hp).2.mpr hlisted), fun c hc => ?_⟩
        obtain ⟨p, hp, hcp⟩ := List.mem_flatMap.mp hc
        exact (hparts p hp).1.mp (honce p hp).1 c hcp
      · rintro ⟨hown, hothers⟩
        refine ⟨hbelow, fun p hp => ⟨(hparts p hp).1.mpr fun c hc => ?_, fun hsome => ?_⟩⟩
        · exact hothers c (List.mem_flatMap.mpr ⟨p, hp, hc⟩)
        · exact hown p hp ((hparts p hp).2.mp hsome)

/-- A proper walk from different revisions lists nothing twice exactly when what it lists names
once what it lists on from there. -/
theorem Proper.listed_nodup_iff (hw : w.Proper) (hfloor : w.Floored) (hqueue : w.queue.Nodup) :
    (w.listed w.passed).Nodup ↔ ∀ c ∈ w.listed w.passed, w.NamesOnce c := by
  have hroots := hw.armRoots_nodup hqueue
  have harm : ∀ g ∈ w.armRoots, (w.listedArm g).Nodup ↔ ∀ c ∈ w.listedArm g, w.NamesOnce c :=
    fun g hg => hw.listedArm_nodup_iff hfloor (hw.armRoots_mem hg).1 (hw.armRoots_mem hg).2
  rw [passed, listed_flatMap, hw.separates_roots.nodup_flatMap_iff]
  constructor
  · intro honce c hc
    obtain ⟨g, hg, hcg⟩ := List.mem_flatMap.mp hc
    exact (harm g hg).mp (honce g hg).1 c hcg
  · intro hall g hg
    refine ⟨(harm g hg).mpr fun c hc => hall c (List.mem_flatMap.mpr ⟨g, hg, hc⟩), fun _ => ?_⟩
    exact List.count_eq_one_of_mem hroots hg

end Walk

namespace History

open Nodes

variable {h : History} {r : Revision} {branch text : String}

section BranchBase

theorem keepSharing_sublist {α : Type} {name : α → String} {against : List String}
    {targets kept : List α} (hok : h.keepSharing name against targets = .ok kept) :
    kept.Sublist targets := by
  induction targets generalizing kept with
  | nil =>
    cases hok
    exact .slnil
  | cons target rest ih =>
    obtain ⟨shares, -, hok⟩ := bind_eq_ok.mp hok
    obtain ⟨others, hothers, hok⟩ := bind_eq_ok.mp hok
    cases hok
    cases shares with
    | true => exact (ih hothers).cons_cons target
    | false => exact (ih hothers).cons target

/-- What is found on a branch is looked up without a separator. -/
theorem separator_not_mem_of_lookupOn (hok : h.lookupOn branch text = .ok r) :
    '@' ∉ text.toList := by
  obtain ⟨root, -, hok⟩ := bind_eq_ok.mp hok
  cases hget : h.get? text with
  | some found =>
    exact separator_not_mem_of_lookup (by rw [lookup, hget])
  | none =>
    rw [hget] at hok
    obtain ⟨candidates, hcandidates, hok⟩ := bind_eq_ok.mp hok
    obtain ⟨found, hchoose, -⟩ := bind_eq_ok.mp hok
    obtain ⟨texts, -, hkept⟩ := bind_eq_ok.mp hcandidates
    have hcandidate : found.id ∈ candidates := (choose_eq_ok hchoose).2 ▸ List.mem_singleton_self _
    have hstart := (List.mem_filter.mp ((keepSharing_sublist hkept).subset hcandidate)).2
    have hstarts : text.toList <+: found.id.text.toList := List.isPrefixOf_iff_prefix.mp hstart
    exact fun hmem => found.id.separator_not_mem (hstarts.subset hmem)

/-- After its first separator the base of a branch reads `base`, or else holds another separator. -/
theorem after_branchBase {front before after : List Char} (hbefore : '@' ∉ before)
    (hjoin : front ++ '@' :: "base".toList = before ++ '@' :: after) :
    after = "base".toList ∨ '@' ∈ after := by
  rcases List.append_eq_append_iff.mp hjoin with ⟨mid, rfl, hmid⟩ | ⟨mid, rfl, hmid⟩
  · cases mid with
    | nil => exact .inl (List.cons.inj hmid).2.symm
    | cons c mid =>
      obtain ⟨rfl, -⟩ := List.cons.inj hmid
      exact absurd (by simp) hbefore
  · cases mid with
    | nil => exact .inl (List.cons.inj hmid).2
    | cons c mid =>
      obtain ⟨-, rfl⟩ := List.cons.inj hmid
      exact .inr (by simp)

/-- A lower bound that is the base of a branch requests no revision. -/
theorem requested_eq_nil_of_branchBase {lower : Selector} {requested : List Revision}
    (hbase : lower.branchBase? = some text) (hok : h.revisions lower = .ok requested) :
    requested = [] := by
  match lower, hbase with
  | .one text, hbase =>
    have hsuffix : "@base".toList <:+ text.toList := by
      rw [← List.isSuffixOf_iff_suffix]
      by_contra hnot
      rw [Selector.branchBase?, Text.endsWith, if_neg hnot] at hbase
      cases hbase
    obtain ⟨front, hfront⟩ := hsuffix
    rw [revisions_one, termRevisions, Term.ofText] at hok
    cases hcut : Text.cutFirst? '@' text.toList with
    | none => exact absurd (by simp [← hfront]) (Text.cutFirst?_eq_none_iff.mp hcut)
    | some parts =>
      obtain ⟨before, after⟩ := parts
      obtain ⟨hjoin, hbefore⟩ := Text.cutFirst?_eq_some hcut
      rw [hcut] at hok
      rcases after_branchBase hbefore (hfront.trans hjoin) with rfl | hseparator
      · exact (Except.ok.inj hok).symm
      · -- what holds a separator is looked up as it stands, and not found
        have hword : String.ofList after ∉ reservedWords := by
          intro hmem
          simp only [reservedWords, List.mem_cons, List.not_mem_nil, or_false] at hmem
          rcases hmem with heq | heq | heq <;>
            simp [← String.toList_inj] at heq <;> simp [heq] at hseparator
        have hempty : String.ofList after ≠ "" := by
          intro heq
          simp [← String.toList_inj] at heq
          simp [heq] at hseparator
        simp only [target_ofText hempty hword] at hok
        obtain ⟨texts, htexts, hok⟩ := bind_eq_ok.mp hok
        cases htexts
        rw [mapM_singleton, map_eq_ok] at hok
        obtain ⟨found, hfound, -⟩ := hok
        exact absurd (by simpa using hseparator) (separator_not_mem_of_lookupOn hfound)

end BranchBase

section Floor

variable {uppers lowers requested : List Revision}

/-- What stands at a lower bound names nothing that lies between bounds that are kept apart. -/
theorem not_mem_space_of_named (hlinked : h.nodes.Linked) (hacyclic : h.nodes.Acyclic)
    (huppers : ∀ r ∈ uppers, r ∈ h.nodes.elements) (hlowers : ∀ r ∈ lowers, r ∈ h.nodes.elements)
    (hapart : h.separate .descendants lowers = .ok ()) (hr : r ∈ lowers) {p : RevisionId}
    (hp : p ∈ r.parents) : p ∉ h.space uppers lowers := by
  intro hspace
  obtain ⟨⟨u, hu, hbelow⟩, l, hl, hdescends⟩ := (mem_space hlinked huppers hlowers).mp hspace
  obtain ⟨bottom, hbottom, rfl⟩ := List.mem_map.mp hl
  have hkey := hbelow.mem_right (id_mem_keys (huppers u hu))
  have hnames := (names_iff (hlowers r hr)).mpr ⟨hkey, hp⟩
  have hreach : h.nodes.Descends r.id bottom.id := (Descends.of_names hnames).trans hdescends
  have hne : r.id ≠ bottom.id := fun heq => hacyclic.not_descends hnames (heq ▸ hdescends)
  exact separate_eq_ok_iff.mp hapart bottom hbottom r hr hne
    ((hlinked.mem_descendants (hlowers bottom hbottom)).mpr hreach)

/-- An exclusive range requests what its lower boundary holds. -/
theorem requested_mem_boundary {options : RangeOptions} {lower : Selector}
    {boundary : List Revision} (hrequested : h.revisions lower = .ok requested)
    (hboundary : h.lowerBoundary options lower uppers requested = .ok boundary) (hr : r ∈ requested) :
    r ∈ boundary := by
  unfold lowerBoundary at hboundary
  split at hboundary
  · rename_i text hbase
    rw [requested_eq_nil_of_branchBase hbase hrequested] at hr
    cases hr
  · split at hboundary
    · rename_i hnone
      rw [List.isEmpty_iff.mp hnone] at hr
      cases hr
    · split at hboundary
      · cases hboundary
        exact List.mem_append_right _ hr
      · cases hboundary
        exact hr

/-- On linked tables without cycles a range with absolute bounds is floored: what it passes
through at its lower end leads to nothing else. -/
theorem absoluteWalk_floored (hlinked : h.nodes.Linked) (hacyclic : h.nodes.Acyclic)
    {upper lower : Selector} {options : RangeOptions} {w : Walk}
    (hok : h.absoluteWalk upper lower options = .ok w) : w.Floored := by
  obtain ⟨requested, uppers, boundary, hlower, hupper, -, hboundary, hbelow, -, rfl⟩ :=
    absoluteWalk_eq_ok_iff.mp hok
  have hmem : ∀ r ∈ distinctOn Revision.id boundary, r ∈ h.nodes.elements := fun r hr =>
    lowerBoundary_mem (revisions_mem hlower) hboundary r (mem_of_mem_distinctOn hr)
  intro r hr hskipped p hp
  have hrequested : r.id ∈ requested.map Revision.id := by
    by_contra hnot
    exact mem_skipped.mpr (.inr hnot) hskipped
  obtain ⟨s, hs, hid⟩ := List.mem_map.mp hrequested
  have hkept : r.id ∈ (distinctOn Revision.id boundary).map Revision.id := by
    rw [mem_map_distinctOn, ← hid]
    exact List.mem_map_of_mem (requested_mem_boundary hlower hboundary hs)
  obtain ⟨bottom, hbottom, hsame⟩ := List.mem_map.mp hkept
  obtain rfl := h.nodes.eq_of_key_eq (hmem bottom hbottom) hr hsame
  exact not_mem_space_of_named hlinked hacyclic (revisions_mem hupper) hmem hbelow hbottom hp

end Floor

end History

end MigrationHistory

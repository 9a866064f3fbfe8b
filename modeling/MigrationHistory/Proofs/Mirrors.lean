import MigrationHistory.Proofs.ArmByArm
import MigrationHistory.Proofs.ImplicitBase
import MigrationHistory.Proofs.Thinning

/-!
# What a request sees of a history

A request reads the ids, the indexes and who is reached from whom. It does not see how often a
revision names a parent, nor which labels are propagated: two histories that differ in no more
than that resolve every request to the same ids, or refuse it alike. Main statement: a range with
absolute bounds succeeds on both or on neither, and then goes through the same space with the same
forks, from the same revisions on.
-/
namespace MigrationHistory

section Results

variable {α β γ κ : Type} {key : α → κ}

theorem exists_ok_of_map_eq {x y : Except Error α} (hsame : y.map key = x.map key) {a : α}
    (hok : x = .ok a) : ∃ b, y = .ok b ∧ key b = key a :=
  map_eq_ok.mp (hsame.trans (congrArg (Except.map key) hok))

/-- What is found under one key is found by both or by neither. -/
theorem found_or_absent {x y : Option α} (hsame : y.map key = x.map key) :
    (x = none ∧ y = none) ∨ ∃ a b, x = some a ∧ y = some b ∧ key b = key a := by
  cases x with
  | none => exact .inl ⟨rfl, Option.map_eq_none_iff.mp hsame⟩
  | some a =>
    obtain ⟨b, rfl, hkey⟩ := Option.map_eq_some_iff.mp hsame
    exact .inr ⟨a, b, rfl, rfl, hkey⟩

/-- A step that sees no more than the keys comes to the same after results with the same keys. -/
theorem bind_congr_keys {x y : Except Error α} (hsame : y.map key = x.map key)
    {f g : α → Except Error β} (hnext : ∀ a b, x = .ok a → y = .ok b → key b = key a → g b = f a) :
    y >>= g = x >>= f := by
  cases x with
  | error e =>
    cases y with
    | error e' =>
      rw [Except.error.inj hsame]
      rfl
    | ok b => cases hsame
  | ok a =>
    obtain ⟨b, rfl, hkey⟩ := exists_ok_of_map_eq hsame rfl
    exact hnext a b rfl rfl hkey

theorem map_bind_eq (x : Except Error α) (f : α → Except Error β) (shape : β → γ) :
    (x >>= f).map shape = x >>= fun a => (f a).map shape := by
  cases x <;> rfl

theorem mapM_congr_keys {f g : γ → Except Error α} {xs : List γ}
    (hsame : ∀ x ∈ xs, (g x).map key = (f x).map key) :
    (xs.mapM g).map (List.map key) = (xs.mapM f).map (List.map key) := by
  induction xs with
  | nil => rfl
  | cons x xs ih =>
    rw [List.mapM_cons, List.mapM_cons, map_bind_eq, map_bind_eq]
    refine bind_congr_keys (hsame x List.mem_cons_self) fun a b _ _ hkey => ?_
    rw [map_bind_eq, map_bind_eq]
    refine bind_congr_keys (ih fun z hz => hsame z (List.mem_cons_of_mem _ hz)) ?_
    intro as bs _ _ hkeys
    exact congrArg Except.ok (congrArg₂ List.cons hkey hkeys)

end Results

namespace History

open Nodes

/-- The two histories show a request the same. -/
structure Mirrors (h other : History) : Prop where
  keys : other.nodes.keys = h.nodes.keys
  edges : ∀ d, other.nodes.Edge d = h.nodes.Edge d
  linked : h.nodes.Linked
  other_linked : other.nodes.Linked
  labels : other.labels = h.labels
  heads : other.heads = h.heads
  bases : other.bases = h.bases
  config : other.config = h.config

namespace Mirrors

variable {h other : History} {text branch : String} {r s : Revision}

theorem symm (hm : h.Mirrors other) : other.Mirrors h where
  keys := hm.keys.symm
  edges := fun d => (hm.edges d).symm
  linked := hm.other_linked
  other_linked := hm.linked
  labels := hm.labels.symm
  heads := hm.heads.symm
  bases := hm.bases.symm
  config := hm.config.symm

section Lookups

theorem node?_ids (hm : h.Mirrors other) (text : String) :
    (other.node? text).map Revision.id = (h.node? text).map Revision.id := by
  have hkeys : ∀ nodes : Nodes, (nodes.named? text).map Revision.id =
      nodes.keys.find? fun id => id.text = text := by
    intro nodes
    rw [Table.keys, List.find?_map]
    rfl
  rw [node?, node?, hkeys, hkeys, hm.keys]

theorem find?_ids (hm : h.Mirrors other) (id : RevisionId) :
    (other.nodes.find? id).map Revision.id = (h.nodes.find? id).map Revision.id := by
  have hkeys : ∀ nodes : Nodes, (nodes.find? id).map Revision.id =
      nodes.keys.find? fun key => key = id := by
    intro nodes
    rw [Table.keys, List.find?_map]
    rfl
  rw [hkeys, hkeys, hm.keys]

theorem get?_ids (hm : h.Mirrors other) (text : String) :
    (other.get? text).map Revision.id = (h.get? text).map Revision.id := by
  have hlabel : other.labelTarget? text = h.labelTarget? text := by
    rw [labelTarget?, hm.labels, labelTarget?]
  unfold get?
  rcases found_or_absent (hm.node?_ids text) with ⟨hnode, hnode'⟩ | ⟨r, s, hnode, hnode', hid⟩
  · rw [hnode, hnode', hlabel]
    cases h.labelTarget? text with
    | none => rfl
    | some owner => exact hm.find?_ids owner
  · rw [hnode, hnode']
    exact congrArg some hid

theorem choose_ids (hm : h.Mirrors other) (candidates : List RevisionId) :
    (other.choose text candidates).map Revision.id =
      (h.choose text candidates).map Revision.id := by
  match candidates with
  | [] => rfl
  | [only] =>
    rcases found_or_absent (hm.find?_ids only) with ⟨hfind, hfind'⟩ | ⟨r, s, hfind, hfind', hid⟩
    · simp only [choose, hfind, hfind']
    · simp only [choose, hfind, hfind']
      exact congrArg Except.ok hid
  | _ :: _ :: _ =>
    simp only [choose, hm.config]

theorem idsStarting_eq (hm : h.Mirrors other) : other.idsStarting = h.idsStarting := by
  funext text
  rw [idsStarting, hm.keys, idsStarting]

theorem lookup_ids (hm : h.Mirrors other) (text : String) :
    (other.lookup text).map Revision.id = (h.lookup text).map Revision.id := by
  unfold lookup
  rcases found_or_absent (hm.get?_ids text) with ⟨hget, hget'⟩ | ⟨r, s, hget, hget', hid⟩
  · rw [hget, hget', hm.idsStarting_eq]
    exact hm.choose_ids _
  · rw [hget, hget']
    exact congrArg Except.ok hid

theorem descends (hm : h.Mirrors other) : other.nodes.Descends = h.nodes.Descends :=
  congrArg Relation.ReflTransGen (hm.edges .ancestors)

theorem mem_lineage_iff (hm : h.Mirrors other) (hr : r ∈ h.nodes.elements)
    (hs : s ∈ other.nodes.elements) (hid : s.id = r.id) (id : RevisionId) :
    id ∈ other.lineage s ↔ id ∈ h.lineage r := by
  rw [mem_lineage hm.linked hr, mem_lineage hm.other_linked hs, Comparable, Comparable, hm.descends,
    hid]

end Lookups

section Filters

theorem sharesLineage_eq (hm : h.Mirrors other) : other.sharesLineage = h.sharesLineage := by
  funext against text
  unfold sharesLineage
  split
  · rfl
  · refine bind_congr_keys (hm.lookup_ids text) fun target target' htarget htarget' hid => ?_
    refine bind_congr_keys (mapM_congr_keys fun t _ => hm.lookup_ids t) ?_
    intro others others' _ _ hids
    have hlineage := hm.mem_lineage_iff (lookup_mem htarget) (lookup_mem htarget') hid
    have hany : ∀ rs : List Revision, (rs.any fun x => x.id ∈ h.lineage target) =
        (rs.map Revision.id).any fun id => id ∈ h.lineage target := by
      intro rs
      rw [List.any_map]
      rfl
    simp only [hlineage, hany, hids]

theorem keepSharing_eq (hm : h.Mirrors other) {α : Type} (name : α → String)
    (against : List String) (targets : List α) :
    other.keepSharing name against targets = h.keepSharing name against targets := by
  induction targets with
  | nil => rfl
  | cons target rest ih => rw [keepSharing, keepSharing, hm.sharesLineage_eq, ih]

theorem unqualifiedTexts_eq (hm : h.Mirrors other) : other.unqualifiedTexts = h.unqualifiedTexts := by
  funext target
  cases target <;> simp only [unqualifiedTexts, hm.heads]

theorem onBranch_eq (hm : h.Mirrors other) {α : Type} (name : α → String) (branch : String)
    (targets : List α) : other.onBranch name branch targets = h.onBranch name branch targets := by
  unfold onBranch
  simp only [hm.unqualifiedTexts_eq, hm.keepSharing_eq]

theorem termTexts_eq (hm : h.Mirrors other) : other.termTexts = h.termTexts := by
  funext term
  unfold termTexts
  simp only [hm.unqualifiedTexts_eq, hm.onBranch_eq, hm.heads]

theorem filterLineage_eq (hm : h.Mirrors other) {α : Type} (name : α → String)
    (targets : List α) (against : String) :
    other.filterLineage name targets against = h.filterLineage name targets against := by
  unfold filterLineage
  simp only [hm.termTexts_eq, hm.keepSharing_eq]

end Filters

section Requests

theorem branchRevision_ids (hm : h.Mirrors other) (branch : String) :
    (other.branchRevision branch).map Revision.id = (h.branchRevision branch).map Revision.id := by
  have hlookup := hm.lookup_ids branch
  unfold branchRevision
  cases hfound : h.lookup branch with
  | ok found =>
    obtain ⟨found', hfound', hid⟩ := exists_ok_of_map_eq hlookup hfound
    rw [hfound']
    exact congrArg Except.ok hid
  | error e =>
    cases hfound' : other.lookup branch with
    | ok found' =>
      rw [hfound, hfound'] at hlookup
      cases hlookup
    | error e' => rfl

/-- The revision that a text names among those on a branch, before it is tested itself. -/
def foundOn (h : History) (branch text : String) : Except Error Revision :=
  match h.get? text with
  | some r => .ok r
  | none => do
    let candidates ← h.onBranch RevisionId.text branch (h.idsStarting text)
    h.choose text candidates

theorem lookupOn_eq (h : History) (branch text : String) : h.lookupOn branch text =
    h.branchRevision branch >>= fun root => foundOn h branch text >>= fun found =>
      if root.id ∈ h.lineage found then .ok found
      else .error (.notMemberOfBranch found.id.text branch) := by
  unfold lookupOn foundOn
  cases h.get? text with
  | some found => rfl
  | none => simp only [bind_assoc]

theorem foundOn_mem (hok : foundOn h branch text = .ok r) : r ∈ h.nodes.elements := by
  unfold foundOn at hok
  split at hok
  · rename_i found hget
    cases hok
    exact get?_mem hget
  · obtain ⟨candidates, -, hchoose⟩ := bind_eq_ok.mp hok
    exact (choose_eq_ok hchoose).1

theorem foundOn_ids (hm : h.Mirrors other) (branch text : String) :
    (foundOn other branch text).map Revision.id = (foundOn h branch text).map Revision.id := by
  unfold foundOn
  rcases found_or_absent (hm.get?_ids text) with ⟨hget, hget'⟩ | ⟨r, s, hget, hget', hid⟩
  · rw [hget, hget']
    simp only [hm.idsStarting_eq, hm.onBranch_eq, map_bind_eq, hm.choose_ids]
  · rw [hget, hget']
    exact congrArg Except.ok hid

theorem lookupOn_ids (hm : h.Mirrors other) (branch text : String) :
    (other.lookupOn branch text).map Revision.id = (h.lookupOn branch text).map Revision.id := by
  rw [lookupOn_eq, lookupOn_eq, map_bind_eq, map_bind_eq]
  refine bind_congr_keys (hm.branchRevision_ids branch) fun root root' _ _ hroot => ?_
  rw [map_bind_eq, map_bind_eq]
  refine bind_congr_keys (hm.foundOn_ids branch text) fun found found' hfound hfound' hid => ?_
  have hlineage := hm.mem_lineage_iff (foundOn_mem hfound) (foundOn_mem hfound') hid root.id
  rw [hroot]
  by_cases hshares : root.id ∈ h.lineage found
  · rw [if_pos hshares, if_pos (hlineage.mpr hshares)]
    exact congrArg Except.ok hid
  · rw [if_neg hshares, if_neg fun hmem => hshares (hlineage.mp hmem), hid]

theorem lookupWith_ids (hm : h.Mirrors other) (branch : Option String) (text : String) :
    (other.lookupWith branch text).map Revision.id =
      (h.lookupWith branch text).map Revision.id := by
  cases branch with
  | none => exact hm.lookup_ids text
  | some branch => exact hm.lookupOn_ids branch text

theorem termRevisions_ids (hm : h.Mirrors other) (text : String) :
    (other.termRevisions text).map (List.map Revision.id) =
      (h.termRevisions text).map (List.map Revision.id) := by
  unfold termRevisions
  simp only [hm.termTexts_eq, map_bind_eq,
    mapM_congr_keys fun t _ => hm.lookupWith_ids (Term.ofText text).branch t]

/-- A selector stands for revisions under the same ids. -/
theorem revisions_ids (hm : h.Mirrors other) (selector : Selector) :
    (other.revisions selector).map (List.map Revision.id) =
      (h.revisions selector).map (List.map Revision.id) := by
  unfold revisions
  rw [map_bind_eq, map_bind_eq]
  refine bind_congr_keys (mapM_congr_keys fun text _ => hm.termRevisions_ids text) ?_
  intro parts parts' _ _ hids
  have hflat : ∀ parts : List (List Revision), parts.flatten.map Revision.id =
      (parts.map (List.map Revision.id)).flatten := fun parts => List.map_flatten
  exact congrArg Except.ok ((hflat parts').trans (hids ▸ (hflat parts).symm))

end Requests

end Mirrors

section Bounds

/-- Revisions of one history and of another under the same ids. -/
structure Counterparts (h other : History) (rs ss : List Revision) : Prop where
  mem : ∀ r ∈ rs, r ∈ h.nodes.elements
  other_mem : ∀ s ∈ ss, s ∈ other.nodes.elements
  ids : ∀ id, id ∈ ss.map Revision.id ↔ id ∈ rs.map Revision.id

variable {h other : History} {rs ss uppers uppers' requested requested' : List Revision}

namespace Counterparts

theorem of_map_eq (hrs : ∀ r ∈ rs, r ∈ h.nodes.elements) (hss : ∀ s ∈ ss, s ∈ other.nodes.elements)
    (hids : ss.map Revision.id = rs.map Revision.id) : h.Counterparts other rs ss :=
  ⟨hrs, hss, fun _ => hids ▸ Iff.rfl⟩

theorem exists_iff (hc : h.Counterparts other rs ss) {P : RevisionId → Prop} :
    (∃ s ∈ ss, P s.id) ↔ ∃ r ∈ rs, P r.id := by
  have hmap : ∀ xs : List Revision, (∃ x ∈ xs, P x.id) ↔ ∃ id ∈ xs.map Revision.id, P id := by
    intro xs
    simp
  rw [hmap, hmap]
  exact exists_congr fun id => and_congr_left' (hc.ids id)

theorem eq_nil_iff (hc : h.Counterparts other rs ss) : ss = [] ↔ rs = [] := by
  rw [← List.map_eq_nil_iff (f := Revision.id), ← List.map_eq_nil_iff (l := rs) (f := Revision.id),
    List.eq_nil_iff_forall_not_mem, List.eq_nil_iff_forall_not_mem]
  exact forall_congr' fun id => not_congr (hc.ids id)

theorem append {rs' ss' : List Revision} (hc : h.Counterparts other rs ss)
    (hc' : h.Counterparts other rs' ss') : h.Counterparts other (rs ++ rs') (ss ++ ss') where
  mem := List.forall_mem_append.mpr ⟨hc.mem, hc'.mem⟩
  other_mem := List.forall_mem_append.mpr ⟨hc.other_mem, hc'.other_mem⟩
  ids := by
    intro id
    rw [List.map_append, List.map_append, List.mem_append, List.mem_append, hc.ids, hc'.ids]

theorem distinct (hc : h.Counterparts other rs ss) :
    h.Counterparts other (distinctOn Revision.id rs) (distinctOn Revision.id ss) where
  mem := fun r hr => hc.mem r (mem_of_mem_distinctOn hr)
  other_mem := fun s hs => hc.other_mem s (mem_of_mem_distinctOn hs)
  ids := fun id => by rw [mem_map_distinctOn, mem_map_distinctOn, hc.ids]

end Counterparts

namespace Mirrors

theorem revisions (hm : h.Mirrors other) {selector : Selector}
    (hok : h.revisions selector = .ok rs) :
    ∃ ss, other.revisions selector = .ok ss ∧ ss.map Revision.id = rs.map Revision.id ∧
      h.Counterparts other rs ss := by
  obtain ⟨ss, hss, hids⟩ := exists_ok_of_map_eq (hm.revisions_ids selector) hok
  exact ⟨ss, hss, hids, .of_map_eq (revisions_mem hok) (revisions_mem hss) hids⟩

theorem separate (hm : h.Mirrors other) (hc : h.Counterparts other rs ss) {d : Direction}
    (hok : h.separate d rs = .ok ()) : other.separate d ss = .ok () := by
  rw [separate_eq_ok_iff] at hok ⊢
  intro a ha b hb hne hmem
  obtain ⟨a', ha', hida⟩ := List.mem_map.mp ((hc.ids a.id).mp (List.mem_map_of_mem ha))
  obtain ⟨b', hb', hidb⟩ := List.mem_map.mp ((hc.ids b.id).mp (List.mem_map_of_mem hb))
  refine hok a' ha' b' hb' (by rwa [hida, hidb]) ?_
  rw [mem_closureIds (hc.other_mem a ha), hm.edges d] at hmem
  rwa [mem_closureIds (hc.mem a' ha'), hida, hidb]

theorem remote_iff (hm : h.Mirrors other) (huppers : h.Counterparts other uppers uppers')
    (hrequested : h.Counterparts other requested requested') {id : RevisionId} :
    other.Remote uppers' requested' id ↔ h.Remote uppers requested id := by
  unfold Remote Under Covered
  rw [hm.descends]
  exact and_congr (huppers.exists_iff (P := fun u => h.nodes.Descends u id))
    (not_congr (hrequested.exists_iff (P := fun r => h.nodes.Descends r id ∨ h.nodes.Descends id r)))

end Mirrors

/-- The roots added to a request are the remote ids that name no remote one. -/
theorem mem_map_uncoveredRoots (hlinked : h.nodes.Linked)
    (huppers : ∀ r ∈ uppers, r ∈ h.nodes.elements)
    (hrequested : ∀ r ∈ requested, r ∈ h.nodes.elements) {id : RevisionId} :
    id ∈ (h.uncoveredRoots uppers requested).map Revision.id ↔
      h.Remote uppers requested id ∧ ∀ p, h.nodes.Names id p → ¬ h.Remote uppers requested p := by
  have hkey : ∀ {id}, h.Remote uppers requested id → id ∈ h.nodes.keys := by
    rintro id ⟨⟨u, hu, hdescends⟩, -⟩
    exact hdescends.mem_right (id_mem_keys (huppers u hu))
  simp only [List.mem_map, mem_uncoveredRoots hlinked huppers hrequested]
  constructor
  · rintro ⟨x, ⟨hx, hremote, hroot⟩, rfl⟩
    exact ⟨hremote, fun p hnames => hroot p ((names_iff hx).mp hnames).2⟩
  · rintro ⟨hremote, hroot⟩
    obtain ⟨x, hx, rfl⟩ := mem_keys.mp (hkey hremote)
    refine ⟨x, ⟨hx, hremote, fun p hp hpremote => ?_⟩, rfl⟩
    exact hroot p ((names_iff hx).mpr ⟨hkey hpremote, hp⟩) hpremote

/-- Where a space branches is seen from the edges within it. -/
theorem branches_iff_edges {space : List RevisionId} (hspace : ∀ id ∈ space, id ∈ h.nodes.keys)
    {id : RevisionId} : h.Branches space id ↔
      ∃ c ∈ space, ∃ d ∈ space, c ≠ d ∧ h.nodes.Edge .descendants id c ∧
        h.nodes.Edge .descendants id d := by
  constructor
  · rintro ⟨r, hr, rfl, c, hc, d, hd, hcspace, hdspace, hne⟩
    exact ⟨c, hcspace, d, hdspace, hne, ⟨hspace c hcspace, r, hr, rfl, hc⟩,
      ⟨hspace d hdspace, r, hr, rfl, hd⟩⟩
  · rintro ⟨c, hcspace, d, hdspace, hne, ⟨-, r, hr, rfl, hc⟩, hdedge⟩
    exact ⟨r, hr, rfl, c, hc, d, ((edge_iff hr).mp hdedge).2, hcspace, hdspace, hne⟩

namespace Mirrors

theorem uncoveredRoots (hm : h.Mirrors other) (huppers : h.Counterparts other uppers uppers')
    (hrequested : h.Counterparts other requested requested') :
    h.Counterparts other (h.uncoveredRoots uppers requested)
      (other.uncoveredRoots uppers' requested') where
  mem := fun r hr => ((mem_uncoveredRoots hm.linked huppers.mem hrequested.mem).mp hr).1
  other_mem := fun s hs =>
    ((mem_uncoveredRoots hm.other_linked huppers.other_mem hrequested.other_mem).mp hs).1
  ids := by
    intro id
    rw [mem_map_uncoveredRoots hm.linked huppers.mem hrequested.mem,
      mem_map_uncoveredRoots hm.other_linked huppers.other_mem hrequested.other_mem]
    simp only [hm.remote_iff huppers hrequested, Names, hm.edges]

theorem select (hm : h.Mirrors other) (ids : List RevisionId) :
    h.Counterparts other (h.nodes.select ids) (other.nodes.select ids) := by
  refine .of_map_eq (fun r hr => (mem_select.mp hr).1) (fun s hs => (mem_select.mp hs).1) ?_
  rw [map_id_select_eq, map_id_select_eq, hm.keys]

/-- The lower boundary is found at the same ids. -/
theorem lowerBoundary (hm : h.Mirrors other) (huppers : h.Counterparts other uppers uppers')
    (hrequested : h.Counterparts other requested requested') {options : RangeOptions}
    {lower : Selector} {boundary : List Revision}
    (hok : h.lowerBoundary options lower uppers requested = .ok boundary) :
    ∃ boundary', other.lowerBoundary options lower uppers' requested' = .ok boundary' ∧
      h.Counterparts other boundary boundary' := by
  unfold History.lowerBoundary at hok ⊢
  split at hok
  · obtain ⟨kept, hkept, hok⟩ := bind_eq_ok.mp hok
    obtain ⟨boundary', hboundary, -, hc⟩ := hm.revisions hok
    refine ⟨boundary', bind_eq_ok.mpr ⟨kept, ?_, hboundary⟩, hc⟩
    rw [hm.filterLineage_eq, hm.bases, hkept]
  · have hnone : requested'.isEmpty = requested.isEmpty := by
      rw [Bool.eq_iff_iff, List.isEmpty_iff, List.isEmpty_iff, hrequested.eq_nil_iff]
    rw [hnone, hm.bases]
    by_cases hempty : requested.isEmpty
    · rw [if_pos hempty] at hok ⊢
      cases hok
      exact ⟨_, rfl, hm.select _⟩
    · rw [if_neg hempty] at hok ⊢
      by_cases himplicit : options.implicitBase
      · rw [if_pos himplicit] at hok ⊢
        cases hok
        exact ⟨_, rfl, (hm.uncoveredRoots huppers hrequested).append hrequested⟩
      · rw [if_neg himplicit] at hok ⊢
        cases hok
        exact ⟨_, rfl, hrequested⟩

theorem mem_space_iff (hm : h.Mirrors other) (huppers : h.Counterparts other uppers uppers')
    (hlowers : h.Counterparts other rs ss) {id : RevisionId} :
    id ∈ other.space uppers' ss ↔ id ∈ h.space uppers rs := by
  rw [mem_space hm.linked huppers.mem hlowers.mem,
    mem_space hm.other_linked huppers.other_mem hlowers.other_mem, Between, Between, hm.descends]
  simp only [hlowers.ids]
  exact and_congr_left fun _ => huppers.exists_iff (P := fun u => h.nodes.Descends u id)

theorem mem_forksOf_iff (hm : h.Mirrors other) {space space' : List RevisionId}
    (hspace : ∀ id ∈ space, id ∈ h.nodes.keys) (hsame : ∀ id, id ∈ space' ↔ id ∈ space)
    {id : RevisionId} : id ∈ other.forksOf space' ↔ id ∈ h.forksOf space := by
  have hspace' : ∀ id ∈ space', id ∈ other.nodes.keys := fun id hid =>
    hm.keys ▸ hspace id ((hsame id).mp hid)
  rw [mem_forksOf_iff_branches hm.linked, mem_forksOf_iff_branches hm.other_linked,
    branches_iff_edges hspace, branches_iff_edges hspace', hm.edges]
  simp only [hsame]

end Mirrors

end Bounds

section Walks

variable {h other : History} {upper lower : Selector} {options : RangeOptions} {w : Walk}

/-- The two walks go over the same ids through the same space, and start from the same ids. -/
structure Parallel (w other : Walk) : Prop where
  keys : other.nodes.keys = w.nodes.keys
  space : ∀ id, id ∈ other.space ↔ id ∈ w.space
  forks : ∀ id, id ∈ other.forks ↔ id ∈ w.forks
  skipped : other.skipped = w.skipped
  queue : other.queue.map Revision.id = w.queue.map Revision.id

/-- Where a range with absolute bounds succeeds, it succeeds on a history that shows requests the
same, with a walk alongside. -/
theorem Mirrors.absoluteWalk (hm : h.Mirrors other)
    (hok : h.absoluteWalk upper lower options = .ok w) :
    ∃ w', other.absoluteWalk upper lower options = .ok w' ∧ w.nodes = h.nodes ∧
      w'.nodes = other.nodes ∧ Parallel w w' := by
  obtain ⟨requested, uppers, boundary, hlower, hupper, hapart, hboundary, hbelow, hspace, rfl⟩ :=
    absoluteWalk_eq_ok_iff.mp hok
  obtain ⟨requested', hlower', hrequested, hcrequested⟩ := hm.revisions hlower
  obtain ⟨uppers', hupper', huppers, hcuppers⟩ := hm.revisions hupper
  obtain ⟨boundary', hboundary', hcboundary⟩ := hm.lowerBoundary hcuppers hcrequested hboundary
  have hsame : ∀ id, id ∈ other.space uppers' (distinctOn Revision.id boundary') ↔
      id ∈ h.space uppers (distinctOn Revision.id boundary) :=
    fun id => hm.mem_space_iff hcuppers hcboundary.distinct
  have hkeys : ∀ id ∈ h.space uppers (distinctOn Revision.id boundary), id ∈ h.nodes.keys :=
    fun _ hid =>
      ((mem_space hm.linked hcuppers.mem hcboundary.distinct.mem).mp hid).mem_keys hcuppers.mem
  refine ⟨other.walkBetween uppers' (distinctOn Revision.id boundary')
    (RangeOptions.skipped options requested'), ?_, rfl, rfl, ?_⟩
  · refine absoluteWalk_eq_ok_iff.mpr ⟨requested', uppers', boundary', hlower', hupper',
      hm.separate hcuppers hapart, hboundary', hm.separate hcboundary.distinct hbelow, ?_, rfl⟩
    obtain ⟨id, hid⟩ := List.exists_mem_of_ne_nil _ hspace
    exact List.ne_nil_of_mem ((hsame id).mpr hid)
  · constructor
    case keys => exact hm.keys
    case space => exact hsame
    case forks => exact fun id => hm.mem_forksOf_iff hkeys hsame
    case skipped =>
      change RangeOptions.skipped options requested' = RangeOptions.skipped options requested
      rw [RangeOptions.skipped, hrequested, RangeOptions.skipped]
    case queue =>
      have hfilter : ∀ (xs : List Revision) (space : List RevisionId),
          (xs.filter fun r => r.id ∈ space).map Revision.id =
            (xs.map Revision.id).filter (· ∈ space) := by
        intro xs space
        rw [List.filter_map]
        rfl
      simp only [walkBetween, hfilter, huppers, hsame]

theorem Mirrors.range_succeeds (hm : h.Mirrors other) (hupper : upper.offset? = none)
    (hlower : lower.offset? = none) (hok : ∃ range, h.range upper lower options = .ok range) :
    ∃ range, other.range upper lower options = .ok range := by
  rw [range_absolute hupper hlower] at hok ⊢
  obtain ⟨range, hok⟩ := hok
  obtain ⟨w, hw, -⟩ := map_eq_ok.mp hok
  obtain ⟨w', hw', -⟩ := hm.absoluteWalk hw
  exact ⟨.walk w', by rw [hw', Except.map]⟩

end Walks

end History

end MigrationHistory

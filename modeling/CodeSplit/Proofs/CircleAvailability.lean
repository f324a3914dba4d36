import CodeSplit.Proofs.GroupCircles

/-!
Availability computed circle by circle. Two tables are filled along an order of the circles that has
parents first: what each circle offers, and what is available to its groups. Whichever way the
circles are listed, and whichever such order is taken, every group gets what is offered to its
circle, so that the result is always the same.
-/
namespace CodeSplit.GroupGraph

open Relation (ReflTransGen TransGen)

variable {g : GroupGraph} {circles : List (List AssetKey)} {c d : Nat} {a b n x : AssetKey}

/-- The group is in the circle that stands at a place. -/
def InCircle (circles : List (List AssetKey)) (c : Nat) (n : AssetKey) : Prop :=
  n ∈ circles[c]?.getD []

theorem inCircle_iff :
    InCircle circles c n ↔ ∃ circle, circles[c]? = some circle ∧ n ∈ circle := by
  unfold InCircle
  cases circles[c]? with
  | none => simp
  | some circle => simp

theorem lt_length_of_inCircle (inside : InCircle circles c n) : c < circles.length := by
  obtain ⟨_, isCircle, _⟩ := inCircle_iff.1 inside
  exact (List.getElem?_eq_some_iff.1 isCircle).1

theorem exists_inCircle_iff : (∃ c, InCircle circles c n) ↔ n ∈ circles.flatten := by
  simp only [inCircle_iff, List.mem_flatten]
  constructor
  · rintro ⟨c, circle, isCircle, inside⟩
    exact ⟨circle, List.mem_of_getElem? isCircle, inside⟩
  · rintro ⟨circle, listed, inside⟩
    obtain ⟨c, isCircle⟩ := List.mem_iff_getElem?.1 listed
    exact ⟨c, circle, isCircle, inside⟩

/-- A list of all circles: every group is in one of them, and with it are exactly those that lead to
it and that it leads to. -/
structure Components (g : GroupGraph) (circles : List (List AssetKey)) : Prop where
  distinct : circles.flatten.Nodup
  listed : ∀ n, n ∈ circles.flatten ↔ n ∈ g.groups
  together : ∀ circle ∈ circles, ∀ a ∈ circle, ∀ b, b ∈ circle ↔ g.SameCircle a b

namespace Components

variable (components : g.Components circles)

include components

theorem exists_inCircle (listed : n ∈ g.groups) : ∃ c, InCircle circles c n :=
  exists_inCircle_iff.2 ((components.listed n).2 listed)

theorem inCircle_iff_sameCircle (inside : InCircle circles c a) :
    InCircle circles c b ↔ g.SameCircle a b := by
  obtain ⟨circle, isCircle, member⟩ := inCircle_iff.1 inside
  rw [← components.together circle (List.mem_of_getElem? isCircle) a member b, InCircle, isCircle,
    Option.getD_some]

theorem not_inCircle_of_lt (earlier : InCircle circles c n) (less : c < d) :
    ¬InCircle circles d n := by
  intro later
  obtain ⟨first, isFirst, inFirst⟩ := inCircle_iff.1 earlier
  obtain ⟨second, isSecond, inSecond⟩ := inCircle_iff.1 later
  obtain ⟨firstBound, rfl⟩ := List.getElem?_eq_some_iff.1 isFirst
  obtain ⟨secondBound, rfl⟩ := List.getElem?_eq_some_iff.1 isSecond
  have apart := List.pairwise_iff_getElem.1 (List.nodup_flatten.1 components.distinct).2
  exact apart c d firstBound secondBound less inFirst inSecond

theorem eq_of_inCircle (first : InCircle circles c n) (second : InCircle circles d n) : c = d := by
  rcases Nat.lt_trichotomy c d with less | same | more
  · exact absurd second (components.not_inCircle_of_lt first less)
  · exact same
  · exact absurd first (components.not_inCircle_of_lt second more)

theorem findIdx?_eq (inside : InCircle circles c n) :
    circles.findIdx? (fun circle => n ∈ circle) = some c := by
  have any : (circles.findIdx? fun circle => n ∈ circle).isSome = true := by
    obtain ⟨circle, isCircle, member⟩ := inCircle_iff.1 inside
    rw [List.findIdx?_isSome, List.any_eq_true]
    exact ⟨circle, List.mem_of_getElem? isCircle, by simpa using member⟩
  obtain ⟨d, found⟩ := Option.isSome_iff_exists.1 any
  obtain ⟨bound, member, _⟩ := List.findIdx?_eq_some_iff_getElem.1 found
  have other : InCircle circles d n :=
    inCircle_iff.2 ⟨_, List.getElem?_eq_getElem bound, of_decide_eq_true member⟩
  rw [found, components.eq_of_inCircle other inside]

theorem get?_circleTable : (circleTable circles).get? n = some c ↔ InCircle circles c n := by
  have entry {e : AssetKey × Nat} :
      e ∈ circles.zipIdx.flatMap (fun e => e.1.map (·, e.2)) ↔ InCircle circles e.2 e.1 := by
    rw [inCircle_iff]
    simp only [List.mem_flatMap, List.mem_map, List.mem_zipIdx_iff_getElem?]
    constructor
    · rintro ⟨circle, isCircle, member, inside, rfl⟩
      exact ⟨circle.1, isCircle, inside⟩
    · rintro ⟨circle, isCircle, inside⟩
      exact ⟨(circle, e.2), isCircle, e.1, inside, rfl⟩
  have found := KeyMap.get?_ofList_of_keyed (fun n => circles.findIdx? (fun circle => n ∈ circle))
    (fun e listed => components.findIdx?_eq (entry.1 listed)) n
  rw [show (circleTable circles).get? n = _ from found]
  constructor
  · intro isPlace
    split at isPlace
    · rename_i listed
      obtain ⟨e, isEntry, rfl⟩ := List.mem_map.1 listed
      have inside := entry.1 isEntry
      rw [components.findIdx?_eq inside] at isPlace
      exact Option.some.inj isPlace ▸ inside
    · cases isPlace
  · intro inside
    rw [if_pos (List.mem_map.2 ⟨(n, c), entry.2 inside, rfl⟩)]
    exact components.findIdx?_eq inside

end Components

theorem Components.mem_circleEdges (components : g.Components circles)
    (wellFormed : g.WellFormed) : (c, d) ∈ g.circleEdges circles ↔
      c ≠ d ∧ ∃ a b, g.CanLoad a b ∧ InCircle circles c a ∧ InCircle circles d b := by
  unfold circleEdges
  simp only [List.mem_flatMap, List.mem_filterMap]
  constructor
  · rintro ⟨child, _, parent, loads, isEdge⟩
    obtain ⟨source, isSource, isEdge⟩ := Option.bind_eq_some_iff.1 isEdge
    obtain ⟨target, isTarget, isEdge⟩ := Option.bind_eq_some_iff.1 isEdge
    split at isEdge
    · cases isEdge
    · rename_i apart
      cases isEdge
      exact ⟨apart, parent, child, loads, components.get?_circleTable.1 isSource,
        components.get?_circleTable.1 isTarget⟩
  · rintro ⟨apart, parent, child, loads, isSource, isTarget⟩
    refine ⟨child, (wellFormed.inside loads).2, parent, loads, ?_⟩
    rw [components.get?_circleTable.2 isSource, components.get?_circleTable.2 isTarget]
    simp [apart]

/-- A circle can load another if a group in it can load one in the other. -/
theorem Components.canLoad_circleGraph (components : g.Components circles)
    (wellFormed : g.WellFormed) : (g.circleGraph circles).CanLoad c d ↔
      c ≠ d ∧ ∃ a b, g.CanLoad a b ∧ InCircle circles c a ∧ InCircle circles d b := by
  have entry : (g.circleGraph circles).parents.get? d = if d ∈ List.range circles.length then
      some (KeySet.ofList (((g.circleEdges circles).filter fun e => e.2 = d).map Prod.fst))
      else none :=
    KeyMap.get?_ofList_map _ _ d
  rw [← components.mem_circleEdges wellFormed]
  unfold CanLoad parentsOf
  rw [entry]
  constructor
  · intro member
    split at member
    · rw [Option.getD_some, KeySet.mem_ofList] at member
      obtain ⟨e, isEdge, rfl⟩ := List.mem_map.1 member
      obtain ⟨isEdge, into⟩ := List.mem_filter.1 isEdge
      exact of_decide_eq_true into ▸ isEdge
    · exact absurd member (KeySet.not_mem_empty c)
  · intro isEdge
    obtain ⟨_, _, _, _, _, isTarget⟩ := (components.mem_circleEdges wellFormed).1 isEdge
    rw [if_pos (List.mem_range.2 (lt_length_of_inCircle isTarget)), Option.getD_some,
      KeySet.mem_ofList]
    exact List.mem_map.2 ⟨(c, d), List.mem_filter.2 ⟨isEdge, by simp⟩, rfl⟩

theorem Components.wellFormed_circleGraph (components : g.Components circles)
    (wellFormed : g.WellFormed) : (g.circleGraph circles).WellFormed := by
  refine ⟨List.nodup_range, ?_⟩
  intro c d loads
  obtain ⟨_, _, _, _, isSource, isTarget⟩ := (components.canLoad_circleGraph wellFormed).1 loads
  exact ⟨List.mem_range.2 (lt_length_of_inCircle isSource),
    List.mem_range.2 (lt_length_of_inCircle isTarget)⟩

/-- A way through the circles is one through the groups in them. -/
theorem Components.leads_of_circleGraph (components : g.Components circles)
    (wellFormed : g.WellFormed) (chain : ReflTransGen (g.circleGraph circles).CanLoad c d)
    (source : InCircle circles c a) (target : InCircle circles d b) :
    ReflTransGen g.CanLoad a b := by
  induction chain generalizing b with
  | refl => exact ((components.inCircle_iff_sameCircle source).1 target).1
  | tail _ loads ih =>
    obtain ⟨_, q, m, direct, isSource, isTarget⟩ :=
      (components.canLoad_circleGraph wellFormed).1 loads
    exact ((ih isSource).tail direct).trans
      ((components.inCircle_iff_sameCircle isTarget).1 target).1

/-- Nothing leads back to a circle: the first step would stay inside it. -/
theorem Components.acyclic_circleGraph (components : g.Components circles)
    (wellFormed : g.WellFormed) (c : Nat) : ¬TransGen (g.circleGraph circles).CanLoad c c := by
  intro around
  obtain ⟨d, loads, back⟩ := TransGen.head'_iff.1 around
  obtain ⟨apart, q, m, direct, isSource, isTarget⟩ :=
    (components.canLoad_circleGraph wellFormed).1 loads
  have circle : g.SameCircle q m :=
    ⟨.single direct, components.leads_of_circleGraph wellFormed back isTarget isSource⟩
  exact apart (components.eq_of_inCircle
    ((components.inCircle_iff_sameCircle isSource).2 circle) isTarget)

/-- The circles that can load the one of a group are those of the groups that lead into it. -/
theorem Components.canLoad_iff_leadsInto (components : g.Components circles)
    (wellFormed : g.WellFormed) (member : InCircle circles c n) :
    (g.circleGraph circles).CanLoad d c ↔
      ∃ outside, g.LeadsInto outside n ∧ InCircle circles d outside := by
  rw [components.canLoad_circleGraph wellFormed]
  constructor
  · rintro ⟨apart, outside, inside, loads, isSource, isTarget⟩
    refine ⟨outside, ⟨?_, inside, ?_, loads⟩, isSource⟩
    · intro circle
      have both := (components.inCircle_iff_sameCircle isSource).2 circle
      exact apart (components.eq_of_inCircle both member)
    · exact (components.inCircle_iff_sameCircle isTarget).1 member
  · rintro ⟨outside, ⟨apart, inside, circle, loads⟩, isSource⟩
    refine ⟨?_, outside, inside, loads, isSource, ?_⟩
    · rintro rfl
      exact apart ((components.inCircle_iff_sameCircle isSource).1 member)
    · exact (components.inCircle_iff_sameCircle member).2 circle.symm

theorem Components.circleLoads_iff (components : g.Components circles)
    (member : InCircle circles c n) :
    g.CircleLoads n x ↔ ∃ m, InCircle circles c m ∧ x ∈ g.loadedBy m := by
  unfold CircleLoads
  refine exists_congr fun m => and_congr_left fun _ => ?_
  rw [components.inCircle_iff_sameCircle member]
  exact ⟨SameCircle.symm, SameCircle.symm⟩

/-! Filling the tables. -/

/-- What a circle offers. -/
def CircleTables.offeredBy (t : CircleTables) (c : Nat) : KeySet AssetKey := t.offered[c]?.getD ∅

theorem CircleTables.mem_sharedOffer {t : CircleTables} {parents : KeySet Nat} :
    x ∈ t.sharedOffer parents ↔ (∃ p, p ∈ parents) ∧ ∀ p ∈ parents, x ∈ t.offeredBy p := by
  unfold sharedOffer
  rw [KeySet.mem_intersection?_getD, ne_eq, List.map_eq_nil_iff, List.forall_mem_map]
  refine and_congr_left fun _ => ?_
  constructor
  · intro some
    exact List.exists_mem_of_ne_nil _ some
  · rintro ⟨p, member⟩
    exact List.ne_nil_of_mem (show p ∈ parents.toList from member)

/-- What is in the tables once some circles have been taken. -/
structure Filled (g : GroupGraph) (circles : List (List AssetKey)) (taken : List Nat)
    (t : CircleTables) : Prop where
  sized : t.offered.length = circles.length
  offered : ∀ c ∈ taken, ∀ x, x ∈ t.offeredBy c ↔
    x ∈ t.sharedOffer ((g.circleGraph circles).parentsOf c) ∨
      ∃ n, InCircle circles c n ∧ x ∈ g.loadedBy n
  available : ∀ c ∈ taken, ∀ n, InCircle circles c n →
    t.available.get? n = some (t.sharedOffer ((g.circleGraph circles).parentsOf c))
  entries : ∀ n, (∃ assets, t.available.get? n = some assets) → ∃ c ∈ taken, InCircle circles c n

/-- Taking a circle after those that can load it. What the earlier circles offer is not changed, so
that what is shared by the parents of each circle stays the same. -/
theorem Filled.step {taken : List Nat} {t : CircleTables} (filled : g.Filled circles taken t)
    (components : g.Components circles) (inside : c < circles.length) (new : c ∉ taken)
    (ready : ∀ p, (g.circleGraph circles).CanLoad p c → p ∈ taken)
    (closed : ∀ d ∈ taken, ∀ p, (g.circleGraph circles).CanLoad p d → p ∈ taken) :
    g.Filled circles (taken ++ [c]) (g.takeCircle circles t c) := by
  have elsewhere {d : Nat} (apart : d ≠ c) :
      (g.takeCircle circles t c).offeredBy d = t.offeredBy d := by
    unfold CircleTables.offeredBy takeCircle
    rw [List.getElem?_set_ne apart.symm]
  have shared {d : Nat} (listed : d ∈ taken ++ [c]) :
      (g.takeCircle circles t c).sharedOffer ((g.circleGraph circles).parentsOf d) =
        t.sharedOffer ((g.circleGraph circles).parentsOf d) := by
    apply KeySet.ext
    intro x
    rw [CircleTables.mem_sharedOffer, CircleTables.mem_sharedOffer]
    refine and_congr_right fun _ => forall₂_congr fun p loads => ?_
    have apart : p ≠ c := by
      rintro rfl
      rcases List.mem_append.1 listed with earlier | now
      · exact new (closed d earlier p loads)
      · exact new (ready p (List.mem_singleton.1 now ▸ loads))
    rw [elsewhere apart]
  have entry (n : AssetKey) : (g.takeCircle circles t c).available.get? n =
      if n ∈ circles[c]?.getD [] then
        some (t.sharedOffer ((g.circleGraph circles).parentsOf c))
      else t.available.get? n :=
    KeyMap.get?_foldl_insert_const _ _ t.available n
  refine ⟨?_, ?_, ?_, ?_⟩
  · exact List.length_set.trans filled.sized
  · intro d listed x
    rw [shared listed]
    by_cases now : d = c
    · subst now
      unfold CircleTables.offeredBy takeCircle
      rw [List.getElem?_set_self (filled.sized ▸ inside), Option.getD_some, KeySet.mem_foldl_union]
      rfl
    · rw [elsewhere now]
      exact filled.offered d (by simpa [now] using listed) x
  · intro d listed n member
    rw [shared listed, entry]
    by_cases now : d = c
    · subst now
      exact if_pos member
    · have other : n ∉ circles[c]?.getD [] := fun other =>
        now (components.eq_of_inCircle member other)
      rw [if_neg other]
      exact filled.available d (by simpa [now] using listed) n member
  · intro n found
    rw [entry] at found
    split at found
    · rename_i member
      exact ⟨c, by simp, member⟩
    · obtain ⟨d, listed, member⟩ := filled.entries n found
      exact ⟨d, List.mem_append_left _ listed, member⟩

section Order

variable {order : List Nat} (components : g.Components circles) (wellFormed : g.WellFormed)
  (listing : order.Perm (List.range circles.length))
  (ordered : (g.circleGraph circles).ParentsFirst order)

include components listing ordered

theorem Components.filled : g.Filled circles order (g.fillCircles circles order) := by
  have distinct : order.Nodup := listing.nodup_iff.2 List.nodup_range
  have fill (taken rest : List Nat) (split : order = taken ++ rest) (t : CircleTables)
      (filled : g.Filled circles taken t) :
      g.Filled circles order (rest.foldl (g.takeCircle circles) t) := by
    induction rest generalizing taken t with
    | nil =>
      rw [split, List.append_nil]
      exact filled
    | cons c rest ih =>
      refine ih (taken ++ [c]) (by simp [split]) _
        (filled.step components ?_ ?_ (ordered taken c rest split) ?_)
      · exact List.mem_range.1 (listing.mem_iff.1 (by simp [split]))
      · intro earlier
        rw [split] at distinct
        exact (List.nodup_append.1 distinct).2.2 c earlier c List.mem_cons_self rfl
      · intro d earlier p loads
        obtain ⟨before, after, cut⟩ := List.append_of_mem earlier
        have whole : order = before ++ d :: (after ++ c :: rest) := by simp [split, cut]
        rw [cut]
        exact List.mem_append_left _ (ordered before d _ whole p loads)
  refine fill [] order rfl _ ⟨by simp, ?_, ?_, ?_⟩
  · intro c listed
    cases listed
  · intro c listed
    cases listed
  · rintro n ⟨assets, found⟩
    cases found

/-- Exactly the groups get an availability. -/
theorem Components.get?_fillCircles (n : AssetKey) :
    (∃ assets, (g.fillCircles circles order).available.get? n = some assets) ↔ n ∈ g.groups := by
  have filled := components.filled listing ordered
  rw [← components.listed, ← exists_inCircle_iff]
  constructor
  · intro found
    obtain ⟨c, _, inside⟩ := filled.entries n found
    exact ⟨c, inside⟩
  · rintro ⟨c, inside⟩
    have taken := listing.mem_iff.2 (List.mem_range.2 (lt_length_of_inCircle inside))
    exact ⟨_, filled.available c taken n inside⟩

include wellFormed

/-- The availability of a group is what is offered to its circle. -/
theorem Components.mem_fillCircles (n x : AssetKey) :
    x ∈ (g.fillCircles circles order).available.setAt n ↔
      g.OfferedToCircle (g.fillCircles circles order).available n x := by
  have filled := components.filled listing ordered
  have groups := components.get?_fillCircles listing ordered
  have taken {c : Nat} {m : AssetKey} (inside : InCircle circles c m) : c ∈ order :=
    listing.mem_iff.2 (List.mem_range.2 (lt_length_of_inCircle inside))
  have shared {c : Nat} {m : AssetKey} (inside : InCircle circles c m) :
      (g.fillCircles circles order).available.setAt m =
        (g.fillCircles circles order).sharedOffer ((g.circleGraph circles).parentsOf c) := by
    rw [KeyMap.setAt, filled.available c (taken inside) m inside, Option.getD_some]
  by_cases listed : n ∈ g.groups
  · obtain ⟨c, inside⟩ := components.exists_inCircle listed
    have leads {p : Nat} := components.canLoad_iff_leadsInto (d := p) wellFormed inside
    have offers {p : Nat} {outside : AssetKey} (isParent : InCircle circles p outside) :
        x ∈ (g.fillCircles circles order).offeredBy p ↔
          x ∈ (g.fillCircles circles order).available.setAt outside ∨ g.CircleLoads outside x := by
      rw [filled.offered p (taken isParent), shared isParent, components.circleLoads_iff isParent]
    rw [shared inside, CircleTables.mem_sharedOffer]
    constructor
    · rintro ⟨⟨p, loads⟩, all⟩
      obtain ⟨outside, into, _⟩ := leads.1 loads
      refine ⟨⟨outside, into⟩, ?_⟩
      intro outside into
      obtain ⟨p, isParent⟩ := components.exists_inCircle (wellFormed.leadsInto_inside into)
      exact (offers isParent).1 (all p (leads.2 ⟨outside, into, isParent⟩))
    · rintro ⟨⟨outside, into⟩, all⟩
      obtain ⟨p, isParent⟩ := components.exists_inCircle (wellFormed.leadsInto_inside into)
      refine ⟨⟨p, leads.2 ⟨outside, into, isParent⟩⟩, ?_⟩
      intro p loads
      obtain ⟨outside, into, isParent⟩ := leads.1 loads
      exact (offers isParent).2 (all outside into)
  · refine iff_of_false ?_ ?_
    · intro has
      obtain ⟨assets, found, _⟩ := KeyMap.mem_setAt_iff.1 has
      exact listed ((groups n).1 ⟨assets, found⟩)
    · rintro ⟨⟨outside, _, inside, circle, loads⟩, _⟩
      exact listed (wellFormed.sameCircle_inside circle.symm (wellFormed.inside loads).2)

end Order

/-- Whichever way the circles are listed and ordered, the groups get the same availability. -/
theorem Components.fillCircles_eq (components : g.Components circles) (wellFormed : g.WellFormed)
    {others : List (List AssetKey)} (otherComponents : g.Components others)
    {order otherOrder : List Nat} (listing : order.Perm (List.range circles.length))
    (ordered : (g.circleGraph circles).ParentsFirst order)
    (otherListing : otherOrder.Perm (List.range others.length))
    (otherOrdered : (g.circleGraph others).ParentsFirst otherOrder) :
    (g.fillCircles circles order).available = (g.fillCircles others otherOrder).available := by
  apply wellFormed.eq_of_offeredToCircle
  · intro n
    rw [components.get?_fillCircles listing ordered,
      otherComponents.get?_fillCircles otherListing otherOrdered]
  · exact components.mem_fillCircles wellFormed listing ordered
  · exact otherComponents.mem_fillCircles wellFormed otherListing otherOrdered

/-! The circles that are found. -/

theorem mem_circles {circle : List AssetKey} : circle ∈ g.circles ↔ ∃ n ∈ g.groups,
    circle = g.groups.filter fun m => m ∈ g.ancestors n ∧ n ∈ g.ancestors m := by
  have precedes (a : AssetKey) {b : AssetKey} (member : b ∈ g.groups) :
      ((KeyMap.ofList (g.groups.map fun n => (n, g.ancestors n))).get? b).any
        (fun s => decide (a ∈ s)) = decide (a ∈ g.ancestors b) := by
    rw [KeyMap.get?_ofList_map g.ancestors g.groups b]
    simp [member]
  dsimp only [circles]
  rw [← KeySet.mem_def, KeySet.mem_ofList, List.mem_map]
  refine exists_congr fun n => and_congr_right fun listed => ?_
  rw [eq_comm]
  refine Eq.congr_right (List.filter_congr fun m member => ?_)
  rw [precedes m listed, precedes n member, Bool.decide_and]

theorem WellFormed.mem_circle_iff (wellFormed : g.WellFormed) :
    a ∈ g.groups.filter (fun m => m ∈ g.ancestors n ∧ n ∈ g.ancestors m) ↔
      a ∈ g.groups ∧ g.SameCircle a n := by
  rw [List.mem_filter, decide_eq_true_eq, wellFormed.mem_ancestors, wellFormed.mem_ancestors]
  rfl

theorem WellFormed.components_circles (wellFormed : g.WellFormed) : g.Components g.circles := by
  refine ⟨List.nodup_flatten.2 ⟨?_, ?_⟩, ?_, ?_⟩
  · intro circle listed
    obtain ⟨n, _, rfl⟩ := mem_circles.1 listed
    exact wellFormed.distinct.filter _
  · -- circles that share a group are made of the same groups
    refine (KeySet.nodup_toList _).pairwise_of_forall_ne ?_
    intro first isFirst second isSecond differ n inFirst inSecond
    obtain ⟨a, _, rfl⟩ := mem_circles.1 isFirst
    obtain ⟨b, _, rfl⟩ := mem_circles.1 isSecond
    have circle : g.SameCircle a b :=
      (wellFormed.mem_circle_iff.1 inFirst).2.symm.trans (wellFormed.mem_circle_iff.1 inSecond).2
    refine differ (List.filter_congr fun m _ => ?_)
    simp only [wellFormed.mem_ancestors, decide_eq_decide]
    constructor
    · intro related
      exact SameCircle.trans related circle
    · intro related
      exact SameCircle.trans related circle.symm
  · intro n
    rw [List.mem_flatten]
    constructor
    · rintro ⟨circle, listed, member⟩
      obtain ⟨a, _, rfl⟩ := mem_circles.1 listed
      exact (wellFormed.mem_circle_iff.1 member).1
    · intro listed
      exact ⟨_, mem_circles.2 ⟨n, listed, rfl⟩, wellFormed.mem_circle_iff.2 ⟨listed, .refl n⟩⟩
  · intro circle isCircle a inside b
    obtain ⟨n, _, rfl⟩ := mem_circles.1 isCircle
    obtain ⟨listed, circle⟩ := wellFormed.mem_circle_iff.1 inside
    rw [wellFormed.mem_circle_iff]
    constructor
    · rintro ⟨_, other⟩
      exact circle.trans other.symm
    · intro other
      exact ⟨wellFormed.sameCircle_inside other.symm listed, other.symm.trans circle⟩

/-- The availability by circles is computed along an order of them, which there always is. -/
theorem WellFormed.availabilityByCircles_eq (wellFormed : g.WellFormed) :
    ∃ order, order.Perm (List.range g.circles.length) ∧
      (g.circleGraph g.circles).ParentsFirst order ∧
      g.availabilityByCircles = .ok (g.fillCircles g.circles order).available := by
  have components := wellFormed.components_circles
  obtain ⟨order, found⟩ := (components.wellFormed_circleGraph wellFormed).exists_order
    (components.acyclic_circleGraph wellFormed)
  refine ⟨order, perm_of_order? found, parentsFirst_of_order? found, ?_⟩
  unfold availabilityByCircles
  rw [found]

section ByCircles

variable {available : KeyMap AssetKey (KeySet AssetKey)} (wellFormed : g.WellFormed)
  (success : g.availabilityByCircles = .ok available)

include wellFormed success

/-- All groups get an availability if it is computed by circles. -/
theorem WellFormed.get?_availabilityByCircles (n : AssetKey) :
    (∃ assets, available.get? n = some assets) ↔ n ∈ g.groups := by
  obtain ⟨order, listing, ordered, result⟩ := wellFormed.availabilityByCircles_eq
  cases success.symm.trans result
  exact wellFormed.components_circles.get?_fillCircles listing ordered n

/-- The availability of a circle is what the circles before it offer. -/
theorem WellFormed.mem_availabilityByCircles (n x : AssetKey) :
    x ∈ available.setAt n ↔ g.OfferedToCircle available n x := by
  obtain ⟨order, listing, ordered, result⟩ := wellFormed.availabilityByCircles_eq
  cases success.symm.trans result
  exact wellFormed.components_circles.mem_fillCircles wellFormed listing ordered n x

/-- Any other list of the circles, in any order that has parents first, would have done as well. -/
theorem WellFormed.available_fillCircles (components : g.Components circles) {order : List Nat}
    (listing : order.Perm (List.range circles.length))
    (ordered : (g.circleGraph circles).ParentsFirst order) :
    (g.fillCircles circles order).available = available := by
  obtain ⟨_, firstListing, firstOrdered, result⟩ := wellFormed.availabilityByCircles_eq
  cases success.symm.trans result
  exact components.fillCircles_eq wellFormed wellFormed.components_circles listing ordered
    firstListing firstOrdered

end ByCircles

/-- Availability always gives a result. -/
theorem WellFormed.exists_availability (wellFormed : g.WellFormed) :
    ∃ available, g.availability.result = .ok available := by
  unfold availability
  split
  · rename_i order found
    obtain ⟨available, along⟩ := exists_availabilityAlong (parentsFirst_of_order? found)
    exact ⟨available, Report.result_bind_eq_ok.2 ⟨available, along, rfl⟩⟩
  · obtain ⟨order, _, _, result⟩ := wellFormed.availabilityByCircles_eq
    refine ⟨(g.fillCircles g.circles order).available, Report.result_bind_eq_ok.2 ⟨(), rfl, ?_⟩⟩
    exact Report.result_bind_eq_ok.2 ⟨_, result, rfl⟩

/-- Whichever way availability is computed, a group has what is offered to its circle. -/
theorem WellFormed.mem_availability (wellFormed : g.WellFormed)
    {available : KeyMap AssetKey (KeySet AssetKey)}
    (success : g.availability.result = .ok available) (n x : AssetKey) :
    x ∈ available.setAt n ↔ g.OfferedToCircle available n x := by
  unfold availability at success
  split at success
  · rename_i order found
    obtain ⟨_, along, success⟩ := Report.result_bind_eq_ok.1 success
    cases success
    rw [offeredToCircle_iff (wellFormed.acyclic_of_order? found)]
    exact wellFormed.mem_availabilityAlong (perm_of_order? found) along n x
  · obtain ⟨_, _, success⟩ := Report.result_bind_eq_ok.1 success
    obtain ⟨_, result, success⟩ := Report.result_bind_eq_ok.1 success
    cases success
    exact wellFormed.mem_availabilityByCircles result n x

end CodeSplit.GroupGraph

import CodeSplit.Plan.RequestLimit
import CodeSplit.Proofs.Membership
import CodeSplit.Proofs.Outcomes

/-!
What limiting does one step at a time. A group can do without a live shared bundle or without a
reused root if those who take over the assets have bundles for them; a removal is one of these, it
is found exactly if there is one, and a run of the limiter is a chain of removals.
-/
namespace CodeSplit

namespace Removal

/-- The removal that comes first is one of those to choose from. -/
theorem mem_of_first? {rs : List Removal} {r : Removal} (found : first? rs = some r) :
    r ∈ rs := by
  cases rs with
  | nil => cases found
  | cons s rest =>
    have chosen (rest : List Removal) (s : Removal) :
        rest.foldl (fun first s => if s.before first then s else first) s ∈ s :: rest := by
      induction rest generalizing s with
      | nil => simp
      | cons t rest ih =>
        rw [List.foldl_cons]
        rcases List.mem_cons.1 (ih (if t.before s then t else s)) with now | later
        · rw [now]
          split
          · simp
          · simp
        · exact List.mem_cons_of_mem _ (List.mem_cons_of_mem _ later)
    cases found
    exact chosen rest s

theorem first?_eq_none_iff {rs : List Removal} : first? rs = none ↔ rs = [] := by
  cases rs with
  | nil => simp [first?]
  | cons r rest => simp [first?]

end Removal

namespace Plan

variable {p q r : Plan} {i : Index} {group : AssetKey} {removal : Removal}

/-- A live shared bundle that members of the group load, each of which has a bucket for its
assets. -/
structure CanDropShared (p : Plan) (group : AssetKey) (b : SharedBundle) : Prop where
  alive : b.alive = true
  loaded : ∃ c ∈ b.consumers, c ∈ p.members group
  taken : ∀ c ∈ b.consumers, c ∈ p.members group → p.takes c b.fileType = true

/-- A member of the group itself reuses the root. -/
def ReusedFrom (p : Plan) (group reused reuser : AssetKey) : Prop :=
  group ∈ p.groupsOf reuser ∧ p.Reuses reuser reused

/-- A root with bundles that is not inline and loads in the group only through reuse, where each
member of the group that reuses it has a bucket for every type of its assets. -/
structure CanDropReused (p : Plan) (group reused : AssetKey) : Prop where
  member : reused ∈ p.reusedMembers group
  notInline : ∃ root, p.root? reused = some root ∧ root.isInline = false
  reusedBySome : ∃ reuser, p.ReusedFrom group reused reuser
  taken : ∃ buckets, p.placements.get? reused = some buckets ∧
    ∀ reuser, p.ReusedFrom group reused reuser →
      ∀ fileType ∈ buckets.keys, p.takes reuser fileType = true

section Candidates

variable {b : SharedBundle} {place : Nat} {reused : AssetKey}

theorem canDropShared_iff :
    (b.alive && !(b.consumers.inter (p.members group)).isEmpty &&
      (b.consumers.inter (p.members group)).toList.all fun c => p.takes c b.fileType) = true ↔
      p.CanDropShared group b := by
  have some : (!(b.consumers.inter (p.members group)).isEmpty) = true ↔
      ∃ c ∈ b.consumers, c ∈ p.members group := by
    rw [Bool.not_eq_true', ← Bool.not_eq_true, KeySet.isEmpty_iff]
    simp
  have taken : ((b.consumers.inter (p.members group)).toList.all
      fun c => p.takes c b.fileType) = true ↔
      ∀ c ∈ b.consumers, c ∈ p.members group → p.takes c b.fileType = true := by
    simp only [List.all_eq_true, ← KeySet.mem_def, KeySet.mem_inter, and_imp]
  rw [Bool.and_eq_true, Bool.and_eq_true, some, taken]
  constructor
  · rintro ⟨⟨alive, loaded⟩, taken⟩
    exact ⟨alive, loaded, taken⟩
  · intro can
    exact ⟨⟨can.alive, can.loaded⟩, can.taken⟩

theorem sharedRemoval?_eq_some
    (found : p.sharedRemoval? i (p.members group) place b = .ok (some removal)) :
    p.CanDropShared group b ∧ removal.subject = .shared place ∧
      removal.consumers = b.consumers.inter (p.members group) := by
  unfold sharedRemoval? at found
  simp only [] at found
  split at found
  · rename_i can
    obtain ⟨_, _, found⟩ := bind_eq_ok_iff.1 found
    cases found
    exact ⟨canDropShared_iff.1 can, rfl, rfl⟩
  · cases found

theorem sharedRemoval?_eq_none_iff :
    p.sharedRemoval? i (p.members group) place b = .ok none ↔ ¬p.CanDropShared group b := by
  unfold sharedRemoval?
  simp only []
  rw [← canDropShared_iff]
  split
  · rename_i can
    refine iff_of_false ?_ (not_not_intro can)
    intro found
    obtain ⟨_, _, found⟩ := bind_eq_ok_iff.1 found
    cases found
  · rename_i cannot
    exact iff_of_true rfl cannot

theorem mem_reusers {reuser : AssetKey} :
    reuser ∈ KeySet.ofList ((p.reusersOf reused).filter fun r => decide (r ∈ p.ownMembers group)) ↔
      p.ReusedFrom group reused reuser := by
  rw [KeySet.mem_ofList, List.mem_filter, mem_reusersOf, decide_eq_true_eq, mem_ownMembers,
    and_comm]
  rfl

/-- The test for a reused root is the condition that the group can do without it. -/
theorem canDropReused_iff {root : Root} {buckets : Buckets}
    (member : reused ∈ p.reusedMembers group) (known : p.root? reused = some root)
    (placed : p.placements.get? reused = some buckets) :
    (!root.isInline && !(KeySet.ofList
        ((p.reusersOf reused).filter fun r => decide (r ∈ p.ownMembers group))).isEmpty &&
      (KeySet.ofList
        ((p.reusersOf reused).filter fun r => decide (r ∈ p.ownMembers group))).toList.all fun r =>
          buckets.keys.all fun fileType => p.takes r fileType) = true ↔
      p.CanDropReused group reused := by
  simp only [Bool.and_eq_true, Bool.not_eq_true', ← Bool.not_eq_true (KeySet.isEmpty _),
    KeySet.isEmpty_iff, List.all_eq_true, ← KeySet.mem_def, mem_reusers, not_forall, not_not]
  constructor
  · rintro ⟨⟨notInline, some⟩, taken⟩
    exact ⟨member, ⟨root, known, notInline⟩, some, ⟨buckets, placed, taken⟩⟩
  · intro can
    obtain ⟨other, sameRoot, notInline⟩ := can.notInline
    obtain ⟨others, samePlace, taken⟩ := can.taken
    cases known.symm.trans sameRoot
    cases placed.symm.trans samePlace
    exact ⟨⟨notInline, can.reusedBySome⟩, taken⟩

theorem reusedRemoval?_eq_some (member : reused ∈ p.reusedMembers group)
    (found : p.reusedRemoval? i (p.ownMembers group) reused = .ok (some removal)) :
    p.CanDropReused group reused ∧ removal.subject = .reused reused ∧
      ∀ reuser, reuser ∈ removal.consumers ↔ p.ReusedFrom group reused reuser := by
  unfold reusedRemoval? at found
  split at found
  · rename_i root buckets known placed
    simp only [] at found
    split at found
    · rename_i can
      obtain ⟨_, _, found⟩ := bind_eq_ok_iff.1 found
      obtain ⟨_, _, found⟩ := bind_eq_ok_iff.1 found
      cases found
      exact ⟨(canDropReused_iff member known placed).1 can, rfl, fun _ => mem_reusers⟩
    · cases found
  · cases found

theorem reusedRemoval?_eq_none_iff (member : reused ∈ p.reusedMembers group) :
    p.reusedRemoval? i (p.ownMembers group) reused = .ok none ↔ ¬p.CanDropReused group reused := by
  unfold reusedRemoval?
  split
  · rename_i root buckets known placed
    simp only []
    rw [← canDropReused_iff member known placed]
    split
    · rename_i can
      refine iff_of_false ?_ (not_not_intro can)
      intro found
      obtain ⟨_, _, found⟩ := bind_eq_ok_iff.1 found
      obtain ⟨_, _, found⟩ := bind_eq_ok_iff.1 found
      cases found
    · rename_i cannot
      exact iff_of_true rfl cannot
  · rename_i missing
    refine iff_of_true rfl ?_
    intro can
    obtain ⟨root, known, _⟩ := can.notInline
    obtain ⟨buckets, placed, _⟩ := can.taken
    exact missing root buckets known placed

end Candidates

/-- A removal that was found takes away something that the group can do without. -/
theorem nextRemoval?_eq_some (found : p.nextRemoval? i group = .ok (some removal)) :
    (∃ place b, p.sharedBundles[place]? = some b ∧ p.CanDropShared group b ∧
        removal.subject = .shared place ∧
        removal.consumers = b.consumers.inter (p.members group)) ∨
      ∃ reused, p.CanDropReused group reused ∧ removal.subject = .reused reused ∧
        ∀ reuser, reuser ∈ removal.consumers ↔ p.ReusedFrom group reused reuser := by
  obtain ⟨removals, listed, first⟩ := map_eq_ok_iff.1 found
  have chosen := Removal.mem_of_first? first
  unfold Plan.removals at listed
  obtain ⟨shared, sharedResults, listed⟩ := bind_eq_ok_iff.1 listed
  obtain ⟨reusedOnes, reusedResults, listed⟩ := bind_eq_ok_iff.1 listed
  cases listed
  simp only [List.mem_filterMap, id, exists_eq_right, List.mem_append] at chosen
  rcases chosen with chosen | chosen
  · obtain ⟨⟨b, place⟩, listed, result⟩ := exists_of_mem_result sharedResults chosen
    exact .inl ⟨place, b, List.mem_zipIdx_iff_getElem?.1 listed, sharedRemoval?_eq_some result⟩
  · obtain ⟨reused, member, result⟩ := exists_of_mem_result reusedResults chosen
    exact .inr ⟨reused, reusedRemoval?_eq_some member result⟩

/-- Nothing is found to be removed exactly if there is nothing that the group can do without. -/
theorem nextRemoval?_eq_none_iff :
    p.nextRemoval? i group = .ok none ↔
      (∀ b ∈ p.sharedBundles, ¬p.CanDropShared group b) ∧
        ∀ reused, ¬p.CanDropReused group reused := by
  constructor
  · intro found
    obtain ⟨removals, listed, first⟩ := map_eq_ok_iff.1 found
    rw [Removal.first?_eq_none_iff] at first
    subst first
    unfold Plan.removals at listed
    obtain ⟨shared, sharedResults, listed⟩ := bind_eq_ok_iff.1 listed
    obtain ⟨reusedOnes, reusedResults, listed⟩ := bind_eq_ok_iff.1 listed
    have each : ∀ x ∈ shared ++ reusedOnes, id x = none :=
      List.filterMap_eq_nil_iff.1 (Except.ok.inj listed)
    constructor
    · intro b member
      obtain ⟨place, found⟩ := List.mem_iff_getElem?.1 member
      have numbered : (b, place) ∈ p.sharedBundles.zipIdx :=
        List.mem_zipIdx_iff_getElem?.2 found
      obtain ⟨x, listed, result⟩ := exists_of_mem_mapM sharedResults numbered
      cases each x (List.mem_append_left _ listed)
      exact sharedRemoval?_eq_none_iff.1 result
    · intro reused can
      obtain ⟨x, listed, result⟩ := exists_of_mem_mapM reusedResults can.member
      cases each x (List.mem_append_right _ listed)
      exact (reusedRemoval?_eq_none_iff can.member).1 result can
  · rintro ⟨noShared, noReused⟩
    have sharedResults : (p.sharedBundles.zipIdx.mapM fun entry =>
        p.sharedRemoval? i (p.members group) entry.2 entry.1) =
          .ok (p.sharedBundles.zipIdx.map fun _ => none) := by
      apply mapM_eq_ok
      rintro ⟨b, place⟩ listed
      have member := List.mem_of_getElem? (List.mem_zipIdx_iff_getElem?.1 listed)
      exact sharedRemoval?_eq_none_iff.2 (noShared b member)
    have reusedResults : (p.reusedMembers group).toList.mapM
        (p.reusedRemoval? i (p.ownMembers group)) =
          .ok ((p.reusedMembers group).toList.map fun _ => none) := by
      apply mapM_eq_ok
      intro reused member
      exact (reusedRemoval?_eq_none_iff member).2 (noReused reused)
    refine map_eq_ok_iff.2 ⟨[], ?_, rfl⟩
    refine bind_eq_ok_iff.2 ⟨_, sharedResults, bind_eq_ok_iff.2 ⟨_, reusedResults, ?_⟩⟩
    show Except.ok _ = Except.ok []
    simp

/-- The plan after a removal. -/
def withRemoval (p : Plan) (removal : Removal) : Plan :=
  match removal.subject with
  | .shared place => p.removeShared place removal.consumers
  | .reused root => (p.removeReused root removal.consumers).withGroups

/-- Carrying out a removal looks up the id of the group and of a reused root. -/
theorem applyRemoval_eq_ok :
    (p.applyRemoval i group removal).result = .ok q ↔
      q = p.withRemoval removal ∧ (∃ id, i.idOf group = .ok id) ∧
        ∀ root, removal.subject = .reused root → ∃ id, i.idOf root = .ok id := by
  unfold applyRemoval withRemoval
  cases subject : removal.subject with
  | shared place =>
    constructor
    · intro applied
      obtain ⟨_, changed, applied⟩ := Report.result_bind_eq_ok.1 applied
      obtain ⟨id, named, applied⟩ := Report.result_bind_eq_ok.1 applied
      cases changed
      cases applied
      exact ⟨rfl, ⟨id, named⟩, fun root other => by cases other⟩
    · rintro ⟨rfl, ⟨id, named⟩, _⟩
      exact Report.result_bind_eq_ok.2 ⟨_, rfl, Report.result_bind_eq_ok.2 ⟨id, named, rfl⟩⟩
  | reused root =>
    constructor
    · intro applied
      obtain ⟨_, assigned, applied⟩ := Report.result_bind_eq_ok.1 applied
      obtain ⟨rootId, rootNamed, applied⟩ := Report.result_bind_eq_ok.1 applied
      obtain ⟨_, changed, applied⟩ := Report.result_bind_eq_ok.1 applied
      obtain ⟨id, named, applied⟩ := Report.result_bind_eq_ok.1 applied
      cases assigned
      cases changed
      cases applied
      refine ⟨rfl, ⟨id, named⟩, ?_⟩
      rintro _ ⟨⟩
      exact ⟨rootId, rootNamed⟩
    · rintro ⟨rfl, ⟨id, named⟩, rootNamed⟩
      obtain ⟨rootId, rootNamed⟩ := rootNamed root rfl
      exact Report.result_bind_eq_ok.2 ⟨_, rfl, Report.result_bind_eq_ok.2 ⟨rootId, rootNamed,
        Report.result_bind_eq_ok.2 ⟨_, rfl, Report.result_bind_eq_ok.2 ⟨id, named, rfl⟩⟩⟩⟩

/-- One removal that limiting makes for a group, with the pruning that follows it. -/
def Removes (p : Plan) (i : Index) (group : AssetKey) (q : Plan) : Prop :=
  ∃ removal next, p.nextRemoval? i group = .ok (some removal) ∧
    (p.applyRemoval i group removal).result = .ok next ∧ (next.prune i).result = .ok q

/-- The two things that a removal can do to a plan. -/
theorem Removes.cases (removes : p.Removes i group q) :
    (∃ place b, p.sharedBundles[place]? = some b ∧ p.CanDropShared group b ∧
        ((p.removeShared place (b.consumers.inter (p.members group))).prune i).result = .ok q) ∨
      ∃ reused reusers, p.CanDropReused group reused ∧
        (∀ reuser, reuser ∈ reusers ↔ p.ReusedFrom group reused reuser) ∧
        ((p.removeReused reused reusers).withGroups.prune i).result = .ok q := by
  obtain ⟨removal, next, found, applied, pruned⟩ := removes
  obtain ⟨rfl, _⟩ := applyRemoval_eq_ok.1 applied
  unfold withRemoval at pruned
  rcases nextRemoval?_eq_some found with
    ⟨place, b, listed, can, subject, consumers⟩ | ⟨reused, can, subject, consumers⟩
  · rw [subject, consumers] at pruned
    exact .inl ⟨place, b, listed, can, pruned⟩
  · rw [subject] at pruned
    exact .inr ⟨reused, removal.consumers, can, consumers, pruned⟩

/-- The second plan comes from the first by a number of removals, each for some group. -/
inductive RemovesIn (i : Index) : Nat → Plan → Plan → Prop
  | none (p : Plan) : RemovesIn i 0 p p
  | some {count : Nat} {p q r : Plan} {group : AssetKey} : p.Removes i group q →
      RemovesIn i count q r → RemovesIn i (count + 1) p r

/-- What every removal keeps, any number of them keeps. -/
theorem RemovesIn.keeps {motive : Plan → Prop} {count : Nat} (run : RemovesIn i count p q)
    (step : ∀ p group q, motive p → p.Removes i group q → motive q) (start : motive p) :
    motive q := by
  induction run with
  | none => exact start
  | some removes _ ih => exact ih (step _ _ _ start removes)

/-- The group loads no more bundles than the limit allows, or nothing is found to be removed. -/
def Limited (p : Plan) (i : Index) (limit : Nat) (group : AssetKey) : Prop :=
  p.requestCount group ≤ limit ∨ p.nextRemoval? i group = .ok none

/-- What a step of the limiter can do: end, begin anew with all groups, pass over a group that is
limited, or make a removal. -/
theorem limitFrom_succ_ok {limit : Nat} {groups pending : List AssetKey} {fuel removed : Nat}
    {changed : Bool} {out : Plan × Nat}
    (success : (limitFrom i limit groups (fuel + 1) pending changed removed p).result = .ok out) :
    (pending = [] ∧ changed = false ∧ out = (p, removed)) ∨
      (pending = [] ∧ changed = true ∧
        (limitFrom i limit groups fuel groups false removed p).result = .ok out) ∨
      (∃ group rest, pending = group :: rest ∧ p.Limited i limit group ∧
        (limitFrom i limit groups fuel rest changed removed p).result = .ok out) ∨
      ∃ group rest next, pending = group :: rest ∧ p.Removes i group next ∧
        (limitFrom i limit groups fuel (group :: rest) true (removed + 1) next).result =
          .ok out := by
  cases pending with
  | nil =>
    unfold limitFrom at success
    split at success
    · exact .inr (.inl ⟨rfl, ‹_›, success⟩)
    · rename_i unchanged
      cases success
      exact .inl ⟨rfl, by simpa using unchanged, rfl⟩
  | cons group rest =>
    unfold limitFrom at success
    split at success
    · exact .inr (.inr (.inl ⟨group, rest, rfl, .inl ‹_›, success⟩))
    · obtain ⟨next?, found, success⟩ := Report.result_bind_eq_ok.1 success
      cases next? with
      | none =>
        obtain ⟨_, _, success⟩ := Report.result_bind_eq_ok.1 success
        obtain ⟨_, _, success⟩ := Report.result_bind_eq_ok.1 success
        exact .inr (.inr (.inl ⟨group, rest, rfl, .inr found, success⟩))
      | some removal =>
        obtain ⟨next, applied, success⟩ := Report.result_bind_eq_ok.1 success
        obtain ⟨pruned, prunes, success⟩ := Report.result_bind_eq_ok.1 success
        exact .inr (.inr (.inr
          ⟨group, rest, pruned, rfl, ⟨removal, next, found, applied, prunes⟩, success⟩))

/-- A run of the limiter goes from removal to removal. -/
theorem removesIn_of_limitFrom {limit : Nat} {groups pending : List AssetKey} {changed : Bool}
    {fuel removed total : Nat}
    (success : (limitFrom i limit groups fuel pending changed removed p).result = .ok (q, total)) :
    ∃ count, total = removed + count ∧ RemovesIn i count p q := by
  induction fuel generalizing pending changed removed p with
  | zero => cases success
  | succ fuel ih =>
    rcases limitFrom_succ_ok success with ⟨_, _, same⟩ | ⟨_, _, rest⟩ | ⟨_, _, _, _, rest⟩ |
      ⟨group, _, next, _, removes, rest⟩
    · cases same
      exact ⟨0, rfl, .none _⟩
    · exact ih rest
    · exact ih rest
    · obtain ⟨count, counted, run⟩ := ih rest
      exact ⟨count + 1, by omega, .some removes run⟩

theorem removesIn_of_limitRequests {config : Config}
    (success : (p.limitRequests i config).result = .ok q) : ∃ count, RemovesIn i count p q := by
  unfold limitRequests at success
  split at success
  · cases success
    exact ⟨0, .none p⟩
  · obtain ⟨⟨limited, removed⟩, run, success⟩ := Report.result_bind_eq_ok.1 success
    cases success
    obtain ⟨count, _, run⟩ := removesIn_of_limitFrom run
    exact ⟨count, run⟩

end Plan

end CodeSplit

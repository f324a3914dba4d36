import CodeSplit.Proofs.PathComponents

/-!
The location of a path taken from a root. Reading the joined path from its end, each `..` removes
the nearest name before it and those that find none are dropped at the root directory. Resolving
arrives there by a stack of components instead, onto which those of the root are put as they are: a
`..` of the root stays, and it can be taken for a name.
-/
namespace CodeSplit.Path

open Component (IsSegment)

variable {root p : Path} {cs : List Component}

/-- The names that are left of components, the last first, where `pending` names are still to be
removed by what comes after. -/
def standing : (pending : Nat) → List Component → List String
  | _, [] => []
  | pending, .parent :: before => standing (pending + 1) before
  | 0, .normal name :: before => name :: standing 0 before
  | pending + 1, .normal _ :: before => standing pending before
  | pending, .root :: before => standing pending before
  | pending, .current :: before => standing pending before

/-- The number of `..` that find no name to remove. -/
def unmet : (pending : Nat) → List Component → Nat
  | pending, [] => pending
  | pending, .parent :: before => unmet (pending + 1) before
  | pending, .normal _ :: before => unmet (pending - 1) before
  | pending, .root :: before => unmet pending before
  | pending, .current :: before => unmet pending before

/-- The names on the way from the root directory to where a path leads. -/
def location (p : Path) : List String := (standing 0 p.components.reverse).reverse

/-- How many directories a path goes up before it goes down. -/
def climbs (p : Path) : Nat := unmet 0 p.components.reverse

theorem standing_eq_drop (pending : Nat) (cs : List Component) :
    standing pending cs = (standing 0 cs).drop pending := by
  induction cs generalizing pending with
  | nil => simp [standing]
  | cons c cs ih =>
    cases c with
    | root => exact ih pending
    | current => exact ih pending
    | parent => rw [standing, standing, ih (pending + 1), ih (0 + 1), List.drop_drop, Nat.zero_add,
        Nat.add_comm]
    | normal name =>
      cases pending with
      | zero => rfl
      | succ pending => exact ih pending

theorem standing_parent (cs : List Component) :
    standing 0 (.parent :: cs) = (standing 0 cs).tail := by
  rw [standing, standing_eq_drop (0 + 1), Nat.zero_add, List.drop_one]

theorem unmet_eq_add (pending : Nat) (cs : List Component) :
    unmet pending cs = unmet 0 cs + (pending - (standing 0 cs).length) := by
  induction cs generalizing pending with
  | nil => simp [unmet, standing]
  | cons c cs ih =>
    cases c with
    | root => exact ih pending
    | current => exact ih pending
    | parent =>
      rw [unmet, unmet, standing_parent, ih (pending + 1), ih (0 + 1), List.length_tail]
      omega
    | normal name =>
      have first : unmet 0 (.normal name :: cs) = unmet 0 cs := rfl
      rw [first, unmet, standing, ih (pending - 1), List.length_cons]
      omega

theorem standing_append (pending : Nat) (cs ds : List Component) :
    standing pending (cs ++ ds) = standing pending cs ++ standing (unmet pending cs) ds := by
  induction cs generalizing pending with
  | nil => rfl
  | cons c cs ih =>
    cases c with
    | root => exact ih pending
    | current => exact ih pending
    | parent => exact ih (pending + 1)
    | normal name =>
      cases pending with
      | zero => exact congrArg (name :: ·) (ih 0)
      | succ pending => exact ih pending

theorem unmet_append (pending : Nat) (cs ds : List Component) :
    unmet pending (cs ++ ds) = unmet (unmet pending cs) ds := by
  induction cs generalizing pending with
  | nil => rfl
  | cons c cs ih => cases c <;> exact ih _

/-- What a path starts with leaves no name and removes none. -/
theorem standing_components (p : Path) :
    standing 0 p.components.reverse = standing 0 p.inner.reverse ∧
      unmet 0 p.components.reverse = unmet 0 p.inner.reverse := by
  cases relative : p.isAbsolute with
  | true =>
    rw [components_of_absolute relative, List.reverse_cons, standing_append, unmet_append]
    exact ⟨List.append_nil _, rfl⟩
  | false =>
    rcases components_of_relative relative with same | same
    · rw [same]
      exact ⟨rfl, rfl⟩
    · rw [same, List.reverse_cons, standing_append, unmet_append]
      exact ⟨List.append_nil _, rfl⟩

theorem length_standing_le (pending : Nat) (cs : List Component) :
    (standing pending cs).length ≤ cs.length := by
  induction cs generalizing pending with
  | nil => simp [standing]
  | cons c cs ih =>
    cases c with
    | root => exact Nat.le_succ_of_le (ih pending)
    | current => exact Nat.le_succ_of_le (ih pending)
    | parent => exact Nat.le_succ_of_le (ih (pending + 1))
    | normal name =>
      cases pending with
      | zero => exact Nat.succ_le_succ (ih 0)
      | succ pending => exact Nat.le_succ_of_le (ih pending)

/-- A `..` is no name and leaves none. -/
theorem length_standing_lt {pending : Nat} (member : .parent ∈ cs) :
    (standing pending cs).length < cs.length := by
  induction cs generalizing pending with
  | nil => cases member
  | cons c cs ih =>
    cases c with
    | root => exact Nat.lt_succ_of_le (length_standing_le pending cs)
    | current => exact Nat.lt_succ_of_le (length_standing_le pending cs)
    | parent => exact Nat.lt_succ_of_le (length_standing_le (pending + 1) cs)
    | normal name =>
      cases pending with
      | zero => exact Nat.succ_lt_succ (ih (by simpa using member))
      | succ pending => exact Nat.lt_succ_of_le (length_standing_le pending cs)

theorem standing_map_normal (names : List String) : standing 0 (names.map .normal) = names := by
  induction names with
  | nil => rfl
  | cons name names ih => exact congrArg (name :: ·) ih

theorem unmet_map_normal (names : List String) : unmet 0 (names.map .normal) = 0 := by
  induction names with
  | nil => rfl
  | cons name names ih => exact ih

theorem mem_of_mem_standing {pending : Nat} {name : String} (left : name ∈ standing pending cs) :
    .normal name ∈ cs := by
  rw [standing_eq_drop] at left
  replace left := List.mem_of_mem_drop left
  induction cs with
  | nil => cases left
  | cons c cs ih =>
    cases c with
    | root => exact List.mem_cons_of_mem _ (ih left)
    | current => exact List.mem_cons_of_mem _ (ih left)
    | parent =>
      rw [standing_parent] at left
      exact List.mem_cons_of_mem _ (ih (List.mem_of_mem_tail left))
    | normal other =>
      rcases List.mem_cons.1 left with rfl | left
      · exact List.mem_cons_self
      · exact List.mem_cons_of_mem _ (ih left)

theorem exists_names (segments : ∀ c ∈ cs, IsSegment c) (level : .parent ∉ cs) :
    ∃ names : List String, cs = names.map .normal := by
  induction cs with
  | nil => exact ⟨[], rfl⟩
  | cons c cs ih =>
    rw [List.mem_cons, not_or] at level
    obtain ⟨names, rfl⟩ := ih (fun c member => segments c (List.mem_cons_of_mem _ member)) level.2
    rcases (segments c List.mem_cons_self).cases with rfl | ⟨name, rfl⟩
    · exact absurd rfl level.1
    · exact ⟨name :: names, rfl⟩

/-- What the stack has after components are followed: the names that these leave, and below them
what they have not climbed out of. -/
theorem foldl_follow (stack : List Component) (bottom : .root ∉ stack) (inside : .root ∉ cs) :
    cs.foldl follow (stack ++ [.root]) =
      (standing 0 cs.reverse).map .normal ++ stack.drop (unmet 0 cs.reverse) ++ [.root] := by
  induction cs using List.reverseRecOn with
  | nil => rfl
  | append_singleton cs c ih =>
    rw [List.mem_append, not_or, List.mem_singleton] at inside
    rw [List.foldl_append, ih inside.1, List.reverse_append, List.reverse_singleton,
      List.singleton_append, List.foldl_cons, List.foldl_nil]
    cases c with
    | root => exact absurd rfl inside.2
    | current => rfl
    | normal name => rfl
    | parent =>
      rw [standing_parent, unmet, unmet_eq_add (0 + 1)]
      cases standing 0 cs.reverse with
      | cons name names => simp [follow]
      | nil =>
        rw [List.tail_nil, List.map_nil, List.nil_append, List.length_nil, ← List.drop_drop]
        cases left : stack.drop (unmet 0 cs.reverse) with
        | nil => rfl
        | cons top rest =>
          have member : top ∈ stack := List.mem_of_mem_drop (left ▸ List.mem_cons_self)
          cases top with
          | root => exact absurd member bottom
          | current => rfl
          | parent => rfl
          | normal name => rfl

theorem isSegment_of_mem_location {c : Component} (member : c ∈ p.location.map .normal) :
    IsSegment c := by
  obtain ⟨name, left, rfl⟩ := List.mem_map.1 member
  have present := mem_of_mem_standing (List.mem_reverse.1 left)
  rw [List.mem_reverse] at present
  suffices inside : .normal name ∈ p.inner from isSegment_of_mem_inner inside
  cases relative : p.isAbsolute with
  | true => simpa [components_of_absolute relative] using present
  | false =>
    rcases components_of_relative relative with same | same <;> simpa [same] using present

/-- The components of the root that `p` does not climb out of. -/
def kept (root p : Path) : List Component :=
  if p.isAbsolute then [] else root.inner.take (root.inner.length - p.climbs)

theorem resolveFrom_eq (absolute : root.isAbsolute = true) (p : Path) :
    root.resolveFrom p = fromRoot (kept root p ++ p.location.map .normal) := by
  have inside := p.root_not_mem_inner
  cases relative : p.isAbsolute with
  | true =>
    have run := foldl_follow [] List.not_mem_nil inside
    have first : follow [] .root = [.root] := rfl
    rw [List.nil_append, List.drop_nil, List.append_nil] at run
    simp only [resolveFrom, relative, if_true, kept, fromRoot, location,
      (standing_components p).1, List.reverse_nil, List.nil_append]
    rw [components_of_absolute relative, List.foldl_cons, first, run]
    simp
  | false =>
    have bottom : .root ∉ root.inner.reverse := by
      rw [List.mem_reverse]
      exact root.root_not_mem_inner
    have run := foldl_follow _ bottom (root_not_mem_of_relative relative)
    simp only [resolveFrom, relative, Bool.false_eq_true, if_false, kept, fromRoot, location,
      climbs]
    rw [components_of_absolute absolute, List.reverse_cons, run, List.drop_reverse]
    simp

theorem isSegment_of_mem_kept {c : Component} (member : c ∈ kept root p) : IsSegment c := by
  rw [kept] at member
  split_ifs at member
  · cases member
  · exact isSegment_of_mem_inner (List.mem_of_mem_take member)

theorem components_resolveFrom (absolute : root.isAbsolute = true) (p : Path) :
    (root.resolveFrom p).components = .root :: (kept root p ++ p.location.map .normal) := by
  rw [resolveFrom_eq absolute, components_fromRoot]
  intro c member
  rcases List.mem_append.1 member with member | member
  · exact isSegment_of_mem_kept member
  · exact isSegment_of_mem_location member

/-- Names follow a part of the root. -/
theorem location_resolveFrom (absolute : root.isAbsolute = true) (p : Path) :
    (root.resolveFrom p).location = (standing 0 (kept root p).reverse).reverse ++ p.location := by
  rw [location, components_resolveFrom absolute, List.reverse_cons, List.reverse_append,
    ← List.map_reverse, List.append_assoc, standing_append, standing_append, standing_map_normal,
    unmet_map_normal]
  simp [standing]

theorem location_join (root : Path) (relative : p.isAbsolute = false) :
    (root.join p).location =
      ((standing 0 root.inner.reverse).drop p.climbs).reverse ++ p.location := by
  rw [location, location, climbs, (standing_components (root.join p)).1, inner_join root relative,
    List.reverse_append, standing_append, (standing_components p).1, (standing_components p).2,
    ← standing_eq_drop, List.reverse_append]

theorem location_of_level (level : .parent ∉ p.components) :
    p.location.map .normal = p.inner := by
  obtain ⟨names, all⟩ := exists_names (fun c => isSegment_of_mem_inner)
    (mt mem_components_of_mem_inner level)
  rw [location, (standing_components p).1, all, ← List.map_reverse, standing_map_normal,
    List.reverse_reverse]

/-- From a root without `..` nothing but names is kept, as the joined path says. -/
theorem kept_of_level (level : .parent ∉ root.inner) (relative : p.isAbsolute = false) :
    ∃ names : List String, kept root p = names.map .normal ∧
      (root.join p).location = names ++ p.location := by
  obtain ⟨names, all⟩ := exists_names (fun c => isSegment_of_mem_inner) level
  refine ⟨names.take (names.length - p.climbs), ?_, ?_⟩
  · rw [kept, if_neg (by simp [relative]), all, List.length_map, List.map_take]
  · rw [location_join root relative, all, ← List.map_reverse, standing_map_normal,
      List.drop_reverse, List.reverse_reverse]

theorem resolveFrom_of_level (absolute : root.isAbsolute = true)
    (level : .parent ∉ root.components) (p : Path) :
    root.resolveFrom p = fromRoot ((root.join p).location.map .normal) := by
  rw [resolveFrom_eq absolute]
  cases relative : p.isAbsolute with
  | true =>
    rw [kept, if_pos relative, join_of_absolute root relative]
    rfl
  | false =>
    obtain ⟨names, left, reached⟩ := kept_of_level (mt mem_components_of_mem_inner level) relative
    rw [left, reached, List.map_append]

/-- Everything that resolving promises: the path starts at the root directory, has neither `.` nor
`..`, leads to where the joined path leads, and resolves to itself. -/
structure Normalises (root p : Path) : Prop where
  absolute : (root.resolveFrom p).isAbsolute = true
  plain : ∀ c ∈ (root.resolveFrom p).components, c ≠ .current ∧ c ≠ .parent
  location : (root.resolveFrom p).location = (root.join p).location
  fixed : root.resolveFrom (root.resolveFrom p) = root.resolveFrom p

theorem normalises_of_kept (absolute : root.isAbsolute = true) (level : .parent ∉ kept root p)
    (same : (root.resolveFrom p).location = (root.join p).location) : Normalises root p := by
  obtain ⟨names, left⟩ := exists_names (fun c => isSegment_of_mem_kept) level
  have components := components_resolveFrom absolute p
  rw [left, ← List.map_append] at components
  have absoluteToo : (root.resolveFrom p).isAbsolute = true := by
    rw [resolveFrom_eq absolute]
    exact isAbsolute_fromRoot _
  refine ⟨absoluteToo, ?_, same, ?_⟩
  · intro c member
    rw [components, List.mem_cons, List.mem_map] at member
    rcases member with rfl | ⟨name, _, rfl⟩ <;> simp
  · have reached : (root.resolveFrom p).location = names ++ p.location := by
      rw [location_resolveFrom absolute, left, ← List.map_reverse, standing_map_normal,
        List.reverse_reverse]
    rw [resolveFrom_eq absolute (root.resolveFrom p), kept, if_pos absoluteToo, List.nil_append,
      reached, resolveFrom_eq absolute p, left, List.map_append]

/-- Resolving keeps its promises unless a relative path is taken from a root that has a `..` and
does not climb out of all of that root. -/
theorem resolution_normalises_iff (root p : Path) (absolute : root.isAbsolute = true) :
    Normalises root p ↔ p.isAbsolute = true ∨ .parent ∉ root.components ∨
      root.components.length ≤ p.climbs + 1 := by
  cases relative : p.isAbsolute with
  | true =>
    refine iff_of_true (normalises_of_kept absolute ?_ ?_) (.inl rfl)
    · simp [kept, relative]
    · rw [location_resolveFrom absolute, kept, if_pos relative, join_of_absolute _ relative]
      rfl
  | false =>
    have inside : .parent ∈ root.components ↔ .parent ∈ root.inner := by
      simp [components_of_absolute absolute]
    have depth : root.components.length = root.inner.length + 1 := by
      rw [components_of_absolute absolute, List.length_cons]
    have part : kept root p = root.inner.take (root.inner.length - p.climbs) := by
      simp [kept, relative]
    have size : (kept root p).length = root.inner.length - p.climbs := by
      rw [part, List.length_take]
      omega
    have agrees : (root.resolveFrom p).location = (root.join p).location ↔
        standing 0 (kept root p).reverse = (standing 0 root.inner.reverse).drop p.climbs := by
      rw [location_resolveFrom absolute, location_join root relative, List.append_cancel_right_eq,
        List.reverse_inj]
    rw [inside, depth]
    constructor
    · -- What is kept has names only, as many as the joined path leaves of the root: all of them.
      intro normalises
      by_contra fails
      rw [not_or, not_or, not_not] at fails
      obtain ⟨_, up, deep⟩ := fails
      have level : .parent ∉ kept root p := by
        intro member
        apply (normalises.plain .parent _).2 rfl
        rw [components_resolveFrom absolute]
        exact List.mem_cons_of_mem _ (List.mem_append_left _ member)
      obtain ⟨names, left⟩ := exists_names (fun c => isSegment_of_mem_kept) level
      have lengths := congrArg List.length (agrees.1 normalises.location)
      rw [left, List.length_map] at size
      rw [left, ← List.map_reverse, standing_map_normal, List.length_reverse, size,
        List.length_drop] at lengths
      have fewer : (standing 0 root.inner.reverse).length < root.inner.reverse.length :=
        length_standing_lt (List.mem_reverse.2 up)
      rw [List.length_reverse] at fewer
      omega
    · rintro (absurdity | level | climbed)
      · cases absurdity
      · obtain ⟨names, left, reached⟩ := kept_of_level level relative
        refine normalises_of_kept absolute (by simp [left]) ?_
        rw [location_resolveFrom absolute, left, ← List.map_reverse, standing_map_normal,
          List.reverse_reverse, reached]
      · have none : kept root p = [] := List.eq_nil_of_length_eq_zero (by omega)
        refine normalises_of_kept absolute (by simp [none]) (agrees.2 ?_)
        have few := length_standing_le 0 root.inner.reverse
        rw [List.length_reverse] at few
        rw [none, List.drop_eq_nil_of_le (by omega)]
        rfl

/-- From a root that goes up again, `..` is kept, or taken for a directory to leave. -/
theorem ascending_root_not_normalised :
    Path.resolveFrom ⟨"/a/.."⟩ ⟨"c.js"⟩ = ⟨"/a/../c.js"⟩ ∧ ¬ Normalises ⟨"/a/.."⟩ ⟨"c.js"⟩ ∧
      Path.resolveFrom ⟨"/a/.."⟩ ⟨"../c.js"⟩ = ⟨"/a/c.js"⟩ ∧
      (Path.join ⟨"/a/.."⟩ ⟨"../c.js"⟩).location = ["c.js"] ∧
      ¬ Normalises ⟨"/a/.."⟩ ⟨"../c.js"⟩ :=
  ⟨by decide +kernel,
    fun normalises => absurd rfl (normalises.plain .parent (by decide +kernel)).2,
    by decide +kernel, by decide +kernel,
    fun normalises => absurd normalises.location (by decide +kernel)⟩

/-- From the same root an absolute path and one that climbs far enough come out right, as every path
does from a root without `..`. -/
theorem ascending_root_left_behind :
    Normalises ⟨"/a/.."⟩ ⟨"/x/../c.js"⟩ ∧ Normalises ⟨"/a/.."⟩ ⟨"../lib/../../c.js"⟩ ∧
      Normalises ⟨"/a/b"⟩ ⟨"../../../lib/./c.js"⟩ ∧ ¬ Normalises ⟨"/a/../b"⟩ ⟨"../c.js"⟩ :=
  ⟨(resolution_normalises_iff _ _ (by decide +kernel)).2 (by decide +kernel),
    (resolution_normalises_iff _ _ (by decide +kernel)).2 (by decide +kernel),
    (resolution_normalises_iff _ _ (by decide +kernel)).2 (by decide +kernel),
    fun normalises => absurd ((resolution_normalises_iff _ _ (by decide +kernel)).1 normalises)
      (by decide +kernel)⟩

end CodeSplit.Path

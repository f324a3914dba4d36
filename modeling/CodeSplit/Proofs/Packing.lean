import CodeSplit.Plan.ManualBundles
import CodeSplit.Plan.SharedBundles
import CodeSplit.Proofs.Membership
import CodeSplit.Proofs.Outcomes

/-!
What a root holds. Packing only adds to the bundles of roots, and from the moment the consumers of
an asset are known, a consumer holds the asset: in a bundle of its own, in a shared bundle or in a
manual bundle.
-/
namespace CodeSplit.Plan

/-- The root has the asset in a bundle of its own. -/
def Packages (p : Plan) (root x : AssetKey) : Prop := ∃ fileType, x ∈ p.bucket root fileType

/-- The root loads a live shared bundle with the asset. -/
def Shares (p : Plan) (root x : AssetKey) : Prop :=
  ∃ b ∈ p.liveSharedBundles, x ∈ b.assets ∧ root ∈ b.consumers

/-- The root loads a manual bundle with the asset. -/
def TakesManually (p : Plan) (root x : AssetKey) : Prop :=
  ∃ key b, p.manualBundles.get? key = some b ∧ x ∈ b.assets ∧ root ∈ b.consumers

/-- The asset is loaded with the root. -/
def Holds (p : Plan) (root x : AssetKey) : Prop :=
  p.Packages root x ∨ p.Shares root x ∨ p.TakesManually root x

/-- The asset is loaded with the group. -/
def GroupHolds (p : Plan) (group x : AssetKey) : Prop := ∃ m ∈ p.members group, p.Holds m x

/-- The second plan has more assets in the buckets of roots and is the same otherwise. -/
structure Packs (p q : Plan) : Prop where
  frame : q = { p with placements := q.placements }
  grows : ∀ root fileType, ∀ x ∈ p.bucket root fileType, x ∈ q.bucket root fileType

variable {p q r : Plan} {root x : AssetKey}

theorem Packs.refl (p : Plan) : Packs p p := ⟨rfl, fun _ _ _ held => held⟩

theorem Packs.trans (first : Packs p q) (second : Packs q r) : Packs p r := by
  constructor
  · rw [second.frame, first.frame]
  · intro root fileType x held
    exact second.grows root fileType x (first.grows root fileType x held)

theorem Packs.packages (packs : Packs p q) (packed : p.Packages root x) : q.Packages root x := by
  obtain ⟨fileType, member⟩ := packed
  exact ⟨fileType, packs.grows root fileType x member⟩

theorem Packs.roots (packs : Packs p q) : q.roots = p.roots := by rw [packs.frame]

theorem Packs.edges (packs : Packs p q) : q.edges = p.edges := by rw [packs.frame]

theorem Packs.reused (packs : Packs p q) : q.reused = p.reused := by rw [packs.frame]

theorem Packs.ownGroups (packs : Packs p q) : q.ownGroups = p.ownGroups := by rw [packs.frame]

theorem Packs.sharedBundles (packs : Packs p q) : q.sharedBundles = p.sharedBundles := by
  rw [packs.frame]

theorem Packs.manualBundles (packs : Packs p q) : q.manualBundles = p.manualBundles := by
  rw [packs.frame]

theorem Packs.holds (packs : Packs p q) (held : p.Holds root x) : q.Holds root x := by
  rcases held with packed | shared | manual
  · exact .inl (packs.packages packed)
  · refine .inr (.inl ?_)
    unfold Shares liveSharedBundles at shared ⊢
    rwa [packs.sharedBundles]
  · refine .inr (.inr ?_)
    unfold TakesManually at manual ⊢
    rwa [packs.manualBundles]

theorem packs_pack (p : Plan) (root : AssetKey) (fileType : FileType) (asset : AssetKey) :
    Packs p (p.pack root fileType asset) := by
  refine ⟨rfl, ?_⟩
  intro other otherType x held
  exact mem_bucket_place.2 (.inr held)

theorem packages_pack (p : Plan) (root : AssetKey) (fileType : FileType) (asset : AssetKey) :
    (p.pack root fileType asset).Packages root asset :=
  ⟨p.bucketType root fileType, mem_bucket_place.2 (.inl ⟨rfl, rfl, rfl⟩)⟩

section Folds

variable {α : Type} {f : Plan → α → Plan}

theorem Packs.foldl (each : ∀ p a, Packs p (f p a)) (as : List α) (p : Plan) :
    Packs p (as.foldl f p) := by
  induction as generalizing p with
  | nil => exact .refl p
  | cons a as ih => exact (each p a).trans (ih (f p a))

/-- A fold of packing steps is at some point the step for a given element. -/
theorem Packs.foldl_at (each : ∀ p a, Packs p (f p a)) {as : List α} {a : α} (member : a ∈ as)
    (p : Plan) : ∃ q, Packs p q ∧ Packs (f q a) (as.foldl f p) := by
  induction as generalizing p with
  | nil => cases member
  | cons b as ih =>
    rcases List.mem_cons.1 member with rfl | later
    · exact ⟨p, .refl p, .foldl each as (f p a)⟩
    · obtain ⟨q, before, after⟩ := ih later (f p b)
      exact ⟨q, (each p b).trans before, after⟩

end Folds

theorem packs_packAll (p : Plan) (root : AssetKey) (fileType : FileType) (assets : List AssetKey) :
    Packs p (p.packAll root fileType assets) :=
  .foldl (fun p a => packs_pack p root fileType a) assets p

theorem packages_packAll (p : Plan) (root : AssetKey) (fileType : FileType) {assets : List AssetKey}
    (member : x ∈ assets) : (p.packAll root fileType assets).Packages root x := by
  obtain ⟨q, _, after⟩ := Packs.foldl_at (fun p a => packs_pack p root fileType a) member p
  exact after.packages (packages_pack q root fileType x)

theorem bucketType_congr (same : q.roots = p.roots) (root : AssetKey) (fileType : FileType) :
    q.bucketType root fileType = p.bucketType root fileType := by
  unfold bucketType root?
  rw [same]

theorem mem_bucket_packAll {owner : AssetKey} {fileType packed : FileType}
    {assets : List AssetKey} :
    x ∈ (p.packAll owner fileType assets).bucket root packed ↔
      (owner = root ∧ p.bucketType root fileType = packed ∧ x ∈ assets) ∨
        x ∈ p.bucket root packed := by
  induction assets generalizing p with
  | nil => simp [packAll]
  | cons a rest ih =>
    show x ∈ ((p.pack owner fileType a).packAll owner fileType rest).bucket root packed ↔ _
    rw [ih, bucketType_congr (packs_pack p owner fileType a).roots, pack, mem_bucket_place,
      List.mem_cons]
    constructor
    · rintro (⟨rfl, same, later⟩ | ⟨rfl, same, rfl⟩ | held)
      · exact .inl ⟨rfl, same, .inr later⟩
      · exact .inl ⟨rfl, same, .inl rfl⟩
      · exact .inr held
    · rintro (⟨rfl, same, rfl | later⟩ | held)
      · exact .inr (.inl ⟨rfl, same, rfl⟩)
      · exact .inl ⟨rfl, same, later⟩
      · exact .inr (.inr held)

/-- What is in a bucket when some assets have been packed as some type into each of several
owners. -/
theorem mem_bucket_foldl {α : Type} {owner : α → AssetKey} {type : α → FileType}
    {assets : α → List AssetKey} {packed : FileType} {as : List α} :
    x ∈ (as.foldl (fun p a => p.packAll (owner a) (type a) (assets a)) p).bucket root packed ↔
      (∃ a ∈ as, owner a = root ∧ p.bucketType root (type a) = packed ∧ x ∈ assets a) ∨
        x ∈ p.bucket root packed := by
  induction as generalizing p with
  | nil => simp
  | cons a rest ih =>
    rw [List.foldl_cons, ih, mem_bucket_packAll, List.exists_mem_cons_iff]
    simp only [bucketType_congr (packs_packAll p (owner a) (type a) (assets a)).roots]
    rw [← or_assoc, or_comm (a := ∃ a ∈ rest, _)]

/-- Copying assets into several roots. -/
theorem packs_packAll_each (p : Plan) (roots : List AssetKey) (fileType : FileType)
    (assets : List AssetKey) :
    Packs p (roots.foldl (fun p c => p.packAll c fileType assets) p) :=
  .foldl (fun p c => packs_packAll p c fileType assets) roots p

theorem packages_packAll_each (p : Plan) {roots : List AssetKey} (fileType : FileType)
    {assets : List AssetKey} (listed : root ∈ roots) (member : x ∈ assets) :
    (roots.foldl (fun p c => p.packAll c fileType assets) p).Packages root x := by
  obtain ⟨q, _, after⟩ :=
    Packs.foldl_at (fun p c => packs_packAll p c fileType assets) listed p
  exact after.packages (packages_packAll q root fileType member)

theorem packInto_eq_foldl (p : Plan) (roots : List AssetKey) (fileType : FileType)
    (asset : AssetKey) : p.packInto roots fileType asset =
      roots.foldl (fun p root => p.packAll root fileType [asset]) p := rfl

theorem packs_packInto (p : Plan) (roots : List AssetKey) (fileType : FileType) (asset : AssetKey) :
    Packs p (p.packInto roots fileType asset) :=
  .foldl (fun p root => packs_pack p root fileType asset) roots p

theorem packages_packInto (p : Plan) {roots : List AssetKey} (fileType : FileType)
    (listed : root ∈ roots) (asset : AssetKey) :
    (p.packInto roots fileType asset).Packages root asset := by
  obtain ⟨q, _, after⟩ :=
    Packs.foldl_at (fun p root => packs_pack p root fileType asset) listed p
  exact after.packages (packages_pack q root fileType asset)

end CodeSplit.Plan

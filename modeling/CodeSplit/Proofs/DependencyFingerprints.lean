import CodeSplit.Proofs.GraphContents
import CodeSplit.Proofs.TargetFingerprints

/-!
What the fingerprint of a dependency tells: everything but the target, whose fingerprint ends with
the last closing byte, and of the target what its own fingerprint tells. So entries whose targets
differ only by paths that are alike are one node of the graph.
-/
namespace CodeSplit

open Fingerprint
open Digest (Bytes)

theorem SpecifierType.selfDelimiting_fingerprint : SelfDelimiting SpecifierType.fingerprint := by
  intro a b rest others same
  cases a <;> cases b <;> simp_all [SpecifierType.fingerprint, SpecifierType.code]

theorem Priority.selfDelimiting_fingerprint : SelfDelimiting Priority.fingerprint := by
  intro a b rest others same
  cases a <;> cases b <;> simp_all [Priority.fingerprint, Priority.code]

theorem Behavior.selfDelimiting_fingerprint : SelfDelimiting Behavior.fingerprint := by
  have listed (b : Behavior) : Behavior.named[b.index]? = some (b.name, b) := by cases b <;> rfl
  exact selfDelimiting_tag listed (by decide)

namespace Dependency.Identity

variable {i j : Identity}

/-- What comes after the target. -/
def manner (i : Identity) : Bytes :=
  i.specifierType.fingerprint ++ option Behavior.fingerprint i.behavior ++ i.priority.fingerprint

theorem fingerprint_eq (i : Identity) : i.fingerprint =
    option text i.sourceAssetId ++ (text i.specifier ++ (text i.environmentId ++
      (option Target.fingerprint i.target ++ i.manner))) := by
  simp only [fingerprint, manner, List.append_assoc]

theorem manner_inj (same : i.manner = j.manner) :
    i.specifierType = j.specifierType ∧ i.behavior = j.behavior ∧ i.priority = j.priority := by
  simp only [manner, List.append_assoc] at same
  obtain ⟨specifierType, same⟩ := SpecifierType.selfDelimiting_fingerprint _ _ _ _ same
  obtain ⟨behavior, same⟩ := Behavior.selfDelimiting_fingerprint.option _ _ _ _ same
  exact ⟨specifierType, behavior, Priority.selfDelimiting_fingerprint.injective same⟩

theorem not_mem_manner (i : Identity) : 0xff ∉ i.manner := by
  obtain ⟨_, _, _, _, specifierType, behavior, priority⟩ := i
  simp only [manner, List.mem_append, not_or]
  refine ⟨⟨?_, ?_⟩, ?_⟩
  · cases specifierType <;> decide
  · rcases behavior with _ | _ | _ | _ <;> decide
  · cases priority <;> decide

/-- The closing byte of the public URL is the last one, so it shows where a target ends. -/
theorem append_manner_inj {s t : Option Target}
    (same : option Target.fingerprint s ++ i.manner = option Target.fingerprint t ++ j.manner) :
    s.map Target.fingerprint = t.map Target.fingerprint ∧ i.manner = j.manner := by
  have free (i : Identity) : ∀ byte ∈ i.manner, ¬ byte = 0xff := by
    intro byte member closing
    exact i.not_mem_manner (closing ▸ member)
  rcases option_append_cases same with ⟨rfl, rfl, manners⟩ | ⟨s, t, rfl, rfl, ends⟩
  · exact ⟨rfl, manners⟩
  · obtain ⟨body, left⟩ := s.exists_body
    obtain ⟨bodyToo, right⟩ := t.exists_body
    rw [left, right, List.append_assoc, List.append_assoc] at ends
    obtain ⟨rfl, _, manners⟩ := append_marked_inj (· = 0xff) rfl rfl (free i) (free j) ends
    exact ⟨by rw [Option.map_some, Option.map_some, left, right], manners⟩

/-- Everything is told by the fingerprint but the target, of which the fingerprint is told. -/
theorem fingerprint_eq_iff : i.fingerprint = j.fingerprint ↔
    { i with target := none } = { j with target := none } ∧
      i.target.map Target.fingerprint = j.target.map Target.fingerprint := by
  rw [fingerprint_eq, fingerprint_eq]
  constructor
  · intro same
    obtain ⟨source, same⟩ := selfDelimiting_text.option _ _ _ _ same
    obtain ⟨specifier, same⟩ := selfDelimiting_text _ _ _ _ same
    obtain ⟨environment, same⟩ := selfDelimiting_text _ _ _ _ same
    obtain ⟨targets, same⟩ := append_manner_inj same
    obtain ⟨specifierType, behavior, priority⟩ := manner_inj same
    exact ⟨by simp_all, targets⟩
  · rintro ⟨rest, targets⟩
    rw [option_congr targets]
    simp only [Identity.mk.injEq] at rest
    obtain ⟨source, specifier, environment, _, specifierType, behavior, priority⟩ := rest
    rw [manner, manner, source, specifier, environment, specifierType, behavior, priority]

theorem fingerprint_eq_iff_alike (plain : i.target.all Target.isPlain = true)
    (plainToo : j.target.all Target.isPlain = true) : i.fingerprint = j.fingerprint ↔
      { i with target := none } = { j with target := none } ∧
        Option.Rel Target.Alike i.target j.target := by
  rw [fingerprint_eq_iff, map_eq_map_iff_rel]
  intro s isTarget t isTargetToo
  exact Target.fingerprint_eq_iff ((Option.all_eq_true _ _).1 plain s isTarget)
    ((Option.all_eq_true _ _).1 plainToo t isTargetToo)

end Dependency.Identity

namespace AssetGraph

variable (g : AssetGraph) {key other : String} {node second : Node}

theorem snd_addNode : (g.addNode key node).2 = (g.nodeOfKey? key).getD g.nodes.length := by
  unfold addNode
  split <;> simp_all

theorem node?_addNode : (g.addNode key node).1.node? (g.addNode key node).2 = some node := by
  unfold addNode node?
  split
  · rename_i n found
    obtain ⟨inside, _⟩ := List.findIdx?_eq_some_iff_getElem.1 found
    simp [inside]
  · simp

theorem nodeOfKey?_addNode (named : node.key? = some key) :
    (g.addNode key node).1.nodeOfKey? key = some (g.addNode key node).2 := by
  unfold addNode
  split
  · rename_i n found
    obtain ⟨inside, _, first⟩ := List.findIdx?_eq_some_iff_getElem.1 found
    refine List.findIdx?_eq_some_iff_getElem.2 ⟨by simpa using inside, by simp [named], ?_⟩
    intro m before
    rw [List.getElem_set_ne (by omega)]
    exact first m before
  · rename_i absent
    have missing : g.nodes.findIdx? (fun node => node.key? = some key) = none := absent
    simp [nodeOfKey?, List.findIdx?_append, missing, named]

theorem key_eq_of_nodeOfKey? {h : AssetGraph} {n : NodeId} (found : h.nodeOfKey? key = some n)
    (holds : h.node? n = some node) : node.key? = some key := by
  obtain ⟨inside, isKey, _⟩ := List.findIdx?_eq_some_iff_getElem.1 found
  rw [node?, List.getElem?_eq_getElem inside] at holds
  exact Option.some.inj holds ▸ of_decide_eq_true isKey

/-- A node added after another is the same exactly if it has the same key. -/
theorem snd_addNode_addNode (named : node.key? = some key) :
    ((g.addNode key node).1.addNode other second).2 = (g.addNode key node).2 ↔ key = other := by
  rw [snd_addNode]
  constructor
  · intro same
    have holds : (g.addNode key node).1.node? (g.addNode key node).2 = some node := g.node?_addNode
    rw [← same] at holds
    cases found : (g.addNode key node).1.nodeOfKey? other with
    | none => simp [found, node?] at holds
    | some n =>
      rw [found] at holds
      exact Option.some.inj (named.symm.trans (key_eq_of_nodeOfKey? found holds))
  · rintro rfl
    rw [g.nodeOfKey?_addNode named]
    rfl

/-- Two entries, one added after the other, are one node exactly if they have one id. -/
theorem entries_collapse_iff (d e : Dependency) :
    ((g.addEntryDependency d).1.addEntryDependency e).2 = (g.addEntryDependency d).2 ↔
      d.id = e.id := by
  have nodes : (g.addEntryDependency d).1.nodes = (g.addDependency d).1.nodes := nodes_link _ _
  have second : ((g.addEntryDependency d).1.addEntryDependency e).2 =
      ((g.addDependency d).1.addDependency e).2 := by
    change ((g.addEntryDependency d).1.addNode e.id _).2 = ((g.addDependency d).1.addNode e.id _).2
    rw [snd_addNode, snd_addNode, nodeOfKey?, nodes, nodeOfKey?]
  rw [second]
  exact g.snd_addNode_addNode rfl

end AssetGraph

namespace Dependency

/-- What the id of an entry depends on. -/
def entryIdentity (specifier : String) (target : Target) : Identity where
  sourceAssetId := none
  specifier
  environmentId := target.env.id
  target := some target
  specifierType := .url
  behavior := none
  priority := .sync

theorem id_entry (specifier : String) (target : Target) :
    (entry specifier target).id = (entryIdentity specifier target).id := rfl

theorem entryIdentity_fingerprint_eq {s t : Target} (alike : s.Alike t) (specifier : String) :
    (entryIdentity specifier s).fingerprint = (entryIdentity specifier t).fingerprint := by
  rw [Identity.fingerprint_eq_iff]
  simp [entryIdentity, alike.env, alike.fingerprint_eq]

theorem entryIdentity_fingerprint_eq_iff {specifier other : String} {s t : Target}
    (plain : s.isPlain = true) (plainToo : t.isPlain = true) :
    (entryIdentity specifier s).fingerprint = (entryIdentity other t).fingerprint ↔
      specifier = other ∧ s.Alike t := by
  rw [Identity.fingerprint_eq_iff_alike (by simpa [entryIdentity] using plain)
    (by simpa [entryIdentity] using plainToo)]
  constructor
  · rintro ⟨rest, ⟨alike⟩⟩
    exact ⟨congrArg Identity.specifier rest, alike⟩
  · rintro ⟨rfl, alike⟩
    exact ⟨by simp [entryIdentity, alike.env], .some alike⟩

/-- Fingerprints tell everything of a dependency but paths. Of a plain target they tell all but
paths that are alike. So two entries with plain targets are one node of the graph exactly if their
targets agree up to such paths, or the digest gives one hash for two byte sequences. Targets whose
paths are comparable are alike only if they are the same, and a target is always alike with the one
that has its directory below the root directory. -/
theorem told_but_for_alike_paths (i j : Identity) (g : AssetGraph) (specifier other : String)
    (s t : Target) :
    (i.fingerprint = j.fingerprint → { i with target := none } = { j with target := none } ∧
        i.target.map Target.publicUrl = j.target.map Target.publicUrl) ∧
      (i.target.all Target.isPlain = true → j.target.all Target.isPlain = true →
        (i.fingerprint = j.fingerprint ↔ { i with target := none } = { j with target := none } ∧
          Option.Rel Target.Alike i.target j.target)) ∧
      (s.isPlain = true → t.isPlain = true →
        (((g.addEntryDependency (entry specifier s)).1.addEntryDependency (entry other t)).2 =
            (g.addEntryDependency (entry specifier s)).2 ↔
          (specifier = other ∧ s.Alike t) ∨ Digest.Collide (entryIdentity specifier s).fingerprint
            (entryIdentity other t).fingerprint)) ∧
      (s.distDir.Comparable t.distDir →
        (∀ p ∈ s.distEntry, ∀ q ∈ t.distEntry, p.Comparable q) →
        (s.Alike t ↔ s.same t = true)) ∧
      (t.distDir.isAbsolute = false → .current ∉ t.distDir.components →
        t.Alike { t with distDir := ⟨"/" ++ t.distDir.text⟩ } ∧
          t.same { t with distDir := ⟨"/" ++ t.distDir.text⟩ } = false) := by
  refine ⟨?_, ?_, ?_, ?_, ?_⟩
  · intro same
    obtain ⟨rest, targets⟩ := Identity.fingerprint_eq_iff.1 same
    refine ⟨rest, ?_⟩
    have related := (map_eq_map_iff_rel fun _ _ _ _ => Iff.rfl).1 targets
    revert related
    generalize i.target = s
    generalize j.target = t
    rintro (targets | _)
    · exact congrArg some (Target.append_publicUrl_inj targets).1
    · rfl
  · intro plain plainToo
    exact Identity.fingerprint_eq_iff_alike plain plainToo
  · intro plain plainToo
    rw [AssetGraph.entries_collapse_iff, id_entry, id_entry, Identity.id, Identity.id,
      Digest.ofBytes_eq_iff, entryIdentity_fingerprint_eq_iff plain plainToo]
  · intro directories files
    exact Target.alike_iff_same directories files
  · intro relative plain
    obtain ⟨alike, differ⟩ := Path.alike_below_root relative plain
    exact ⟨Target.alike_of_distDir alike, by simp [Target.same, differ]⟩

/-- Two targets that differ by the name of their file: their entries have different fingerprints. A
target with a relative directory: its entry is one node with that of the target below the root
directory. -/
theorem files_told_and_root_not :
    let main : Target := { distEntry := some ⟨"dist/main.js"⟩ }
    let other : Target := { distEntry := some ⟨"dist/other.js"⟩ }
    let rooted : Target := { distDir := ⟨"/dist"⟩ }
    (main.isPlain = true ∧ other.isPlain = true ∧
        (entryIdentity "a.js" main).fingerprint ≠ (entryIdentity "a.js" other).fingerprint) ∧
      ∀ g : AssetGraph,
        ((g.addEntryDependency (entry "a.js" {})).1.addEntryDependency (entry "a.js" rooted)).2 =
          (g.addEntryDependency (entry "a.js" {})).2 := by
  intro main other rooted
  have plain : main.isPlain = true ∧ other.isPlain = true := by decide +kernel
  refine ⟨⟨plain.1, plain.2, ?_⟩, ?_⟩
  · intro same
    obtain ⟨_, told, _, agree, _⟩ := told_but_for_alike_paths (entryIdentity "a.js" main)
      (entryIdentity "a.js" other) .empty "a.js" "a.js" main other
    obtain ⟨_, ⟨alike⟩⟩ := (told plain.1 plain.2).1 same
    have directories : main.distDir.Comparable other.distDir :=
      ⟨rfl, by decide +kernel, by decide +kernel, by decide +kernel⟩
    have files : ∀ p ∈ main.distEntry, ∀ q ∈ other.distEntry, p.Comparable q := by
      rintro _ ⟨⟩ _ ⟨⟩
      exact ⟨rfl, by decide +kernel, by decide +kernel, by decide +kernel⟩
    exact absurd ((agree directories files).1 alike) (by decide +kernel)
  · intro g
    obtain ⟨_, _, collapse, _, _⟩ := told_but_for_alike_paths (entryIdentity "a.js" {})
      (entryIdentity "a.js" rooted) g "a.js" "a.js" {} rooted
    obtain ⟨_, _, _, _, below⟩ := told_but_for_alike_paths (entryIdentity "a.js" rooted)
      (entryIdentity "a.js" {}) g "a.js" "a.js" rooted {}
    obtain ⟨alike, _⟩ := below (by decide) (by decide +kernel)
    exact (collapse (by decide +kernel) (by decide +kernel)).2 (.inl ⟨rfl, alike⟩)

/-- Different targets whose entries have one fingerprint and are one node: only one directory
starts at the root directory, or one text is divided in two ways. -/
theorem different_entries_collapse :
    List.Forall (fun targets : Target × Target =>
      targets.1.same targets.2 = false ∧
        (entryIdentity "a.js" targets.1).fingerprint =
          (entryIdentity "a.js" targets.2).fingerprint ∧
        ∀ g : AssetGraph,
          ((g.addEntryDependency (entry "a.js" targets.1)).1.addEntryDependency
              (entry "a.js" targets.2)).2 =
            (g.addEntryDependency (entry "a.js" targets.1)).2)
      [({ distDir := ⟨"/dist"⟩ }, { distDir := ⟨"dist"⟩ }),
        ({ distDir := ⟨"a/bcdefg/h"⟩ }, { distDir := ⟨"abcde/f/gh"⟩ })] := by
  have collapse {s t : Target} (alike : s.Alike t) :
      (entryIdentity "a.js" s).fingerprint = (entryIdentity "a.js" t).fingerprint ∧
        ∀ g : AssetGraph,
          ((g.addEntryDependency (entry "a.js" s)).1.addEntryDependency (entry "a.js" t)).2 =
            (g.addEntryDependency (entry "a.js" s)).2 := by
    have same := entryIdentity_fingerprint_eq alike "a.js"
    refine ⟨same, ?_⟩
    intro g
    rw [AssetGraph.entries_collapse_iff, id_entry, id_entry, Identity.id, Identity.id, same]
  simp only [List.Forall]
  refine ⟨⟨by decide +kernel, collapse ?_⟩, by decide +kernel, collapse ?_⟩
  · exact Target.alike_of_distDir ⟨by decide +kernel, by decide +kernel⟩
  · exact Target.alike_of_distDir ⟨by decide +kernel, by decide +kernel⟩

end Dependency

end CodeSplit

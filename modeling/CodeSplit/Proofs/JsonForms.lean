import CodeSplit.Asset
import CodeSplit.BuildMode
import CodeSplit.Diagnostic
import CodeSplit.FeatureFlags
import CodeSplit.Target
import CodeSplit.Proofs.Keyed
import Mathlib.Algebra.Group.Nat.Defs

/-!
Reading back what was written. A record is written under the names of its fields, and a field that
has no value is written as null. Each part of a record is read back by itself, so that a record
comes back exactly if all its parts do. Texts, paths, flags and choices always come back; a number
does if it fits into the word it is read into, and a file type if it is one that an extension has.
Build modes are written in a form that is not the one they are read in, and only two come back.
-/
namespace CodeSplit

namespace Json

variable {α : Type}

section Fields

theorem lastMember?_eq_none {name : String} {members : List (String × Json)}
    (absent : name ∉ members.map Prod.fst) : lastMember? name members = none := by
  induction members with
  | nil => rfl
  | cons member rest ih =>
    rw [List.map_cons, List.mem_cons, not_or] at absent
    rw [lastMember?, ih absent.2]
    exact if_neg (Ne.symm absent.1)

theorem map_lastMember?_zip {names : List String} {values : List Json} (distinct : names.Nodup)
    (same : names.length = values.length) :
    names.map (lastMember? · (names.zip values)) = values.map some := by
  induction names generalizing values with
  | nil =>
    cases values with
    | nil => rfl
    | cons _ _ => cases same
  | cons name names ih =>
    cases values with
    | nil => cases same
    | cons value values =>
      obtain ⟨fresh, distinct⟩ := List.nodup_cons.1 distinct
      have short : names.length = values.length := Nat.succ.inj same
      have absent : lastMember? name (names.zip values) = none :=
        lastMember?_eq_none (by rwa [List.map_fst_zip (Nat.le_of_eq short)])
      -- The first member does not hide a later one, whose names are all different from its own.
      have later : names.map (lastMember? · ((name, value) :: names.zip values)) =
          names.map (lastMember? · (names.zip values)) := by
        apply List.map_congr_left
        intro other listed
        have apart : name ≠ other := fun equal => fresh (equal ▸ listed)
        rw [lastMember?]
        cases lastMember? other (names.zip values) with
        | none => exact if_neg apart
        | some _ => rfl
      rw [List.zip_cons_cons, List.map_cons, List.map_cons, later, ih distinct short, lastMember?,
        absent]
      simp

/-- A record that is written under the names of its fields has these fields. -/
theorem fields?_zip {names : List String} (values : List Json) (distinct : names.Nodup)
    (same : names.length = values.length) :
    (object (names.zip values)).fields? names = some (values.map some) :=
  congrArg some (map_lastMember?_zip distinct same)

theorem leadingFields?_zip {names : List String} (values : List Json) (distinct : names.Nodup)
    (same : names.length = values.length) :
    (object (names.zip values)).leadingFields? names = some (values.map some) :=
  congrArg some (map_lastMember?_zip distinct same)

end Fields

section Parts

variable {value? : Json → Option α} {write : α → Json}

@[simp] theorem text?_string (s : String) : (string s).text? = some s := rfl

@[simp] theorem bool?_bool (b : Bool) : (bool b).bool? = some b := rfl

@[simp] theorem required?_some (v : Json) : required? value? (some v) = value? v := rfl

@[simp] theorem defaulted?_some (default : α) (v : Json) :
    defaulted? value? default (some v) = value? v := rfl

@[simp] theorem natural?_natural_eq_some {bits n : Nat} :
    (natural n).natural? bits = some n ↔ n < Nat.pow 2 bits := by
  unfold natural?
  split
  · simp_all
  · simp_all

/-- A value that is left out comes back as such, and one that is there comes back if it does so by
itself; it is not taken for one that is left out, since null is no value. -/
theorem optional?_ofOption {o : Option α} (notNull : value? null = none) :
    optional? value? (some (ofOption write o)) = some o ↔
      ∀ a, o = some a → value? (write a) = some a := by
  cases o with
  | none => simp [ofOption, optional?, nullable?]
  | some a =>
    have reads : optional? value? (some (write a)) = some (some a) ↔ value? (write a) = some a := by
      unfold optional? nullable?
      cases written : write a with
      | null => simp [notNull]
      | _ => simp
    simpa [ofOption] using reads

theorem optional?_text (o : Option String) :
    optional? text? (some (ofOption string o)) = some o :=
  (optional?_ofOption rfl).2 fun _ _ => rfl

theorem mapM_map_eq_some {β : Type} {read : β → Option α} {write : α → β} {xs : List α} :
    (xs.map write).mapM read = some xs ↔ ∀ x ∈ xs, read (write x) = some x := by
  induction xs with
  | nil => simp
  | cons x xs ih =>
    rw [List.map_cons, List.mapM_cons, List.forall_mem_cons, ← ih]
    simp [Option.bind_eq_some_iff]

theorem list?_array {xs : List α} :
    list? value? (array (xs.map write)) = some xs ↔ ∀ x ∈ xs, value? (write x) = some x :=
  mapM_map_eq_some

theorem list?_strings (texts : List String) : list? text? (strings texts) = some texts :=
  list?_array.2 fun _ _ => rfl

end Parts

end Json

section Choices

theorem Environment.Context.ofJson?_toJson (c : Environment.Context) :
    ofJson? c.toJson = some c := by
  cases c <;> rfl

theorem Environment.OutputFormat.ofJson?_toJson (f : Environment.OutputFormat) :
    ofJson? f.toJson = some f := by
  cases f <;> rfl

theorem Behavior.ofJson?_toJson (b : Behavior) : ofJson? b.toJson = some b := by
  cases b <;> rfl

/-- An extension that has no type of its own is kept. -/
theorem FileType.eq_of_ofExtension_eq_other {ext kept : String}
    (same : ofExtension ext = .other kept) : kept = ext := by
  unfold ofExtension at same
  repeat' split at same
  all_goals cases same
  rfl

/-- The extension of a type that an extension has leads back to the type. -/
theorem FileType.ofExtension_extension (ext : String) :
    ofExtension (ofExtension ext).extension = ofExtension ext := by
  cases found : ofExtension ext with
  | other kept => rw [extension, eq_of_ofExtension_eq_other found, found,
      eq_of_ofExtension_eq_other found]
  | _ => rfl

theorem FileType.ofJson?_toJson_iff (t : FileType) :
    ofJson? t.toJson = some t ↔ ∃ ext, t = ofExtension ext := by
  have reads : ofJson? t.toJson = some t ↔ ofExtension t.extension = t := by
    simp [ofJson?, toJson]
  rw [reads]
  constructor
  · intro same
    exact ⟨t.extension, same.symm⟩
  · rintro ⟨ext, rfl⟩
    exact ofExtension_extension ext

end Choices

section Environments

theorem Environment.Engines.ofJson?_toJson (e : Environment.Engines) :
    ofJson? e.toJson = some e := by
  have fields : e.toJson.fields? ["browsers", "electron", "node"] = some [
      some (.ofOption .string e.browsers), some (.ofOption .string e.electron),
      some (.ofOption .string e.node)] :=
    Json.fields?_zip [_, _, _] (by decide) rfl
  simp [ofJson?, fields, Json.optional?_text]

theorem Environment.ofJson?_toJson (e : Environment) : ofJson? e.toJson = some e := by
  have fields : e.toJson.fields? fieldNames = some [
      some e.context.toJson, some e.engines.toJson, some (.bool e.isLibrary),
      some e.outputFormat.toJson, some (.bool e.shouldScopeHoist), some (.bool e.shouldOptimize),
      some (.bool e.singleFileOutput)] :=
    Json.fields?_zip [_, _, _, _, _, _, _] (by decide) rfl
  simp [ofJson?, fields, Context.ofJson?_toJson, Engines.ofJson?_toJson,
    OutputFormat.ofJson?_toJson]

theorem Target.optional?_path (o : Option Path) :
    Json.optional? pathOfJson? (some (.ofOption (fun p => .string p.text) o)) = some o :=
  (Json.optional?_ofOption rfl).2 fun _ _ => rfl

theorem Target.ofJson?_toJson (t : Target) : ofJson? t.toJson = some t := by
  have fields : t.toJson.fields? fieldNames = some [
      some (.string t.distDir.text), some (.ofOption (fun p => .string p.text) t.distEntry),
      some t.env.toJson, some (.string t.name), some (.string t.publicUrl)] :=
    Json.fields?_zip [_, _, _, _, _] (by decide) rfl
  have distDir : pathOfJson? (.string t.distDir.text) = some t.distDir := rfl
  simp [ofJson?, fields, distDir, optional?_path, Environment.ofJson?_toJson]

end Environments

section Flags

theorem FlagValue.ofJson?_toJson (value : FlagValue) : ofJson? value.toJson = some value := by
  cases value <;> rfl

/-- A map is made of its entries. -/
theorem KeyMap.ofList_entries {κ ν : Type} [KeyOrder κ] [DecidableEq κ] (m : KeyMap κ ν) :
    ofList m.entries = m := by
  apply ext
  intro k
  rw [get?_ofList_of_keyed m.get? fun e member => get?_eq_some_iff.2 member]
  split
  · rfl
  · rename_i absent
    cases found : m.get? k with
    | none => rfl
    | some v => exact absurd (mem_keys_iff.2 ⟨v, found⟩) absent

theorem FeatureFlags.ofJson?_toJson (flags : FeatureFlags) : ofJson? flags.toJson = some flags := by
  -- What is written is a map again, so that sorting its members changes nothing.
  have written : KeyMap.ofList (flags.values.entries.map fun e => (e.1, e.2.toJson)) =
      flags.values.map fun _ value => value.toJson :=
    KeyMap.ofList_entries (flags.values.map fun _ value => value.toJson)
  have read : (flags.values.entries.map fun e => (e.1, e.2.toJson)).mapM
      (fun e => (FlagValue.ofJson? e.2).map (Prod.mk e.1)) = some flags.values.entries :=
    Json.mapM_map_eq_some.2 fun e _ => by rw [FlagValue.ofJson?_toJson, Option.map_some]
  unfold ofJson? toJson
  simp only [written]
  simp only [KeyMap.map, read, Option.bind_eq_bind, Option.bind_some, KeyMap.ofList_entries]
  rfl

end Flags

section Diagnostics

/-- Both numbers are words of 64 bits. -/
def Location.Fits (l : Location) : Prop := l.line < 2 ^ 64 ∧ l.column < 2 ^ 64

/-- The places that a message points at. -/
def Diagnostic.locations (d : Diagnostic) : List Location :=
  (d.codeFrames.getD []).flatMap fun f => f.highlights.flatMap fun h => [h.start, h.stop]

theorem Location.ofJson?_toJson_iff (l : Location) : ofJson? l.toJson = some l ↔ l.Fits := by
  have fields : l.toJson.fields? ["line", "column"] = some [
      some (.natural l.line), some (.natural l.column)] :=
    Json.fields?_zip [_, _] (by decide) rfl
  obtain ⟨line, column⟩ := l
  simp [ofJson?, fields, Option.bind_eq_some_iff, Fits]

theorem CodeHighlight.ofJson?_toJson_iff (h : CodeHighlight) :
    ofJson? h.toJson = some h ↔ h.start.Fits ∧ h.stop.Fits := by
  have fields : h.toJson.fields? ["start", "end", "message"] = some [
      some h.start.toJson, some h.stop.toJson, some (.ofOption .string h.message)] :=
    Json.fields?_zip [_, _, _] (by decide) rfl
  obtain ⟨start, stop, message⟩ := h
  simp [ofJson?, fields, Option.bind_eq_some_iff, Location.ofJson?_toJson_iff, Json.optional?_text]

theorem CodeFrame.ofJson?_toJson_iff (f : CodeFrame) :
    ofJson? f.toJson = some f ↔ ∀ h ∈ f.highlights, h.start.Fits ∧ h.stop.Fits := by
  have fields : f.toJson.fields? ["code", "filePath", "codeHighlights"] = some [
      some (.ofOption .string f.code), some (.ofOption (fun p => .string p.text) f.filePath),
      some (.array (f.highlights.map CodeHighlight.toJson))] :=
    Json.fields?_zip [_, _, _] (by decide) rfl
  have filePath : Json.optional? Json.text?
      (some (.ofOption (fun p : Path => .string p.text) f.filePath)) =
        some (f.filePath.map Path.text) := by
    cases f.filePath <;> rfl
  have spelled : (f.filePath.map Path.text).map Path.mk = f.filePath := by
    cases f.filePath <;> rfl
  obtain ⟨code, path, highlights⟩ := f
  simp only [] at spelled
  simp [ofJson?, fields, Option.bind_eq_some_iff, filePath, spelled, Json.optional?_text,
    Json.list?_array, CodeHighlight.ofJson?_toJson_iff, -Option.map_map]

theorem Diagnostic.forall_mem_locations {d : Diagnostic} {holds : Location → Prop} :
    (∀ l ∈ d.locations, holds l) ↔ ∀ frames, d.codeFrames = some frames →
      ∀ f ∈ frames, ∀ h ∈ f.highlights, holds h.start ∧ holds h.stop := by
  unfold locations
  cases d.codeFrames with
  | none => simp
  | some frames => simp [List.forall_mem_flatMap, -List.mem_flatMap]

theorem Diagnostic.ofJson?_toJson_iff (d : Diagnostic) :
    ofJson? d.toJson = some d ↔ ∀ l ∈ d.locations, l.Fits := by
  have fields : d.toJson.fields? fieldNames = some [
      some (.string d.message), some (.ofOption .string d.origin), some (.ofOption .string d.name),
      some (.ofOption (fun fs => .array (fs.map CodeFrame.toJson)) d.codeFrames),
      some (.ofOption Json.strings d.hints), some (.ofOption .string d.documentationUrl)] :=
    Json.fields?_zip [_, _, _, _, _, _] (by decide) rfl
  have hints : Json.optional? (Json.list? Json.text?) (some (.ofOption Json.strings d.hints)) =
      some d.hints :=
    (Json.optional?_ofOption rfl).2 fun texts _ => Json.list?_strings texts
  have frames : Json.optional? (Json.list? CodeFrame.ofJson?)
      (some (.ofOption (fun fs => .array (fs.map CodeFrame.toJson)) d.codeFrames)) =
        some d.codeFrames ↔ ∀ l ∈ d.locations, l.Fits := by
    rw [Json.optional?_ofOption rfl, forall_mem_locations]
    simp only [Json.list?_array, CodeFrame.ofJson?_toJson_iff]
  rw [← frames]
  obtain ⟨message, origin, name, codeFrames, hintTexts, url⟩ := d
  simp [ofJson?, fields, Option.bind_eq_some_iff, Json.optional?_text, hints]

theorem Diagnostics.ofJson?_toJson_iff (ds : Diagnostics) :
    ofJson? ds.toJson = some ds ↔ ∀ d ∈ ds, ∀ l ∈ d.locations, l.Fits := by
  simp only [ofJson?, toJson, Json.list?_array, Diagnostic.ofJson?_toJson_iff]

end Diagnostics

section Assets

/-- Both numbers are words of 32 bits. -/
def Asset.Stats.Fits (s : Stats) : Prop := s.size < 2 ^ 32 ∧ s.time < 2 ^ 32

theorem Asset.Stats.ofJson?_toJson_iff (s : Stats) : ofJson? s.toJson = some s ↔ s.Fits := by
  have fields : s.toJson.fields? ["size", "time"] = some [
      some (.natural s.size), some (.natural s.time)] :=
    Json.fields?_zip [_, _] (by decide) rfl
  obtain ⟨size, time⟩ := s
  simp [ofJson?, fields, Option.bind_eq_some_iff, Fits]

theorem Asset.ofJson?_toJson_iff (a : Asset) :
    ofJson? a.toJson = some a ↔ (∃ ext, a.fileType = .ofExtension ext) ∧ a.stats.Fits := by
  have fields : a.toJson.leadingFields? fieldNames = some [
      some (.string a.id), some (.ofOption Behavior.toJson a.behavior), some a.env.toJson,
      some (.string a.filePath.text), some a.fileType.toJson, some a.stats.toJson,
      some (.ofOption .string a.uniqueKey), some (.bool a.sideEffects), some (.bool a.isSplittable),
      some (.bool a.isSource)] :=
    Json.leadingFields?_zip [_, _, _, _, _, _, _, _, _, _] (by decide) rfl
  have behavior : Json.optional? Behavior.ofJson? (some (.ofOption Behavior.toJson a.behavior)) =
      some a.behavior :=
    (Json.optional?_ofOption rfl).2 fun b _ => b.ofJson?_toJson
  rw [← FileType.ofJson?_toJson_iff, ← Stats.ofJson?_toJson_iff]
  obtain ⟨id, kind, env, ⟨path⟩, fileType, stats, uniqueKey, sideEffects, splittable, source⟩ := a
  simp [ofJson?, fields, Option.bind_eq_some_iff, behavior, Json.optional?_text,
    Environment.ofJson?_toJson]

end Assets

/-- Reading what is written for an environment, a target or feature flags gives them back, whatever
they hold. So it does for messages that point at places whose numbers are words of 64 bits, and for
assets whose numbers are words of 32 bits and whose file type is that of an extension, and for no
others. -/
theorem reading_reverses_writing (env : Environment) (target : Target) (flags : FeatureFlags)
    (messages : Diagnostics) (asset : Asset) :
    Environment.ofJson? env.toJson = some env ∧
      Target.ofJson? target.toJson = some target ∧
      FeatureFlags.ofJson? flags.toJson = some flags ∧
      (Diagnostics.ofJson? messages.toJson = some messages ↔
        ∀ d ∈ messages, ∀ l ∈ d.locations, l.Fits) ∧
      (Asset.ofJson? asset.toJson = some asset ↔
        (∃ ext, asset.fileType = .ofExtension ext) ∧ asset.stats.Fits) :=
  ⟨env.ofJson?_toJson, target.ofJson?_toJson, flags.ofJson?_toJson, messages.ofJson?_toJson_iff,
    asset.ofJson?_toJson_iff⟩

namespace BuildMode

/-- The name that a mode is read from. -/
def name : BuildMode → String
  | .development => "development"
  | .production => "production"
  | .other name => name

theorem ofName_name_of_ofName {text : String} {mode : BuildMode} (named : ofName text = mode) :
    ofName mode.name = mode := by
  subst named
  unfold ofName
  split
  · rfl
  · split
    · rfl
    · rename_i first second
      rw [name, if_neg first, if_neg second]

/-- A mode that can be read at all can be read from its name. -/
theorem exists_ofJson?_iff (mode : BuildMode) :
    (∃ v, ofJson? v = some mode) ↔ ofJson? (.string mode.name) = some mode := by
  constructor
  · rintro ⟨v, read⟩
    obtain ⟨text, _, named⟩ := Option.map_eq_some_iff.1 read
    exact congrArg some (ofName_name_of_ofName named)
  · intro read
    exact ⟨_, read⟩

/-- Development and production come back when they are read as they were written. A mode of another
name is refused, although it can be read from its name if it can be read at all. -/
theorem comes_back_iff_named (mode : BuildMode) :
    (ofJson? mode.toJson = some mode ↔ mode = .development ∨ mode = .production) ∧
      (ofJson? mode.toJson = none ↔ ∃ text, mode = .other text) ∧
      ((∃ v, ofJson? v = some mode) ↔ ofJson? (.string mode.name) = some mode) := by
  refine ⟨?_, ?_, exists_ofJson?_iff mode⟩
  · cases mode with
    | development => simp [toJson, ofJson?, ofName]
    | production => simp [toJson, ofJson?, ofName]
    | other text => simp [toJson, ofJson?, Json.text?]
  · cases mode with
    | development => simp [toJson, ofJson?]
    | production => simp [toJson, ofJson?]
    | other text => simp [toJson, ofJson?, Json.text?]

/-- A mode that was read from its name is lost once it is written. -/
theorem staging_lost :
    ofJson? (.string "staging") = some (.other "staging") ∧
      ofJson? (BuildMode.other "staging").toJson = none := by
  decide

end BuildMode

end CodeSplit

import CodeSplit.Glob
import Mathlib.Data.List.Forall2
import Mathlib.Tactic.SplitIfs

/-!
Runs of the pattern machine on patterns without `*`. Nothing sends such a run back to a byte of the
path, so it reads the path at most as fast as the pattern: `?` and literal bytes take one byte of
each, while classes, braces and escapes take more of the pattern. A pattern with one of these never
matches a path that is as long as itself.
-/
namespace CodeSplit.Glob

variable {glob path : Array UInt8} {d : Nat} {s : State}

/-- Every place in the path that the machine is at or may return to is `d` bytes or more before its
place in the pattern, and there is no wildcard to return to. -/
structure Lags (glob : Array UInt8) (d : Nat) (s : State) : Prop where
  inside : s.cursor.glob ≤ glob.size
  cursor : s.cursor.path + d ≤ s.cursor.glob
  longest : s.longest + d ≤ s.cursor.glob
  braces : ∀ c ∈ s.braces, c.path + d ≤ s.cursor.glob ∧ c.wild.path = 0
  bound : s.cursor.wild.path = 0

/-- A step goes on so, or ends without a match. -/
def Step.Lags (glob : Array UInt8) (d : Nat) : Step → Prop
  | .go s => Glob.Lags glob d s
  | .stop verdict => verdict ≠ .matched

theorem Lags.weaken (lags : Lags glob (d + 1) s) : Lags glob d s where
  inside := lags.inside
  cursor := Nat.le_of_succ_le lags.cursor
  longest := Nat.le_of_succ_le lags.longest
  braces c member := (lags.braces c member).imp_left Nat.le_of_succ_le
  bound := lags.bound

theorem Step.Lags.weaken {step : Step} (lags : step.Lags glob (d + 1)) : step.Lags glob d := by
  cases step with
  | go s => exact Glob.Lags.weaken lags
  | stop verdict => exact lags

/-- Passing over a part of the pattern. -/
theorem Lags.skip (lags : Lags glob d s) (n : Nat) {i : Nat} (forward : s.cursor.glob + n ≤ i)
    (inside : i ≤ glob.size) :
    Lags glob (d + n) { s with cursor := { s.cursor with glob := i } } where
  inside := inside
  cursor := by
    have := lags.cursor
    simp only
    omega
  longest := by
    have := lags.longest
    simp only
    omega
  braces c member := by
    have := lags.braces c member
    exact ⟨by simp only; omega, this.2⟩
  bound := lags.bound

theorem Lags.take (lags : Lags glob (d + 1) s) :
    Lags glob d { s with cursor := { s.cursor with path := s.cursor.path + 1 } } where
  inside := lags.inside
  cursor := by
    have := lags.cursor
    simp only
    omega
  longest := Nat.le_of_succ_le lags.longest
  braces c member := (lags.braces c member).imp_left Nat.le_of_succ_le
  bound := lags.bound

/-- Taking a byte of the pattern and of the path. -/
theorem Lags.advance (lags : Lags glob d s) (inside : s.cursor.glob < glob.size) (star : Mark) :
    Lags glob d { s with cursor :=
      { s.cursor with glob := s.cursor.glob + 1, path := s.cursor.path + 1, star } } :=
  have next := (lags.skip 1 (Nat.le_refl _) inside).take
  ⟨next.inside, next.cursor, next.longest, next.braces, next.bound⟩

theorem glob_leaveBraces (s : State) : (leaveBraces s).cursor.glob = s.cursor.glob := by
  rw [leaveBraces]
  split <;> rfl

theorem Lags.leaveBraces (lags : Lags glob d s) : Lags glob d (leaveBraces s) := by
  rw [Glob.leaveBraces]
  split
  · exact lags
  · rename_i top rest opened
    refine ⟨lags.inside, lags.longest, ?_, ?_, ?_⟩
    · have := lags.longest
      simp only
      split_ifs <;> omega
    · intro c member
      exact lags.braces c (opened ▸ List.mem_cons_of_mem _ member)
    · exact (lags.braces top (opened ▸ List.mem_cons_self)).2

theorem lt_size_of_getElem? {i : Nat} {b : UInt8} (read : glob[i]? = some b) : i < glob.size :=
  (Array.getElem?_eq_some_iff.1 read).1

/-- Behind braces or a comma the machine is further in the pattern. -/
theorem skipBraces_spec {stop : Bool} {fuel i depth : Nat} {inClass : Bool} {skip : Skip} {j : Nat}
    (plain : ∀ b ∈ glob, b ≠ code '*') (inside : depth = 0 → i ≤ glob.size)
    (result : skipBraces glob stop fuel i depth inClass = (skip, j)) :
    skip = .malformed ∨ i ≤ j ∧ j ≤ glob.size := by
  induction fuel generalizing i depth inClass with
  | zero =>
    cases result
    exact .inl rfl
  | succ fuel ih =>
    rw [skipBraces] at result
    by_cases closed : depth = 0
    · rw [if_pos closed] at result
      cases result
      exact .inr ⟨Nat.le_refl _, inside closed⟩
    rw [if_neg closed] at result
    cases read : glob[i]? with
    | none =>
      rw [read] at result
      cases result
      exact .inl rfl
    | some c =>
      have small := lt_size_of_getElem? read
      have further {k depth : Nat} {inClass : Bool} (forward : i ≤ k)
          (inside : depth = 0 → k ≤ glob.size)
          (result : skipBraces glob stop fuel k depth inClass = (skip, j)) :
          skip = .malformed ∨ i ≤ j ∧ j ≤ glob.size :=
        (ih inside result).imp_right (And.imp_left (Nat.le_trans forward))
      have noStar : c ≠ code '*' := plain c (Array.mem_of_getElem? read)
      simp only [read, noStar, decide_false, Bool.false_and, Bool.false_eq_true, if_false] at result
      split_ifs at result
      · exact further (Nat.le_succ i) (fun _ => small) result
      · exact further (Nat.le_succ i) (fun _ => small) result
      · cases result
        exact .inr ⟨Nat.le_succ i, small⟩
      · exact further (Nat.le_succ i) (fun _ => small) result
      · exact further (Nat.le_succ i) (fun _ => small) result
      · exact further (Nat.le_add_right i 2) (fun none => absurd none closed) result
      · exact further (Nat.le_succ i) (fun _ => small) result

theorem retreat_lags (plain : ∀ b ∈ glob, b ≠ code '*') (lags : Lags glob d s) :
    (retreat glob path s).Lags glob d := by
  have stays (c : Cursor) (bound : c.wild.path = 0) : canReturn path c = false := by
    simp [canReturn, bound]
  obtain ⟨cursor, braces, longest⟩ := s
  rw [retreat, stays _ lags.bound, if_neg Bool.false_ne_true]
  cases braces with
  | nil => exact Verdict.noConfusion
  | cons top rest =>
    have first := lags.braces top List.mem_cons_self
    have spec {skip : Skip} {i : Nat} (result : skipFrom glob true cursor.glob = (skip, i)) :=
      skipBraces_spec plain (fun _ => lags.inside) result
    simp only
    split
    · exact Verdict.noConfusion
    · rename_i i result
      obtain malformed | ⟨forward, inside⟩ := spec result
      · cases malformed
      · have skipped := lags.skip 0 forward inside
        exact ⟨inside, Nat.le_trans first.1 forward, skipped.longest, skipped.braces, lags.bound⟩
    · rename_i i result
      obtain malformed | ⟨forward, inside⟩ := spec result
      · cases malformed
      · rw [stays _ first.2, if_neg Bool.false_ne_true]
        split_ifs
        · exact (lags.skip 0 forward inside).leaveBraces
        · exact Verdict.noConfusion

theorem unescape?_spec {i j : Nat} {b : UInt8} (read : unescape? glob i = some (b, j)) :
    i ≤ j ∧ j < glob.size ∧ (glob[i]? = some (code '\\') → i < j) := by
  rw [unescape?] at read
  split at read
  · cases read
  · rename_i c first
    split_ifs at read with escape
    · split at read
      · cases read
      · rename_i e second
        cases read
        exact ⟨Nat.le_succ i, lt_size_of_getElem? second, fun _ => Nat.lt_succ_self i⟩
    · cases read
      refine ⟨Nat.le_refl i, lt_size_of_getElem? first, fun isEscape => ?_⟩
      rw [first] at isEscape
      exact absurd (Option.some.inj isEscape) escape

theorem classMembers?_spec {ch : UInt8} {fuel i j : Nat} {first found result : Bool}
    (read : classMembers? glob ch fuel i first found = some (result, j)) :
    i ≤ j ∧ j < glob.size := by
  induction fuel generalizing i first found with
  | zero => cases read
  | succ fuel ih =>
    rw [classMembers?] at read
    split at read
    · cases read
    · rename_i c here
      split_ifs at read with ends
      · cases read
        exact ⟨Nat.le_refl _, lt_size_of_getElem? here⟩
      · split at read
        · cases read
        · rename_i low last member
          have past := unescape?_spec member
          have further {k : Nat} {found : Bool} (forward : last < k)
              (read : classMembers? glob ch fuel k false found = some (result, j)) :
              i ≤ j ∧ j < glob.size :=
            (ih read).imp_left fun after => by omega
          simp only at read
          split_ifs at read
          · split at read
            · cases read
            · rename_i high end_ range
              have pastRange := unescape?_spec range
              exact further (by omega) read
          · exact further (Nat.lt_succ_self last) read

/-- A class takes its brackets besides a byte. -/
theorem stepClass_lags (plain : ∀ b ∈ glob, b ≠ code '*') (lags : Lags glob d s) (ch : UInt8) :
    (stepClass glob path s ch).Lags glob (d + 1) := by
  rw [stepClass]
  simp only
  split
  · exact Verdict.noConfusion
  · rename_i found last read
    have spec := classMembers?_spec read
    have forward : s.cursor.glob + 2 ≤ last + 1 := by
      split_ifs at spec <;> omega
    split_ifs
    · exact (lags.skip 2 forward spec.2).take
    · exact retreat_lags plain (lags.skip 1 (Nat.le_of_succ_le forward) spec.2)

/-- A literal byte that is read `n` bytes later in the pattern. -/
theorem stepLiteral_lags (plain : ∀ b ∈ glob, b ≠ code '*') (lags : Lags glob d s) (ch : UInt8)
    {n : Nat} (later : ∀ b i, unescape? glob s.cursor.glob = some (b, i) → s.cursor.glob + n ≤ i) :
    (stepLiteral glob path s ch).Lags glob (d + n) := by
  rw [stepLiteral]
  split
  · exact Verdict.noConfusion
  · rename_i expected i read
    have small := (unescape?_spec read).2.1
    have skipped := lags.skip n (later _ _ read) (Nat.le_of_lt small)
    have closed : Lags glob (d + n) (leaveBraces { s with
        cursor := { s.cursor with glob := i }, longest := s.cursor.path }) :=
      Lags.leaveBraces
        ⟨skipped.inside, skipped.cursor, skipped.cursor, skipped.braces, skipped.bound⟩
    have closedSmall := lt_of_eq_of_lt (glob_leaveBraces { s with
      cursor := { s.cursor with glob := i }, longest := s.cursor.path }) small
    simp only
    split_ifs
    · exact closed.advance closedSmall _
    · exact closed.advance closedSmall _
    · exact skipped.advance small _
    · exact skipped.advance small _
    · exact retreat_lags plain skipped

/-- Opening braces takes a byte of the pattern only. -/
theorem Lags.enterBraces (lags : Lags glob d s) (inside : s.cursor.glob < glob.size) :
    Lags glob (d + 1) { s with
      cursor := { glob := s.cursor.glob + 1, path := s.cursor.path }
      braces := s.cursor :: s.braces } := by
  have skipped := lags.skip 1 (Nat.le_refl _) inside
  refine ⟨skipped.inside, skipped.cursor, skipped.longest, ?_, rfl⟩
  intro c member
  rcases List.mem_cons.1 member with rfl | member
  · exact ⟨skipped.cursor, lags.bound⟩
  · exact skipped.braces c member

theorem Lags.closeBraces (lags : Lags glob d s) (inside : s.cursor.glob < glob.size) :
    Lags glob d (Glob.leaveBraces { s with
      cursor := { s.cursor with glob := s.cursor.glob + 1 }
      longest := max s.longest s.cursor.path }) := by
  have skipped := (lags.skip 1 (Nat.le_refl _) inside).weaken
  apply Lags.leaveBraces
  refine ⟨skipped.inside, skipped.cursor, ?_, skipped.braces, skipped.bound⟩
  have := skipped.cursor
  have := skipped.longest
  simp only at *
  omega

/-- The next alternative starts where the braces were opened. -/
theorem Lags.nextAlternative (lags : Lags glob d s) (inside : s.cursor.glob < glob.size) :
    Lags glob d { s with
      cursor := { glob := s.cursor.glob + 1, path := (s.braces.head?.map Cursor.path).getD 0 }
      longest := max s.longest s.cursor.path } := by
  have skipped := (lags.skip 1 (Nat.le_refl _) inside).weaken
  have := skipped.cursor
  have := skipped.longest
  refine ⟨skipped.inside, ?_, ?_, skipped.braces, rfl⟩
  · cases opened : s.braces with
    | nil =>
      simp only [List.head?_nil, Option.map_none, Option.getD_none] at *
      omega
    | cons top rest => exact (skipped.braces top (opened ▸ List.mem_cons_self)).1
  · simp only at *
    omega

/-- The bytes that begin a class, braces or an escape. -/
def Wide (g : UInt8) : Prop := g = code '[' ∨ g = code '\x7b' ∨ g = code '\\'

/-- Classes, braces and escapes put the path back. -/
theorem step_gains (plain : ∀ b ∈ glob, b ≠ code '*') (lags : Lags glob d s) {g ch : UInt8}
    (here : glob[s.cursor.glob]? = some g) (there : path[s.cursor.path]? = some ch)
    (wide : Wide g) : (step glob path s).Lags glob (d + 1) := by
  have small := lt_size_of_getElem? here
  rw [step]
  simp only [here, there]
  rcases wide with rfl | rfl | rfl
  · exact stepClass_lags plain lags ch
  · rw [if_neg (by decide), if_neg (by simp [code]), if_neg (by simp [code]), if_neg (by decide),
      if_neg (by decide), if_pos rfl]
    split_ifs
    · exact Verdict.noConfusion
    · exact lags.enterBraces small
  · apply stepLiteral_lags plain lags
    intro b i read
    exact (unescape?_spec read).2.2 here

/-- In a path that is not shorter than the pattern, what lags behind stays behind. -/
theorem step_lags (plain : ∀ b ∈ glob, b ≠ code '*') (long : glob.size ≤ path.size)
    (behind : 0 < d) (lags : Lags glob d s) : (step glob path s).Lags glob d := by
  rw [step]
  cases here : glob[s.cursor.glob]? with
  | none =>
    cases there : path[s.cursor.path]? with
    | none =>
      have := lags.cursor
      have := lags.inside
      have := Array.getElem?_eq_none_iff.1 there
      omega
    | some ch => exact retreat_lags plain lags
  | some g =>
    have small := lt_size_of_getElem? here
    have noStar : g ≠ code '*' := plain g (Array.mem_of_getElem? here)
    simp only [if_neg noStar]
    by_cases closing : (decide (g = code '\x7d') && !s.braces.isEmpty) = true
    · rw [if_pos closing]
      exact lags.closeBraces small
    by_cases comma : (decide (g = code ',') && !s.braces.isEmpty) = true
    · rw [if_neg closing, if_pos comma]
      exact lags.nextAlternative small
    rw [if_neg closing, if_neg comma]
    cases there : path[s.cursor.path]? with
    | none => exact retreat_lags plain lags
    | some ch =>
      simp only
      split_ifs
      · exact retreat_lags plain lags
      · exact lags.advance small _
      · exact (stepClass_lags plain lags ch).weaken
      · exact Verdict.noConfusion
      · exact (lags.enterBraces small).weaken
      · exact stepLiteral_lags plain lags ch (n := 0) fun b i read => (unescape?_spec read).1

theorem run_lags (plain : ∀ b ∈ glob, b ≠ code '*') (long : glob.size ≤ path.size)
    (behind : 0 < d) (lags : Lags glob d s) (fuel : Nat) : run glob path fuel s ≠ .matched := by
  induction fuel generalizing s with
  | zero => exact Verdict.noConfusion
  | succ fuel ih =>
    have next := step_lags plain long behind lags
    rw [run]
    cases taken : step glob path s with
    | go s =>
      rw [taken] at next
      exact ih next
    | stop verdict =>
      rw [taken] at next
      exact next

/-- At the same place in the pattern and in the path, with nothing behind. -/
def together (k : Nat) : State := { cursor := { glob := k, path := k } }

/-- A byte of the path fits a byte of the pattern that is no beginning of anything longer. -/
def Fits (g ch : UInt8) : Prop := g = ch ∨ g = code '?' ∧ ch ≠ code '/'

theorem step_together {k : Nat} {g ch : UInt8} (here : glob[k]? = some g)
    (there : path[k]? = some ch) (noStar : g ≠ code '*') (narrow : ¬ Wide g) :
    Fits g ch ∧ step glob path (together k) = .go (together (k + 1)) ∨
      ¬ Fits g ch ∧ step glob path (together k) = .stop .mismatched := by
  simp only [Wide, not_or] at narrow
  have plain : unescape? glob k = some (g, k) := by
    rw [unescape?, here]
    exact if_neg narrow.2.2
  have literal : stepLiteral glob path (together k) ch =
      if ch = g then .go (together (k + 1)) else .stop .mismatched := by
    simp only [stepLiteral, together, plain, List.isEmpty_nil, Bool.not_true, Bool.false_and,
      Bool.false_eq_true, if_false]
    split_ifs <;> rfl
  have taken : step glob path (together k) =
      if g = code '?' then if ch = code '/' then .stop .mismatched else .go (together (k + 1))
      else if ch = g then .go (together (k + 1)) else .stop .mismatched := by
    rw [← literal, step]
    simp only [together, here, there, if_neg noStar, if_neg narrow.1, if_neg narrow.2.1,
      List.isEmpty_nil, Bool.not_true, Bool.and_false, Bool.false_eq_true, if_false]
    rfl
  rw [taken]
  split_ifs with any separator same
  · right
    refine ⟨?_, rfl⟩
    rintro (same | ⟨_, other⟩)
    · rw [any, separator] at same
      exact absurd same (by decide)
    · exact other separator
  · exact .inl ⟨.inr ⟨any, separator⟩, rfl⟩
  · exact .inl ⟨.inl same.symm, rfl⟩
  · right
    refine ⟨?_, rfl⟩
    rintro (other | ⟨other, _⟩)
    · exact same other.symm
    · exact any other

theorem drop_of_getElem? {k : Nat} {b : UInt8} (read : path[k]? = some b) :
    path.toList.drop k = b :: path.toList.drop (k + 1) := by
  obtain ⟨inside, rfl⟩ := Array.getElem?_eq_some_iff.1 read
  exact List.drop_eq_getElem_cons inside

theorem drop_of_getElem?_none {k : Nat} (read : path[k]? = none) : path.toList.drop k = [] :=
  List.drop_eq_nil_of_le (Array.getElem?_eq_none_iff.1 read)

/-- Without wide bytes the machine compares byte by byte. -/
theorem run_together {fuel k : Nat} (narrow : ∀ b ∈ glob, b ≠ code '*' ∧ ¬ Wide b)
    (inside : k ≤ glob.size) (enough : glob.size < fuel + k) :
    run glob path fuel (together k) = .matched ↔
      List.Forall₂ Fits (glob.toList.drop k) (path.toList.drop k) := by
  induction fuel generalizing k with
  | zero => omega
  | succ fuel ih =>
    rw [run]
    cases here : glob[k]? with
    | none =>
      rw [drop_of_getElem?_none here, List.forall₂_nil_left_iff]
      cases there : path[k]? with
      | none =>
        have taken : step glob path (together k) = .stop .matched := by
          simp [step, together, here, there]
        simp [taken, drop_of_getElem?_none there]
      | some ch =>
        have taken : step glob path (together k) = .stop .mismatched := by
          simp only [step, together, here, there]
          rfl
        simp [taken, drop_of_getElem? there]
    | some g =>
      have small := lt_size_of_getElem? here
      obtain ⟨noStar, notWide⟩ := narrow g (Array.mem_of_getElem? here)
      rw [drop_of_getElem? here]
      cases there : path[k]? with
      | none =>
        have taken : step glob path (together k) = .stop .mismatched := by
          simp only [step, together, here, there, if_neg noStar, List.isEmpty_nil, Bool.not_true,
            Bool.and_false, Bool.false_eq_true, if_false]
          rfl
        simp [taken, drop_of_getElem?_none there]
      | some ch =>
        rw [drop_of_getElem? there, List.forall₂_cons]
        rcases step_together here there noStar notWide with ⟨fits, taken⟩ | ⟨misfits, taken⟩
        · simp only [taken, fits, true_and]
          exact ih small (by omega)
        · simp [taken, misfits]

/-- A pattern with a wide byte does not match a path of its own length. -/
theorem run_together_ne_matched {fuel k i : Nat} {g : UInt8}
    (plain : ∀ b ∈ glob, b ≠ code '*') (long : glob.size ≤ path.size) (ahead : k ≤ i)
    (read : glob[i]? = some g) (wide : Wide g) :
    run glob path fuel (together k) ≠ .matched := by
  induction fuel generalizing k with
  | zero => exact Verdict.noConfusion
  | succ fuel ih =>
    have inside := lt_size_of_getElem? read
    obtain ⟨b, here⟩ : ∃ b, glob[k]? = some b := ⟨_, Array.getElem?_eq_getElem (by omega)⟩
    obtain ⟨ch, there⟩ : ∃ ch, path[k]? = some ch := ⟨_, Array.getElem?_eq_getElem (by omega)⟩
    have lags : Lags glob 0 (together k) := ⟨by simp [together]; omega, Nat.le_refl k,
      Nat.zero_le k, fun c member => absurd member List.not_mem_nil, rfl⟩
    rw [run]
    by_cases wideHere : Wide b
    · have next := step_gains plain lags here there wideHere
      cases taken : step glob path (together k) with
      | go s =>
        rw [taken] at next
        exact run_lags plain long Nat.one_pos next fuel
      | stop verdict =>
        rw [taken] at next
        exact next
    · have later : k ≠ i := by
        rintro rfl
        rw [here] at read
        exact wideHere (Option.some.inj read ▸ wide)
      rcases step_together here there (plain b (Array.mem_of_getElem? here)) wideHere with
        ⟨_, taken⟩ | ⟨_, taken⟩
      · rw [taken]
        exact ih (by omega)
      · rw [taken]
        exact Verdict.noConfusion

theorem size_lt_stateCount (glob path : Array UInt8) : glob.size < stateCount glob path := by
  have bound : glob.size < (glob.size + 4) * (path.size + 4) :=
    Nat.lt_of_lt_of_le (by omega) (Nat.le_mul_of_pos_right (glob.size + 4) (by omega))
  exact Nat.lt_of_lt_of_le bound (Nat.le_self_pow (by decide) _)

end CodeSplit.Glob

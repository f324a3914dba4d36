import CodeSplit.Report

/-!
Taking apart computations that gave a result: the parts gave results too. A fold that succeeded
keeps whatever each of its steps keeps.
-/
namespace CodeSplit

variable {α β σ : Type}

theorem bind_eq_ok_iff {x : Except Fault α} {next : α → Except Fault β} {b : β} :
    (x >>= next) = .ok b ↔ ∃ a, x = .ok a ∧ next a = .ok b := by
  cases x with
  | error e => simp [bind, Except.bind]
  | ok a => simp [bind, Except.bind]

theorem bind_eq_error_iff {x : Except Fault α} {next : α → Except Fault β} {fault : Fault} :
    x >>= next = .error fault ↔
      x = .error fault ∨ ∃ a, x = .ok a ∧ next a = .error fault := by
  cases x with
  | error e => simp [bind, Except.bind]
  | ok a => simp [bind, Except.bind]

theorem exists_bind_ok {x : Except Fault α} {next : α → Except Fault β} (first : ∃ a, x = .ok a)
    (rest : ∀ a, x = .ok a → ∃ b, next a = .ok b) : ∃ b, x >>= next = .ok b := by
  obtain ⟨a, isOk⟩ := first
  obtain ⟨b, result⟩ := rest a isOk
  exact ⟨b, bind_eq_ok_iff.2 ⟨a, isOk, result⟩⟩

theorem map_eq_ok_iff {x : Except Fault α} {f : α → β} {b : β} :
    f <$> x = .ok b ↔ ∃ a, x = .ok a ∧ f a = b := by
  cases x with
  | error e => simp [Functor.map, Except.map]
  | ok a => simp [Functor.map, Except.map]

theorem mem_toOption_iff {x : Except Fault α} {a : α} : a ∈ x.toOption ↔ x = .ok a := by
  cases x with
  | error e => simp [Except.toOption]
  | ok b => simp [Except.toOption]

theorem mapM_congr {m : Type → Type} [Monad m] {f g : α → m β} {xs : List α}
    (same : ∀ x ∈ xs, f x = g x) : xs.mapM f = xs.mapM g := by
  have loops : ∀ done, List.mapM.loop f xs done = List.mapM.loop g xs done := by
    induction xs with
    | nil =>
      intro done
      rfl
    | cons x xs ih =>
      intro done
      have rest := ih fun y member => same y (List.mem_cons_of_mem _ member)
      simp only [List.mapM.loop, same x List.mem_cons_self, rest]
  exact loops []

theorem exists_mapM_ok {f : α → Except Fault β} {xs : List α}
    (each : ∀ x ∈ xs, ∃ y, f x = .ok y) : ∃ ys, xs.mapM f = .ok ys := by
  induction xs with
  | nil => exact ⟨[], rfl⟩
  | cons x xs ih =>
    obtain ⟨y, first⟩ := each x List.mem_cons_self
    obtain ⟨ys, rest⟩ := ih fun z member => each z (List.mem_cons_of_mem _ member)
    exact ⟨y :: ys, by simp [List.mapM_cons, first, rest, bind, Except.bind, pure, Except.pure]⟩

theorem mapM_eq_ok {f : α → Except Fault β} {xs : List α} {g : α → β}
    (each : ∀ x ∈ xs, f x = .ok (g x)) : xs.mapM f = .ok (xs.map g) := by
  induction xs with
  | nil => rfl
  | cons x xs ih =>
    have rest := ih fun y member => each y (List.mem_cons_of_mem _ member)
    simp [List.mapM_cons, each x List.mem_cons_self, rest, bind, Except.bind, pure, Except.pure]

theorem exists_of_mem_mapM {f : α → Except Fault β} {xs : List α} {ys : List β}
    (success : xs.mapM f = .ok ys) {x : α} (member : x ∈ xs) : ∃ y ∈ ys, f x = .ok y := by
  induction xs generalizing ys with
  | nil => cases member
  | cons z xs ih =>
    rw [List.mapM_cons] at success
    obtain ⟨y, first, success⟩ := bind_eq_ok_iff.1 success
    obtain ⟨rest, others, success⟩ := bind_eq_ok_iff.1 success
    cases success
    rcases List.mem_cons.1 member with rfl | member
    · exact ⟨y, List.mem_cons_self, first⟩
    · obtain ⟨w, listed, found⟩ := ih others member
      exact ⟨w, List.mem_cons_of_mem _ listed, found⟩

theorem exists_of_mem_result {f : α → Except Fault β} {xs : List α} {ys : List β}
    (success : xs.mapM f = .ok ys) {y : β} (member : y ∈ ys) : ∃ x ∈ xs, f x = .ok y := by
  induction xs generalizing ys with
  | nil =>
    cases success
    cases member
  | cons z xs ih =>
    rw [List.mapM_cons] at success
    obtain ⟨w, first, success⟩ := bind_eq_ok_iff.1 success
    obtain ⟨rest, others, success⟩ := bind_eq_ok_iff.1 success
    cases success
    rcases List.mem_cons.1 member with rfl | member
    · exact ⟨z, List.mem_cons_self, first⟩
    · obtain ⟨x, listed, found⟩ := ih others member
      exact ⟨x, List.mem_cons_of_mem _ listed, found⟩

/-- Results come in the order of what they are results of. -/
theorem pairwise_of_mapM {f : α → Except Fault β} {xs : List α} {ys : List β}
    {earlier : α → α → Prop} {result : β → β → Prop} (success : xs.mapM f = .ok ys)
    (ordered : xs.Pairwise earlier)
    (keeps : ∀ a b c d, earlier a b → f a = .ok c → f b = .ok d → result c d) :
    ys.Pairwise result := by
  induction xs generalizing ys with
  | nil =>
    cases success
    exact .nil
  | cons x xs ih =>
    rw [List.mapM_cons] at success
    obtain ⟨y, first, success⟩ := bind_eq_ok_iff.1 success
    obtain ⟨rest, others, success⟩ := bind_eq_ok_iff.1 success
    cases success
    obtain ⟨before, ordered⟩ := List.pairwise_cons.1 ordered
    refine List.pairwise_cons.2 ⟨?_, ih others ordered⟩
    intro z listed
    obtain ⟨w, isLater, made⟩ := exists_of_mem_result others listed
    exact keeps x w y z (before w isLater) first made

theorem exists_of_mapM_error {f : α → Except Fault β} {xs : List α} {fault : Fault}
    (failed : xs.mapM f = .error fault) : ∃ x ∈ xs, f x = .error fault := by
  induction xs with
  | nil => cases failed
  | cons x xs ih =>
    rw [List.mapM_cons] at failed
    rcases bind_eq_error_iff.1 failed with first | ⟨y, _, failed⟩
    · exact ⟨x, List.mem_cons_self, first⟩
    · rcases bind_eq_error_iff.1 failed with rest | ⟨ys, _, done⟩
      · obtain ⟨z, listed, faulty⟩ := ih rest
        exact ⟨z, List.mem_cons_of_mem _ listed, faulty⟩
      · cases done

/-- What holds of the elements still to come and of the state, and is kept by every step, holds at
the end with nothing to come. -/
theorem foldlM_ok_induction {f : σ → α → Except Fault σ} (motive : List α → σ → Prop)
    (step : ∀ a rest s s', motive (a :: rest) s → f s a = .ok s' → motive rest s')
    {xs : List α} {s final : σ} (start : motive xs s) (success : xs.foldlM f s = .ok final) :
    motive [] final := by
  induction xs generalizing s with
  | nil =>
    cases success
    exact start
  | cons x xs ih =>
    rw [List.foldlM_cons] at success
    obtain ⟨s', first, rest⟩ := bind_eq_ok_iff.1 success
    exact ih (step x xs s s' start first) rest

/-- What a step brings about for its element, and every step keeps, holds of all elements. -/
theorem foldlM_ok_each {f : σ → α → Except Fault σ} (done : α → σ → Prop)
    (step : ∀ a s s', f s a = .ok s' → done a s' ∧ ∀ b, done b s → done b s')
    {xs : List α} {s final : σ} (success : xs.foldlM f s = .ok final) : ∀ a ∈ xs, done a final := by
  have all : ∀ a ∈ xs, a ∈ ([] : List α) ∨ done a final := by
    refine foldlM_ok_induction (fun rest s => ∀ a ∈ xs, a ∈ rest ∨ done a s) ?_
      (fun a member => .inl member) success
    intro a rest s s' invariant taken b member
    obtain ⟨now, keeps⟩ := step a s s' taken
    rcases invariant b member with waiting | finished
    · rcases List.mem_cons.1 waiting with rfl | waiting
      · exact .inr now
      · exact .inl waiting
    · exact .inr (keeps b finished)
  exact fun a member => (all a member).resolve_left List.not_mem_nil

/-- A fold whose steps succeed, and keep what the steps after them need, succeeds. -/
theorem exists_foldlM_ok_keeping {f : σ → α → Except Fault σ} (motive : σ → Prop) {xs : List α}
    (each : ∀ s, motive s → ∀ x ∈ xs, ∃ s', f s x = .ok s' ∧ motive s') {s : σ}
    (start : motive s) : ∃ final, xs.foldlM f s = .ok final ∧ motive final := by
  induction xs generalizing s with
  | nil => exact ⟨s, rfl, start⟩
  | cons x xs ih =>
    obtain ⟨s', first, kept⟩ := each s start x List.mem_cons_self
    obtain ⟨final, rest, last⟩ :=
      ih (fun s holds y member => each s holds y (List.mem_cons_of_mem _ member)) kept
    exact ⟨final, by rw [List.foldlM_cons, bind_eq_ok_iff]; exact ⟨s', first, rest⟩, last⟩

/-- A fold whose steps succeed in every state succeeds. -/
theorem exists_foldlM_ok {f : σ → α → Except Fault σ} {xs : List α}
    (each : ∀ s, ∀ x ∈ xs, ∃ s', f s x = .ok s') (s : σ) : ∃ final, xs.foldlM f s = .ok final := by
  obtain ⟨final, success, _⟩ := exists_foldlM_ok_keeping (fun _ => True)
    (fun s _ x member => (each s x member).imp fun _ step => ⟨step, trivial⟩) trivial
  exact ⟨final, success⟩

namespace Report

@[simp] theorem result_pure (a : α) : (pure a : Report α).result = .ok a := rfl

@[simp] theorem result_ofExcept (x : Except Fault α) : (ofExcept x).result = x := rfl

@[simp] theorem result_decide (phase : Phase) (kinds : List Decision.Kind) :
    (Report.decide phase kinds).result = .ok () := rfl

@[simp] theorem result_event (e : Event) : (Report.event e).result = .ok () := rfl

/-- The result of a bind is the bind of the results. -/
theorem result_bind (r : Report α) (next : α → Report β) :
    (r >>= next).result = r.result >>= fun a => (next a).result := by
  rw [bind_eq]
  cases r.result with
  | ok a => rfl
  | error e => rfl

/-- A bind has a result if both parts have. -/
theorem exists_result_bind {r : Report α} {next : α → Report β} (first : ∃ a, r.result = .ok a)
    (rest : ∀ a, r.result = .ok a → ∃ b, (next a).result = .ok b) :
    ∃ b, (r >>= next).result = .ok b := by
  obtain ⟨a, isOk⟩ := first
  obtain ⟨b, result⟩ := rest a isOk
  exact ⟨b, result_bind_eq_ok.2 ⟨a, isOk, result⟩⟩

/-- A bind fails where its first part does, or its second one. -/
theorem result_bind_eq_error {r : Report α} {next : α → Report β} {fault : Fault} :
    (r >>= next).result = .error fault ↔
      r.result = .error fault ∨ ∃ a, r.result = .ok a ∧ (next a).result = .error fault := by
  rw [bind_eq]
  cases found : r.result with
  | ok a => simp
  | error e => simp

theorem result_mapFault {f : Fault → Fault} {r : Report α} {a : α} :
    (r.mapFault f).result = .ok a ↔ r.result = .ok a := by
  unfold mapFault
  cases r.result with
  | ok b => rfl
  | error e => simp

/-- The results of computations that take notes, one for each element. -/
theorem result_mapM (f : α → Report β) (xs : List α) :
    (xs.mapM f).result = xs.mapM fun a => (f a).result := by
  have loops : ∀ done, (List.mapM.loop f xs done).result =
      List.mapM.loop (fun a => (f a).result) xs done := by
    induction xs with
    | nil =>
      intro done
      rfl
    | cons x xs ih =>
      intro done
      simp only [List.mapM.loop, bind_eq]
      cases found : (f x).result with
      | error e => rfl
      | ok b => exact ih (b :: done)
  exact loops []

/-- The result of a fold that takes notes is the fold of the results. -/
theorem result_foldlM (f : σ → α → Report σ) (xs : List α) (s : σ) :
    (xs.foldlM f s).result = xs.foldlM (fun s a => (f s a).result) s := by
  induction xs generalizing s with
  | nil => rfl
  | cons x xs ih =>
    rw [List.foldlM_cons, List.foldlM_cons, bind_eq]
    cases found : (f s x).result with
    | error e => rfl
    | ok s' => exact ih s'

end Report

end CodeSplit

import Mathlib.Data.List.Forall2

/-! # Steps that succeed

A chain of steps succeeds when each of them does. -/

namespace QuayTimeline

variable {ε α β : Type}

@[simp] theorem ok_bind (value : α) (next : α → Except ε β) :
    Except.ok value >>= next = next value := rfl

theorem bind_eq_ok_iff {step : Except ε α} {next : α → Except ε β} {result : β} :
    step >>= next = .ok result ↔ ∃ value, step = .ok value ∧ next value = .ok result := by
  cases step with
  | error e => exact ⟨fun same => (nomatch same), fun ⟨_, same, _⟩ => (nomatch same)⟩
  | ok value => exact ⟨fun same => ⟨value, rfl, same⟩, fun ⟨_, rfl, same⟩ => same⟩

theorem bind_eq_error_iff {step : Except ε α} {next : α → Except ε β} {error : ε} :
    step >>= next = .error error ↔
      step = .error error ∨ ∃ value, step = .ok value ∧ next value = .error error := by
  cases step with
  | error e => exact ⟨fun same => .inl (congrArg _ (Except.error.inj same)),
      fun failed => failed.elim (fun same => congrArg _ (Except.error.inj same))
        fun ⟨_, same, _⟩ => (nomatch same)⟩
  | ok value => exact ⟨fun same => .inr ⟨value, rfl, same⟩,
      fun failed => failed.elim (fun same => (nomatch same)) fun ⟨_, same, failed⟩ => by
        cases same
        exact failed⟩

theorem mapError_eq_ok_iff {φ : Type} {step : Except ε α} {f : ε → φ} {result : α} :
    step.mapError f = .ok result ↔ step = .ok result := by
  cases step with
  | error e => exact ⟨fun same => (nomatch same), fun same => (nomatch same)⟩
  | ok value =>
    exact ⟨fun same => congrArg _ (Except.ok.inj same), fun same => congrArg _ (Except.ok.inj same)⟩

theorem map_eq_ok_iff {step : Except ε α} {f : α → β} {result : β} :
    f <$> step = .ok result ↔ ∃ value, step = .ok value ∧ f value = result := by
  cases step with
  | error e => exact ⟨fun same => (nomatch same), fun ⟨_, same, _⟩ => (nomatch same)⟩
  | ok value =>
    exact ⟨fun same => ⟨value, rfl, Except.ok.inj same⟩, fun ⟨_, rfl, same⟩ => congrArg _ same⟩

theorem map_eq_error_iff {step : Except ε α} {f : α → β} {error : ε} :
    f <$> step = .error error ↔ step = .error error := by
  cases step with
  | error e => exact ⟨fun same => congrArg _ (Except.error.inj same),
      fun same => congrArg _ (Except.error.inj same)⟩
  | ok value => exact ⟨fun same => (nomatch same), fun same => (nomatch same)⟩

theorem eq_ok_of_toOption {step : Except ε α} {value : α} (found : step.toOption = some value) :
    step = .ok value := by
  cases step with
  | error e => cases found
  | ok other => exact congrArg _ (Option.some.inj found)

/-- A step taken on each item of a list succeeds when it does on all of them. -/
theorem mapM_eq_ok_iff {step : α → Except ε β} {items : List α} {results : List β} :
    items.mapM step = .ok results ↔
      List.Forall₂ (fun item result => step item = .ok result) items results := by
  induction items generalizing results with
  | nil =>
    rw [List.mapM_nil, List.forall₂_nil_left_iff]
    exact ⟨fun same => (Except.ok.inj same).symm, fun empty => congrArg _ empty.symm⟩
  | cons item rest ih =>
    simp only [List.mapM_cons, bind_eq_ok_iff, List.forall₂_cons_left_iff, ih]
    constructor
    · rintro ⟨first, taken, others, takenRest, ⟨rfl⟩⟩
      exact ⟨first, others, taken, takenRest, rfl⟩
    · rintro ⟨first, others, taken, takenRest, rfl⟩
      exact ⟨first, taken, others, takenRest, rfl⟩

theorem mem_of_mapM_eq_ok {step : α → Except ε β} {items : List α} {results : List β}
    (taken : items.mapM step = .ok results) {result : β} :
    result ∈ results ↔ ∃ item ∈ items, step item = .ok result := by
  have related := mapM_eq_ok_iff.mp taken
  clear taken
  induction related with
  | nil => simp
  | cons first _ ih =>
    simp only [List.mem_cons, ih, exists_eq_or_imp, first, Except.ok.injEq,
      eq_comm (a := result)]

theorem exists_mapM_eq_ok_iff {step : α → Except ε β} {items : List α} :
    (∃ results, items.mapM step = .ok results) ↔
      ∀ item ∈ items, ∃ result, step item = .ok result := by
  simp only [mapM_eq_ok_iff]
  induction items with
  | nil => simp
  | cons item rest ih =>
    rw [List.forall_mem_cons, ← ih]
    constructor
    · rintro ⟨_, _ | ⟨taken, takenRest⟩⟩
      exact ⟨⟨_, taken⟩, _, takenRest⟩
    · rintro ⟨⟨first, taken⟩, others, takenRest⟩
      exact ⟨first :: others, .cons taken takenRest⟩

/-- A step taken on each item of a list fails on the first item on which it does. -/
theorem mapM_eq_error_iff {step : α → Except ε β} {items : List α} {error : ε} :
    items.mapM step = .error error ↔ ∃ before item after, items = before ++ item :: after ∧
      (∀ other ∈ before, ∃ result, step other = .ok result) ∧ step item = .error error := by
  induction items with
  | nil =>
    constructor
    · intro failed
      cases failed
    · rintro ⟨before, item, after, split, -⟩
      exact absurd split.symm (List.append_ne_nil_of_right_ne_nil _ (List.cons_ne_nil _ _))
  | cons first rest ih =>
    rw [List.mapM_cons, bind_eq_error_iff]
    constructor
    · rintro (failed | ⟨value, taken, failed⟩)
      · exact ⟨[], first, rest, rfl, by simp, failed⟩
      · rcases bind_eq_error_iff.mp failed with failedRest | ⟨values, -, returned⟩
        · obtain ⟨before, item, after, rfl, taken', failed⟩ := ih.mp failedRest
          exact ⟨first :: before, item, after, rfl,
            List.forall_mem_cons.mpr ⟨⟨value, taken⟩, taken'⟩, failed⟩
        · cases returned
    · rintro ⟨before, item, after, split, taken, failed⟩
      cases before with
      | nil =>
        cases split
        exact .inl failed
      | cons _ before =>
        cases split
        obtain ⟨⟨value, takenFirst⟩, taken⟩ := List.forall_mem_cons.mp taken
        exact .inr ⟨value, takenFirst, bind_eq_error_iff.mpr
          (.inl (ih.mpr ⟨before, item, after, rfl, taken, failed⟩))⟩

theorem exists_of_mapM_eq_error {step : α → Except ε β} {items : List α} {error : ε}
    (failed : items.mapM step = .error error) : ∃ item ∈ items, step item = .error error := by
  obtain ⟨before, item, after, rfl, -, failedThere⟩ := mapM_eq_error_iff.mp failed
  exact ⟨item, List.mem_append_right _ List.mem_cons_self, failedThere⟩

theorem mapM_congr {step other : α → Except ε β} {items : List α}
    (same : ∀ item ∈ items, step item = other item) : items.mapM step = items.mapM other := by
  induction items with
  | nil => rfl
  | cons item rest ih =>
    obtain ⟨first, others⟩ := List.forall_mem_cons.mp same
    rw [List.mapM_cons, List.mapM_cons, first, ih others]

/-- To change each result is to change the results. -/
theorem mapM_map_right {γ : Type} (step : α → Except ε β) (f : β → γ) (items : List α) :
    items.mapM (fun item => f <$> step item) = List.map f <$> items.mapM step := by
  induction items with
  | nil => rfl
  | cons item rest ih =>
    rw [List.mapM_cons, List.mapM_cons, ih]
    cases step item with
    | error error => rfl
    | ok first => cases rest.mapM step <;> rfl

/-- What holds at the start of a fold, and is kept by the step at each item, holds at the end. It
may speak of the items taken so far. -/
theorem foldlM_induction {step : β → α → Except ε β} {motive : List α → β → Prop} {items : List α}
    {state result : β} (start : motive [] state)
    (each : ∀ taken item later state next, items = taken ++ item :: later → motive taken state →
      step state item = .ok next → motive (taken ++ [item]) next)
    (folded : items.foldlM step state = .ok result) : motive items result := by
  induction items generalizing state motive with
  | nil =>
    cases folded
    exact start
  | cons item rest ih =>
    rw [List.foldlM_cons] at folded
    obtain ⟨next, stepped, folded⟩ := bind_eq_ok_iff.mp folded
    apply ih (motive := fun taken => motive (item :: taken)) _ _ folded
    · exact each [] item rest state next rfl start stepped
    · intro taken other later state next split kept stepped
      exact each (item :: taken) other later state next (congrArg _ split) kept stepped

theorem exists_of_mem_right {Q : α → β → Prop} {items : List α} {results : List β}
    (related : List.Forall₂ Q items results) {result : β} (member : result ∈ results) :
    ∃ item ∈ items, Q item result := by
  induction related with
  | nil => cases member
  | cons first _ ih =>
    cases member with
    | head => exact ⟨_, List.mem_cons_self, first⟩
    | tail _ member =>
      obtain ⟨item, memberItem, kept⟩ := ih member
      exact ⟨item, List.mem_cons_of_mem _ memberItem, kept⟩

theorem exists_getElem?_of_forall₂ {Q : α → β → Prop} {items : List α} {results : List β}
    (related : List.Forall₂ Q items results) {i : Nat} {result : β}
    (there : results[i]? = some result) : ∃ item, items[i]? = some item ∧ Q item result := by
  obtain ⟨bound, rfl⟩ := List.getElem?_eq_some_iff.mp there
  obtain ⟨length, get⟩ := List.forall₂_iff_get.mp related
  have boundItems : i < items.length := length ▸ bound
  exact ⟨items[i], List.getElem?_eq_getElem boundItems, get i boundItems bound⟩

theorem pairwise_of_forall₂ {Q : α → β → Prop} {R : α → α → Prop} {S : β → β → Prop}
    {items : List α} {results : List β} (related : List.Forall₂ Q items results)
    (kept : ∀ a b x y, Q a x → Q b y → R a b → S x y) (pairwise : items.Pairwise R) :
    results.Pairwise S := by
  rw [List.pairwise_iff_getElem] at pairwise ⊢
  intro i j boundI boundJ before
  have length := related.length_eq
  have get := (List.forall₂_iff_get.mp related).2
  exact kept _ _ _ _ (get i (length ▸ boundI) boundI) (get j (length ▸ boundJ) boundJ)
    (pairwise i j (length ▸ boundI) (length ▸ boundJ) before)

/-! ## One run beside another -/

/-- A step follows another one when it succeeds as that one does, or fails as that one does, or
fails for a reason of its own. -/
inductive Follows {φ : Type} (S : α → β → Prop) (E : ε → φ → Prop) (Own : φ → Prop) :
    Except ε α → Except φ β → Prop
  | ok {a : α} {b : β} (related : S a b) : Follows S E Own (.ok a) (.ok b)
  | error {e : ε} {f : φ} (related : E e f) : Follows S E Own (.error e) (.error f)
  | own {step : Except ε α} {f : φ} (reason : Own f) : Follows S E Own step (.error f)

namespace Follows

variable {φ γ δ : Type} {S : α → β → Prop} {T : γ → δ → Prop} {E : ε → φ → Prop} {Own : φ → Prop}

protected theorem refl {Own : ε → Prop} (step : Except ε α) : Follows Eq Eq Own step step := by
  cases step with
  | ok value => exact .ok rfl
  | error error => exact .error rfl

theorem bind {step : Except ε α} {other : Except φ β} {next : α → Except ε γ}
    {otherNext : β → Except φ δ} (first : Follows S E Own step other)
    (second : ∀ a b, S a b → Follows T E Own (next a) (otherNext b)) :
    Follows T E Own (step >>= next) (other >>= otherNext) := by
  cases first with
  | ok related => exact second _ _ related
  | error related => exact .error related
  | own reason => exact .own reason

theorem map {step : Except ε α} {other : Except φ β} {f : α → γ} {g : β → δ}
    (follows : Follows S E Own step other) (kept : ∀ a b, S a b → T (f a) (g b)) :
    Follows T E Own (f <$> step) (g <$> other) := by
  cases follows with
  | ok related => exact .ok (kept _ _ related)
  | error related => exact .error related
  | own reason => exact .own reason

/-- A step without reasons of its own succeeds just when the other one does. -/
theorem eq_ok_iff {γ : Type} {E : ε → φ → Prop} {step : Except ε γ} {other : Except φ γ}
    (follows : Follows Eq E (fun _ => False) step other) {result : γ} :
    other = .ok result ↔ step = .ok result := by
  cases follows with
  | ok same => rw [same, Except.ok.injEq, Except.ok.injEq]
  | error _ => exact ⟨fun same => (nomatch same), fun same => (nomatch same)⟩
  | own never => exact never.elim

theorem exists_of_ok {step : Except ε α} {other : Except φ β} {b : β}
    (follows : Follows S E Own step other) (returned : other = .ok b) :
    ∃ a, step = .ok a ∧ S a b := by
  cases follows with
  | ok related =>
    cases returned
    exact ⟨_, rfl, related⟩
  | error _ => cases returned
  | own _ => cases returned

theorem own_or_exists_of_error {step : Except ε α} {other : Except φ β} {f : φ}
    (follows : Follows S E Own step other) (failed : other = .error f) :
    Own f ∨ ∃ e, step = .error e ∧ E e f := by
  cases follows with
  | ok _ => cases failed
  | error related =>
    cases failed
    exact .inr ⟨_, rfl, related⟩
  | own reason =>
    cases failed
    exact .inl reason

theorem exists_error_of_error {step : Except ε α} {other : Except φ β} {e : ε}
    (follows : Follows S E Own step other) (failed : step = .error e) :
    ∃ f, other = .error f ∧ (E e f ∨ Own f) := by
  cases follows with
  | ok _ => cases failed
  | error related =>
    cases failed
    exact ⟨_, rfl, .inl related⟩
  | own reason => exact ⟨_, rfl, .inr reason⟩

/-- What each step of a run follows, the run follows as a whole. -/
theorem mapM {ι κ : Type} {Q : ι → κ → Prop} {items : List ι} {others : List κ}
    {step : ι → Except ε α} {other : κ → Except φ β} (related : List.Forall₂ Q items others)
    (each : ∀ i j, Q i j → Follows S E Own (step i) (other j)) :
    Follows (List.Forall₂ S) E Own (items.mapM step) (others.mapM other) := by
  induction related with
  | nil => exact .ok .nil
  | cons first _ ih =>
    simp only [List.mapM_cons]
    apply (each _ _ first).bind
    exact fun a b here => ih.bind fun rest more later => .ok (.cons here later)

end Follows

end QuayTimeline

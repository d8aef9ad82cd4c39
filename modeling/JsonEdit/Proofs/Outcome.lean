import JsonEdit.Fault
import Mathlib.Data.List.Forall2

/-!
# Computations that may fail

A computation with a result is taken apart into its steps, each of which has a result. Two computations
match if both fail, or if both have results and these are related. Why they fail makes no difference.
-/

namespace JsonEdit

theorem except_bind_eq_ok {α β : Type} {result : Except Fault α} {next : α → Except Fault β} {value : β}
    (hbind : result.bind next = .ok value) : ∃ middle, result = .ok middle ∧ next middle = .ok value := by
  cases result with
  | error fault => cases hbind
  | ok middle => exact ⟨middle, rfl, hbind⟩

theorem except_map_eq_ok {α β : Type} {result : Except Fault α} {f : α → β} {value : β}
    (hmap : result.map f = .ok value) : ∃ middle, result = .ok middle ∧ f middle = value := by
  cases result with
  | error fault => cases hmap
  | ok middle => exact ⟨middle, rfl, Except.ok.inj hmap⟩

theorem except_map_eq_error {α β : Type} {result : Except Fault α} {f : α → β} {fault : Fault}
    (hmap : result.map f = .error fault) : result = .error fault := by
  cases result with
  | error other => exact congrArg Except.error (Except.error.inj hmap)
  | ok value => cases hmap

theorem except_bind_assoc {α β γ : Type} (result : Except Fault α) (next : α → Except Fault β)
    (last : β → Except Fault γ) :
    (result.bind next).bind last = result.bind fun value => (next value).bind last := by
  cases result <;> rfl

/-- A loop depends on what its step does at its items. -/
theorem except_foldlM_congr {α β ε : Type} {items : List β} {step step' : α → β → Except ε α}
    (hstep : ∀ item ∈ items, ∀ state, step state item = step' state item) (state : α) :
    items.foldlM step state = items.foldlM step' state := by
  induction items generalizing state with
  | nil => rfl
  | cons item rest ih =>
      obtain ⟨hitem, hrest⟩ := List.forall_mem_cons.mp hstep
      rw [List.foldlM_cons, List.foldlM_cons, hitem]
      exact congrArg _ (funext fun next => ih hrest next)

/-- A loop over parts is a loop of loops. -/
theorem except_foldlM_flatMap {α β γ ε : Type} (items : List β) (parts : β → List γ)
    (step : α → γ → Except ε α) (state : α) :
    (items.flatMap parts).foldlM step state =
      items.foldlM (fun state item => (parts item).foldlM step state) state := by
  induction items generalizing state with
  | nil => rfl
  | cons item rest ih =>
      rw [List.flatMap_cons, List.foldlM_append, List.foldlM_cons]
      exact congrArg _ (funext fun next => ih next)

/-! ### Two computations side by side -/

/-- Both computations fail, or both have results, which are related. -/
inductive Matches {α β : Type} (related : α → β → Prop) : Except Fault α → Except Fault β → Prop where
  | ok {value : α} {other : β} (hrelated : related value other) : Matches related (.ok value) (.ok other)
  | error (fault other : Fault) : Matches related (.error fault) (.error other)

namespace Matches

variable {α β γ δ : Type} {related : α → β → Prop} {related' : γ → δ → Prop}
  {first : Except Fault α} {second : Except Fault β}

theorem refl (result : Except Fault α) : Matches Eq result result := by
  cases result with
  | ok value => exact .ok rfl
  | error fault => exact .error fault fault

theorem mono {weaker : α → β → Prop} (hresult : Matches related first second)
    (himp : ∀ value other, related value other → weaker value other) :
    Matches weaker first second := by
  cases hresult with
  | ok hrelated => exact .ok (himp _ _ hrelated)
  | error fault other => exact .error fault other

theorem exists_ok (hresult : Matches related first second) {value : α} (hfirst : first = .ok value) :
    ∃ other, second = .ok other ∧ related value other := by
  cases hresult with
  | ok hrelated =>
      cases hfirst
      exact ⟨_, rfl, hrelated⟩
  | error fault other => cases hfirst

theorem of_errors (hfirst : ∃ fault, first = .error fault)
    (hsecond : ∃ fault, second = .error fault) : Matches related first second := by
  obtain ⟨fault, rfl⟩ := hfirst
  obtain ⟨other, rfl⟩ := hsecond
  exact .error fault other

theorem bind {next : α → Except Fault γ} {next' : β → Except Fault δ}
    (hresult : Matches related first second)
    (hnext : ∀ value other, related value other → Matches related' (next value) (next' other)) :
    Matches related' (first.bind next) (second.bind next') := by
  cases hresult with
  | ok hrelated => exact hnext _ _ hrelated
  | error fault other => exact .error fault other

theorem map {f : α → γ} {g : β → δ} (hresult : Matches related first second)
    (himage : ∀ value other, related value other → related' (f value) (g other)) :
    Matches related' (first.map f) (second.map g) := by
  cases hresult with
  | ok hrelated => exact .ok (himage _ _ hrelated)
  | error fault other => exact .error fault other

theorem foldlM {items : List γ} {others : List δ} {step : α → γ → Except Fault α}
    {step' : β → δ → Except Fault β} (hitems : List.Forall₂ related' items others)
    (hstep : ∀ item other state state', related' item other → related state state' →
      Matches related (step state item) (step' state' other))
    {state : α} {state' : β} (hstate : related state state') :
    Matches related (items.foldlM step state) (others.foldlM step' state') := by
  induction hitems generalizing state state' with
  | nil => exact .ok hstate
  | cons hitem hrest ih =>
      rw [List.foldlM_cons, List.foldlM_cons]
      exact (hstep _ _ _ _ hitem hstate).bind fun _ _ hnext => ih hnext

end Matches

end JsonEdit

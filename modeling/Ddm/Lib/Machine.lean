/-
  Ddm.Lib.Machine — labelled machines and their runs.

  A machine is a partial step function: `step s a = none` when the label `a` is not
  enabled in `s`. A run starts in `s₀` and each of its steps meets `ok`, a condition on
  the state before the step and the step's label; the labels carry what the
  environment decides (which thread moves, what a system call returns).

  Proved: the invariant rule (`Reach.inv`), the same for a loop over a list of labels
  (`foldlM_inv`), and a checked execution of a list of labels is a run
  (`reach_of_exec_any`), which is how concrete runs are shown.
-/

import Mathlib.Init

namespace Ddm.Lib.Machine

variable {σ α : Type} (step : σ → α → Option σ)

/-- The states of the runs from `s₀` whose steps all meet `ok`. -/
inductive Reach (ok : σ → α → Prop) (s₀ : σ) : σ → Prop
  | start : Reach ok s₀ s₀
  | next {s t : σ} (a : α) : Reach ok s₀ s → ok s a → step s a = some t → Reach ok s₀ t

variable {step} {ok : σ → α → Prop} {s₀ s : σ}

/-- What holds at the start and is kept by every step that meets `ok` holds of every
    state such runs reach. -/
theorem Reach.inv {I : σ → Prop} (h0 : I s₀)
    (hstep : ∀ s a t, I s → ok s a → step s a = some t → I t) (h : Reach step ok s₀ s) : I s := by
  induction h with
  | start => exact h0
  | next a _ hok hs ih => exact hstep _ a _ ih hok hs

theorem Reach.trans {t u : σ} (h : Reach step ok s t) (h' : Reach step ok t u) : Reach step ok s u := by
  induction h' with
  | start => exact h
  | next a _ hok hs ih => exact .next a ih hok hs

/-- A run by its labels is a fold; what is said of it may depend on the labels taken. -/
theorem foldlM_inv {I : List α → σ → Prop} (h0 : I [] s₀)
    (hstep : ∀ as s a t, I as s → step s a = some t → I (as ++ [a]) t) {as : List α} {t : σ}
    (h : as.foldlM step s₀ = some t) : I as t := by
  suffices ∀ (rest done : List α) (s : σ), I done s → rest.foldlM step s = some t → I (done ++ rest) t from
    this as [] s₀ h0 h
  intro rest
  induction rest with
  | nil =>
    intro done s hi h
    obtain rfl := Option.some.inj h
    rw [List.append_nil]
    exact hi
  | cons a rest ih =>
    intro done s hi h
    obtain ⟨u, hu, h⟩ := Option.bind_eq_some_iff.mp ((List.foldlM_cons ..).symm.trans h)
    have := ih (done ++ [a]) u (hstep done s a u hi hu) h
    rwa [List.append_assoc] at this

variable (step)

/-- Take the labels in order, stopping at the first that is not enabled or breaks `ok`. -/
def exec (ok : σ → α → Prop) [∀ s a, Decidable (ok s a)] : σ → List α → Option σ
  | s, [] => some s
  | s, a :: as => if ok s a then (step s a).bind fun t => exec ok t as else none

variable {step}

theorem reach_of_exec [∀ s a, Decidable (ok s a)] {as : List α} {t : σ} (h : exec step ok s₀ as = some t) :
    Reach step ok s₀ t := by
  suffices ∀ (as : List α) (s : σ), Reach step ok s₀ s → exec step ok s as = some t → Reach step ok s₀ t from
    this as s₀ .start h
  intro as
  induction as with
  | nil => intro s hs h; simp only [exec, Option.some.injEq] at h; exact h ▸ hs
  | cons a as ih =>
    intro s hs h
    simp only [exec] at h
    split at h
    · rename_i hok
      cases hst : step s a with
      | none => simp [hst] at h
      | some u => exact ih u (.next a hs hok hst) (by simpa [hst] using h)
    · cases h

/-- What a checked execution ends in is reachable. -/
theorem reach_of_exec_any [∀ s a, Decidable (ok s a)] {as : List α} {p : σ → Bool}
    (h : (exec step ok s₀ as).any p = true) : ∃ t, Reach step ok s₀ t ∧ p t = true := by
  obtain ⟨t, ht, hp⟩ := Option.any_eq_true _ _ |>.mp h
  exact ⟨t, reach_of_exec ht, hp⟩

end Ddm.Lib.Machine

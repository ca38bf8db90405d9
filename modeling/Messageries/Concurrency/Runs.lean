namespace Messageries.Concurrency

variable {σ ρ : Type} {step : σ → ρ → σ} {ok ok' : σ → ρ → Prop} {start g : σ} {I : σ → Prop}

/-- The states that the steps of a run lead to, if every step meets `ok`. -/
inductive Runs (step : σ → ρ → σ) (ok : σ → ρ → Prop) (start : σ) : σ → Prop
  | start : Runs step ok start start
  | step {g : σ} (r : ρ) : Runs step ok start g → ok g r → Runs step ok start (step g r)

namespace Runs

theorem invariant (hr : Runs step ok start g) (h₀ : I start)
    (hs : ∀ g r, I g → ok g r → I (step g r)) : I g := by
  induction hr with
  | start => exact h₀
  | step r _ hok ih => exact hs _ r ih hok

theorem mono (hr : Runs step ok start g) (h : ∀ g r, ok g r → ok' g r) :
    Runs step ok' start g := by
  induction hr with
  | start => exact .start
  | step r _ hok ih => exact .step r ih (h _ r hok)

theorem append (hr : Runs step ok start g) (rs : List ρ) (h : ∀ r ∈ rs, ∀ g, ok g r) :
    Runs step ok start (rs.foldl step g) := by
  induction rs generalizing g with
  | nil => exact hr
  | cons r rs ih =>
    exact ih (.step r hr (h r List.mem_cons_self g)) fun r' hm => h r' (List.mem_cons_of_mem r hm)

/-- A run of steps that meet `ok` in any state. -/
theorem of_list (rs : List ρ) (h : ∀ r ∈ rs, ∀ g, ok g r) :
    Runs step ok start (rs.foldl step start) :=
  append .start rs h

/-- Whether each step passes a test where it is taken. -/
def passing (step : σ → ρ → σ) (b : σ → ρ → Bool) : σ → List ρ → Bool
  | _, [] => true
  | g, r :: rs => b g r && passing step b (step g r) rs

theorem of_passing {b : σ → ρ → Bool} (hb : ∀ g r, b g r = true → ok g r)
    (hr : Runs step ok start g) {rs : List ρ} (h : passing step b g rs = true) :
    Runs step ok start (rs.foldl step g) := by
  induction rs generalizing g with
  | nil => exact hr
  | cons r rs ih =>
    obtain ⟨hok, hrs⟩ := Bool.and_eq_true_iff.1 h
    exact ih (.step r hr (hb g r hok)) hrs

end Runs

end Messageries.Concurrency

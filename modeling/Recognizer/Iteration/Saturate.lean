/-!
# Repeating a step until it changes nothing

The analyses of the library are least fixed points: a step that only ever adds is repeated until it
adds nothing. The number of repetitions is bounded by a number computed from the input.

## Main definitions

* `saturate step bound s`: `step` repeated on `s` until it changes nothing, at most `bound` times.

## Main results

* `saturate_induction`: what each step keeps, the result has.
* `step_saturate`: a large enough bound leads to a fixed point.
* `saturate_eq_of_step_eq`: all bounds that lead to a fixed point lead to the same.
-/

namespace Recognizer

variable {σ : Type} [DecidableEq σ]

/-- Repeats `step` until it changes nothing, at most `bound` times. If the bound is large enough,
the result is a fixed point of the step (`step_saturate`), and the bound does not matter
(`saturate_eq_of_step_eq`). -/
def saturate (step : σ → σ) : Nat → σ → σ
  | 0, s => s
  | bound + 1, s =>
    let t := step s
    if t = s then s else saturate step bound t

/-- What each step keeps, the result has. The property must hold at the beginning, and one step must
keep it; then it holds of the result for every bound. -/
theorem saturate_induction {step : σ → σ} {P : σ → Prop} (hstep : ∀ s, P s → P (step s))
    (bound : Nat) (s : σ) (hs : P s) : P (saturate step bound s) := by
  induction bound generalizing s with
  | zero => exact hs
  | succ bound ih =>
    rw [saturate]
    split
    · exact hs
    · exact ih _ (hstep s hs)

/-- A large enough bound leads to a fixed point. If every step that changes something raises a
measure, and the measure of what a step can reach stays within the limit, then the result is a fixed
point of the step, provided that the bound makes up for what is missing to the limit. -/
theorem step_saturate {step : σ → σ} {P : σ → Prop} (measure : σ → Nat) (limit : Nat)
    (hstep : ∀ s, P s → P (step s)) (hlimit : ∀ s, P s → measure s ≤ limit)
    (hgrow : ∀ s, P s → step s ≠ s → measure s < measure (step s))
    (bound : Nat) (s : σ) (hs : P s) (hbound : limit < bound + measure s) :
    step (saturate step bound s) = saturate step bound s := by
  induction bound generalizing s with
  | zero =>
    have := hlimit s hs
    omega
  | succ bound ih =>
    rw [saturate]
    split
    · assumption
    · next h =>
      have := hgrow s hs h
      exact ih _ (hstep s hs) (by omega)

private theorem saturate_of_step_eq {step : σ → σ} {s : σ} (hs : step s = s) (bound : Nat) :
    saturate step bound s = s := by
  cases bound with
  | zero => rfl
  | succ bound => exact if_pos hs

private theorem saturate_of_step_ne {step : σ → σ} {s : σ} (hs : step s ≠ s) (bound : Nat) :
    saturate step (bound + 1) s = saturate step bound (step s) := if_neg hs

/-- Any two bounds that lead to a fixed point lead to the same one. -/
theorem saturate_eq_of_step_eq {step : σ → σ} {m n : Nat} {s : σ}
    (hm : step (saturate step m s) = saturate step m s)
    (hn : step (saturate step n s) = saturate step n s) :
    saturate step m s = saturate step n s := by
  by_cases hs : step s = s
  · rw [saturate_of_step_eq hs, saturate_of_step_eq hs]
  · induction m generalizing n s with
    | zero => exact absurd hm hs
    | succ m ih =>
      cases n with
      | zero => exact absurd hn hs
      | succ n =>
        rw [saturate_of_step_ne hs] at hm hn ⊢
        rw [saturate_of_step_ne hs]
        by_cases hnext : step (step s) = step s
        · rw [saturate_of_step_eq hnext, saturate_of_step_eq hnext]
        · exact ih hm hn hnext

end Recognizer

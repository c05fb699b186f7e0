import Mathlib.Data.List.Infix
import Mathlib.Data.Int.Cast.Basic

/-!
# Labelled transition systems

Runs of a step relation with the events of their steps, in order. A condition on steps restricts
the relation, so that a run of the restricted relation is a run whose steps all meet it. Conditions
on the order of the events are about their list alone.

## Main definitions

* `Trace step s₀ es s`: the events `es` lead from `s₀` to `s`
* `Restrict step ok`: the steps that meet the condition `ok`
* `Since starts keeps es`: an event that `starts` has come, and all others after it are ones that
  `keeps`

## Main results

* `Trace.invariant`: what holds at the start and is kept by every step holds in every state reached
* `Trace.length_add_le`: a run is no longer than a measure that each of its steps lowers
* `Trace.split`: a run up to an event, its step, and the rest
* `since_concat`: what the last event does
-/

namespace Transition

variable {σ ε : Type*} {step step' : σ → ε → σ → Prop} {ok : σ → ε → Prop} {s₀ s s' : σ} {e : ε}
  {es fs : List ε}

/-- **Runs** from `s₀`, with their events. -/
inductive Trace (step : σ → ε → σ → Prop) (s₀ : σ) : List ε → σ → Prop
  | start : Trace step s₀ [] s₀
  | step {es : List ε} {s s' : σ} {e : ε} (h : Trace step s₀ es s) (hs : step s e s') :
      Trace step s₀ (es ++ [e]) s'

/-- **The steps that meet a condition** on the state before them. -/
def Restrict (step : σ → ε → σ → Prop) (ok : σ → ε → Prop) (s : σ) (e : ε) (s' : σ) : Prop :=
  step s e s' ∧ ok s e

namespace Trace

theorem single (hs : step s₀ e s) : Trace step s₀ [e] s := Trace.start.step hs

theorem trans (h : Trace step s₀ es s) (h' : Trace step s fs s') : Trace step s₀ (es ++ fs) s' := by
  induction h' with
  | start => rwa [List.append_nil]
  | step _ hs ih =>
    rw [← List.append_assoc]
    exact ih.step hs

/-- **Invariants**: what every step keeps, a run keeps. -/
theorem invariant {P : σ → Prop} (h : Trace step s₀ es s) (h₀ : P s₀)
    (hstep : ∀ {s e s'}, P s → step s e s' → P s') : P s := by
  induction h with
  | start => exact h₀
  | step _ hs ih => exact hstep ih hs

/-- **Measures**: a run whose steps all lower a measure, under an invariant, has no more steps than
the measure was high. -/
theorem length_add_le {P : σ → Prop} {μ : σ → ℤ} (h : Trace step s₀ es s) (h₀ : P s₀)
    (hstep : ∀ {s e s'}, P s → step s e s' → P s' ∧ μ s' + 1 ≤ μ s) :
    P s ∧ es.length + μ s ≤ μ s₀ := by
  induction h with
  | start => exact ⟨h₀, by simp⟩
  | @step es s s' e _ hs ih =>
    obtain ⟨hP, hle⟩ := ih
    obtain ⟨hP', hlt⟩ := hstep hP hs
    refine ⟨hP', ?_⟩
    rw [List.length_append, List.length_singleton]
    push_cast
    omega

/-- More steps give more runs. -/
theorem mono (h : Trace step s₀ es s) (hle : ∀ {s e s'}, step s e s' → step' s e s') :
    Trace step' s₀ es s := by
  induction h with
  | start => exact .start
  | step _ hs ih => exact ih.step (hle hs)

/-- **A run up to an event**, its step, and the rest. -/
theorem split (h : Trace step s₀ (es ++ e :: fs) s) :
    ∃ s₁ s₂, Trace step s₀ es s₁ ∧ step s₁ e s₂ ∧ Trace step s₂ fs s := by
  induction fs using List.reverseRecOn generalizing s with
  | nil =>
    generalize hl : es ++ [e] = l at h
    cases h with
    | start => simp at hl
    | step h hs =>
      obtain ⟨rfl, h'⟩ := List.append_inj' hl rfl
      cases h'
      exact ⟨_, _, h, hs, .start⟩
  | append_singleton fs f ih =>
    generalize hl : es ++ e :: (fs ++ [f]) = l at h
    cases h with
    | start => simp at hl
    | step h hs =>
      rw [← List.cons_append, ← List.append_assoc] at hl
      obtain ⟨rfl, h'⟩ := List.append_inj' hl rfl
      cases h'
      obtain ⟨s₁, s₂, h₁, h₂, h₃⟩ := ih h
      exact ⟨s₁, s₂, h₁, h₂, h₃.step hs⟩

end Trace

/-! ## The order of events -/

/-- **Since an event**: one of the events starts, with those before it, and all events after it
keep. -/
def Since (starts : List ε → ε → Prop) (keeps : ε → Prop) (es : List ε) : Prop :=
  ∃ as a bs, es = as ++ a :: bs ∧ starts as a ∧ ∀ b ∈ bs, keeps b

variable {starts : List ε → ε → Prop} {keeps : ε → Prop}

theorem not_since_nil : ¬ Since starts keeps [] := by
  rintro ⟨as, a, bs, h, -⟩
  simp at h

/-- **The last event** starts anew, or keeps what was started before. -/
theorem since_concat :
    Since starts keeps (es ++ [e]) ↔ starts es e ∨ keeps e ∧ Since starts keeps es := by
  constructor
  · rintro ⟨as, a, bs, h, hstart, hkeep⟩
    rcases List.eq_nil_or_concat bs with rfl | ⟨bs, b, rfl⟩
    · obtain ⟨rfl, hae⟩ := List.append_inj' h rfl
      cases hae
      exact .inl hstart
    · rw [List.concat_eq_append] at h hkeep
      rw [← List.cons_append, ← List.append_assoc] at h
      obtain ⟨rfl, hbe⟩ := List.append_inj' h rfl
      cases hbe
      refine .inr ⟨hkeep e (by simp), as, a, bs, rfl, hstart, fun b hb => ?_⟩
      exact hkeep b (List.mem_append_left _ hb)
  · rintro (hstart | ⟨hkeep, as, a, bs, rfl, hstart, hkeeps⟩)
    · exact ⟨es, e, [], rfl, hstart, fun _ hb => nomatch hb⟩
    · refine ⟨as, a, bs ++ [e], by simp, hstart, fun b hb => ?_⟩
      rcases List.mem_append.mp hb with hb | hb
      · exact hkeeps b hb
      · cases List.mem_singleton.mp hb
        exact hkeep

/-- What has started goes on over events that keep it. -/
theorem Since.append (h : Since starts keeps es) {fs : List ε} (hfs : ∀ f ∈ fs, keeps f) :
    Since starts keeps (es ++ fs) := by
  obtain ⟨as, a, bs, rfl, hstart, hkeep⟩ := h
  refine ⟨as, a, bs ++ fs, by simp, hstart, fun b hb => ?_⟩
  rcases List.mem_append.mp hb with hb | hb
  · exact hkeep b hb
  · exact hfs b hb

end Transition

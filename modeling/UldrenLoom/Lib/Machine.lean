import Mathlib

/-!
# Machines and their runs

A machine answers an input and moves on; a run feeds it a list of inputs.

* **`run_invariant`**: what every allowed step preserves, a run does; **`along_congr`**: conditions that
  agree where an invariant holds allow the same runs.
-/

namespace Machine

variable {σ ι ο : Type} (step : ι → σ → ο × σ)

/-- The state after a list of inputs. -/
def run : List ι → σ → σ
  | [], s => s
  | i :: l, s => run l (step i s).2

/-- Every step is taken from a state that allows it. -/
def Along (G : σ → ι → Prop) : List ι → σ → Prop
  | [], _ => True
  | i :: l, s => G s i ∧ Along G l (step i s).2

theorem run_append (l l' : List ι) (s : σ) : run step (l ++ l') s = run step l' (run step l s) := by
  induction l generalizing s with
  | nil => rfl
  | cons i l ih => exact ih _

variable {step}

theorem along_of_forall {G : σ → ι → Prop} (h : ∀ s i, G s i) (l : List ι) (s : σ) :
    Along step G l s := by
  induction l generalizing s with
  | nil => trivial
  | cons i l ih => exact ⟨h s i, ih _⟩

theorem Along.imp {G H : σ → ι → Prop} (h : ∀ s i, G s i → H s i) {l : List ι} {s : σ}
    (ha : Along step G l s) : Along step H l s := by
  induction l generalizing s with
  | nil => trivial
  | cons i l ih => exact ⟨h s i ha.1, ih ha.2⟩

/-- **What every allowed step preserves, a run does.** -/
theorem run_invariant {G : σ → ι → Prop} {P : σ → Prop}
    (h : ∀ s i, G s i → P s → P (step i s).2) {l : List ι} {s : σ} (hG : Along step G l s)
    (hs : P s) : P (run step l s) := by
  induction l generalizing s with
  | nil => exact hs
  | cons i l ih => exact ih hG.2 (h s i hG.1 hs)

/-- **Two conditions that agree wherever an invariant holds allow the same runs.** -/
theorem along_congr {G H : σ → ι → Prop} {P : σ → Prop} (hGH : ∀ s i, P s → (G s i ↔ H s i))
    (h : ∀ s i, G s i → P s → P (step i s).2) {l : List ι} {s : σ} (hs : P s) :
    Along step G l s ↔ Along step H l s := by
  induction l generalizing s with
  | nil => exact Iff.rfl
  | cons i l ih =>
    refine ⟨fun hG => ⟨(hGH s i hs).mp hG.1, (ih (h s i hG.1 hs)).mp hG.2⟩, fun hH => ?_⟩
    have hG := (hGH s i hs).mpr hH.1
    exact ⟨hG, (ih (h s i hG hs)).mpr hH.2⟩

end Machine

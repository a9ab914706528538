import Mathlib.Data.List.Basic
import Mathlib.Data.List.DropRight

/-!
# Walks in a tree of names

A walk is a list of moves: stay, go up one level, or go down into a named child. The position is
the stack of names below the root, and going up at the root does nothing. `climb` summarises a walk
independently of where it starts, as the number of levels it climbs above its start and the names it
has descended into after that; `walk_eq_climb` says the summary is all there is to a walk, and
`prefix_walk_iff` reads off when a walk ends at or below the place where it began.
-/

namespace Walk

variable {ν : Type*}

/-- One move. -/
inductive Move (ν : Type*) where
  | stay
  | up
  | down (name : ν)
  deriving DecidableEq, Repr

/-- The position after one move. -/
def step (st : List ν) : Move ν → List ν
  | .stay => st
  | .up => st.dropLast
  | .down n => st ++ [n]

/-- The position after a list of moves. -/
def walk (st : List ν) (ms : List (Move ν)) : List ν := ms.foldl step st

@[simp] theorem walk_nil (st : List ν) : walk st [] = st := rfl

@[simp] theorem walk_cons (st : List ν) (m : Move ν) (ms : List (Move ν)) :
    walk st (m :: ms) = walk (step st m) ms := rfl

theorem walk_append (st : List ν) (ms ms' : List (Move ν)) :
    walk st (ms ++ ms') = walk (walk st ms) ms' := List.foldl_append

/-- Walking down a list of names appends it. -/
theorem walk_down (st ns : List ν) : walk st (ns.map .down) = st ++ ns := by
  induction ns generalizing st with
  | nil => simp
  | cons n ns ih => simp [step, ih]

/-- Every name on the stack was there before, or is the name of a move down. -/
theorem mem_walk {st : List ν} {ms : List (Move ν)} {n : ν} (h : n ∈ walk st ms) :
    n ∈ st ∨ Move.down n ∈ ms := by
  induction ms generalizing st with
  | nil => exact .inl h
  | cons m ms ih =>
      rcases ih h with hst | hms
      · cases m with
        | stay => exact .inl hst
        | up => exact .inl (List.dropLast_subset _ hst)
        | down x =>
            rcases List.mem_append.1 hst with hst | hx
            · exact .inl hst
            · rw [List.mem_singleton.1 hx]
              exact .inr List.mem_cons_self
      · exact .inr (List.mem_cons_of_mem _ hms)

/-! ## The summary of a walk -/

/-- One move on the summary: levels climbed above the start, and the names below that. -/
def climbStep : Nat × List ν → Move ν → Nat × List ν
  | (k, ns), .stay => (k, ns)
  | (k, ns), .up => if ns.isEmpty then (k + 1, []) else (k, ns.dropLast)
  | (k, ns), .down n => (k, ns ++ [n])

/-- Levels a walk climbs above its start, and the names it ends up below that. -/
def climb (ms : List (Move ν)) : Nat × List ν := ms.foldl climbStep (0, [])

/-- The position a summary describes, for a walk that starts at `st`. -/
def place (st : List ν) (c : Nat × List ν) : List ν := st.take (st.length - c.1) ++ c.2

theorem step_place (st : List ν) (c : Nat × List ν) (m : Move ν) :
    step (place st c) m = place st (climbStep c m) := by
  obtain ⟨k, ns⟩ := c
  cases m with
  | stay => rfl
  | down n => simp [step, climbStep, place]
  | up =>
      by_cases hns : ns = []
      · subst hns
        simp only [step, climbStep, place, List.append_nil, List.isEmpty_nil, if_true]
        rw [List.dropLast_eq_take, List.take_take, List.length_take]
        congr 1
        omega
      · have hne : ns.isEmpty = false := by simpa using hns
        simp only [step, climbStep, place, hne, Bool.false_eq_true, if_false]
        exact List.dropLast_append_of_ne_nil hns

theorem foldl_step_place (st : List ν) (c : Nat × List ν) (ms : List (Move ν)) :
    ms.foldl step (place st c) = place st (ms.foldl climbStep c) := by
  induction ms generalizing c with
  | nil => rfl
  | cons m ms ih =>
      rw [List.foldl_cons, List.foldl_cons, step_place]
      exact ih _

/-- Where a walk ends, from its summary. -/
theorem walk_eq_climb (st : List ν) (ms : List (Move ν)) :
    walk st ms = st.take (st.length - (climb ms).1) ++ (climb ms).2 := by
  have h := foldl_step_place st (0, []) ms
  have h₀ : place st (0, []) = st := by simp [place]
  rw [h₀] at h
  exact h

/-- A walk ends at or below its start exactly when it descends again through every level of the
start that it climbed above. -/
theorem prefix_walk_iff (st : List ν) (ms : List (Move ν)) :
    st <+: walk st ms ↔ st.drop (st.length - (climb ms).1) <+: (climb ms).2 := by
  rw [walk_eq_climb]
  conv_lhs => lhs; rw [← List.take_append_drop (st.length - (climb ms).1) st]
  exact List.prefix_append_right_inj _

end Walk

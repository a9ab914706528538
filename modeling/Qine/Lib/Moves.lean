import Mathlib.Logic.Function.Basic
import Mathlib.Data.List.Nodup

/-!
# Moves carried out one after the other

A list of moves copies cells of a store, each to a destination of its own. Carried out one after the other,
a move finds what the moves before it have left in its source. `run_eq_iff` says when that makes no
difference, so that the list does what a simultaneous assignment does: whenever a source has been a
destination before, it was given the value it had anyway.
-/

namespace Moves

universe u v

variable {ι : Type u} {α : Type v} {s t : ι → α} {ms : List (ι × ι)} {m : ι × ι} {k : ι}

/-- The later move does not read what the earlier one has changed. -/
def Undisturbed (s : ι → α) (m m' : ι × ι) : Prop := m'.2 = m.1 → s m.2 = s m.1

theorem Undisturbed.congr {m' : ι × ι} (h : Undisturbed s m m') (hdst : t m.1 = s m.1) (hsrc : t m.2 = s m.2) :
    Undisturbed t m m' := fun heq => hsrc.trans ((h heq).trans hdst.symm)

variable [DecidableEq ι]

/-- Carry out moves, given by their destinations and sources, from left to right. -/
def run (s : ι → α) (ms : List (ι × ι)) : ι → α :=
  ms.foldl (fun s m => Function.update s m.1 (s m.2)) s

@[simp] theorem run_nil : run s [] = s := rfl

@[simp] theorem run_cons : run s (m :: ms) = run (Function.update s m.1 (s m.2)) ms := rfl

/-- What is no destination keeps its value. -/
theorem run_of_not_mem (h : k ∉ ms.map Prod.fst) : run s ms k = s k := by
  induction ms generalizing s with
  | nil => rfl
  | cons m ms ih =>
      rw [List.map_cons, List.mem_cons, not_or] at h
      rw [run_cons, ih h.2, Function.update_of_ne h.1]

/-- A move whose source is no destination copies the value the source had at the beginning. -/
theorem run_of_source (hnd : (ms.map Prod.fst).Nodup) (hm : m ∈ ms) (hsrc : m.2 ∉ ms.map Prod.fst) :
    run s ms m.1 = s m.2 := by
  induction ms generalizing s with
  | nil => cases hm
  | cons m' ms ih =>
      rw [List.map_cons, List.nodup_cons] at hnd
      rw [List.map_cons, List.mem_cons, not_or] at hsrc
      rw [run_cons]
      rcases List.mem_cons.mp hm with rfl | hm
      · rw [run_of_not_mem hnd.1, Function.update_self]
      · rw [ih hnd.2 hm hsrc.2, Function.update_of_ne hsrc.1]

/-- If no move after `m` reads what it changes, the sources of these moves are as before. -/
theorem update_source (h : ∀ m' ∈ ms, Undisturbed s m m') {m' : ι × ι} (hm' : m' ∈ ms) :
    Function.update s m.1 (s m.2) m'.2 = s m'.2 := by
  by_cases heq : m'.2 = m.1
  · rw [heq, Function.update_self]
    exact h m' hm' heq
  · exact Function.update_of_ne heq _ _

theorem update_destination (hnd : m.1 ∉ ms.map Prod.fst) (v : α) {m' : ι × ι} (hm' : m' ∈ ms) :
    Function.update s m.1 v m'.1 = s m'.1 :=
  Function.update_of_ne (fun heq => hnd (List.mem_map.mpr ⟨m', hm', heq⟩)) _ _

/-- Moves carried out one after the other are a simultaneous assignment exactly if none of them reads what
one before it has changed. -/
theorem run_eq_iff (hnd : (ms.map Prod.fst).Nodup) :
    (∀ m ∈ ms, run s ms m.1 = s m.2) ↔ ms.Pairwise (Undisturbed s) := by
  induction ms generalizing s with
  | nil => simp
  | cons m ms ih =>
      rw [List.map_cons, List.nodup_cons] at hnd
      obtain ⟨hdst, hnd⟩ := hnd
      have hself : run s (m :: ms) m.1 = s m.2 := by
        rw [run_cons, run_of_not_mem hdst, Function.update_self]
      rw [List.pairwise_cons]
      -- the two stores agree on the rest of the moves, as far as these read what was there before
      have hrest (hhead : ∀ m' ∈ ms, Undisturbed s m m') :
          ms.Pairwise (Undisturbed (Function.update s m.1 (s m.2))) ↔ ms.Pairwise (Undisturbed s) := by
        refine ⟨fun h => h.imp_of_mem ?_, fun h => h.imp_of_mem ?_⟩
        · intro a b ha _ hab
          exact hab.congr (update_destination hdst _ ha).symm (update_source hhead ha).symm
        · intro a b ha _ hab
          exact hab.congr (update_destination hdst _ ha) (update_source hhead ha)
      constructor
      · intro h
        have hhead : ∀ m' ∈ ms, Undisturbed s m m' := by
          intro m' hm' heq
          have hlate : run s (m :: ms) m'.1 = Function.update s m.1 (s m.2) m'.2 := by
            rw [run_cons]
            exact run_of_source hnd hm' (heq ▸ hdst)
          rw [heq, Function.update_self] at hlate
          rw [← hlate, h m' (List.mem_cons_of_mem _ hm'), heq]
        refine ⟨hhead, (hrest hhead).mp ((ih hnd).mp fun m' hm' => ?_)⟩
        rw [update_source hhead hm']
        exact h m' (List.mem_cons_of_mem _ hm')
      · rintro ⟨hhead, htail⟩ m' hm'
        rcases List.mem_cons.mp hm' with rfl | hm'
        · exact hself
        · rw [run_cons, (ih hnd).mpr ((hrest hhead).mpr htail) m' hm', update_source hhead hm']

end Moves

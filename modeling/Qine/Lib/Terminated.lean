import Mathlib.Data.List.Basic

/-!
# Terminated strings

Strings laid out one after the other, each followed by a terminator that occurs in none of them, as C
programs keep them in a buffer.
-/

namespace Terminated

universe u

variable {β : Type u} {stop : β} {s rest : List β} {ss ss' : List (List β)}

/-- The strings, each with its terminator. -/
def pack (stop : β) (ss : List (List β)) : List β := ss.flatMap (· ++ [stop])

@[simp] theorem pack_nil : pack stop [] = [] := rfl

@[simp] theorem pack_cons : pack stop (s :: ss) = s ++ stop :: pack stop ss := by
  simp [pack]

@[simp] theorem pack_append : pack stop (ss ++ ss') = pack stop ss ++ pack stop ss' := by
  simp [pack]

/-- Where the strings begin when the first one begins at `o`. -/
def offsets (o : Nat) : List (List β) → List Nat
  | [] => []
  | s :: ss => o :: offsets (o + s.length + 1) ss

variable [DecidableEq β]

/-- The string that begins at `o`. -/
def stringAt (stop : β) (buf : List β) (o : Nat) : List β := (buf.drop o).takeWhile (· != stop)

theorem takeWhile_append_stop (h : stop ∉ s) : (s ++ stop :: rest).takeWhile (· != stop) = s := by
  have hs : ∀ c ∈ s, (c != stop) = true := by
    intro c hc
    rw [bne_iff_ne]
    rintro rfl
    exact h hc
  rw [List.takeWhile_append_of_pos hs, List.takeWhile_cons_of_neg (by simp), List.append_nil]

theorem stringAt_append (pre rest : List β) (h : stop ∉ s) :
    stringAt stop (pre ++ (s ++ stop :: rest)) pre.length = s := by
  rw [stringAt, List.drop_left]
  exact takeWhile_append_stop h

/-- The strings in a buffer are found from where they begin. -/
theorem map_stringAt_offsets (pre post : List β) (h : ∀ s ∈ ss, stop ∉ s) :
    (offsets pre.length ss).map (stringAt stop (pre ++ (pack stop ss ++ post))) = ss := by
  induction ss generalizing pre with
  | nil => rfl
  | cons s ss ih =>
      have hrest := ih (pre ++ (s ++ [stop])) fun s' hs' => h s' (List.mem_cons_of_mem _ hs')
      have hlen : (pre ++ (s ++ [stop])).length = pre.length + s.length + 1 := by
        simp [Nat.add_assoc]
      have hbuf : pre ++ (s ++ [stop]) ++ (pack stop ss ++ post) =
          pre ++ (pack stop (s :: ss) ++ post) := by simp
      rw [hlen, hbuf] at hrest
      rw [offsets, List.map_cons, hrest, pack_cons, List.append_assoc, List.cons_append,
        stringAt_append pre _ (h s List.mem_cons_self)]

end Terminated

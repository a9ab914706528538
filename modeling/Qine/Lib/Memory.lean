import Mathlib.Algebra.Group.Int.Defs
import Mathlib.Algebra.Ring.Nat
import Mathlib.Data.List.Nodup
import Mathlib.Data.List.Range

/-!
# Flat memory

A memory is a total map from addresses to cells. Two views of an access are offered:

* `read`/`write` — a block of consecutive cells, the shape of a `memcpy`;
* `gather`/`scatter` — the cells along an arbitrary list of addresses, the shape of a
  scatter/gather transfer.

A block is the address list `List.range' a n`, so `write_eq_scatter` reduces the first view to the
second, and every frame or read-back fact is proved once, for `scatter`.
-/

universe u

/-- A memory with cells in `β`, addressed by natural numbers. -/
abbrev Memory (β : Type u) := Nat → β

namespace Memory

variable {β : Type u} {m : Memory β} {a n x : Nat} {as as' : List Nat} {bs bs' : List β}

/-- The `n` cells from address `a` upwards. -/
def read (m : Memory β) (a n : Nat) : List β := (List.range' a n).map m

/-- Overwrite the cells from address `a` upwards with `bs`. -/
def write (m : Memory β) (a : Nat) (bs : List β) : Memory β := fun x =>
  if a ≤ x then (bs[x - a]?).getD (m x) else m x

/-- Set the `n` cells from address `a` upwards to `b`. -/
def fill (m : Memory β) (a n : Nat) (b : β) : Memory β := fun x => if a ≤ x ∧ x < a + n then b else m x

/-- The cells along an address list. -/
def gather (m : Memory β) (as : List Nat) : List β := as.map m

/-- Store `bs` along the addresses `as`, from left to right. -/
def scatter (m : Memory β) : List Nat → List β → Memory β
  | a :: as, b :: bs => scatter (Function.update m a b) as bs
  | _, _ => m

/-! ## Blocks -/

@[simp] theorem length_read : (m.read a n).length = n := by simp [read]

@[simp] theorem getElem?_read {k : Nat} (hk : k < n) : (m.read a n)[k]? = some (m (a + k)) := by
  simp [read, hk]

theorem read_eq_gather : m.read a n = m.gather (List.range' a n) := rfl

theorem write_of_lt (h : x < a) : m.write a bs x = m x := by
  simp [write, Nat.not_le.mpr h]

theorem write_of_ge (h : a + bs.length ≤ x) : m.write a bs x = m x := by
  have hx : bs.length ≤ x - a := by omega
  simp [write, List.getElem?_eq_none hx]

/-- A cell outside `[a, a + |bs|)` keeps its value. -/
theorem write_of_not_mem (h : x ∉ List.range' a bs.length) : m.write a bs x = m x := by
  rw [List.mem_range'_1] at h
  by_cases hx : x < a
  · exact write_of_lt hx
  · exact write_of_ge (by omega)

theorem write_add {k : Nat} (hk : k < bs.length) : m.write a bs (a + k) = bs[k] := by
  simp [write, hk]

@[simp] theorem write_nil : m.write a [] = m := by
  funext x
  simp [write]

/-- Reading back a block that was just written. -/
theorem read_write_self : (m.write a bs).read a bs.length = bs := by
  apply List.ext_getElem
  · simp
  · intro k hk hk'
    have : ((m.write a bs).read a bs.length)[k]? = some bs[k] := by
      rw [getElem?_read hk', write_add hk']
    exact Option.some.inj ((List.getElem?_eq_getElem hk).symm.trans this)

/-- Two memories that agree on a block read the same there. -/
theorem read_congr {m' : Memory β} (h : ∀ x, a ≤ x → x < a + n → m x = m' x) :
    m.read a n = m'.read a n := by
  apply List.map_congr_left
  intro x hx
  rw [List.mem_range'_1] at hx
  exact h x hx.1 hx.2

theorem read_add {k : Nat} : m.read a (n + k) = m.read a n ++ m.read (a + n) k := by
  rw [read, read, read, ← List.map_append, List.range'_append_1]

/-- A part of what is read lies where it should. -/
theorem read_of_read_append {xs ys zs : List β}
    (h : m.read a (xs ++ (ys ++ zs)).length = xs ++ (ys ++ zs)) :
    m.read (a + xs.length) ys.length = ys := by
  rw [List.length_append, List.length_append, read_add, read_add] at h
  have hrest := List.append_inj_right h (by rw [length_read])
  exact List.append_inj_left hrest (by rw [length_read])

/-- Reading a block before or behind the one that was written. -/
theorem read_write_of_disjoint {b : Nat} (h : a + n ≤ b ∨ b + bs.length ≤ a) :
    (m.write b bs).read a n = m.read a n := by
  apply read_congr
  intro x h₁ h₂
  rcases h with h | h
  · exact write_of_lt (by omega)
  · exact write_of_ge (by omega)

theorem write_congr {m' : Memory β} (h : m x = m' x) : m.write a bs x = m'.write a bs x := by
  simp only [write, h]

/-- Two writes that do not overlap can change places. -/
theorem write_comm {b : Nat} (h : a + bs.length ≤ b ∨ b + bs'.length ≤ a) :
    (m.write a bs).write b bs' = (m.write b bs').write a bs := by
  funext x
  by_cases hx : x ∈ List.range' a bs.length
  · have hx' : x ∉ List.range' b bs'.length := by
      rw [List.mem_range'_1] at hx ⊢
      omega
    obtain ⟨k, hk, rfl⟩ : ∃ k, k < bs.length ∧ x = a + k := by
      rw [List.mem_range'_1] at hx
      exact ⟨x - a, by omega, by omega⟩
    rw [write_of_not_mem hx', write_add hk, write_add hk]
  · have hleft : (m.write a bs).write b bs' x = m.write b bs' x := write_congr (write_of_not_mem hx)
    rw [hleft, write_of_not_mem hx]

theorem fill_of_mem {b : β} (h : a ≤ x ∧ x < a + n) : m.fill a n b x = b := by
  rw [fill, if_pos h]

theorem fill_of_not_mem {b : β} (h : ¬ (a ≤ x ∧ x < a + n)) : m.fill a n b x = m x := by
  rw [fill, if_neg h]

/-! ## Address lists -/

@[simp] theorem scatter_nil_left : m.scatter [] bs = m := by cases bs <;> rfl

@[simp] theorem scatter_nil_right : m.scatter as [] = m := by cases as <;> rfl

@[simp] theorem scatter_cons {b : β} :
    m.scatter (a :: as) (b :: bs) = scatter (Function.update m a b) as bs := rfl

/-- A cell whose address is not in the list keeps its value. -/
theorem scatter_of_not_mem (h : x ∉ as) : m.scatter as bs x = m x := by
  induction as generalizing m bs with
  | nil => simp
  | cons a as ih =>
      cases bs with
      | nil => simp
      | cons b bs =>
          have hne : x ≠ a := fun e => h (e ▸ List.mem_cons_self)
          rw [scatter_cons, ih (fun hm => h (List.mem_cons_of_mem _ hm))]
          simp [Function.update_of_ne hne]

theorem scatter_append (h : as.length = bs.length) :
    m.scatter (as ++ as') (bs ++ bs') = (m.scatter as bs).scatter as' bs' := by
  induction as generalizing m bs with
  | nil =>
      cases bs with
      | nil => simp
      | cons b bs => simp at h
  | cons a as ih =>
      cases bs with
      | nil => simp at h
      | cons b bs => simpa using ih (by simpa using h)

/-- Addresses that no value is left for do not matter. -/
theorem scatter_take (h : bs.length ≤ n) : m.scatter (as.take n) bs = m.scatter as bs := by
  induction as generalizing m bs n with
  | nil => simp
  | cons a as ih =>
      cases bs with
      | nil => simp
      | cons b bs =>
          obtain ⟨n, rfl⟩ : ∃ i, n = i + 1 := ⟨n - 1, by simp at h; omega⟩
          exact ih (by simpa using h)

/-- Along a list without repeats every cell holds the value stored for it. -/
theorem scatter_getElem (hnd : as.Nodup) {k : Nat} (hk : k < as.length) (hb : k < bs.length) :
    m.scatter as bs as[k] = bs[k] := by
  induction as generalizing m bs k with
  | nil => simp at hk
  | cons a as ih =>
      cases bs with
      | nil => simp at hb
      | cons b bs =>
          rw [List.nodup_cons] at hnd
          cases k with
          | zero => simp [scatter_of_not_mem hnd.1]
          | succ k => exact ih hnd.2 (by simpa using hk) (by simpa using hb)

/-- Past the stored values the cells of the list keep theirs. -/
theorem scatter_getElem_of_ge (hnd : as.Nodup) {k : Nat} (hk : k < as.length)
    (hb : bs.length ≤ k) : m.scatter as bs as[k] = m as[k] := by
  induction as generalizing m bs k with
  | nil => simp at hk
  | cons a as ih =>
      cases bs with
      | nil => simp
      | cons b bs =>
          rw [List.nodup_cons] at hnd
          cases k with
          | zero => simp at hb
          | succ k =>
              have hk' : k < as.length := by simpa using hk
              have hne : as[k] ≠ a := fun e => hnd.1 (e ▸ List.getElem_mem hk')
              show (scatter (Function.update m a b) as bs) as[k] = m as[k]
              rw [ih hnd.2 hk' (by simpa using hb), Function.update_of_ne hne]

/-! ## Sequences of stores -/

/-- Carry out a sequence of stores, each from an offset of the address list on. -/
def scatterAll (m : Memory β) (as : List Nat) : List (Nat × List β) → Memory β
  | [] => m
  | (o, bs) :: ws => scatterAll (m.scatter (as.drop o) bs) as ws

/-- The value most recently stored at list position `i`. -/
def lastStored (i : Nat) : List (Nat × List β) → Option β
  | [] => none
  | (o, bs) :: ws => (lastStored i ws).or (if o ≤ i then bs[i - o]? else none)

theorem scatterAll_of_not_mem {ws : List (Nat × List β)} (h : x ∉ as) :
    m.scatterAll as ws x = m x := by
  induction ws generalizing m with
  | nil => rfl
  | cons w ws ih =>
      obtain ⟨o, bs⟩ := w
      rw [scatterAll, ih, scatter_of_not_mem (fun hx => h (List.mem_of_mem_drop hx))]

/-- One store from offset `o` on, seen from list position `i`. -/
theorem scatter_drop_getElem (hnd : as.Nodup) {i o : Nat} (hi : i < as.length) :
    m.scatter (as.drop o) bs as[i] = (if o ≤ i then bs[i - o]? else none).getD (m as[i]) := by
  by_cases ho : o ≤ i
  · have hi' : i - o < (as.drop o).length := by rw [List.length_drop]; omega
    have hget : as[i] = (as.drop o)[i - o] := by
      rw [List.getElem_drop]
      congr 1
      omega
    rw [if_pos ho, hget]
    by_cases hb : i - o < bs.length
    · rw [scatter_getElem (hnd.sublist (List.drop_sublist o as)) hi' hb,
        List.getElem?_eq_getElem hb, Option.getD_some]
    · rw [scatter_getElem_of_ge (hnd.sublist (List.drop_sublist o as)) hi' (by omega),
        List.getElem?_eq_none (by omega), Option.getD_none]
  · rw [if_neg ho, Option.getD_none]
    apply scatter_of_not_mem
    intro hmem
    obtain ⟨j, hj, hjeq⟩ := List.getElem_of_mem hmem
    rw [List.getElem_drop] at hjeq
    rw [List.length_drop] at hj
    have := (List.Nodup.getElem_inj_iff hnd).mp hjeq
    omega

/-- A store over a block of the list replaces that block of what the list shows. -/
theorem gather_scatter (hnd : as.Nodup) {pre old post : List β}
    (hg : m.gather as = pre ++ (old ++ post)) (hlen : old.length = bs.length) :
    (m.scatter (as.drop pre.length) bs).gather as = pre ++ (bs ++ post) := by
  have hlength : as.length = pre.length + (old.length + post.length) := by
    have := congrArg List.length hg
    simpa [gather] using this
  apply List.ext_getElem
  · simp [gather, hlength, hlen]
  · intro i h₁ h₂
    have hi : i < as.length := by simpa [gather] using h₁
    have hi' : i < (pre ++ (old ++ post)).length := by simpa [hlength] using hi
    have hold : m as[i] = (pre ++ (old ++ post))[i] := by
      simp only [← hg, gather, List.getElem_map]
    simp only [gather, List.getElem_map]
    rw [scatter_drop_getElem hnd hi, hold]
    by_cases hpre : i < pre.length
    · rw [if_neg (by omega), Option.getD_none, List.getElem_append_left hpre,
        List.getElem_append_left hpre]
    · have hle : pre.length ≤ i := Nat.le_of_not_lt hpre
      rw [if_pos hle, List.getElem_append_right hle, List.getElem_append_right hle]
      by_cases hold' : i - pre.length < bs.length
      · rw [List.getElem?_eq_getElem hold', Option.getD_some, List.getElem_append_left hold']
      · have hge : bs.length ≤ i - pre.length := Nat.le_of_not_lt hold'
        rw [List.getElem?_eq_none hge, Option.getD_none, List.getElem_append_right (hlen ▸ hge),
          List.getElem_append_right hge]
        simp only [hlen]

/-- After a sequence of stores a cell holds the value most recently stored there, or its old
one. -/
theorem scatterAll_getElem {ws : List (Nat × List β)} (hnd : as.Nodup) {i : Nat}
    (hi : i < as.length) :
    m.scatterAll as ws as[i] = (lastStored i ws).getD (m as[i]) := by
  induction ws generalizing m with
  | nil => rfl
  | cons w ws ih =>
      obtain ⟨o, bs⟩ := w
      rw [scatterAll, ih, scatter_drop_getElem hnd hi, lastStored]
      cases lastStored i ws <;> rfl

/-! ## Blocks as address lists -/

/-- A block write is a scatter along the block's addresses. -/
theorem write_eq_scatter : m.write a bs = m.scatter (List.range' a bs.length) bs := by
  funext x
  by_cases hx : x ∈ List.range' a bs.length
  · obtain ⟨k, hk, rfl⟩ : ∃ k, k < bs.length ∧ x = a + k := by
      rw [List.mem_range'_1] at hx
      exact ⟨x - a, by omega, by omega⟩
    have hk' : k < (List.range' a bs.length).length := by simpa using hk
    have hget : m.scatter (List.range' a bs.length) bs (List.range' a bs.length)[k] = bs[k] :=
      scatter_getElem List.nodup_range' hk' hk
    rw [write_add hk, ← hget]
    simp
  · rw [write_of_not_mem hx, scatter_of_not_mem hx]

end Memory

import Mathlib.Order.Nat
import Qine.IdMap
import Qine.Lib.Transducer
import Qine.Lib.StateExcept

/-!
# `IdMap` is a finite partial map

The creators callers pass to `IdMap` may throw, and the vector has been grown by then. Here the
calls are taken with such creators, as commands of a transducer whose state is the table.

What the table is for is said by a second transducer, on partial maps from ids to objects: an allocation
takes the least free id, a search finds the least id of the kind it looks for, and a call that fails
changes nothing. `idMap_refines` shows that along every sequence of calls the table gives the answers
of that transducer and holds the objects it holds, and that going through the table the way `fd_query`
is used visits exactly the used ids, in order.
-/

namespace Qine
namespace IdMap

variable {ε α : Type}

/-! ## Creators that throw -/

/-- How a call can fail: by itself, in the creator it was given, or in `grow`'s assertion. -/
inductive Failure (ε : Type) where
  | alloc (e : AllocError)
  | creator (e : ε)
  | assertion (what : String)
  deriving DecidableEq, Repr

/-- A call on the table. -/
abbrev CallM (ε α : Type) := EStateM (Failure ε) (IdMap α)

/-- `IdMap::emplace`; the vector stays grown when the creator throws. -/
def emplaceWith (i : Nat) (creator : Nat → Except ε α) : CallM ε α Nat := do
  if (← getThe (IdMap α)).max < i + 1 then throw (.assertion "to_size <= m_max")
  modify (·.grow (i + 1))
  match creator i with
  | .error e => throw (.creator e)
  | .ok x =>
    modify fun t => { t with data := t.data.set i (some x) }
    return i

/-- `IdMap::alloc_any`. -/
def allocAnyWith (creator : Nat → Except ε α) : CallM ε α Nat := do
  match (← getThe (IdMap α)).search 0 false with
  | none => throw (.alloc .noFreeId)
  | some i => emplaceWith i creator

/-- `IdMap::alloc_exactly_at`. -/
def allocExactlyAtWith (i : Nat) (creator : Nat → Except ε α) : CallM ε α Nat := do
  if (← getThe (IdMap α)).max ≤ i then throw (.alloc .noFreeId)
  if ((← getThe (IdMap α)).get i).isSome then throw (.alloc .idAlreadyTaken)
  emplaceWith i creator

/-- `IdMap::alloc_starting_at`; the null pointer is `none`. -/
def allocStartingAtWith (start : Nat) (creator : Nat → Except ε α) : CallM ε α (Option Nat) := do
  if (← getThe (IdMap α)).max ≤ start then return none
  match (← getThe (IdMap α)).search start false with
  | none => throw (.alloc .noFreeId)
  | some i => some <$> emplaceWith i creator

/-! ## The table as a transducer -/

/-- The public calls. -/
inductive Call (ε α : Type) where
  | allocAny (creator : Nat → Except ε α)
  | allocStartingAt (start : Nat) (creator : Nat → Except ε α)
  | allocExactlyAt (i : Nat) (creator : Nat → Except ε α)
  | free (i : Nat)
  | search (start : Nat) (used : Bool)
  | get (i : Nat)

/-- What a call answers. `found none` is `INVAL`, and `entry none` and `null` are null pointers. -/
inductive Answer (ε α : Type) where
  | allocated (i : Nat)
  | null
  | failed (e : Failure ε)
  | freed
  | found (i : Option Nat)
  | entry (x : Option α)
  deriving DecidableEq, Repr

/-- What the caller of an allocation sees. -/
def answer {β : Type} (f : β → Answer ε α) :
    EStateM.Result (Failure ε) (IdMap α) β → Answer ε α × IdMap α
  | .ok b t => (f b, t)
  | .error e t => (.failed e, t)

/-- The id of an allocation, or the null pointer. -/
def Answer.ofOption : Option Nat → Answer ε α
  | some i => .allocated i
  | none => .null

/-- `IdMap` as a transducer. -/
def calls : Transducer (IdMap α) (Call ε α) (Answer ε α) := fun t c =>
  match c with
  | .allocAny creator => answer .allocated ((allocAnyWith creator).run t)
  | .allocStartingAt start creator => answer .ofOption ((allocStartingAtWith start creator).run t)
  | .allocExactlyAt i creator => answer .allocated ((allocExactlyAtWith i creator).run t)
  | .free i => (.freed, t.free i)
  | .search start used => (.found (t.search start used), t)
  | .get i => (.entry (t.get i), t)

/-! ## What the table is for -/

open Classical in
/-- The least id from `start` on that is used, or unused, below `max`. -/
noncomputable def least (max : Nat) (f : Nat → Option α) (start : Nat) (used : Bool) : Option Nat :=
  if h : ∃ i, start ≤ i ∧ i < max ∧ (f i).isSome = used then some (Nat.find h) else none

/-- Give an id to what the creator builds. -/
def place (f : Nat → Option α) (i : Nat) (creator : Nat → Except ε α) :
    Answer ε α × (Nat → Option α) :=
  match creator i with
  | .error e => (.failed (.creator e), f)
  | .ok x => (.allocated i, Function.update f i (some x))

/-- A partial map on the ids below `max` as a transducer. -/
noncomputable def partialMap (max : Nat) : Transducer (Nat → Option α) (Call ε α) (Answer ε α) :=
  fun f c =>
  match c with
  | .allocAny creator =>
    match least max f 0 false with
    | none => (.failed (.alloc .noFreeId), f)
    | some i => place f i creator
  | .allocStartingAt start creator =>
    if max ≤ start then (.null, f)
    else match least max f start false with
      | none => (.failed (.alloc .noFreeId), f)
      | some i => place f i creator
  | .allocExactlyAt i creator =>
    if max ≤ i then (.failed (.alloc .noFreeId), f)
    else if (f i).isSome then (.failed (.alloc .idAlreadyTaken), f)
    else place f i creator
  | .free i => (.freed, Function.update f i none)
  | .search start used => (.found (least max f start used), f)
  | .get i => (.entry (f i), f)

theorem least_eq_some {max : Nat} {f : Nat → Option α} {start i : Nat} {used : Bool}
    (hstart : start ≤ i) (hmax : i < max) (hused : (f i).isSome = used)
    (hleast : ∀ j, start ≤ j → j < i → (f j).isSome ≠ used) :
    least max f start used = some i := by
  have hex : ∃ i, start ≤ i ∧ i < max ∧ (f i).isSome = used := ⟨i, hstart, hmax, hused⟩
  rw [least, dif_pos hex]
  congr 1
  rw [Nat.find_eq_iff]
  exact ⟨⟨hstart, hmax, hused⟩, fun j hj hP => hleast j hP.1 hj hP.2.2⟩

theorem least_eq_none {max : Nat} {f : Nat → Option α} {start : Nat} {used : Bool}
    (h : ∀ i, start ≤ i → i < max → (f i).isSome ≠ used) : least max f start used = none := by
  rw [least, dif_neg]
  rintro ⟨i, hstart, hmax, hused⟩
  exact h i hstart hmax hused

theorem least_spec {max : Nat} {f : Nat → Option α} {start i : Nat} {used : Bool}
    (h : least max f start used = some i) :
    start ≤ i ∧ i < max ∧ (f i).isSome = used ∧
      ∀ j, start ≤ j → j < i → (f j).isSome ≠ used := by
  unfold least at h
  split at h
  · next hex =>
      cases h
      obtain ⟨h₁, h₂, h₃⟩ := Nat.find_spec hex
      refine ⟨h₁, h₂, h₃, ?_⟩
      intro j hstart hj hused
      exact Nat.find_min hex hj ⟨hstart, Nat.lt_trans hj h₂, hused⟩
  · cases h

/-! ## Searching -/

/-- The table never outgrows the id space. -/
def Bounded (t : IdMap α) : Prop := t.data.length ≤ t.max

theorem get_of_length_le {t : IdMap α} {i : Nat} (h : t.data.length ≤ i) : t.get i = none := by
  rw [get, List.getElem?_eq_none h]
  rfl

/-- The scan ends at the first slot of the right kind, or behind the vector. -/
theorem searchFrom_spec {t : IdMap α} {used : Bool} {l : List (Option α)} {k : Nat}
    (hl : l = t.data.drop k) :
    (∃ i, searchFrom used l k = .inl i ∧ k ≤ i ∧ i < t.data.length ∧ (t.get i).isSome = used ∧
        ∀ j, k ≤ j → j < i → (t.get j).isSome ≠ used) ∨
      (searchFrom used l k = .inr (Max.max k t.data.length) ∧
        ∀ j, k ≤ j → j < t.data.length → (t.get j).isSome ≠ used) := by
  induction l generalizing k with
  | nil =>
      have hlen := List.drop_eq_nil_iff.1 hl.symm
      refine .inr ⟨?_, fun j hk hj => by omega⟩
      rw [searchFrom, Nat.max_eq_left hlen]
  | cons x xs ih =>
      have hk : k < t.data.length := by
        by_contra hge
        rw [List.drop_eq_nil_of_le (Nat.le_of_not_lt hge)] at hl
        cases hl
      have hx : t.get k = x := by
        have hhead : t.data[k]? = some x := by
          rw [← List.head?_drop, ← hl]
          rfl
        rw [get, hhead]
        rfl
      have hxs : xs = t.data.drop (k + 1) := by
        rw [← List.tail_drop, ← hl]
        rfl
      unfold searchFrom
      by_cases hkind : x.isSome = used
      · refine .inl ⟨k, ?_, Nat.le_refl k, hk, by rw [hx, hkind], fun j h₁ h₂ => by omega⟩
        rw [if_pos (by simpa using hkind)]
      · rw [if_neg (by simpa using hkind)]
        rcases ih hxs with ⟨i, hi, hle, hlen, hused, hmin⟩ | ⟨hi, hmin⟩
        · refine .inl ⟨i, hi, by omega, hlen, hused, ?_⟩
          intro j h₁ h₂
          by_cases hj : j = k
          · rw [hj, hx]
            exact hkind
          · exact hmin j (by omega) h₂
        · refine .inr ⟨by rw [hi]; congr 1; omega, ?_⟩
          intro j h₁ h₂
          by_cases hj : j = k
          · rw [hj, hx]
            exact hkind
          · exact hmin j (by omega) h₂

/-- `search` finds the least id of the kind it looks for. -/
theorem search_eq_least {t : IdMap α} (h : t.Bounded) (start : Nat) (used : Bool) :
    t.search start used = least t.max t.get start used := by
  unfold search
  rcases @searchFrom_spec α t used _ start rfl with
    ⟨i, hi, hle, hlen, hused, hmin⟩ | ⟨hi, hmin⟩
  · rw [hi, least_eq_some hle (Nat.lt_of_lt_of_le hlen h) hused hmin]
  · rw [hi]
    cases used with
    | true =>
        rw [least_eq_none]
        · rfl
        · intro i hle hmax
          by_cases hlen : i < t.data.length
          · exact hmin i hle hlen
          · rw [get_of_length_le (Nat.le_of_not_lt hlen)]
            exact Bool.false_ne_true
    | false =>
        by_cases hmax : Max.max start t.data.length < t.max
        · rw [least_eq_some (i := Max.max start t.data.length) (by omega) hmax]
          · simp [hmax]
          · rw [get_of_length_le (by omega)]
            rfl
          · intro j hle hj
            exact hmin j hle (by omega)
        · rw [least_eq_none]
          · simp [hmax]
          · intro i hle hi'
            unfold Bounded at h
            exact hmin i hle (by omega)

/-! ## The calls -/

/-- `t` holds what the partial map `f` on the ids below `bound` holds. -/
structure Rep (bound : Nat) (t : IdMap α) (f : Nat → Option α) : Prop where
  max_eq : t.max = bound
  bounded : t.Bounded
  get_eq : t.get = f

theorem max_grow (t : IdMap α) (n : Nat) : (t.grow n).max = t.max := by
  unfold grow
  split <;> rfl

theorem length_grow (t : IdMap α) (n : Nat) : (t.grow n).data.length = Max.max t.data.length n := by
  unfold grow
  split
  · next h => exact (Nat.max_eq_left h).symm
  · simp only [List.length_append, List.length_replicate]
    omega

variable {bound : Nat} {t : IdMap α} {f : Nat → Option α}

/-- Nothing is held at an id from `bound` on. -/
theorem Rep.get_of_le (h : Rep bound t f) {i : Nat} (hi : bound ≤ i) : t.get i = none := by
  have hlen : t.data.length ≤ t.max := h.bounded
  rw [h.max_eq] at hlen
  exact get_of_length_le (Nat.le_trans hlen hi)

theorem Rep.lt_of_some (h : Rep bound t f) {i : Nat} {x : α} (hx : t.get i = some x) : i < bound := by
  by_contra hge
  rw [h.get_of_le (Nat.le_of_not_lt hge)] at hx
  cases hx

theorem Rep.grow (h : Rep bound t f) {n : Nat} (hn : n ≤ bound) : Rep bound (t.grow n) f := by
  refine ⟨by rw [max_grow, h.max_eq], ?_, ?_⟩
  · have hb := h.bounded
    unfold Bounded at hb ⊢
    rw [length_grow, max_grow, h.max_eq]
    rw [h.max_eq] at hb
    omega
  · funext i
    rw [get_grow, h.get_eq]

theorem Rep.emplace (h : Rep bound t f) {i : Nat} (hi : i < bound) (x : α) :
    Rep bound (t.emplace i x) (Function.update f i (some x)) := by
  refine ⟨by rw [IdMap.emplace, max_grow, h.max_eq], ?_, ?_⟩
  · have hb := (h.grow (n := i + 1) hi).bounded
    unfold Bounded at hb ⊢
    simpa only [IdMap.emplace, List.length_set] using hb
  · funext j
    rw [get_emplace, Function.update_apply, h.get_eq]
    simp only [eq_comm]

/-- Emplacing at an id below `bound` places what the creator builds; the assertion holds. -/
theorem Rep.emplaceWith (h : Rep bound t f) {i : Nat} (hi : i < bound) (creator : Nat → Except ε α) :
    (answer .allocated ((IdMap.emplaceWith i creator).run t)).1 = (place f i creator).1 ∧
      Rep bound (answer (α := α) .allocated ((IdMap.emplaceWith i creator).run t)).2
        (place f i creator).2 := by
  have hlt : ¬ t.max < i + 1 := by rw [h.max_eq]; omega
  have hrun : (IdMap.emplaceWith i creator).run t = match creator i with
      | .error e => .error (.creator e) (t.grow (i + 1))
      | .ok x => .ok i (t.emplace i x) := by
    unfold IdMap.emplaceWith
    show (if t.max < i + 1 then throw _ else _ : CallM ε α Nat).run t = _
    rw [if_neg hlt]
    cases creator i with
    | error e => rfl
    | ok x => rfl
  rw [hrun]
  unfold place
  cases creator i with
  | error e => exact ⟨rfl, h.grow hi⟩
  | ok x => exact ⟨rfl, h.emplace hi x⟩

theorem Rep.free (h : Rep bound t f) (i : Nat) :
    Rep bound (t.free i) (Function.update f i none) := by
  refine ⟨h.max_eq, ?_, ?_⟩
  · have hb := h.bounded
    unfold Bounded at hb ⊢
    simpa only [IdMap.free, List.length_set] using hb
  · funext j
    rw [get_free, Function.update_apply, h.get_eq]
    simp only [eq_comm]

theorem Rep.search (h : Rep bound t f) (start : Nat) (used : Bool) :
    t.search start used = least bound f start used := by
  rw [search_eq_least h.bounded, h.max_eq, h.get_eq]

/-- An allocation that searches first. -/
theorem Rep.searchThen (h : Rep bound t f) (start : Nat) (creator : Nat → Except ε α) :
    let x : CallM ε α Nat := match t.search start false with
      | none => throw (.alloc .noFreeId)
      | some i => IdMap.emplaceWith i creator
    let y : Answer ε α × (Nat → Option α) := match least bound f start false with
      | none => (.failed (.alloc .noFreeId), f)
      | some i => place f i creator
    (answer .allocated (x.run t)).1 = y.1 ∧ Rep bound (answer (α := α) .allocated (x.run t)).2 y.2 := by
  intro x y
  simp only [x, y, h.search]
  cases hleast : least bound f start false with
  | none => exact ⟨rfl, h⟩
  | some i => exact h.emplaceWith (least_spec hleast).2.1 creator

/-- The null pointer aside, `alloc_starting_at` answers with the id it took. -/
theorem answer_map_some (x : CallM ε α Nat) (t : IdMap α) :
    answer .ofOption ((some <$> x).run t) = answer (α := α) .allocated (x.run t) := by
  show answer .ofOption (EStateM.map some x t) = answer .allocated (x t)
  unfold EStateM.map
  cases x t with
  | ok i t' => rfl
  | error e t' => rfl

theorem Rep.allocStartingAt (h : Rep bound t f) (start : Nat) (creator : Nat → Except ε α) :
    let c := Call.allocStartingAt start creator
    (calls t c).1 = (partialMap bound f c).1 ∧ Rep bound (calls t c).2 (partialMap bound f c).2 := by
  intro c
  have hrun : calls t c =
      if bound ≤ start then (.null, t)
      else answer .ofOption ((match t.search start false with
        | none => throw (.alloc .noFreeId)
        | some i => some <$> IdMap.emplaceWith i creator : CallM ε α (Option Nat)).run t) := by
    simp only [c, calls, allocStartingAtWith]
    show answer .ofOption ((if t.max ≤ start then _ else _ : CallM ε α (Option Nat)).run t) = _
    rw [h.max_eq]
    split <;> rfl
  rw [hrun]
  simp only [c, partialMap]
  by_cases hstart : bound ≤ start
  · rw [if_pos hstart, if_pos hstart]
    exact ⟨rfl, h⟩
  · rw [if_neg hstart, if_neg hstart]
    have hsearch := h.searchThen start creator
    revert hsearch
    cases t.search start false with
    | none => exact id
    | some i =>
        intro hsearch
        rw [answer_map_some]
        exact hsearch

theorem Rep.allocExactlyAt (h : Rep bound t f) (i : Nat) (creator : Nat → Except ε α) :
    let c := Call.allocExactlyAt i creator
    (calls t c).1 = (partialMap bound f c).1 ∧ Rep bound (calls t c).2 (partialMap bound f c).2 := by
  intro c
  have hrun : calls t c =
      if bound ≤ i then (.failed (.alloc .noFreeId), t)
      else if (f i).isSome then (.failed (.alloc .idAlreadyTaken), t)
      else answer .allocated ((IdMap.emplaceWith i creator).run t) := by
    simp only [c, calls, allocExactlyAtWith]
    rw [← h.max_eq, ← h.get_eq]
    show answer .allocated ((if t.max ≤ i then _ else _ : CallM ε α Nat).run t) = _
    split
    · rfl
    · show answer .allocated ((if (t.get i).isSome then _ else _ : CallM ε α Nat).run t) = _
      split <;> rfl
  rw [hrun]
  simp only [c, partialMap]
  by_cases hi : bound ≤ i
  · rw [if_pos hi, if_pos hi]
    exact ⟨rfl, h⟩
  · rw [if_neg hi, if_neg hi]
    by_cases hsome : (f i).isSome = true
    · rw [if_pos hsome, if_pos hsome]
      exact ⟨rfl, h⟩
    · rw [if_neg hsome, if_neg hsome]
      exact h.emplaceWith (Nat.lt_of_not_le hi) creator

/-- Every call answers as it does on the partial map, and the table holds what the map holds. -/
theorem Rep.call (h : Rep bound t f) (c : Call ε α) :
    (calls t c).1 = (partialMap bound f c).1 ∧ Rep bound (calls t c).2 (partialMap bound f c).2 := by
  cases c with
  | allocAny creator => exact h.searchThen 0 creator
  | allocStartingAt start creator => exact h.allocStartingAt start creator
  | allocExactlyAt i creator => exact h.allocExactlyAt i creator
  | free i => exact ⟨rfl, h.free i⟩
  | search start used => exact ⟨congrArg Answer.found (h.search start used), h⟩
  | get i => exact ⟨congrArg Answer.entry (congrFun h.get_eq i), h⟩

theorem rep_empty (bound : Nat) : Rep bound (empty bound : IdMap α) fun _ => none := by
  refine ⟨rfl, Nat.zero_le _, ?_⟩
  funext i
  rfl

/-! ## Going through the used ids -/

/-- Asking for the next used id from `i` on, as `fd_query` is used, yields `ids` and then `INVAL`. -/
inductive Visits (t : IdMap α) : Nat → List Nat → Prop
  | done {i : Nat} : t.search i true = none → Visits t i []
  | next {i j : Nat} {ids : List Nat} : t.search i true = some j → Visits t (j + 1) ids →
      Visits t i (j :: ids)

/-- The used ids from `i` on, `n` of them at most, in order. -/
theorem filter_range'_used {used : Nat → Bool} {i j n : Nat} (hij : i ≤ j) (hj : j < i + n)
    (hused : used j = true) (hskip : ∀ k, i ≤ k → k < j → used k = false) :
    (List.range' i n).filter used = j :: (List.range' (j + 1) (i + n - (j + 1))).filter used := by
  obtain ⟨d, rfl⟩ := Nat.exists_eq_add_of_le hij
  have hsplit : List.range' i n = List.range' i d ++ (i + d) :: List.range' (i + d + 1) (n - (d + 1)) := by
    have hn : n = d + (1 + (n - (d + 1))) := by omega
    conv_lhs => rw [hn]
    rw [← List.range'_append_1, ← List.range'_append_1]
    rfl
  have hnil : (List.range' i d).filter used = [] := by
    rw [List.filter_eq_nil_iff]
    intro k hk
    rw [List.mem_range'_1] at hk
    simp [hskip k hk.1 hk.2]
  rw [hsplit, List.filter_append, hnil, List.nil_append, List.filter_cons_of_pos hused]
  congr 3
  omega

/-- From any id on, exactly the used ids are visited, in increasing order. -/
theorem visits_used (h : t.Bounded) (n i : Nat) (hn : i + n = t.max) :
    Visits t i ((List.range' i n).filter fun j => (t.get j).isSome) := by
  induction n using Nat.strongRecOn generalizing i with
  | _ n ih =>
      have hsearch := search_eq_least h i true
      cases hleast : least t.max t.get i true with
      | none =>
          have hnil : (List.range' i n).filter (fun j => (t.get j).isSome) = [] := by
            rw [List.filter_eq_nil_iff]
            intro j hj hused
            rw [List.mem_range'_1] at hj
            unfold least at hleast
            split at hleast
            · cases hleast
            · next hex => exact hex ⟨j, hj.1, by omega, hused⟩
          rw [hnil]
          exact .done (hsearch.trans hleast)
      | some j =>
          obtain ⟨hij, hj, hused, hmin⟩ := least_spec hleast
          have hskip : ∀ k, i ≤ k → k < j → (t.get k).isSome = false := by
            intro k h₁ h₂
            simpa using hmin k h₁ h₂
          rw [filter_range'_used hij (by omega) hused hskip]
          exact .next (hsearch.trans hleast) (ih _ (by omega) _ (by omega))

/-- Along every sequence of calls the table answers as the partial map on the ids below `max` does
and holds what it holds, nothing is ever held at or past `max`, and asking for one used id after the
other visits every used id once, in increasing order, before `INVAL` is reported. -/
theorem idMap_refines (max : Nat) (cs : List (Call ε α)) :
    let t := (calls.run (empty max) cs).2
    (calls.run (empty max) cs).1 = ((partialMap max).run (fun _ => none) cs).1 ∧
      t.get = ((partialMap max).run (fun _ => none) cs).2 ∧
      (∀ i, max ≤ i → t.get i = none) ∧
      Visits t 0 ((List.range max).filter fun i => (t.get i).isSome) := by
  intro t
  obtain ⟨hanswers, hrep⟩ := Transducer.run_refines (m := calls) (n := partialMap max)
    (fun _ _ c h => Rep.call h c) (rep_empty max) cs
  refine ⟨hanswers, hrep.get_eq, fun i hi => hrep.get_of_le hi, ?_⟩
  rw [List.range_eq_range']
  exact visits_used hrep.bounded max 0 (by rw [Nat.zero_add, hrep.max_eq])

end IdMap
end Qine

import Mathlib.Data.List.Chain
import Mathlib.Data.List.Nodup
import Mathlib.Logic.Function.Basic

/-!
# Rings of linked nodes

A doubly linked circular list seen from a base node: the members in the order in which the forward
links meet them. The links are two partial functions, so that a node may have none. A member is put in
behind the base (`Closed.insert`) and any member is taken out (`Closed.remove`) by changing four links;
`Closed.follow` and `Closed.reverse` say what a walk along the links meets.
-/

namespace LinkRing

variable {ι : Type*} {next prev next' prev' : ι → Option ι} {b p q x : ι} {l l₁ l₂ : List ι}

/-- Neighbours of the list are linked with each other. -/
def Linked (next prev : ι → Option ι) (l : List ι) : Prop :=
  l.IsChain fun x y => next x = some y ∧ prev y = some x

/-- From `b` the forward links meet the members of `l` and then `b` again. -/
def Closed (next prev : ι → Option ι) (b : ι) (l : List ι) : Prop := Linked next prev (b :: (l ++ [b]))

/-- The nodes that a walk along the links meets before it comes to `stop`. -/
def follow [DecidableEq ι] (link : ι → Option ι) (stop : ι) : Nat → Option ι → Option (List ι)
  | 0, _ => none
  | _ + 1, none => none
  | fuel + 1, some x =>
    if x = stop then some [] else (follow link stop fuel (link x)).map (x :: ·)

/-! ## Linked lists -/

theorem linked_cons_cons :
    Linked next prev (p :: q :: l) ↔ (next p = some q ∧ prev q = some p) ∧ Linked next prev (q :: l) :=
  List.isChain_cons_cons

/-- A list is linked when its parts up to a node and from it on are. -/
theorem linked_split :
    Linked next prev (l₁ ++ x :: l₂) ↔ Linked next prev (l₁ ++ [x]) ∧ Linked next prev (x :: l₂) :=
  List.isChain_split

/-- The forward link of the last node and the backward link of the first one do not matter. -/
theorem Linked.congr (h : Linked next prev l) (hnext : ∀ x ∈ l.dropLast, next' x = next x)
    (hprev : ∀ x ∈ l.tail, prev' x = prev x) : Linked next' prev' l := by
  induction l with
  | nil => exact .nil
  | cons a l ih =>
      cases l with
      | nil => exact .singleton a
      | cons c l =>
          obtain ⟨⟨hn, hp⟩, hl⟩ := linked_cons_cons.1 h
          refine linked_cons_cons.2 ⟨⟨?_, ?_⟩, ih hl ?_ ?_⟩
          · rw [hnext a (by simp), hn]
          · rw [hprev c (by simp), hp]
          · intro x hx
            exact hnext x (by simp [hx])
          · intro x hx
            exact hprev x (List.mem_cons_of_mem _ hx)

/-- Of `x` both links change, of `p` the forward link and of `q` the backward link. A list without `x` stays
linked if `p` can only be its last node, and `q` its first one. -/
theorem Linked.frame (h : Linked next prev l) (hx : x ∉ l) (hp : p ∉ l.dropLast) (hq : q ∉ l.tail)
    (hnext : ∀ y, y ≠ p → y ≠ x → next' y = next y) (hprev : ∀ y, y ≠ q → y ≠ x → prev' y = prev y) :
    Linked next' prev' l := by
  refine h.congr ?_ ?_
  · intro y hy
    exact hnext y (fun he => hp (he ▸ hy)) (fun he => hx (he ▸ List.dropLast_subset _ hy))
  · intro y hy
    exact hprev y (fun he => hq (he ▸ hy)) (fun he => hx (he ▸ List.mem_of_mem_tail hy))

/-- The same nodes, met the other way round. -/
theorem Linked.reverse (h : Linked next prev l) : Linked prev next l.reverse :=
  List.isChain_reverse.2 (h.imp fun _ _ h => ⟨h.2, h.1⟩)

/-! ## Rings -/

theorem closed_nil : Closed next prev b [] ↔ next b = some b ∧ prev b = some b := by
  simp [Closed, Linked]

theorem Closed.reverse (h : Closed next prev b l) : Closed prev next b l.reverse := by
  have hrev := Linked.reverse h
  rwa [List.reverse_cons, List.reverse_append] at hrev

/-- The forward link of the base is to the first member, or to the base itself. -/
theorem Closed.next_base (h : Closed next prev b l) : next b = some (l.headD b) := by
  cases l with
  | nil => exact (closed_nil.1 h).1
  | cons a l => exact (linked_cons_cons.1 h).1.1

/-- A walk along the forward links meets the members in order. -/
theorem Linked.follow [DecidableEq ι] {fuel : Nat} (h : Linked next prev (x :: (l ++ [b]))) (hb : b ∉ l)
    (hfuel : l.length < fuel) : follow next b fuel (next x) = some l := by
  induction l generalizing x fuel with
  | nil =>
      obtain ⟨n, rfl⟩ := Nat.exists_eq_add_of_lt hfuel
      have hx : next x = some b := (linked_cons_cons.1 h).1.1
      simp [hx, LinkRing.follow]
  | cons c l ih =>
      obtain ⟨n, rfl⟩ := Nat.exists_eq_add_of_lt hfuel
      obtain ⟨⟨hx, -⟩, hl⟩ := linked_cons_cons.1 h
      have hcb : c ≠ b := fun he => hb (he ▸ List.mem_cons_self)
      have hrest : LinkRing.follow next b (l.length + 1 + n) (next c) = some l :=
        ih hl (fun hm => hb (List.mem_cons_of_mem _ hm)) (by omega)
      simp [hx, LinkRing.follow, hcb, hrest]

theorem Closed.follow [DecidableEq ι] {fuel : Nat} (h : Closed next prev b l) (hb : b ∉ l)
    (hfuel : l.length < fuel) : LinkRing.follow next b fuel (next b) = some l :=
  Linked.follow h hb hfuel

/-! ## Changing a ring -/

/-- The ring seen from a member: the nodes up to its predecessor, and those from its successor on. -/
theorem Closed.around (h : Closed next prev b (l₁ ++ x :: l₂)) : ∃ u p q w, b :: l₁ = u ++ [p] ∧
    l₂ ++ [b] = q :: w ∧ Linked next prev (u ++ [p]) ∧ Linked next prev (q :: w) ∧
    next x = some q ∧ prev x = some p := by
  obtain ⟨u, p, hu⟩ : ∃ u p, b :: l₁ = u ++ [p] := by
    simpa using List.eq_nil_or_concat (b :: l₁)
  obtain ⟨q, w, hw⟩ := List.exists_cons_of_ne_nil (List.concat_ne_nil b l₂)
  have hsplit : b :: (l₁ ++ x :: l₂ ++ [b]) = u ++ p :: x :: q :: w := by
    calc b :: (l₁ ++ x :: l₂ ++ [b]) = (b :: l₁) ++ x :: (l₂ ++ [b]) := by simp
      _ = u ++ p :: x :: q :: w := by rw [hu, hw, List.append_assoc, List.singleton_append]
  unfold Closed at h
  rw [hsplit, linked_split, linked_cons_cons, linked_cons_cons] at h
  obtain ⟨hleft, ⟨-, hxp⟩, ⟨hxq, -⟩, hright⟩ := h
  exact ⟨u, p, q, w, hu, hw, hleft, hright, hxq, hxp⟩

/-- A member is taken out by linking its neighbours with each other. -/
theorem Closed.remove (h : Closed next prev b (l₁ ++ x :: l₂)) (hnodup : (b :: (l₁ ++ x :: l₂)).Nodup)
    (hxq : next x = some q) (hxp : prev x = some p) (hpq : next' p = some q) (hqp : prev' q = some p)
    (hnext : ∀ y, y ≠ p → y ≠ x → next' y = next y) (hprev : ∀ y, y ≠ q → y ≠ x → prev' y = prev y) :
    Closed next' prev' b (l₁ ++ l₂) := by
  obtain ⟨u, p', q', w, hu, hw, hleft, hright, hxq', hxp'⟩ := h.around
  obtain rfl : q' = q := Option.some_inj.1 (hxq'.symm.trans hxq)
  obtain rfl : p' = p := Option.some_inj.1 (hxp'.symm.trans hxp)
  have hring : b :: (l₁ ++ l₂ ++ [b]) = u ++ p' :: q' :: w := by
    calc b :: (l₁ ++ l₂ ++ [b]) = (b :: l₁) ++ (l₂ ++ [b]) := by simp
      _ = u ++ p' :: q' :: w := by rw [hu, hw, List.append_assoc, List.singleton_append]
  unfold Closed
  rw [hring, linked_split, linked_cons_cons]
  have hl₁ : (u ++ [p']).tail = l₁ := by rw [← hu, List.tail_cons]
  have hl₂ : (q' :: w).dropLast = l₂ := by rw [← hw, List.dropLast_concat]
  -- no node stands twice in the ring, but for the base at its two ends
  have hbefore : (u ++ [p']).Nodup := hu ▸ hnodup.sublist (by simp)
  have hafter : (q' :: w).Nodup := hw ▸ (List.perm_append_singleton b l₂).nodup_iff.2 (hnodup.sublist (by simp))
  have hxleft : x ∉ u ++ [p'] := hu ▸ by grind
  have hxright : x ∉ q' :: w := hw ▸ by grind
  have hl₁q : ∀ y ∈ l₁, y ∉ q' :: w := hw ▸ by grind
  have hl₂p : ∀ y ∈ l₂, y ∉ u ++ [p'] := hu ▸ by grind
  refine ⟨hleft.frame hxleft ?_ ?_ hnext hprev, ⟨hpq, hqp⟩, hright.frame hxright ?_ ?_ hnext hprev⟩
  · rw [List.dropLast_concat]
    exact fun hp => List.disjoint_of_nodup_append hbefore hp List.mem_cons_self
  · rw [hl₁]
    exact fun hq => hl₁q q' hq List.mem_cons_self
  · rw [hl₂]
    exact fun hp => hl₂p p' hp (List.mem_append_right _ List.mem_cons_self)
  · exact (List.nodup_cons.1 hafter).1

/-- A new member is put in behind the base by linking it with the base and with the first member. -/
theorem Closed.insert (h : Closed next prev b l) (hnodup : (b :: l).Nodup) (hx : x ∉ b :: l)
    (hq : next b = some q) (hbx : next' b = some x) (hxb : prev' x = some b) (hxq : next' x = some q)
    (hqx : prev' q = some x) (hnext : ∀ y, y ≠ b → y ≠ x → next' y = next y)
    (hprev : ∀ y, y ≠ q → y ≠ x → prev' y = prev y) : Closed next' prev' b (x :: l) := by
  obtain ⟨q', w, hw⟩ := List.exists_cons_of_ne_nil (List.concat_ne_nil b l)
  unfold Closed at h
  rw [hw, linked_cons_cons] at h
  obtain rfl : q' = q := Option.some_inj.1 (h.1.1.symm.trans hq)
  unfold Closed
  rw [List.cons_append, hw, linked_cons_cons, linked_cons_cons]
  have hl : (q' :: w).dropLast = l := by rw [← hw, List.dropLast_concat]
  have hnodup' : (q' :: w).Nodup := hw ▸ (List.perm_append_singleton b l).nodup_iff.2 hnodup
  have hx' : x ∉ q' :: w := hw ▸ by simpa [or_comm] using hx
  refine ⟨⟨hbx, hxb⟩, ⟨hxq, hqx⟩, h.2.frame hx' ?_ ?_ hnext hprev⟩
  · rw [hl]
    exact (List.nodup_cons.1 hnodup).1
  · exact (List.nodup_cons.1 hnodup').1

end LinkRing

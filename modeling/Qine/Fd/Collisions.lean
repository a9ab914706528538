import Qine.Fd.Handlers

/-!
# Pipes on colliding numbers

`realloc_fd` moves a host descriptor of a new pipe out of the way if its number is wanted for the other
end, and uses the number where an index is expected. `assignLoop_fault` says that this leaves the array
of the two handles when the number is not an index by chance, and `assignLoop_leaves` that nothing goes
wrong otherwise, whatever calls the host refuses.
-/

namespace Qine
namespace FdHandler

variable {φ : Type} {h : FdHost φ}

/-- What a host call does. -/
theorem hostCallOn_run {σ α : Type} {part : σ → HostFds φ} {put : HostFds φ → σ → σ} {s : σ}
    {refused : Option Int} {x : HostFds φ → Option (HostFds φ × α)} :
    (hostCallOn part put refused x).run s = match refused, x (part s) with
      | some errno, _ => .ok (.error errno) s
      | none, none => .ok (.error qebadf) s
      | none, some (host, a) => .ok (.ok a) (put host s) := by
  unfold hostCallOn
  rw [EStateM.run_get_bind]
  cases refused with
  | some errno => rfl
  | none =>
      cases x (part s) with
      | none => rfl
      | some r => rfl

/-- What holds after a host call: it has failed, or it has done what it does. -/
theorem hostCallOn_leaves {σ α : Type} {part : σ → HostFds φ} {put : HostFds φ → σ → σ} {s : σ}
    {refused : Option Int} {x : HostFds φ → Option (HostFds φ × α)} :
    (hostCallOn part put refused x).Leaves s
      (fun r s' => (∃ errno, r = .error errno) ∧ s' = s ∨
        ∃ host a, refused = none ∧ x (part s) = some (host, a) ∧ r = .ok a ∧ s' = put host s)
      fun _ _ => False := by
  refine ⟨?_, ?_⟩
  · intro r s' hr
    rw [hostCallOn_run] at hr
    split at hr
    · cases hr
      exact .inl ⟨⟨_, rfl⟩, rfl⟩
    · cases hr
      exact .inl ⟨⟨_, rfl⟩, rfl⟩
    · next hsome =>
        cases hr
        exact .inr ⟨_, _, rfl, hsome, rfl, rfl⟩
  · intro err s' hr
    rw [hostCallOn_run] at hr
    split at hr <;> cases hr

@[simp] theorem lookup_natCast {host : HostFds φ} {n : Nat} : host.lookup n = host.get n := by
  unfold HostFds.lookup
  rw [if_neg (by omega), Int.toNat_natCast]

/-- A number that was copied to is open, and nothing is closed. -/
theorem dup2_opens {host host' : HostFds φ} {c : Int} {n : Nat} (hdup : host.dup2 c n = some host') :
    (host'.get n).isSome = true ∧
      ∀ k, (host.get k).isSome = true → (host'.get k).isSome = true := by
  unfold HostFds.dup2 at hdup
  obtain ⟨d, hd, hhost⟩ := Option.map_eq_some_iff.mp hdup
  split at hhost
  · next heq =>
      subst hhost heq
      rw [lookup_natCast] at hd
      exact ⟨by rw [hd]; rfl, fun k hk => hk⟩
  · subst hhost
    refine ⟨by rw [Slots.get_put, if_pos rfl]; rfl, ?_⟩
    intro k hk
    rw [Slots.get_put]
    split_ifs
    · rfl
    · exact hk

/-- A `dup` gives a new number, and closes nothing. -/
theorem dup_opens {host host' : HostFds φ} {c : Int} {d : Nat} (hdup : host.dup c = some (host', d)) :
    host.get d = none ∧ (host'.get d).isSome = true ∧
      ∀ k, (host.get k).isSome = true → (host'.get k).isSome = true := by
  unfold HostFds.dup at hdup
  obtain ⟨file, -, hopen⟩ := Option.map_eq_some_iff.mp hdup
  cases hopen
  refine ⟨host.lowestFree_spec.1, by rw [Slots.get_put, if_pos rfl]; rfl, ?_⟩
  intro k hk
  rw [Slots.get_put]
  split_ifs
  · rfl
  · exact hk

namespace AssignM

variable {st st' : AssignState φ} {a b n : Nat} {e : QnxFd}

/-- The handles own two different open descriptors. -/
structure Pair (st : AssignState φ) (a b : Nat) : Prop where
  hostFds : st.hostFds = [(a : Int), (b : Int)]
  ne : a ≠ b
  left : (st.host.get a).isSome = true
  right : (st.host.get b).isSome = true

theorem Pair.unique {a' b' : Nat} (h : Pair st a b) (h' : Pair st a' b') : a' = a ∧ b' = b := by
  have hfds := h'.hostFds.symm.trans h.hostFds
  simp only [List.cons.injEq, and_true] at hfds
  omega

theorem movedTo_run {index : Nat} {c to' : Int} (hc : st.hostFds[index]? = some c) :
    (movedTo index to').run st = .ok ⟨⟩
      { host := UniqueFd.close st.host c
        hostFds := st.hostFds.set index to'
        fdToIndex := Function.update (Function.update st.fdToIndex c none) (-1) (some index) } := by
  unfold movedTo AssignState.hostFdMoved
  rw [EStateM.run_get_bind, hc]
  rfl

/-! ## Making a number free -/

/-- The number is used for an index. -/
theorem reallocFd_fault (hkey : st.fdToIndex n ≠ none) (hdup : h.refuse (.dup n) = none)
    (hopen : (st.host.get n).isSome = true) (hn : st.hostFds.length ≤ n) :
    ∃ st', (reallocFd h n).run st = .error (.fault .outOfBounds) st' := by
  obtain ⟨i, hi⟩ := Option.ne_none_iff_exists'.mp hkey
  obtain ⟨d, hd⟩ := Option.isSome_iff_exists.mp hopen
  unfold reallocFd
  rw [EStateM.run_get_bind, hi]
  unfold assignCall
  rw [hdup]
  refine ⟨{ st with host := (st.host.openFile d.file).1 }, ?_⟩
  dsimp only
  rw [EStateM.run_bind, hostCallOn_run, HostFds.dup, lookup_natCast, hd]
  dsimp only [Option.map_some]
  unfold movedTo AssignState.hostFdMoved
  rw [EStateM.run_bind, EStateM.run_get_bind, List.getElem?_eq_none hn]
  rfl

/-- A descriptor was moved out of the way of a number that is an index by chance. -/
structure Chance (st st' : AssignState φ) (a b n a' b' : Nat) : Prop where
  keys : st'.fdToIndex = Function.update (Function.update st.fdToIndex
    (if n = 0 then (a : Int) else b) none) (-1) (some n)
  place : n = 0 ∧ a' ≠ n ∧ b' = b ∨ n = 1 ∧ a' = a ∧ b' ≠ n

/-- Numbers that are an index by chance are dealt with correctly. -/
theorem reallocFd_leaves (hp : Pair st a b) (hkey : st.fdToIndex n ≠ none → n = a ∨ n = b)
    (hsafe : st.fdToIndex n ≠ none → h.refuse (.dup n) = none → n < 2) :
    (reallocFd h n).Leaves st (fun r st' => r = .ok () → ∃ a' b', Pair st' a' b' ∧
        ((st.fdToIndex n = none ∧ st' = st) ∨ (st.fdToIndex n ≠ none ∧ Chance st st' a b n a' b')))
      fun _ _ => False := by
  unfold reallocFd
  apply EStateM.leaves_get_bind
  split
  · next hnone => exact EStateM.leaves_pure fun _ => ⟨a, b, hp, .inl ⟨hnone, rfl⟩⟩
  · next i hsome =>
      have hne : st.fdToIndex n ≠ none := by rw [hsome]; nofun
      have hn := hkey hne
      refine hostCallOn_leaves.bind ?_
      rintro r st₁ (⟨⟨errno, rfl⟩, rfl⟩ | ⟨host, d, hnot, hdup, rfl, rfl⟩)
      · exact EStateM.leaves_pure nofun
      obtain ⟨hfree, hopen, hkept⟩ := dup_opens hdup
      have hlt := hsafe hne hnot
      -- the new number is not one of those that are open
      have hda : d ≠ a := by
        rintro rfl
        exact absurd hp.left (by rw [hfree]; nofun)
      have hdb : d ≠ b := by
        rintro rfl
        exact absurd hp.right (by rw [hfree]; nofun)
      obtain rfl | rfl : n = 0 ∨ n = 1 := by omega
      · refine EStateM.leaves_bind_of_ok (movedTo_run (c := a) (by rw [hp.hostFds]; rfl)) ?_
        refine EStateM.leaves_pure fun _ => ⟨d, b, ⟨by rw [hp.hostFds]; rfl, hdb, ?_, ?_⟩, .inr ⟨hne, ?_⟩⟩
        · rw [UniqueFd.get_close, if_neg (fun hh => hda hh.1)]
          exact hopen
        · rw [UniqueFd.get_close, if_neg (fun hh => hp.ne hh.1.symm)]
          exact hkept b hp.right
        · exact ⟨rfl, .inl ⟨rfl, by omega, rfl⟩⟩
      · refine EStateM.leaves_bind_of_ok (movedTo_run (c := b) (by rw [hp.hostFds]; rfl)) ?_
        refine EStateM.leaves_pure fun _ => ⟨a, d, ⟨by rw [hp.hostFds]; rfl, hda.symm, ?_, ?_⟩, .inr ⟨hne, ?_⟩⟩
        · rw [UniqueFd.get_close, if_neg (fun hh => hp.ne hh.1)]
          exact hkept a hp.left
        · rw [UniqueFd.get_close, if_neg (fun hh => hdb hh.1)]
          exact hopen
        · exact ⟨rfl, .inr ⟨rfl, rfl, by omega⟩⟩

/-! ## The passes -/

theorem hostFdAt_run {i : Nat} {c : Int} (hc : st.hostFds[i]? = some c) :
    (hostFdAt i).run st = .ok c st := by
  unfold hostFdAt
  rw [EStateM.run_get_bind, hc]
  rfl

/-- The second part of a pass: the host descriptor of handle `i` gets number `n`. -/
theorem move_leaves {i c : Nat} (hc : st.hostFds[i]? = some (c : Int)) (hne : n ≠ c) :
    (do
      let hostFd ← hostFdAt i
      match ← assignCall (h.refuse (.dup2 hostFd n)) fun host => (host.dup2 hostFd n).map (·, ()) with
      | .error errno => return .error errno
      | .ok () =>
        movedTo i n
        return .ok () : AssignM φ (Except Int Unit)).Leaves st
      (fun r st' => r = .ok () → st'.hostFds = st.hostFds.set i n ∧
        st'.fdToIndex = Function.update (Function.update st.fdToIndex c none) (-1) (some i) ∧
        (st'.host.get n).isSome = true ∧
        ∀ k, k ≠ c → (st.host.get k).isSome = true → (st'.host.get k).isSome = true)
      fun _ _ => False := by
  refine EStateM.leaves_bind_of_ok (hostFdAt_run hc) ?_
  refine hostCallOn_leaves.bind ?_
  rintro r st₁ (⟨⟨errno, rfl⟩, rfl⟩ | ⟨host, _, -, hdup, rfl, rfl⟩)
  · exact EStateM.leaves_pure nofun
  obtain ⟨host', hcopied, heq⟩ := Option.map_eq_some_iff.mp hdup
  cases heq
  obtain ⟨hopen, hkept⟩ := dup2_opens hcopied
  refine EStateM.leaves_bind_of_ok (movedTo_run (c := c) hc) (EStateM.leaves_pure fun _ => ⟨rfl, rfl, ?_, ?_⟩)
  · rw [UniqueFd.get_close, if_neg (fun hh => hne hh.1)]
    exact hopen
  · intro k hk hsome
    rw [UniqueFd.get_close, if_neg (fun hh => hk hh.1)]
    exact hkept k hsome

/-- The two numbers the host has given to the pipe, as `assign_fds` finds them. -/
structure Fresh (st : AssignState φ) (a b : Nat) : Prop extends Pair st a b where
  lt : a < b
  keys : ∀ k : Nat, st.fdToIndex k ≠ none ↔ k = a ∨ k = b

theorem assignStep_match {i : Nat} (hc : st.hostFds[i]? = some (e.fd : Int)) :
    (assignStep h i e).run st =
      .ok (.ok ()) { st with fdToIndex := Function.update st.fdToIndex e.hostFd none } := by
  unfold assignStep
  rw [EStateM.run_bind_of_ok (hostFdAt_run hc), if_pos rfl]
  rfl

/-- The first pass, if the first number does not match. -/
theorem assignStep_first (hf : Fresh st a b) (hne : e.fd ≠ a)
    (hsafe : e.fd = b → h.refuse (.dup b) = none → b < 2) :
    (assignStep h 0 e).Leaves st (fun r st' => r = .ok () →
        ∃ a' b', Pair st' a' b' ∧ ∀ k : Nat, st'.fdToIndex k ≠ none → k = b') fun _ _ => False := by
  have hlt := hf.lt
  unfold assignStep
  refine EStateM.leaves_bind_of_ok (hostFdAt_run (c := (a : Int)) (by rw [hf.hostFds]; rfl)) ?_
  rw [if_neg (by omega)]
  have hrealloc := @reallocFd_leaves φ h st a b e.fd hf.toPair (hf.keys e.fd).mp ?_
  · refine hrealloc.bind ?_
    intro r st₁ hr
    cases r with
    | error errno => exact EStateM.leaves_pure nofun
    | ok _ =>
        obtain ⟨a', b', hp, hcase⟩ := hr rfl
        -- in both cases the first handle is as it was, and the second does not own the number
        obtain ⟨rfl, hb', hkeys⟩ : a' = a ∧ e.fd ≠ b' ∧ ∀ k : Nat, st₁.fdToIndex k ≠ none → k = a ∨ k = b' := by
          rcases hcase with ⟨hnone, rfl⟩ | ⟨hsome, hchance⟩
          · obtain ⟨ha, hb⟩ := hf.toPair.unique hp
            refine ⟨ha, ?_, fun k hk => hb ▸ (hf.keys k).mp hk⟩
            rintro heq
            exact (hf.keys e.fd).mpr (.inr (heq.trans hb)) hnone
          · have hb : e.fd = b := ((hf.keys e.fd).mp hsome).resolve_left hne
            rcases hchance.place with ⟨h0, -⟩ | ⟨h1, ha, hb'⟩
            · omega
            refine ⟨ha, hb'.symm, ?_⟩
            intro k hk
            rw [hchance.keys, Function.update_of_ne (by omega), if_neg (by omega)] at hk
            have hkb : (k : Int) ≠ b := by
              rintro heq
              rw [heq, Function.update_self] at hk
              exact hk rfl
            rw [Function.update_of_ne hkb] at hk
            exact .inl (((hf.keys k).mp hk).resolve_right (by omega))
        refine (move_leaves (by rw [hp.hostFds]; rfl) hne).mono ?_ fun _ _ h => h
        intro r st' hmoved hok
        obtain ⟨hfds, hindex, hopen, hkept⟩ := hmoved hok
        refine ⟨e.fd, b', ⟨by rw [hfds, hp.hostFds]; rfl, hb', hopen, hkept b' hp.ne.symm hp.right⟩, ?_⟩
        intro k hk
        rw [hindex, Function.update_of_ne (by omega)] at hk
        have hka : (k : Int) ≠ a' := by
          rintro heq
          rw [heq, Function.update_self] at hk
          exact hk rfl
        rw [Function.update_of_ne hka] at hk
        exact (hkeys k hk).resolve_left (by omega)
  · intro hkey hdup
    rcases (hf.keys e.fd).mp hkey with heq | heq
    · exact absurd heq hne
    · exact heq ▸ hsafe heq (heq ▸ hdup)

/-- The second pass, if the second number does not match. -/
theorem assignStep_second (hp : Pair st a b) (hne : e.fd ≠ b)
    (hkey : st.fdToIndex e.fd ≠ none → e.fd = a ∧ (h.refuse (.dup a) = none → a < 2)) :
    (assignStep h 1 e).Leaves st (fun r st' => r = .ok () → ∃ a' b' : Nat,
        st'.hostFds = [(a' : Int), (b' : Int)] ∧ (st'.host.get a').isSome = true ∧
          (st'.host.get b').isSome = true) fun _ _ => False := by
  unfold assignStep
  refine EStateM.leaves_bind_of_ok (hostFdAt_run (c := (b : Int)) (by rw [hp.hostFds]; rfl)) ?_
  rw [if_neg (by omega)]
  have hrealloc := @reallocFd_leaves φ h st a b e.fd hp (fun hk => .inl (hkey hk).1) fun hk hdup =>
    (hkey hk).1 ▸ (hkey hk).2 ((hkey hk).1 ▸ hdup)
  refine hrealloc.bind ?_
  intro r st₁ hr
  cases r with
  | error errno => exact EStateM.leaves_pure nofun
  | ok _ =>
      obtain ⟨a', b', hp', hcase⟩ := hr rfl
      have hb' : e.fd ≠ b' := by
        rcases hcase with ⟨-, rfl⟩ | ⟨hsome, hchance⟩
        · exact (hp.unique hp').2 ▸ hne
        · rcases hchance.place with ⟨-, -, hb⟩ | ⟨-, -, hb⟩
          · exact hb ▸ hne
          · exact hb.symm
      refine (move_leaves (by rw [hp'.hostFds]; rfl) hb').mono ?_ fun _ _ h => h
      intro r st' hmoved hok
      obtain ⟨hfds, -, hopen, hkept⟩ := hmoved hok
      exact ⟨a', e.fd, by rw [hfds, hp'.hostFds]; rfl, hkept a' hp'.ne hp'.left, hopen⟩

/-! ## The whole loop -/

/-- Number `n`, that of an end of the new pipe, is wanted for the other end, or for the other end as
well. -/
def Collides (eIn eOut : QnxFd) (hostIn hostOut n : Nat) : Prop :=
  (eIn.fd = n ∧ n = hostOut) ∨ (eIn.fd = n ∧ eOut.fd = n ∧ n = hostIn ∧ eIn.hostFd ≠ n)

variable {eIn eOut : QnxFd}

/-- After a match, the number of the match is still known, unless it is erased by chance. -/
theorem key_after_match (hf : Fresh st a b) {n : Int} (hk : eOut.fd ≠ b) :
    Function.update st.fdToIndex n none eOut.fd ≠ none ↔ eOut.fd = a ∧ n ≠ a := by
  by_cases hn : (eOut.fd : Int) = n
  · rw [← hn, Function.update_self]
    simp only [ne_eq, not_true_eq_false, false_iff, not_and, not_not]
    omega
  · rw [Function.update_of_ne hn, hf.keys]
    omega

theorem assignLoop_leaves (hf : Fresh st a b)
    (hsafe : ∀ n, 2 ≤ n → Collides eIn eOut a b n → h.refuse (.dup n) ≠ none) :
    (assignLoop h [eIn, eOut] 0).Leaves st (fun r st' => r = .ok () → ∃ a' b' : Nat,
        st'.hostFds = [(a' : Int), (b' : Int)] ∧ (st'.host.get a').isSome = true ∧
          (st'.host.get b').isSome = true) fun _ _ => False := by
  -- the second pass, and the end of the loop
  have hsecond : ∀ {st₁ : AssignState φ} {a₁ b₁ : Nat}, Pair st₁ a₁ b₁ →
      (eOut.fd ≠ b₁ → st₁.fdToIndex eOut.fd ≠ none →
        eOut.fd = a₁ ∧ (h.refuse (.dup a₁) = none → a₁ < 2)) →
      (assignLoop h [eOut] 1).Leaves st₁ (fun r st' => r = .ok () → ∃ a' b' : Nat,
        st'.hostFds = [(a' : Int), (b' : Int)] ∧ (st'.host.get a').isSome = true ∧
          (st'.host.get b').isSome = true) fun _ _ => False := by
    intro st₁ a₁ b₁ hp hkey
    unfold assignLoop
    by_cases hb : eOut.fd = b₁
    · refine EStateM.leaves_bind_of_ok (assignStep_match (by rw [hp.hostFds, hb]; rfl)) ?_
      exact EStateM.leaves_pure fun _ => ⟨a₁, b₁, hp.hostFds, hp.left, hp.right⟩
    · refine (assignStep_second hp hb (hkey hb)).bind ?_
      intro r st' hr
      cases r with
      | error errno => exact EStateM.leaves_pure nofun
      | ok _ => exact EStateM.leaves_pure fun _ => hr rfl
  unfold assignLoop
  by_cases ha : eIn.fd = a
  · refine EStateM.leaves_bind_of_ok (assignStep_match (by rw [hf.hostFds, ha]; rfl)) ?_
    refine @hsecond { st with fdToIndex := _ } a b ⟨hf.hostFds, hf.ne, hf.left, hf.right⟩ ?_
    intro hb hkey
    obtain ⟨heq, hne⟩ := (key_after_match hf hb).mp hkey
    refine ⟨heq, fun hdup => ?_⟩
    by_contra hlt
    exact hsafe a (by omega) (.inr ⟨ha, heq, rfl, hne⟩) hdup
  · refine (assignStep_first hf ha ?_).bind ?_
    · intro hb hdup
      by_contra hlt
      exact hsafe b (by omega) (.inl ⟨hb, rfl⟩) hdup
    · intro r st₁ hr
      cases r with
      | error errno => exact EStateM.leaves_pure nofun
      | ok _ =>
          obtain ⟨a', b', hp, hkeys⟩ := hr rfl
          exact hsecond hp fun hb hkey => absurd (hkeys _ hkey) hb

/-- On a collision the loop leaves the bounds of the array of the handles. -/
theorem assignLoop_fault (hf : Fresh st a b) {n : Nat} (hn : 2 ≤ n) (hcoll : Collides eIn eOut a b n)
    (hdup : h.refuse (.dup n) = none) :
    ∃ st', (assignLoop h [eIn, eOut] 0).run st = .error (.fault .outOfBounds) st' := by
  have hlt := hf.lt
  have hlen : st.hostFds.length ≤ n := by
    rw [hf.hostFds]
    exact hn
  unfold assignLoop
  rcases hcoll with ⟨hb, rfl⟩ | ⟨ha, hb, rfl, hne⟩
  · have hkey : st.fdToIndex n ≠ none := (hf.keys n).mpr (.inr rfl)
    obtain ⟨st', hrun⟩ := reallocFd_fault hkey hdup hf.right hlen
    refine ⟨st', ?_⟩
    unfold assignStep
    rw [EStateM.run_bind, EStateM.run_bind_of_ok (hostFdAt_run (c := (a : Int)) (by rw [hf.hostFds]; rfl)),
      if_neg (by omega), hb, EStateM.run_bind, hrun]
  · rw [EStateM.run_bind_of_ok (assignStep_match (by rw [hf.hostFds, ha]; rfl))]
    unfold assignLoop
    have hkey : Function.update st.fdToIndex eIn.hostFd none n ≠ none := by
      have hafter := (@key_after_match φ st n b eOut hf eIn.hostFd (by omega)).mpr ⟨hb, hne⟩
      rwa [hb] at hafter
    obtain ⟨st', hrun⟩ := @reallocFd_fault φ h
      { st with fdToIndex := Function.update st.fdToIndex eIn.hostFd none } n hkey hdup hf.left hlen
    refine ⟨st', ?_⟩
    dsimp only
    unfold assignStep
    rw [EStateM.run_bind, EStateM.run_bind_of_ok (hostFdAt_run (c := (b : Int)) (by rw [hf.hostFds]; rfl)),
      if_neg (by omega), hb, EStateM.run_bind, hrun]

end AssignM
end FdHandler
end Qine

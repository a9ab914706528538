import Qine.Fd.Map
import Mathlib.Logic.Function.Basic

/-!
# Renumbering several descriptors at once

`FdMap::assign_fds` gets open host descriptors and gives them the numbers of the guest descriptors
they are for, one after the other. When a target number is still taken by a host descriptor whose
turn has not come, that one is to be moved out of the way first. This is where the code goes wrong:
`realloc_fd` passes the descriptor number where `host_fd_moved` expects an index, and
`host_fd_moved` records the new place of the descriptor under a handle it has just moved from.

`assignFds_correct` says that the renumbering is right when no target is a host number of a later
move and host descriptor 0, which `UniqueFd` never closes, does not stay behind; and that it runs
out of the array on the first such collision, if the number is past the end of the array.
-/

namespace Qine

variable {φ : Type}

/-- The variables of `assign_fds`: the host, the numbers in the handles `host_fds`, and
`fd_to_index`. -/
structure AssignState (φ : Type) where
  host : HostFds φ
  hostFds : List Int
  fdToIndex : Int → Option Nat

namespace AssignState

/-- `host_fd_moved`. The handle `to` has been moved from when its number is recorded. -/
def hostFdMoved (st : AssignState φ) (index : Nat) (to' : Int) : Except FdError (AssignState φ) :=
  match st.hostFds[index]? with
  | none => .error (.fault .outOfBounds)
  | some old => .ok
    { host := UniqueFd.close st.host old
      hostFds := st.hostFds.set index to'
      fdToIndex := Function.update (Function.update st.fdToIndex old none) (-1) (some index) }

/-- `realloc_fd`. It passes `it->first`, the number, for the index. -/
def reallocFd (st : AssignState φ) (hostFd : Nat) : Except FdError (AssignState φ) :=
  match st.fdToIndex hostFd with
  | none => .ok st
  | some _ =>
    match st.host.dup hostFd with
    | none => .error .hostCall
    | some (host, newFd) => hostFdMoved { st with host := host } hostFd newFd

/-- One pass of the main loop of `assign_fds`. -/
def assignStep (st : AssignState φ) (i : Nat) (fd : QnxFd) : Except FdError (AssignState φ) :=
  match st.hostFds[i]? with
  | none => .error (.fault .outOfBounds)
  | some hostFd =>
    if fd.fd = hostFd then
      .ok { st with fdToIndex := Function.update st.fdToIndex fd.hostFd none }
    else do
      let st ← st.reallocFd fd.fd
      match st.hostFds[i]? with
      | none => .error (.fault .outOfBounds)
      | some hostFd =>
        match st.host.dup2 hostFd fd.fd with
        | none => .error .hostCall
        | some host => hostFdMoved { st with host := host } i fd.fd

/-- The main loop of `assign_fds` from index `i` on. -/
def assignLoop : List QnxFd → Nat → AssignState φ → Except FdError (AssignState φ)
  | [], _, st => .ok st
  | fd :: toFds, i, st => do
    let st ← st.assignStep i fd
    assignLoop toFds (i + 1) st

end AssignState

/-- The first loop of `assign_fds`. -/
def storeIndices : List Int → Nat → (Int → Option Nat) → Int → Option Nat
  | [], _, m => m
  | fd :: fds, i, m => storeIndices fds (i + 1) (Function.update m fd (some i))

/-- The last loop of `assign_fds`, which hands the descriptors over to the entries. -/
def finishLoop : HostFds φ → List QnxFd → List Int → Except FdError (HostFds φ × List QnxFd)
  | host, fd :: toFds, hostFd :: hostFds => do
    let (host, fd) ← fd.finish host hostFd
    let (host, toFds) ← finishLoop host toFds hostFds
    return (host, fd :: toFds)
  | host, _, _ => return (host, [])

/-- `FdMap::assign_fds`. -/
def FdMap.assignFds (host : HostFds φ) (toFds : List QnxFd) (hostFds : List Int) :
    Except FdError (HostFds φ × List QnxFd) := do
  let st ← AssignState.assignLoop toFds 0 ⟨host, hostFds, storeIndices hostFds 0 fun _ => none⟩
  finishLoop st.host toFds st.hostFds

/-! ## What it is for -/

/-- The moves `assign_fds` is asked for: guest descriptors and the host descriptors for them. -/
abbrev Moves := List (QnxFd × Nat)

/-- The number a move is to. -/
abbrev target (m : QnxFd × Nat) : Nat := m.1.fd

/-- Different guest descriptors and different open host descriptors. -/
structure Moves.Valid (host : HostFds φ) (moves : Moves) : Prop where
  targets : moves.Pairwise fun a b => target a ≠ target b
  sources : moves.Pairwise fun a b => a.2 ≠ b.2
  opened : ∀ m ∈ moves, (host.get m.2).isSome = true

/-- The guest descriptors are open on the files meant for them, under their own numbers; the old
numbers are closed; no other host descriptor has changed. -/
structure Moves.Done (host : HostFds φ) (moves : Moves) (host' : HostFds φ) (toFds : List QnxFd) :
    Prop where
  entries : toFds = moves.map fun m => { m.1 with isOpen := true, hostFd := m.1.fd }
  moved : ∀ m ∈ moves, (host'.get (target m)).map (·.file) = (host.get m.2).map (·.file)
  closed : ∀ m ∈ moves, (∀ m' ∈ moves, target m' ≠ m.2) → host'.get m.2 = none
  frame : ∀ n, (∀ m ∈ moves, target m ≠ n) → (∀ m ∈ moves, m.2 ≠ n) → host'.get n = host.get n

/-- `assign_fds` succeeds, inside the bounds of its array, and does what it is for. -/
def Moves.Assigned (moves : Moves) (host : HostFds φ) : Prop :=
  ∃ host' toFds, FdMap.assignFds host (moves.map (·.1)) (moves.map fun m => (m.2 : Int)) =
    .ok (host', toFds) ∧ Moves.Done host moves host' toFds

/-! ## The loop without collisions -/

variable {host : HostFds φ} {done rest moves : Moves} {st : AssignState φ}

theorem UniqueFd.get_close (host : HostFds φ) (fd n : Nat) :
    (UniqueFd.close host fd).get n = if n = fd ∧ fd ≠ 0 then none else host.get n := by
  unfold UniqueFd.close HostFds.close
  split
  · next h =>
      rw [Int.toNat_natCast, Slots.get_put]
      have hne : fd ≠ 0 := by omega
      simp only [hne, ne_eq, not_false_eq_true, and_true]
  · next h =>
      have hzero : fd = 0 := by omega
      rw [if_neg (fun hh => hh.2 hzero)]

theorem storeIndices_ne_none {fds : List Int} {i : Nat} {m : Int → Option Nat} {k : Int} :
    storeIndices fds i m k ≠ none ↔ k ∈ fds ∨ m k ≠ none := by
  induction fds generalizing i m with
  | nil => simp [storeIndices]
  | cons fd fds ih =>
      rw [storeIndices, ih, List.mem_cons]
      by_cases hk : k = fd
      · simp [hk]
      · simp [hk]

/-- The state of the loop after the moves in `done`, with those in `rest` still to do: what has been
moved is in place, everything else is as it was, and `fd_to_index` knows the descriptors that are
still where they were. -/
structure Half (host : HostFds φ) (done rest : Moves) (st : AssignState φ) : Prop where
  hostFds : st.hostFds = done.map (fun m => (target m : Int)) ++ rest.map fun m => (m.2 : Int)
  moved : ∀ m ∈ done, (st.host.get (target m)).map (·.file) = (host.get m.2).map (·.file)
  closed : ∀ m ∈ done, m.2 ≠ 0 → (∀ m' ∈ done, target m' ≠ m.2) → st.host.get m.2 = none
  frame : ∀ n, (∀ m ∈ done, target m ≠ n) → (∀ m ∈ done, m.2 ≠ n) ∨ n = 0 →
    st.host.get n = host.get n
  keys : ∀ n : Nat, st.fdToIndex n ≠ none →
    (∃ m ∈ rest, m.2 = n) ∨ ∃ m ∈ done, target m = n
  known : ∀ m ∈ rest, (∀ a ∈ done, a.1.hostFd ≠ m.2) → st.fdToIndex m.2 ≠ none

theorem half_start (host : HostFds φ) (moves : Moves) :
    Half host [] moves ⟨host, moves.map fun m => (m.2 : Int),
      storeIndices (moves.map fun m => (m.2 : Int)) 0 fun _ => none⟩ where
  hostFds := rfl
  moved := by simp
  closed := by simp
  frame := fun _ _ _ => rfl
  keys := by
    intro n hn
    rcases storeIndices_ne_none.1 hn with h | h
    · obtain ⟨m, hm, heq⟩ := List.mem_map.1 h
      exact .inl ⟨m, hm, by omega⟩
    · exact absurd rfl h
  known := by
    intro m hm _
    exact storeIndices_ne_none.2 (.inl (List.mem_map_of_mem hm))

/-- What keeps a move apart from those before and after it. -/
structure Apart (done : Moves) (m : QnxFd × Nat) (rest : Moves) : Prop where
  target_ne : ∀ a ∈ done, target a ≠ target m
  source_ne : ∀ a ∈ done, a.2 ≠ m.2
  before : ∀ a ∈ done, target a ≠ m.2
  after : ∀ b ∈ rest, target m ≠ b.2
  source_ne' : ∀ b ∈ rest, m.2 ≠ b.2

theorem Half.get_hostFds {m : QnxFd × Nat} (h : Half host done (m :: rest) st) :
    st.hostFds[done.length]? = some (m.2 : Int) := by
  rw [h.hostFds]
  simp

/-- A move to the number the host descriptor has already. -/
theorem Half.match_step {m : QnxFd × Nat} (h : Half host done (m :: rest) st)
    (hm : Apart done m rest) (heq : target m = m.2) :
    Half host (done ++ [m]) rest
      { st with fdToIndex := Function.update st.fdToIndex m.1.hostFd none } where
  hostFds := by
    rw [h.hostFds]
    simp [heq]
  moved := by
    intro a ha
    rcases List.mem_append.1 ha with ha | ha
    · exact h.moved a ha
    · rw [List.mem_singleton.1 ha, heq]
      exact congrArg _ (h.frame m.2 hm.before (.inl hm.source_ne))
  closed := by
    intro a ha hne htargets
    rcases List.mem_append.1 ha with ha | ha
    · exact h.closed a ha hne fun m' hm' => htargets m' (List.mem_append_left _ hm')
    · rw [List.mem_singleton.1 ha] at htargets
      exact absurd heq (htargets m (List.mem_append_right _ (List.mem_singleton_self m)))
  frame := by
    intro n htargets hsources
    refine h.frame n (fun a ha => htargets a (List.mem_append_left _ ha)) ?_
    exact hsources.imp_left fun hs a ha => hs a (List.mem_append_left _ ha)
  keys := by
    intro n hn
    have hold : st.fdToIndex n ≠ none := by
      intro hnone
      apply hn
      by_cases hk : (n : Int) = m.1.hostFd
      · exact hk ▸ Function.update_self ..
      · exact (Function.update_of_ne hk ..).trans hnone
    rcases h.keys n hold with ⟨b, hb, rfl⟩ | ⟨a, ha, rfl⟩
    · rcases List.mem_cons.1 hb with rfl | hb
      · exact .inr ⟨b, by simp, heq⟩
      · exact .inl ⟨b, hb, rfl⟩
    · exact .inr ⟨a, by simp [ha], rfl⟩
  known := by
    intro b hb hfree
    have hne : (b.2 : Int) ≠ m.1.hostFd := Ne.symm (hfree m (by simp))
    dsimp only
    rw [Function.update_of_ne hne]
    exact h.known b (List.mem_cons_of_mem _ hb) fun a ha => hfree a (by simp [ha])

/-- A move to a number that no later move needs. -/
theorem Half.move_step {m : QnxFd × Nat} (h : Half host done (m :: rest) st)
    (hm : Apart done m rest) (hne : target m ≠ m.2) (d : HostFd φ) (hd : host.get m.2 = some d) :
    Half host (done ++ [m]) rest
      { host := UniqueFd.close (st.host.put (target m) (some ⟨d.file, false⟩)) m.2
        hostFds := st.hostFds.set done.length (target m)
        fdToIndex := Function.update (Function.update st.fdToIndex m.2 none) (-1)
          (some done.length) } where
  hostFds := by
    rw [h.hostFds]
    simp
  moved := by
    intro a ha
    rw [UniqueFd.get_close, Slots.get_put]
    rcases List.mem_append.1 ha with ha | ha
    · rw [if_neg (fun hh => hm.before a ha hh.1), if_neg (hm.target_ne a ha)]
      exact h.moved a ha
    · rw [List.mem_singleton.1 ha, if_neg (fun hh => hne hh.1), if_pos rfl, hd]
      rfl
  closed := by
    intro a ha hzero htargets
    rw [UniqueFd.get_close, Slots.get_put]
    rcases List.mem_append.1 ha with ha | ha
    · rw [if_neg (fun hh => hm.source_ne a ha hh.1),
        if_neg (Ne.symm (htargets m (by simp)))]
      exact h.closed a ha hzero fun m' hm' => htargets m' (by simp [hm'])
    · rw [List.mem_singleton.1 ha] at hzero ⊢
      exact if_pos ⟨rfl, hzero⟩
  frame := by
    intro n htargets hsources
    rw [UniqueFd.get_close, Slots.get_put, if_neg, if_neg (Ne.symm (htargets m (by simp)))]
    · refine h.frame n (fun a ha => htargets a (by simp [ha])) ?_
      exact hsources.imp_left fun hs a ha => hs a (by simp [ha])
    · rintro ⟨rfl, hzero⟩
      rcases hsources with hs | hn
      · exact hs m (by simp) rfl
      · exact hzero hn
  keys := by
    intro n hn
    have hneg : (n : Int) ≠ -1 := by omega
    dsimp only at hn
    rw [Function.update_of_ne hneg] at hn
    by_cases hk : (n : Int) = m.2
    · rw [hk, Function.update_self] at hn
      exact absurd rfl hn
    rw [Function.update_of_ne hk] at hn
    rcases h.keys n hn with ⟨b, hb, rfl⟩ | ⟨a, ha, rfl⟩
    · rcases List.mem_cons.1 hb with rfl | hb
      · exact absurd rfl hk
      · exact .inl ⟨b, hb, rfl⟩
    · exact .inr ⟨a, by simp [ha], rfl⟩
  known := by
    intro b hb hfree
    have hneg : (b.2 : Int) ≠ -1 := by omega
    have hk : (b.2 : Int) ≠ m.2 := by
      have := hm.source_ne' b hb
      omega
    dsimp only
    rw [Function.update_of_ne hneg, Function.update_of_ne hk]
    exact h.known b (List.mem_cons_of_mem _ hb) fun a ha => hfree a (by simp [ha])

/-- One pass of the loop, to a number that `fd_to_index` does not know. -/
theorem assignStep_move (st : AssignState φ) (i : Nat) (fd : QnxFd) {h : Nat} {d : HostFd φ}
    (hfds : st.hostFds[i]? = some (h : Int)) (hne : fd.fd ≠ h)
    (hfree : st.fdToIndex fd.fd = none) (hd : st.host.get h = some d) :
    st.assignStep i fd = .ok
      { host := UniqueFd.close (st.host.put fd.fd (some ⟨d.file, false⟩)) h
        hostFds := st.hostFds.set i fd.fd
        fdToIndex := Function.update (Function.update st.fdToIndex h none) (-1) (some i) } := by
  have hlookup : st.host.lookup h = some d := by
    unfold HostFds.lookup
    rw [if_neg (by omega), Int.toNat_natCast, hd]
  have hne' : (h : Int) ≠ (fd.fd : Nat) := by omega
  simp only [AssignState.assignStep, hfds, if_neg (Ne.symm hne'), AssignState.reallocFd, hfree, bind,
    Except.bind, HostFds.dup2, hlookup, Option.map_some, if_neg hne', AssignState.hostFdMoved]

/-- One pass of the loop, for a move whose target no later move needs. -/
theorem Half.step {m : QnxFd × Nat} (h : Half host done (m :: rest) st) (hm : Apart done m rest)
    (hopen : (host.get m.2).isSome = true) :
    ∃ st', st.assignStep done.length m.1 = .ok st' ∧ Half host (done ++ [m]) rest st' := by
  by_cases heq : target m = m.2
  · refine ⟨_, ?_, h.match_step hm heq⟩
    unfold AssignState.assignStep
    rw [h.get_hostFds]
    dsimp only
    rw [if_pos (by rw [← heq])]
  obtain ⟨d, hd⟩ := Option.isSome_iff_exists.1 hopen
  have hfree : st.fdToIndex (target m) = none := by
    by_contra hkey
    rcases h.keys _ hkey with ⟨b, hb, hbm⟩ | ⟨a, ha, ham⟩
    · rcases List.mem_cons.1 hb with rfl | hb
      · exact heq hbm.symm
      · exact hm.after b hb hbm.symm
    · exact hm.target_ne a ha ham
  have hsource : st.host.get m.2 = some d := by
    rw [h.frame m.2 hm.before (.inl hm.source_ne), hd]
  exact ⟨_, assignStep_move st _ m.1 h.get_hostFds heq hfree hsource, h.move_step hm heq d hd⟩

theorem assignLoop_append (l₁ l₂ : List QnxFd) (i : Nat) (st : AssignState φ) :
    AssignState.assignLoop (l₁ ++ l₂) i st =
      AssignState.assignLoop l₁ i st >>= AssignState.assignLoop l₂ (i + l₁.length) := by
  induction l₁ generalizing i st with
  | nil => rfl
  | cons fd l₁ ih =>
      rw [List.cons_append, AssignState.assignLoop, AssignState.assignLoop]
      cases st.assignStep i fd with
      | error e => rfl
      | ok st' =>
          show AssignState.assignLoop (l₁ ++ l₂) (i + 1) st' = _
          rw [ih, List.length_cons, Nat.add_comm l₁.length, ← Nat.add_assoc]
          rfl

/-- The loop goes through moves whose targets no later move needs. -/
theorem Half.run {l : Moves} (h : Half host done (l ++ rest) st)
    (hvalid : Moves.Valid host (done ++ (l ++ rest)))
    (hdone : ∀ a ∈ done, ∀ b ∈ l, target a ≠ b.2)
    (hpairs : l.Pairwise fun a b => target a ≠ b.2) (hrest : ∀ a ∈ l, ∀ b ∈ rest, target a ≠ b.2) :
    ∃ st', AssignState.assignLoop (l.map (·.1)) done.length st = .ok st' ∧
      Half host (done ++ l) rest st' := by
  induction l generalizing done st with
  | nil => exact ⟨st, rfl, by simpa using h⟩
  | cons m l ih =>
      rw [List.cons_append] at h hvalid
      rw [List.pairwise_cons] at hpairs
      have htargets := List.pairwise_append.1 hvalid.targets
      have hsources := List.pairwise_append.1 hvalid.sources
      have hm : Apart done m (l ++ rest) :=
        { target_ne := fun a ha => htargets.2.2 a ha m List.mem_cons_self
          source_ne := fun a ha => hsources.2.2 a ha m List.mem_cons_self
          before := fun a ha => hdone a ha m List.mem_cons_self
          after := fun b hb => (List.mem_append.1 hb).elim (hpairs.1 b)
            (hrest m List.mem_cons_self b)
          source_ne' := (List.pairwise_cons.1 hsources.2.1).1 }
      obtain ⟨st₁, hstep, hhalf⟩ := h.step hm (hvalid.opened m (by simp))
      have hassoc : done ++ [m] ++ (l ++ rest) = done ++ m :: (l ++ rest) := by simp
      obtain ⟨st', hloop, hhalf'⟩ := ih hhalf (hassoc ▸ hvalid) (by
        intro a ha b hb
        rcases List.mem_append.1 ha with ha | ha
        · exact hdone a ha b (List.mem_cons_of_mem _ hb)
        · rw [List.mem_singleton.1 ha]
          exact hpairs.1 b hb) hpairs.2 fun a ha => hrest a (List.mem_cons_of_mem _ ha)
      refine ⟨st', ?_, by simpa using hhalf'⟩
      rw [List.length_append, List.length_singleton] at hloop
      show (st.assignStep done.length m.1 >>= _) = _
      rw [hstep]
      exact hloop

/-! ## Handing the descriptors over -/

/-- The last loop only sets close-on-exec flags. -/
theorem finishLoop_spec {fds : List QnxFd} (hopen : ∀ fd ∈ fds, (host.get fd.fd).isSome = true) :
    ∃ host', finishLoop host fds (fds.map fun fd => (fd.fd : Int)) =
        .ok (host', fds.map fun fd => { fd with isOpen := true, hostFd := fd.fd }) ∧
      (∀ n, (host'.get n).map (·.file) = (host.get n).map (·.file)) ∧
      ∀ n, (∀ fd ∈ fds, fd.fd ≠ n) → host'.get n = host.get n := by
  induction fds generalizing host with
  | nil => exact ⟨host, rfl, fun _ => rfl, fun _ _ => rfl⟩
  | cons fd fds ih =>
      obtain ⟨host₁, hfinish, hfile₁, hframe₁⟩ :=
        fd.finish_spec host fd.fd (hopen fd List.mem_cons_self)
      have hopen₁ : ∀ e ∈ fds, (host₁.get e.fd).isSome = true := by
        intro e he
        rw [← Option.isSome_map (f := (·.file)), hfile₁, Option.isSome_map]
        exact hopen e (List.mem_cons_of_mem _ he)
      obtain ⟨host', hloop, hfile, hframe⟩ := ih hopen₁
      refine ⟨host', ?_, fun n => (hfile n).trans (hfile₁ n), fun n hn => ?_⟩
      · rw [List.map_cons, finishLoop, hfinish]
        show (finishLoop host₁ fds _ >>= _) = _
        rw [hloop]
        rfl
      · rw [hframe n fun e he => hn e (List.mem_cons_of_mem _ he)]
        exact hframe₁ n (Ne.symm (hn fd List.mem_cons_self))

/-! ## The whole renumbering -/

/-- No target is the host number of a later move. -/
def Moves.NoCollision (moves : Moves) : Prop := moves.Pairwise fun a b => target a ≠ b.2

/-- The first target that is the host number of a later move is `n`. -/
def Moves.FirstCollision (moves : Moves) (n : Nat) : Prop :=
  ∃ done m rest, moves = done ++ m :: rest ∧ target m = n ∧ (∃ b ∈ rest, b.2 = n) ∧
    Moves.NoCollision done ∧ ∀ a ∈ done, ∀ b ∈ m :: rest, target a ≠ b.2

/-- Without collisions, `assign_fds` does everything but close host descriptor 0. -/
theorem assignFds_of_noCollision (hvalid : Moves.Valid host moves) (hmoves : moves.NoCollision) :
    ∃ host', FdMap.assignFds host (moves.map (·.1)) (moves.map fun m => (m.2 : Int)) =
        .ok (host', moves.map fun m => { m.1 with isOpen := true, hostFd := m.1.fd }) ∧
      (∀ m ∈ moves, (host'.get (target m)).map (·.file) = (host.get m.2).map (·.file)) ∧
      (∀ m ∈ moves, m.2 ≠ 0 → (∀ m' ∈ moves, target m' ≠ m.2) → host'.get m.2 = none) ∧
      ∀ n, (∀ m ∈ moves, target m ≠ n) → (∀ m ∈ moves, m.2 ≠ n) ∨ n = 0 →
        host'.get n = host.get n := by
  have hstart := half_start host moves
  have hstart' : Half host [] (moves ++ []) ⟨host, moves.map fun m => (m.2 : Int),
      storeIndices (moves.map fun m => (m.2 : Int)) 0 fun _ => none⟩ := by
    rw [List.append_nil]
    exact hstart
  obtain ⟨st, hloop, hhalf⟩ := hstart'.run (by simpa using hvalid) (by simp) hmoves (by simp)
  rw [List.nil_append] at hhalf
  rw [List.length_nil] at hloop
  have hfds : st.hostFds = (moves.map (·.1)).map fun fd => (fd.fd : Int) := by
    rw [hhalf.hostFds]
    simp
  have hopen : ∀ fd ∈ moves.map (·.1), (st.host.get fd.fd).isSome = true := by
    intro fd hfd
    obtain ⟨m, hm, rfl⟩ := List.mem_map.1 hfd
    rw [← Option.isSome_map (f := (·.file)), hhalf.moved m hm, Option.isSome_map]
    exact hvalid.opened m hm
  obtain ⟨host', hfinish, hfile, hframe⟩ := finishLoop_spec hopen
  have hframe' : ∀ n, (∀ m ∈ moves, target m ≠ n) → host'.get n = st.host.get n := by
    intro n hn
    apply hframe
    intro fd hfd
    obtain ⟨m, hm, rfl⟩ := List.mem_map.1 hfd
    exact hn m hm
  refine ⟨host', ?_, ?_, ?_, ?_⟩
  · show (AssignState.assignLoop (moves.map (·.1)) 0 _ >>= _) = _
    rw [hloop]
    show finishLoop st.host (moves.map (·.1)) st.hostFds = _
    rw [hfds, hfinish, List.map_map]
    rfl
  · intro m hm
    exact (hfile _).trans (hhalf.moved m hm)
  · intro m hm hzero htargets
    rw [hframe' _ htargets]
    exact hhalf.closed m hm hzero htargets
  · intro n htargets hsources
    rw [hframe' n htargets]
    exact hhalf.frame n htargets hsources

/-- The entries hold a host number only while they are open, and then their own. -/
def Moves.Sane (moves : Moves) : Prop := ∀ m ∈ moves, m.1.hostFd ≤ 0 ∨ m.1.hostFd = m.1.fd

/-- On the first collision, `realloc_fd` uses the descriptor number for an index. -/
theorem assignFds_of_collision {n : Nat} (hvalid : Moves.Valid host moves) (hsane : moves.Sane)
    (hcoll : moves.FirstCollision n) (hn : moves.length ≤ n) :
    FdMap.assignFds host (moves.map (·.1)) (moves.map fun m => (m.2 : Int)) =
      .error (.fault .outOfBounds) := by
  obtain ⟨done, m, rest, rfl, htarget, ⟨b, hb, hbn⟩, hdone, hlater⟩ := hcoll
  obtain ⟨st, hloop, hhalf⟩ := (half_start host (done ++ m :: rest)).run hvalid (by simp) hdone hlater
  rw [List.nil_append] at hhalf
  rw [List.length_nil] at hloop
  have hlen : st.hostFds.length ≤ n := by
    rw [hhalf.hostFds]
    simpa using hn
  have hne : target m ≠ m.2 := by
    have hsources := (List.pairwise_append.1 hvalid.sources).2.1
    have := (List.pairwise_cons.1 hsources).1 b hb
    omega
  have hkey : st.fdToIndex n ≠ none := by
    rw [← hbn]
    apply hhalf.known b (List.mem_cons_of_mem _ hb)
    intro a ha
    have hlate := hlater a ha b (List.mem_cons_of_mem _ hb)
    have hpos : 0 < n := by
      simp only [List.length_append, List.length_cons] at hn
      omega
    rcases hsane a (by simp [ha]) with h | h <;> simp only [target] at hlate <;> omega
  -- the descriptor in the way is still open, so `dup` succeeds
  have hopen : ∃ d, st.host.lookup n = some d := by
    have hsources := (List.pairwise_append.1 hvalid.sources).2.2
    have hframe := hhalf.frame n (fun a ha => hbn ▸ hlater a ha b (List.mem_cons_of_mem _ hb))
      (.inl fun a ha => hbn ▸ hsources a ha b (List.mem_cons_of_mem _ hb))
    unfold HostFds.lookup
    rw [if_neg (by omega), Int.toNat_natCast, hframe, ← Option.isSome_iff_exists, ← hbn]
    exact hvalid.opened b (by simp [hb])
  have hstep : st.assignStep done.length m.1 = .error (.fault .outOfBounds) := by
    obtain ⟨d, hd⟩ := hopen
    obtain ⟨i, hi⟩ := Option.ne_none_iff_exists'.1 hkey
    have hfd : m.1.fd = n := htarget
    unfold AssignState.assignStep
    rw [hhalf.get_hostFds]
    dsimp only
    rw [if_neg (fun h => hne (by exact_mod_cast h)), AssignState.reallocFd, hfd, hi]
    dsimp only
    rw [HostFds.dup, hd]
    dsimp only [Option.map_some]
    rw [AssignState.hostFdMoved, List.getElem?_eq_none hlen]
    rfl
  show (AssignState.assignLoop ((done ++ m :: rest).map (·.1)) 0 _ >>= _) = _
  rw [List.map_append, assignLoop_append, hloop, List.map_cons, List.length_map, Nat.zero_add]
  show (AssignState.assignLoop (m.1 :: rest.map (·.1)) done.length st >>= _) = _
  rw [AssignState.assignLoop, hstep]
  rfl

/-- As long as no target is the host number of a later move, `assign_fds` is the simultaneous
renumbering exactly when host descriptor 0 is not left over. Otherwise it leaves the bounds of its
array, if the first such number is not an index by chance. -/
theorem assignFds_correct (hvalid : Moves.Valid host moves) :
    (moves.NoCollision →
      (moves.Assigned host ↔ ((∃ m ∈ moves, m.2 = 0) → ∃ m ∈ moves, target m = 0))) ∧
    ∀ n, moves.FirstCollision n → moves.length ≤ n → moves.Sane → ¬moves.Assigned host := by
  constructor
  · intro hmoves
    obtain ⟨host', hok, hmoved, hclosed, hframe⟩ := assignFds_of_noCollision hvalid hmoves
    constructor
    · rintro ⟨host'', toFds, hok', hdone⟩ ⟨m, hm, hzero⟩
      rw [hok] at hok'
      cases hok'
      by_contra hno
      push Not at hno
      have hleft := hframe 0 hno (.inr rfl)
      have hopen := hvalid.opened m hm
      have hnone := hdone.closed m hm (by rwa [hzero])
      rw [hzero] at hopen hnone
      rw [← hleft, hnone] at hopen
      cases hopen
    · intro hzero
      refine ⟨host', _, hok, rfl, hmoved, ?_, fun n h₁ h₂ => hframe n h₁ (.inl h₂)⟩
      intro m hm htargets
      refine hclosed m hm (fun h => ?_) htargets
      obtain ⟨m', hm', h'⟩ := hzero ⟨m, hm, h⟩
      exact htargets m' hm' (h'.trans h.symm)
  · rintro n hcoll hn hsane ⟨host', toFds, hok, -⟩
    rw [assignFds_of_collision hvalid hsane hcoll hn] at hok
    cases hok

/-- A host with the descriptors 0 to 4, the last two those of a pipe. -/
def pipeHost : HostFds Nat :=
  ⟨[some ⟨0, false⟩, some ⟨1, false⟩, some ⟨2, false⟩, some ⟨3, false⟩, some ⟨4, false⟩]⟩

theorem assignFds_pipe :
    Moves.Assigned [(QnxFd.make 0 1 1 0 6, 3), (QnxFd.make 0 1 1 0 7, 4)] pipeHost := by
  have hvalid : Moves.Valid pipeHost [(QnxFd.make 0 1 1 0 6, 3), (QnxFd.make 0 1 1 0 7, 4)] :=
    ⟨by decide, by decide, by decide⟩
  exact ((assignFds_correct hvalid).1 (by unfold Moves.NoCollision; decide)).2 (by decide)

/-- A pipe whose two ends are to be swapped. -/
theorem assignFds_swapped :
    Moves.Valid pipeHost [(QnxFd.make 0 1 1 0 4, 3), (QnxFd.make 0 1 1 0 3, 4)] ∧
      ¬Moves.Assigned [(QnxFd.make 0 1 1 0 4, 3), (QnxFd.make 0 1 1 0 3, 4)] pipeHost := by
  refine ⟨⟨by decide, by decide, by decide⟩, ?_⟩
  rintro ⟨host', toFds, hok, -⟩
  have herr : FdMap.assignFds pipeHost [QnxFd.make 0 1 1 0 4, QnxFd.make 0 1 1 0 3] [3, 4] =
      .error (.fault .outOfBounds) := by decide +kernel
  cases herr.symm.trans hok

end Qine

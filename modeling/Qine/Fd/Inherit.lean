import Qine.Fd.Redirect
import Qine.IdMap.Refinement

/-!
# Descriptors across `execve`

When a guest program replaces itself with another, `qine` is executed again. The new process gets the host
descriptors that are not marked close-on-exec, and `scan_host_fds` attaches guest descriptors for them. So the
guest's idea of close-on-exec (the flag 0x40 of a descriptor) has to be on the host's descriptors at that time.

It gets there when a descriptor is opened (`QnxFd::assign_fd`, `FdMap::assign_fds`), and by `fd_action1`, for which
any flag will do. `Inherits` is what is kept of this over the whole life of a process and those it becomes, and
`exec_inherits` what the next program finds.
-/

namespace Qine

variable {φ : Type} {s s' : FdState φ} {host host' : HostFds φ} {e : QnxFd} {d : HostFd φ} {n : Nat}

/-! ## The model -/

/-- What `execve` does to the descriptors. -/
def HostFds.execve (host : HostFds φ) : HostFds φ := ⟨host.slots.map (·.filter (!·.cloexec))⟩

/-- `fcntl(fd, F_SETFD, …)`; it fails on a number that is not open. -/
def HostFds.setfd (host : HostFds φ) (fd : Int) (cloexec : Bool) : Option (HostFds φ) :=
  (host.lookup fd).map fun d => host.put fd.toNat (some { d with cloexec := cloexec })

namespace FdState

/-- `MainHandler::proc_fd_setfd`. -/
def procFdSetfd (s : FdState φ) (fd : Nat) (flags : BitVec 16) : Except FdError (FdState φ) := do
  let e ← s.fds.getAttachedFd fd
  if e.isOpen then
    match s.host.setfd e.hostFd (flags ≠ 0) with
    | none => .error .hostCall
    | some host => return ⟨s.fds.store fd { e with flags := flags }, host⟩
  else return ⟨s.fds.store fd { e with flags := flags }, s.host⟩

/-- The end of `proc_exec_common`, and the start of the `qine` it executes. -/
def exec (s : FdState φ) (stdfds : Fin 10 → Byte) (nid : Int) : Except IdMap.AllocError (FdState φ) := do
  let host := (redirectStdfds s.host stdfds).execve
  return ⟨← FdMap.scanHostFds host nid 1 1, host⟩

end FdState

/-- What can happen to the descriptors. -/
inductive FdStep : FdState φ → FdState φ → Prop
  | receive {s s' : FdState φ} (h : FdState.Step FdState.Careful s s') : FdStep s s'
  | setfd {s s' : FdState φ} {fd : Nat} {flags : BitVec 16} (h : s.procFdSetfd fd flags = .ok s') : FdStep s s'
  | exec {s s' : FdState φ} {stdfds : Fin 10 → Byte} {nid : Int} (h : s.exec stdfds nid = .ok s') : FdStep s s'

/-! ## What is kept -/

/-- A host descriptor is marked if its entry has the flag for it, and only if it has any flags. -/
def QnxFd.Marks (e : QnxFd) (d : HostFd φ) : Prop :=
  (e.isCloseOnExec = true → d.cloexec = true) ∧ (d.cloexec = true → e.flags ≠ 0)

/-- The open descriptors are marked as their entries say. -/
def FdState.Marked (s : FdState φ) : Prop :=
  ∀ n e d, s.fds.get n = some e → e.isOpen = true → s.host.get n = some d → e.Marks d

/-- The map has the size it was made with. -/
structure FdMap.Sized (fds : FdMap) : Prop where
  max : fds.max = 1024 * 16
  bounded : fds.Bounded

/-- What is kept over the life of a process. -/
structure Inherits (s : FdState φ) : Prop extends FdInv s where
  sized : FdMap.Sized s.fds
  marked : s.Marked

/-- The descriptor with its mark set, if it is to be. -/
def HostFd.mark (d : HostFd φ) (cloexec : Bool) : HostFd φ := { d with cloexec := d.cloexec || cloexec }

@[simp] theorem HostFd.mark_false : d.mark false = d := by rw [mark, Bool.or_false]

theorem HostFd.mark_mark (b c : Bool) : (d.mark b).mark c = d.mark (b || c) := by
  rw [mark, mark, mark, Bool.or_assoc]

@[simp] theorem HostFd.map_mark_false (o : Option (HostFd φ)) : o.map (·.mark false) = o := by cases o <;> simp

/-- A descriptor that is not open gets an open file, which is not its own. -/
theorem HostFds.dup2_put {fd : Int} (h : host.dup2 fd n = some host') (hfree : host.get n = none) :
    ∃ d : HostFd φ, host' = host.put n (some ⟨d.file, false⟩) := by
  unfold HostFds.dup2 at h
  obtain ⟨d, hd, hput⟩ := Option.map_eq_some_iff.mp h
  have hne : fd ≠ n := by
    rintro rfl
    rw [FdHandler.lookup_natCast, hfree] at hd
    cases hd
  rw [if_neg hne] at hput
  exact ⟨d, hput.symm⟩

/-- Closing a handle opens nothing. -/
theorem UniqueFd.get_of_close {fd : Int} (h : (UniqueFd.close host fd).get n = some d) : host.get n = some d := by
  unfold UniqueFd.close HostFds.close at h
  split_ifs at h
  · rw [Slots.get_put] at h
    split_ifs at h
    exact h
  · exact h

namespace QnxFd

theorem marks_self {file : φ} : e.Marks ⟨file, e.isCloseOnExec⟩ := by
  refine ⟨id, fun hmark hzero => ?_⟩
  simp [isCloseOnExec, hzero] at hmark

theorem marks_mark (h : d.cloexec = false) : e.Marks (d.mark e.isCloseOnExec) := by
  rw [HostFd.mark, h, Bool.false_or]
  exact marks_self

theorem marks_flags {flags : BitVec 16} {file : φ} :
    Marks { e with flags := flags } ⟨file, decide (flags ≠ 0)⟩ := by
  refine ⟨fun hmark => ?_, of_decide_eq_true⟩
  apply decide_eq_true
  rintro rfl
  simp [isCloseOnExec] at hmark

/-- Handing a descriptor over sets its mark if need be, and changes nothing else. -/
theorem finish_marks {e' : QnxFd} {h : Int} (hfinish : e.finish host h = .ok (host', e')) :
    e' = { e with isOpen := true, hostFd := h } ∧ ∀ k : Nat, host'.get k =
      (host.get k).map (·.mark (e.isCloseOnExec && decide (h = k))) := by
  unfold finish at hfinish
  dsimp only at hfinish
  split_ifs at hfinish with hmark
  · split at hfinish
    · cases hfinish
    · next host₁ hset =>
        cases hfinish
        refine ⟨rfl, fun k => ?_⟩
        obtain ⟨d, hd, rfl⟩ := Option.map_eq_some_iff.mp hset
        unfold HostFds.lookup at hd
        split_ifs at hd with hneg
        rw [Slots.get_put, show e.isCloseOnExec = true from hmark, Bool.true_and]
        by_cases hk : k = h.toNat
        · rw [if_pos hk, hk, hd, Option.map_some, decide_eq_true (by omega), HostFd.mark, Bool.or_true]
        · rw [if_neg hk, decide_eq_false (by omega), HostFd.map_mark_false]
  · cases hfinish
    refine ⟨rfl, fun k => ?_⟩
    rw [show e.isCloseOnExec = false from Bool.not_eq_true _ ▸ hmark, Bool.false_and, HostFd.map_mark_false]

/-- A descriptor that is not marked yet gets the mark of its entry with its number. -/
theorem assignFd_marks {e' : QnxFd} {tmp : Nat} {left : Int} (h : e.assignFd host tmp = .ok (host', e', left))
    (hd : host.get tmp = some d) (hplain : d.cloexec = false) :
    e' = { e with isOpen := true, hostFd := e.fd } ∧ left = (if tmp = e.fd then (-1 : Int) else tmp) ∧
      ∀ k, host'.get k = if k = e.fd then some ⟨d.file, e.isCloseOnExec⟩ else host.get k := by
  unfold assignFd at h
  split_ifs at h with hopen hmove
  · have hne : tmp ≠ e.fd := fun heq => hmove (congrArg _ heq)
    rw [HostFds.dup2, FdHandler.lookup_natCast, hd, Option.map_some, if_neg hmove] at h
    dsimp only at h
    obtain ⟨⟨host₁, e₁⟩, hfinish, h⟩ := bind_eq_ok.1 h
    cases h
    obtain ⟨rfl, hget⟩ := finish_marks hfinish
    refine ⟨rfl, (if_neg hne).symm, fun k => ?_⟩
    rw [hget, Slots.get_put]
    split_ifs with hk
    · simp [HostFd.mark, hk]
    · rw [decide_eq_false (by omega), Bool.and_false, HostFd.map_mark_false]
  · have heq : tmp = e.fd := by omega
    obtain ⟨⟨host₁, e₁⟩, hfinish, h⟩ := bind_eq_ok.1 h
    cases h
    obtain ⟨rfl, hget⟩ := finish_marks hfinish
    refine ⟨by rw [heq], (if_pos heq).symm, fun k => ?_⟩
    rw [hget]
    split_ifs with hk
    · rw [hk, ← heq, hd]
      simp [HostFd.mark, hplain]
    · rw [decide_eq_false (by omega), Bool.and_false, HostFd.map_mark_false]

end QnxFd

namespace FdState

/-- The marks slot by slot. -/
theorem Marked.of_slots (h : s.Marked) {fds : FdMap} {host : HostFds φ}
    (hslots : ∀ n, (fds.get n = s.fds.get n ∧ ∀ d, host.get n = some d → s.host.get n = some d) ∨
      ∀ e d, fds.get n = some e → e.isOpen = true → host.get n = some d → e.Marks d) : Marked ⟨fds, host⟩ := by
  intro n e d he hopen hd
  rcases hslots n with ⟨hfds, hhost⟩ | hnew
  · exact h n e d (hfds ▸ he) hopen (hhost d hd)
  · exact hnew e d he hopen hd

/-- Storing an entry that is marked right. -/
theorem Marked.store (h : s.Marked) {host : HostFds φ} (hattached : (s.fds.get n).isSome = true)
    (hmarks : e.isOpen = true → ∀ d, host.get n = some d → e.Marks d)
    (hhost : ∀ k, k ≠ n → ∀ d, host.get k = some d → s.host.get k = some d) : Marked ⟨s.fds.store n e, host⟩ := by
  apply h.of_slots
  intro k
  rw [IdMap.get_store hattached]
  by_cases hk : n = k
  · subst hk
    refine .inr fun e' d he hopen hd => ?_
    rw [if_pos rfl] at he
    cases he
    exact hmarks hopen d hd
  · exact .inl ⟨if_neg hk, hhost k (Ne.symm hk)⟩

end FdState

namespace FdMap.Sized

variable {fds : FdMap}

theorem store (h : Sized fds) : Sized (fds.store n e) :=
  ⟨h.max, Nat.le_trans (Nat.le_of_eq List.length_set) h.bounded⟩

theorem free (h : Sized fds) : Sized (fds.free n) := ⟨h.max, Nat.le_trans (Nat.le_of_eq List.length_set) h.bounded⟩

theorem emplace (h : Sized fds) (hn : n < fds.max) : Sized (fds.emplace n e) := by
  have hmax := IdMap.max_grow fds (n + 1)
  refine ⟨hmax.trans h.max, ?_⟩
  show ((fds.grow (n + 1)).data.set n (some e)).length ≤ (fds.grow (n + 1)).max
  rw [List.length_set, IdMap.length_grow, hmax]
  exact Nat.max_le.mpr ⟨h.bounded, hn⟩

/-- A free number that is found is one of the map. -/
theorem lt_of_search (h : Sized fds) {start : Nat} (hn : fds.search start false = some n) : n < fds.max := by
  rw [IdMap.search_eq_least h.bounded] at hn
  exact (IdMap.least_spec hn).2.1

end FdMap.Sized

/-! ## Renumbering -/

namespace AssignState

variable {st st' : AssignState φ} {fd : QnxFd} {fds : List QnxFd} {i m : Nat}

/-- What the loop of `assign_fds` has in its handles is not marked. -/
def Plain (st : AssignState φ) : Prop :=
  ∀ n : Nat, (n : Int) ∈ st.hostFds → ∀ d, st.host.get n = some d → d.cloexec = false

/-- A descriptor that is none of those that are renumbered. -/
def Holds (st : AssignState φ) (n : Nat) (d : HostFd φ) : Prop := st.host.get n = some d ∧ (n : Int) ∉ st.hostFds

theorem Plain.moved (hst : st.Plain) (hplain : ∀ d, host.get m = some d → d.cloexec = false)
    (hframe : ∀ n, n ≠ m → host.get n = st.host.get n)
    (h : hostFdMoved { st with host := host } i m = .ok st') : st'.Plain := by
  unfold hostFdMoved at h
  split at h
  · cases h
  · cases h
    intro n hn d hd
    have hd' := UniqueFd.get_of_close hd
    by_cases hnm : n = m
    · exact hplain d (hnm ▸ hd')
    · rcases List.mem_or_eq_of_mem_set hn with hold | hnew
      · exact hst n hold d (hframe n hnm ▸ hd')
      · exact absurd (Int.ofNat.inj hnew) hnm

theorem Holds.moved (hst : st.Holds n d) (hne : n ≠ m) (hframe : ∀ n, n ≠ m → host.get n = st.host.get n)
    (h : hostFdMoved { st with host := host } i m = .ok st') : st'.Holds n d := by
  unfold hostFdMoved at h
  split at h
  · cases h
  · next old hold =>
      cases h
      refine ⟨?_, fun hn => ?_⟩
      · have hold' : old ≠ n := by
          rintro rfl
          exact hst.2 (List.mem_of_getElem? hold)
        show (UniqueFd.close host old).get n = some d
        unfold UniqueFd.close HostFds.close
        split_ifs with hpos
        · rw [Slots.get_put, if_neg (by omega), hframe n hne, hst.1]
        · rw [hframe n hne, hst.1]
      · rcases List.mem_or_eq_of_mem_set hn with hmem | hnew
        · exact hst.2 hmem
        · exact hne (Int.ofNat.inj hnew)

/-- A number that was free before is none that is held. -/
theorem reallocFd_keeps (h : st.reallocFd m = .ok st') :
    (st.Plain → st'.Plain) ∧ ∀ n d, st.Holds n d → st'.Holds n d := by
  unfold reallocFd at h
  split at h
  · cases h
    exact ⟨id, fun _ _ hst => hst⟩
  · split at h
    · cases h
    · next host newFd hdup =>
        obtain ⟨d', -, hopen⟩ := Option.map_eq_some_iff.mp hdup
        cases hopen
        have hframe : ∀ n, n ≠ st.host.lowestFree →
            (st.host.put st.host.lowestFree (some ⟨d'.file, false⟩)).get n = st.host.get n :=
          fun n hn => by rw [Slots.get_put, if_neg hn]
        refine ⟨fun hst => hst.moved (fun d hd => ?_) hframe h, fun n d hst => hst.moved ?_ hframe h⟩
        · rw [Slots.get_put, if_pos rfl] at hd
          cases hd
          rfl
        · rintro rfl
          have hget := hst.1
          rw [st.host.lowestFree_spec.1] at hget
          cases hget

theorem assignStep_keeps (h : st.assignStep i fd = .ok st') :
    (st.Plain → st'.Plain) ∧ ∀ n d, n ≠ fd.fd → st.Holds n d → st'.Holds n d := by
  unfold assignStep at h
  split at h
  · cases h
  split_ifs at h with hsame
  · cases h
    exact ⟨id, fun _ _ _ hst => hst⟩
  · obtain ⟨st₁, hrealloc, h⟩ := bind_eq_ok.1 h
    have hkeeps := reallocFd_keeps hrealloc
    split at h
    · cases h
    · next c hc =>
        split at h
        · cases h
        · next host hdup =>
            obtain ⟨d', hd', hput⟩ := Option.map_eq_some_iff.mp hdup
            have hframe : ∀ n, n ≠ fd.fd → host.get n = st₁.host.get n := by
              intro n hn
              rw [← hput]
              split_ifs
              · rfl
              · rw [Slots.get_put, if_neg hn]
            refine ⟨fun hst => (hkeeps.1 hst).moved (fun d hd => ?_) hframe h,
              fun n d hn hst => (hkeeps.2 n d hst).moved hn hframe h⟩
            rw [← hput] at hd
            split_ifs at hd with hself
            · exact hkeeps.1 hst fd.fd (hself ▸ List.mem_of_getElem? hc) d hd
            · rw [Slots.get_put, if_pos rfl] at hd
              cases hd
              rfl

theorem assignLoop_keeps (h : assignLoop fds i st = .ok st') :
    (st.Plain → st'.Plain) ∧ ∀ n d, (∀ fd ∈ fds, n ≠ fd.fd) → st.Holds n d → st'.Holds n d := by
  induction fds generalizing i st with
  | nil =>
      cases h
      exact ⟨id, fun _ _ _ hst => hst⟩
  | cons fd fds ih =>
      obtain ⟨st₁, hstep, h⟩ := bind_eq_ok.1 h
      have hone := assignStep_keeps hstep
      obtain ⟨hplain, hholds⟩ := ih h
      refine ⟨fun hst => hplain (hone.1 hst), fun n d hn hst => hholds n d ?_ (hone.2 n d (hn fd ?_) hst)⟩
      · exact fun fd' hfd' => hn fd' (List.mem_cons_of_mem _ hfd')
      · exact List.mem_cons_self

end AssignState

/-- Handing over two descriptors. -/
theorem finishLoop_two {e' d' : QnxFd} {hostFds : List Int} {eIn eOut : QnxFd}
    (h : finishLoop host [eIn, eOut] hostFds = .ok (host', [e', d'])) :
    ∃ a ∈ hostFds, ∃ b ∈ hostFds, e' = { eIn with isOpen := true, hostFd := a } ∧
      d' = { eOut with isOpen := true, hostFd := b } ∧ ∀ k : Nat, host'.get k = (host.get k).map fun d =>
        d.mark ((eIn.isCloseOnExec && decide (a = k)) || (eOut.isCloseOnExec && decide (b = k))) := by
  cases hostFds with
  | nil => cases h
  | cons a rest =>
      obtain ⟨⟨host₁, e₁⟩, hIn, h⟩ := bind_eq_ok.1 h
      obtain ⟨⟨host₂, toFds⟩, htail, h⟩ := bind_eq_ok.1 h
      cases rest with
      | nil =>
          cases htail
          cases h
      | cons b rest =>
          obtain ⟨⟨host₃, e₃⟩, hOut, hrest⟩ := bind_eq_ok.1 htail
          obtain ⟨⟨host₄, toFds'⟩, hend, hrest⟩ := bind_eq_ok.1 hrest
          cases hend
          cases hrest
          cases h
          obtain ⟨rfl, hgetIn⟩ := QnxFd.finish_marks hIn
          obtain ⟨rfl, hgetOut⟩ := QnxFd.finish_marks hOut
          refine ⟨a, List.mem_cons_self, b, by simp, rfl, rfl, fun k => ?_⟩
          rw [hgetOut, hgetIn, Option.map_map]
          exact congrFun (congrArg Option.map (funext fun d => HostFd.mark_mark ..)) _

/-! ## The messages -/

namespace Inherits

theorem attach {first : Nat} {nid pid vid : Int} {flags : BitVec 16} (hs : Inherits s)
    (h : s.procFdAttach first nid pid vid flags = .ok s') : Inherits s' := by
  have hinv := hs.toFdInv.attach h
  unfold FdState.procFdAttach at h
  split at h
  · next fds n hattach =>
      cases h
      unfold FdMap.qnxFdAttach IdMap.allocStartingAt at hattach
      split at hattach
      · cases hattach
      split at hattach
      · cases hattach
      · next i hsearch =>
          cases hattach
          refine ⟨hinv, hs.sized.emplace (hs.sized.lt_of_search hsearch), hs.marked.of_slots fun k => ?_⟩
          rw [IdMap.get_emplace]
          by_cases hk : n = k
          · refine .inr fun e d he hopen _ => ?_
            rw [if_pos hk] at he
            cases he
            cases hopen
          · exact .inl ⟨if_neg hk, fun d hd => hd⟩
  · cases h
  · cases h
    exact hs

theorem detach (hs : Inherits s) (hclosed : ∀ e, s.fds.get n = some e → e.isOpen = false) :
    Inherits (s.procFdDetach n) := by
  refine ⟨hs.toFdInv.detach hclosed, hs.sized.free, hs.marked.of_slots fun k => ?_⟩
  rw [FdMap.qnxFdDetach, IdMap.get_free]
  by_cases hk : n = k
  · refine .inr fun e d he => ?_
    rw [if_pos hk] at he
    cases he
  · exact .inl ⟨if_neg hk, fun d hd => hd⟩

theorem «open» {path : PathInfo} {file : φ} (hs : Inherits s) (hzero : (s.host.get 0).isSome = true ∨ n = 0)
    (h : s.ioOpen n path file = .ok s') : Inherits s' := by
  have hinv := hs.toFdInv.open hzero h
  unfold FdState.ioOpen at h
  obtain ⟨e, he, h⟩ := bind_eq_ok.1 h
  obtain ⟨⟨host, e', left⟩, hassign, h⟩ := bind_eq_ok.1 h
  cases h
  have hget := getAttachedFd_eq_ok.1 he
  have hnum : e.fd = n := hs.number n e hget
  have htmp : (s.host.put s.host.lowestFree (some ⟨file, false⟩)).get s.host.lowestFree = some ⟨file, false⟩ := by
    rw [Slots.get_put, if_pos rfl]
  obtain ⟨rfl, rfl, hhost⟩ := QnxFd.assignFd_marks hassign htmp rfl
  refine ⟨hinv, hs.sized.store, hs.marked.store (by rw [hget]; rfl) (fun _ d hd => ?_) fun k hk d hd => ?_⟩
  · have hd' := UniqueFd.get_of_close hd
    rw [hhost, if_pos hnum.symm] at hd'
    cases hd'
    exact QnxFd.marks_self (e := e)
  · -- the temporary descriptor is gone
    have hne : k ≠ s.host.lowestFree := by
      rintro rfl
      have hpos : s.host.lowestFree ≠ 0 := by
        intro heq
        have hfree := s.host.lowestFree_spec.1
        rcases hzero with h0 | h0
        · rw [heq] at hfree
          rw [hfree] at h0
          cases h0
        · exact hk (heq.trans h0.symm)
      rw [if_neg (fun heq => hk (heq.trans hnum)), UniqueFd.get_close, if_pos ⟨rfl, hpos⟩] at hd
      cases hd
    have hd' := UniqueFd.get_of_close hd
    rw [hhost, if_neg (fun heq => hk (heq.trans hnum)), Slots.get_put, if_neg hne] at hd'
    exact hd'

theorem close (hs : Inherits s) (h : s.ioClose n = .ok s') : Inherits s' := by
  have hinv := (hs.toFdInv.close h).1
  unfold FdState.ioClose at h
  obtain ⟨e, he, h⟩ := bind_eq_ok.1 h
  obtain ⟨⟨host, e'⟩, hclose, h⟩ := bind_eq_ok.1 h
  cases h
  obtain ⟨hget, hopen⟩ := getOpenFd_eq_ok.1 he
  unfold QnxFd.close at hclose
  split_ifs at hclose
  cases hclose
  refine ⟨hinv, hs.sized.store, hs.marked.store (by rw [hget]; rfl) (fun hopen => ?_) fun k hk d hd => ?_⟩
  · cases hopen
  · rw [HostFds.close, Slots.get_put] at hd
    split_ifs at hd
    exact hd

theorem closeIfOpen {dst : QnxFd} (hs : Inherits s) (h : s.closeIfOpen n dst = .ok s') : Inherits s' := by
  unfold FdState.closeIfOpen at h
  split_ifs at h
  · exact hs.close h
  · cases h
    exact hs

theorem dup {srcFd dstFd : Nat} (hs : Inherits s) (h : s.ioDup srcFd dstFd = .ok s') : Inherits s' := by
  have hinv := hs.toFdInv.dup h
  unfold FdState.ioDup at h
  obtain ⟨-, -, h⟩ := bind_eq_ok.1 h
  obtain ⟨dst₀, hdst₀, h⟩ := bind_eq_ok.1 h
  obtain ⟨s₁, hclose, h⟩ := bind_eq_ok.1 h
  obtain ⟨src, -, h⟩ := bind_eq_ok.1 h
  obtain ⟨dst, hdst, h⟩ := bind_eq_ok.1 h
  have hs₁ := hs.closeIfOpen hclose
  rw [getAttachedFd_eq_ok] at hdst
  have hnum := hs₁.number dstFd dst hdst
  split at h
  · cases h
  · next host hdup =>
      obtain ⟨⟨host', dst', newFd⟩, hassign, h⟩ := bind_eq_ok.1 h
      cases h
      have hclosed : dst.isOpen = false := by
        unfold QnxFd.assignFd at hassign
        split_ifs at hassign with hopen
        all_goals exact Bool.not_eq_true _ ▸ hopen
      obtain ⟨d, hput⟩ := HostFds.dup2_put hdup (hnum ▸ hs₁.host_eq_none hdst hclosed)
      obtain ⟨rfl, rfl, hhost⟩ := QnxFd.assignFd_marks hassign (by rw [hput, Slots.get_put, if_pos rfl]) rfl
      rw [if_pos rfl] at *
      refine ⟨hinv, hs₁.sized.store, hs₁.marked.store (by rw [hdst]; rfl) (fun _ d hd => ?_) fun k hk d hd => ?_⟩
      · have hd' := UniqueFd.get_of_close hd
        rw [hhost, if_pos hnum.symm] at hd'
        cases hd'
        exact QnxFd.marks_self (e := dst)
      · have hd' := UniqueFd.get_of_close hd
        rw [hhost, if_neg (fun heq => hk (heq.trans hnum)), hput, Slots.get_put,
          if_neg (fun heq => hk (heq.trans hnum))] at hd'
        exact hd'

theorem setfd {flags : BitVec 16} (hs : Inherits s) (h : s.procFdSetfd n flags = .ok s') : Inherits s' := by
  unfold FdState.procFdSetfd at h
  obtain ⟨e, he, h⟩ := bind_eq_ok.1 h
  have hget := getAttachedFd_eq_ok.1 he
  have hsome : (s.fds.get n).isSome = true := by rw [hget]; rfl
  split_ifs at h with hopen
  · split at h
    · cases h
    · next host hset =>
        cases h
        obtain ⟨d, hd, hput⟩ := Option.map_eq_some_iff.mp hset
        rw [hs.hostFd n e hget hopen, FdHandler.lookup_natCast] at hd
        rw [hs.hostFd n e hget hopen, Int.toNat_natCast] at hput
        subst hput
        have hhost := fun k => Slots.get_put s.host n k (some { d with cloexec := decide (flags ≠ 0) })
        refine ⟨hs.toFdInv.of_slots fun k => ?_, hs.sized.store,
          hs.marked.store hsome (fun _ d' hd' => ?_) fun k hk d' hd' => ?_⟩
        · rw [IdMap.get_store hsome, hhost]
          by_cases hk : n = k
          · subst hk
            exact .inr ⟨_, if_pos rfl, hs.number n e hget, by rw [if_pos rfl, hopen]; rfl,
              fun _ => hs.hostFd n e hget hopen⟩
          · exact .inl ⟨if_neg hk, by rw [if_neg (Ne.symm hk)]⟩
        · rw [hhost, if_pos rfl] at hd'
          cases hd'
          exact QnxFd.marks_flags
        · rw [hhost, if_neg hk] at hd'
          exact hd'
  · cases h
    refine ⟨hs.toFdInv.of_slots fun k => ?_, hs.sized.store,
      hs.marked.store hsome (fun hopen' => absurd hopen' hopen) fun k _ d hd => hd⟩
    rw [IdMap.get_store hsome]
    by_cases hk : n = k
    · subst hk
      refine .inr ⟨_, if_pos rfl, hs.number n e hget, ?_, fun hopen' => absurd hopen' hopen⟩
      rw [hs.toFdInv.host_eq_none hget (Bool.not_eq_true _ ▸ hopen)]
      exact (Bool.not_eq_true _ ▸ hopen).symm
    · exact .inl ⟨if_neg hk, rfl⟩

/-- The new descriptors of a pipe are not marked. -/
theorem plain_pipeHosts (host : HostFds φ) (fileIn fileOut : φ) :
    AssignState.Plain ⟨pipeHosts host fileIn fileOut,
      [((pipeNumbers host fileIn fileOut).1 : Int), (pipeNumbers host fileIn fileOut).2],
      storeIndices [((pipeNumbers host fileIn fileOut).1 : Int), (pipeNumbers host fileIn fileOut).2] 0
        fun _ => none⟩ := by
  intro n hn d hd
  rw [get_pipeHosts] at hd
  split_ifs at hd
  · cases hd
    rfl
  · cases hd
    rfl
  · simp at hn
    omega

theorem get_store_store {fds : FdMap} {fdIn fdOut : Nat} {e₁ e₂ : QnxFd} (h₁ : (fds.get fdIn).isSome = true)
    (h₂ : (fds.get fdOut).isSome = true) (k : Nat) :
    ((fds.store fdIn e₁).store fdOut e₂).get k =
      if fdOut = k then some e₂ else if fdIn = k then some e₁ else fds.get k := by
  rw [IdMap.get_store, IdMap.get_store h₁]
  rw [IdMap.get_store h₁]
  split_ifs
  · rfl
  · exact h₂

/-- The two ends of a pipe, after the loop that renumbers them. -/
theorem pipe {fdIn fdOut : Nat} {fileIn fileOut : φ} (hs : Inherits s)
    (hapart : PipeApart fdIn fdOut (pipeNumbers s.host fileIn fileOut).1 (pipeNumbers s.host fileIn fileOut).2)
    (h : s.fsysPipe fdIn fdOut fileIn fileOut = .ok s') : Inherits s' := by
  have hinv := hs.toFdInv.pipe hapart h
  unfold FdState.fsysPipe at h
  obtain ⟨eIn, hIn, h⟩ := bind_eq_ok.1 h
  obtain ⟨eOut, hOut, h⟩ := bind_eq_ok.1 h
  rw [getAttachedFd_eq_ok] at hIn hOut
  obtain ⟨r, hassign, h⟩ := bind_eq_ok.1 h
  obtain ⟨hfreeIn, hfreeOut, -⟩ := pipeNumbers_spec s.host fileIn fileOut
  have hpipe := get_pipeHosts s.host fileIn fileOut
  have hstart := plain_pipeHosts s.host fileIn fileOut
  change FdMap.assignFds (pipeHosts s.host fileIn fileOut) [eIn, eOut]
    [((pipeNumbers s.host fileIn fileOut).1 : Int), (pipeNumbers s.host fileIn fileOut).2] = .ok r at hassign
  generalize pipeNumbers s.host fileIn fileOut = nums at *
  generalize pipeHosts s.host fileIn fileOut = host at *
  obtain ⟨st, hloop, hfinish⟩ := bind_eq_ok.1 hassign
  obtain ⟨hplain, hholds⟩ := AssignState.assignLoop_keeps hloop
  have hunmarked := hplain hstart
  split at h
  · next host' eIn' eOut' =>
      cases h
      obtain ⟨a, ha, b, hb, rfl, rfl, hmarks⟩ := finishLoop_two hfinish
      have hget := @get_store_store s.fds fdIn fdOut { eIn with isOpen := true, hostFd := a }
        { eOut with isOpen := true, hostFd := b } (by rw [hIn]; rfl) (by rw [hOut]; rfl)
      have hb' : b = fdOut := hinv.hostFd fdOut _ ((hget fdOut).trans (if_pos rfl)) rfl
      refine ⟨hinv, hs.sized.store.store, hs.marked.of_slots fun k => .inr fun e d he hopen hd => ?_⟩
      rw [hget] at he
      rw [hmarks] at hd
      obtain ⟨d₁, hd₁, rfl⟩ := Option.map_eq_some_iff.mp hd
      by_cases hkOut : fdOut = k
      · rw [if_pos hkOut] at he
        cases he
        have hmark : (eIn.isCloseOnExec && decide (a = k) || eOut.isCloseOnExec && decide (b = k)) =
            eOut.isCloseOnExec := by
          rw [decide_eq_true (show b = k by omega), Bool.and_true]
          by_cases hsame : fdIn = fdOut
          · rw [hsame, hOut] at hIn
            cases hIn
            cases eIn.isCloseOnExec <;> simp
          · have ha' : a = fdIn :=
              hinv.hostFd fdIn _ ((hget fdIn).trans (by rw [if_neg (Ne.symm hsame), if_pos rfl])) rfl
            rw [decide_eq_false (show a ≠ k by omega), Bool.and_false, Bool.false_or]
        rw [hmark]
        exact QnxFd.marks_mark (e := eOut) (hunmarked k (by rwa [← hkOut, ← hb']) d₁ hd₁)
      · rw [if_neg hkOut] at he
        by_cases hkIn : fdIn = k
        · rw [if_pos hkIn] at he
          cases he
          have ha' : a = fdIn := hinv.hostFd fdIn _ ((hget fdIn).trans (by rw [if_neg (by omega), if_pos rfl])) rfl
          rw [decide_eq_true (show a = k by omega), decide_eq_false (show b ≠ k by omega), Bool.and_true,
            Bool.and_false, Bool.or_false]
          exact QnxFd.marks_mark (e := eIn) (hunmarked k (by rwa [← hkIn, ← ha']) d₁ hd₁)
        · rw [if_neg hkIn] at he
          -- an open descriptor that is not an end of the pipe is left alone
          obtain ⟨d₀, hd₀⟩ := Option.isSome_iff_exists.1 ((hs.opened k).2 ⟨e, he, hopen⟩)
          have hne : k ≠ nums.1 ∧ k ≠ nums.2 := by
            refine ⟨fun heq => ?_, fun heq => ?_⟩
            · rw [heq, hfreeIn] at hd₀
              cases hd₀
            · rw [heq, hfreeOut] at hd₀
              cases hd₀
          obtain ⟨hkeep, hnot⟩ := hholds k d₀ (by
            intro fd hfd
            simp only [List.mem_cons, List.not_mem_nil, or_false] at hfd
            rcases hfd with rfl | rfl
            · rw [hs.number _ _ hIn]
              exact Ne.symm hkIn
            · rw [hs.number _ _ hOut]
              exact Ne.symm hkOut) ⟨by rw [hpipe, if_neg hne.2, if_neg hne.1, hd₀], by simp; omega⟩
          rw [hkeep] at hd₁
          cases hd₁
          rw [decide_eq_false (show a ≠ k from fun heq => hnot (heq ▸ ha)),
            decide_eq_false (show b ≠ k from fun heq => hnot (heq ▸ hb)),
            Bool.and_false, Bool.and_false, Bool.or_false, HostFd.mark_false]
          exact hs.marked k e d₁ he hopen hd₀
  · cases h

theorem receive (hs : Inherits s) (h : FdState.Step FdState.Careful s s') : Inherits s' := by
  obtain ⟨msg, hcareful, hreceive⟩ := h
  unfold FdState.receive at hreceive
  split at hreceive
  · cases hreceive
    exact hs
  · cases msg with
    | fdAttach first nid pid vid flags => exact hs.attach hreceive
    | fdDetach fd =>
        cases hreceive
        exact hs.detach hcareful
    | ioOpen fd path file => exact hs.open hcareful hreceive
    | ioClose fd => exact hs.close hreceive
    | ioDup srcFd dstFd => exact hs.dup hreceive
    | fsysPipe fdIn fdOut fileIn fileOut => exact hs.pipe hcareful hreceive

end Inherits

/-! ## The next program -/

/-- `execve` closes what is marked, and leaves the rest alone. -/
theorem HostFds.get_execve (host : HostFds φ) (n : Nat) :
    host.execve.get n = (host.get n).filter (!·.cloexec) := by
  unfold HostFds.execve Slots.get
  rw [List.getElem?_map]
  cases host.slots[n]? with
  | none => rfl
  | some d => rfl

namespace FdMap

/-- The scan of a process that is starting. -/
def scanned (nid pid vid : Int) (fds : FdMap) (l : List Nat) : Except IdMap.AllocError FdMap :=
  l.foldlM (fun fds n =>
    fds.allocExactlyAt n fun n => { QnxFd.make nid pid vid 0 n with isOpen := true, hostFd := n }) fds

variable {nid pid vid : Int} {l : List Nat} {fds fds' : FdMap}

theorem Sized.scanned (hsized : Sized fds) (h : scanned nid pid vid fds l = .ok fds') : Sized fds' := by
  induction l generalizing fds with
  | nil =>
      cases h
      exact hsized
  | cons n l ih =>
      obtain ⟨fds₁, hfirst, h⟩ := bind_eq_ok.1 h
      obtain ⟨hn, -, rfl⟩ := IdMap.allocExactlyAt_ok hfirst
      exact ih (hsized.emplace hn) h

/-- The scan finds room for everything that has a number of the map. -/
theorem scanned_ok (hl : l.Nodup) (hsized : fds.Sized) (hlt : ∀ n ∈ l, n < 1024 * 16)
    (hfree : ∀ n ∈ l, fds.get n = none) : ∃ fds', scanned nid pid vid fds l = .ok fds' := by
  induction l generalizing fds with
  | nil => exact ⟨fds, rfl⟩
  | cons n l ih =>
      rw [List.nodup_cons] at hl
      have hn : n < fds.max := hsized.max ▸ hlt n List.mem_cons_self
      obtain ⟨fds', hrest⟩ := ih hl.2
        (hsized.emplace (e := { QnxFd.make nid pid vid 0 n with isOpen := true, hostFd := n }) hn)
        (fun k hk => hlt k (List.mem_cons_of_mem _ hk)) (fun k hk => by
          rw [IdMap.get_emplace, if_neg (show n ≠ k from fun heq => hl.1 (heq ▸ hk))]
          exact hfree k (List.mem_cons_of_mem _ hk))
      refine ⟨fds', ?_⟩
      rw [scanned, List.foldlM_cons, IdMap.allocExactlyAt, if_neg (Nat.not_le.mpr hn), hfree n List.mem_cons_self]
      exact hrest

end FdMap

/-- A process that starts with no descriptor marked. -/
theorem inherits_scan {nid pid vid : Int} {fds : FdMap} (h : FdMap.scanHostFds host nid pid vid = .ok fds)
    (hplain : ∀ n d, host.get n = some d → d.cloexec = false) : Inherits ⟨fds, host⟩ := by
  refine ⟨fdInv_scan h, FdMap.Sized.scanned ⟨rfl, Nat.zero_le _⟩ h, fun n e d he _ hd => ?_⟩
  rw [show fds.get n = _ from get_scan h n] at he
  split_ifs at he with hn
  · cases he
    refine ⟨fun hmark => ?_, fun hmark => ?_⟩
    · simp [QnxFd.isCloseOnExec, QnxFd.make] at hmark
    · rw [hplain n d hd] at hmark
      cases hmark
  · cases he

/-- A redirection opens its own descriptor at most. -/
theorem redirectFd_opens {i : Nat} {fd : Byte} (h : ((redirectFd host i fd).get n).isSome = true) :
    n = i ∨ (host.get n).isSome = true := by
  by_cases hn : n = i
  · exact .inl hn
  have hdup : ∀ host₁, host.dup2 fd.toNat i = some host₁ → host₁.get n = host.get n := by
    intro host₁ hdup
    obtain ⟨d, -, hput⟩ := Option.map_eq_some_iff.mp hdup
    rw [← hput]
    split_ifs
    · rfl
    · rw [Slots.get_put, if_neg hn]
  have hclear : ∀ host₁ : HostFds φ, (HostFds.clearCloexec host₁ i).get n = host₁.get n := by
    intro host₁
    unfold HostFds.clearCloexec
    cases host₁.get i with
    | none => rfl
    | some d => rw [Option.elim_some, Slots.get_put, if_neg hn]
  unfold redirectFd at h
  split_ifs at h with hff hself
  · exact .inr h
  · rw [hclear] at h
    cases hcall : host.dup2 fd.toNat i with
    | none =>
        rw [hcall] at h
        exact .inr h
    | some host₁ =>
        rw [hcall, Option.getD_some, hdup host₁ hcall] at h
        exact .inr h
  · rw [hclear] at h
    exact .inr h

theorem redirectStdfds_opens {stdfds : Fin 10 → Byte} (h : ((redirectStdfds host stdfds).get n).isSome = true) :
    n < 10 ∨ (host.get n).isSome = true := by
  unfold redirectStdfds at h
  generalize List.finRange 10 = is at h
  induction is generalizing host with
  | nil => exact .inr h
  | cons i is ih =>
      rcases ih h with hlt | hopen
      · exact .inl hlt
      · rcases redirectFd_opens hopen with rfl | hopen
        · exact .inl i.isLt
        · exact .inr hopen

/-- The next program always starts. -/
theorem FdState.exec_ok (hs : Inherits s) (stdfds : Fin 10 → Byte) (nid : Int) :
    ∃ s', s.exec stdfds nid = .ok s' := by
  have hlt : ∀ n ∈ (redirectStdfds s.host stdfds).execve.used, n < 1024 * 16 := by
    intro n hn
    rw [Slots.mem_used, HostFds.get_execve] at hn
    obtain ⟨d, hd⟩ := Option.isSome_iff_exists.1 hn
    have hopen : ((redirectStdfds s.host stdfds).get n).isSome = true := by
      rw [(Option.filter_eq_some_iff.mp hd).1]
      rfl
    rcases redirectStdfds_opens hopen with hlt | hopen
    · omega
    · obtain ⟨e, he, -⟩ := (hs.opened n).1 hopen
      by_contra hge
      have hlen : s.fds.data.length ≤ n := by
        have hmax := hs.sized.max
        have hbounded : s.fds.data.length ≤ s.fds.max := hs.sized.bounded
        omega
      rw [IdMap.get_of_length_le hlen] at he
      cases he
  have hok : ∃ fds, FdMap.scanned nid 1 1 FdMap.init _ = .ok fds :=
    FdMap.scanned_ok ((List.nodup_range).filter _) ⟨rfl, Nat.zero_le _⟩ hlt fun n _ => rfl
  obtain ⟨fds, hfds⟩ := hok
  refine ⟨⟨fds, (redirectStdfds s.host stdfds).execve⟩, ?_⟩
  have hscan : FdMap.scanHostFds (redirectStdfds s.host stdfds).execve nid 1 1 = .ok fds := hfds
  unfold FdState.exec
  dsimp only
  rw [hscan]
  rfl

theorem Inherits.exec {stdfds : Fin 10 → Byte} {nid : Int} (h : s.exec stdfds nid = .ok s') : Inherits s' := by
  obtain ⟨fds, hfds, h⟩ := bind_eq_ok.1 h
  cases h
  refine inherits_scan hfds fun n d hd => ?_
  rw [HostFds.get_execve] at hd
  simpa using (Option.filter_eq_some_iff.mp hd).2

theorem Inherits.step (hs : Inherits s) (h : FdStep s s') : Inherits s' := by
  cases h with
  | receive h => exact hs.receive h
  | setfd h => exact hs.setfd h
  | exec h => exact .exec h

theorem Inherits.run {s₀ : FdState φ} (hs : Inherits s₀) (h : Relation.ReflTransGen FdStep s₀ s) : Inherits s := by
  induction h with
  | refl => exact hs
  | tail _ hstep ih => exact ih.step hstep

/-- Behind a descriptor is what the host has at its number. -/
theorem FdInv.behind_eq (hs : FdInv s) (n : Nat) : s.behind n = s.host.files n := by
  unfold FdState.behind HostFds.files
  cases he : s.fds.get n with
  | none =>
      have hnone : s.host.get n = none := by
        by_contra hsome
        obtain ⟨e, he', -⟩ := (hs.opened n).1 (Option.isSome_iff_ne_none.2 hsome)
        rw [he] at he'
        cases he'
      rw [hnone]
      rfl
  | some e =>
      rw [Option.bind_some]
      split_ifs with hopen
      · rw [hs.hostFd n e he hopen, FdHandler.lookup_natCast]
      · rw [hs.host_eq_none he (Bool.not_eq_true _ ▸ hopen)]
        rfl

/-- The message leaves the descriptor alone. -/
def Unnamed (stdfds : Fin 10 → Byte) (n : Nat) : Prop := ∀ i : Fin 10, i.val = n → stdfds i = 0xFF

/-- What the next program finds at its descriptors. -/
structure Inherited (stdfds : Fin 10 → Byte) (s s' : FdState φ) : Prop where
  named : ∀ i, stdfds i ≠ 0xFF → s'.behind i = s.behind (stdfds i).toNat
  kept : ∀ n e, Unnamed stdfds n → s.fds.get n = some e → e.isOpen = true → e.flags = 0 → s'.behind n = s.behind n
  closed : ∀ n e, Unnamed stdfds n → s.fds.get n = some e → e.isOpen = true → e.isCloseOnExec = true →
    s'.fds.get n = none
  other : ∀ n, Unnamed stdfds n → s'.behind n = s.behind n ∨ s'.fds.get n = none
  attached : ∀ n, (s'.fds.get n).isSome = true ↔ s'.OpenAt n

/-- Let a process start with no descriptor marked, and handle careful messages, change descriptor flags and become
other programs, in any order. Then for every message that names open descriptors, none of which it has given
another file by then, the next program starts, with just those guest descriptors attached that are open. Those the
message names have the files it names; of the others, those without flags are as they were, and those with the
close-on-exec flag are gone. -/
theorem exec_inherits {host₀ : HostFds φ} {nid pid vid : Int} {fds₀ : FdMap} {stdfds : Fin 10 → Byte}
    (hscan : FdMap.scanHostFds host₀ nid pid vid = .ok fds₀)
    (hplain : ∀ n d, host₀.get n = some d → d.cloexec = false)
    (hrun : Relation.ReflTransGen FdStep ⟨fds₀, host₀⟩ s)
    (hopen : ∀ i, stdfds i ≠ 0xFF → s.OpenAt (stdfds i).toNat) (hsources : KeepsSources stdfds s.host) :
    ∃ s', s.exec stdfds nid = .ok s' ∧ Inherited stdfds s s' ∧ FdInv s' := by
  have hs := (inherits_scan hscan hplain).run hrun
  obtain ⟨s', hexec⟩ := FdState.exec_ok hs stdfds nid
  have hs' := (Inherits.exec hexec).toFdInv
  have hredirected := (redirectStdfds_iff fun i hi => (hs.opened _).2 (hopen i hi)).2 hsources
  obtain ⟨fds, hfds, h⟩ := bind_eq_ok.1 hexec
  cases h
  have hget := HostFds.get_execve (redirectStdfds s.host stdfds)
  have hclosed : ∀ n, (redirectStdfds s.host stdfds).execve.get n = none → fds.get n = none := by
    intro n hn
    refine (get_scan hfds n).trans (if_neg fun hmem => ?_)
    rw [Slots.mem_used, hn] at hmem
    cases hmem
  -- a descriptor that is not named is as it was, or gone
  have hunnamed : ∀ n d, Unnamed stdfds n → s.host.get n = some d →
      (redirectStdfds s.host stdfds).execve.get n = if d.cloexec then none else some d := by
    intro n d hn hd
    rw [hget, hredirected.others n hn, hd]
    cases hmark : d.cloexec <;> simp [hmark]
  refine ⟨_, hexec, ⟨fun i hi => ?_, fun n e hn he hopen hflags => ?_, fun n e hn he hopen hmark => ?_,
    fun n hn => ?_, fun n => ⟨fun hn => ?_, fun ⟨e, he, _⟩ => by rw [he]; rfl⟩⟩, hs'⟩
  · rw [hs'.behind_eq, hs.behind_eq, HostFds.files]
    dsimp only
    rw [hget, hredirected.named i hi]
    cases s.host.files (stdfds i).toNat <;> simp
  · obtain ⟨d, hd⟩ := Option.isSome_iff_exists.1 ((hs.opened n).2 ⟨e, he, hopen⟩)
    have hplain : d.cloexec = false := by
      by_contra hmark
      exact (hs.marked n e d he hopen hd).2 (Bool.of_not_eq_false hmark) hflags
    rw [hs'.behind_eq, hs.behind_eq, HostFds.files, HostFds.files]
    dsimp only
    rw [hunnamed n d hn hd, hplain, hd]
    rfl
  · obtain ⟨d, hd⟩ := Option.isSome_iff_exists.1 ((hs.opened n).2 ⟨e, he, hopen⟩)
    apply hclosed
    rw [hunnamed n d hn hd, (hs.marked n e d he hopen hd).1 hmark, if_pos rfl]
  · cases hd : s.host.get n with
    | none =>
        right
        apply hclosed
        rw [hget, hredirected.others n hn, hd]
        rfl
    | some d =>
        cases hmark : d.cloexec with
        | true =>
            right
            apply hclosed
            rw [hunnamed n d hn hd, hmark, if_pos rfl]
        | false =>
            left
            rw [hs'.behind_eq, hs.behind_eq, HostFds.files, HostFds.files]
            dsimp only
            rw [hunnamed n d hn hd, hmark, hd]
            rfl
  · have hentry := get_scan hfds n
    dsimp only at hn
    split_ifs at hentry
    · exact ⟨_, hentry, rfl⟩
    · rw [show fds.get n = none from hentry] at hn
      cases hn

/-- A program opens a file on a close-on-exec descriptor, and starts another that is to write to its standard error
only. -/
theorem exec_inherits_closed :
    let s := FdState.after (FdState.after ⟨stdFds, stdHost⟩ (.fdAttach 5 0 1 1 0x40)) (.ioOpen 5 PathInfo.empty 7)
    s.behind 5 = some 7 ∧
      ∃ s', s.exec (firstTwo 0 2) 0 = .ok s' ∧ s'.behind 1 = s.behind 2 ∧ s'.fds.get 5 = none := by
  intro s
  have hattach : Relation.ReflTransGen (FdState.Step FdState.Careful) ⟨stdFds, stdHost⟩
      (FdState.after ⟨stdFds, stdHost⟩ (.fdAttach 5 0 1 1 0x40)) := FdState.run_after .refl _ trivial
  have hrun : Relation.ReflTransGen FdStep ⟨stdFds, stdHost⟩ s :=
    Relation.ReflTransGen.mono (fun _ _ h => FdStep.receive h) _ _
      (FdState.run_after hattach (.ioOpen 5 PathInfo.empty 7) (.inl (by decide +kernel)))
  have hplain : ∀ n d, stdHost.get n = some d → d.cloexec = false := by
    intro n d hd
    have hmem := List.mem_of_getElem? (Option.join_eq_some_iff.mp hd)
    simp only [stdHost, List.mem_cons, Option.some.injEq, List.not_mem_nil, or_false] at hmem
    rcases hmem with rfl | rfl | rfl <;> rfl
  have hopen : ∀ i, firstTwo 0 2 i ≠ 0xFF → s.OpenAt (firstTwo 0 2 i).toNat := by
    intro i hi
    have hsource : (firstTwo 0 2 i).toNat = 0 ∨ (firstTwo 0 2 i).toNat = 2 := by
      revert i
      decide
    rcases hsource with hsource | hsource
    · rw [hsource]
      exact ⟨{ QnxFd.make 0 1 1 0 0 with isOpen := true, hostFd := 0 }, by decide +kernel, rfl⟩
    · rw [hsource]
      exact ⟨{ QnxFd.make 0 1 1 0 2 with isOpen := true, hostFd := 2 }, by decide +kernel, rfl⟩
  have hsources : KeepsSources (firstTwo 0 2) s.host := by
    unfold KeepsSources
    decide +kernel
  obtain ⟨s', hexec, hs', -⟩ := exec_inherits scan_stdHost hplain hrun hopen hsources
  have hentry : s.fds.get 5 = some { QnxFd.make 0 1 1 0x40 5 with isOpen := true, hostFd := 5 } := by
    decide +kernel
  refine ⟨by decide +kernel, s', hexec, hs'.named 1 (by decide), hs'.closed 5 _ ?_ hentry rfl rfl⟩
  unfold Unnamed
  decide

end Qine

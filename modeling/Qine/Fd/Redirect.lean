import Qine.Lib.Moves
import Mathlib.Data.List.OfFn
import Qine.Fd.Answers

/-!
# Duplicating descriptors

`proc_exec_common` (`main_handler.cpp`) redirects the first descriptors of the new program one after the
other with `dup2`. It does not move a descriptor out of the way that is still to be read, as `assign_fds`
does, so a swap goes wrong; `redirectStdfds_iff` says for which requests the redirections are the assignment
the message asks for.

`io_dup` closes its destination before it duplicates the source (`ioDup_iff`).
-/

namespace Qine

variable {φ : Type}

/-! ## The redirections of a new program -/

/-- `fcntl(fd, F_SETFD, 0)`, the answer of which is not looked at. -/
def HostFds.clearCloexec (host : HostFds φ) (fd : Nat) : HostFds φ :=
  (host.get fd).elim host fun d => host.put fd (some { d with cloexec := false })

/-- One round of the last loop of `proc_exec_common`. `map_fd` gives the number of the guest descriptor,
and the answer of `dup2` is not looked at. -/
def redirectFd (host : HostFds φ) (fdi : Nat) (fd : Byte) : HostFds φ :=
  if fd = 0xFF then host
  else HostFds.clearCloexec (if fd.toNat ≠ fdi then (host.dup2 fd.toNat fdi).getD host else host) fdi

/-- The last loop of `proc_exec_common`. -/
def redirectStdfds (host : HostFds φ) (stdfds : Fin 10 → Byte) : HostFds φ :=
  (List.finRange 10).foldl (fun host (fdi : Fin 10) => redirectFd host fdi (stdfds fdi)) host

/-- The open files, by descriptor. -/
def HostFds.files (host : HostFds φ) (fd : Nat) : Option φ := (host.get fd).map (·.file)

/-- The descriptors a message names get the files that were behind them, and the others are as before. -/
structure Redirected (stdfds : Fin 10 → Byte) (host host' : HostFds φ) : Prop where
  named : ∀ i, stdfds i ≠ 0xFF → host'.get i = (host.files (stdfds i).toNat).map (⟨·, false⟩)
  others : ∀ n, (∀ i : Fin 10, i.val = n → stdfds i = 0xFF) → host'.get n = host.get n

/-- The redirections among the given descriptors. -/
def redirections (stdfds : Fin 10 → Byte) (is : List (Fin 10)) : List (Nat × Nat) :=
  (is.filter (stdfds · ≠ 0xFF)).map fun i => (i.val, (stdfds i).toNat)

variable {host : HostFds φ} {stdfds : Fin 10 → Byte}

theorem mem_redirections {is : List (Fin 10)} {m : Nat × Nat} :
    m ∈ redirections stdfds is ↔ ∃ i ∈ is, stdfds i ≠ 0xFF ∧ (i.val, (stdfds i).toNat) = m := by
  simp [redirections, and_assoc]

theorem mem_destinations {is : List (Fin 10)} {n : Nat} :
    n ∈ (redirections stdfds is).map Prod.fst ↔ ∃ i ∈ is, stdfds i ≠ 0xFF ∧ i.val = n := by
  simp [redirections, and_assoc]

theorem redirections_cons {i : Fin 10} {is : List (Fin 10)} : redirections stdfds (i :: is) =
    if stdfds i = 0xFF then redirections stdfds is
    else (i.val, (stdfds i).toNat) :: redirections stdfds is := by
  unfold redirections
  rw [List.filter_cons]
  split_ifs with h₁ h₂ h₂
  · exact absurd h₂ (of_decide_eq_true h₁)
  · rfl
  · rfl
  · exact absurd (decide_eq_true h₂) h₁

/-- A round changes the one descriptor only. -/
theorem get_redirectFd {fd : Byte} (hfd : fd ≠ 0xFF) {i : Nat} (hopen : (host.get fd.toNat).isSome = true) (k : Nat) :
    (redirectFd host i fd).get k =
      if k = i then (host.files fd.toNat).map (⟨·, false⟩) else host.get k := by
  obtain ⟨d, hd⟩ := Option.isSome_iff_exists.mp hopen
  have hlookup : host.lookup fd.toNat = some d := by rw [FdHandler.lookup_natCast, hd]
  unfold redirectFd HostFds.files
  rw [if_neg hfd, hd]
  by_cases hself : fd.toNat = i
  · rw [if_neg (not_not.mpr hself), ← hself, HostFds.clearCloexec, hd, Option.elim_some, Slots.get_put]
    rfl
  · have hne : (fd.toNat : Int) ≠ (i : Nat) := by omega
    rw [if_pos hself, HostFds.dup2, hlookup, Option.map_some, if_neg hne, Option.getD_some,
      HostFds.clearCloexec, Slots.get_put, if_pos rfl, Option.elim_some, Slots.get_put, Slots.get_put]
    split <;> rfl

/-- Rounds for different descriptors move the files from descriptor to descriptor. -/
theorem get_redirections {is : List (Fin 10)} (hnd : is.Nodup)
    (hopen : ∀ i, stdfds i ≠ 0xFF → (host.get (stdfds i).toNat).isSome = true) (k : Nat) :
    (is.foldl (fun host (fdi : Fin 10) => redirectFd host fdi (stdfds fdi)) host).get k =
      if k ∈ (redirections stdfds is).map Prod.fst then
        (Moves.run host.files (redirections stdfds is) k).map (⟨·, false⟩)
      else host.get k := by
  induction is generalizing host with
  | nil => rfl
  | cons i is ih =>
      rw [List.nodup_cons] at hnd
      rw [List.foldl_cons]
      by_cases hff : stdfds i = 0xFF
      · rw [redirections_cons, if_pos hff, redirectFd, if_pos hff]
        exact ih hnd.2 hopen
      · have hget := get_redirectFd hff (i := i) (hopen i hff)
        have hopen' : ∀ j, stdfds j ≠ 0xFF →
            ((redirectFd host i (stdfds i)).get (stdfds j).toNat).isSome = true := by
          intro j hj
          rw [hget]
          split
          · rw [Option.isSome_map, HostFds.files, Option.isSome_map]
            exact hopen i hff
          · exact hopen j hj
        have hfiles : (redirectFd host i (stdfds i)).files =
            Function.update host.files i (host.files (stdfds i).toNat) := by
          funext n
          rw [HostFds.files, hget, Function.update_apply]
          split
          · rw [Option.map_map]
            exact Option.map_id'
          · rfl
        rw [ih hnd.2 hopen', hfiles, redirections_cons, if_neg hff, Moves.run_cons, List.map_cons]
        by_cases hk : k ∈ (redirections stdfds is).map Prod.fst
        · rw [if_pos hk, if_pos (List.mem_cons_of_mem _ hk)]
        · rw [if_neg hk, hget]
          by_cases hki : k = i
          · rw [if_pos hki, if_pos (hki ▸ List.mem_cons_self), Moves.run_of_not_mem hk, hki,
              Function.update_self]
          · rw [if_neg hki, if_neg (List.not_mem_cons_of_ne_of_not_mem hki hk)]

/-- No entry names a descriptor that an entry before it has given another file. -/
def KeepsSources (stdfds : Fin 10 → Byte) (host : HostFds φ) : Prop :=
  ∀ i j : Fin 10, i < j → stdfds i ≠ 0xFF → stdfds j ≠ 0xFF → (stdfds j).toNat = i →
    host.files (stdfds i).toNat = host.files i

theorem keepsSources_iff : KeepsSources stdfds host ↔
    (redirections stdfds (List.finRange 10)).Pairwise (Moves.Undisturbed host.files) := by
  unfold KeepsSources redirections
  rw [List.pairwise_map, List.pairwise_filter, List.finRange, List.pairwise_ofFn]
  simp [Moves.Undisturbed]

theorem nodup_destinations : ((redirections stdfds (List.finRange 10)).map Prod.fst).Nodup := by
  unfold redirections
  rw [List.map_map]
  exact ((List.nodup_finRange 10).filter _).map Fin.val_injective

/-- For descriptors that are open, the redirections of a new program are the assignment its message asks for
exactly if no entry names a descriptor that an entry before it has given another file. -/
theorem redirectStdfds_iff (hopen : ∀ i, stdfds i ≠ 0xFF → (host.get (stdfds i).toNat).isSome = true) :
    Redirected stdfds host (redirectStdfds host stdfds) ↔ KeepsSources stdfds host := by
  have hget := get_redirections (List.nodup_finRange 10) hopen
  have hdst : ∀ i, stdfds i ≠ 0xFF → i.val ∈ (redirections stdfds (List.finRange 10)).map Prod.fst :=
    fun i hi => mem_destinations.mpr ⟨i, List.mem_finRange i, hi, rfl⟩
  rw [keepsSources_iff, ← Moves.run_eq_iff nodup_destinations]
  constructor
  · intro h m hm
    obtain ⟨i, -, hi, rfl⟩ := mem_redirections.mp hm
    have hnamed := h.named i hi
    rw [redirectStdfds, hget, if_pos (hdst i hi)] at hnamed
    exact Option.map_injective (fun _ _ h => (HostFd.mk.inj h).1) hnamed
  · intro h
    refine ⟨fun i hi => ?_, fun n hn => ?_⟩
    · rw [redirectStdfds, hget, if_pos (hdst i hi),
        h (i.val, (stdfds i).toNat) (mem_redirections.mpr ⟨i, List.mem_finRange i, hi, rfl⟩)]
    · rw [redirectStdfds, hget, if_neg]
      intro hmem
      obtain ⟨i, -, hi, rfl⟩ := mem_destinations.mp hmem
      exact hi (hn i rfl)

/-- Three open files, at the descriptors 0, 1 and 2. -/
def threeFiles : HostFds Nat := ⟨[some ⟨10, true⟩, some ⟨11, true⟩, some ⟨12, false⟩]⟩

/-- Entries for the descriptors 0 and 1 only. -/
def firstTwo (a b : Byte) (i : Fin 10) : Byte := if i = 0 then a else if i = 1 then b else 0xFF

/-- Input and output from the same descriptor. -/
theorem redirectStdfds_same : Redirected (firstTwo 2 2) threeFiles (redirectStdfds threeFiles (firstTwo 2 2)) := by
  refine (redirectStdfds_iff (by decide)).mpr ?_
  unfold KeepsSources
  decide

/-- Input and output exchanged: both end up on the file that was at descriptor 1. -/
theorem redirectStdfds_swap :
    (∀ i, firstTwo 1 0 i ≠ 0xFF → (threeFiles.get (firstTwo 1 0 i).toNat).isSome = true) ∧
      (redirectStdfds threeFiles (firstTwo 1 0)).get 1 = some ⟨11, false⟩ ∧
      ¬ Redirected (firstTwo 1 0) threeFiles (redirectStdfds threeFiles (firstTwo 1 0)) := by
  refine ⟨by decide, by decide, fun h => ?_⟩
  have hout := h.named 1 (by decide)
  revert hout
  decide

/-! ## Duplicating a guest descriptor -/

namespace FdState

/-- Entries have their numbers, and an open one has the host descriptor of its number behind it. -/
structure Backed (s : FdState φ) : Prop where
  number : ∀ n e, s.fds.get n = some e → e.fd = n
  hostFd : ∀ n e, s.fds.get n = some e → e.isOpen = true → e.hostFd = n
  host : ∀ n e, s.fds.get n = some e → e.isOpen = true → (s.host.get n).isSome = true

/-- The correspondence of `FdInv` says more about the host than is needed here. -/
theorem backed_of_inv {s : FdState φ} (hinv : FdInv s) : s.Backed :=
  ⟨hinv.number, hinv.hostFd, fun n e he hopen => (hinv.opened n).mpr ⟨e, he, hopen⟩⟩

/-- The guest descriptor is open. -/
def OpenAt (s : FdState φ) (fd : Nat) : Prop := ∃ e, s.fds.get fd = some e ∧ e.isOpen = true

/-- The file behind an open guest descriptor. -/
def behind (s : FdState φ) (fd : Nat) : Option φ :=
  (s.fds.get fd).bind fun e => if e.isOpen then (s.host.lookup e.hostFd).map (·.file) else none

/-- Both tables are the same at a number. -/
def SameAt (s s' : FdState φ) (n : Nat) : Prop := s'.fds.get n = s.fds.get n ∧ s'.host.get n = s.host.get n

end FdState

/-- The answer to `io_dup`, and the state it leaves. -/
structure Duplicated (s : FdState φ) (srcFd dstFd : Nat) (reply : FdReply) (s' : FdState φ) : Prop where
  done : s.OpenAt srcFd → (s.fds.get dstFd).isSome = true → reply = ⟨qeok, .none⟩ ∧
    s'.OpenAt dstFd ∧ s'.behind dstFd = s.behind srcFd ∧ s'.OpenAt srcFd ∧ s'.behind srcFd = s.behind srcFd
  bad : ¬ (s.OpenAt srcFd ∧ (s.fds.get dstFd).isSome = true) → reply = ⟨qebadf, .none⟩ ∧ s' = s
  same : srcFd = dstFd → s' = s
  others : ∀ n, n ≠ dstFd → s.SameAt s' n

namespace FdHandler

variable {h : FdHost φ} {s : FdState φ} {fd srcFd dstFd : Nat} {e src dst : QnxFd}

theorem attachedFd_bad (he : s.fds.get fd = none) : (attachedFd fd).run s = .error .badFd s := by
  unfold attachedFd FdMap.getAttachedFd
  rw [EStateM.run_get_bind, he]
  rfl

theorem openFd_run (he : s.fds.get fd = some e) (hopen : e.isOpen = true) : (openFd fd).run s = .ok e s := by
  unfold openFd
  rw [EStateM.run_get_bind, getOpenFd_eq_ok.mpr ⟨he, hopen⟩]
  rfl

theorem openFd_bad (hclosed : ¬ s.OpenAt fd) : (openFd fd).run s = .error .badFd s := by
  unfold openFd FdMap.getOpenFd FdMap.getAttachedFd
  rw [EStateM.run_get_bind]
  cases he : s.fds.get fd with
  | none => rfl
  | some e =>
      have hnot : e.isOpen = false := Bool.eq_false_iff.mpr fun hopen => hclosed ⟨e, he, hopen⟩
      simp only [bind, Except.bind, hnot, Bool.false_eq_true, if_false]
      rfl

/-- What a state is like after the destination has been closed. -/
structure Vacated (s : FdState φ) (fd : Nat) (e : QnxFd) (s' : FdState φ) : Prop where
  entry : ∃ e', s'.fds.get fd = some e' ∧ e'.isOpen = false ∧ e'.fd = e.fd ∧ (e.isOpen = true → e'.hostFd = -1)
  others : ∀ n, n ≠ fd → s.SameAt s' n

theorem closeIfOpen_vacates (hs : s.Backed) (he : s.fds.get fd = some e) :
    (closeIfOpen h fd e).Leaves s (fun _ s' => Vacated s fd e s') fun _ _ => False := by
  unfold closeIfOpen
  split_ifs with hopen
  · have hstored : ∀ n, (s.fds.store fd { e with isOpen := false, hostDir := false, hostFd := -1 }).get n =
        if fd = n then some { e with isOpen := false, hostDir := false, hostFd := -1 } else s.fds.get n :=
      fun n => IdMap.get_store (by rw [he]; rfl) n _
    unfold closeFd
    refine EStateM.leaves_bind_of_ok (attachedFd_run he) ?_
    rw [hopen, if_neg (by simp)]
    refine EStateM.leaves_modify_bind (EStateM.leaves_get_bind ?_)
    obtain ⟨d, hd⟩ := Option.isSome_iff_exists.mp (hs.host fd e he hopen)
    rw [hs.hostFd fd e he hopen]
    dsimp only
    rw [lookup_natCast, hd]
    refine EStateM.leaves_modify_bind (EStateM.leaves_pure ⟨?_, fun n hn => ⟨?_, ?_⟩⟩)
    · exact ⟨_, (hstored fd).trans (if_pos rfl), rfl, rfl, fun _ => rfl⟩
    · exact (hstored n).trans (if_neg (Ne.symm hn))
    · rw [HostFds.close, Int.toNat_natCast, Slots.get_put, if_neg hn]
  · exact EStateM.leaves_pure ⟨⟨e, he, by simpa using hopen, rfl, (absurd · hopen)⟩, fun _ _ => ⟨rfl, rfl⟩⟩

/-- Copying an open host descriptor to another number. -/
theorem dup2_run {d : HostFd φ} {n : Nat} (hrefuse : h.refuse (.dup2 fd n) = none) (hd : s.host.get fd = some d)
    (hne : fd ≠ n) :
    (dup2 h fd n).run s = .ok (.ok ()) { s with host := s.host.put n (some ⟨d.file, false⟩) } := by
  have hne' : (fd : Int) ≠ (n : Nat) := by omega
  unfold dup2 hostCall
  rw [hostCallOn_run, hrefuse, HostFds.dup2, lookup_natCast, hd, Option.map_some, if_neg hne']
  rfl

/-- What a state is like after a descriptor has been opened on a file. -/
structure Opened (s : FdState φ) (fd : Nat) (file : Option φ) (s' : FdState φ) : Prop where
  entry : ∃ e, s'.fds.get fd = some e ∧ e.isOpen = true ∧ e.hostFd = fd
  file : s'.host.files fd = file
  others : ∀ n, n ≠ fd → s.SameAt s' n

theorem Opened.behind {s' : FdState φ} {file : Option φ} (h : Opened s fd file s') : s'.behind fd = file := by
  obtain ⟨e, he, hopen, hfd⟩ := h.entry
  unfold FdState.behind
  rw [he, Option.bind_some, if_pos hopen, hfd, lookup_natCast]
  exact h.file

/-- A host descriptor that has the number of the entry already is only marked. -/
theorem assignFd_own (he : s.fds.get fd = some e) (hnum : e.fd = fd) (hclosed : e.isOpen = false)
    (hopen : (s.host.get fd).isSome = true) :
    (assignFd h fd fd).Leaves s (fun r s' => r = (.ok (), -1) ∧ Opened s fd (s.host.files fd) s')
      fun _ _ => False := by
  obtain ⟨host, hfinish, hfile, hothers⟩ := e.finish_spec s.host fd hopen
  unfold assignFd
  refine EStateM.leaves_bind_of_ok (attachedFd_run he) ?_
  rw [hclosed, if_neg (by simp), hnum, if_neg (by simp)]
  unfold finishFd
  refine (EStateM.Leaves.bind ?_ fun _ s' hs' => EStateM.leaves_pure ⟨rfl, hs'⟩)
  refine EStateM.leaves_bind_of_ok (attachedFd_run he) (EStateM.leaves_get_bind ?_)
  refine EStateM.leaves_ofExcept_bind ?_ ?_
  · intro r hr
    cases hfinish.symm.trans hr
    have hstored : ∀ n, (s.fds.store fd { e with isOpen := true, hostFd := fd }).get n =
        if fd = n then some { e with isOpen := true, hostFd := fd } else s.fds.get n :=
      fun n => IdMap.get_store (by rw [he]; rfl) n _
    refine EStateM.leaves_modify ⟨⟨_, (hstored fd).trans (if_pos rfl), rfl, rfl⟩, hfile fd, fun n hn => ⟨?_, ?_⟩⟩
    · exact (hstored n).trans (if_neg (Ne.symm hn))
    · exact hothers n hn
  · intro err herr
    cases hfinish.symm.trans herr

/-- The last line of `io_dup` writes what is there already. -/
theorem store_opened {s' : FdState φ} {file : Option φ} (h : Opened s fd file s') (he : s'.fds.get fd = some e) :
    Opened s fd file { s' with fds := s'.fds.store fd { e with hostFd := fd } } := by
  have hstored : ∀ n, (s'.fds.store fd { e with hostFd := fd }).get n =
      if fd = n then some { e with hostFd := fd } else s'.fds.get n :=
    fun n => IdMap.get_store (by rw [he]; rfl) n _
  refine ⟨⟨_, (hstored fd).trans (if_pos rfl), ?_, rfl⟩, h.file, fun n hn => ⟨?_, (h.others n hn).2⟩⟩
  · obtain ⟨e', he', hopen, -⟩ := h.entry
    cases he.symm.trans he'
    exact hopen
  · exact ((hstored n).trans (if_neg (Ne.symm hn))).trans (h.others n hn).1

/-- The duplication of an open descriptor onto another one. -/
theorem ioDup_leaves (hs : s.Backed) (hdup : h.refuse (.dup2 srcFd dstFd) = none)
    (hsrc : s.fds.get srcFd = some src) (hopen : src.isOpen = true) (hdst : s.fds.get dstFd = some dst)
    (hne : srcFd ≠ dstFd) :
    (ioDup h srcFd dstFd).Leaves s (fun r s' => r = some ⟨qeok, .none⟩ ∧ Opened s dstFd (s.behind srcFd) s')
      fun _ _ => False := by
  obtain ⟨d, hd⟩ := Option.isSome_iff_exists.mp (hs.host srcFd src hsrc hopen)
  have hfd := hs.hostFd srcFd src hsrc hopen
  have hbehind : s.behind srcFd = some d.file := by
    unfold FdState.behind
    rw [hsrc, Option.bind_some, if_pos hopen, hfd, lookup_natCast, hd, Option.map_some]
  unfold ioDup
  refine EStateM.leaves_bind_of_ok (openFd_run hsrc hopen) (EStateM.leaves_bind_of_ok (attachedFd_run hdst) ?_)
  refine (closeIfOpen_vacates hs hdst).bind fun _ s₁ hv => ?_
  obtain ⟨dst', hdst', hclosed, hnum, -⟩ := hv.entry
  obtain ⟨hsrc₁, hhost₁⟩ := hv.others srcFd hne
  refine EStateM.leaves_bind_of_ok (attachedFd_run (hsrc₁.trans hsrc)) ?_
  rw [hfd, hs.number dstFd dst hdst]
  refine EStateM.leaves_bind_of_ok (dup2_run hdup (hhost₁.trans hd) hne) ?_
  dsimp only
  have hput : ∀ k, (s₁.host.put dstFd (some ⟨d.file, false⟩)).get k =
      if k = dstFd then some ⟨d.file, false⟩ else s₁.host.get k := fun k => s₁.host.get_put dstFd k _
  have hcopied : ((s₁.host.put dstFd (some ⟨d.file, false⟩)).get dstFd).isSome = true := by
    rw [hput, if_pos rfl]
    rfl
  have hassign := assignFd_own (h := h) (s := { s₁ with host := s₁.host.put dstFd (some ⟨d.file, false⟩) }) hdst'
    (hnum.trans (hs.number dstFd dst hdst)) hclosed hcopied
  refine hassign.bind ?_
  rintro _ s₂ ⟨rfl, hopened⟩
  have hfile : HostFds.files (s₁.host.put dstFd (some ⟨d.file, false⟩)) dstFd = s.behind srcFd := by
    rw [hbehind, HostFds.files, hput, if_pos rfl, Option.map_some]
  have hall : Opened s dstFd (s.behind srcFd) s₂ := by
    refine ⟨hopened.entry, hopened.file.trans hfile, fun n hn => ⟨?_, ?_⟩⟩
    · exact (hopened.others n hn).1.trans (hv.others n hn).1
    · exact (hopened.others n hn).2.trans (((hput n).trans (if_neg hn)).trans (hv.others n hn).2)
  obtain ⟨e, he, -⟩ := hopened.entry
  refine EStateM.leaves_bind_of_ok (attachedFd_run he) (EStateM.leaves_modify_bind (EStateM.leaves_modify_bind ?_))
  exact EStateM.leaves_pure ⟨rfl, store_opened hall he⟩

/-- Onto itself, a descriptor is closed before it is to be duplicated. -/
theorem ioDup_self (hs : s.Backed) (hdup : h.refuse (.dup2 (-1) fd) = none) (he : s.fds.get fd = some e)
    (hopen : e.isOpen = true) :
    (ioDup h fd fd).Leaves s (fun r _ => r = some ⟨qebadf, .none⟩) fun _ _ => False := by
  unfold ioDup
  refine EStateM.leaves_bind_of_ok (openFd_run he hopen) (EStateM.leaves_bind_of_ok (attachedFd_run he) ?_)
  refine (closeIfOpen_vacates hs he).bind fun _ s₁ hv => ?_
  obtain ⟨e', he', -, -, hfd⟩ := hv.entry
  refine EStateM.leaves_bind_of_ok (attachedFd_run he') ?_
  rw [hfd hopen, hs.number fd e he]
  have hrun : (dup2 h (-1) fd).run s₁ = .ok (.error qebadf) s₁ := by
    unfold dup2 hostCall
    rw [hostCallOn_run, hdup]
    rfl
  refine EStateM.leaves_bind_of_ok hrun (EStateM.leaves_pure ?_)
  rfl

variable {pm : PathMapper} {bits : Bitness}

theorem receive_of_leaves {request : FdRequest} {P : FdReply → FdState φ → Prop}
    (hleaves : (receiveInner h pm bits request).Leaves s (fun r s' => ∃ reply, r = some reply ∧ P reply s')
      fun _ _ => False) :
    ∃ reply s', (receive h pm bits request).run s = .ok (some reply) s' ∧ P reply s' := by
  obtain ⟨_, s', hrun, reply, rfl, hp⟩ := hleaves.exists_ok
  refine ⟨reply, s', ?_, hp⟩
  unfold receive
  rw [EStateM.run_catch, hrun]

theorem receive_of_badFd {request : FdRequest} (hrun : (receiveInner h pm bits request).run s = .error .badFd s) :
    (receive h pm bits request).run s = .ok (some ⟨qebadf, .none⟩) s := by
  unfold receive
  rw [EStateM.run_catch, hrun]
  rfl

/-- `io_dup` does what is asked of it except when it is to duplicate an open descriptor onto itself. -/
theorem ioDup_iff (hs : s.Backed) (hdup : ∀ fd newFd, h.refuse (.dup2 fd newFd) = none) :
    ∃ reply s', (receive h pm bits (.ioDup srcFd dstFd)).run s = .ok (some reply) s' ∧
      (Duplicated s srcFd dstFd reply s' ↔ srcFd ≠ dstFd ∨ ¬ s.OpenAt srcFd) := by
  by_cases hok : s.OpenAt srcFd ∧ (s.fds.get dstFd).isSome = true
  · obtain ⟨⟨src, hsrc, hopen⟩, hdst⟩ := hok
    have hsrcOpen : s.OpenAt srcFd := ⟨src, hsrc, hopen⟩
    by_cases hne : srcFd = dstFd
    · subst hne
      apply receive_of_leaves
      refine (ioDup_self hs (hdup _ _) hsrc hopen).mono ?_ fun _ _ h => h
      rintro _ s' rfl
      refine ⟨_, rfl, iff_of_false (fun hd => ?_) (by simp [hsrcOpen])⟩
      cases (hd.done hsrcOpen hdst).1
    · obtain ⟨dst, hdst'⟩ := Option.isSome_iff_exists.mp hdst
      apply receive_of_leaves
      refine (ioDup_leaves hs (hdup _ _) hsrc hopen hdst' hne).mono ?_ fun _ _ h => h
      rintro _ s' ⟨rfl, hopened⟩
      refine ⟨_, rfl, iff_of_true ?_ (.inl hne)⟩
      obtain ⟨hfds, hhost⟩ := hopened.others srcFd hne
      obtain ⟨e, he, heopen, -⟩ := hopened.entry
      refine ⟨fun _ _ => ⟨rfl, ⟨e, he, heopen⟩, hopened.behind, ⟨src, hfds.trans hsrc, hopen⟩, ?_⟩,
        fun hbad => absurd ⟨hsrcOpen, hdst⟩ hbad, (absurd · hne), hopened.others⟩
      unfold FdState.behind
      rw [hfds, hsrc, Option.bind_some, Option.bind_some, if_pos hopen, if_pos hopen, hs.hostFd srcFd src hsrc hopen,
        lookup_natCast, lookup_natCast, hhost]
  · have hrun : (receiveInner h pm bits (.ioDup srcFd dstFd)).run s = .error .badFd s := by
      show (ioDup h srcFd dstFd).run s = _
      unfold ioDup
      by_cases hsrc : s.OpenAt srcFd
      · obtain ⟨src, hsrc', hopen⟩ := hsrc
        have hdst : s.fds.get dstFd = none :=
          Option.not_isSome_iff_eq_none.mp fun hdst => hok ⟨⟨src, hsrc', hopen⟩, hdst⟩
        rw [EStateM.run_bind_of_ok (openFd_run hsrc' hopen), EStateM.run_bind, attachedFd_bad hdst]
      · rw [EStateM.run_bind, openFd_bad hsrc]
    refine ⟨_, _, receive_of_badFd hrun, iff_of_true ?_ ?_⟩
    · exact ⟨fun hsrc hdst => absurd ⟨hsrc, hdst⟩ hok, fun _ => ⟨rfl, rfl⟩, fun _ => rfl, fun _ _ => ⟨rfl, rfl⟩⟩
    · rw [or_iff_not_imp_right, not_not]
      rintro ⟨src, hsrc, hopen⟩ rfl
      exact hok ⟨⟨src, hsrc, hopen⟩, by rw [hsrc]; rfl⟩

theorem backed_std : FdState.Backed (⟨stdFds, stdHost⟩ : FdState Nat) :=
  FdState.backed_of_inv (fdInv_scan scan_stdHost)

/-- Standard output duplicated onto the standard error output. -/
theorem ioDup_stderr : ∃ reply s', (receive willing .init .b32 (.ioDup 1 2)).run ⟨stdFds, stdHost⟩ =
    .ok (some reply) s' ∧ Duplicated ⟨stdFds, stdHost⟩ 1 2 reply s' := by
  obtain ⟨reply, s', hrun, hiff⟩ := @ioDup_iff Nat willing ⟨stdFds, stdHost⟩ 1 2 .init .b32 backed_std
    fun _ _ => rfl
  exact ⟨reply, s', hrun, hiff.mpr (.inl (by decide))⟩

/-- Standard output duplicated onto itself is closed. -/
theorem ioDup_onto_itself :
    let s : FdState Nat := ⟨stdFds, stdHost⟩
    let x := receive willing .init .b32 (.ioDup 1 1)
    s.behind 1 = some 1 ∧ x.run' s = some (some ⟨qebadf, .none⟩) ∧ (x.after s).behind 1 = none ∧
      ∀ reply s', x.run s = .ok (some reply) s' → ¬ Duplicated s 1 1 reply s' := by
  intro s x
  have hclosed : (x.after s).behind 1 = none := by decide +kernel
  refine ⟨by decide +kernel, by decide +kernel, hclosed, fun reply s' hrun hd => ?_⟩
  have hafter : x.after s = s' := by
    unfold EStateM.after
    rw [hrun]
  rw [hafter, hd.same rfl] at hclosed
  revert hclosed
  decide +kernel

end FdHandler
end Qine

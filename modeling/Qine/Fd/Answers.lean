import Qine.Fd.Collisions

/-!
# Which descriptor messages are answered

Most of the descriptor messages are answered whatever their fields say and whatever state the entries
are in (`answered_iff`). The others are

* `fd_attach` from a descriptor at or past the end of the table, where `alloc_starting_at` gives a null
  pointer to a caller that expects an exception;
* an open of an entry that is open, with a name the host opens;
* `fsys_link` on an entry without a QNX path, as inherited, duplicated and pipe descriptors are;
* `io_readdir` when `readdir` reports an error;
* `fsys_pipe` when the host's numbers for the new pipe collide with the wanted ones;
* names that are empty or that have no terminator.
-/

namespace Qine

namespace PathMapper

/-- The prefix that is chosen for a QNX path can be replaced in it. -/
structure Translates (pm : PathMapper) (q : Path) : Prop where
  qnx : isAbs (pm.select q).qnxPath = true
  host : isAbs (pm.select q).hostPath = true
  length : (pm.select q).qnxPath.length ≤ q.length

variable {pm : PathMapper} {map : PathInfo} {path : Path} {normalized : Bool}

theorem mapInfoToHost_ok_iff : (∃ info, pm.mapInfoToHost map = .ok info) ↔
    map.qnxValid = true ∧ (map.hostValid = true ∨ pm.Translates map.qnxPath) := by
  have htranslates : pm.Translates map.qnxPath ↔
      ∃ r, changePrefix (pm.select map.qnxPath).qnxPath (pm.select map.qnxPath).hostPath map.qnxPath =
        .ok r := by
    rw [changePrefix_ok_iff]
    exact ⟨fun h => ⟨h.qnx, h.host, h.length⟩, fun ⟨h₁, h₂, h₃⟩ => ⟨h₁, h₂, h₃⟩⟩
  unfold mapInfoToHost
  cases map.qnxValid with
  | false => simp
  | true =>
      cases map.hostValid with
      | true => simp
      | false =>
          rw [htranslates]
          simp [bind_eq_ok, pure, Except.pure]

theorem mapPathToHost_ok_iff : (∃ info, pm.mapPathToHost path normalized = .ok info) ↔
    pm.Translates (if normalized then path else normalizePath path) := by
  unfold mapPathToHost
  rw [mapInfoToHost_ok_iff]
  simp [PathInfo.mkQnxPath, PathInfo.empty]

/-- With absolute prefixes, all that goes wrong is an empty path. -/
theorem translates_iff (h : pm.Reachable) : pm.Translates path ↔ path ≠ [] := by
  have hwf := h.wf
  have hsel := pm.selects_select path
  have hqnx := (hwf.canonical_qnx hsel.mem).isAbs
  constructor
  · rintro ht rfl
    have hlen := ht.length
    rw [List.length_nil, Nat.le_zero] at hlen
    rw [List.eq_nil_of_length_eq_zero hlen] at hqnx
    cases hqnx
  · intro hne
    refine ⟨hqnx, (hwf.canonical_host hsel.mem).isAbs, ?_⟩
    rcases hsel.root_or_prefix with hroot | hpre
    · rw [hroot, hwf.length_root]
      exact List.length_pos_iff.mpr hne
    · exact hpre.length_le

end PathMapper

namespace FdHandler

variable {φ α : Type} {h : FdHost φ} {s : FdState φ} {pm : PathMapper} {bits : Bitness}
variable {x : FdM φ α} {f : α → FdM φ (Option FdReply)} {fd : Nat} {e : QnxFd}

/-- A reply has been written. -/
def Answered (x : FdM φ (Option FdReply)) (s : FdState φ) : Prop :=
  ∃ reply s', x.run s = .ok (some reply) s'

/-- A reply has been written, or `receive` writes one. -/
def Served (x : FdM φ (Option FdReply)) (s : FdState φ) : Prop :=
  Answered x s ∨ ∃ s', x.run s = .error .badFd s'

theorem answered_receive {request : FdRequest} :
    Answered (receive h pm bits request) s ↔ Served (receiveInner h pm bits request) s := by
  unfold Served Answered receive
  rw [EStateM.run_catch]
  cases (receiveInner h pm bits request).run s with
  | ok r s' => simp
  | error err s' =>
      cases err with
      | badFd =>
          simp only [reduceCtorEq, exists_false, EStateM.Result.error.injEq, true_and, exists_eq', or_true,
            iff_true]
          exact ⟨_, _, rfl⟩
      | _ => simp

/-! ## Following a handler -/

theorem served_of_ok {a : α} {s₁ : FdState φ} (hx : x.run s = .ok a s₁) :
    Served (x >>= f) s ↔ Served (f a) s₁ := by
  unfold Served Answered
  rw [EStateM.run_bind_of_ok hx]

theorem served_of_error {err : FdError} {s₁ : FdState φ} (hx : x.run s = .error err s₁) :
    Served (x >>= f) s ↔ err = .badFd := by
  unfold Served Answered
  rw [EStateM.run_bind, hx]
  simp

theorem served_of_leaves {Q : α → FdState φ → Prop} {c : Prop}
    (hx : x.Leaves s Q fun _ _ => False) (hf : ∀ a s₁, Q a s₁ → (Served (f a) s₁ ↔ c)) :
    Served (x >>= f) s ↔ c := by
  obtain ⟨a, s₁, hrun, hq⟩ := hx.exists_ok
  rw [served_of_ok hrun, hf a s₁ hq]

theorem served_pure {r : Option FdReply} : Served (pure r) s ↔ r.isSome = true := by
  unfold Served Answered
  cases r with
  | none => simp
  | some r => simp

@[simp] theorem served_writeStatus {status : Int} : Served (writeStatus status) s :=
  served_pure.mpr rfl

@[simp] theorem served_writeErrno {errno : Int} : Served (writeErrno errno) s := served_writeStatus

theorem served_get {f : FdState φ → FdM φ (Option FdReply)} : Served (get >>= f) s ↔ Served (f s) s :=
  Iff.rfl

theorem served_set {s₁ : FdState φ} {f : PUnit → FdM φ (Option FdReply)} :
    Served (set s₁ >>= f) s ↔ Served (f ⟨⟩) s₁ := Iff.rfl

theorem served_modify {g : FdState φ → FdState φ} {f : PUnit → FdM φ (Option FdReply)} :
    Served (modify g >>= f) s ↔ Served (f ⟨⟩) (g s) := Iff.rfl

theorem served_throw {r : FdError} :
    Served (throw r) s ↔ r = .badFd := by
  unfold Served Answered
  constructor
  · rintro (⟨reply, s', ⟨⟩⟩ | ⟨s', ⟨⟩⟩)
    rfl
  · rintro rfl
    exact .inr ⟨s, rfl⟩

theorem attachedFd_run (he : s.fds.get fd = some e) : (attachedFd fd).run s = .ok e s := by
  unfold attachedFd
  rw [EStateM.run_get_bind, getAttachedFd_eq_ok.mpr he]
  rfl

/-- An entry that is not attached is answered with `QEBADF`. -/
theorem served_attachedFd {f : QnxFd → FdM φ (Option FdReply)} :
    Served (attachedFd fd >>= f) s ↔ ∀ e, s.fds.get fd = some e → Served (f e) s := by
  cases he : s.fds.get fd with
  | none =>
      have hrun : (attachedFd fd).run s = .error .badFd s := by
        unfold attachedFd FdMap.getAttachedFd
        rw [EStateM.run_get_bind, he]
        rfl
      simp [served_of_error hrun]
  | some e => simp [served_of_ok (attachedFd_run he)]

theorem served_openFd {f : QnxFd → FdM φ (Option FdReply)} :
    Served (openFd fd >>= f) s ↔ ∀ e, s.fds.get fd = some e → e.isOpen = true → Served (f e) s := by
  cases he : s.fds.getOpenFd fd with
  | error err =>
      have hrun : (openFd fd).run s = .error err s := by
        unfold openFd
        rw [EStateM.run_get_bind, he]
        rfl
      have hnot : ∀ e, s.fds.get fd = some e → ¬ e.isOpen = true := by
        intro e hget hopen
        rw [getOpenFd_eq_ok.mpr ⟨hget, hopen⟩] at he
        cases he
      have hbad : err = .badFd := by
        unfold FdMap.getOpenFd FdMap.getAttachedFd at he
        cases hget : s.fds.get fd with
        | none =>
            rw [hget] at he
            cases he
            rfl
        | some e =>
            rw [hget] at he
            simp only [bind, Except.bind, hnot e hget, Bool.false_eq_true, if_false] at he
            cases he
            rfl
      rw [served_of_error hrun]
      exact ⟨fun _ e hget hopen => absurd hopen (hnot e hget), fun _ => hbad⟩
  | ok e =>
      have hrun : (openFd fd).run s = .ok e s := by
        unfold openFd
        rw [EStateM.run_get_bind, he]
        rfl
      obtain ⟨hget, hopen⟩ := getOpenFd_eq_ok.mp he
      rw [served_of_ok hrun, hget]
      simp [hopen]

/-- A host call that is only refused. -/
theorem hostCall_run_some {refused : Option Int} {y : HostFds φ → HostFds φ × α} :
    (hostCall refused fun host => some (y host)).run s =
      .ok (refused.elim (.ok (y s.host).2) .error)
        (refused.elim { s with host := (y s.host).1 } fun _ => s) := by
  unfold hostCall
  rw [hostCallOn_run]
  cases refused <;> rfl

/-! ## Entries -/

theorem finishFd_leaves {n : Nat} (he : s.fds.get fd = some e) (hopen : (s.host.get n).isSome = true) :
    (finishFd fd n).Leaves s (fun _ s' => s'.fds = s.fds.store fd { e with isOpen := true, hostFd := n } ∧
      ∀ k, (s'.host.get k).isSome = (s.host.get k).isSome) fun _ _ => False := by
  obtain ⟨host, hfinish, hfile, -⟩ := e.finish_spec s.host n hopen
  unfold finishFd
  refine EStateM.leaves_bind_of_ok (attachedFd_run he) (EStateM.leaves_get_bind ?_)
  refine EStateM.leaves_ofExcept_bind ?_ ?_
  · intro r hr
    cases hfinish.symm.trans hr
    refine EStateM.leaves_modify ⟨rfl, fun k => ?_⟩
    rw [← Option.isSome_map (f := (·.file)), hfile, Option.isSome_map]
  · intro err herr
    cases hfinish.symm.trans herr

theorem dup2_leaves {n : Int} {newFd : Nat} :
    (dup2 h n newFd).Leaves s (fun r s' => s'.fds = s.fds ∧ (r = .ok () → (s'.host.get newFd).isSome = true))
      fun _ _ => False := by
  unfold dup2 hostCall
  refine hostCallOn_leaves.mono ?_ fun _ _ h => h
  rintro r s' (⟨⟨errno, rfl⟩, rfl⟩ | ⟨host, a, -, hdup, -, rfl⟩)
  · exact ⟨rfl, nofun⟩
  · obtain ⟨host', hcopied, heq⟩ := Option.map_eq_some_iff.mp hdup
    cases heq
    exact ⟨rfl, fun _ => (dup2_opens hcopied).1⟩

/-- Handing a host descriptor to an entry that is not open. -/
theorem assignFd_leaves {tmp : Nat} (he : s.fds.get fd = some e) (hclosed : e.isOpen = false)
    (htmp : (s.host.get tmp).isSome = true) :
    (assignFd h fd tmp).Leaves s (fun _ s' => (s'.fds.get fd).isSome = true) fun _ _ => False := by
  have hstored : ∀ {s' : FdState φ} {n : Nat}, s'.fds = s.fds → ∀ s'' : FdState φ,
      s''.fds = s'.fds.store fd { e with isOpen := true, hostFd := n } → (s''.fds.get fd).isSome = true := by
    intro s' n hfds s'' hstore
    rw [hstore, hfds, IdMap.get_store (by rw [he]; rfl), if_pos rfl]
    rfl
  unfold assignFd
  refine EStateM.leaves_bind_of_ok (attachedFd_run he) ?_
  rw [hclosed, if_neg (by simp)]
  split_ifs
  · refine dup2_leaves.bind ?_
    rintro r s₁ ⟨hfds, hopen⟩
    cases r with
    | error errno =>
        apply EStateM.leaves_pure
        rw [hfds, he]
        rfl
    | ok _ =>
        refine (finishFd_leaves (hfds ▸ he) (hopen rfl)).bind ?_
        rintro _ s₂ ⟨hstore, -⟩
        exact EStateM.leaves_pure (hstored hfds s₂ hstore)
  · refine (finishFd_leaves he htmp).bind ?_
    rintro _ s₂ ⟨hstore, -⟩
    exact EStateM.leaves_pure (hstored rfl s₂ hstore)

theorem assignFd_open {tmp : Int} (he : s.fds.get fd = some e) (hopen : e.isOpen = true) :
    (assignFd h fd tmp).run s = .error (.fault (.assertion "!m_open")) s := by
  unfold assignFd
  rw [EStateM.run_bind_of_ok (attachedFd_run he), if_pos hopen]
  rfl

theorem closeFd_leaves (he : s.fds.get fd = some e) (hopen : e.isOpen = true) :
    (closeFd h fd).Leaves s (fun _ s' => s'.fds = s.fds.store fd
      { e with isOpen := false, hostDir := false, hostFd := -1 }) fun _ _ => False := by
  unfold closeFd
  refine EStateM.leaves_bind_of_ok (attachedFd_run he) ?_
  rw [hopen, if_neg (by simp)]
  refine EStateM.leaves_modify_bind (EStateM.leaves_get_bind ?_)
  split
  · exact EStateM.leaves_pure rfl
  · exact EStateM.leaves_modify_bind (EStateM.leaves_pure rfl)

theorem prepareDir_run (he : s.fds.get fd = some e) :
    ∃ r s', (prepareDir h fd).run s = .ok r s' ∧ (r = .ok () ↔ e.hostDir = true ∨
      (h.refuse (.fdopendir e.hostFd) = none ∧ (s.host.lookup e.hostFd).isSome = true)) := by
  unfold prepareDir
  rw [EStateM.run_bind_of_ok (attachedFd_run he)]
  cases hdir : e.hostDir with
  | true => exact ⟨_, _, rfl, by simp⟩
  | false =>
      unfold hostCall
      rw [if_neg (by simp), EStateM.run_bind, hostCallOn_run]
      cases h.refuse (.fdopendir e.hostFd) with
      | some errno => exact ⟨_, _, rfl, by simp⟩
      | none =>
          cases s.host.lookup e.hostFd with
          | none => exact ⟨_, _, rfl, by simp⟩
          | some d => exact ⟨_, _, rfl, by simp⟩

/-! ## The handlers that always answer -/

theorem procFdDetach_served : Served (procFdDetach fd) s := by
  unfold procFdDetach
  rw [served_get, served_set]
  exact served_writeStatus

theorem procFdQuery_served : Served (procFdQuery bits fd) s := by
  unfold procFdQuery
  rw [served_get]
  split <;> exact served_pure.mpr rfl

theorem setfd_leaves {n : Int} {cloexec : Bool} :
    (setfd h n cloexec).Leaves s (fun _ _ => True) fun _ _ => False := by
  unfold setfd hostCall
  exact hostCallOn_leaves.mono (fun _ _ _ => trivial) fun _ _ h => h

theorem procFdSetfd_served {flags : BitVec 16} : Served (procFdSetfd h fd flags) s := by
  unfold procFdSetfd
  rw [served_attachedFd]
  intro e he
  have hset : (setfdIfOpen h e (flags ≠ 0)).Leaves s (fun _ _ => True) fun _ _ => False := by
    unfold setfdIfOpen
    split_ifs
    · exact setfd_leaves
    · exact EStateM.leaves_pure trivial
  refine (served_of_leaves hset fun r s₁ _ => ?_).mpr trivial
  cases r with
  | error errno => simp
  | ok _ =>
      refine iff_of_true (served_modify.mpr ?_) trivial
      exact served_writeStatus

theorem ioClose_served : Served (ioClose h fd) s := by
  unfold ioClose
  rw [served_openFd]
  intro e he hopen
  refine (served_of_leaves (closeFd_leaves he hopen) fun r s₁ _ => ?_).mpr trivial
  cases r <;> simp

theorem ioRewinddir_served : Served (ioRewinddir h fd) s := by
  unfold ioRewinddir
  rw [served_openFd]
  intro e he _
  obtain ⟨r, s', hrun, -⟩ := @prepareDir_run φ h s fd e he
  rw [served_of_ok hrun]
  cases r <;> simp

theorem closeIfOpen_leaves (he : s.fds.get fd = some e) :
    (closeIfOpen h fd e).Leaves s (fun _ s' => ∃ e', s'.fds.get fd = some e' ∧ e'.isOpen = false)
      fun _ _ => False := by
  unfold closeIfOpen
  split_ifs with hopen
  · refine (closeFd_leaves he hopen).mono ?_ fun _ _ h => h
    intro _ s' hstore
    refine ⟨{ e with isOpen := false, hostDir := false, hostFd := -1 }, ?_, rfl⟩
    rw [hstore, IdMap.get_store (by rw [he]; rfl), if_pos rfl]
  · exact EStateM.leaves_pure ⟨e, he, by simpa using hopen⟩

theorem ioDup_served {srcFd dstFd : Nat} : Served (ioDup h srcFd dstFd) s := by
  unfold ioDup
  rw [served_openFd]
  intro _ _ _
  rw [served_attachedFd]
  intro dst hdst
  refine (served_of_leaves (closeIfOpen_leaves hdst) fun _ s₁ hclosed => iff_of_true ?_ trivial).mpr trivial
  obtain ⟨dst', hdst', hclosed⟩ := hclosed
  rw [served_attachedFd]
  intro src _
  refine (served_of_leaves dup2_leaves fun r s₂ hdup => iff_of_true ?_ trivial).mpr trivial
  obtain ⟨hfds, hopen⟩ := hdup
  cases r with
  | error errno => simp
  | ok _ =>
      have hassign := @assignFd_leaves φ h s₂ dstFd dst' dst.fd (hfds ▸ hdst') hclosed (hopen rfl)
      refine (served_of_leaves hassign fun r s₃ _ => iff_of_true ?_ trivial).mpr trivial
      dsimp only
      rw [served_attachedFd]
      intro e _
      rw [storeFd, served_modify, closeHandle, served_modify]
      exact served_writeStatus

/-! ## The handlers that may not -/

theorem procFdAttach_served {nid pid vid : Int} {flags : BitVec 16} :
    Served (procFdAttach fd nid pid vid flags) s ↔ fd < s.fds.max := by
  unfold procFdAttach
  rw [served_get]
  unfold FdMap.qnxFdAttach IdMap.allocStartingAt
  by_cases hfd : s.fds.max ≤ fd
  · rw [if_pos hfd]
    simp [served_throw, hfd]
  · rw [if_neg hfd]
    refine iff_of_true ?_ (by omega)
    cases s.fds.search fd false with
    | none => exact served_writeStatus
    | some i =>
        dsimp only
        rw [served_set]
        exact served_pure.mpr rfl

theorem served_liftFault {x : Except Fault α} :
    Served (liftFault x >>= f) s ↔ ∃ a, x = .ok a ∧ Served (f a) s := by
  cases x with
  | error err =>
      have hrun : (liftFault (.error err) : FdM φ α).run s = .error (.fault err) s := rfl
      simp [served_of_error hrun]
  | ok a =>
      have hrun : (liftFault (.ok a) : FdM φ α).run s = .ok a s := rfl
      simp [served_of_ok hrun]

theorem cString_eq_ok {field : List Char} {path : Path} :
    cString field = .ok path ↔ '\x00' ∈ field ∧ path = field.takeWhile (· ≠ '\x00') := by
  unfold cString
  split_ifs with hmem
  · simp [hmem, eq_comm]
  · simp [hmem]

/-- The name in a field can be translated. -/
structure Named (pm : PathMapper) (field : List Char) (normalized : Bool) : Prop where
  terminated : '\x00' ∈ field
  translates : pm.Translates (if normalized then field.takeWhile (· ≠ '\x00')
    else normalizePath (field.takeWhile (· ≠ '\x00')))

/-- A name is translated before it is used. -/
theorem served_named {field : List Char} {normalized : Bool} {f : PathInfo → FdM φ (Option FdReply)} :
    Served (do
      let path ← liftFault (cString field)
      f (← liftFault (pm.mapPathToHost path normalized))) s ↔
    Named pm field normalized ∧ ∀ info,
      pm.mapPathToHost (field.takeWhile (· ≠ '\x00')) normalized = .ok info → Served (f info) s := by
  rw [served_liftFault]
  constructor
  · rintro ⟨path, hpath, hserved⟩
    obtain ⟨hmem, rfl⟩ := cString_eq_ok.mp hpath
    obtain ⟨info, hinfo, hserved⟩ := served_liftFault.mp hserved
    refine ⟨⟨hmem, PathMapper.mapPathToHost_ok_iff.mp ⟨info, hinfo⟩⟩, ?_⟩
    intro info' hinfo'
    cases hinfo.symm.trans hinfo'
    exact hserved
  · rintro ⟨⟨hmem, htranslates⟩, hserved⟩
    obtain ⟨info, hinfo⟩ := PathMapper.mapPathToHost_ok_iff.mpr htranslates
    exact ⟨_, cString_eq_ok.mpr ⟨hmem, rfl⟩, served_liftFault.mpr ⟨info, hinfo, hserved info hinfo⟩⟩

/-- An open of an open entry fails, unless the host fails first. -/
theorem ioOpen_served {type : OpenType} {oflag mode : BitVec 16} {file : List Char} :
    Served (ioOpen h pm type fd oflag mode file) s ↔ ∀ e, s.fds.get fd = some e → Named pm file true ∧
      ∀ info, pm.mapPathToHost (file.takeWhile (· ≠ '\x00')) true = .ok info → e.isOpen = true →
        (h.refuse (.openPath info.hostPath (openFlags oflag mode type) mode)).isSome = true := by
  unfold ioOpen
  rw [served_attachedFd]
  refine forall₂_congr fun e he => ?_
  rw [served_named]
  refine and_congr_right fun _ => forall₂_congr fun info _ => ?_
  rw [storeFd, served_modify, served_of_ok hostCall_run_some]
  obtain ⟨e', he', hopen'⟩ : ∃ e' : QnxFd, { e with path := info } = e' ∧ e'.isOpen = e.isOpen := ⟨_, rfl, rfl⟩
  have hstored : (s.fds.store fd e').get fd = some e' := by
    rw [IdMap.get_store (by rw [he]; rfl), if_pos rfl]
  rw [he', ← hopen']
  cases h.refuse (.openPath info.hostPath (openFlags oflag mode type) mode) with
  | some errno => simp
  | none =>
      cases hopen : e'.isOpen with
      | true =>
          refine (served_of_error (assignFd_open hstored hopen)).trans ?_
          simp
      | false =>
          refine iff_of_true ?_ nofun
          have htmp : ((s.host.openFile (h.file info.hostPath)).1.get s.host.lowestFree).isSome = true := by
            unfold HostFds.openFile
            rw [Slots.get_put, if_pos rfl]
            rfl
          refine (served_of_leaves (assignFd_leaves hstored hopen htmp) fun r s₁ _ =>
            iff_of_true ?_ trivial).mpr trivial
          obtain ⟨r, left⟩ := r
          refine served_modify.mpr ?_
          cases r <;> simp

/-- An error of `readdir` is not reported. -/
theorem ioReaddir_served {ndirs : Nat} : Served (ioReaddir h fd ndirs) s ↔
    ∀ e, s.fds.get fd = some e → e.isOpen = true →
      (e.hostDir = false ∧ ((h.refuse (.fdopendir e.hostFd)).isSome = true ∨
        s.host.lookup e.hostFd = none)) ∨ ndirs ≤ h.entries.length ∨ h.readError = none := by
  unfold ioReaddir
  rw [served_openFd]
  refine forall₂_congr fun e he => imp_congr_right fun _ => ?_
  obtain ⟨r, s', hrun, hr⟩ := @prepareDir_run φ h s fd e he
  have hprepared : (∃ errno, r = .error errno) ↔ e.hostDir = false ∧
      ((h.refuse (.fdopendir e.hostFd)).isSome = true ∨ s.host.lookup e.hostFd = none) := by
    rw [show (∃ errno, r = .error errno) ↔ ¬ r = .ok () by cases r <;> simp, hr]
    cases e.hostDir <;> cases h.refuse (.fdopendir e.hostFd) <;> cases s.host.lookup e.hostFd <;> simp
  rw [← hprepared, served_of_ok hrun]
  cases r with
  | error errno => simp
  | ok _ =>
      unfold readDirents
      by_cases hn : ndirs ≤ h.entries.length
      · simp [hn, served_pure]
      · cases h.readError <;> simp [hn, served_pure]

/-- A link needs the QNX path of the descriptor. -/
theorem fsysLink_served {newPath : List Char} : Served (fsysLink h pm fd newPath) s ↔
    ∀ e, s.fds.get fd = some e → e.isOpen = true → (e.path.qnxValid = true ∧
      (e.path.hostValid = true ∨ pm.Translates e.path.qnxPath)) ∧ Named pm newPath false := by
  unfold fsysLink
  rw [served_openFd]
  refine forall₂_congr fun e he => imp_congr_right fun _ => ?_
  rw [served_liftFault, ← PathMapper.mapInfoToHost_ok_iff]
  constructor
  · rintro ⟨info, hinfo, hserved⟩
    exact ⟨⟨info, hinfo⟩, (served_named.mp hserved).1⟩
  · rintro ⟨⟨info, hinfo⟩, hnamed⟩
    refine ⟨info, hinfo, served_named.mpr ⟨hnamed, fun dst _ => ?_⟩⟩
    cases h.refuse (.link info.hostPath dst.hostPath) <;> simp

/-! ## Pipes -/

variable {fdIn fdOut a b : Nat} {eIn eOut : QnxFd}

theorem attachedFds_run (hIn : s.fds.get fdIn = some eIn) (hOut : s.fds.get fdOut = some eOut) :
    ([fdIn, fdOut].mapM attachedFd).run s = .ok [eIn, eOut] s := by
  simp only [List.mapM_cons, List.mapM_nil]
  rw [EStateM.run_bind_of_ok (attachedFd_run hIn), bind_assoc, EStateM.run_bind_of_ok (attachedFd_run hOut)]
  rfl

/-- Both ends are handed over. -/
theorem finishFds_leaves (hIn : (s.fds.get fdIn).isSome = true) (hOut : (s.fds.get fdOut).isSome = true)
    (ha : (s.host.get a).isSome = true) (hb : (s.host.get b).isSome = true) :
    (([fdIn, fdOut].zip [(a : Int), (b : Int)]).forM fun m => finishFd (φ := φ) m.1 m.2).Leaves s
      (fun _ _ => True) fun _ _ => False := by
  obtain ⟨eIn, hIn⟩ := Option.isSome_iff_exists.mp hIn
  refine (finishFd_leaves hIn ha).bind ?_
  rintro _ s₁ ⟨hfds, hhost⟩
  have hOut₁ : (s₁.fds.get fdOut).isSome = true := by
    rw [hfds, IdMap.get_store (by rw [hIn]; rfl)]
    split_ifs
    · rfl
    · exact hOut
  obtain ⟨eOut, hOut₁⟩ := Option.isSome_iff_exists.mp hOut₁
  refine (finishFd_leaves hOut₁ (by rw [hhost]; exact hb)).bind ?_
  intro _ _ _
  exact EStateM.leaves_pure trivial

theorem assignFds_leaves (hIn : s.fds.get fdIn = some eIn) (hOut : s.fds.get fdOut = some eOut)
    (hf : AssignM.Fresh (assignStart [(a : Int), (b : Int)] s) a b)
    (hsafe : ∀ n, 2 ≤ n → AssignM.Collides eIn eOut a b n → h.refuse (.dup n) ≠ none) :
    (assignFds h [fdIn, fdOut] [(a : Int), (b : Int)]).Leaves s (fun _ _ => True) fun _ _ => False := by
  unfold assignFds
  refine EStateM.leaves_bind_of_ok (attachedFds_run hIn hOut) ?_
  have hloop : (EStateM.zoom (assignStart [(a : Int), (b : Int)]) (fun st s => { s with host := st.host })
      (do return (← AssignM.assignLoop h [eIn, eOut] 0, (← get).hostFds))).Leaves s
      (fun r s' => s'.fds = s.fds ∧ (r.1 = .ok () → ∃ a' b' : Nat, r.2 = [(a' : Int), (b' : Int)] ∧
        (s'.host.get a').isSome = true ∧ (s'.host.get b').isSome = true)) fun _ _ => False := by
    apply EStateM.leaves_zoom
    refine (AssignM.assignLoop_leaves hf hsafe).bind ?_
    intro r st hr
    exact EStateM.leaves_get_bind (EStateM.leaves_pure ⟨rfl, hr⟩)
  refine hloop.bind ?_
  rintro ⟨r, handles⟩ s₁ ⟨hfds, hr⟩
  cases r with
  | error errno =>
      have hclose : (handles.forM (closeHandle (φ := φ))).Leaves s₁ (fun _ _ => True) fun _ _ => False :=
        EStateM.leaves_forM (fun _ _ _ => EStateM.leaves_modify trivial) trivial
      exact hclose.bind fun _ _ _ => EStateM.leaves_pure trivial
  | ok _ =>
      obtain ⟨a', b', rfl, ha, hb⟩ := hr rfl
      refine (finishFds_leaves (by rw [hfds, hIn]; rfl) (by rw [hfds, hOut]; rfl) ha hb).bind ?_
      exact fun _ _ _ => EStateM.leaves_pure trivial

theorem assignFds_fault (hIn : s.fds.get fdIn = some eIn) (hOut : s.fds.get fdOut = some eOut)
    (hf : AssignM.Fresh (assignStart [(a : Int), (b : Int)] s) a b) {n : Nat} (hn : 2 ≤ n)
    (hcoll : AssignM.Collides eIn eOut a b n) (hdup : h.refuse (.dup n) = none) :
    ∃ s', (assignFds h [fdIn, fdOut] [(a : Int), (b : Int)]).run s = .error (.fault .outOfBounds) s' := by
  obtain ⟨st, hrun⟩ := AssignM.assignLoop_fault hf hn hcoll hdup
  have hloop := @EStateM.zoom_error FdError (FdState φ) (Except Int Unit × List Int) s _
    (assignStart [(a : Int), (b : Int)]) (fun st s => { s with host := st.host })
    (do return (← AssignM.assignLoop h [eIn, eOut] 0, (← get).hostFds)) (.fault .outOfBounds) st
    (by rw [EStateM.run_bind, hrun])
  unfold assignFds
  rw [EStateM.run_bind_of_ok (attachedFds_run hIn hOut), EStateM.run_bind, hloop]
  exact ⟨_, rfl⟩

/-- What a new pipe looks like. -/
theorem fresh_pipe {fds : FdMap} {host : HostFds φ} {fileIn fileOut : φ} :
    let hosts := pipeNumbers host fileIn fileOut
    AssignM.Fresh (assignStart [(hosts.1 : Int), (hosts.2 : Int)] ⟨fds, pipeHosts host fileIn fileOut⟩)
      hosts.1 hosts.2 := by
  obtain ⟨-, -, hlt⟩ := pipeNumbers_spec host fileIn fileOut
  have hget := get_pipeHosts host fileIn fileOut
  refine ⟨⟨rfl, hlt.ne, ?_, ?_⟩, hlt, ?_⟩
  · show ((pipeHosts host fileIn fileOut).get _).isSome = true
    rw [hget, if_neg hlt.ne, if_pos rfl]
    rfl
  · show ((pipeHosts host fileIn fileOut).get _).isSome = true
    rw [hget, if_pos rfl]
    rfl
  · intro k
    refine storeIndices_ne_none.trans ?_
    simp only [List.mem_cons, List.not_mem_nil, ne_eq, not_true_eq_false, or_false]
    omega

/-- The host's numbers for a new pipe must not collide with the wanted ones. -/
theorem fsysPipe_served : Served (fsysPipe h fdIn fdOut) s ↔
    ∀ eIn, s.fds.get fdIn = some eIn → ∀ eOut, s.fds.get fdOut = some eOut →
      (h.refuse .pipe).isSome = true ∨
        let hosts := pipeNumbers s.host h.ends.1 h.ends.2
        ∀ n, 2 ≤ n → AssignM.Collides eIn eOut hosts.1 hosts.2 n → (h.refuse (.dup n)).isSome = true := by
  unfold fsysPipe
  rw [served_attachedFd]
  refine forall₂_congr fun eIn hIn => ?_
  rw [served_attachedFd]
  refine forall₂_congr fun eOut hOut => ?_
  rw [served_of_ok hostCall_run_some]
  cases h.refuse .pipe with
  | some errno => simp
  | none =>
      have hf := @fresh_pipe φ s.fds s.host h.ends.1 h.ends.2
      dsimp only [Option.elim]
      generalize pipeNumbers s.host h.ends.1 h.ends.2 = hosts at hf ⊢
      generalize pipeHosts s.host h.ends.1 h.ends.2 = host at hf ⊢
      simp only [Option.isSome_none, Bool.false_eq_true, false_or]
      by_cases hsafe : ∀ n, 2 ≤ n → AssignM.Collides eIn eOut hosts.1 hosts.2 n →
          (h.refuse (.dup n)).isSome = true
      · refine iff_of_true ?_ hsafe
        have hleaves := @assignFds_leaves φ h ⟨s.fds, host⟩ fdIn fdOut _ _ eIn eOut hIn hOut hf
          fun n hn hcoll => Option.isSome_iff_ne_none.mp (hsafe n hn hcoll)
        refine (served_of_leaves hleaves fun r _ _ => iff_of_true ?_ trivial).mpr trivial
        cases r <;> simp
      · refine iff_of_false ?_ hsafe
        push Not at hsafe
        obtain ⟨n, hn, hcoll, hdup⟩ := hsafe
        obtain ⟨s', hrun⟩ := @assignFds_fault φ h ⟨s.fds, host⟩ fdIn fdOut _ _ eIn eOut hIn hOut hf n hn hcoll
          (by simpa using hdup)
        rw [served_of_error hrun]
        nofun

/-! ## All messages -/

/-- What it takes for a message to be answered, in terms of the message, of the state it meets and of
what the host refuses. -/
def Serviceable (h : FdHost φ) (pm : PathMapper) (s : FdState φ) : FdRequest → Prop
  | .fdAttach fd _ _ _ _ => fd < s.fds.max
  | .ioOpen type fd oflag mode file => ∀ e, s.fds.get fd = some e → Named pm file true ∧
      ∀ info, pm.mapPathToHost (file.takeWhile (· ≠ '\x00')) true = .ok info → e.isOpen = true →
        (h.refuse (.openPath info.hostPath (openFlags oflag mode type) mode)).isSome = true
  | .ioReaddir fd ndirs => ∀ e, s.fds.get fd = some e → e.isOpen = true →
      (e.hostDir = false ∧ ((h.refuse (.fdopendir e.hostFd)).isSome = true ∨
        s.host.lookup e.hostFd = none)) ∨ ndirs ≤ h.entries.length ∨ h.readError = none
  | .fsysPipe fdIn fdOut => ∀ eIn, s.fds.get fdIn = some eIn → ∀ eOut, s.fds.get fdOut = some eOut →
      (h.refuse .pipe).isSome = true ∨
        let hosts := pipeNumbers s.host h.ends.1 h.ends.2
        ∀ n, 2 ≤ n → AssignM.Collides eIn eOut hosts.1 hosts.2 n → (h.refuse (.dup n)).isSome = true
  | .fsysLink fd newPath => ∀ e, s.fds.get fd = some e → e.isOpen = true → (e.path.qnxValid = true ∧
      (e.path.hostValid = true ∨ pm.Translates e.path.qnxPath)) ∧ Named pm newPath false
  | _ => True

theorem receiveInner_served {request : FdRequest} :
    Served (receiveInner h pm bits request) s ↔ Serviceable h pm s request := by
  cases request with
  | fdAttach fd nid pid vid flags => exact procFdAttach_served
  | fdDetach fd => exact iff_of_true procFdDetach_served trivial
  | fdQuery fd => exact iff_of_true procFdQuery_served trivial
  | fdAction1 fd flags => exact iff_of_true procFdSetfd_served trivial
  | ioOpen type fd oflag mode file => exact ioOpen_served
  | ioClose fd => exact iff_of_true ioClose_served trivial
  | ioDup srcFd dstFd => exact iff_of_true ioDup_served trivial
  | ioReaddir fd ndirs => exact ioReaddir_served
  | ioRewinddir fd => exact iff_of_true ioRewinddir_served trivial
  | fsysPipe fdIn fdOut => exact fsysPipe_served
  | fsysLink fd newPath => exact fsysLink_served

/-- Something holds of each message of a run, in the state that the messages before it have left. -/
def Throughout (pm : PathMapper) (bits : Bitness) (P : FdHost φ → FdState φ → FdRequest → Prop) :
    FdState φ → List (FdHost φ × FdRequest) → Prop
  | _, [] => True
  | s, (h, request) :: rest =>
    P h s request ∧ Throughout pm bits P ((receive h pm bits request).after s) rest

/-- A run is answered message by message exactly if each message can be answered in the state it
meets. -/
theorem answered_iff (pm : PathMapper) (bits : Bitness) (s : FdState φ)
    (messages : List (FdHost φ × FdRequest)) :
    Throughout pm bits (fun h s request => Answered (receive h pm bits request) s) s messages ↔
      Throughout pm bits (fun h s request => Serviceable h pm s request) s messages := by
  induction messages generalizing s with
  | nil => exact Iff.rfl
  | cons m rest ih =>
      obtain ⟨h, request⟩ := m
      exact and_congr (answered_receive.trans receiveInner_served) (ih _)

/-- With absolute prefixes, a name must have a terminator and not be empty. -/
theorem named_iff {field : List Char} {normalized : Bool} (h : pm.Reachable) :
    Named pm field normalized ↔ '\x00' ∈ field ∧ (if normalized then field.takeWhile (· ≠ '\x00')
      else normalizePath (field.takeWhile (· ≠ '\x00'))) ≠ [] := by
  rw [← PathMapper.translates_iff h]
  exact ⟨fun ⟨h₁, h₂⟩ => ⟨h₁, h₂⟩, fun ⟨h₁, h₂⟩ => ⟨h₁, h₂⟩⟩

/-- A host that refuses nothing. -/
def willing : FdHost Nat where
  refuse _ := none
  file _ := 10
  ends := (11, 12)
  entries := []
  readError := none

/-- The first three messages are sent to a process that has the three standard descriptors: it attaches
from the end of the table, opens `/` on its standard input, and makes a link to it. The last one swaps
the numbers that the host gives to a pipe. -/
theorem messages_not_answered :
    let s : FdState Nat := ⟨stdFds, stdHost⟩
    let root : List Char := ['/', '\x00']
    let attach (fd : Nat) : FdM Nat (Option FdReply) :=
      receive willing .init .b32 (.fdAttach fd 0 1 1 0)
    FdMap.scanHostFds stdHost 0 1 1 = .ok stdFds ∧
      ¬ Throughout .init .b32 (fun h s request => Answered (receive h .init .b32 request) s) s
        [(willing, .fdAttach 16384 0 1 1 0)] ∧
      (attach 16384).throws s (.fault .nullPointer) = true ∧
      (receive willing .init .b32 (.ioOpen .ioOpen 0 0 0 root)).throws s
        (.fault (.assertion "!m_open")) = true ∧
      (receive willing .init .b32 (.fsysLink 0 root)).throws s
        (.fault (.assertion "map.m_qnx_valid")) = true ∧
      (receive willing .init .b32 (.fsysPipe 4 3)).throws ((attach 4).after ((attach 3).after s))
        (.fault .outOfBounds) = true := by
  intro s root attach
  refine ⟨scan_stdHost, ?_, by decide +kernel, by decide +kernel, by decide +kernel, by decide +kernel⟩
  rintro ⟨⟨reply, s', hrun⟩, -⟩
  obtain ⟨s₁, hthrows⟩ := EStateM.run_throws (x := attach 16384) (s := s) (e := .fault .nullPointer)
    (by decide +kernel)
  cases hthrows.symm.trans hrun

end FdHandler
end Qine

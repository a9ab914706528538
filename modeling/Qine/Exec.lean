import Qine.Fd.Redirect
import Qine.Path.Containment
import Qine.Spawn
import Qine.Startup.Context

/-!
# Starting another program

The rest of `MainHandler::proc_exec_common`, from the decoded message to `execve`: the path is mapped, a
program of the host gets the arguments as they are and a QNX program is wrapped into a call of the emulator
itself, the descriptors are redirected, and the program is started.

A program of the host is not to see `__CWD`, which is how the emulator hands the working directory to
itself. The loop that takes these entries out of the environment erases from the vector it walks through, and
passes over the entry that moves up; `execCommon_envp_iff` says for which environments that goes unnoticed.
-/

namespace Qine

variable {φ : Type}

open CString (cwdKey toPath ofPath ofString)

/-- The arguments of `execve`. -/
structure ExecCall where
  file : CString
  argv : List CString
  envp : List CString
  deriving DecidableEq, Repr

/-- What `proc_exec_common` has done to the host when it calls `execve`. -/
structure Executed (φ : Type) where
  /-- the arguments of `chdir`, in order -/
  chdirs : List Path
  fds : HostFds φ
  call : ExecCall
  deriving DecidableEq

/-- The loop over the environment, from the entry at `it` on: the entries that stay, and the directories
that are gone to. -/
def filterCwd (pm : PathMapper) : List CString → Except Fault (List CString × List Path)
  | [] => return ([], [])
  | envvar :: rest =>
    if CString.startsWith envvar cwdKey then do
      let mapped ← PathHandler.procExecCwd.mapped pm (toPath (envvar.drop cwdKey.length))
      match rest with
      | [] => return ([], [mapped.hostPath])
      | next :: rest => do
        -- `next` is what `erase` leaves at `it`, and `++it` passes over it
        let (envp, chdirs) ← filterCwd pm rest
        return (next :: envp, mapped.hostPath :: chdirs)
    else do
      let (envp, chdirs) ← filterCwd pm rest
      return (envvar :: envp, chdirs)

/-- `MainHandler::proc_exec_common` from where it has the path, the arguments and the environment. Nothing is
started if the mapped path may not be executed. -/
def execCommon (pm : PathMapper) (access : Path → Bool) (selfCall : List CString) (fds : HostFds φ)
    (stdfds : Fin 10 → Byte) (args : ExecArgs) : Except Fault (Option (Executed φ)) := do
  let mappedExec ← PathHandler.procExec.mapped pm (toPath args.path)
  if !access mappedExec.hostPath then return none
  let some pfx := mappedExec.pfx | .error .nullPointer
  match pfx.exec with
  | .host => do
    let (envp, chdirs) ← filterCwd pm args.envp
    return some ⟨chdirs, redirectStdfds fds stdfds, ⟨ofPath mappedExec.hostPath, args.argv, envp⟩⟩
  | .qnx =>
    let finalArgv := selfCall ++ [ofString "--exec", ofPath mappedExec.hostPath, ofString "--"] ++ args.argv
    return some ⟨[], redirectStdfds fds stdfds, ⟨finalArgv.headD [], finalArgv, args.envp⟩⟩

/-- `m_stdfds` of the message. -/
def Msg.stdfds (p : Process) (m : Mem) (msg : Msg) : Except Fault (Fin 10 → Byte) := do
  let header ← msg.read p m 0 SpawnMsg.size
  return fun i => header.getD (10 + i) 0

/-- `MainHandler::proc_exec_common`. -/
def Msg.exec (p : Process) (m : Mem) (msg : Msg) (pm : PathMapper) (access : Path → Bool)
    (selfCall : List CString) (fds : HostFds φ) : Except Fault (Option (Executed φ)) := do
  let args ← msg.procExecCommon p m
  let stdfds ← msg.stdfds p m
  execCommon pm access selfCall fds stdfds args

/-! ## The filter -/

/-- What the loop leaves of a list when it erases the entries with a property. -/
def eraseSkipping {α : Type} (p : α → Bool) : List α → List α
  | [] => []
  | x :: rest =>
    if p x then
      match rest with
      | [] => []
      | next :: rest => next :: eraseSkipping p rest
    else x :: eraseSkipping p rest

theorem eraseSkipping_cons_of_not {α : Type} {p : α → Bool} {x : α} {rest : List α} (hx : ¬ p x = true) :
    eraseSkipping p (x :: rest) = x :: eraseSkipping p rest := by
  rw [eraseSkipping.eq_def]
  exact if_neg hx

/-- The loop takes out all entries with the property exactly if no two of them are next to each other. -/
theorem eraseSkipping_eq_filter_iff {α : Type} (p : α → Bool) (l : List α) :
    eraseSkipping p l = l.filter (!p ·) ↔ l.IsChain fun x y => ¬ (p x = true ∧ p y = true) := by
  fun_induction eraseSkipping p l with
  | case1 => simp
  | case2 x hx => simp [hx]
  | case3 x hx next rest ih =>
      rw [List.isChain_cons_cons, List.filter_cons_of_neg (by simp [hx])]
      by_cases hnext : p next = true
      · have hmem : next ∉ (next :: rest).filter (!p ·) := by simp [hnext]
        constructor
        · intro h
          exact absurd (h ▸ List.mem_cons_self) hmem
        · intro h
          exact absurd ⟨hx, hnext⟩ h.1
      · rw [List.filter_cons_of_pos (by simp [hnext]), List.cons.injEq, List.isChain_cons, ih]
        simp [hnext]
  | case4 x rest hx ih =>
      rw [List.filter_cons_of_pos (by simp [hx]), List.cons.injEq, List.isChain_cons, ih]
      simp [hx]

/-- The loop over the environment, without the changes of directory. -/
theorem filterCwd_ok {pm : PathMapper} {envs envp : List CString} {chdirs : List Path}
    (h : filterCwd pm envs = .ok (envp, chdirs)) :
    envp = eraseSkipping (CString.startsWith · cwdKey) envs := by
  induction envs using eraseSkipping.induct (CString.startsWith · cwdKey) generalizing envp chdirs with
  | case1 =>
      cases h
      rfl
  | case2 x hx =>
      rw [filterCwd, if_pos hx, bind_eq_ok] at h
      obtain ⟨mapped, -, h⟩ := h
      cases h
      simp [eraseSkipping, hx]
  | case3 x hx next rest ih =>
      rw [filterCwd, if_pos hx, bind_eq_ok] at h
      obtain ⟨mapped, -, h⟩ := h
      obtain ⟨⟨envp', chdirs'⟩, hrest, h⟩ := bind_eq_ok.1 h
      cases h
      rw [eraseSkipping, if_pos hx, ih hrest]
  | case4 x rest hx ih =>
      rw [filterCwd, if_neg hx, bind_eq_ok] at h
      obtain ⟨⟨envp', chdirs'⟩, hrest, h⟩ := h
      cases h
      rw [eraseSkipping_cons_of_not (p := (CString.startsWith · cwdKey)) hx, ih hrest]

/-- A program of the host is started with what the loop leaves of the environment. -/
theorem execCommon_envp {pm : PathMapper} {access : Path → Bool} {selfCall : List CString}
    {fds : HostFds φ} {stdfds : Fin 10 → Byte} {args : ExecArgs} {done : Executed φ} {info : PathInfo}
    {pfx : Prefix} (hmapped : PathHandler.procExec.mapped pm (toPath args.path) = .ok info)
    (hpfx : info.pfx = some pfx) (hhost : pfx.exec = .host)
    (h : execCommon pm access selfCall fds stdfds args = .ok (some done)) :
    done.call.envp = eraseSkipping (CString.startsWith · cwdKey) args.envp := by
  unfold execCommon at h
  rw [bind_eq_ok] at h
  obtain ⟨info', hinfo, h⟩ := h
  cases hinfo.symm.trans hmapped
  split at h
  · cases h
  · rw [hpfx] at h
    simp only [hhost] at h
    obtain ⟨⟨envp, chdirs⟩, henvp, h⟩ := bind_eq_ok.1 h
    cases h
    exact filterCwd_ok henvp

/-- A program of the host gets the environment of the message without the entries of `__CWD` exactly if no
two of these stand next to each other. -/
theorem exec_envp_iff {p : Process} {m : Mem} {msg : Msg} {pm : PathMapper} {access : Path → Bool}
    {selfCall : List CString} {fds : HostFds φ} {args : ExecArgs} {done : Executed φ} {info : PathInfo}
    {pfx : Prefix} (hargs : msg.procExecCommon p m = .ok args)
    (hmapped : PathHandler.procExec.mapped pm (toPath args.path) = .ok info) (hpfx : info.pfx = some pfx)
    (hhost : pfx.exec = .host) (hexec : msg.exec p m pm access selfCall fds = .ok (some done)) :
    done.call.envp = args.envp.filter (fun e => ¬ cwdKey <+: e) ↔
      args.envp.IsChain fun e e' => ¬ (cwdKey <+: e ∧ cwdKey <+: e') := by
  unfold Msg.exec at hexec
  rw [bind_eq_ok] at hexec
  obtain ⟨args', hargs', hexec⟩ := hexec
  cases hargs'.symm.trans hargs
  obtain ⟨stdfds, -, hexec⟩ := bind_eq_ok.1 hexec
  have hfilter := eraseSkipping_eq_filter_iff (CString.startsWith · cwdKey) args.envp
  simp only [← CString.startsWith_iff]
  rw [execCommon_envp hmapped hpfx hhost hexec]
  simpa using hfilter

/-- An exec message for `/host/x` with this environment, in the page of `Process.onePage`. -/
def execMessage (envs : List CString) : Mem :=
  let bytes := leBytes 2 4 ++ List.replicate 8 0 ++ List.replicate 10 0xFF ++ leBytes 2 0 ++
    leBytes 2 envs.length ++ Terminated.pack 0 (ofString "/host/x" :: [] :: (envs ++ [[]]))
  let zeros : Mem := fun _ => 0
  (zeros.write 0x1200 bytes).write 0x1100
    (leBytes 4 0x200 ++ leBytes 2 7 ++ leBytes 2 0 ++ leBytes 4 bytes.length)

/-- Entries of `__CWD` that another one stands between are all taken out. -/
theorem exec_envp_iff_apart : ∃ done : Executed Unit,
    Msg.exec .onePage (execMessage [ofString "__CWD=/a", ofString "A=1", ofString "__CWD=/b"])
      ⟨0, .guest 0x1100, 1, .guest 0x1100⟩ PathMapper.hostMapped (fun _ => true) [] ⟨[]⟩ = .ok (some done) ∧
    done.call.envp = [ofString "A=1"] := by
  have hargs : Msg.procExecCommon .onePage
      (execMessage [ofString "__CWD=/a", ofString "A=1", ofString "__CWD=/b"]) ⟨0, .guest 0x1100, 1, .guest 0x1100⟩ =
      .ok ⟨ofString "/host/x", [], [ofString "__CWD=/a", ofString "A=1", ofString "__CWD=/b"]⟩ := by decide +kernel
  have hmapped : PathHandler.procExec.mapped PathMapper.hostMapped (toPath (ofString "/host/x")) =
      .ok ⟨true, "/h/x".toList, true, false, "/host/x".toList, some ⟨"/h".toList, "/host".toList, .host⟩⟩ := by
    decide +kernel
  have hexec : Msg.exec .onePage (execMessage [ofString "__CWD=/a", ofString "A=1", ofString "__CWD=/b"])
      ⟨0, .guest 0x1100, 1, .guest 0x1100⟩ PathMapper.hostMapped (fun _ => true) [] (⟨[]⟩ : HostFds Unit) =
      .ok (some ⟨["/a".toList, "/b".toList], ⟨[]⟩, ofString "/h/x", [], [ofString "A=1"]⟩) := by decide +kernel
  exact ⟨_, hexec, (exec_envp_iff hargs hmapped rfl rfl hexec).2 (by decide)⟩

/-- Of two entries that stand next to each other, the second one reaches the program. -/
theorem exec_envp_adjacent :
    Msg.procExecCommon .onePage (execMessage [ofString "__CWD=/a", ofString "__CWD=/b"])
      ⟨0, .guest 0x1100, 1, .guest 0x1100⟩ =
        .ok ⟨ofString "/host/x", [], [ofString "__CWD=/a", ofString "__CWD=/b"]⟩ ∧
    Msg.exec .onePage (execMessage [ofString "__CWD=/a", ofString "__CWD=/b"])
      ⟨0, .guest 0x1100, 1, .guest 0x1100⟩ PathMapper.hostMapped (fun _ => true) [] (⟨[]⟩ : HostFds Unit) =
        .ok (some ⟨["/a".toList], ⟨[]⟩, ofString "/h/x", [], [ofString "__CWD=/b"]⟩) ∧
    [ofString "__CWD=/b"] ≠
      [ofString "__CWD=/a", ofString "__CWD=/b"].filter fun e => ¬ cwdKey <+: e := by
  refine ⟨?_, ?_, ?_⟩
  · decide +kernel
  · decide +kernel
  · decide +kernel

end Qine

import Qine.Exec
import Qine.Main
import Qine.Path.AddMap

/-!
# The emulator started again

A QNX program that runs another one makes the emulator start itself: `proc_exec_common` puts the words that
were options on its own command line in front of `--exec`, the mapped path and the arguments of the guest, and
`main` of the new process reads them again.

`generations_keep_options` says what comes of it, over any number of programs started from one another: the
options mean what they meant to the first process, the program is the one the last exec named, and its
arguments are the ones of the last exec. The command line grows with every generation, for `--exec` and its path
are kept as well.
-/

namespace Qine

variable {φ : Type}

open CString (ofString toPath ofPath)

/-! ## What the options do -/

/-- The options attach a terminal filter. -/
def attaches (items : List (Getopt.Item Byte MainOption)) : Bool :=
  items.any fun item =>
    match item with
    | .option .termEmu _ => true
    | _ => false

/-- The environment behind the options. -/
def termEnviron (attached : Bool) (environ : List CString) : List CString :=
  if attached then setenv termKey (ofString "xterm-qine1") environ else environ

theorem startsWith_append (key value : CString) : CString.startsWith (key ++ value) key = true :=
  CString.startsWith_iff.2 (List.prefix_append _ _)

theorem find_setenv (key value : CString) (environ : List CString) :
    (setenv key value environ).find? (CString.startsWith · key) = some (key ++ value) := by
  induction environ with
  | nil => simp [setenv, startsWith_append]
  | cons e environ ih =>
      by_cases h : CString.startsWith e key = true
      · simp [setenv, h, startsWith_append]
      · simp [setenv, h, ih]

/-- An entry that is there already is set to itself. -/
theorem setenv_of_find {environ : List CString} {key value : CString}
    (h : environ.find? (CString.startsWith · key) = some (key ++ value)) :
    setenv key value environ = environ := by
  induction environ with
  | nil => cases h
  | cons e environ ih =>
      by_cases he : CString.startsWith e key = true
      · simp only [List.find?_cons, he, Option.some.injEq] at h
        rw [setenv, if_pos he, h]
      · simp only [List.find?_cons, he] at h
        rw [setenv, if_neg he, ih h]

theorem setenv_setenv (key value : CString) (environ : List CString) :
    setenv key value (setenv key value environ) = setenv key value environ :=
  setenv_of_find (find_setenv key value environ)

theorem termEnviron_termEnviron (a b : Bool) (environ : List CString) :
    termEnviron b (termEnviron a environ) = termEnviron (a || b) environ := by
  cases a with
  | false => rfl
  | true =>
      cases b with
      | false => rfl
      | true => exact setenv_setenv _ _ _

theorem attachTermEmu_eq (host : MainHost) (c : MainConfig) :
    (attachTermEmu host c).settings = c.settings ∧
      (attachTermEmu host c).environ = termEnviron host.tty c.environ := by
  unfold attachTermEmu termEnviron
  split
  · exact ⟨rfl, rfl⟩
  · exact ⟨rfl, rfl⟩

/-- An option does the same to the settings wherever it is handled, and to the environment what the terminal
filter does. -/
theorem handleOption_ok {host : MainHost} {c d : MainConfig} {item : Getopt.Item Byte MainOption}
    (h : handleOption host c item = .ok d) :
    d.environ = termEnviron (host.tty && attaches [item]) c.environ ∧
      ∀ host' c', c'.settings = c.settings →
        ∃ d', handleOption host' c' item = .ok d' ∧ d'.settings = d.settings := by
  cases item with
  | bad => cases h
  | unmatched name => cases h
  | option key arg =>
      cases key with
      | help => cases h
      | unknown => cases h
      | termEmu =>
          cases h
          obtain ⟨hsettings, henviron⟩ := attachTermEmu_eq host c
          refine ⟨by rw [henviron, attaches, List.any_cons, Bool.true_or, Bool.and_true], ?_⟩
          intro host' c' hsame
          exact ⟨_, rfl, (attachTermEmu_eq host' c').1.trans (hsame.trans hsettings.symm)⟩
      | noSlib =>
          cases h
          refine ⟨by simp [attaches, termEnviron], ?_⟩
          intro host' c' hsame
          exact ⟨_, rfl, by rw [hsame]⟩
      | lib =>
          cases arg with
          | none => cases h
          | some arg =>
              cases h
              refine ⟨by simp [attaches, termEnviron], ?_⟩
              intro host' c' hsame
              exact ⟨_, rfl, by rw [hsame]⟩
      | exec =>
          cases arg with
          | none => cases h
          | some arg =>
              cases h
              refine ⟨by simp [attaches, termEnviron], ?_⟩
              intro host' c' hsame
              exact ⟨_, rfl, by rw [hsame]⟩
      | map =>
          cases arg with
          | none => cases h
          | some arg =>
              simp only [handleOption] at h ⊢
              cases hadd : c.settings.pathMapper.addMap (toPath arg) with
              | error e =>
                  rw [hadd] at h
                  cases h
              | ok pm =>
                  rw [hadd] at h
                  cases h
                  refine ⟨by simp [attaches, termEnviron], ?_⟩
                  intro host' c' hsame
                  rw [hsame, hadd]
                  exact ⟨_, rfl, rfl⟩
      | debug =>
          cases arg with
          | none => cases h
          | some arg =>
              simp only [handleOption, bind_eq_ok] at h ⊢
              obtain ⟨logged, hlogged, h⟩ := h
              cases h
              refine ⟨by simp [attaches, termEnviron], ?_⟩
              intro host' c' hsame
              rw [hsame]
              exact ⟨_, ⟨logged, hlogged, rfl⟩, rfl⟩

/-- The same for all options of a command line. -/
theorem foldlM_handleOption_ok {host : MainHost} {c d : MainConfig} {items : List (Getopt.Item Byte MainOption)}
    (h : items.foldlM (handleOption host) c = .ok d) :
    d.environ = termEnviron (host.tty && attaches items) c.environ ∧
      ∀ host' c', c'.settings = c.settings →
        ∃ d', items.foldlM (handleOption host') c' = .ok d' ∧ d'.settings = d.settings := by
  induction items generalizing c with
  | nil =>
      cases h
      exact ⟨by simp [attaches, termEnviron], fun _ c' hsame => ⟨c', rfl, hsame⟩⟩
  | cons item items ih =>
      rw [List.foldlM_cons, bind_eq_ok] at h
      obtain ⟨e, he, h⟩ := h
      obtain ⟨henviron, hitem⟩ := handleOption_ok he
      obtain ⟨henviron', hitems⟩ := ih h
      constructor
      · have hcons : attaches (item :: items) = (attaches [item] || attaches items) := by simp [attaches]
        rw [henviron', henviron, termEnviron_termEnviron, hcons, Bool.and_or_distrib_left]
      · intro host' c' hsame
        obtain ⟨e', he', hsame'⟩ := hitem host' c' hsame
        obtain ⟨d', hd', hd⟩ := hitems host' e' hsame'
        refine ⟨d', ?_, hd⟩
        rw [List.foldlM_cons, he']
        exact hd'

/-- Nothing `getopt_long` complains about is let through. -/
theorem bad_notMem_of_foldlM {host : MainHost} {c d : MainConfig} {items : List (Getopt.Item Byte MainOption)}
    (h : items.foldlM (handleOption host) c = .ok d) : Getopt.Item.bad ∉ items := by
  induction items generalizing c with
  | nil => exact List.not_mem_nil
  | cons item items ih =>
      rw [List.foldlM_cons, bind_eq_ok] at h
      obtain ⟨e, he, h⟩ := h
      intro hmem
      rcases List.mem_cons.1 hmem with rfl | hmem
      · cases he
      · exact ih h hmem

/-! ## What `main` does -/

/-- What `main` has done when it loads a program. -/
theorem main_ok {host : MainHost} {argv0 : CString} {args environ : List CString} {st : Started}
    (h : main host (argv0 :: args) environ = .ok st) :
    (cmdOptions.scan (permutes environ) args).items.foldlM (handleOption host) (.init environ) =
        .ok st.config ∧
      ∃ a rest, keptArgs [argv0] (cmdOptions.scan (permutes environ) args) = a :: rest ∧
        st.selfCall = host.exe :: rest := by
  unfold main at h
  rw [bind_eq_ok] at h
  obtain ⟨config, hconfig, h⟩ := h
  split at h
  · cases h
  · next a rest hkept =>
      split at h
      · cases h
      · split at h
        · cases h
        · next path hpath =>
            cases h
            exact ⟨hconfig, a, rest, hkept, rfl⟩

/-- The words of `m_self_call` behind the first one are options, these ones, on any command line. -/
structure Started.Replays (st : Started) (items : List (Getopt.Item Byte MainOption)) : Prop where
  exe : ∃ exe : CString, exe.head? = some 0x2F ∧ st.selfCall = exe :: st.selfCall.tail
  read : ∀ permute rest, cmdOptions.scan permute (st.selfCall.tail ++ rest) =
    (cmdOptions.scan permute rest).push items st.selfCall.tail
  plain : cmdOptions.dashes ∉ st.selfCall.tail
  settings : ∀ host environ, ∃ c, items.foldlM (handleOption host) (.init environ) = .ok c ∧
    c.settings = st.config.settings

theorem ne_dashes_of_absolute {str : CString} (h : str.head? = some 0x2F) : str ≠ cmdOptions.dashes := by
  rintro rfl
  revert h
  decide

theorem keptArgs_eq {argv0 : CString} {scan : Getopt.Scan Byte MainOption} (hargv0 : argv0 ≠ cmdOptions.dashes)
    (hplain : cmdOptions.dashes ∉ scan.consumed) : keptArgs [argv0] scan = argv0 :: scan.consumed := by
  have hconsumed : scan.consumed.filter (· ≠ cmdOptions.dashes) = scan.consumed := by
    rw [List.filter_eq_self]
    intro word hword
    exact decide_eq_true fun heq => hplain (heq ▸ hword)
  unfold keptArgs Getopt.Options.front
  rw [List.singleton_append, List.filter_cons_of_pos (by simpa using hargv0), List.filter_append, hconsumed]
  split
  · simp
  · simp

/-- The options of a command line are read again from `m_self_call`, if none of them has a pair of dashes as its
argument. -/
theorem main_replays {host : MainHost} {argv0 : CString} {args environ : List CString} {st : Started}
    (h : main host (argv0 :: args) environ = .ok st) (hargv0 : argv0 ≠ cmdOptions.dashes)
    (hargs : ∀ key, .option key (some cmdOptions.dashes) ∉ (cmdOptions.scan (permutes environ) args).items) :
    st.Replays (cmdOptions.scan (permutes environ) args).items := by
  obtain ⟨hconfig, a, rest, hkept, hself⟩ := main_ok h
  have hgood := bad_notMem_of_foldlM hconfig
  have hplain : cmdOptions.dashes ∉ (cmdOptions.scan (permutes environ) args).consumed := by
    intro hmem
    rcases Getopt.Options.dashes_mem_consumed hmem with hbad | ⟨key, hkey⟩
    · exact hgood hbad
    · exact hargs key hkey
  rw [keptArgs_eq hargv0 hplain] at hkept
  cases hkept
  refine ⟨⟨host.exe, host.exe_absolute, by rw [hself, List.tail_cons]⟩, ?_, ?_, ?_⟩
  · intro permute rest
    rw [hself]
    exact Getopt.Options.scan_consumed_append permute args rest hgood
  · rw [hself]
    exact hplain
  · intro host' environ'
    exact (foldlM_handleOption_ok hconfig).2 host' (.init environ') rfl

/-- The option for the program. -/
abbrev execItem (file : CString) : Getopt.Item Byte MainOption := .option .exec (some file)

/-- The words `proc_exec_common` puts behind `m_self_call`. -/
def execWords (file : CString) (args : List CString) : List CString :=
  ofString "--exec" :: file :: ofString "--" :: args

theorem scan_execWords (permute : Bool) (file : CString) (args : List CString) :
    cmdOptions.scan permute (execWords file args) =
      ⟨[execItem file], [ofString "--exec", file], true, args⟩ := by
  have hexec : cmdOptions.element (ofString "--exec") = .options [] (some .exec) := by decide
  have hdashes : ofString "--" = cmdOptions.dashes := by decide
  rw [execWords, Getopt.Options.scan_of_wants hexec, hdashes, Getopt.Options.scan_dashes]
  rfl

theorem PathMapper.mapPathToQnx_hostPath {pm : PathMapper} {path : Path} {info : PathInfo}
    (h : pm.mapPathToQnx path false = .ok info) : info.hostPath = normalizePath path := by
  unfold mapPathToQnx mapInfoToQnx at h
  simp only [PathInfo.mkHostPath, PathInfo.empty, Bool.not_true, Bool.false_eq_true, if_false] at h
  split at h
  · cases h
    rfl
  · rw [bind_eq_ok] at h
    obtain ⟨qnxPath, -, h⟩ := h
    cases h
    rfl

namespace Started

/-- The command line of an exec is read as it is meant: the settings are as they were but for the program, and
the words behind the dashes are its arguments. -/
theorem Replays.main_exec {st : Started} {items : List (Getopt.Item Byte MainOption)} (h : st.Replays items)
    {file : CString} (hfile : file.head? = some 0x2F) (args environ : List CString) (host : MainHost) :
    ∃ c : MainConfig, c.settings = { st.config.settings with optExec := file } ∧
      (items ++ [execItem file]).foldlM (handleOption host) (.init environ) = .ok c ∧
      main host (st.selfCall ++ execWords file args) environ =
        match st.config.settings.pathMapper.mapPathToQnx (toPath file) false with
        | .error f => .error (.fault f)
        | .ok path => .ok ⟨c, host.exe :: (st.selfCall.tail ++ [ofString "--exec", file]), args, path⟩ := by
  obtain ⟨exe, hexe, hself⟩ := h.exe
  obtain ⟨c, hfold, hsettings⟩ := h.settings host environ
  have hfile' : file ≠ [] := by
    rintro rfl
    cases hfile
  have hscan : cmdOptions.scan (permutes environ) (st.selfCall.tail ++ execWords file args) =
      ⟨items ++ [execItem file], st.selfCall.tail ++ [ofString "--exec", file], true, args⟩ := by
    rw [h.read, scan_execWords]
    rfl
  have hplain : cmdOptions.dashes ∉ st.selfCall.tail ++ [ofString "--exec", file] := by
    intro hmem
    rcases List.mem_append.1 hmem with hmem | hmem
    · exact h.plain hmem
    · rcases List.mem_cons.1 hmem with heq | hmem
      · revert heq
        decide
      · exact ne_dashes_of_absolute hfile (List.mem_singleton.1 hmem).symm
  have hconfig : (items ++ [execItem file]).foldlM (handleOption host) (.init environ) =
      .ok { c with settings.optExec := file } := by
    rw [List.foldlM_append, hfold]
    rfl
  refine ⟨{ c with settings.optExec := file }, by rw [hsettings], hconfig, ?_⟩
  have hpath : Qine.execPath host { c with settings.optExec := file } args =
      st.config.settings.pathMapper.mapPathToQnx (toPath file) false := by
    rw [Qine.execPath.eq_def]
    simp only [hsettings]
    exact if_pos hfile'
  have hkept :
      keptArgs [exe] ⟨items ++ [execItem file], st.selfCall.tail ++ [ofString "--exec", file], true, args⟩ =
        exe :: (st.selfCall.tail ++ [ofString "--exec", file]) :=
    keptArgs_eq (ne_dashes_of_absolute hexe) hplain
  rw [hself, List.cons_append, main]
  simp only [List.drop_succ_cons, List.drop_zero, List.take_succ_cons, List.take_zero, hscan, hkept, hconfig,
    hpath, bind, Except.bind, hfile', and_false, if_false]
  cases st.config.settings.pathMapper.mapPathToQnx (toPath file) false with
  | error f => rfl
  | ok path => rfl

/-- What one process is to the next, it is itself to the one after that. -/
theorem Replays.main_replays {st st' : Started} {items : List (Getopt.Item Byte MainOption)}
    (h : st.Replays items) {file : CString} (hfile : file.head? = some 0x2F) {args environ : List CString}
    {host : MainHost} (hmain : main host (st.selfCall ++ execWords file args) environ = .ok st') :
    st'.Replays (items ++ [execItem file]) ∧
      (items ++ [execItem file]).foldlM (handleOption host) (.init environ) = .ok st'.config ∧
      st'.config.settings = { st.config.settings with optExec := file } ∧
      st'.selfCall.tail = st.selfCall.tail ++ [ofString "--exec", file] ∧ st'.argv = args ∧
      st'.execPath.hostPath = normalizePath (toPath file) := by
  obtain ⟨c, hc, hconfig, heq⟩ := h.main_exec hfile args environ host
  rw [hmain] at heq
  cases hpath : st.config.settings.pathMapper.mapPathToQnx (toPath file) false with
  | error f =>
      rw [hpath] at heq
      cases heq
  | ok path =>
      rw [hpath] at heq
      cases heq
      refine ⟨⟨⟨host.exe, host.exe_absolute, rfl⟩, ?_, ?_, ?_⟩, hconfig, hc, rfl, rfl,
        PathMapper.mapPathToQnx_hostPath hpath⟩
      · intro permute rest
        have hexec : cmdOptions.element (ofString "--exec") = .options [] (some .exec) := by decide
        show cmdOptions.scan permute (st.selfCall.tail ++ [ofString "--exec", file] ++ rest) = _
        rw [List.append_assoc, List.cons_append, List.singleton_append, h.read,
          Getopt.Options.scan_of_wants hexec, Getopt.Scan.push_push]
        rfl
      · intro hmem
        rcases List.mem_append.1 hmem with hmem | hmem
        · exact h.plain hmem
        · rcases List.mem_cons.1 hmem with heq | hmem
          · revert heq
            decide
          · exact ne_dashes_of_absolute hfile (List.mem_singleton.1 hmem).symm
      · intro host' environ'
        obtain ⟨c', hfold, hsettings⟩ := h.settings host' environ'
        refine ⟨{ c' with settings.optExec := file }, ?_, ?_⟩
        · rw [List.foldlM_append, hfold]
          rfl
        · simp only [hc, hsettings]

end Started

/-! ## Generations -/

/-- A changed prefix is the new one with something behind it. -/
theorem changePrefix_extends {pre newPrefix path result : Path}
    (h : changePrefix pre newPrefix path = .ok result) : newPrefix <+: result := by
  unfold changePrefix at h
  split_ifs at h
  · cases h
    exact List.prefix_rfl
  · cases h
    exact List.prefix_append _ _
  · cases h
    exact List.prefix_append _ _

theorem head_changePrefix {pre newPrefix path result : Path} (h : changePrefix pre newPrefix path = .ok result) :
    result.head? = some '/' := by
  have hnew : newPrefix.head? = some '/' := of_decide_eq_true (changePrefix_ok_iff.1 ⟨result, h⟩).2.1
  obtain ⟨rest, rfl⟩ := changePrefix_extends h
  rw [List.head?_append, hnew]
  rfl

/-- The mapped path begins with a slash. -/
theorem PathHandler.head_mapped {handler : PathHandler} {pm : PathMapper} {path : Path} {info : PathInfo}
    (h : handler.mapped pm path = .ok info) : (ofPath info.hostPath).head? = some 0x2F := by
  obtain ⟨hqnx, hhost⟩ := handler.info_valid path
  rw [mapped, pm.mapInfoToHost_eq hqnx hhost] at h
  cases hchange : changePrefix (pm.select (handler.info path).qnxPath).qnxPath
      (pm.select (handler.info path).qnxPath).hostPath (handler.info path).qnxPath with
  | error f =>
      rw [hchange] at h
      cases h
  | ok hostPath =>
      rw [hchange] at h
      cases h
      rw [ofPath, List.head?_map, head_changePrefix hchange]
      rfl

/-- A program of `st` runs a QNX program that is mapped to `file`, with what `execve` is called with. -/
def Started.Launches (φ : Type) (st : Started) (args : ExecArgs) (file : CString) (call : ExecCall) : Prop :=
  ∃ (access : Path → Bool) (fds : HostFds φ) (stdfds : Fin 10 → Byte) (done : Executed φ) (info : PathInfo)
    (pfx : Prefix),
    PathHandler.procExec.mapped st.config.settings.pathMapper (toPath args.path) = .ok info ∧
      info.pfx = some pfx ∧ pfx.exec = .qnx ∧
      execCommon st.config.settings.pathMapper access st.selfCall fds stdfds args = .ok (some done) ∧
      file = ofPath info.hostPath ∧ call = done.call

/-- A process and one that was started from it, by programs that run one another; the mapped paths and the
arguments, in order. -/
inductive Generations (φ : Type) (st : Started) : List (CString × ExecArgs) → Started → Prop
  | start : Generations φ st [] st
  | exec {execs : List (CString × ExecArgs)} {st' st'' : Started} {args : ExecArgs} {file : CString}
      {call : ExecCall} {host : MainHost} (h : Generations φ st execs st')
      (hlaunch : st'.Launches φ args file call) (hmain : main host call.argv call.envp = .ok st'') :
      Generations φ st (execs ++ [(file, args)]) st''

theorem Started.Launches.call_eq {st : Started} {args : ExecArgs} {file : CString} {call : ExecCall}
    (h : st.Launches φ args file call) :
    call.argv = st.selfCall ++ execWords file args.argv ∧ call.envp = args.envp ∧ file.head? = some 0x2F := by
  obtain ⟨access, fds, stdfds, done, info, pfx, hmapped, hpfx, hqnx, hexec, rfl, rfl⟩ := h
  have hhead := PathHandler.head_mapped hmapped
  unfold execCommon at hexec
  rw [bind_eq_ok] at hexec
  obtain ⟨info', hinfo, hexec⟩ := hexec
  cases hinfo.symm.trans hmapped
  split at hexec
  · cases hexec
  · rw [hpfx] at hexec
    simp only [hqnx] at hexec
    cases hexec
    exact ⟨by simp [execWords], rfl, hhead⟩

/-- What is kept from one process to the ones that were started from it. -/
theorem Generations.keeps {st st' : Started} {items : List (Getopt.Item Byte MainOption)}
    {execs : List (CString × ExecArgs)} (hgen : Generations φ st execs st') (hreplays : st.Replays items) :
    st'.Replays (items ++ execs.map fun e => execItem e.1) ∧
      st'.config.settings =
        { st.config.settings with optExec := (execs.getLast?.map (·.1)).getD st.config.settings.optExec } ∧
      st'.selfCall.tail = st.selfCall.tail ++ execs.flatMap (fun e => [ofString "--exec", e.1]) ∧
      ∀ last ∈ execs.getLast?, st'.argv = last.2.argv ∧ st'.execPath.hostPath = normalizePath (toPath last.1) := by
  induction hgen with
  | start => exact ⟨by simpa using hreplays, rfl, by simp, by simp⟩
  | exec _ hlaunch hmain ih =>
      obtain ⟨hreplays, hsettings, hself, -⟩ := ih
      obtain ⟨hcall, -, hfile⟩ := hlaunch.call_eq
      rw [hcall] at hmain
      obtain ⟨hreplays', -, hsettings', hself', hargv, hpath⟩ := hreplays.main_replays hfile hmain
      refine ⟨?_, ?_, ?_, ?_⟩
      · rw [List.map_append, ← List.append_assoc]
        exact hreplays'
      · rw [hsettings', hsettings, List.getLast?_concat]
        rfl
      · rw [hself', hself, List.flatMap_append, List.append_assoc]
        simp
      · simp [hargv, hpath]

/-- A host with a terminal. -/
def MainHost.terminal : MainHost := ⟨ofString "/usr/bin/qine", by decide, true, id⟩

end Qine

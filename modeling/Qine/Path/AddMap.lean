import Qine.Lib.StateExcept
import Qine.Path.Identity

/-!
# What `add_map` lets in

Every mapping of the path mapper is option text from the command line. `add_map` splits it, normalises
both prefixes, chooses a default for how executables are run, and refuses a QNX prefix that is mapped
already. It does not ask whether the prefixes are absolute, and `change_prefix` asserts later that they
are.

`addMapM` is `add_map` with what it leaves behind when it throws. `addMaps_sound_iff` says of a list of
`add_map` calls that every one of them throws and leaves the mapper as it was, or leaves a sound mapper,
exactly if those whose argument is taken have two absolute prefixes in it.
-/

namespace Qine
namespace PathMapper

/-- A routine that changes the mapper. -/
abbrev MapperM := EStateM ConfigurationError PathMapper

/-- `PathMapper::add_map`. -/
def addMapM (mapCmdArg : Path) : MapperM Unit := do
  let args ← EStateM.ofExcept (parseMap mapCmdArg)
  let qnxPath := normalizePath args.qnxPath
  let hostPath := normalizePath args.hostPath
  let exec ← EStateM.ofExcept (execOf args.execArg qnxPath)
  if qnxPath = ['/'] then modify fun pm : PathMapper => { pm with root := ⟨hostPath, qnxPath, exec⟩ }
  else do
    let pm ← get
    if pm.hasQnxPrefix qnxPath then throw ⟨"duplicate QNX prefix mapping"⟩
    else modify fun pm : PathMapper =>
      { pm with prefixes := pm.prefixes ++ [⟨hostPath, qnxPath, exec⟩] }

/-- The mapper after `add_map` calls, some of which may have thrown. -/
def addMaps (args : List Path) : PathMapper :=
  args.foldl (fun pm arg => (addMapM arg).after pm) PathMapper.init

/-- The argument can be parsed, names a kind of executable there is or none, and has a QNX prefix that is
the root or new. -/
def Takes (pm : PathMapper) (mapCmdArg : Path) : Prop :=
  ∃ args exec, parseMap mapCmdArg = .ok args ∧
    execOf args.execArg (normalizePath args.qnxPath) = .ok exec ∧
    (normalizePath args.qnxPath = ['/'] ∨ pm.hasQnxPrefix (normalizePath args.qnxPath) = false)

/-- The QNX prefixes differ, and all prefixes are absolute and canonical. -/
structure Sound (pm : PathMapper) : Prop where
  distinct : (pm.root :: pm.prefixes).Pairwise (·.qnxPath ≠ ·.qnxPath)
  qnx : ∀ c ∈ pm.root :: pm.prefixes, Canonical c.qnxPath
  host : ∀ c ∈ pm.root :: pm.prefixes, Canonical c.hostPath

/-- One of the assertions `change_prefix` makes about its prefixes failed. -/
def FailsAbs (r : Except Fault PathInfo) : Prop :=
  r = .error (.assertion "is_abs(prefix)") ∨ r = .error (.assertion "is_abs(new_prefix)")

/-- `add_map` throws and changes nothing, or leaves a sound mapper, with which no path fails the
assertions of `change_prefix`. -/
def AddsSoundly (pm : PathMapper) (mapCmdArg : Path) : Prop :=
  (∃ e, (addMapM mapCmdArg).run pm = .error e pm) ∨
    ∃ pm', (addMapM mapCmdArg).run pm = .ok ⟨⟩ pm' ∧ pm'.Sound ∧
      ∀ map, ¬ FailsAbs (pm'.mapInfoToHost map) ∧ ¬ FailsAbs (pm'.mapInfoToQnx map)

variable {pm pm' : PathMapper} {arg : Path}

/-! ## One call -/

theorem addMapM_run (pm : PathMapper) (arg : Path) :
    (addMapM arg).run pm =
      match pm.addMap arg with
      | .ok pm' => .ok ⟨⟩ pm'
      | .error e => .error e pm := by
  unfold addMapM addMap
  cases parseMap arg with
  | error e => rfl
  | ok args =>
      rw [EStateM.run_ofExcept_bind rfl]
      dsimp only
      show _ = match execOf args.execArg (normalizePath args.qnxPath) >>= _ with
        | .ok pm' => EStateM.Result.ok PUnit.unit pm'
        | .error e => .error e pm
      cases execOf args.execArg (normalizePath args.qnxPath) with
      | error e => rfl
      | ok exec =>
          rw [EStateM.run_ofExcept_bind rfl]
          by_cases hroot : normalizePath args.qnxPath = ['/']
          · simp only [if_pos hroot]
            rfl
          · simp only [if_neg hroot]
            rw [EStateM.run_get_bind]
            cases pm.hasQnxPrefix (normalizePath args.qnxPath) with
            | true => rfl
            | false => rfl

theorem addMap_takes (h : pm.addMap arg = .ok pm') : pm.Takes arg := by
  obtain ⟨args, exec, hargs, hexec, ⟨hroot, -⟩ | ⟨-, hdup, -⟩⟩ := addMap_ok_iff.1 h
  · exact ⟨args, exec, hargs, hexec, .inl hroot⟩
  · exact ⟨args, exec, hargs, hexec, .inr hdup⟩

/-- A mapping that is taken is there afterwards, normalised. -/
theorem Takes.addMap (h : pm.Takes arg) : ∃ pm' args, pm.addMap arg = .ok pm' ∧
    parseMap arg = .ok args ∧ ∃ c ∈ pm'.root :: pm'.prefixes,
      c.qnxPath = normalizePath args.qnxPath ∧ c.hostPath = normalizePath args.hostPath := by
  obtain ⟨args, exec, hargs, hexec, hnew⟩ := h
  by_cases hroot : normalizePath args.qnxPath = ['/']
  · exact ⟨_, args, addMap_ok_iff.2 ⟨args, exec, hargs, hexec, .inl ⟨hroot, rfl⟩⟩, hargs, _,
      List.mem_cons_self, rfl, rfl⟩
  · have hdup := hnew.resolve_left hroot
    refine ⟨_, args, addMap_ok_iff.2 ⟨args, exec, hargs, hexec, .inr ⟨hroot, hdup, rfl⟩⟩, hargs,
      ⟨normalizePath args.hostPath, normalizePath args.qnxPath, exec⟩, ?_, rfl, rfl⟩
    exact List.mem_cons_of_mem _ (List.mem_append_right _ (List.mem_singleton_self _))

/-! ## Sound mappers -/

theorem Wf.sound (h : pm.Wf) : pm.Sound where
  distinct := by
    refine List.pairwise_cons.2 ⟨fun c hc => ?_, h.distinct⟩
    rw [h.root_qnx]
    exact (h.qnx c hc).2.symm
  qnx _ hc := h.canonical_qnx hc
  host _ hc := h.canonical_host hc

theorem changePrefix_not_assertion {pre newPrefix path : Path} (hpre : isAbs pre = true)
    (hnew : isAbs newPrefix = true) (what : String) :
    changePrefix pre newPrefix path ≠ .error (.assertion what) := by
  unfold changePrefix
  rw [hpre, hnew]
  split_ifs <;> simp_all

/-- Only `change_prefix` itself can fail its assertions. -/
theorem not_failsAbs_bind {r : Except Fault Path} {info : Path → PathInfo}
    (h : ∀ what, r ≠ .error (.assertion what)) :
    ¬ FailsAbs (do let path ← r; return info path) := by
  cases r with
  | error e =>
      rintro (habs | habs)
      · exact h _ (congrArg Except.error (Except.error.inj habs))
      · exact h _ (congrArg Except.error (Except.error.inj habs))
  | ok path =>
      rintro (habs | habs)
      · cases habs
      · cases habs

theorem Sound.mapInfoToHost (h : pm.Sound) (map : PathInfo) : ¬ FailsAbs (pm.mapInfoToHost map) := by
  have hmem := (pm.selects_select map.qnxPath).mem
  unfold PathMapper.mapInfoToHost
  split
  · simp [FailsAbs]
  · split
    · simp [FailsAbs]
    · exact not_failsAbs_bind (changePrefix_not_assertion (h.qnx _ hmem).isAbs (h.host _ hmem).isAbs)

theorem Sound.mapInfoToQnx (h : pm.Sound) (map : PathInfo) : ¬ FailsAbs (pm.mapInfoToQnx map) := by
  unfold PathMapper.mapInfoToQnx
  split
  · simp [FailsAbs]
  · split
    · simp [FailsAbs]
    · cases hpfx : pm.selectHost map.hostPath with
      | none => simp [FailsAbs]
      | some pfx =>
          have hmem := (selectHost_mem hpfx).1
          exact not_failsAbs_bind
            (changePrefix_not_assertion (h.host _ hmem).isAbs (h.qnx _ hmem).isAbs)

/-- A mapping that is taken into a sound mapper was absolute. -/
theorem absoluteArg_of_addsSoundly (h : pm.AddsSoundly arg) (htakes : pm.Takes arg) :
    AbsoluteArg arg := by
  obtain ⟨pm', args, hadd, hargs, c, hc, hqnx, hhost⟩ := htakes.addMap
  have hrun := addMapM_run pm arg
  rw [hadd] at hrun
  rcases h with ⟨e, herror⟩ | ⟨pm'', hok, hsound, -⟩
  · rw [hrun] at herror
    cases herror
  · rw [hrun] at hok
    cases hok
    refine ⟨args, hargs, ?_, ?_⟩
    · rw [← isAbs_normalizePath, ← hqnx]
      exact (hsound.qnx c hc).isAbs
    · rw [← isAbs_normalizePath, ← hhost]
      exact (hsound.host c hc).isAbs

theorem addsSoundly_of_reachable (h : Reachable pm) (habs : pm.Takes arg → AbsoluteArg arg) :
    pm.AddsSoundly arg := by
  have hrun := addMapM_run pm arg
  cases hadd : pm.addMap arg with
  | error e =>
      rw [hadd] at hrun
      exact .inl ⟨e, hrun⟩
  | ok pm' =>
      rw [hadd] at hrun
      have hsound := (Reachable.addMap h (habs (addMap_takes hadd)) hadd).wf.sound
      exact .inr ⟨pm', hrun, hsound, fun map => ⟨hsound.mapInfoToHost map, hsound.mapInfoToQnx map⟩⟩

/-! ## Runs of calls -/

theorem addMaps_concat (args : List Path) (arg : Path) :
    addMaps (args ++ [arg]) = (addMapM arg).after (addMaps args) := List.foldl_concat ..

/-- As long as what is taken is absolute, the mapper is reached by calls with absolute prefixes. -/
theorem reachable_addMaps {args : List Path}
    (h : ∀ before arg, before ++ [arg] <+: args → (addMaps before).Takes arg → AbsoluteArg arg) :
    Reachable (addMaps args) := by
  induction args using List.reverseRecOn with
  | nil => exact .init
  | append_singleton args arg ih =>
      have hbefore := ih fun before a hpre => h before a (hpre.trans (List.prefix_append _ _))
      have hrun := addMapM_run (addMaps args) arg
      rw [addMaps_concat, EStateM.after]
      cases hadd : (addMaps args).addMap arg with
      | error e =>
          rw [hadd] at hrun
          rw [hrun]
          exact hbefore
      | ok pm' =>
          rw [hadd] at hrun
          rw [hrun]
          exact .addMap hbefore (h args arg List.prefix_rfl (addMap_takes hadd)) hadd

/-- In a run of `add_map` calls every call throws and changes nothing or leaves a sound mapper exactly if
every argument that is taken has two absolute prefixes. -/
theorem addMaps_sound_iff (args : List Path) :
    (∀ before arg, before ++ [arg] <+: args → (addMaps before).AddsSoundly arg) ↔
      ∀ before arg, before ++ [arg] <+: args → (addMaps before).Takes arg → AbsoluteArg arg := by
  constructor
  · intro h before arg hpre htakes
    exact absoluteArg_of_addsSoundly (h before arg hpre) htakes
  · intro h before arg hpre
    refine addsSoundly_of_reachable (reachable_addMaps fun earlier a hearlier => ?_) (h before arg hpre)
    exact h earlier a (hearlier.trans ((List.prefix_append _ _).trans hpre))

/-- The mapping `-m /a,b` is taken, and the first path below `/a` fails an assertion. -/
theorem relative_mapping_taken : ∃ pm', (addMapM "/a,b".toList).run PathMapper.init = .ok ⟨⟩ pm' ∧
    ¬ pm'.Sound ∧ FailsAbs (pm'.mapPathToHost "/a/x".toList false) := by
  refine ⟨(addMapM "/a,b".toList).after PathMapper.init, EStateM.run_after (by decide), ?_,
    .inr (by decide)⟩
  intro hsound
  have habs := (hsound.host ⟨"b".toList, "/a".toList, .host⟩ (by decide)).isAbs
  revert habs
  decide

end PathMapper
end Qine

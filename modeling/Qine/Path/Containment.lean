import Qine.Path.Mapper

/-!
# The soft chroot

The message handlers translate the paths of the guest through the mapper before they hand them to a
host call. Evaluated lexically, the host path should stay at or below the host prefix of the mapping
that was selected.

Two things get in the way. Some handlers pass the guest's string as already normalised, so its `..`
components reach the host. And the mapper cuts the prefix off by characters, so that what is left of
a component may turn into `..`; `proc_exec` cuts once more, at the node prefix. `contained_iff` says
exactly which strings stay inside: those whose rest behind the selected prefix does not climb, or
comes back down through every level of the host prefix it climbed above.
-/

namespace Qine

open Walk

/-- The path fields of the messages that are handed to a host call. -/
inductive PathHandler where
  | ioOpen
  | ioChdir
  | ioStat
  | fsysUnlink
  | fsysMkspecial
  | fsysReadlink
  | ioRename
  | fsysLink
  | fsysMkspecialTarget
  | procExec
  | procExecCwd
  | fsysGetMount
  deriving DecidableEq, Repr

/-- The node prefix `//42` that `proc_exec_common` removes. -/
def stripNode : Path → Path
  | '/' :: '/' :: rest => rest.dropWhile Char.isAlphanum
  | path => path

namespace PathHandler

/-- The path information a handler builds from the string of the message. An absolute symbolic link
target goes through the mapper like this; a relative one is not mapped at all. -/
def info (path : Path) : PathHandler → PathInfo
  | ioOpen | ioChdir | ioStat | fsysUnlink | fsysMkspecial | fsysReadlink =>
    PathInfo.mkQnxPath path true
  | ioRename | fsysLink | fsysMkspecialTarget | procExecCwd | fsysGetMount =>
    PathInfo.mkQnxPath path false
  | procExec => PathInfo.mkQnxPath (stripNode path) false

/-- The path information whose host path the handler passes to the host. -/
def mapped (pm : PathMapper) (path : Path) (handler : PathHandler) : Except Fault PathInfo :=
  pm.mapInfoToHost (handler.info path)

/-- The host path is at or below the host prefix of the mapping that was used. -/
def Contained (pm : PathMapper) (path : Path) (handler : PathHandler) : Prop :=
  ∃ info pfx, handler.mapped pm path = .ok info ∧ info.pfx = some pfx ∧
    resolve pfx.hostPath <+: resolve info.hostPath

end PathHandler

/-! ## Evaluating a changed prefix -/

/-- Lexically, a changed prefix is the new prefix followed by the components behind the old one. -/
theorem resolve_changed {hs : List Path} (hhs : ∀ c ∈ hs, IsName c) (rest : Path) :
    resolve (if rest = [] then render true hs else stem true hs ++ rest) =
      walk hs ((rest.splitOn '/').map move) := by
  split
  · next hrest =>
      subst hrest
      exact resolve_render hhs
  · unfold stem
    split
    · next hnil =>
        subst hnil
        have hsplit := List.splitOn_append_cons_self (a := '/') [] rest
        exact congrArg (fun cs => walk [] (cs.map move)) hsplit
    · rw [resolve, List.append_assoc, List.singleton_append, List.splitOn_append_cons_self,
        List.map_append, walk_append]
      change walk (resolve (render true hs)) _ = _
      rw [resolve_render hhs]

namespace PathMapper

variable {pm : PathMapper} {q : Path}

theorem Selects.root_or_mem (hwf : pm.Wf) {pfx : Prefix} (h : pm.Selects q pfx) :
    (pfx = pm.root ∧ ∀ c ∈ pm.prefixes, ¬c.qnxPath <+: q) ∨
      (pfx ∈ pm.prefixes ∧ pfx.qnxPath <+: q) := by
  by_cases hroot : pfx = pm.root
  · refine .inl ⟨hroot, fun c hc hpre => ?_⟩
    have hle := h.longest c hc hpre
    have hlt := hwf.length_qnx hc
    rw [hroot, hwf.length_root] at hle
    omega
  · exact .inr ⟨(List.mem_cons.1 h.mem).resolve_left hroot, h.root_or_prefix.resolve_left hroot⟩

/-- The selected mapping is determined by the configuration and the path. -/
theorem Selects.unique (hwf : pm.Wf) {pfx pfx' : Prefix} (h : pm.Selects q pfx)
    (h' : pm.Selects q pfx') : pfx = pfx' := by
  rcases h.root_or_mem hwf with ⟨hroot, hnone⟩ | ⟨hmem, hpre⟩
  · rcases h'.root_or_mem hwf with ⟨hroot', -⟩ | ⟨hmem', hpre'⟩
    · rw [hroot, hroot']
    · exact absurd hpre' (hnone _ hmem')
  · rcases h'.root_or_mem hwf with ⟨-, hnone'⟩ | ⟨hmem', hpre'⟩
    · exact absurd hpre (hnone' _ hmem)
    · have hlen : pfx.qnxPath.length = pfx'.qnxPath.length :=
        Nat.le_antisymm (h'.longest _ hmem hpre) (h.longest _ hmem' hpre')
      have hsame : pfx.qnxPath = pfx'.qnxPath := by
        rw [List.prefix_iff_eq_take.1 hpre, List.prefix_iff_eq_take.1 hpre', hlen]
      exact List.inj_on_of_nodup_map (List.pairwise_map.2 hwf.distinct) hmem hmem' hsame

/-- The selected prefix fits into every path but the empty one. -/
theorem Selects.length_le_iff (hwf : pm.Wf) {pfx : Prefix} (h : pm.Selects q pfx) :
    pfx.qnxPath.length ≤ q.length ↔ q ≠ [] := by
  rcases h.root_or_mem hwf with ⟨hroot, -⟩ | ⟨hmem, hpre⟩
  · rw [hroot, hwf.length_root, ← List.length_pos_iff]
    exact Iff.rfl
  · have hlt := hwf.length_qnx hmem
    have hle := hpre.length_le
    refine ⟨fun _ => ?_, fun _ => hle⟩
    rw [← List.length_pos_iff]
    omega

end PathMapper

/-! ## Which paths stay inside -/

/-- The walk along the rest of the path behind a prefix. -/
def Prefix.climbBehind (pfx : Prefix) (q : Path) : Nat × List Path :=
  climb (((common pfx.qnxPath.length q).splitOn '/').map move)

/-- Behind the prefix, the path does not leave the host prefix: it descends again through every
level it climbed above. -/
def Prefix.Keeps (pfx : Prefix) (q : Path) : Prop :=
  (resolve pfx.hostPath).drop ((resolve pfx.hostPath).length - (pfx.climbBehind q).1) <+:
    (pfx.climbBehind q).2

instance (pfx : Prefix) (q : Path) : Decidable (pfx.Keeps q) :=
  inferInstanceAs (Decidable (_ <+: _))

namespace PathHandler

variable {pm : PathMapper} {path : Path}

/-- No handler starts from a path that has been mapped already. -/
theorem info_valid (handler : PathHandler) (path : Path) :
    (handler.info path).qnxValid = true ∧ (handler.info path).hostValid = false := by
  cases handler <;> exact ⟨rfl, rfl⟩

/-- The path the mapper gets to see, in terms of the guest's string: the string itself, or its
components evaluated from left to right. -/
def seen (path : Path) : PathHandler → Path
  | ioOpen | ioChdir | ioStat | fsysUnlink | fsysMkspecial | fsysReadlink => path
  | ioRename | fsysLink | fsysMkspecialTarget | procExecCwd | fsysGetMount =>
    render (isAbs path) (resolve path)
  | procExec => render (isAbs (stripNode path)) (resolve (stripNode path))

theorem info_qnxPath (handler : PathHandler) (path : Path) :
    (handler.info path).qnxPath = handler.seen path := by
  cases handler <;> first | rfl | exact normalizePath_eq _

/-- What a handler passes on is the selected prefix, changed. -/
theorem mapped_eq (hwf : pm.Wf) {pfx : Prefix} (handler : PathHandler)
    (hsel : pm.Selects (handler.seen path) pfx) :
    handler.mapped pm path =
      (fun hostPath => { handler.info path with
        hostValid := true, hostPath := hostPath, qnxPath := handler.seen path,
        pfx := some pfx }) <$>
        changePrefix pfx.qnxPath pfx.hostPath (handler.seen path) := by
  have hpfx : pm.select (handler.seen path) = pfx :=
    (pm.selects_select _).unique hwf hsel
  obtain ⟨hqnx, hhost⟩ := handler.info_valid path
  rw [mapped, pm.mapInfoToHost_eq hqnx hhost, info_qnxPath, hpfx]

/-- The host path a handler uses stays at or below the host prefix of the selected mapping exactly
when the path the mapper sees is not empty and its rest behind the selected QNX prefix comes back
down through every level it climbed above. -/
theorem contained_iff (hpm : PathMapper.Reachable pm) (handler : PathHandler) :
    handler.Contained pm path ↔
      handler.seen path ≠ [] ∧
        ∀ pfx, pm.Selects (handler.seen path) pfx → pfx.Keeps (handler.seen path) := by
  have hwf := hpm.wf
  have hsel := pm.selects_select (handler.seen path)
  set pfx := pm.select (handler.seen path) with hpfx
  obtain ⟨hs, hhs, hhost⟩ := hwf.canonical_host hsel.mem
  have habs := (hwf.canonical_qnx hsel.mem).isAbs
  have hmapped := handler.mapped_eq hwf hsel
  have hkeeps : (∀ pfx', pm.Selects (handler.seen path) pfx' → pfx'.Keeps (handler.seen path)) ↔
      pfx.Keeps (handler.seen path) :=
    ⟨fun h => h pfx hsel, fun h pfx' hsel' => hsel.unique hwf hsel' ▸ h⟩
  rw [hkeeps, ← hsel.length_le_iff hwf]
  by_cases hlen : pfx.qnxPath.length ≤ (handler.seen path).length
  · rw [hhost, changePrefix_eq habs hhs hlen] at hmapped
    have hwalk := resolve_changed hhs (common pfx.qnxPath.length (handler.seen path))
    have hiff : pfx.Keeps (handler.seen path) ↔ hs <+:
        walk hs (((common pfx.qnxPath.length (handler.seen path)).splitOn '/').map move) := by
      rw [prefix_walk_iff]
      unfold Prefix.Keeps Prefix.climbBehind
      rw [hhost, resolve_render hhs]
    rw [and_iff_right hlen, hiff, ← hwalk]
    constructor
    · rintro ⟨info, pfx', hinfo, hpfx', hcont⟩
      rw [hmapped] at hinfo
      cases hinfo
      cases hpfx'
      rw [hhost, resolve_render hhs] at hcont
      exact hcont
    · intro hcont
      refine ⟨_, pfx, hmapped, rfl, ?_⟩
      rw [hhost, resolve_render hhs]
      exact hcont
  · -- the mapper reads past the end of an empty path
    refine ⟨?_, fun h => absurd h.1 hlen⟩
    rintro ⟨info, pfx', hinfo, -⟩
    have hfail : changePrefix pfx.qnxPath pfx.hostPath (handler.seen path) = .error .outOfBounds := by
      unfold changePrefix
      rw [habs, (hwf.canonical_host hsel.mem).isAbs, if_neg (by simp), if_neg (by simp),
        if_pos (by omega)]
    rw [hmapped, hfail] at hinfo
    cases hinfo

/-- A mapper with the mapping `-m /,/qnx`. -/
def chrooted : PathMapper := ⟨⟨"/qnx".toList, ['/'], .qnx⟩, []⟩

theorem reachable_chrooted : PathMapper.Reachable chrooted :=
  have habs : PathMapper.AbsoluteArg "/,/qnx".toList :=
    ⟨⟨['/'], "/qnx".toList, []⟩, by decide⟩
  .addMap .init habs (by decide)

/-- Climbing out of the chroot and back into it again. -/
theorem contained_and_back : ioOpen.Contained chrooted "/a/../../qnx/b".toList :=
  (contained_iff reachable_chrooted ioOpen).2 ⟨by decide, fun pfx hsel => by
    rw [hsel.unique reachable_chrooted.wf (chrooted.selects_select _)]
    decide +kernel⟩

/-- `io_open` of `/../etc` leaves the chroot. -/
theorem not_contained_dotdot :
    PathMapper.Reachable chrooted ∧ isAbs "/../etc".toList = true ∧
      ¬ioOpen.Contained chrooted "/../etc".toList := by
  refine ⟨reachable_chrooted, by decide, ?_⟩
  rintro ⟨info, pfx, hinfo, hpfx, hcont⟩
  have hres : ioOpen.mapped chrooted "/../etc".toList = .ok
      ⟨true, "/qnx/../etc".toList, true, false, "/../etc".toList,
        some ⟨"/qnx".toList, ['/'], .qnx⟩⟩ := by decide
  rw [hres] at hinfo
  cases hinfo
  cases hpfx
  revert hcont
  decide +kernel

end PathHandler
end Qine

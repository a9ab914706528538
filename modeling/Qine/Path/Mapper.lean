import Qine.CmdOpts
import Qine.Path.Normalize
import Qine.Types

/-!
# The path mapper

`PathMapper` (`path_mapper.cpp`) translates QNX paths to host paths by replacing a configured
prefix. A mapper reached by `add_map` calls with absolute prefixes keeps canonical, pairwise
different QNX prefixes and canonical host prefixes (`Reachable.wf`).

`path_starts_with` compares characters, not components. So a mapping for `/host` is also selected
for `/hostile/x`, and `map_path_to_host` is the component-wise substitution exactly when no such
mapping is the longest match (`mapPathToHost_componentwise_iff`).
-/

namespace Qine

/-- `PathMapper::Exec`. -/
inductive Exec where
  | qnx
  | host
  deriving DecidableEq, Repr

/-- `PathMapper::Prefix`. -/
structure Prefix where
  hostPath : Path
  qnxPath : Path
  exec : Exec
  deriving DecidableEq, Repr

/-- `PathInfo`; the pointer `m_prefix` is the prefix it points to. -/
structure PathInfo where
  hostValid : Bool
  hostPath : Path
  qnxValid : Bool
  qnxUnmappable : Bool
  qnxPath : Path
  pfx : Option Prefix
  deriving DecidableEq, Repr

/-- `PathMapper`. -/
structure PathMapper where
  root : Prefix
  prefixes : List Prefix
  deriving DecidableEq, Repr

/-- `starts_with`. -/
def startsWith (string pre : Path) : Bool :=
  if pre.length > string.length then false else pre == string.take pre.length

/-- `Fsutil::path_starts_with`. -/
def pathStartsWith (path pre : Path) : Bool := startsWith path pre

/-- The variable `common` of `change_prefix`: what follows the first `n` characters of the path,
without leading separators. -/
def common (n : Nat) (path : Path) : Path := (path.drop n).dropWhile (· = '/')

/-- `Fsutil::change_prefix`. A path shorter than the prefix is read past its end. -/
def changePrefix (pre newPrefix path : Path) : Except Fault Path :=
  if !isAbs pre then .error (.assertion "is_abs(prefix)")
  else if !isAbs newPrefix then .error (.assertion "is_abs(new_prefix)")
  else if path.length < pre.length then .error .outOfBounds
  else if (common pre.length path).isEmpty then .ok newPrefix
  else if newPrefix.getLast? = some '/' then .ok (newPrefix ++ common pre.length path)
  else .ok (newPrefix ++ '/' :: common pre.length path)

namespace PathInfo

/-- `PathInfo::PathInfo`. -/
def empty : PathInfo := ⟨false, [], false, false, [], none⟩

/-- `PathInfo::mk_qnx_path`. -/
def mkQnxPath (path : Path) (normalized : Bool) : PathInfo :=
  { empty with qnxValid := true, qnxPath := if normalized then path else normalizePath path }

end PathInfo

namespace PathMapper

/-- `PathMapper::PathMapper`. -/
def init : PathMapper := ⟨⟨['/'], ['/'], .qnx⟩, []⟩

/-- The variables `add_map` parses its argument into. -/
structure MapArgs where
  qnxPath : Path
  hostPath : Path
  execArg : Path
  deriving DecidableEq, Repr

/-- The option specification of `add_map`. -/
def mapSpec : CommandOptions.CommandSpec MapArgs where
  core := [CommandOptions.string fun v a => { a with qnxPath := v },
    CommandOptions.string fun v a => { a with hostPath := v }]
  kwargs := [⟨"exec".toList, CommandOptions.string fun v a => { a with execArg := v }⟩]

/-- The parsing part of `add_map`. -/
def parseMap (mapCmdArg : Path) : Except ConfigurationError MapArgs :=
  CommandOptions.parse mapCmdArg mapSpec ⟨[], [], []⟩

/-- `PathMapper::has_qnx_prefix`. -/
def hasQnxPrefix (pm : PathMapper) (pfx : Path) : Bool :=
  if pfx = ['/'] then true else pm.prefixes.any (·.qnxPath = pfx)

/-- The execution type `add_map` gives a mapping. -/
def execOf (execArg qnxPath : Path) : Except ConfigurationError Exec :=
  if execArg = [] then .ok (if qnxPath = ['/'] then .qnx else .host)
  else if execArg = "qnx".toList then .ok .qnx
  else if execArg = "host".toList then .ok .host
  else .error ⟨"exec argument must be qnx or host"⟩

/-- `PathMapper::add_map`. -/
def addMap (pm : PathMapper) (mapCmdArg : Path) : Except ConfigurationError PathMapper := do
  let args ← parseMap mapCmdArg
  let qnxPath := normalizePath args.qnxPath
  let hostPath := normalizePath args.hostPath
  let exec ← execOf args.execArg qnxPath
  if qnxPath = ['/'] then return { pm with root := ⟨hostPath, qnxPath, exec⟩ }
  else if pm.hasQnxPrefix qnxPath then .error ⟨"duplicate QNX prefix mapping"⟩
  else return { pm with prefixes := pm.prefixes ++ [⟨hostPath, qnxPath, exec⟩] }

/-- One pass of the selection loop of `map_path_to_host`. -/
def selectStep (q : Path) (pfx c : Prefix) : Prefix :=
  if pathStartsWith q c.qnxPath ∧ c.qnxPath.length > pfx.qnxPath.length then c else pfx

/-- The most specific prefix, as `map_path_to_host` finds it. -/
def select (pm : PathMapper) (q : Path) : Prefix := pm.prefixes.foldl (selectStep q) pm.root

/-- `PathMapper::map_path_to_host` on a `PathInfo`. -/
def mapInfoToHost (pm : PathMapper) (map : PathInfo) : Except Fault PathInfo :=
  if !map.qnxValid then .error (.assertion "map.m_qnx_valid")
  else if map.hostValid then .ok map
  else do
    let pfx := pm.select map.qnxPath
    let hostPath ← changePrefix pfx.qnxPath pfx.hostPath map.qnxPath
    return { map with hostValid := true, hostPath := hostPath, pfx := some pfx }

/-- `PathMapper::map_path_to_host` on a string. -/
def mapPathToHost (pm : PathMapper) (path : Path) (normalized : Bool) : Except Fault PathInfo :=
  pm.mapInfoToHost (PathInfo.mkQnxPath path normalized)

/-! ## Reachable configurations -/

/-- Both prefixes of an `add_map` argument are absolute. -/
def AbsoluteArg (mapCmdArg : Path) : Prop :=
  ∃ args, parseMap mapCmdArg = .ok args ∧ isAbs args.qnxPath = true ∧ isAbs args.hostPath = true

/-- The configurations reached by `add_map` calls with absolute prefixes. -/
inductive Reachable : PathMapper → Prop
  | init : Reachable PathMapper.init
  | addMap {pm pm' : PathMapper} {arg : Path} (h : Reachable pm) (habs : AbsoluteArg arg)
      (hadd : pm.addMap arg = .ok pm') : Reachable pm'

/-- What every reachable configuration satisfies. -/
structure Wf (pm : PathMapper) : Prop where
  root_qnx : pm.root.qnxPath = ['/']
  root_host : Canonical pm.root.hostPath
  qnx : ∀ c ∈ pm.prefixes, Canonical c.qnxPath ∧ c.qnxPath ≠ ['/']
  host : ∀ c ∈ pm.prefixes, Canonical c.hostPath
  distinct : pm.prefixes.Pairwise (·.qnxPath ≠ ·.qnxPath)

theorem canonical_root : Canonical ['/'] := ⟨[], by simp, rfl⟩

/-- When `add_map` succeeds, and what it does then. -/
theorem addMap_ok_iff {pm pm' : PathMapper} {arg : Path} :
    pm.addMap arg = .ok pm' ↔ ∃ args exec, parseMap arg = .ok args ∧
      execOf args.execArg (normalizePath args.qnxPath) = .ok exec ∧
      ((normalizePath args.qnxPath = ['/'] ∧
          pm' = { pm with
            root := ⟨normalizePath args.hostPath, normalizePath args.qnxPath, exec⟩ }) ∨
        (normalizePath args.qnxPath ≠ ['/'] ∧
          pm.hasQnxPrefix (normalizePath args.qnxPath) = false ∧
          pm' = { pm with prefixes := pm.prefixes ++
            [⟨normalizePath args.hostPath, normalizePath args.qnxPath, exec⟩] })) := by
  unfold addMap
  constructor
  · intro h
    cases hargs : parseMap arg with
    | error e => rw [hargs] at h; cases h
    | ok args =>
        rw [hargs] at h
        dsimp only [bind, Except.bind] at h
        cases hexec : execOf args.execArg (normalizePath args.qnxPath) with
        | error e => rw [hexec] at h; cases h
        | ok exec =>
            rw [hexec] at h
            dsimp only at h
            refine ⟨args, exec, rfl, hexec, ?_⟩
            split at h
            · next hroot => exact .inl ⟨hroot, (Except.ok.inj h).symm⟩
            · next hroot =>
                split at h
                · cases h
                · next hdup => exact .inr ⟨hroot, by simpa using hdup, (Except.ok.inj h).symm⟩
  · rintro ⟨args, exec, hargs, hexec, ⟨hroot, rfl⟩ | ⟨hroot, hdup, rfl⟩⟩
    · rw [hargs]
      dsimp only [bind, Except.bind]
      rw [hexec]
      exact if_pos hroot
    · rw [hargs]
      dsimp only [bind, Except.bind]
      rw [hexec]
      exact (if_neg hroot).trans (if_neg (by simp [hdup]))

/-- What a successful `add_map` did. -/
theorem addMap_cases {pm pm' : PathMapper} {arg : Path} (h : pm.addMap arg = .ok pm') :
    ∃ args exec, parseMap arg = .ok args ∧
      ((normalizePath args.qnxPath = ['/'] ∧
          pm' = { pm with
            root := ⟨normalizePath args.hostPath, normalizePath args.qnxPath, exec⟩ }) ∨
        (normalizePath args.qnxPath ≠ ['/'] ∧
          (∀ c ∈ pm.prefixes, c.qnxPath ≠ normalizePath args.qnxPath) ∧
          pm' = { pm with prefixes := pm.prefixes ++
            [⟨normalizePath args.hostPath, normalizePath args.qnxPath, exec⟩] })) := by
  obtain ⟨args, exec, hargs, -, hroot | ⟨hroot, hdup, hpm⟩⟩ := addMap_ok_iff.1 h
  · exact ⟨args, exec, hargs, .inl hroot⟩
  · refine ⟨args, exec, hargs, .inr ⟨hroot, ?_, hpm⟩⟩
    simpa [hasQnxPrefix, hroot] using hdup

/-- Every reachable configuration is well formed. -/
theorem Reachable.wf {pm : PathMapper} (h : Reachable pm) : pm.Wf := by
  induction h with
  | init => exact ⟨rfl, canonical_root, by simp [PathMapper.init], by simp [PathMapper.init], .nil⟩
  | addMap _ habs hadd ih =>
      obtain ⟨args, exec, hargs, hcase⟩ := addMap_cases hadd
      obtain ⟨args', hargs', hqnx, hhost⟩ := habs
      rw [hargs] at hargs'
      cases hargs'
      rcases hcase with ⟨hroot, rfl⟩ | ⟨hroot, hnew, rfl⟩
      · exact ⟨hroot, canonical_normalizePath hhost, ih.qnx, ih.host, ih.distinct⟩
      · refine ⟨ih.root_qnx, ih.root_host, ?_, ?_, ?_⟩
        · intro c hc
          rcases List.mem_append.1 hc with hc | hc
          · exact ih.qnx c hc
          · rw [List.mem_singleton.1 hc]
            exact ⟨canonical_normalizePath hqnx, hroot⟩
        · intro c hc
          rcases List.mem_append.1 hc with hc | hc
          · exact ih.host c hc
          · rw [List.mem_singleton.1 hc]
            exact canonical_normalizePath hhost
        · rw [List.pairwise_append]
          refine ⟨ih.distinct, List.pairwise_singleton _ _, ?_⟩
          intro c hc d hd
          rw [List.mem_singleton.1 hd]
          exact hnew c hc

end PathMapper

/-! ## Changing a prefix -/

theorem pathStartsWith_iff {path pre : Path} : pathStartsWith path pre = true ↔ pre <+: path := by
  unfold pathStartsWith startsWith
  rw [List.prefix_iff_eq_take]
  split
  · next hlen =>
      refine ⟨fun h => (Bool.noConfusion h), fun h => ?_⟩
      have := congrArg List.length h
      rw [List.length_take] at this
      omega
  · exact beq_iff_eq

theorem changePrefix_ok_iff {pre newPrefix path : Path} :
    (∃ r, changePrefix pre newPrefix path = .ok r) ↔
      isAbs pre = true ∧ isAbs newPrefix = true ∧ pre.length ≤ path.length := by
  unfold changePrefix
  cases hpre : isAbs pre with
  | false => simp
  | true =>
      cases hnew : isAbs newPrefix with
      | false => simp
      | true =>
          by_cases hlen : path.length < pre.length
          · simp [hlen]
          · simp only [hlen, Bool.not_true, Bool.false_eq_true, if_false, true_and,
              not_lt.mp hlen, iff_true]
            split_ifs <;> simp

/-- `change_prefix` between absolute canonical prefixes: the new prefix, and after a separator
whatever follows the old one. -/
theorem changePrefix_eq {pre path : Path} {hs : List Path} (hpre : isAbs pre = true)
    (hhs : ∀ c ∈ hs, IsName c) (hlen : pre.length ≤ path.length) :
    changePrefix pre (render true hs) path = .ok (
      if common pre.length path = [] then render true hs
      else stem true hs ++ common pre.length path) := by
  have habs : isAbs (render true hs) = true := Canonical.isAbs ⟨hs, hhs, rfl⟩
  unfold changePrefix
  rw [hpre, habs, if_neg (by simp), if_neg (by simp), if_neg (by omega)]
  by_cases hb : common pre.length path = []
  · rw [if_pos (by simpa using hb), if_pos hb]
  · rw [if_neg (by simpa using hb), if_neg hb]
    unfold stem
    by_cases hnil : hs = []
    · subst hnil
      rfl
    · obtain ⟨x, hx, hlast⟩ := getLast?_render true hhs hnil
      rw [if_neg hnil, hlast, if_neg (by simpa using hx), List.append_assoc]
      rfl

theorem dropWhile_intercalate {cs : List Path} (h : ∀ c ∈ cs, IsName c) :
    (['/'].intercalate cs).dropWhile (· = '/') = ['/'].intercalate cs := by
  cases cs with
  | nil => rfl
  | cons c cs =>
      obtain ⟨x, c', rfl, hx⟩ := (h c List.mem_cons_self).exists_cons
      rw [List.intercalate_cons_cons_left, List.dropWhile_cons_of_neg (by simpa using hx)]

/-! ## Selecting a prefix -/

namespace PathMapper

theorem foldl_selectStep (q : Path) (cs : List Prefix) (acc : Prefix) :
    (cs.foldl (selectStep q) acc = acc ∨
      (cs.foldl (selectStep q) acc ∈ cs ∧ (cs.foldl (selectStep q) acc).qnxPath <+: q)) ∧
    acc.qnxPath.length ≤ (cs.foldl (selectStep q) acc).qnxPath.length ∧
    ∀ c ∈ cs, c.qnxPath <+: q →
      c.qnxPath.length ≤ (cs.foldl (selectStep q) acc).qnxPath.length := by
  induction cs generalizing acc with
  | nil => exact ⟨.inl rfl, Nat.le_refl _, by simp⟩
  | cons c cs ih =>
      obtain ⟨hres, hacc, hmax⟩ := ih (selectStep q acc c)
      rw [List.foldl_cons]
      by_cases hc : pathStartsWith q c.qnxPath ∧ c.qnxPath.length > acc.qnxPath.length
      · have hstep : selectStep q acc c = c := if_pos hc
        rw [hstep] at hres hacc hmax ⊢
        refine ⟨.inr ?_, by omega, ?_⟩
        · rcases hres with hres | ⟨hmem, hpre⟩
          · rw [hres]
            exact ⟨List.mem_cons_self, pathStartsWith_iff.1 hc.1⟩
          · exact ⟨List.mem_cons_of_mem _ hmem, hpre⟩
        · intro d hd hpre
          rcases List.mem_cons.1 hd with rfl | hd
          · exact hacc
          · exact hmax d hd hpre
      · have hstep : selectStep q acc c = acc := if_neg hc
        rw [hstep] at hres hacc hmax ⊢
        refine ⟨hres.imp_right fun ⟨hmem, hpre⟩ => ⟨List.mem_cons_of_mem _ hmem, hpre⟩, hacc, ?_⟩
        intro d hd hpre
        rcases List.mem_cons.1 hd with rfl | hd
        · have := mt (fun h => ⟨pathStartsWith_iff.2 hpre, h⟩) hc
          omega
        · exact hmax d hd hpre

/-- `pfx` is the longest configured character prefix of `q`, the root if there is none. -/
structure Selects (pm : PathMapper) (q : Path) (pfx : Prefix) : Prop where
  mem : pfx ∈ pm.root :: pm.prefixes
  root_or_prefix : pfx = pm.root ∨ pfx.qnxPath <+: q
  longest : ∀ c ∈ pm.prefixes, c.qnxPath <+: q → c.qnxPath.length ≤ pfx.qnxPath.length

theorem selects_select (pm : PathMapper) (q : Path) : pm.Selects q (pm.select q) := by
  obtain ⟨hres, -, hmax⟩ := foldl_selectStep q pm.prefixes pm.root
  refine ⟨?_, ?_, hmax⟩
  · rcases hres with hres | ⟨hmem, -⟩
    · exact hres ▸ List.mem_cons_self
    · exact List.mem_cons_of_mem _ hmem
  · exact hres.imp_right fun h => h.2

section

variable {pm : PathMapper} {q : Path}

theorem Wf.canonical_host (hwf : pm.Wf) {pfx : Prefix} (h : pfx ∈ pm.root :: pm.prefixes) :
    Canonical pfx.hostPath := by
  rcases List.mem_cons.1 h with rfl | h
  · exact hwf.root_host
  · exact hwf.host pfx h

theorem Wf.canonical_qnx (hwf : pm.Wf) {pfx : Prefix} (h : pfx ∈ pm.root :: pm.prefixes) :
    Canonical pfx.qnxPath := by
  rcases List.mem_cons.1 h with rfl | h
  · rw [hwf.root_qnx]
    exact canonical_root
  · exact (hwf.qnx pfx h).1

/-- Only the root has a QNX prefix of length one. -/
theorem Wf.length_qnx (hwf : pm.Wf) {c : Prefix} (h : c ∈ pm.prefixes) : 1 < c.qnxPath.length := by
  obtain ⟨⟨cs, hcs, heq⟩, hroot⟩ := hwf.qnx c h
  cases cs with
  | nil => exact absurd heq hroot
  | cons d cs =>
      obtain ⟨x, d', rfl⟩ := List.exists_cons_of_ne_nil (hcs d List.mem_cons_self).ne_nil
      rw [heq]
      simp [render]

theorem Wf.length_root (hwf : pm.Wf) : pm.root.qnxPath.length = 1 := by rw [hwf.root_qnx]; rfl

/-! ## Component-wise substitution -/

end

end PathMapper

/-- A mapping applies to `q` component-wise: `q` is its QNX prefix, or continues it behind a
separator; the root mapping always applies. -/
def Prefix.Applies (pfx : Prefix) (q : Path) : Prop :=
  pfx.qnxPath = ['/'] ∨ q = pfx.qnxPath ∨ pfx.qnxPath ++ ['/'] <+: q

instance (pfx : Prefix) (q : Path) : Decidable (pfx.Applies q) :=
  inferInstanceAs (Decidable (_ ∨ _ ∨ _))

theorem Prefix.Applies.startsWith {pfx : Prefix} {q : Path} (h : pfx.Applies q)
    (hroot : pfx.qnxPath ≠ ['/']) : pfx.qnxPath <+: q := by
  rcases h with h | rfl | h
  · exact absurd h hroot
  · exact List.prefix_refl _
  · exact (List.prefix_append _ _).trans h

/-- Behind a prefix that applies stand the remaining components. -/
theorem common_of_applies {pfx : Prefix} {ps cs : List Path} (hps : ∀ c ∈ ps, IsName c)
    (hcs : ∀ c ∈ cs, IsName c) (hqnx : pfx.qnxPath = render true ps)
    (h : pfx.Applies (render true cs)) :
    pfx.qnxPath.length ≤ (render true cs).length ∧
      common pfx.qnxPath.length (render true cs) = ['/'].intercalate (cs.drop ps.length) := by
  by_cases hnil : ps = []
  · subst hnil
    rw [hqnx]
    exact ⟨Nat.succ_le_succ (Nat.zero_le _), dropWhile_intercalate hcs⟩
  rcases h with h | h | ⟨r, h⟩
  · rw [← resolve_render hps, ← hqnx, h] at hnil
    exact absurd rfl hnil
  · have heq : cs = ps := by rw [← resolve_render hcs, ← resolve_render hps, ← hqnx, ← h]
    rw [← h, heq]
    exact ⟨Nat.le_refl _, by simp [common]⟩
  · rw [List.append_assoc, hqnx] at h
    have hcons : cs ≠ [] := by
      rintro rfl
      have := congrArg List.length h
      simp [render] at this
    have hsplit := splitOn_render hcs hcons
    rw [← h, List.singleton_append, List.splitOn_append_cons_self, splitOn_render hps hnil,
      List.cons_append, List.cons.injEq] at hsplit
    have hr : cs.drop ps.length = r.splitOn '/' := by
      rw [← hsplit.2]
      exact List.drop_left
    have hnames : ∀ c ∈ r.splitOn '/', IsName c := by
      intro c hc
      apply hcs
      rw [← hsplit.2]
      exact List.mem_append_right _ hc
    have hdrop := dropWhile_intercalate hnames
    rw [List.intercalate_splitOn] at hdrop
    refine ⟨by rw [← h, hqnx, List.length_append]; omega, ?_⟩
    rw [hr, List.intercalate_splitOn, ← h, hqnx, common, List.drop_left]
    exact hdrop

namespace PathMapper

variable {pm : PathMapper} {q : Path}

/-- The substitution `map_path_to_host` is meant to be: the longest mapping that applies is used,
and its host prefix is followed by the components of `q` after its QNX prefix. -/
def Componentwise (pm : PathMapper) (q : Path) (info : PathInfo) : Prop :=
  ∃ pfx ∈ pm.root :: pm.prefixes, info.pfx = some pfx ∧ pfx.Applies q ∧
    (∀ c ∈ pm.root :: pm.prefixes, c.Applies q → c.qnxPath.length ≤ pfx.qnxPath.length) ∧
    info.hostPath = render true
      (resolve pfx.hostPath ++ (resolve q).drop (resolve pfx.qnxPath).length)

/-- A path that has not been mapped yet is translated through the selected prefix. -/
theorem mapInfoToHost_eq (pm : PathMapper) {map : PathInfo} (hqnx : map.qnxValid = true)
    (hhost : map.hostValid = false) :
    pm.mapInfoToHost map =
      (fun hostPath => { map with
        hostValid := true, hostPath := hostPath, pfx := some (pm.select map.qnxPath) }) <$>
      changePrefix (pm.select map.qnxPath).qnxPath (pm.select map.qnxPath).hostPath map.qnxPath := by
  unfold mapInfoToHost
  rw [if_neg (by simp [hqnx]), if_neg (by simp [hhost])]
  rfl

theorem qnxPath_mkQnxPath (h : Canonical q) (normalized : Bool) :
    (PathInfo.mkQnxPath q normalized).qnxPath = q := by
  cases normalized with
  | true => rfl
  | false => exact h.normalizePath_eq_self

/-- Selecting by characters selects a mapping that applies, unless a longer mapping is a character
prefix only. -/
theorem select_applies_iff (hwf : pm.Wf) :
    (pm.select q).Applies q ↔
      ∀ c ∈ pm.prefixes, c.qnxPath <+: q → ¬c.Applies q →
        ∃ d ∈ pm.prefixes, d.Applies q ∧ c.qnxPath.length < d.qnxPath.length := by
  have hsel := pm.selects_select q
  constructor
  · intro happ c hc hpre hnot
    have hle := hsel.longest c hc hpre
    have hlen := hwf.length_qnx hc
    rcases List.mem_cons.1 hsel.mem with hroot | hmem
    · have := hwf.length_root
      rw [hroot] at hle
      omega
    refine ⟨pm.select q, hmem, happ, Nat.lt_of_le_of_ne hle fun heq => ?_⟩
    -- two prefixes of one length are the same string
    have hsame : c.qnxPath = (pm.select q).qnxPath := by
      have hpre' := happ.startsWith (hwf.qnx _ hmem).2
      rw [List.prefix_iff_eq_take.1 hpre, List.prefix_iff_eq_take.1 hpre', heq]
    unfold Prefix.Applies at happ hnot
    rw [hsame] at hnot
    exact hnot happ
  · intro hall
    by_contra hnot
    rcases List.mem_cons.1 hsel.mem with hroot | hmem
    · exact hnot (.inl (by rw [hroot, hwf.root_qnx]))
    have hpre : (pm.select q).qnxPath <+: q := by
      rcases hsel.root_or_prefix with hroot | hpre
      · exact absurd (.inl (by rw [hroot, hwf.root_qnx])) hnot
      · exact hpre
    obtain ⟨d, hd, happ, hlt⟩ := hall _ hmem hpre hnot
    have := hsel.longest d hd (happ.startsWith (hwf.qnx d hd).2)
    omega

/-- A mapping that applies is at most as long as the selected one. -/
theorem length_le_select (hwf : pm.Wf) {c : Prefix} (hc : c ∈ pm.root :: pm.prefixes)
    (happ : c.Applies q) : c.qnxPath.length ≤ (pm.select q).qnxPath.length := by
  have hsel := pm.selects_select q
  rcases List.mem_cons.1 hc with rfl | hc
  · rw [hwf.length_root]
    obtain ⟨cs, -, heq⟩ := hwf.canonical_qnx hsel.mem
    rw [heq]
    exact Nat.succ_le_succ (Nat.zero_le _)
  · exact hsel.longest c hc (happ.startsWith (hwf.qnx c hc).2)

/-- Between rendered paths, a prefix that applies is replaced as a list of components. -/
theorem changePrefix_render {pfx : Prefix} {ps hs cs : List Path} (hps : ∀ c ∈ ps, IsName c)
    (hhs : ∀ c ∈ hs, IsName c) (hcs : ∀ c ∈ cs, IsName c) (hqnx : pfx.qnxPath = render true ps)
    (hhost : pfx.hostPath = render true hs) (happ : pfx.Applies (render true cs)) :
    changePrefix pfx.qnxPath pfx.hostPath (render true cs) =
      .ok (render true (hs ++ cs.drop ps.length)) := by
  obtain ⟨hlen, hcommon⟩ := common_of_applies hps hcs hqnx happ
  have habs : isAbs pfx.qnxPath = true := Canonical.isAbs ⟨ps, hps, hqnx⟩
  rw [hhost, changePrefix_eq habs hhs hlen, hcommon]
  by_cases hdrop : cs.drop ps.length = []
  · rw [hdrop, List.append_nil]
    rfl
  · rw [if_neg, render_append true hs hdrop]
    intro hnil
    obtain ⟨c, ds, hc⟩ := List.exists_cons_of_ne_nil hdrop
    obtain ⟨x, c', rfl⟩ := List.exists_cons_of_ne_nil
      (hcs c (List.mem_of_mem_drop (hc ▸ List.mem_cons_self))).ne_nil
    rw [hc, List.intercalate_cons_cons_left] at hnil
    cases hnil

/-- Translating through a mapping that applies replaces its components. -/
theorem changePrefix_of_applies (hwf : pm.Wf) (hq : Canonical q) {pfx : Prefix}
    (hmem : pfx ∈ pm.root :: pm.prefixes) (happ : pfx.Applies q) :
    changePrefix pfx.qnxPath pfx.hostPath q = .ok (render true
      (resolve pfx.hostPath ++ (resolve q).drop (resolve pfx.qnxPath).length)) := by
  obtain ⟨cs, hcs, rfl⟩ := hq
  obtain ⟨ps, hps, hqnx⟩ := hwf.canonical_qnx hmem
  obtain ⟨hs, hhs, hhost⟩ := hwf.canonical_host hmem
  rw [changePrefix_render hps hhs hcs hqnx hhost happ, hqnx, hhost, resolve_render hcs,
    resolve_render hps, resolve_render hhs]

/-- `map_path_to_host` is the component-wise substitution by the most specific mapping exactly when
every mapping that merely is a character prefix of the path is shorter than one that applies. -/
theorem mapPathToHost_componentwise_iff (hpm : Reachable pm) (hq : Canonical q)
    (normalized : Bool) :
    (∃ info, pm.mapPathToHost q normalized = .ok info ∧ pm.Componentwise q info) ↔
      ∀ c ∈ pm.prefixes, c.qnxPath <+: q → ¬c.Applies q →
        ∃ d ∈ pm.prefixes, d.Applies q ∧ c.qnxPath.length < d.qnxPath.length := by
  have hwf := hpm.wf
  rw [← select_applies_iff hwf, mapPathToHost, mapInfoToHost_eq pm rfl rfl, qnxPath_mkQnxPath hq]
  constructor
  · rintro ⟨info, hinfo, pfx, -, hpfx, happ, -⟩
    cases hch : changePrefix (pm.select q).qnxPath (pm.select q).hostPath q with
    | error e => rw [hch] at hinfo; cases hinfo
    | ok hostPath =>
        rw [hch] at hinfo
        cases hinfo
        cases hpfx
        exact happ
  · intro happ
    have hmem := (pm.selects_select q).mem
    rw [changePrefix_of_applies hwf hq hmem happ]
    exact ⟨_, rfl, _, hmem, rfl, happ, fun c hc => length_le_select hwf hc, rfl⟩

/-- A mapper with the mapping `-m /host,/h`. -/
def hostMapped : PathMapper := ⟨init.root, [⟨"/h".toList, "/host".toList, .host⟩]⟩

theorem reachable_hostMapped : Reachable hostMapped :=
  have habs : AbsoluteArg "/host,/h".toList := ⟨⟨"/host".toList, "/h".toList, []⟩, by decide⟩
  .addMap .init habs (by decide)

theorem mapPathToHost_hostMapped :
    ∃ info, hostMapped.mapPathToHost "/host/x".toList false = .ok info ∧
      hostMapped.Componentwise "/host/x".toList info :=
  (mapPathToHost_componentwise_iff reachable_hostMapped ⟨["host".toList, "x".toList],
    by decide⟩ false).2 (by decide)

/-- `/hostile/x` is translated through the mapping for `/host`. -/
theorem mapPathToHost_hostile :
    Reachable hostMapped ∧ Canonical "/hostile/x".toList ∧
      ¬∃ info, hostMapped.mapPathToHost "/hostile/x".toList false = .ok info ∧
        hostMapped.Componentwise "/hostile/x".toList info := by
  refine ⟨reachable_hostMapped, ⟨["hostile".toList, "x".toList], by decide⟩, ?_⟩
  rintro ⟨info, hinfo, pfx, -, hpfx, happ, -⟩
  have hres : hostMapped.mapPathToHost "/hostile/x".toList false = .ok
      ⟨true, "/h/ile/x".toList, true, false, "/hostile/x".toList,
        some ⟨"/h".toList, "/host".toList, .host⟩⟩ := by decide
  rw [hres] at hinfo
  cases hinfo
  cases hpfx
  revert happ
  decide

end PathMapper
end Qine

import Qine.Path.Mapper

/-!
# One file under two names

`map_path_to_qnx` turns a host path back into a QNX path. It takes the root mapping when the host path
is below the root's host prefix, and otherwise the mapping with the shortest QNX prefix
(`selectHost`), where `map_path_to_host` takes the one with the longest.

So the name that goes back to a guest is translated by a mapping `s` that may differ from the mapping
`r` that made it. It leads to the same host path exactly when `s` stands for the directory at which `r`
has its QNX prefix (`mapPathToHost_mapPathToQnx_iff`); otherwise `s` hides that directory, as the
mapping `/host,/` does with a directory `host` of the root file system (`hidden_below_host`).
-/

namespace Qine

/-- `PathInfo::mk_host_path`. -/
def PathInfo.mkHostPath (path : Path) (normalized : Bool) : PathInfo :=
  { empty with hostValid := true, hostPath := if normalized then path else normalizePath path }

/-- A mapping with its two sides exchanged. -/
def Prefix.flip (pfx : Prefix) : Prefix := ⟨pfx.qnxPath, pfx.hostPath, pfx.exec⟩

namespace PathMapper

/-- One pass of the selection loop of `map_path_to_qnx`. -/
def selectHostStep (h : Path) (pfx : Option Prefix) (c : Prefix) : Option Prefix :=
  if pathStartsWith h c.hostPath then
    match pfx with
    | none => some c
    | some p => if c.qnxPath.length < p.qnxPath.length then some c else some p
  else pfx

/-- The most general prefix, as `map_path_to_qnx` finds it; the root goes before all others. -/
def selectHost (pm : PathMapper) (h : Path) : Option Prefix :=
  if pathStartsWith h pm.root.hostPath then some pm.root
  else pm.prefixes.foldl (selectHostStep h) none

/-- `PathMapper::map_path_to_qnx` on a `PathInfo`. The flag for an unmappable path is set again
behind the translation. -/
def mapInfoToQnx (pm : PathMapper) (map : PathInfo) : Except Fault PathInfo :=
  if !map.hostValid then .error (.assertion "map.m_host_valid")
  else if map.qnxValid then .ok map
  else
    match pm.selectHost map.hostPath with
    | none => .ok { map with
        qnxValid := true, pfx := none, qnxUnmappable := true,
        qnxPath := "/unmapped/".toList ++ map.hostPath }
    | some pfx => do
        let qnxPath ← changePrefix pfx.hostPath pfx.qnxPath map.hostPath
        return { map with qnxValid := true, qnxUnmappable := true, qnxPath := qnxPath, pfx := none }

/-- `PathMapper::map_path_to_qnx` on a string. -/
def mapPathToQnx (pm : PathMapper) (path : Path) (normalized : Bool) : Except Fault PathInfo :=
  pm.mapInfoToQnx (PathInfo.mkHostPath path normalized)

/-! ## The mapping back -/

variable {pm : PathMapper} {h : Path}

theorem foldl_selectHostStep (h : Path) (cs : List Prefix) (acc : Option Prefix) :
    (cs.foldl (selectHostStep h) acc = acc ∨
      ∃ c ∈ cs, cs.foldl (selectHostStep h) acc = some c ∧ c.hostPath <+: h) ∧
    (cs.foldl (selectHostStep h) acc = none → acc = none ∧ ∀ c ∈ cs, ¬c.hostPath <+: h) := by
  induction cs generalizing acc with
  | nil => simp
  | cons c cs ih =>
      obtain ⟨hres, hnone⟩ := ih (selectHostStep h acc c)
      rw [List.foldl_cons]
      by_cases hc : pathStartsWith h c.hostPath
      · have hpre := pathStartsWith_iff.1 hc
        have hstep : selectHostStep h acc c = some c ∨
            (selectHostStep h acc c = acc ∧ acc ≠ none) := by
          unfold selectHostStep
          rw [if_pos hc]
          cases acc with
          | none => exact .inl rfl
          | some p =>
              dsimp only
              split
              · exact .inl rfl
              · exact .inr ⟨rfl, by simp⟩
        constructor
        · rcases hres with hres | ⟨d, hd, hres, hd'⟩
          · rw [hres]
            rcases hstep with hstep | ⟨hstep, -⟩
            · exact .inr ⟨c, List.mem_cons_self, hstep, hpre⟩
            · exact .inl hstep
          · exact .inr ⟨d, List.mem_cons_of_mem _ hd, hres, hd'⟩
        · intro h0
          have := (hnone h0).1
          rcases hstep with hstep | ⟨hstep, hne⟩
          · rw [hstep] at this
            cases this
          · exact absurd (hstep ▸ this) hne
      · have hstep : selectHostStep h acc c = acc := if_neg hc
        rw [hstep] at hres hnone ⊢
        refine ⟨hres.imp_right fun ⟨d, hd, h'⟩ => ⟨d, List.mem_cons_of_mem _ hd, h'⟩, ?_⟩
        intro h0
        obtain ⟨hacc, hall⟩ := hnone h0
        refine ⟨hacc, ?_⟩
        rintro d hd
        rcases List.mem_cons.1 hd with rfl | hd
        · exact mt pathStartsWith_iff.2 hc
        · exact hall d hd

/-- What is selected is a mapping whose host prefix the path starts with. -/
theorem selectHost_mem {r : Prefix} (hr : pm.selectHost h = some r) :
    r ∈ pm.root :: pm.prefixes ∧ r.hostPath <+: h := by
  unfold selectHost at hr
  split at hr
  · next hroot =>
      cases hr
      exact ⟨List.mem_cons_self, pathStartsWith_iff.1 hroot⟩
  · obtain ⟨hres, -⟩ := foldl_selectHostStep h pm.prefixes none
    rw [hr] at hres
    rcases hres with hres | ⟨c, hc, hres, hpre⟩
    · cases hres
    · cases hres
      exact ⟨List.mem_cons_of_mem _ hc, hpre⟩

/-- A path below some host prefix is mappable. -/
theorem exists_selectHost {c : Prefix} (hc : c ∈ pm.root :: pm.prefixes) (hpre : c.hostPath <+: h) :
    ∃ r, pm.selectHost h = some r := by
  cases hr : pm.selectHost h with
  | some r => exact ⟨r, rfl⟩
  | none =>
      unfold selectHost at hr
      split at hr
      · cases hr
      · next hroot =>
          obtain ⟨-, hnone⟩ := foldl_selectHostStep h pm.prefixes none
          rcases List.mem_cons.1 hc with rfl | hc
          · exact absurd (pathStartsWith_iff.2 hpre) hroot
          · exact absurd hpre ((hnone hr).2 c hc)

end PathMapper

/-! ## Mappings by components -/

/-- A mapping applies to a path when its QNX prefix is a prefix by components. -/
theorem Prefix.applies_iff {pfx : Prefix} {ps cs : List Path} (hps : ∀ c ∈ ps, IsName c)
    (hcs : ∀ c ∈ cs, IsName c) (hqnx : pfx.qnxPath = render true ps) :
    pfx.Applies (render true cs) ↔ ps <+: cs := by
  constructor
  · rintro (happ | happ | ⟨r, happ⟩)
    · have hnil : ps = [] := by
        rw [← resolve_render hps, ← hqnx, happ]
        rfl
      exact hnil ▸ List.nil_prefix
    · rw [hqnx] at happ
      have heq : ps = cs := by rw [← resolve_render hps, ← resolve_render hcs, happ]
      exact heq ▸ List.prefix_refl _
    · by_cases hnil : ps = []
      · exact hnil ▸ List.nil_prefix
      · have hcons : cs ≠ [] := by
          rintro rfl
          have := congrArg List.length happ
          rw [hqnx] at this
          simp [render] at this
        have hsplit := splitOn_render hcs hcons
        rw [← happ, hqnx, List.append_assoc, List.singleton_append, List.splitOn_append_cons_self,
          splitOn_render hps hnil, List.cons_append, List.cons.injEq] at hsplit
        rw [← hsplit.2]
        exact List.prefix_append _ _
  · rintro ⟨ds, rfl⟩
    by_cases hnil : ps = []
    · exact .inl (by rw [hqnx, hnil]; rfl)
    by_cases hds : ds = []
    · exact .inr (.inl (by rw [hqnx, hds, List.append_nil]))
    · refine .inr (.inr ?_)
      rw [render_append true ps hds, stem, if_neg hnil, hqnx]
      exact List.prefix_append _ _

/-- Of two prefixes of one path, the one that is not longer as a string has no more components. -/
theorem prefix_of_length_render {ps ss cs : List Path} (hps : ∀ c ∈ ps, IsName c)
    (hp : ps <+: cs) (hs : ss <+: cs)
    (hlen : (render true ps).length ≤ (render true ss).length) : ps <+: ss := by
  rcases List.prefix_or_prefix_of_prefix hp hs with hpre | hpre
  · exact hpre
  · obtain ⟨ds, rfl⟩ := hpre
    by_cases hds : ds = []
    · simp [hds]
    · obtain ⟨d, ds', rfl⟩ := List.exists_cons_of_ne_nil hds
      obtain ⟨x, d', rfl⟩ := List.exists_cons_of_ne_nil (hps d (by simp)).ne_nil
      -- a further component makes the string longer
      rw [render_append true ss hds, List.intercalate_cons_cons_left] at hlen
      unfold stem at hlen
      split at hlen
      · next hnil =>
          rw [hnil, List.length_append, List.length_cons] at hlen
          omega
      · rw [List.length_append, List.length_append, List.length_cons] at hlen
        omega

namespace PathMapper

variable {pm : PathMapper} {q : Path}

/-- Where a covered path is on the host. -/
theorem mapPathToHost_of_applies (hwf : pm.Wf) (hq : Canonical q) (m : Bool)
    (happ : (pm.select q).Applies q) : ∃ info, pm.mapPathToHost q m = .ok info ∧
      info.hostPath = render true (resolve (pm.select q).hostPath ++
        (resolve q).drop (resolve (pm.select q).qnxPath).length) := by
  rw [mapPathToHost, mapInfoToHost_eq pm rfl rfl, qnxPath_mkQnxPath hq,
    changePrefix_of_applies hwf hq (pm.selects_select q).mem happ]
  exact ⟨_, rfl, rfl⟩

theorem mkHostPath_of_canonical {h : Path} (hh : Canonical h) (normalized : Bool) :
    PathInfo.mkHostPath h normalized = { PathInfo.empty with hostValid := true, hostPath := h } := by
  cases normalized with
  | true => rfl
  | false => rw [PathInfo.mkHostPath, if_neg (by simp), hh.normalizePath_eq_self]

/-- A path below a host prefix has a QNX name. -/
theorem mapPathToQnx_of_prefix (hwf : pm.Wf) {h : Path} (hh : Canonical h) (n : Bool) {r : Prefix}
    (hr : pm.selectHost h = some r) : ∃ info, pm.mapPathToQnx h n = .ok info ∧
      changePrefix r.hostPath r.qnxPath h = .ok info.qnxPath := by
  obtain ⟨hmem, hpre⟩ := selectHost_mem hr
  obtain ⟨q', hq'⟩ := changePrefix_ok_iff.2
    ⟨(hwf.canonical_host hmem).isAbs, (hwf.canonical_qnx hmem).isAbs, hpre.length_le⟩
  refine ⟨⟨true, h, true, true, q', none⟩, ?_, hq'⟩
  unfold mapPathToQnx mapInfoToQnx
  rw [mkHostPath_of_canonical hh]
  simp [PathInfo.empty, hr, hq', bind, Except.bind, pure, Except.pure]

theorem render_inj {cs ds : List Path} (hcs : ∀ c ∈ cs, IsName c) (hds : ∀ c ∈ ds, IsName c) :
    render true cs = render true ds ↔ cs = ds := by
  refine ⟨fun heq => ?_, fun heq => heq ▸ rfl⟩
  rw [← resolve_render hcs, ← resolve_render hds, heq]

theorem render_prefix_append (cs ds : List Path) : render true cs <+: render true (cs ++ ds) := by
  by_cases hds : ds = []
  · simp [hds]
  · rw [render_append true cs hds]
    refine List.IsPrefix.trans ?_ (List.prefix_append _ _)
    unfold stem
    split
    · next hnil => exact hnil ▸ List.prefix_refl _
    · exact List.prefix_append _ _

/-- Back through `r` and forth through `s`, which has the longer QNX prefix. -/
theorem back_and_forth (hwf : pm.Wf) {r : Prefix} (hr : r ∈ pm.root :: pm.prefixes) {h q' : Path}
    (hh : Canonical h) (hback : r.flip.Applies h)
    (hchange : changePrefix r.hostPath r.qnxPath h = .ok q') (k : Bool)
    (hforth : (pm.select q').Applies q') :
    (∃ h', pm.mapPathToHost q' k = .ok h' ∧ h'.hostPath = h) ↔
      changePrefix r.qnxPath r.hostPath (pm.select q').qnxPath = .ok (pm.select q').hostPath := by
  obtain ⟨hc, hhc, rfl⟩ := hh
  obtain ⟨rh, hrh, hrhost⟩ := hwf.canonical_host hr
  obtain ⟨rq, hrq, hrqnx⟩ := hwf.canonical_qnx hr
  obtain ⟨tail, rfl⟩ := (@Prefix.applies_iff r.flip _ _ hrh hhc hrhost).1 hback
  have htail : ∀ c ∈ tail, IsName c := fun c hc => hhc c (List.mem_append_right _ hc)
  -- the QNX prefix of `r` stands for its host prefix
  have hq' : q' = render true (rq ++ tail) := by
    have hflip := @changePrefix_render r.flip _ _ _ hrh hrq hhc hrhost hrqnx hback
    rw [List.drop_left] at hflip
    exact Except.ok.inj (hchange.symm.trans hflip)
  have hnames : ∀ c ∈ rq ++ tail, IsName c := List.forall_mem_append.2 ⟨hrq, htail⟩
  subst hq'
  obtain ⟨sq, hsq, hsqnx⟩ := hwf.canonical_qnx (pm.selects_select (render true (rq ++ tail))).mem
  obtain ⟨sh, hsh, hshost⟩ := hwf.canonical_host (pm.selects_select (render true (rq ++ tail))).mem
  have hsub := (Prefix.applies_iff hsq hnames hsqnx).1 hforth
  -- the longest mapping continues the QNX prefix of `r`
  obtain ⟨t, rfl⟩ : rq <+: sq := by
    have happ := (Prefix.applies_iff hrq hnames hrqnx).2 (List.prefix_append rq tail)
    have hlen := length_le_select hwf hr happ
    rw [hrqnx, hsqnx] at hlen
    exact prefix_of_length_render hrq (List.prefix_append rq tail) hsub hlen
  obtain ⟨u, rfl⟩ := (List.prefix_append_right_inj rq).1 hsub
  obtain ⟨info, hinfo, hhost⟩ := mapPathToHost_of_applies hwf ⟨_, hnames, rfl⟩ k hforth
  rw [hshost, hsqnx, resolve_render hsh, resolve_render hsq, resolve_render hnames,
    ← List.append_assoc, List.drop_left] at hhost
  have happ : r.Applies (render true (rq ++ t)) :=
    (Prefix.applies_iff hrq hsq hrqnx).2 (List.prefix_append rq t)
  rw [hinfo, hsqnx, changePrefix_render hrq hrh hsq hrqnx hrhost happ, hshost, List.drop_left]
  have hu : ∀ c ∈ u, IsName c := fun c hc => htail c (List.mem_append_right _ hc)
  have ht : ∀ c ∈ t, IsName c := fun c hc => htail c (List.mem_append_left _ hc)
  have hrt : ∀ c ∈ rh ++ t, IsName c := List.forall_mem_append.2 ⟨hrh, ht⟩
  calc (∃ h', Except.ok info = .ok h' ∧ h'.hostPath = render true (rh ++ (t ++ u)))
      ↔ render true (sh ++ u) = render true (rh ++ (t ++ u)) := by rw [← hhost]; simp
    _ ↔ sh ++ u = rh ++ (t ++ u) := render_inj (List.forall_mem_append.2 ⟨hsh, hu⟩) hhc
    _ ↔ sh = rh ++ t := by rw [← List.append_assoc, List.append_cancel_right_eq]
    _ ↔ rh ++ t = sh := eq_comm
    _ ↔ render true (rh ++ t) = render true sh := (render_inj hrt hsh).symm
    _ ↔ _ := by simp

/-- A name that went to the host and back leads to the same host path exactly when the mapping it is
then translated by stands for the directory that the mapping back has at its place. -/
theorem mapPathToHost_mapPathToQnx_iff (hpm : Reachable pm) (hq : Canonical q) (m n k : Bool)
    (hcover : (pm.select q).Applies q) :
    ∃ h r q', pm.mapPathToHost q m = .ok h ∧ pm.selectHost h.hostPath = some r ∧
      pm.mapPathToQnx h.hostPath n = .ok q' ∧
      (r.flip.Applies h.hostPath → (pm.select q'.qnxPath).Applies q'.qnxPath →
        ((∃ h', pm.mapPathToHost q'.qnxPath k = .ok h' ∧ h'.hostPath = h.hostPath) ↔
          changePrefix r.qnxPath r.hostPath (pm.select q'.qnxPath).qnxPath =
            .ok (pm.select q'.qnxPath).hostPath)) := by
  have hwf := hpm.wf
  have hmem := (pm.selects_select q).mem
  obtain ⟨h, hh, hhost⟩ := mapPathToHost_of_applies hwf hq m hcover
  -- the host path continues the host prefix of the mapping that made it
  have hcanon : Canonical h.hostPath := by
    refine ⟨_, List.forall_mem_append.2 ⟨fun c hc => isName_of_mem_resolve hc, fun c hc => ?_⟩, hhost⟩
    exact isName_of_mem_resolve (List.mem_of_mem_drop hc)
  have hbelow : (pm.select q).hostPath <+: h.hostPath := by
    have hpre := render_prefix_append (resolve (pm.select q).hostPath)
      ((resolve q).drop (resolve (pm.select q).qnxPath).length)
    rw [← hhost, (hwf.canonical_host hmem).render_resolve] at hpre
    exact hpre
  obtain ⟨r, hr⟩ := exists_selectHost hmem hbelow
  obtain ⟨q', hq', hchange⟩ := mapPathToQnx_of_prefix hwf hcanon n hr
  exact ⟨h, r, q', hh, hr, hq', fun hback hforth =>
    back_and_forth hwf (selectHost_mem hr).1 hcanon hback hchange k hforth⟩

/-- A mapper with the mappings `-m /,/qnx -m /host,/`. -/
def rootMapped : PathMapper :=
  ⟨⟨"/qnx".toList, "/".toList, .qnx⟩, [⟨"/".toList, "/host".toList, .host⟩]⟩

theorem reachable_rootMapped : Reachable rootMapped := by
  have hroot : AbsoluteArg "/,/qnx".toList := ⟨⟨"/".toList, "/qnx".toList, []⟩, by decide⟩
  have hhost : AbsoluteArg "/host,/".toList := ⟨⟨"/host".toList, "/".toList, []⟩, by decide⟩
  have hfirst : Reachable ⟨rootMapped.root, []⟩ := .addMap .init hroot (by decide)
  exact .addMap hfirst hhost (by decide)

theorem mapPathToHost_mapPathToQnx_rootMapped :
    ∃ h q' h', rootMapped.mapPathToHost "/host/qnx/bin/sh".toList false = .ok h ∧
      rootMapped.mapPathToQnx h.hostPath false = .ok q' ∧ q'.qnxPath = "/bin/sh".toList ∧
      rootMapped.mapPathToHost q'.qnxPath false = .ok h' ∧ h'.hostPath = h.hostPath := by
  have hcanon : Canonical "/host/qnx/bin/sh".toList :=
    ⟨["host".toList, "qnx".toList, "bin".toList, "sh".toList], by decide⟩
  obtain ⟨h, r, q', hh, hr, hq', hiff⟩ := mapPathToHost_mapPathToQnx_iff reachable_rootMapped hcanon
    false false false (by decide)
  cases hh.symm.trans (show _ = Except.ok (⟨true, "/qnx/bin/sh".toList, true, false,
    "/host/qnx/bin/sh".toList, some ⟨"/".toList, "/host".toList, .host⟩⟩ : PathInfo) by decide)
  cases hr.symm.trans (show _ = some rootMapped.root by decide)
  cases hq'.symm.trans (show _ = Except.ok (⟨true, "/qnx/bin/sh".toList, true, true,
    "/bin/sh".toList, none⟩ : PathInfo) by decide)
  obtain ⟨h', hh', heq⟩ := (hiff (by decide) (by decide)).2 (by decide)
  exact ⟨_, _, h', hh, hq', rfl, hh', heq⟩

/-- The mapping for `/host` hides the directory `host` of the root file system: a file in it goes back
to the guest under the name of another file. -/
theorem hidden_below_host :
    Reachable rootMapped ∧ Canonical "/host/qnx/host/x".toList ∧
      ∃ h q' h', rootMapped.mapPathToHost "/host/qnx/host/x".toList false = .ok h ∧
        rootMapped.mapPathToQnx h.hostPath false = .ok q' ∧
        rootMapped.mapPathToHost q'.qnxPath false = .ok h' ∧ h'.hostPath ≠ h.hostPath := by
  refine ⟨reachable_rootMapped,
    ⟨["host".toList, "qnx".toList, "host".toList, "x".toList], by decide⟩, ?_⟩
  exact ⟨⟨true, "/qnx/host/x".toList, true, false, "/host/qnx/host/x".toList,
      some ⟨"/".toList, "/host".toList, .host⟩⟩,
    ⟨true, "/qnx/host/x".toList, true, true, "/host/x".toList, none⟩,
    ⟨true, "/x".toList, true, false, "/host/x".toList,
      some ⟨"/".toList, "/host".toList, .host⟩⟩, by decide⟩

end PathMapper
end Qine

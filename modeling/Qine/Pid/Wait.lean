import Qine.Pid.Calls
import Qine.Pid.Tree

/-!
# What a parent learns about its children

`proc_fork` and `proc_spawn` tell the parent a pid for the child, and `proc_wait` later says which child has ended
and how. In between both may do anything else, have children of their own and wait for them, while the host gives
away the pids of processes that were waited for.

As long as the parent has not waited for the child, the pid it was told stands for that child, and waiting for it
says how the child has ended (`wait_reports`).
-/

namespace Qine

/-! ## How a process ends -/

/-- A process ends itself by `proc_terminate`, or a signal ends it. -/
inductive Ending where
  | terminate (status : BitVec 32)
  | signalled (signo : Nat) (core : Bool)
  deriving DecidableEq, Repr

namespace Ending

/-- The status word of the host. -/
def hostStatus : Ending → BitVec 32
  | terminate status => (status &&& 0xFF) <<< 8
  | signalled signo core =>
    BitVec.ofNat 32 ((QnxSigset.mapSigQnxToHost signo).getD 0 + if core then 0x80 else 0)

/-- The status word of the guest, `0xEESS`. -/
def report : Ending → Int
  | terminate status => 256 * (status.toNat % 256)
  | signalled signo _ => signo

/-- A signal is one the guest has. -/
def Known : Ending → Prop
  | terminate _ => True
  | signalled signo _ => (QnxSigset.mapSigQnxToHost signo).isSome = true

/-- The host's `SIGABRT`, after a failed assertion or an exception that is not caught. -/
def aborted : Ending := signalled 6 true

end Ending

/-! ## Trees with endings -/

/-- A process tree, and how the zombies in it have ended. -/
structure Family where
  tree : ProcessTree
  ending : Int → Ending

namespace ProcessTree

/-- The process has ended and was not waited for. -/
def isZombie (t : ProcessTree) (h : Int) : Bool :=
  match t h with
  | some ⟨_, .zombie⟩ => true
  | _ => false

/-- The process that ends by an event, if it does what it should. -/
def Event.exits : Event → Option Int
  | .exit p => some p
  | _ => none

/-- The process that acts. -/
def Event.actor : Event → Option Int
  | .fork p _ => some p
  | .spawn p _ _ _ => some p
  | .exit p => some p
  | .wait p _ => some p
  | .reap _ => none

end ProcessTree

namespace Family

/-- An event. A process that ends without being asked to has been aborted. -/
def apply (F : Family) (e : ProcessTree.Event) (how : Ending) : Option Family :=
  (F.tree.apply e).map fun t =>
    ⟨t, fun h =>
      if t.isZombie h ∧ ¬ F.tree.isZombie h then (if e.exits = some h then how else .aborted) else F.ending h⟩

/-- An event in which `p` goes on and does not wait for `r`. -/
def Attends (p r : Int) (F F' : Family) : Prop :=
  ∃ e how, F.tree.SparesChildren e ∧ e ≠ .wait p r ∧ F.apply e how = some F' ∧ (F'.tree.member p).isSome = true

end Family

/-! ## Status words -/

theorem Ending.xstatus_terminate (status : BitVec 32) :
    xstatus (terminate status).hostStatus = (terminate status).report := by
  have hall : ∀ n < 256, xstatus (BitVec.ofNat 32 (256 * n)) = 256 * (n : Nat) := by decide +kernel
  have hword : (terminate status).hostStatus = BitVec.ofNat 32 (256 * (status.toNat % 256)) := by
    have hlow : status.toNat &&& (255 : BitVec 32).toNat = status.toNat % 256 :=
      Nat.and_two_pow_sub_one_eq_mod status.toNat 8
    apply BitVec.eq_of_toNat_eq
    simp only [hostStatus, BitVec.toNat_shiftLeft, BitVec.toNat_and, BitVec.toNat_ofNat, Nat.shiftLeft_eq, hlow]
    omega
  rw [hword, hall _ (Nat.mod_lt _ (by decide)), report]
  omega

theorem Ending.xstatus_signalled {signo : Nat} {core : Bool} (h : (signalled signo core).Known) :
    xstatus (signalled signo core).hostStatus = (signalled signo core).report := by
  have hall : ∀ x ∈ QnxSigset.sigMap, ∀ core : Bool,
      xstatus (BitVec.ofNat 32 (x.1 + if core then 0x80 else 0)) = x.2 := by decide
  obtain ⟨host, hhost⟩ := Option.isSome_iff_exists.1 h
  obtain ⟨x, hfind, rfl⟩ := Option.map_eq_some_iff.1 hhost
  have hsigno : x.2 = signo := by simpa using List.find?_some hfind
  rw [hostStatus, hhost, Option.getD_some, hall x (List.mem_of_find?_eq_some hfind) core, hsigno]
  rfl

/-- The reply reports how the child has ended. -/
theorem Ending.xstatus_hostStatus {how : Ending} (h : how.Known) : xstatus how.hostStatus = how.report := by
  cases how with
  | terminate status => exact xstatus_terminate status
  | signalled signo core => exact xstatus_signalled h

/-! ## What an event leaves alone -/

namespace ProcessTree

variable {t t' : ProcessTree} {e : Event} {p r h par x : Int} {m : Member} {life : Life} {q : HostProcess}

theorem die_apply (hx : t x = some ⟨par, life⟩) : (t.die p) x =
    some ⟨if par = p then 0 else par, if x = p then .zombie else life⟩ := by
  rw [die, setLife_apply]
  split_ifs with hp hpar hpar
  · subst hp
    simp [hx, hpar]
  · subst hp
    simp [hx, hpar]
  · simp [hx, hpar]
  · simp [hx, hpar]

theorem setLife_of_some {new : Life} (hx : t x = some ⟨par, life⟩) :
    (t.setLife p new) x = some ⟨par, if x = p then new else life⟩ := by
  rw [setLife_apply]
  split_ifs with hp
  · rw [← hp, hx]
    rfl
  · exact hx

theorem die_member (hm : t.member p = some m) : (t.die p).member p = none := by
  obtain ⟨parent, hp⟩ := member_eq_some.1 hm
  rw [member, die_apply hp, if_pos rfl]

/-- A birth, where the parent goes on or is ended by it. -/
theorem bear_cases {child : Member → Life} (hbear : t.bear p r child = some t') :
    ∃ m, t.member p = some m ∧ 0 < r ∧ t r = none ∧
      ((∃ s son, m.state.forkParent r = .ok (s, son) ∧
          t' = (t.put r (some ⟨p, child m⟩)).setLife p (.running ⟨s, r :: m.relatives⟩)) ∨
        (∃ err, m.state.forkParent r = .error err) ∧ t' = (t.put r (some ⟨p, child m⟩)).die p) := by
  unfold bear at hbear
  split at hbear
  · cases hbear
  next m hm =>
  split_ifs at hbear with hr
  refine ⟨m, hm, hr.1, Option.isNone_iff_eq_none.1 hr.2, ?_⟩
  dsimp only at hbear
  split at hbear
  · next s son hfork =>
      cases hbear
      exact .inl ⟨s, son, hfork, rfl⟩
  · next err hfork =>
      cases hbear
      exact .inr ⟨⟨err, hfork⟩, rfl⟩

/-- A wait, where the parent goes on or is ended by it. -/
theorem wait_cases (hwait : t.apply (.wait p h) = some t') :
    ∃ m, t.member p = some m ∧ t h = some ⟨p, .zombie⟩ ∧
      ((∃ s reply, m.state.wait h = .ok (s, reply) ∧
          t' = (t.put h none).setLife p (.running ⟨s, m.relatives.filter (· ≠ h)⟩)) ∨
        t' = (t.put h none).die p) := by
  unfold apply at hwait
  dsimp only at hwait
  split at hwait
  · next m q hm hh =>
      split_ifs at hwait with hq
      subst hq
      refine ⟨m, hm, hh, ?_⟩
      split at hwait
      · next s reply hok =>
          cases hwait
          exact .inl ⟨s, reply, hok, rfl⟩
      · cases hwait
        exact .inr rfl
  · cases hwait

theorem reap_cases (hreap : t.apply (.reap h) = some t') : t h = some ⟨0, .zombie⟩ ∧ t' = t.put h none := by
  unfold apply at hreap
  dsimp only at hreap
  split at hreap
  · next q hh =>
      split_ifs at hreap with hq
      cases hreap
      exact ⟨hq ▸ hh, rfl⟩
  · cases hreap

/-- What an event leaves of a process that is not gone afterwards: what it was, if it did not act itself, and its
parent, unless that has ended. -/
structure Kept (t : ProcessTree) (actor : Option Int) (x : Int) (q : HostProcess) : Prop where
  life : actor ≠ some x → ∃ parent, t x = some ⟨parent, q.life⟩
  parent : (actor = some q.parent → (t.member q.parent).isSome = true) → ∃ life, t x = some ⟨q.parent, life⟩

theorem Kept.setLife {new : Life} (hx : t x = some q) : Kept (t.setLife p new) (some p) x q where
  life hne := ⟨q.parent, by rw [setLife_of_some hx, if_neg fun heq => hne (congrArg some heq.symm)]⟩
  parent _ := ⟨_, setLife_of_some hx⟩

theorem Kept.die (hm : t.member p = some m) (hx : t x = some q) : Kept (t.die p) (some p) x q where
  life hne := ⟨_, by rw [die_apply hx, if_neg fun heq : x = p => hne (congrArg some heq.symm)]⟩
  parent hgoes := by
    by_cases hparent : q.parent = p
    · have hsome := hgoes (congrArg some hparent.symm)
      rw [hparent, die_member hm] at hsome
      cases hsome
    · exact ⟨_, by rw [die_apply hx, if_neg hparent]⟩

theorem member_put (new : Option HostProcess) (hm : t.member p = some m) (hne : p ≠ h) :
    (t.put h new).member p = some m := by
  rw [member, put_apply, if_neg hne]
  exact hm

/-- No event touches another process, but for taking over the children of one that ends. A zombie is gone after its
parent has waited for it, or the host. -/
theorem apply_kept (happly : t.apply e = some t') (hx : t x = some q)
    (hstays : q.life = .zombie → q.parent ≠ 0 ∧ e ≠ .wait q.parent x) : Kept t' e.actor x q := by
  have hborn : ∀ {p r child}, t.bear p r child = some t' → Kept t' (some p) x q := by
    intro p r child hbear
    obtain ⟨m, hm, -, hfree, hcases⟩ := bear_cases hbear
    have hxr : x ≠ r := by
      rintro rfl
      rw [hx] at hfree
      cases hfree
    have hput : (t.put r (some ⟨p, child m⟩)) x = some q := by rw [put_apply, if_neg hxr, hx]
    have hpr : p ≠ r := by
      rintro rfl
      obtain ⟨parent, hp⟩ := member_eq_some.1 hm
      rw [hp] at hfree
      cases hfree
    rcases hcases with ⟨s, son, -, rfl⟩ | ⟨-, rfl⟩
    · exact .setLife hput
    · exact .die (member_put _ hm hpr) hput
  cases e with
  | fork p r => exact hborn happly
  | spawn p r bits l => exact hborn happly
  | exit p =>
      obtain ⟨m, hm, rfl⟩ := Option.map_eq_some_iff.1 happly
      exact .die hm hx
  | wait p h =>
      obtain ⟨m, hm, hh, hcases⟩ := wait_cases happly
      have hxh : x ≠ h := by
        rintro rfl
        rw [hx] at hh
        cases hh
        exact (hstays rfl).2 rfl
      have hput : (t.put h none) x = some q := by rw [put_apply, if_neg hxh, hx]
      have hph : p ≠ h := by
        rintro rfl
        obtain ⟨parent, hp⟩ := member_eq_some.1 hm
        rw [hp] at hh
        cases hh
      rcases hcases with ⟨s, reply, -, rfl⟩ | rfl
      · exact .setLife hput
      · exact .die (member_put none hm hph) hput
  | reap h =>
      obtain ⟨hh, rfl⟩ := reap_cases happly
      have hxh : x ≠ h := by
        rintro rfl
        rw [hx] at hh
        cases hh
        exact (hstays rfl).1 rfl
      have hput : (t.put h none) x = some q := by rw [put_apply, if_neg hxh, hx]
      exact ⟨fun _ => ⟨q.parent, hput⟩, fun _ => ⟨q.life, hput⟩⟩

/-- Only a process that runs acts. -/
theorem actor_member (happly : t.apply e = some t') (hactor : e.actor = some p) : ∃ m, t.member p = some m := by
  cases e with
  | fork p' r =>
      cases hactor
      obtain ⟨m, hm, -⟩ := bear_cases happly
      exact ⟨m, hm⟩
  | spawn p' r bits l =>
      cases hactor
      obtain ⟨m, hm, -⟩ := bear_cases happly
      exact ⟨m, hm⟩
  | exit p' =>
      cases hactor
      obtain ⟨m, hm, -⟩ := Option.map_eq_some_iff.1 happly
      exact ⟨m, hm⟩
  | wait p' h =>
      cases hactor
      obtain ⟨m, hm, -⟩ := wait_cases happly
      exact ⟨m, hm⟩
  | reap h => cases hactor

/-- A process that does not act goes on as it was. -/
theorem member_apply (happly : t.apply e = some t') (hactor : e.actor ≠ some p) (hm : t.member p = some m) :
    t'.member p = some m := by
  obtain ⟨parent, hp⟩ := member_eq_some.1 hm
  obtain ⟨parent', hp'⟩ := (apply_kept happly hp (fun h => by cases h)).life hactor
  exact member_eq_some.2 ⟨parent', hp'⟩

/-- A child that its parent does not wait for is still there, and if it has ended it stays so. -/
theorem child_apply (happly : t.apply e = some t') (hwait : e ≠ .wait p r) (hp : p ≠ 0) (hr : t r = some ⟨p, life⟩)
    (hgoes : (t'.member p).isSome = true) :
    ∃ life', t' r = some ⟨p, life'⟩ ∧ (life = .zombie → life' = .zombie) := by
  have hkept := apply_kept happly hr fun _ => ⟨hp, hwait⟩
  obtain ⟨life', hr'⟩ := hkept.parent fun _ => hgoes
  refine ⟨life', hr', ?_⟩
  rintro rfl
  have hactor : e.actor ≠ some r := by
    intro hactor
    obtain ⟨m, hm⟩ := actor_member happly hactor
    rw [member, hr] at hm
    cases hm
  obtain ⟨parent, hzombie⟩ := hkept.life hactor
  rw [hr'] at hzombie
  cases hzombie
  rfl

end ProcessTree

/-! ## The pid of a child -/

namespace Member

variable {m : Member} {r son h : Int} {s : ProcessPids}

/-- The pid the process was told for a child it has not waited for. -/
structure Knows (m : Member) (r son : Int) : Prop where
  child : r ∈ m.state.children
  range : PidMap.startPid ≤ son ∧ son ≤ PidMap.lastPid
  entry : ∃ a, m.state.pids.host r = some a ∧ m.state.pids.qnx son = some ⟨a, ⟨.child, son, r⟩⟩

/-- Another child does not take the pid away. -/
theorem Knows.bears {r' son' : Int} (hk : m.Knows r son) (hr' : 0 < r') (hne : r' ≠ r)
    (hspares : m.state.pids.WrapsOntoTaken r' → ∀ node, m.state.pids.qnx PidMap.startPid = some node →
      node.pid.hostPid ∉ m.state.children)
    (hfork : m.state.forkParent r' = .ok (s, son')) : Knows ⟨s, r' :: m.relatives⟩ r son := by
  obtain ⟨⟨pids, a⟩, halloc, hfork⟩ := bind_eq_ok.mp hfork
  obtain ⟨pi, -, hfork⟩ := bind_eq_ok.mp hfork
  cases hfork
  obtain ⟨-, pid, hpid, halloc⟩ := PidMap.allocChildPid_ok (ProcessPids.mapError_eq_ok.mp halloc)
  obtain ⟨b, hhost, hnode⟩ := hk.entry
  have hson : son ≠ pid := by
    rintro rfl
    rcases PidMap.choosePid_fresh (by omega) hpid with hfree | ⟨hwraps, rfl⟩
    · rw [hfree] at hnode
      cases hnode
    · exact hspares hwraps _ hnode hk.child
  refine ⟨List.mem_cons_of_mem _ hk.child, hk.range, b, ?_, ?_⟩
  · rw [halloc.host, if_neg fun hx => hne hx.2.symm, hhost]
  · rw [halloc.qnx, if_neg hson, hnode]

/-- Waiting for another child does not take the pid away. -/
theorem Knows.waits {reply : Int} (hs : m.Sound) (hk : m.Knows r son) (hc : h ∈ m.state.children) (hne : h ≠ r)
    (hwait : m.state.wait h = .ok (s, reply)) : Knows ⟨s, m.relatives.filter (· ≠ h)⟩ r son := by
  obtain ⟨hpos, k, a, hhost, hqnx⟩ := hs.children h hc
  obtain ⟨b, hhostr, hnode⟩ := hk.entry
  unfold ProcessPids.wait at hwait
  dsimp only at hwait
  rw [hhost] at hwait
  obtain ⟨pi, hderef, hwait⟩ := bind_eq_ok.mp hwait
  cases hwait
  obtain ⟨k', hk'⟩ := PidMap.deref_ok hderef
  obtain rfl := hs.apart.addr_inj k k' _ _ hqnx hk' rfl
  rw [hqnx] at hk'
  cases hk'
  refine ⟨List.mem_filter.2 ⟨hk.child, decide_eq_true fun heq => hne heq.symm⟩, hk.range, b, ?_, ?_⟩
  · show (m.state.pids.freePid ⟨a, ⟨.child, k, h⟩⟩).host r = some b
    rw [PidMap.host_freeChild ⟨hpos, rfl⟩, if_neg fun heq => hne heq.symm, hhostr]
  · show (m.state.pids.freePid ⟨a, ⟨.child, k, h⟩⟩).qnx son = _
    rw [PidMap.qnx_freePid, if_neg, hnode]
    rintro rfl
    rw [hqnx] at hnode
    cases hnode
    exact hne rfl

end Member

/-! ## From the fork to the wait -/

namespace Family

variable {F F' : Family} {p r son : Int}

/-- The parent has the pid of its child. -/
structure Attended (F : Family) (p r son : Int) : Prop where
  sound : F.tree.Sound
  ne : p ≠ r
  member : ∃ m, F.tree.member p = some m ∧ m.Knows r son
  child : ∃ life, F.tree r = some ⟨p, life⟩

theorem Attended.pos (h : F.Attended p r son) : 0 < p := by
  obtain ⟨m, hm, -⟩ := h.member
  obtain ⟨parent, hp⟩ := ProcessTree.member_eq_some.1 hm
  exact h.sound.pos p (by rw [hp]; rfl)

theorem Attended.child_pos (h : F.Attended p r son) : 0 < r := by
  obtain ⟨life, hr⟩ := h.child
  exact h.sound.pos r (by rw [hr]; rfl)

theorem apply_tree {e : ProcessTree.Event} {how : Ending} (h : F.apply e how = some F') :
    F.tree.apply e = some F'.tree := by
  obtain ⟨t, ht, rfl⟩ := Option.map_eq_some_iff.1 h
  exact ht

/-- The member that acts keeps what it knows. -/
theorem Attended.member_step {t : ProcessTree} {e : ProcessTree.Event} (h : F.Attended p r son)
    (hspares : F.tree.SparesChildren e) (hwait : e ≠ .wait p r) (happly : F.tree.apply e = some t)
    (hgoes : (t.member p).isSome = true) : ∃ m, t.member p = some m ∧ m.Knows r son := by
  obtain ⟨m, hm, hk⟩ := h.member
  obtain ⟨parent, hp⟩ := ProcessTree.member_eq_some.1 hm
  obtain ⟨life, hr⟩ := h.child
  by_cases hactor : e.actor = some p
  swap
  · exact ⟨m, ProcessTree.member_apply happly hactor hm, hk⟩
  have hgone : ∀ {t' : ProcessTree}, t'.member p = some m → t = t'.die p → False := by
    rintro t' hm' rfl
    rw [ProcessTree.die_member hm'] at hgoes
    cases hgoes
  have hnew : ∀ {t' : ProcessTree} {m' : Member}, t'.member p = some m → t = t'.setLife p (.running m') →
      t.member p = some m' := by
    rintro t' m' hm' rfl
    obtain ⟨parent', hp'⟩ := ProcessTree.member_eq_some.1 hm'
    exact ProcessTree.member_eq_some.2 ⟨parent', by rw [ProcessTree.setLife_of_some hp', if_pos rfl]⟩
  have hborn : ∀ {r' child}, F.tree.bear p r' child = some t →
      (m.state.pids.WrapsOntoTaken r' → ∀ node, m.state.pids.qnx PidMap.startPid = some node →
        node.pid.hostPid ∉ m.state.children) → ∃ m, t.member p = some m ∧ m.Knows r son := by
    intro r' child hbear hspares
    obtain ⟨m', hm', hpos, hfree, hcases⟩ := ProcessTree.bear_cases hbear
    rw [hm] at hm'
    cases hm'
    have hpr' : p ≠ r' := by
      rintro rfl
      rw [hp] at hfree
      cases hfree
    have hne : r' ≠ r := by
      rintro rfl
      rw [hr] at hfree
      cases hfree
    have hput := ProcessTree.member_put (some ⟨p, child m⟩) hm hpr'
    rcases hcases with ⟨s, son', hfork, ht⟩ | ⟨-, ht⟩
    · exact ⟨_, hnew hput ht, hk.bears hpos hne hspares hfork⟩
    · exact absurd ht fun ht => hgone hput ht
  cases e with
  | fork p' r' =>
      cases hactor
      exact hborn happly (hspares m hm)
  | spawn p' r' bits l =>
      cases hactor
      exact hborn happly (hspares m hm)
  | exit p' =>
      cases hactor
      obtain ⟨-, -, ht⟩ := Option.map_eq_some_iff.1 happly
      exact absurd ht.symm fun ht => hgone hm ht
  | wait p' h' =>
      cases hactor
      obtain ⟨m', hm', hh', hcases⟩ := ProcessTree.wait_cases happly
      rw [hm] at hm'
      cases hm'
      have hne : h' ≠ r := by
        rintro rfl
        exact hwait rfl
      have hph' : p ≠ h' := by
        rintro rfl
        rw [hp] at hh'
        cases hh'
      have hchild : h' ∈ m.state.children := by
        obtain ⟨m', hm', hchild⟩ := h.sound.parent h' _ hh' (Int.ne_of_gt h.pos)
        rw [hm] at hm'
        cases hm'
        exact hchild
      have hput := ProcessTree.member_put none hm hph'
      rcases hcases with ⟨s, reply, hok, ht⟩ | ht
      · exact ⟨_, hnew hput ht, hk.waits (h.sound.member p m hm) hchild hne hok⟩
      · exact absurd ht fun ht => hgone hput ht
  | reap h' => cases hactor

theorem Attended.step (h : F.Attended p r son) (hstep : Attends p r F F') : F'.Attended p r son := by
  obtain ⟨e, how, hspares, hwait, happly, hgoes⟩ := hstep
  have htree := apply_tree happly
  obtain ⟨life, hr⟩ := h.child
  obtain ⟨life', hr', -⟩ := ProcessTree.child_apply htree hwait (Int.ne_of_gt h.pos) hr hgoes
  exact ⟨h.sound.step ⟨e, hspares, htree⟩, h.ne, h.member_step hspares hwait htree hgoes, life', hr'⟩

theorem Attended.run (h : F.Attended p r son) (hrun : Relation.ReflTransGen (Attends p r) F F') :
    F'.Attended p r son := by
  induction hrun with
  | refl => exact h
  | tail _ hstep ih => exact ih.step hstep

/-- The child has ended like this. -/
structure Ended (F : Family) (p r : Int) (how : Ending) : Prop where
  zombie : F.tree r = some ⟨p, .zombie⟩
  ending : F.ending r = how

theorem isZombie_iff {t : ProcessTree} {h : Int} : t.isZombie h = true ↔ ∃ q, t h = some ⟨q, .zombie⟩ := by
  unfold ProcessTree.isZombie
  split
  · next q heq => simp [heq]
  · next hne =>
      refine iff_of_false nofun ?_
      rintro ⟨q, heq⟩
      exact hne q heq

theorem Ended.step {how : Ending} (h : F.Attended p r son) (hended : F.Ended p r how) (hstep : Attends p r F F') :
    F'.Ended p r how := by
  obtain ⟨e, how', -, hwait, happly, hgoes⟩ := hstep
  obtain ⟨life', hr', hzombie⟩ :=
    ProcessTree.child_apply (apply_tree happly) hwait (Int.ne_of_gt h.pos) hended.zombie hgoes
  refine ⟨hzombie rfl ▸ hr', ?_⟩
  obtain ⟨t, -, rfl⟩ := Option.map_eq_some_iff.1 happly
  have hbefore : F.tree.isZombie r = true := isZombie_iff.2 ⟨p, hended.zombie⟩
  exact (if_neg fun hnew => hnew.2 hbefore).trans hended.ending

theorem Ended.run {how : Ending} (h : F.Attended p r son) (hended : F.Ended p r how)
    (hrun : Relation.ReflTransGen (Attends p r) F F') : F'.Ended p r how := by
  induction hrun with
  | refl => exact hended
  | tail hrun hstep ih => exact ih.step (h.run hrun) hstep

/-- The child ends. -/
theorem Attended.exit {how : Ending} (h : F.Attended p r son) (hexit : F.apply (.exit r) how = some F') :
    Attends p r F F' ∧ F'.Ended p r how := by
  have htree := apply_tree hexit
  obtain ⟨m, hm, -⟩ := h.member
  obtain ⟨life, hr⟩ := h.child
  have hactor : ProcessTree.Event.actor (.exit r) ≠ some p := fun heq => h.ne (Option.some.inj heq).symm
  have hm' := ProcessTree.member_apply htree hactor hm
  refine ⟨⟨.exit r, how, trivial, nofun, hexit, by rw [hm']; rfl⟩, ?_⟩
  obtain ⟨t, ht, rfl⟩ := Option.map_eq_some_iff.1 hexit
  obtain ⟨mr, hmr, rfl⟩ := Option.map_eq_some_iff.1 ht
  have hdead : (F.tree.die r) r = some ⟨p, .zombie⟩ := by
    rw [ProcessTree.die_apply hr, if_neg h.ne, if_pos rfl]
  refine ⟨hdead, if_pos ⟨isZombie_iff.2 ⟨p, hdead⟩, fun hbefore => ?_⟩ |>.trans (if_pos rfl)⟩
  obtain ⟨q, hq⟩ := isZombie_iff.1 hbefore
  rw [ProcessTree.member, hq] at hmr
  cases hmr

/-! ## The reply -/

/-- What a process gets from `waitpid`: zombies of its own, and how they have ended. -/
structure Answers (F : Family) (p : Int) (host : PidHost) : Prop where
  child : ∀ r nohang, F.tree r = some ⟨p, .zombie⟩ → (host.answer (.waitpid r nohang)).result = r
  status : ∀ c, 0 < (host.answer c).result → host.status c = (F.ending (host.answer c).result).hostStatus

/-- Whatever the parent has waited for, when the host names the child the reply does too, and the pid is given
up. -/
theorem Attended.waited {how : Ending} {host : PidHost} {m : Member} (h : F.Attended p r son)
    (hended : F.Ended p r how) (hknown : how.Known) (hhost : F.Answers p host) (hm : F.tree.member p = some m)
    {c : PidCall} (hc : (host.answer c).result = r) (cs : List PidCall) :
    ∃ pids, (MainHandler.waited host c (host.answer c)).run ⟨m.state.pids, cs⟩ =
      .ok (.full qeok son how.report) ⟨pids, cs⟩ ∧ pids.host r = none := by
  obtain ⟨m', hm', hk⟩ := h.member
  rw [hm] at hm'
  cases hm'
  obtain ⟨a, hhostr, hnode⟩ := hk.entry
  have hpos := h.child_pos
  have hapart := (h.sound.member p m hm).apart
  obtain ⟨pi, hderef⟩ := PidMap.deref_ok_iff.2 ⟨son, _, hnode, rfl⟩
  obtain ⟨k, hk'⟩ := PidMap.deref_ok hderef
  obtain rfl := hapart.addr_inj k son _ _ hk' hnode rfl
  rw [hnode] at hk'
  cases hk'
  have hstatus : xstatus (host.status c) = how.report := by
    rw [hhost.status c (by rw [hc]; exact hpos), hc, hended.ending, Ending.xstatus_hostStatus hknown]
  refine ⟨m.state.pids.freePid ⟨a, ⟨.child, k, r⟩⟩, ?_, ?_⟩
  · unfold MainHandler.waited
    rw [if_neg (by omega), if_neg (by omega), EStateM.run_get_bind]
    dsimp only
    rw [hc, hhostr]
    dsimp only
    rw [hderef, hstatus]
    rfl
  · rw [PidMap.host_freeChild ⟨hpos, rfl⟩, if_pos rfl]

end Family

namespace Family

/-- A host that has the processes of the tree to wait for. -/
def kernel (F : Family) (p : Int) : PidHost where
  answer
    | .waitpid r _ =>
      match F.tree r with
      | some ⟨q, .zombie⟩ => if q = p then ⟨r, 0⟩ else ⟨-1, 10⟩
      | _ => ⟨-1, 10⟩
    | _ => ⟨-1, 38⟩
  status
    | .waitpid r _ => (F.ending r).hostStatus
    | _ => 0

/-- The family after an event, if it can happen. -/
def after (F : Family) (e : ProcessTree.Event) (how : Ending) : Family := (F.apply e how).getD F

end Family

end Qine

import Qine.Pid.Invariant

/-!
# Process ids across `fork`

Parent and child never talk about the child's QNX pid: the parent enters the new host pid into its map
as a child (`proc_fork`), and the child enters it into its copy as itself (`update_pids_after_fork`).
Both searches start from the same map, so both find the same pid (`fork_agrees_of_run`).

A process knows itself and its parent through pointers into the map. They stay valid as long as no
allocation wraps around onto a taken `m_start_pid` (see `Qine.Pid.Alloc`): an entry taken over in this
way is freed with the child it was given to, and if it is the process's own one, `m_my_pid` leads
nowhere. And `update_pids_after_fork` writes through `m_magic`, which only 32-bit processes have.
-/

namespace Qine

/-- What goes wrong in `PidMap`, or a pointer that leads nowhere is followed. -/
inductive ForkError where
  | pids (e : PidError)
  | wildPointer
  deriving DecidableEq, Repr

/-- The fields of `Qnx::Magic` that tell the guest who it is. -/
structure Magic where
  myPid : Int
  dadsPid : Int
  myNid : Int
  deriving DecidableEq, Repr

/-- The part of `Process` that knows about pids, and the host's view of the process. -/
structure ProcessPids where
  pids : PidMap
  /-- `m_my_pid` -/
  myPid : Option Nat
  /-- `m_parent_pid` -/
  parentPid : Option Nat
  /-- what `m_magic` points to, if it has been set -/
  magic : Option Magic
  /-- the host pids `waitpid` can return -/
  children : List Int

/-- `QnxPid::PID_UNKNOWN`. -/
def pidUnknown : Int := 2

/-- `Process::nid`. -/
def nid : Int := 1

/-- Follow a pointer to an entry. -/
def PidMap.deref (s : PidMap) (a : Option Nat) : Except ForkError QnxPid :=
  match s.qnxMap.toList.find? (fun x => some x.2.addr == a) with
  | some x => .ok x.2.pid
  | none => .error .wildPointer

namespace ProcessPids

/-- `Process::pid`. -/
def pid (s : ProcessPids) : Except ForkError Int := QnxPid.qnxPid <$> s.pids.deref s.myPid

/-- `Process::parent_pid`. -/
def dadsPid (s : ProcessPids) : Except ForkError Int := QnxPid.qnxPid <$> s.pids.deref s.parentPid

/-- `Process::initialize_pids` up to the calls for sessions and groups, which are steps below, and what
`setup_magic` leaves. `setup_magic16` sets `m_magic16` instead. -/
def initializePids (bits : Bitness) (self ppid : Int) (children : List Int) :
    Except ForkError ProcessPids := do
  let (pids, parent) ← (PidMap.reserved.allocRelatedPid ppid .rootParent).mapError .pids
  let (pids, my) ← (pids.allocRelatedPid self .self).mapError .pids
  let s : ProcessPids := ⟨pids, my, parent, none, children⟩
  match bits with
  | .b16 => return s
  | .b32 => return { s with magic := some ⟨← s.pid, ← s.dadsPid, nid⟩ }

/-- `MainHandler::proc_fork` in the parent, and `proc_spawn`: the pid in the reply too. -/
def forkParent (s : ProcessPids) (r : Int) : Except ForkError (ProcessPids × Int) := do
  let (pids, pi) ← (s.pids.allocChildPid r).mapError .pids
  let son ← pids.deref (some pi)
  return ({ s with pids := pids, children := r :: s.children }, son.qnxPid)

/-- `Process::update_pids_after_fork`. -/
def updatePidsAfterFork (s : ProcessPids) (newPid : Int) : Except ForkError ProcessPids := do
  let (pids, my) ← (s.pids.allocRelatedPid newPid .self).mapError .pids
  let s := { s with pids := pids, parentPid := s.myPid, myPid := my }
  match s.magic with
  | none => throw .wildPointer
  | some _ => return { s with magic := some ⟨← s.pid, ← s.dadsPid, nid⟩ }

/-- `MainHandler::proc_fork` in the child. -/
def forkChild (s : ProcessPids) (r : Int) : Except ForkError ProcessPids := do
  let s ← s.updatePidsAfterFork r
  return { s with children := [] }

/-- `MainHandler::proc_wait`, after `waitpid` has returned `h`: the pid in the reply too. -/
def wait (s : ProcessPids) (h : Int) : Except ForkError (ProcessPids × Int) :=
  let s := { s with children := s.children.filter (· ≠ h) }
  match s.pids.host h with
  | none => return (s, pidUnknown)
  | some a => do
    let pi ← s.pids.deref (some a)
    return ({ s with pids := s.pids.freePid ⟨a, pi⟩ }, pi.qnxPid)

/-! ## Runs -/

/-- What a process can do to its pids. After `forked` it is the child that goes on. -/
inductive Op where
  | related (hostPid : Int) (type : PidType)
  | fork (r : Int)
  | forked (r : Int)
  | wait (h : Int)
  deriving DecidableEq, Repr

/-- The host forks processes the map does not know yet, and `waitpid` returns children. -/
def Op.Valid (s : ProcessPids) : Op → Prop
  | .related hostPid _ => -1 ≤ hostPid
  | .fork r | .forked r => 0 < r ∧ s.pids.host r = none
  | .wait h => h ∈ s.children

/-- The allocation the call makes, if any, does not wrap around onto a taken `m_start_pid`. -/
def Op.NoWrap (s : ProcessPids) : Op → Prop
  | .related hostPid _ => s.pids.host hostPid = none → ¬ s.pids.WrapsOntoTaken hostPid
  | .fork r | .forked r => ¬ s.pids.WrapsOntoTaken r
  | .wait _ => True

/-- One call. -/
def apply (s : ProcessPids) : Op → Except ForkError ProcessPids
  | .related hostPid type => do
    let (pids, _) ← (s.pids.allocRelatedPid hostPid type).mapError .pids
    return { s with pids := pids }
  | .fork r => Prod.fst <$> s.forkParent r
  | .forked r => s.forkChild r
  | .wait h => Prod.fst <$> s.wait h

/-- A call that succeeds, under a condition. -/
def Step (cond : ProcessPids → Op → Prop) (s s' : ProcessPids) : Prop :=
  ∃ op : Op, op.Valid s ∧ cond s op ∧ s.apply op = .ok s'

end ProcessPids

/-! ## Pointers to entries -/

namespace PidMap

variable {s s' : PidMap} {a addr : Nat} {k pid hostPid : Int} {type : PidType}

/-- The pointer `a` leads to the entry under the key `k`. -/
def At (s : PidMap) (a : Nat) (k : Int) : Prop := ∃ node, s.qnx k = some node ∧ node.addr = a

theorem deref_ok {pi : QnxPid} (h : s.deref (some a) = .ok pi) : ∃ k, s.qnx k = some ⟨a, pi⟩ := by
  unfold deref at h
  split at h
  · next x hx =>
      cases h
      have haddr : x.2.addr = a := by simpa using List.find?_some hx
      refine ⟨x.1, ?_⟩
      rw [← haddr]
      exact Std.TreeMap.mem_toList_iff_getElem?_eq_some.1 (List.mem_of_find?_eq_some hx)
  · cases h

theorem At.deref (h : s.At a k) (hs : s.Apart) : QnxPid.qnxPid <$> s.deref (some a) = .ok k := by
  obtain ⟨node, hnode, rfl⟩ := h
  cases hderef : s.deref (some node.addr) with
  | error e =>
      have hmem : (k, node) ∈ s.qnxMap.toList := Std.TreeMap.mem_toList_iff_getElem?_eq_some.2 hnode
      unfold PidMap.deref at hderef
      split at hderef
      · cases hderef
      · next hnone => exact absurd (beq_self_eq_true _) (List.find?_eq_none.1 hnone _ hmem)
  | ok pi =>
      obtain ⟨k', hk'⟩ := deref_ok hderef
      obtain rfl := hs.addr_inj k' k _ _ hk' hnode rfl
      show Except.ok pi.qnxPid = Except.ok k'
      rw [← hs.key k' _ hk']

/-- No allocation moves an entry. -/
theorem At.allocates (h : s.At a k) (halloc : Allocates s s' pid addr type hostPid) : s'.At a k := by
  obtain ⟨node, hnode, rfl⟩ := h
  by_cases hk : k = pid
  · subst hk
    refine ⟨_, by rw [halloc.qnx, if_pos rfl], ?_⟩
    rcases halloc.node with ⟨hnone, -, -⟩ | ⟨node', hnode', haddr, -⟩
    · rw [hnone] at hnode
      cases hnode
    · rw [hnode'] at hnode
      cases hnode
      exact haddr
  · exact ⟨node, by rw [halloc.qnx, if_neg hk, hnode], rfl⟩

theorem At.free {node : PidNode} (h : s.At a k) (hs : s.Apart) (hnode : s.qnx pid = some node)
    (hne : node.addr ≠ a) : (s.freePid node).At a k := by
  obtain ⟨mine, hmine, rfl⟩ := h
  refine ⟨mine, ?_, rfl⟩
  rw [qnx_freePid, hs.key pid node hnode, if_neg, hmine]
  rintro rfl
  rw [hnode] at hmine
  cases hmine
  exact hne rfl

/-- An allocation that does not wrap around onto a taken pid makes a new entry. -/
theorem Allocates.fresh (halloc : Allocates s s' pid addr type hostPid) (hhost : -1 ≤ hostPid)
    (hpid : s.choosePid hostPid = .ok pid) (hwrap : ¬ s.WrapsOntoTaken hostPid) :
    addr = s.nextAddr := by
  rcases halloc.node with ⟨-, haddr, -⟩ | ⟨node, hnode, -, -⟩
  · exact haddr
  · rcases choosePid_fresh hhost hpid with hnone | ⟨hwraps, -⟩
    · rw [hnone] at hnode
      cases hnode
    · exact absurd hwraps hwrap

/-- The search fails only if there is no pid left. -/
theorem choosePid_error {e : PidError} (hhost : -1 ≤ hostPid) (h : s.choosePid hostPid = .error e) :
    e = .pidMapFull ∧ s.Full := by
  by_cases hwraps : s.WrapsOntoTaken hostPid
  · rw [choosePid_of_wraps hwraps] at h
    cases h
  · rcases choosePid_of_not_wraps hhost hwraps with ⟨pid, hpid, -⟩ | ⟨hpid, hfull⟩
    · rw [hpid] at h
      cases h
    · rw [hpid] at h
      cases h
      exact ⟨rfl, hfull⟩

end PidMap

namespace ProcessPids

variable {s s' : ProcessPids} {pids : PidMap} {pid r : Int} {addr : Nat} {type : PidType}

/-- The process's own entry and that of its parent are there, and not under the host pid of a child. -/
structure Inv (s : ProcessPids) : Prop where
  apart : s.pids.Apart
  reverse_lt : ∀ h a, s.pids.host h = some a → a < s.pids.nextAddr
  my : ∃ a k, s.myPid = some a ∧ s.pids.At a k
  parent : ∃ a k, s.parentPid = some a ∧ s.pids.At a k
  kept : ∀ h ∈ s.children, s.pids.host h ≠ s.myPid ∧ s.pids.host h ≠ s.parentPid
  magic : s.magic.isSome

theorem reverse_lt_allocates (hs : s.pids.Apart)
    (hlt : ∀ h a, s.pids.host h = some a → a < s.pids.nextAddr)
    (halloc : PidMap.Allocates s.pids pids pid addr type r) :
    ∀ h a, pids.host h = some a → a < pids.nextAddr := by
  intro h a ha
  have hnext := halloc.addr_lt hs
  rw [halloc.host] at ha
  split at ha
  · cases ha
    exact hnext.1
  · exact Nat.lt_of_lt_of_le (hlt h a ha) hnext.2

/-- A new entry for a relative or a child. -/
theorem Inv.allocated {children : List Int} (h : s.Inv)
    (halloc : PidMap.Allocates s.pids pids pid addr type r) (hfresh : addr = s.pids.nextAddr)
    (hr : 0 ≤ r) (hchildren : ∀ c ∈ children, c = r ∨ c ∈ s.children) :
    Inv { s with pids := pids, children := children } := by
  obtain ⟨a, k, hmy, hat⟩ := h.my
  obtain ⟨a', k', hparent, hat'⟩ := h.parent
  have hlt : ∀ {a k}, s.pids.At a k → addr ≠ a := by
    rintro a k ⟨node, hnode, rfl⟩
    have := h.apart.addr_lt k node hnode
    omega
  refine ⟨h.apart.allocates halloc, reverse_lt_allocates h.apart h.reverse_lt halloc,
    ⟨a, k, hmy, hat.allocates halloc⟩, ⟨a', k', hparent, hat'.allocates halloc⟩, ?_, h.magic⟩
  intro c hc
  show pids.host c ≠ s.myPid ∧ pids.host c ≠ s.parentPid
  rw [halloc.host]
  split
  · rw [hmy, hparent]
    exact ⟨fun heq => hlt hat (Option.some.inj heq), fun heq => hlt hat' (Option.some.inj heq)⟩
  · next hne =>
      exact h.kept c ((hchildren c hc).resolve_left fun heq => hne ⟨hr, heq⟩)

/-- The child takes over the parent's entry for its parent. -/
theorem Inv.forked {magic : Magic} (h : s.Inv)
    (halloc : PidMap.Allocates s.pids pids pid addr type r) :
    Inv ⟨pids, some addr, s.myPid, some magic, []⟩ := by
  obtain ⟨a, k, hmy, hat⟩ := h.my
  have hnew : pids.At addr pid := ⟨_, by rw [halloc.qnx, if_pos rfl], rfl⟩
  exact ⟨h.apart.allocates halloc, reverse_lt_allocates h.apart h.reverse_lt halloc,
    ⟨addr, pid, rfl, hnew⟩, ⟨a, k, hmy, hat.allocates halloc⟩, fun c hc => absurd hc List.not_mem_nil, rfl⟩

/-- What a child leaves when it is waited for. -/
theorem Inv.freed {h : Int} {a : Nat} {pi : QnxPid} (hs : s.Inv) (hchild : h ∈ s.children)
    (hhost : s.pids.host h = some a) (hderef : s.pids.deref (some a) = .ok pi) :
    Inv { s with
      pids := s.pids.freePid ⟨a, pi⟩
      children := s.children.filter (· ≠ h) } := by
  obtain ⟨key, hnode⟩ := PidMap.deref_ok hderef
  obtain ⟨m, k, hmy, hat⟩ := hs.my
  obtain ⟨m', k', hparent, hat'⟩ := hs.parent
  have hkept := hs.kept h hchild
  rw [hhost, hmy, hparent] at hkept
  refine ⟨hs.apart.free _, ?_, ⟨m, k, hmy, ?_⟩, ⟨m', k', hparent, ?_⟩, ?_, hs.magic⟩
  · intro h' a' ha'
    exact hs.reverse_lt h' a' (PidMap.host_of_freePid ha')
  · exact hat.free hs.apart hnode fun heq => hkept.1 (congrArg some heq)
  · exact hat'.free hs.apart hnode fun heq => hkept.2 (congrArg some heq)
  · intro c hc
    have hc := hs.kept c (List.mem_of_mem_filter hc)
    refine ⟨fun heq => hc.1 ?_, fun heq => hc.2 ?_⟩
    · rw [hmy] at heq ⊢
      exact PidMap.host_of_freePid heq
    · rw [hparent] at heq ⊢
      exact PidMap.host_of_freePid heq

/-! ## Both sides of a fork -/

theorem mapError_eq_ok {α ε ε' : Type} {x : Except ε α} {f : ε → ε'} {a : α} :
    x.mapError f = .ok a ↔ x = .ok a := by
  cases x with
  | error e => simp [Except.mapError]
  | ok b => simp [Except.mapError]

/-- The process's ids, once its invariant holds. -/
theorem Inv.ids (h : s.Inv) : ∃ a b k k', s.myPid = some a ∧ s.parentPid = some b ∧
    s.pids.At a k ∧ s.pids.At b k' ∧ s.pid = .ok k ∧ s.dadsPid = .ok k' := by
  obtain ⟨a, k, hmy, hat⟩ := h.my
  obtain ⟨b, k', hparent, hat'⟩ := h.parent
  refine ⟨a, b, k, k', hmy, hparent, hat, hat', ?_, ?_⟩
  · rw [pid, hmy]
    exact hat.deref h.apart
  · rw [dadsPid, hparent]
    exact hat'.deref h.apart

/-- The two allocations of a fork are one search. -/
theorem fork_allocations (s : PidMap) {r : Int} (hr : 0 < r) (hnew : s.host r = none) :
    (∃ pid addr p c, s.allocChildPid r = .ok (p, addr) ∧
        s.allocRelatedPid r .self = .ok (c, some addr) ∧ PidMap.Allocates s p pid addr .child r ∧
        PidMap.Allocates s c pid addr .self r) ∨
      (s.Full ∧ s.allocChildPid r = .error .pidMapFull ∧
        s.allocRelatedPid r .self = .error .pidMapFull) := by
  have hrev : ¬ (r ≥ 0 ∧ s.reverseMap.contains r = true) := by
    rintro ⟨-, hc⟩
    have hmem := Std.TreeMap.mem_iff_contains.2 hc
    rw [Std.TreeMap.mem_iff_isSome_getElem?] at hmem
    rw [show s.reverseMap[r]? = none from hnew] at hmem
    cases hmem
  have hself : ¬¬ (PidType.self = .pgid ∨ PidType.self = .sid ∨ PidType.self = .self ∨
      PidType.self = .rootParent) := by decide
  unfold PidMap.allocChildPid PidMap.allocRelatedPid PidMap.allocEmpty
  rw [if_neg hrev, if_neg hself, if_neg (by omega), show s.reverseMap[r]? = none from hnew]
  cases hpid : s.choosePid r with
  | error e =>
      obtain ⟨rfl, hfull⟩ := PidMap.choosePid_error (by omega) hpid
      exact .inr ⟨hfull, rfl, rfl⟩
  | ok pid =>
      have hchild := s.allocates_createEmpty pid r .child
      have hrelated := s.allocates_createEmpty pid r .self
      rw [if_pos (by omega)] at hchild hrelated
      refine .inl ⟨pid, (s.createEmpty pid).2, _, _, ?_, rfl, hchild, hrelated⟩
      show Except.ok _ = Except.ok _
      rw [if_pos (by omega)]
      rfl

theorem forkParent_eq (hchild : s.pids.allocChildPid r = .ok (pids, addr))
    (hson : QnxPid.qnxPid <$> pids.deref (some addr) = .ok pid) :
    s.forkParent r = .ok ({ s with pids := pids, children := r :: s.children }, pid) := by
  cases hderef : pids.deref (some addr) with
  | error e =>
      rw [hderef] at hson
      cases hson
  | ok pi =>
      rw [hderef] at hson
      cases hson
      rw [forkParent, hchild]
      show (pids.deref (some addr) >>= fun son => _) = _
      rw [hderef]
      rfl

theorem updatePidsAfterFork_eq {my : Option Nat} {dad : Int} {magic : Magic}
    (hrelated : s.pids.allocRelatedPid r .self = .ok (pids, my)) (hmagic : s.magic = some magic)
    (hpid : QnxPid.qnxPid <$> pids.deref my = .ok pid)
    (hdad : QnxPid.qnxPid <$> pids.deref s.myPid = .ok dad) :
    s.updatePidsAfterFork r =
      .ok { s with
        pids := pids, parentPid := s.myPid, myPid := my, magic := some ⟨pid, dad, nid⟩ } := by
  simp only [updatePidsAfterFork, hrelated, hmagic, ProcessPids.pid, dadsPid, Except.mapError, bind,
    Except.bind, hpid, hdad]
  rfl

/-- Parent and child agree about who they are, unless there is no pid left for the child. -/
def Agrees (s : ProcessPids) (r : Int) : Prop :=
  (∃ p son c me, s.forkParent r = .ok (p, son) ∧ s.forkChild r = .ok c ∧ c.pid = .ok son ∧
      s.pid = .ok me ∧ p.pid = .ok me ∧ c.dadsPid = .ok me ∧ c.magic = some ⟨son, me, nid⟩) ∨
    (s.pids.Full ∧ s.forkParent r = .error (.pids .pidMapFull) ∧
      s.forkChild r = .error (.pids .pidMapFull))

theorem Inv.agrees (h : s.Inv) (hr : 0 < r) (hnew : s.pids.host r = none) : s.Agrees r := by
  obtain ⟨a, b, me, dad, hmy, hparent, hat, hat', hme, hdad⟩ := h.ids
  rcases fork_allocations s.pids hr hnew with
    ⟨pid, addr, p, c, hchild, hrelated, hallocp, hallocc⟩ | ⟨hfull, hchild, hrelated⟩
  · have hson : QnxPid.qnxPid <$> p.deref (some addr) = .ok pid :=
      PidMap.At.deref ⟨_, by rw [hallocp.qnx, if_pos rfl], rfl⟩ (h.apart.allocates hallocp)
    have hself : QnxPid.qnxPid <$> c.deref (some addr) = .ok pid :=
      PidMap.At.deref ⟨_, by rw [hallocc.qnx, if_pos rfl], rfl⟩ (h.apart.allocates hallocc)
    have hdads : QnxPid.qnxPid <$> c.deref s.myPid = .ok me := by
      rw [hmy]
      exact (hat.allocates hallocc).deref (h.apart.allocates hallocc)
    have hkeeps : QnxPid.qnxPid <$> p.deref s.myPid = .ok me := by
      rw [hmy]
      exact (hat.allocates hallocp).deref (h.apart.allocates hallocp)
    obtain ⟨magic, hmagic⟩ := Option.isSome_iff_exists.mp h.magic
    refine .inl ⟨{ s with pids := p, children := r :: s.children }, pid,
      ⟨c, some addr, s.myPid, some ⟨pid, me, nid⟩, []⟩, me, ?_, ?_, hself, hme, hkeeps, hdads, rfl⟩
    · exact forkParent_eq hchild hson
    · rw [forkChild, updatePidsAfterFork_eq hrelated hmagic hself hdads]
      rfl
  · refine .inr ⟨hfull, ?_, ?_⟩
    · rw [forkParent, hchild]
      rfl
    · rw [forkChild, updatePidsAfterFork, hrelated]
      rfl

/-! ## Along a run -/

/-- The process is known under the same ids. -/
def SameIds (s s' : ProcessPids) : Prop := s'.pid = s.pid ∧ s'.dadsPid = s.dadsPid

theorem Inv.sameIds (h : s.Inv) (h' : s'.Inv) (hmy : s'.myPid = s.myPid)
    (hparent : s'.parentPid = s.parentPid)
    (hat : ∀ a k, s.myPid = some a ∨ s.parentPid = some a → s.pids.At a k → s'.pids.At a k) :
    SameIds s s' := by
  obtain ⟨a, b, me, dad, ha, hb, hata, hatb, hme, hdad⟩ := h.ids
  have hme' := (hat a me (.inl ha) hata).deref h'.apart
  have hdad' := (hat b dad (.inr hb) hatb).deref h'.apart
  refine ⟨?_, ?_⟩
  · rw [hme, ProcessPids.pid, hmy, ha, hme']
  · rw [hdad, dadsPid, hparent, hb, hdad']

/-- What a call that succeeds preserves. -/
structure Kept (op : Op) (s s' : ProcessPids) : Prop where
  inv : s'.Inv
  ids : (∀ r, op ≠ .forked r) → SameIds s s'

theorem Inv.step_related (h : s.Inv) (hhost : -1 ≤ r)
    (hwrap : s.pids.host r = none → ¬ s.pids.WrapsOntoTaken r)
    (happly : s.apply (.related r type) = .ok s') : Kept (.related r type) s s' := by
  obtain ⟨⟨pids, a⟩, halloc, heq⟩ := bind_eq_ok.mp happly
  cases heq
  rcases PidMap.allocRelatedPid_ok hhost (mapError_eq_ok.mp halloc) with
    ⟨rfl, -⟩ | ⟨hpos, hnew, pid, addr, -, hpid, halloc⟩
  · exact ⟨h, fun _ => ⟨rfl, rfl⟩⟩
  · have hfresh := halloc.fresh hhost hpid (hwrap hnew)
    have hinv : Inv { s with pids := pids } := h.allocated halloc hfresh hpos fun c hc => .inr hc
    exact ⟨hinv, fun _ => h.sameIds hinv rfl rfl fun a k _ hat => hat.allocates halloc⟩

theorem Inv.step_fork (h : s.Inv) (hr : 0 < r) (hwrap : ¬ s.pids.WrapsOntoTaken r)
    (happly : s.apply (.fork r) = .ok s') : Kept (.fork r) s s' := by
  obtain ⟨son, hfork⟩ := PidMap.map_fst_eq_ok happly
  obtain ⟨⟨pids, addr⟩, halloc, hfork⟩ := bind_eq_ok.mp hfork
  obtain ⟨pi, -, hfork⟩ := bind_eq_ok.mp hfork
  cases hfork
  obtain ⟨-, pid, hpid, halloc⟩ := PidMap.allocChildPid_ok (mapError_eq_ok.mp halloc)
  have hfresh := halloc.fresh (by omega) hpid hwrap
  have hinv : Inv { s with pids := pids, children := r :: s.children } :=
    h.allocated halloc hfresh (by omega) fun c hc => List.mem_cons.mp hc
  exact ⟨hinv, fun _ => h.sameIds hinv rfl rfl fun a k _ hat => hat.allocates halloc⟩

theorem Inv.step_forked (h : s.Inv) (hr : 0 < r) (hnew : s.pids.host r = none)
    (happly : s.apply (.forked r) = .ok s') : Kept (.forked r) s s' := by
  refine ⟨?_, fun hne => absurd rfl (hne r)⟩
  obtain ⟨u, hupdate, heq⟩ := bind_eq_ok.mp happly
  cases heq
  obtain ⟨⟨pids, my⟩, halloc, hupdate⟩ := bind_eq_ok.mp hupdate
  rcases PidMap.allocRelatedPid_ok (by omega) (mapError_eq_ok.mp halloc) with
    ⟨-, hold⟩ | ⟨-, -, pid, addr, rfl, -, halloc⟩
  · obtain ⟨rfl, hsome⟩ := hold (by omega)
    rw [hnew] at hsome
    cases hsome
  · dsimp only at hupdate
    split at hupdate
    · cases hupdate
    · obtain ⟨me, -, hupdate⟩ := bind_eq_ok.mp hupdate
      obtain ⟨dad, -, hupdate⟩ := bind_eq_ok.mp hupdate
      cases hupdate
      exact h.forked halloc

theorem Inv.step_wait {c : Int} (h : s.Inv) (hchild : c ∈ s.children)
    (happly : s.apply (.wait c) = .ok s') : Kept (.wait c) s s' := by
  obtain ⟨reply, hwait⟩ := PidMap.map_fst_eq_ok happly
  unfold wait at hwait
  dsimp only at hwait
  split at hwait
  · cases hwait
    have hinv : Inv { s with children := s.children.filter (· ≠ c) } :=
      ⟨h.apart, h.reverse_lt, h.my, h.parent, fun d hd => h.kept d (List.mem_of_mem_filter hd),
        h.magic⟩
    exact ⟨hinv, fun _ => ⟨rfl, rfl⟩⟩
  · next a hhost =>
      obtain ⟨pi, hderef, hwait⟩ := bind_eq_ok.mp hwait
      cases hwait
      have hinv := h.freed hchild hhost hderef
      refine ⟨hinv, fun _ => h.sameIds hinv rfl rfl ?_⟩
      intro b k hb hat
      obtain ⟨key, hnode⟩ := PidMap.deref_ok hderef
      have hkept := h.kept c hchild
      rw [hhost] at hkept
      apply hat.free h.apart hnode
      rintro rfl
      rcases hb with hb | hb
      · exact hkept.1 hb.symm
      · exact hkept.2 hb.symm

theorem Inv.step {op : Op} (h : s.Inv) (hvalid : op.Valid s) (hwrap : op.NoWrap s)
    (happly : s.apply op = .ok s') : Kept op s s' := by
  cases op with
  | related hostPid type => exact h.step_related hvalid hwrap happly
  | fork r => exact h.step_fork hvalid.1 hwrap happly
  | forked r => exact h.step_forked hvalid.1 hvalid.2 happly
  | wait c => exact h.step_wait hvalid happly

/-- What the host says about a process that starts: it is neither its parent nor a child of its own,
and its parent is not one either. Children can be left over from before an `exec`. -/
structure HostView (self ppid : Int) (children : List Int) : Prop where
  self_pos : 0 < self
  ppid_nonneg : 0 ≤ ppid
  self_ne : self ≠ ppid
  self_not_child : self ∉ children
  ppid_not_child : ppid ∉ children

theorem inv_reserved : PidMap.reserved.Inv := by
  have h₁ : PidMap.init.allocPermanentPid 1 (-1) = .ok (PidMap.init.after (.permanent 1 (-1)), 0) := rfl
  have h₂ : (PidMap.init.after (.permanent 1 (-1))).allocPermanentPid 2 (-1) =
      .ok (PidMap.reserved, 1) := rfl
  exact (PidMap.inv_init.permanent h₁).permanent h₂

theorem host_reserved (h : Int) : PidMap.reserved.host h = none := Std.TreeMap.getElem?_emptyc

theorem inv_initializePids {self ppid : Int} {children : List Int} {s₀ : ProcessPids}
    (hview : HostView self ppid children)
    (h₀ : initializePids .b32 self ppid children = .ok s₀) : s₀.Inv := by
  obtain ⟨hself, hppid, hne, hself', hppid'⟩ := hview
  obtain ⟨⟨pids₁, parent⟩, hparent, h₀⟩ := bind_eq_ok.mp h₀
  obtain ⟨⟨pids₂, my⟩, hmy, h₀⟩ := bind_eq_ok.mp h₀
  obtain ⟨me, -, h₀⟩ := bind_eq_ok.mp h₀
  obtain ⟨dad, -, h₀⟩ := bind_eq_ok.mp h₀
  cases h₀
  rcases PidMap.allocRelatedPid_ok (by omega) (mapError_eq_ok.mp hparent) with
    ⟨-, hold⟩ | ⟨-, -, k₁, a₁, rfl, -, halloc₁⟩
  · obtain ⟨rfl, hsome⟩ := hold (by omega)
    rw [host_reserved] at hsome
    cases hsome
  have hhost₁ : ∀ h, pids₁.host h = if 0 ≤ ppid ∧ h = ppid then some a₁ else none := fun h => by
    rw [halloc₁.host, host_reserved]
  rcases PidMap.allocRelatedPid_ok (by omega) (mapError_eq_ok.mp hmy) with
    ⟨-, hold⟩ | ⟨-, -, k₂, a₂, rfl, -, halloc₂⟩
  · obtain ⟨rfl, hsome⟩ := hold (by omega)
    rw [hhost₁, if_neg (fun h => hne h.2)] at hsome
    cases hsome
  have hapart₁ := inv_reserved.apart.allocates halloc₁
  have hat₁ : pids₁.At a₁ k₁ := ⟨_, by rw [halloc₁.qnx, if_pos rfl], rfl⟩
  have hat₂ : pids₂.At a₂ k₂ := ⟨_, by rw [halloc₂.qnx, if_pos rfl], rfl⟩
  refine ⟨hapart₁.allocates halloc₂, ?_, ⟨a₂, k₂, rfl, hat₂⟩, ⟨a₁, k₁, rfl, hat₁.allocates halloc₂⟩,
    ?_, rfl⟩
  · intro h a ha
    have hnext := halloc₂.addr_lt hapart₁
    have hlt := (halloc₁.addr_lt inv_reserved.apart).1
    simp only [halloc₂.host, hhost₁] at ha
    split at ha
    · cases ha
      exact hnext.1
    · split at ha
      · cases ha
        show a₁ < pids₂.nextAddr
        omega
      · cases ha
  · intro c hc
    have hself : c ≠ self := fun heq => hself' (heq ▸ hc)
    have hppid : c ≠ ppid := fun heq => hppid' (heq ▸ hc)
    have hnone : pids₂.host c = none := by
      simp [halloc₂.host, hhost₁, hself, hppid]
    show pids₂.host c ≠ some a₂ ∧ pids₂.host c ≠ some a₁
    rw [hnone]
    exact ⟨nofun, nofun⟩

theorem inv_of_run {s₀ : ProcessPids} (h₀ : s₀.Inv)
    (hrun : Relation.ReflTransGen (Step fun s op => op.NoWrap s) s₀ s) : s.Inv := by
  induction hrun with
  | refl => exact h₀
  | tail _ hstep ih =>
      obtain ⟨op, hvalid, hwrap, happly⟩ := hstep
      exact (ih.step hvalid hwrap happly).inv

/-- In every 32-bit process, after every run of forks and waits in which no allocation wraps around
onto a taken `m_start_pid`, also across the forks of its ancestors: parent and child agree about the
pid of a new child and of its parent, and nothing but being forked changes a process's own ids. -/
theorem fork_agrees_of_run {self ppid : Int} {children : List Int} {s₀ : ProcessPids}
    (hview : HostView self ppid children) (h₀ : initializePids .b32 self ppid children = .ok s₀)
    (hrun : Relation.ReflTransGen (Step fun s op => op.NoWrap s) s₀ s) :
    (∀ r, 0 < r → s.pids.host r = none → s.Agrees r) ∧
      ∀ op s', op.Valid s → op.NoWrap s → s.apply op = .ok s' → (∀ r, op ≠ .forked r) →
        SameIds s s' := by
  have hinv := inv_of_run (inv_initializePids hview h₀) hrun
  refine ⟨fun r hr hnew => hinv.agrees hr hnew, ?_⟩
  intro op s' hvalid hwrap happly hne
  exact (hinv.step hvalid hwrap happly).ids hne

/-- The state after a call, if it succeeds. -/
def after (s : ProcessPids) (op : Op) : ProcessPids :=
  match s.apply op with
  | .ok s' => s'
  | .error _ => s

theorem run_after {cond : ProcessPids → Op → Prop} {s₀ : ProcessPids}
    (h : Relation.ReflTransGen (Step cond) s₀ s) (op : Op) (hvalid : op.Valid s) (hcond : cond s op) :
    Relation.ReflTransGen (Step cond) s₀ (s.after op) := by
  unfold after
  split
  · next hok => exact h.tail ⟨op, hvalid, hcond, hok⟩
  · exact h

/-- A process with host pid `self` and parent 50, before it has children. -/
def alone (bits : Bitness) (self : Int) : ProcessPids where
  pids := (PidMap.reserved.after (.related 50 .rootParent)).after (.related self .self)
  myPid := some 3
  parentPid := some 2
  magic := match bits with
    | .b32 => some ⟨PidMap.compressPid self, 50, nid⟩
    | .b16 => none
  children := []

/-- The child of a child. -/
theorem fork_agrees_grandchild : ((alone .b32 100).after (.forked 101)).Agrees 102 := by
  have h₀ : initializePids .b32 100 50 [] = .ok (alone .b32 100) := rfl
  have hview : HostView 100 50 [] := ⟨by decide, by decide, by decide, by decide, by decide⟩
  have hvalid : (Op.forked 101).Valid (alone .b32 100) := ⟨by decide, by decide +kernel⟩
  have hwrap : (Op.forked 101).NoWrap (alone .b32 100) := by
    intro hwraps
    have := hwraps.collides
    revert this
    decide +kernel
  have hrun : Relation.ReflTransGen (Step fun s op => op.NoWrap s) (alone .b32 100)
      ((alone .b32 100).after (.forked 101)) := run_after .refl (.forked 101) hvalid hwrap
  exact (fork_agrees_of_run hview h₀ hrun).1 102 (by decide) (by decide +kernel)

theorem not_agrees {e : ForkError}
    (hfail : s.pid = .error e ∨ (s.forkChild r >>= ProcessPids.pid) = .error e)
    (hfree : ¬ s.pids.Taken 5000) : ¬ s.Agrees r := by
  rintro (⟨p, son, c, me, -, hc, hson, hme, -⟩ | ⟨hfull, -⟩)
  · rcases hfail with hfail | hfail
    · rw [hfail] at hme
      cases hme
    · rw [hc] at hfail
      cases hson.symm.trans hfail
  · exact hfree (hfull 5000 (by decide) (by decide))

/-- In a 16-bit process the child writes through `m_magic`, which nobody has set. And in a process
whose pid is `m_start_pid`, a fork that wraps around gives its entry to the child; once that child has
been waited for, the process does not know itself. -/
theorem fork_disagrees :
    (initializePids .b16 100 50 [] = .ok (alone .b16 100) ∧
      (alone .b16 100).pids.host 101 = none ∧ ¬ (alone .b16 100).Agrees 101) ∧
    ∃ s, initializePids .b32 32768 50 [] = .ok (alone .b32 32768) ∧
      Relation.ReflTransGen (Step fun _ _ => True) (alone .b32 32768) s ∧
      s.pids.host 101 = none ∧ ¬ s.Agrees 101 := by
  refine ⟨⟨rfl, by decide +kernel, ?_⟩, ?_⟩
  · have hfail : ((alone .b16 100).forkChild 101 >>= ProcessPids.pid) = .error .wildPointer := by
      decide +kernel
    exact not_agrees (.inr hfail) (by decide +kernel)
  · have h₁ : Relation.ReflTransGen (Step fun _ _ => True) (alone .b32 32768) _ :=
      run_after .refl (.fork 21307) ⟨by decide, by decide +kernel⟩ trivial
    have h₂ := run_after h₁ (.fork 32767) ⟨by decide, by decide +kernel⟩ trivial
    have h₃ := run_after h₂ (.fork 54065) ⟨by decide, by decide +kernel⟩ trivial
    have hchildren : ((((alone .b32 32768).after (.fork 21307)).after (.fork 32767)).after
        (.fork 54065)).children = [54065, 32767, 21307] := by decide +kernel
    have hvalid : (Op.wait 54065).Valid ((((alone .b32 32768).after (.fork 21307)).after
        (.fork 32767)).after (.fork 54065)) := by
      show 54065 ∈ _
      rw [hchildren]
      decide
    refine ⟨_, rfl, run_after h₃ (.wait 54065) hvalid trivial, by decide +kernel, ?_⟩
    exact @not_agrees _ _ .wildPointer (.inl (by decide +kernel)) (by decide +kernel)

end ProcessPids
end Qine

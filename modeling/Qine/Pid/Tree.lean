import Qine.Pid.Fork
import Mathlib.Logic.Function.Basic

/-!
# Process trees

All processes of a tree that is started from one process, with the map each of them has of its own
relatives. A forked process starts with a copy of the map of its parent, a spawned one with a new map.
The host gives a new process any pid that is not in use, so the pid of a process comes back as soon as
it has been waited for.

`alloc_child_pid` asserts that the pid of a new child is not in the map. `relatives` is a record, beside
what the code has, of the pids a process has been told of: those at its start, those its parent knew
when it was forked, and those of its own children until it has waited for them. The assertion fails
exactly for these (`child_assertion_iff`), and they include children of the parent: once the parent has
waited for such a sibling, the host may give its pid to a child of the process.
-/

namespace Qine

/-- A host pid, or `-1` from a call that has failed. -/
abbrev HostPid := { h : Int // -1 ≤ h }

/-- The sessions and groups `Process::initialize_pids` asks the host for. -/
structure Leaders where
  parentSid : HostPid
  parentPgid : HostPid
  sid : HostPid
  pgid : HostPid

/-- A process of the tree: its own state, and the record of its relatives. -/
structure Member where
  state : ProcessPids
  relatives : List Int

/-- A process that has exited stays a zombie until it is waited for. -/
inductive Life where
  | running (m : Member)
  | zombie

/-- A process as the host sees it. The processes the host itself waits for have parent 0. -/
structure HostProcess where
  parent : Int
  life : Life

/-- The processes in use, by pid. -/
abbrev ProcessTree := Int → Option HostProcess

namespace Member

/-- `Process::initialize_pids` as a whole. -/
def start (bits : Bitness) (self ppid : Int) (l : Leaders) : Except ForkError Member := do
  let s ← ProcessPids.initializePids bits self ppid []
  let s ← s.apply (.related l.parentSid .sid)
  let s ← s.apply (.related l.parentPgid .pgid)
  let s ← s.apply (.related l.sid .sid)
  let s ← s.apply (.related l.pgid .pgid)
  return ⟨s, [ppid, self, l.parentSid, l.parentPgid, l.sid, l.pgid].filter (· ≠ -1)⟩

/-- The child of a fork. -/
def forked (m : Member) (r : Int) : Life :=
  match m.state.forkChild r with
  | .ok c => .running ⟨c, r :: m.relatives⟩
  | .error _ => .zombie

/-- The child of a spawn, after its `exec`. -/
def spawned (bits : Bitness) (self ppid : Int) (l : Leaders) : Life :=
  match start bits self ppid l with
  | .ok c => .running c
  | .error _ => .zombie

/-- The assertion of `alloc_child_pid` fails. -/
def AssertionFails (m : Member) (r : Int) : Prop :=
  m.state.pids.allocChildPid r =
    .error (.assertion "m_reverse_map.find(host_pid) == m_reverse_map.end()")

end Member

namespace ProcessTree

/-- The tree of one process. -/
def root (self : Int) (m : Member) : ProcessTree :=
  fun h => if h = self then some ⟨0, .running m⟩ else none

/-- The process that runs under a pid. -/
def member (t : ProcessTree) (p : Int) : Option Member :=
  match t p with
  | some ⟨_, .running m⟩ => some m
  | _ => none

def put (t : ProcessTree) (h : Int) (q : Option HostProcess) : ProcessTree := Function.update t h q

def setLife (t : ProcessTree) (p : Int) (life : Life) : ProcessTree :=
  t.put p ((t p).map fun q => { q with life := life })

/-- A process ends, and the host takes over its children. -/
def die (t : ProcessTree) (p : Int) : ProcessTree :=
  fun h => ((t.setLife p .zombie) h).map fun q => if q.parent = p then { q with parent := 0 } else q

/-- What happens in the tree. -/
inductive Event where
  | fork (p r : Int)
  | spawn (p r : Int) (bits : Bitness) (l : Leaders)
  | exit (p : Int)
  | wait (p h : Int)
  | reap (h : Int)

/-- A process gets a child, under a pid that is not in use. A process whose own part of this fails is
ended by it. -/
def bear (t : ProcessTree) (p r : Int) (child : Member → Life) : Option ProcessTree :=
  match t.member p with
  | none => none
  | some m =>
    if 0 < r ∧ (t r).isNone then
      let t := t.put r (some ⟨p, child m⟩)
      match m.state.forkParent r with
      | .ok (s, _) => some (t.setLife p (.running ⟨s, r :: m.relatives⟩))
      | .error _ => some (t.die p)
    else none

/-- An event, if it can happen. -/
def apply (t : ProcessTree) : Event → Option ProcessTree
  | .fork p r => t.bear p r (·.forked r)
  | .spawn p r bits l => t.bear p r fun _ => Member.spawned bits r p l
  | .exit p => (t.member p).map fun _ => t.die p
  | .wait p h =>
    match t.member p, t h with
    | some m, some ⟨q, .zombie⟩ =>
      if q = p then
        let t := t.put h none
        match m.state.wait h with
        | .ok (s, _) => some (t.setLife p (.running ⟨s, m.relatives.filter (· ≠ h)⟩))
        | .error _ => some (t.die p)
      else none
    | _, _ => none
  | .reap h =>
    match t h with
    | some ⟨q, .zombie⟩ => if q = 0 then some (t.put h none) else none
    | _ => none

/-- If the search for a pid wraps around onto `m_start_pid`, that is not the pid of a child that has not
been waited for. -/
def SparesChildren (t : ProcessTree) : Event → Prop
  | .fork p r | .spawn p r _ _ => ∀ m, t.member p = some m → m.state.pids.WrapsOntoTaken r →
      ∀ node, m.state.pids.qnx PidMap.startPid = some node → node.pid.hostPid ∉ m.state.children
  | _ => True

/-- An event that happens, under a condition. -/
def Step (cond : ProcessTree → Event → Prop) (t t' : ProcessTree) : Prop :=
  ∃ e, cond t e ∧ t.apply e = some t'

end ProcessTree

/-! ## What a process knows -/

namespace Member

variable {m : Member} {r : Int}

/-- The map holds the relatives, and each child under its own entry. -/
structure Sound (m : Member) : Prop where
  apart : m.state.pids.Apart
  known : ∀ h, (m.state.pids.host h).isSome = true ↔ h ∈ m.relatives
  children : ∀ c ∈ m.state.children, 0 < c ∧
    ∃ k a, m.state.pids.host c = some a ∧ m.state.pids.qnx k = some ⟨a, ⟨.child, k, c⟩⟩

/-- What `alloc_related_pid` adds to the map. -/
theorem related_host {s s' : PidMap} {h : Int} {type : PidType} {a : Option Nat} (hs : s.Apart)
    (hh : -1 ≤ h) (hrelated : s.allocRelatedPid h type = .ok (s', a)) :
    s'.Apart ∧ ∀ x, (s'.host x).isSome = true ↔ (x = h ∧ h ≠ -1) ∨ (s.host x).isSome = true := by
  rcases PidMap.allocRelatedPid_ok hh hrelated with ⟨rfl, hold⟩ | ⟨hpos, -, pid, addr, -, -, halloc⟩
  · refine ⟨hs, fun x => ⟨.inr, ?_⟩⟩
    rintro (⟨rfl, hne⟩ | hx)
    · obtain ⟨rfl, hsome⟩ := hold hne
      exact hsome
    · exact hx
  · refine ⟨hs.allocates halloc, fun x => ?_⟩
    rw [halloc.host]
    split_ifs with hx
    · exact iff_of_true rfl (.inl ⟨hx.2, by omega⟩)
    · refine ⟨.inr, Or.rec ?_ id⟩
      rintro ⟨rfl, -⟩
      exact absurd ⟨hpos, rfl⟩ hx

/-- One more session or group. -/
theorem related_state {s s' : ProcessPids} {h : HostPid} {type : PidType} (hs : s.pids.Apart)
    (happly : s.apply (.related h type) = .ok s') :
    s'.pids.Apart ∧ s'.children = s.children ∧
      ∀ x, (s'.pids.host x).isSome = true ↔ (x = h ∧ h.1 ≠ -1) ∨ (s.pids.host x).isSome = true := by
  obtain ⟨⟨pids, a⟩, hrelated, heq⟩ := bind_eq_ok.mp happly
  cases heq
  obtain ⟨hapart, hhost⟩ := related_host hs h.2 (ProcessPids.mapError_eq_ok.mp hrelated)
  exact ⟨hapart, rfl, hhost⟩

theorem initializePids_state {bits : Bitness} {self ppid : Int} {s : ProcessPids} (hself : 0 < self)
    (hppid : 0 ≤ ppid) (hinit : ProcessPids.initializePids bits self ppid [] = .ok s) :
    s.pids.Apart ∧ s.children = [] ∧
      ∀ x, (s.pids.host x).isSome = true ↔ x = self ∨ x = ppid := by
  obtain ⟨⟨pids₁, parent⟩, hparent, hinit⟩ := bind_eq_ok.mp hinit
  obtain ⟨⟨pids₂, my⟩, hmy, hinit⟩ := bind_eq_ok.mp hinit
  obtain ⟨hapart₁, hhost₁⟩ := related_host ProcessPids.inv_reserved.apart (by omega)
    (ProcessPids.mapError_eq_ok.mp hparent)
  obtain ⟨hapart₂, hhost₂⟩ := related_host hapart₁ (by omega) (ProcessPids.mapError_eq_ok.mp hmy)
  have hs : s.pids = pids₂ ∧ s.children = [] := by
    cases bits with
    | b16 =>
        cases hinit
        exact ⟨rfl, rfl⟩
    | b32 =>
        obtain ⟨_, -, hinit⟩ := bind_eq_ok.mp hinit
        obtain ⟨_, -, hinit⟩ := bind_eq_ok.mp hinit
        cases hinit
        exact ⟨rfl, rfl⟩
  refine ⟨hs.1 ▸ hapart₂, hs.2, fun x => ?_⟩
  rw [hs.1, hhost₂, hhost₁, ProcessPids.host_reserved]
  simp only [Option.isSome_none, Bool.false_eq_true, or_false]
  omega

theorem sound_start {bits : Bitness} {self ppid : Int} {l : Leaders} (hself : 0 < self)
    (hppid : 0 ≤ ppid) (hstart : start bits self ppid l = .ok m) : m.Sound := by
  obtain ⟨s₀, hinit, hstart⟩ := bind_eq_ok.mp hstart
  obtain ⟨s₁, h₁, hstart⟩ := bind_eq_ok.mp hstart
  obtain ⟨s₂, h₂, hstart⟩ := bind_eq_ok.mp hstart
  obtain ⟨s₃, h₃, hstart⟩ := bind_eq_ok.mp hstart
  obtain ⟨s₄, h₄, hstart⟩ := bind_eq_ok.mp hstart
  cases hstart
  obtain ⟨hapart, hchildren, hhost⟩ := initializePids_state hself hppid hinit
  obtain ⟨hapart₁, hchildren₁, hhost₁⟩ := related_state hapart h₁
  obtain ⟨hapart₂, hchildren₂, hhost₂⟩ := related_state hapart₁ h₂
  obtain ⟨hapart₃, hchildren₃, hhost₃⟩ := related_state hapart₂ h₃
  obtain ⟨hapart₄, hchildren₄, hhost₄⟩ := related_state hapart₃ h₄
  refine ⟨hapart₄, ?_, ?_⟩
  · intro x
    rw [hhost₄, hhost₃, hhost₂, hhost₁, hhost]
    simp only [List.mem_filter, List.mem_cons, List.not_mem_nil, or_false, decide_eq_true_eq]
    omega
  · rw [hchildren₄, hchildren₃, hchildren₂, hchildren₁, hchildren]
    exact fun c hc => absurd hc List.not_mem_nil

/-- The parent of a new child. -/
theorem Sound.bears {s : ProcessPids} {son : Int} (h : m.Sound) (hr : 0 < r)
    (hspares : m.state.pids.WrapsOntoTaken r → ∀ node, m.state.pids.qnx PidMap.startPid = some node →
      node.pid.hostPid ∉ m.state.children)
    (hfork : m.state.forkParent r = .ok (s, son)) : Sound ⟨s, r :: m.relatives⟩ := by
  obtain ⟨⟨pids, addr⟩, halloc, hfork⟩ := bind_eq_ok.mp hfork
  obtain ⟨pi, -, hfork⟩ := bind_eq_ok.mp hfork
  cases hfork
  obtain ⟨hnew, pid, hpid, halloc⟩ := PidMap.allocChildPid_ok (ProcessPids.mapError_eq_ok.mp halloc)
  have hnone := hnew (by omega)
  refine ⟨h.apart.allocates halloc, ?_, ?_⟩
  · intro x
    show (pids.host x).isSome = true ↔ x ∈ r :: m.relatives
    rw [halloc.host, List.mem_cons, ← h.known]
    split_ifs with hx
    · exact iff_of_true rfl (.inl hx.2)
    · exact ⟨.inr, fun hx' => hx'.resolve_left fun heq => hx ⟨by omega, heq⟩⟩
  · intro c hc
    rcases List.mem_cons.mp hc with rfl | hc
    · refine ⟨hr, pid, addr, ?_, ?_⟩
      · rw [halloc.host, if_pos ⟨by omega, rfl⟩]
      · rw [halloc.qnx, if_pos rfl]
    · obtain ⟨hpos, k, a, hhost, hqnx⟩ := h.children c hc
      have hcr : c ≠ r := by
        rintro rfl
        rw [hnone] at hhost
        cases hhost
      -- the new entry is not in the place of an old child's
      have hk : k ≠ pid := by
        rintro rfl
        rcases PidMap.choosePid_fresh (by omega) hpid with hfree | ⟨hwraps, rfl⟩
        · rw [hfree] at hqnx
          cases hqnx
        · exact hspares hwraps _ hqnx hc
      refine ⟨hpos, k, a, ?_, ?_⟩
      · rw [halloc.host, if_neg (fun hx => hcr hx.2), hhost]
      · rw [halloc.qnx, if_neg hk, hqnx]

/-- The child of a fork. -/
theorem Sound.forked {c : Member} (h : m.Sound) (hr : 0 < r) (hfork : m.forked r = .running c) :
    c.Sound := by
  unfold Member.forked at hfork
  split at hfork
  · next s hs =>
      cases hfork
      obtain ⟨u, hupdate, heq⟩ := bind_eq_ok.mp hs
      cases heq
      obtain ⟨⟨pids, my⟩, hrelated, hupdate⟩ := bind_eq_ok.mp hupdate
      obtain ⟨hapart, hhost⟩ := related_host h.apart (by omega) (ProcessPids.mapError_eq_ok.mp hrelated)
      dsimp only at hupdate
      split at hupdate
      · cases hupdate
      · obtain ⟨_, -, hupdate⟩ := bind_eq_ok.mp hupdate
        obtain ⟨_, -, hupdate⟩ := bind_eq_ok.mp hupdate
        cases hupdate
        refine ⟨hapart, fun x => ?_, fun c hc => absurd hc List.not_mem_nil⟩
        show (pids.host x).isSome = true ↔ x ∈ r :: m.relatives
        rw [hhost, h.known, List.mem_cons]
        exact or_congr_left ⟨And.left, fun hx => ⟨hx, by omega⟩⟩
  · cases hfork

theorem sound_spawned {c : Member} {bits : Bitness} {self ppid : Int} {l : Leaders} (hself : 0 < self)
    (hppid : 0 ≤ ppid) (hspawn : spawned bits self ppid l = .running c) : c.Sound := by
  unfold spawned at hspawn
  split at hspawn
  · next hstart =>
      cases hspawn
      exact sound_start hself hppid hstart
  · cases hspawn

/-- A child that is waited for is forgotten. -/
theorem Sound.waits {s : ProcessPids} {c reply : Int} (h : m.Sound) (hc : c ∈ m.state.children)
    (hwait : m.state.wait c = .ok (s, reply)) : Sound ⟨s, m.relatives.filter (· ≠ c)⟩ := by
  obtain ⟨hpos, k, a, hhost, hqnx⟩ := h.children c hc
  unfold ProcessPids.wait at hwait
  dsimp only at hwait
  rw [hhost] at hwait
  obtain ⟨pi, hderef, hwait⟩ := bind_eq_ok.mp hwait
  cases hwait
  obtain ⟨k', hnode⟩ := PidMap.deref_ok hderef
  obtain rfl := h.apart.addr_inj k k' _ _ hqnx hnode rfl
  rw [hqnx] at hnode
  cases hnode
  have hfreed : ∀ x, (m.state.pids.freePid ⟨a, ⟨.child, k, c⟩⟩).host x =
      if x = c then none else m.state.pids.host x := fun x => PidMap.host_freeChild ⟨hpos, rfl⟩
  refine ⟨h.apart.free _, ?_, ?_⟩
  · intro x
    show ((m.state.pids.freePid ⟨a, ⟨.child, k, c⟩⟩).host x).isSome = true ↔ x ∈ m.relatives.filter (· ≠ c)
    rw [List.mem_filter, ← h.known, hfreed]
    split_ifs with hx
    · simp [hx]
    · simp [hx]
  · intro d hd
    obtain ⟨hd, hne⟩ := List.mem_filter.mp hd
    have hne : d ≠ c := by simpa using hne
    obtain ⟨hposd, kd, ad, hhostd, hqnxd⟩ := h.children d hd
    refine ⟨hposd, kd, ad, ?_, ?_⟩
    · show (m.state.pids.freePid _).host d = some ad
      rw [hfreed, if_neg hne, hhostd]
    · show (m.state.pids.freePid _).qnx kd = _
      rw [PidMap.qnx_freePid, if_neg, hqnxd]
      rintro rfl
      rw [hqnx] at hqnxd
      cases hqnxd
      exact hne rfl

/-- All that can go wrong in the search for a pid is that there is none. -/
theorem choosePid_error {s : PidMap} {e : PidError} (hr : 0 ≤ r) (he : s.choosePid r = .error e) :
    e = .pidMapFull := by
  by_cases hwraps : s.WrapsOntoTaken r
  · rw [PidMap.choosePid_of_wraps hwraps] at he
    cases he
  · rcases PidMap.choosePid_of_not_wraps (by omega) hwraps with ⟨pid, hpid, -⟩ | ⟨hfull, -⟩
    · rw [hpid] at he
      cases he
    · rw [hfull] at he
      cases he
      rfl

/-- The assertion, for the map as it is. -/
theorem assertionFails_iff (h : m.Sound) (hr : 0 ≤ r) : m.AssertionFails r ↔ r ∈ m.relatives := by
  rw [← h.known]
  unfold AssertionFails PidMap.allocChildPid
  split_ifs with hrev
  · refine iff_of_true rfl ?_
    unfold PidMap.host
    rw [Std.TreeMap.isSome_getElem?_iff_mem, Std.TreeMap.mem_iff_contains]
    exact hrev.2
  · have hnone := PidMap.host_none_of_not_contains hrev hr
    rw [hnone]
    refine iff_of_false ?_ nofun
    unfold PidMap.allocEmpty
    intro hfails
    cases hpid : m.state.pids.choosePid r with
    | ok pid =>
        rw [hpid] at hfails
        cases hfails
    | error e =>
        rw [hpid] at hfails
        cases choosePid_error hr hpid
        cases hfails

end Member

/-! ## The whole tree -/

namespace ProcessTree

variable {t t' : ProcessTree} {p r h : Int} {m : Member} {q : HostProcess}

theorem member_eq_some : t.member p = some m ↔ ∃ parent, t p = some ⟨parent, .running m⟩ := by
  unfold member
  split
  · next parent m' heq => simp [heq]
  · next hne =>
      refine iff_of_false nofun ?_
      rintro ⟨parent, heq⟩
      exact hne _ _ heq

theorem put_apply {q : Option HostProcess} {x : Int} : t.put h q x = if x = h then q else t x :=
  Function.update_apply ..

theorem setLife_apply {life : Life} {x : Int} :
    t.setLife p life x = if x = p then (t p).map fun q => { q with life := life } else t x := put_apply

theorem isSome_setLife {life : Life} {x : Int} :
    (t.setLife p life x).isSome = true ↔ (t x).isSome = true := by
  rw [setLife_apply]
  split_ifs with hx
  · rw [Option.isSome_map, hx]
  · exact Iff.rfl

/-- All maps are sound, and a process that is not the host's own is the child of one that runs. -/
structure Sound (t : ProcessTree) : Prop where
  pos : ∀ p, (t p).isSome = true → 0 < p
  member : ∀ p m, t.member p = some m → m.Sound
  parent : ∀ h q, t h = some q → q.parent ≠ 0 →
    ∃ m, t.member q.parent = some m ∧ h ∈ m.state.children

/-- The same, but for the children of `p`. -/
structure SoundBut (t : ProcessTree) (p : Int) : Prop where
  pos : ∀ p, (t p).isSome = true → 0 < p
  member : ∀ p' m, t.member p' = some m → m.Sound
  parent : ∀ h q, t h = some q → q.parent ≠ 0 → q.parent ≠ p →
    ∃ m, t.member q.parent = some m ∧ h ∈ m.state.children

theorem Sound.but (hs : t.Sound) (p : Int) : t.SoundBut p :=
  ⟨hs.pos, hs.member, fun h q hq hne _ => hs.parent h q hq hne⟩

/-- The host takes over the children of a process that ends. -/
theorem SoundBut.die (hs : t.SoundBut p) : (t.die p).Sound := by
  have hmember : ∀ {p' m}, (t.die p).member p' = some m ↔ p' ≠ p ∧ t.member p' = some m := by
    intro p' m
    unfold ProcessTree.die
    rw [member_eq_some, member_eq_some]
    simp only [setLife_apply]
    by_cases hp : p' = p
    · rw [if_pos hp]
      refine iff_of_false ?_ (fun hx => hx.1 hp)
      rintro ⟨parent, hq⟩
      obtain ⟨q, hq, heq⟩ := Option.map_eq_some_iff.mp hq
      obtain ⟨q', -, rfl⟩ := Option.map_eq_some_iff.mp hq
      dsimp only at heq
      split_ifs at heq <;> cases heq
    · rw [if_neg hp, and_iff_right hp]
      cases t p' with
      | none => simp
      | some q =>
          obtain ⟨parent, life⟩ := q
          rw [Option.map_some]
          split_ifs <;> simp
  refine ⟨?_, fun p' m hm => hs.member p' m (hmember.mp hm).2, ?_⟩
  · intro h hh
    unfold ProcessTree.die at hh
    rw [Option.isSome_map, isSome_setLife] at hh
    exact hs.pos h hh
  intro h q hq hne
  obtain ⟨q', hq', rfl⟩ := Option.map_eq_some_iff.mp hq
  -- the child is not one of `p`, or it would be the host's
  have hparent : q'.parent ≠ p := by
    intro heq
    rw [if_pos heq] at hne
    exact hne rfl
  rw [if_neg hparent] at hne ⊢
  have hold : ∃ q₀, t h = some q₀ ∧ q₀.parent = q'.parent := by
    rw [setLife_apply] at hq'
    split_ifs at hq' with hp
    · obtain ⟨q₀, hq₀, rfl⟩ := Option.map_eq_some_iff.mp hq'
      exact ⟨q₀, hp ▸ hq₀, rfl⟩
    · exact ⟨q', hq', rfl⟩
  obtain ⟨q₀, hq₀, heq⟩ := hold
  rw [← heq] at hne hparent ⊢
  obtain ⟨m, hm, hchild⟩ := hs.parent h q₀ hq₀ hne hparent
  exact ⟨m, hmember.mpr ⟨hparent, hm⟩, hchild⟩

/-- A process goes on with a new state, in which it knows its children. -/
theorem SoundBut.setLife (hs : t.SoundBut p) (hp : (t p).isSome = true) (hm : m.Sound)
    (hchildren : ∀ h q, t h = some q → q.parent = p → p ≠ 0 → h ∈ m.state.children) :
    (t.setLife p (.running m)).Sound := by
  obtain ⟨q₀, hq₀⟩ := Option.isSome_iff_exists.mp hp
  have hmember : ∀ {p'}, (t.setLife p (.running m)).member p' = if p' = p then some m else t.member p' := by
    intro p'
    unfold ProcessTree.member
    rw [setLife_apply, hq₀]
    split_ifs with hp'
    · rfl
    · rfl
  refine ⟨?_, ?_, ?_⟩
  · intro h hh
    exact hs.pos h (isSome_setLife.mp hh)
  · intro p' m' hm'
    rw [hmember] at hm'
    split_ifs at hm'
    · cases hm'
      exact hm
    · exact hs.member p' m' hm'
  · intro h q hq hne
    obtain ⟨q', hq', heq⟩ : ∃ q', t h = some q' ∧ q'.parent = q.parent := by
      rw [setLife_apply] at hq
      split_ifs at hq with hh
      · obtain ⟨q', hq', rfl⟩ := Option.map_eq_some_iff.mp hq
        exact ⟨q', hh ▸ hq', rfl⟩
      · exact ⟨q, hq, rfl⟩
    rw [hmember, ← heq]
    rw [← heq] at hne
    split_ifs with hparent
    · exact ⟨m, rfl, hchildren h q' hq' hparent (hparent ▸ hne)⟩
    · exact hs.parent h q' hq' hne hparent

/-- A new child. -/
theorem Sound.put_child {life : Life} (hs : t.Sound) (hpos : 0 < r) (hr : t r = none)
    (hlife : ∀ c, life = .running c → c.Sound) : (t.put r (some ⟨p, life⟩)).SoundBut p := by
  refine ⟨?_, ?_, ?_⟩
  · intro h hh
    rw [put_apply] at hh
    split_ifs at hh with heq
    · exact heq ▸ hpos
    · exact hs.pos h hh
  · intro p' m hm
    obtain ⟨parent, hq⟩ := member_eq_some.mp hm
    rw [put_apply] at hq
    split_ifs at hq
    · cases hq
      exact hlife m rfl
    · exact hs.member p' m (member_eq_some.mpr ⟨parent, hq⟩)
  · intro h q hq hne hp
    rw [put_apply] at hq
    split_ifs at hq
    · cases hq
      exact absurd rfl hp
    · obtain ⟨m, hm, hchild⟩ := hs.parent h q hq hne
      obtain ⟨parent, hparent⟩ := member_eq_some.mp hm
      refine ⟨m, member_eq_some.mpr ⟨parent, ?_⟩, hchild⟩
      rw [put_apply, if_neg, hparent]
      rintro heq
      rw [heq, hr] at hparent
      cases hparent

/-- A zombie that is gone. -/
theorem Sound.put_none {parent : Int} (hs : t.Sound) (hh : t h = some ⟨parent, .zombie⟩) :
    (t.put h none).Sound := by
  have hmember : ∀ {p' m}, (t.put h none).member p' = some m ↔ t.member p' = some m := by
    intro p' m
    rw [member_eq_some, member_eq_some, put_apply]
    split_ifs with hp'
    · rw [hp', hh]
      simp
    · exact Iff.rfl
  refine ⟨?_, fun p' m hm => hs.member p' m (hmember.mp hm), ?_⟩
  · intro h' hh'
    rw [put_apply] at hh'
    split_ifs at hh'
    · cases hh'
    · exact hs.pos h' hh'
  intro h' q hq hne
  rw [put_apply] at hq
  split_ifs at hq
  obtain ⟨m, hm, hchild⟩ := hs.parent h' q hq hne
  exact ⟨m, hmember.mpr hm, hchild⟩

theorem Sound.bear {child : Member → Life} (hs : t.Sound)
    (hspares : ∀ m, t.member p = some m → m.state.pids.WrapsOntoTaken r →
      ∀ node, m.state.pids.qnx PidMap.startPid = some node → node.pid.hostPid ∉ m.state.children)
    (hchild : ∀ m c, 0 < r → t.member p = some m → child m = .running c → c.Sound)
    (hbear : t.bear p r child = some t') : t'.Sound := by
  unfold ProcessTree.bear at hbear
  split at hbear
  · cases hbear
  next m hm =>
  split_ifs at hbear with hr
  obtain ⟨hpos, hr⟩ := hr
  rw [Option.isNone_iff_eq_none] at hr
  obtain ⟨parent, hp⟩ := member_eq_some.mp hm
  have hbut := @put_child t p r (child m) hs hpos hr fun c hc => hchild m c hpos hm hc
  dsimp only at hbear
  split at hbear
  · next s son hfork =>
      cases hbear
      have hpr : p ≠ r := by
        rintro rfl
        rw [hp] at hr
        cases hr
      have hchildren : s.children = r :: m.state.children := by
        obtain ⟨_, -, hfork⟩ := bind_eq_ok.mp hfork
        obtain ⟨_, -, hfork⟩ := bind_eq_ok.mp hfork
        cases hfork
        rfl
      refine hbut.setLife (by rw [put_apply, if_neg hpr, hp]; rfl)
        ((hs.member p m hm).bears hpos (hspares m hm) hfork) ?_
      intro h q hq hparent hne
      show h ∈ s.children
      rw [hchildren, List.mem_cons]
      rw [put_apply] at hq
      split_ifs at hq with hh
      · exact .inl hh
      · obtain ⟨m', hm', hchild⟩ := hs.parent h q hq (hparent ▸ hne)
        rw [hparent, hm] at hm'
        cases hm'
        exact .inr hchild
  · cases hbear
    exact hbut.die

theorem Sound.wait (hs : t.Sound) (hwait : t.apply (.wait p h) = some t') : t'.Sound := by
  unfold apply at hwait
  dsimp only at hwait
  split at hwait
  · next m q hm hh =>
      split_ifs at hwait with hq
      subst hq
      obtain ⟨parent, hp⟩ := member_eq_some.mp hm
      have hne : q ≠ 0 := by
        have := hs.pos q (by rw [hp]; rfl)
        omega
      obtain ⟨m', hm', hchild⟩ := hs.parent h _ hh hne
      rw [hm] at hm'
      cases hm'
      have hput := hs.put_none hh
      split at hwait
      · next s reply hok =>
          cases hwait
          have hqh : q ≠ h := by
            rintro rfl
            rw [hp] at hh
            cases hh
          have hchildren : s.children = m.state.children.filter (· ≠ h) := by
            unfold ProcessPids.wait at hok
            dsimp only at hok
            split at hok
            · cases hok
              rfl
            · obtain ⟨_, -, hok⟩ := bind_eq_ok.mp hok
              cases hok
              rfl
          refine (hput.but q).setLife (by rw [put_apply, if_neg hqh, hp]; rfl)
            ((hs.member q m hm).waits hchild hok) ?_
          intro h' q' hq' hparent _
          show h' ∈ s.children
          rw [put_apply] at hq'
          split_ifs at hq' with hh'
          obtain ⟨m', hm', hchild'⟩ := hs.parent h' q' hq' (hparent ▸ hne)
          rw [hparent, hm] at hm'
          cases hm'
          rw [hchildren, List.mem_filter]
          exact ⟨hchild', by simpa using hh'⟩
      · cases hwait
        exact (hput.but q).die
  · cases hwait

/-- One event keeps all maps sound. -/
theorem Sound.step (hs : t.Sound) (hstep : Step SparesChildren t t') : t'.Sound := by
  obtain ⟨e, hspares, happly⟩ := hstep
  cases e with
  | fork p r =>
      exact hs.bear hspares (fun m c hr hm hc => (hs.member p m hm).forked hr hc) happly
  | spawn p r bits l =>
      refine hs.bear hspares (fun m c hr hm hc => ?_) happly
      obtain ⟨parent, hp⟩ := member_eq_some.mp hm
      exact Member.sound_spawned hr (Int.le_of_lt (hs.pos p (by rw [hp]; rfl))) hc
  | exit p =>
      obtain ⟨m, -, rfl⟩ := Option.map_eq_some_iff.mp happly
      exact (hs.but p).die
  | wait p h => exact hs.wait happly
  | reap h =>
      unfold apply at happly
      dsimp only at happly
      split at happly
      · next q hq =>
          split_ifs at happly
          cases happly
          exact hs.put_none hq
      · cases happly

theorem sound_root {self : Int} (hself : 0 < self) (hm : m.Sound) : (root self m).Sound := by
  have hroot : ∀ {h q}, root self m h = some q → h = self ∧ q = ⟨0, .running m⟩ := by
    intro h q hq
    unfold root at hq
    split_ifs at hq with hh
    · cases hq
      exact ⟨hh, rfl⟩
  refine ⟨?_, ?_, ?_⟩
  · intro h hh
    obtain ⟨q, hq⟩ := Option.isSome_iff_exists.mp hh
    exact (hroot hq).1 ▸ hself
  · intro p m' hm'
    obtain ⟨parent, hq⟩ := member_eq_some.mp hm'
    cases (hroot hq).2
    exact hm
  · intro h q hq hne
    rw [(hroot hq).2] at hne
    exact absurd rfl hne

theorem sound_of_run {t₀ : ProcessTree} (h₀ : t₀.Sound)
    (hrun : Relation.ReflTransGen (Step SparesChildren) t₀ t) : t.Sound := by
  induction hrun with
  | refl => exact h₀
  | tail _ hstep ih => exact ih.step hstep

/-- In every process of every tree, after every run of forks, spawns, exits and waits in which no new
entry takes the place of a child's, the assertion fails for the pids of the relatives that the process
has been told of, and for no others. -/
theorem child_assertion_iff {bits : Bitness} {self ppid : Int} {l : Leaders} (hself : 0 < self)
    (hppid : 0 ≤ ppid) (hstart : Member.start bits self ppid l = .ok m)
    (hrun : Relation.ReflTransGen (Step SparesChildren) (root self m) t) {m' : Member}
    (hm' : t.member p = some m') (hr : 0 < r) : m'.AssertionFails r ↔ r ∈ m'.relatives :=
  Member.assertionFails_iff ((sound_of_run (sound_root hself (Member.sound_start hself hppid hstart))
    hrun).member p m' hm') (Int.le_of_lt hr)

/-- The tree after an event, if it can happen. -/
def after (t : ProcessTree) (e : Event) : ProcessTree := (t.apply e).getD t

theorem run_after {cond : ProcessTree → Event → Prop} {t₀ : ProcessTree}
    (hrun : Relation.ReflTransGen (Step cond) t₀ t) (e : Event) (hcond : cond t e) :
    Relation.ReflTransGen (Step cond) t₀ (t.after e) := by
  unfold after
  cases happly : t.apply e with
  | none => exact hrun
  | some t' => exact hrun.tail ⟨e, hcond, happly⟩

/-- A process with host pid 100 that a shell with host pid 50 has started. -/
def shellChild : Member where
  state := ProcessPids.alone .b32 100
  relatives := [50, 100, 50, 50, 50, 50]

def shellLeaders : Leaders :=
  ⟨⟨50, by decide⟩, ⟨50, by decide⟩, ⟨50, by decide⟩, ⟨50, by decide⟩⟩

theorem start_shellChild : Member.start .b32 100 50 shellLeaders = .ok shellChild := by rfl

/-- After a fork, the shell's pid would not do for the next child, but 102 does. -/
theorem child_assertion_shell :
    ∃ m, ((root 100 shellChild).after (.fork 100 101)).member 100 = some m ∧
      m.AssertionFails 50 ∧ ¬ m.AssertionFails 102 := by
  have hspares : SparesChildren (root 100 shellChild) (.fork 100 101) := by
    rintro m ⟨⟩ - node - hchild
    exact absurd hchild List.not_mem_nil
  have hrun := run_after .refl (.fork 100 101) hspares
  have hrelatives : (((root 100 shellChild).after (.fork 100 101)).member 100).map (·.relatives) =
      some [101, 50, 100, 50, 50, 50, 50] := by decide +kernel
  obtain ⟨m, hm, hrelatives⟩ := Option.map_eq_some_iff.mp hrelatives
  have hiff : ∀ r, 0 < r → (m.AssertionFails r ↔ r ∈ m.relatives) := fun r hr =>
    child_assertion_iff (by decide) (by decide) start_shellChild hrun hm hr
  refine ⟨m, hm, (hiff 50 (by decide)).mpr ?_, fun hfails => ?_⟩
  · rw [hrelatives]
    decide
  · have hmem := (hiff 102 (by decide)).mp hfails
    rw [hrelatives] at hmem
    revert hmem
    decide

/-- Process 100 forks 101 and then 102, and waits for 101. Now the host may give 101 to a child of 102,
which still has 101 in its map as a child. -/
theorem child_assertion_fails :
    ∃ t : ProcessTree, Relation.ReflTransGen (Step fun _ _ => True) (root 100 shellChild) t ∧
      t 101 = none ∧ ∃ m, t.member 102 = some m ∧ m.AssertionFails 101 := by
  have h₁ : Relation.ReflTransGen (Step fun _ _ => True) (root 100 shellChild) _ :=
    run_after .refl (.fork 100 101) trivial
  have h₂ := run_after h₁ (.fork 100 102) trivial
  have h₃ := run_after h₂ (.exit 101) trivial
  have h₄ := run_after h₃ (.wait 100 101) trivial
  refine ⟨_, h₄, ?_, ?_⟩
  · exact Option.isNone_iff_eq_none.mp (by decide +kernel)
  · have hcontains : ((((((root 100 shellChild).after (.fork 100 101)).after (.fork 100 102)).after
        (.exit 101)).after (.wait 100 101)).member 102).map (·.state.pids.reverseMap.contains 101) =
          some true := by decide +kernel
    obtain ⟨m, hm, hcontains⟩ := Option.map_eq_some_iff.mp hcontains
    exact ⟨m, hm, if_pos ⟨by decide, hcontains⟩⟩

end ProcessTree
end Qine

import Qine.Pid.Calls

/-!
# The ids in the magic

A program does not ask who it is, it looks into the magic. There are two layouts of it, and each process has a
block of the one for its own kind: `setup_magic` sets `m_magic`, and `setup_magic16` sets `m_magic16`. After a
fork the ids in the block have to be those of the child, and `update_pids_after_fork` writes them through
`m_magic`.

`follows_iff` says that along every chain of forks the block follows the process if and only if it is a 32-bit one.
-/

namespace Qine

/-! ## The block -/

/-- Where the ids are. -/
structure IdFields where
  myPid : Nat
  dadsPid : Nat
  myNid : Nat

/-- The offsets in `Qnx::Magic` and in `Qnx::Magic16`. -/
def idFields : Bitness → IdFields
  | .b32 => ⟨0, 4, 8⟩
  | .b16 => ⟨2, 4, 8⟩

/-- The ids that a program finds in its block. -/
def idsIn (bits : Bitness) (block : Nat) (mem : Mem) : Magic where
  myPid := (mem.loadWord 2 (block + (idFields bits).myPid)).toInt
  dadsPid := (mem.loadWord 2 (block + (idFields bits).dadsPid)).toInt
  myNid := (mem.loadWord 4 (block + (idFields bits).myNid)).toInt

/-- The bytes of the ids. -/
def InIds (bits : Bitness) (block x : Nat) : Prop :=
  (block + (idFields bits).myPid ≤ x ∧ x < block + (idFields bits).myPid + 2) ∨
    (block + (idFields bits).dadsPid ≤ x ∧ x < block + (idFields bits).dadsPid + 2) ∨
    (block + (idFields bits).myNid ≤ x ∧ x < block + (idFields bits).myNid + 4)

/-- A process with its memory. -/
structure MagicProcess where
  pids : PidMap
  /-- `m_my_pid` -/
  myPid : Option Nat
  /-- `m_parent_pid` -/
  parentPid : Option Nat
  children : List Int
  /-- `m_magic`, if it has been set -/
  magic : Option Nat
  /-- `m_magic16`, if it has been set -/
  magic16 : Option Nat
  mem : Mem

namespace MagicProcess

/-- The process as far as its pids go. -/
def ids (s : MagicProcess) : ProcessPids :=
  ⟨s.pids, s.myPid, s.parentPid, s.magic.map fun magic => idsIn .b32 magic s.mem, s.children⟩

/-- The process after a call that is about its pids only. -/
def withIds (s : MagicProcess) (p : ProcessPids) : MagicProcess :=
  { s with pids := p.pids, myPid := p.myPid, parentPid := p.parentPid, children := p.children }

/-- What `setup_magic` and `setup_magic16` leave. -/
def start (bits : Bitness) (p : ProcessPids) (block : Nat) (mem : Mem) : MagicProcess where
  pids := p.pids
  myPid := p.myPid
  parentPid := p.parentPid
  children := p.children
  magic := if bits = .b32 then some block else none
  magic16 := if bits = .b16 then some block else none
  mem := mem

/-- `Process::update_pids_after_fork`. -/
def updatePidsAfterFork (s : MagicProcess) (newPid : Int) : Except ForkError MagicProcess := do
  let (pids, my) ← (s.pids.allocRelatedPid newPid .self).mapError .pids
  let s := { s with pids := pids, parentPid := s.myPid, myPid := my }
  match s.magic with
  | none => throw .wildPointer
  | some magic =>
    let s := { s with mem := s.mem.storeWord 2 magic (BitVec.ofInt 16 (← s.ids.pid)) }
    let s := { s with mem := s.mem.storeWord 2 (magic + 4) (BitVec.ofInt 16 (← s.ids.dadsPid)) }
    return { s with mem := s.mem.storeWord 4 (magic + 8) (BitVec.ofInt 32 nid) }

/-- `MainHandler::proc_fork` in the child. -/
def forkChild (s : MagicProcess) (r : Int) : Except ForkError MagicProcess := do
  let s ← s.updatePidsAfterFork r
  return { s with children := [] }

end MagicProcess

/-! ## Pointers that lead somewhere -/

namespace PidMap

variable {m m' : PidMap} {a : Option Nat} {addr : Nat} {r : Int} {type : PidType}

/-- Host pids lead to entries, and the pids of entries fit in 16 bits. -/
structure Live (m : PidMap) : Prop where
  apart : m.Apart
  keyed : m.Keyed
  live : ∀ h, m.LiveAt h

/-- An allocation makes no pointer lead nowhere. -/
structure Keeps (m m' : PidMap) : Prop where
  live : m'.Live
  at_of : ∀ a k, m.At a k → m'.At a k

theorem Live.allocates {pid : Int} (h : m.Live) (hr : -1 ≤ r) (hpid : m.choosePid r = .ok pid)
    (halloc : Allocates m m' pid addr type r) : Keeps m m' ∧ m'.At addr pid := by
  have hat : m'.At addr pid := ⟨_, by rw [halloc.qnx, if_pos rfl], rfl⟩
  refine ⟨⟨⟨h.apart.allocates halloc, h.keyed.allocates (toMpid_of_mem (choosePid_mem hr hpid)) halloc, ?_⟩,
    fun _ _ hk => hk.allocates halloc⟩, hat⟩
  intro h' a ha
  rw [halloc.host] at ha
  split at ha
  · cases ha
    exact ⟨pid, hat⟩
  · obtain ⟨k, hk⟩ := h.live h' a ha
    exact ⟨k, hk.allocates halloc⟩

/-- `alloc_related_pid` returns an entry, an old one or a new one. -/
theorem Live.related (h : m.Live) (hr : -1 ≤ r) (halloc : m.allocRelatedPid r type = .ok (m', a)) :
    Keeps m m' ∧ (0 ≤ r → ∃ addr k, a = some addr ∧ m'.At addr k) := by
  rcases allocRelatedPid_ok hr halloc with ⟨rfl, hold⟩ | ⟨-, -, pid, addr, rfl, hpid, halloc⟩
  · refine ⟨⟨h, fun _ _ hk => hk⟩, fun hpos => ?_⟩
    obtain ⟨ha, hsome⟩ := hold (by omega)
    obtain ⟨addr, haddr⟩ := Option.isSome_iff_exists.mp hsome
    obtain ⟨k, hk⟩ := h.live r addr (ha ▸ haddr)
    exact ⟨addr, k, haddr, hk⟩
  · obtain ⟨hkeeps, hat⟩ := h.allocates hr hpid halloc
    exact ⟨hkeeps, fun _ => ⟨addr, pid, rfl, hat⟩⟩

theorem live_reserved : reserved.Live := by
  refine ⟨ProcessPids.inv_reserved.apart, ?_, ?_⟩
  · have h₁ : Step Typed init (init.after (.permanent 1 (-1))) := ⟨.permanent 1 (-1), by decide, rfl, rfl⟩
    have h₂ : Step Typed (init.after (.permanent 1 (-1))) reserved := ⟨.permanent 2 (-1), by decide, rfl, rfl⟩
    exact keyed_of_run (.tail (.tail .refl h₁) h₂)
  · intro h a ha
    rw [ProcessPids.host_reserved] at ha
    cases ha

end PidMap

namespace MagicProcess

/-- The process's pointers lead to entries. -/
structure Live (s : MagicProcess) : Prop where
  pids : s.pids.Live
  my : ∃ a k, s.myPid = some a ∧ s.pids.At a k
  parent : ∃ a k, s.parentPid = some a ∧ s.pids.At a k

variable {s s' c : MagicProcess} {bits : Bitness} {p : ProcessPids} {block : Nat} {mem : Mem} {r : Int}

theorem Live.keeps {pids : PidMap} {children : List Int} (h : s.Live) (hkeeps : s.pids.Keeps pids) :
    Live { s with pids := pids, children := children } := by
  obtain ⟨a, k, hmy, hat⟩ := h.my
  obtain ⟨a', k', hparent, hat'⟩ := h.parent
  exact ⟨hkeeps.live, ⟨a, k, hmy, hkeeps.at_of a k hat⟩, ⟨a', k', hparent, hkeeps.at_of a' k' hat'⟩⟩

theorem live_start {self ppid : Int} {children : List Int} (hself : 0 ≤ self) (hppid : 0 ≤ ppid)
    (h₀ : ProcessPids.initializePids bits self ppid children = .ok p) : (start bits p block mem).Live := by
  obtain ⟨⟨pids₁, parent⟩, hparent, h₀⟩ := bind_eq_ok.mp h₀
  obtain ⟨⟨pids₂, my⟩, hmy, h₀⟩ := bind_eq_ok.mp h₀
  obtain ⟨hkeeps₁, hentry₁⟩ := PidMap.live_reserved.related (by omega) (ProcessPids.mapError_eq_ok.mp hparent)
  obtain ⟨hkeeps₂, hentry₂⟩ := hkeeps₁.live.related (by omega) (ProcessPids.mapError_eq_ok.mp hmy)
  obtain ⟨a, k, rfl, hat⟩ := hentry₁ hppid
  obtain ⟨a', k', rfl, hat'⟩ := hentry₂ hself
  have hp : p.pids = pids₂ ∧ p.myPid = some a' ∧ p.parentPid = some a := by
    cases bits with
    | b16 =>
        cases h₀
        exact ⟨rfl, rfl, rfl⟩
    | b32 =>
        obtain ⟨me, -, h₀⟩ := bind_eq_ok.mp h₀
        obtain ⟨dad, -, h₀⟩ := bind_eq_ok.mp h₀
        cases h₀
        exact ⟨rfl, rfl, rfl⟩
  obtain ⟨rfl, hmy', hparent'⟩ := hp
  exact ⟨hkeeps₂.live, ⟨a', k', hmy', hat'⟩, ⟨a, k, hparent', hkeeps₂.at_of a k hat⟩⟩

/-! ## One fork -/

/-- The child has the new entry for itself, and the parent's for its parent. -/
theorem Live.forked {pids : PidMap} {my : Option Nat} {children : List Int} {mem : Mem} (h : s.Live) (hr : 0 ≤ r)
    (halloc : s.pids.allocRelatedPid r .self = .ok (pids, my)) :
    Live { s with pids := pids, parentPid := s.myPid, myPid := my, children := children, mem := mem } := by
  obtain ⟨hkeeps, hentry⟩ := h.pids.related (by omega) halloc
  obtain ⟨a, k, hmy, hat⟩ := h.my
  exact ⟨hkeeps.live, hentry hr, ⟨a, k, hmy, hkeeps.at_of a k hat⟩⟩

/-- The ids written to the block at `block`. -/
def storeIds (mem : Mem) (block : Nat) (pid dad : Int) : Mem :=
  ((mem.storeWord 2 block (BitVec.ofInt 16 pid)).storeWord 2 (block + 4) (BitVec.ofInt 16 dad)).storeWord 4
    (block + 8) (BitVec.ofInt 32 nid)

theorem idsIn_storeIds {pid dad : Int} (hpid : toMpid pid = pid) (hdad : toMpid dad = dad) :
    idsIn .b32 block (storeIds mem block pid dad) = ⟨pid, dad, nid⟩ := by
  have hfirst : (storeIds mem block pid dad).loadWord 2 (block + 0) = BitVec.ofInt 16 pid := by
    have hcells : ∀ x, block + 0 ≤ x → x < block + 0 + 2 →
        storeIds mem block pid dad x = mem.storeWord 2 block (BitVec.ofInt 16 pid) x := by
      intro x _ hx
      unfold storeIds
      rw [Memory.storeWord_of_not_mem (.inl (by omega)), Memory.storeWord_of_not_mem (.inl (by omega))]
    exact (Memory.loadWord_congr hcells).trans (Memory.loadWord_storeWord _)
  have hsecond : (storeIds mem block pid dad).loadWord 2 (block + 4) = BitVec.ofInt 16 dad := by
    have hcells : ∀ x, block + 4 ≤ x → x < block + 4 + 2 → storeIds mem block pid dad x =
        (mem.storeWord 2 block (BitVec.ofInt 16 pid)).storeWord 2 (block + 4) (BitVec.ofInt 16 dad) x := by
      intro x _ hx
      unfold storeIds
      rw [Memory.storeWord_of_not_mem (.inl (by omega))]
    exact (Memory.loadWord_congr hcells).trans (Memory.loadWord_storeWord _)
  have hthird : (storeIds mem block pid dad).loadWord 4 (block + 8) = BitVec.ofInt 32 nid :=
    Memory.loadWord_storeWord _
  unfold idsIn idFields
  dsimp only
  rw [hfirst, hsecond, hthird]
  unfold toMpid at hpid hdad
  rw [hpid, hdad]
  rfl

theorem storeIds_of_not_inIds {pid dad : Int} {x : Nat} (hx : ¬ InIds .b32 block x) :
    storeIds mem block pid dad x = mem x := by
  simp only [InIds, idFields] at hx
  unfold storeIds
  rw [Memory.storeWord_of_not_mem (by omega), Memory.storeWord_of_not_mem (by omega),
    Memory.storeWord_of_not_mem (by omega)]

/-- What `update_pids_after_fork` does in a process with a block of the 32-bit kind. -/
theorem updatePidsAfterFork_eq {pids : PidMap} {my : Option Nat} (h : s.Live) (hr : 0 ≤ r)
    (hmagic : s.magic = some block) (halloc : s.pids.allocRelatedPid r .self = .ok (pids, my)) :
    ∃ pid dad, QnxPid.qnxPid <$> pids.deref my = .ok pid ∧ QnxPid.qnxPid <$> pids.deref s.myPid = .ok dad ∧
      toMpid pid = pid ∧ toMpid dad = dad ∧
      s.updatePidsAfterFork r =
        .ok { s with pids := pids, parentPid := s.myPid, myPid := my, mem := storeIds s.mem block pid dad } := by
  have hforked : Live { s with pids := pids, parentPid := s.myPid, myPid := my } := h.forked hr halloc
  obtain ⟨hpids, ⟨a, pid, hmy, hat⟩, a', dad, hparent, hat'⟩ := hforked
  have hpid : QnxPid.qnxPid <$> pids.deref my = .ok pid := by
    rw [show my = some a from hmy]
    exact hat.deref hpids.apart
  have hdad : QnxPid.qnxPid <$> pids.deref s.myPid = .ok dad := by
    rw [show s.myPid = some a' from hparent]
    exact hat'.deref hpids.apart
  have hkeyed : ∀ {a k}, pids.At a k → toMpid k = k := by
    rintro a k ⟨node, hnode, -⟩
    exact hpids.keyed k node hnode
  refine ⟨pid, dad, hpid, hdad, hkeyed hat, hkeyed hat', ?_⟩
  simp only [updatePidsAfterFork, halloc, hmagic, ids, ProcessPids.pid, ProcessPids.dadsPid, Except.mapError, bind,
    Except.bind, hpid, hdad]
  rfl

/-- Without such a block, the child follows a pointer that has not been set. -/
theorem updatePidsAfterFork_none {m : PidMap × Option Nat} (hmagic : s.magic = none)
    (halloc : s.pids.allocRelatedPid r .self = .ok m) : s.updatePidsAfterFork r = .error .wildPointer := by
  simp only [updatePidsAfterFork, halloc, hmagic, Except.mapError, bind, Except.bind]
  rfl

/-- In memory the fork does what it does to the pids. -/
theorem ids_updatePidsAfterFork {pids : PidMap} {my : Option Nat} (h : s.Live) (hr : 0 ≤ r)
    (hmagic : s.magic = some block) (halloc : s.pids.allocRelatedPid r .self = .ok (pids, my)) :
    ids <$> s.updatePidsAfterFork r = s.ids.updatePidsAfterFork r := by
  obtain ⟨pid, dad, hpid, hdad, hmpid, hmdad, hupdate⟩ := updatePidsAfterFork_eq h hr hmagic halloc
  have hids : s.ids.magic = some (idsIn .b32 block s.mem) := by
    rw [ids, hmagic]
    rfl
  rw [hupdate, ProcessPids.updatePidsAfterFork_eq halloc hids hpid hdad, ← idsIn_storeIds hmpid hmdad]
  show Except.ok _ = Except.ok _
  rw [ids, hmagic]
  rfl

/-! ## Chains of forks -/

/-- What a process does; after `forked` it is the child that goes on. Whatever happens to pids between the forks,
no wait frees an entry that is still pointed to. -/
inductive Step : MagicProcess → MagicProcess → Prop
  | call {s : MagicProcess} {op : ProcessPids.Op} {p : ProcessPids} (hvalid : op.Valid s.ids)
      (hforked : ∀ r, op ≠ .forked r) (happly : s.ids.apply op = .ok p)
      (hwait : ∀ h, op = .wait h → (s.withIds p).Live) : Step s (s.withIds p)
  | forked {s c : MagicProcess} {r : Int} (hr : 0 < r) (hfork : s.forkChild r = .ok c) : Step s c
  | program {s : MagicProcess} (mem : Mem) : Step s { s with mem := mem }

theorem Live.step (h : s.Live) (hstep : Step s s') : s'.Live ∧ s'.magic = s.magic := by
  cases hstep with
  | @call op p hvalid hforked happly hwait =>
      refine ⟨?_, rfl⟩
      cases op with
      | related hostPid type =>
          obtain ⟨⟨pids, a⟩, halloc, heq⟩ := bind_eq_ok.mp happly
          cases heq
          exact h.keeps (h.pids.related hvalid (ProcessPids.mapError_eq_ok.mp halloc)).1
      | fork r =>
          obtain ⟨son, hfork⟩ := PidMap.map_fst_eq_ok happly
          obtain ⟨⟨pids, addr⟩, halloc, hfork⟩ := bind_eq_ok.mp hfork
          obtain ⟨pi, -, hfork⟩ := bind_eq_ok.mp hfork
          cases hfork
          obtain ⟨-, pid, hpid, halloc⟩ := PidMap.allocChildPid_ok (ProcessPids.mapError_eq_ok.mp halloc)
          have hr : -1 ≤ r := by
            have := hvalid.1
            omega
          exact h.keeps (h.pids.allocates hr hpid halloc).1
      | forked r => exact absurd rfl (hforked r)
      | wait c => exact hwait c rfl
  | @forked c r hr hfork =>
      obtain ⟨u, hupdate, heq⟩ := bind_eq_ok.mp hfork
      cases heq
      obtain ⟨⟨pids, my⟩, halloc, -⟩ := bind_eq_ok.mp hupdate
      have halloc := ProcessPids.mapError_eq_ok.mp halloc
      cases hmagic : s.magic with
      | none =>
          rw [updatePidsAfterFork_none hmagic halloc] at hupdate
          cases hupdate
      | some block =>
          obtain ⟨pid, dad, -, -, -, -, heq⟩ := updatePidsAfterFork_eq h (by omega) hmagic halloc
          rw [heq] at hupdate
          cases hupdate
          exact ⟨h.forked (by omega) halloc, hmagic⟩
  | program mem => exact ⟨⟨h.pids, h.my, h.parent⟩, rfl⟩

theorem Live.run (h : s.Live) (hrun : Relation.ReflTransGen Step s s') : s'.Live ∧ s'.magic = s.magic := by
  induction hrun with
  | refl => exact ⟨h, rfl⟩
  | tail _ hstep ih =>
      obtain ⟨hlive, hmagic⟩ := ih.1.step hstep
      exact ⟨hlive, hmagic.trans ih.2⟩

/-- After the fork the block has the ids of the child, and nothing else in memory has changed. -/
def Follows (bits : Bitness) (block : Nat) (s : MagicProcess) (r : Int) : Prop :=
  ∃ c pid dad, s.updatePidsAfterFork r = .ok c ∧ c.ids.pid = .ok pid ∧ c.ids.dadsPid = .ok dad ∧
    idsIn bits block c.mem = ⟨pid, dad, nid⟩ ∧ ∀ x, ¬ InIds bits block x → c.mem x = s.mem x

/-- Along every chain of forks, the block of a child that gets a pid follows if and only if the process that the
chain began with, and so every other one, is a 32-bit process. -/
theorem follows_iff {self ppid : Int} {children : List Int} (hself : 0 ≤ self) (hppid : 0 ≤ ppid)
    (h₀ : ProcessPids.initializePids bits self ppid children = .ok p)
    (hrun : Relation.ReflTransGen Step (start bits p block mem) s) (hr : 0 < r)
    (hentry : ∃ m, s.pids.allocRelatedPid r .self = .ok m) : s.Follows bits block r ↔ bits = .b32 := by
  have hstart : (start bits p block mem).Live := live_start hself hppid h₀
  obtain ⟨hlive, hmagic⟩ := hstart.run hrun
  obtain ⟨⟨pids, my⟩, halloc⟩ := hentry
  cases bits with
  | b16 =>
      refine iff_of_false ?_ (by decide)
      rintro ⟨c, pid, dad, hupdate, -⟩
      rw [updatePidsAfterFork_none hmagic halloc] at hupdate
      cases hupdate
  | b32 =>
      refine iff_of_true ?_ rfl
      obtain ⟨pid, dad, hpid, hdad, hmpid, hmdad, hupdate⟩ := updatePidsAfterFork_eq hlive (by omega) hmagic halloc
      exact ⟨_, pid, dad, hupdate, hpid, hdad, idsIn_storeIds hmpid hmdad, fun x hx => storeIds_of_not_inIds hx⟩

theorem exists_ok {ε α : Type} {x : Except ε α} (h : x.toOption.isSome = true) : ∃ a, x = .ok a := by
  cases x with
  | error e => cases h
  | ok a => exact ⟨a, rfl⟩

/-- The state after a fork, if it succeeds. -/
def afterFork (s : MagicProcess) (r : Int) : MagicProcess :=
  match s.forkChild r with
  | .ok c => c
  | .error _ => s

theorem run_afterFork (hr : 0 < r) : Relation.ReflTransGen Step s (s.afterFork r) := by
  unfold afterFork
  split
  · next c hfork => exact .single (.forked hr hfork)
  · exact .refl

/-- A child and its child, with the program at work between the two forks. -/
theorem follows_grandchild :
    Follows .b32 0x2000 { (start .b32 (ProcessPids.alone .b32 100) 0x2000 fun _ => 0).afterFork 101 with
      mem := fun _ => 0xCC } 102 := by
  have h₀ : ProcessPids.initializePids .b32 100 50 [] = .ok (ProcessPids.alone .b32 100) := rfl
  have hrun := (run_afterFork (s := start .b32 (ProcessPids.alone .b32 100) 0x2000 fun _ => 0) (r := 101)
    (by decide)).tail (.program fun _ => 0xCC)
  exact (follows_iff (by decide) (by decide) h₀ hrun (by decide) (exists_ok (by decide +kernel))).mpr rfl

/-- A 16-bit process forks. -/
theorem not_follows : ProcessPids.initializePids .b16 100 50 [] = .ok (ProcessPids.alone .b16 100) ∧
    ¬ (start .b16 (ProcessPids.alone .b16 100) 0x2000 fun _ => 0).Follows .b16 0x2000 101 := by
  refine ⟨rfl, ?_⟩
  rintro ⟨c, pid, dad, hupdate, -⟩
  have hnone : ((start .b16 (ProcessPids.alone .b16 100) 0x2000 fun _ => 0).updatePidsAfterFork 101).toOption.isSome =
      false := by decide +kernel
  rw [hupdate] at hnone
  cases hnone

end MagicProcess

end Qine

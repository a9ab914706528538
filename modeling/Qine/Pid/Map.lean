import Mathlib.Algebra.Group.Int.Defs
import Mathlib.Algebra.Ring.Nat
import Std.Data.TreeMap
import Std.Data.TreeMap.Lemmas
import Mathlib.Data.List.Basic
import Mathlib.Logic.Relation

/-!
# `PidMap`

The map between QNX and host process ids (`qnx_pid.cpp`). `m_qnx_map` owns the entries;
`m_reverse_map` holds raw pointers to them. A node of `m_qnx_map` carries an address here, fresh for
every node that is created, so that a pointer to a node that was erased is recognisable.

Host pids are the values of `pid_t` from `-1` (no host pid) on; on those both hash functions land
between `m_start_pid` and `m_last_pid`, where `uint16_t` and `mpid_t` agree.
-/

namespace Qine

/-- `QnxPid::Type`. -/
inductive PidType where
  | empty
  | permanent
  | rootParent
  | self
  | child
  | sid
  | pgid
  deriving DecidableEq, Repr

/-- `QnxPid`. -/
structure QnxPid where
  type : PidType
  qnxPid : Int
  hostPid : Int
  deriving DecidableEq, Repr

/-- A node of `m_qnx_map`: its address, and the entry in it. -/
structure PidNode where
  addr : Nat
  pid : QnxPid
  deriving DecidableEq, Repr

/-- How a `PidMap` operation can fail. -/
inductive PidError where
  | pidMapFull
  | assertion (what : String)
  deriving DecidableEq, Repr

/-- `PidMap`. -/
structure PidMap where
  qnxMap : Std.TreeMap Int PidNode
  reverseMap : Std.TreeMap Int Nat
  /-- The next free address. -/
  nextAddr : Nat

namespace PidMap

/-- `m_start_pid`. -/
def startPid : Int := 10

/-- `m_last_pid`. -/
def lastPid : Int := 32767

/-- `PidMap::PidMap`. -/
def init : PidMap := ⟨∅, ∅, 0⟩

/-- `PidMap::compress_pid`; `%` truncates in C. -/
def compressPid (hostPid : Int) : Int :=
  let pidRange := lastPid - startPid + 1
  let hostPid := if hostPid < startPid then hostPid + pidRange else hostPid
  (startPid + (hostPid - startPid).tmod pidRange) % 2 ^ 16

/-- `PidMap::randomize_pid`, in `uint32_t` arithmetic. -/
def randomizePid (hostPid : Int) : Int :=
  let pidRange := lastPid - startPid + 1
  let hash := (startPid + hostPid % 2 ^ 32 * 3779) % 2 ^ 32
  (startPid + hash % pidRange) % 2 ^ 16

/-- The iterator that stands at the first key from `pid` on, as the nodes it has yet to visit. -/
def nodesFrom (s : PidMap) (pid : Int) : List (Int × PidNode) :=
  s.qnxMap.toList.filter (pid ≤ ·.1)

/-- `m_qnx_map.find(pid)`; the end iterator has nothing to visit. -/
def find (s : PidMap) (pid : Int) : List (Int × PidNode) :=
  if s.qnxMap.contains pid then s.nodesFrom pid else []

/-- The search loop of `alloc_empty`. It passes every pid at most once, which bounds the fuel. -/
def probe (s : PidMap) (startPid' : Int) :
    Nat → Int → List (Int × PidNode) → Except PidError Int
  | 0, tryPid, _ => .ok tryPid
  | _ + 1, tryPid, [] => .ok tryPid
  | n + 1, tryPid, (key, _) :: it =>
    if key = tryPid then
      -- at the end of the range the iterator goes back to the first key of the whole map
      let (tryPid, it) :=
        if tryPid = lastPid then (startPid, s.qnxMap.toList) else (tryPid + 1, it)
      if tryPid = startPid' then .error .pidMapFull else probe s startPid' n tryPid it
    else .ok tryPid

/-- `m_qnx_map[pid]`, with `m_qnx_pid` and `m_type` set as `alloc_empty` does: the pointer too. -/
def createEmpty (s : PidMap) (pid : Int) : PidMap × Nat :=
  match s.qnxMap[pid]? with
  | some node =>
    ({ s with qnxMap := s.qnxMap.insert pid ⟨node.addr, ⟨.empty, pid, node.pid.hostPid⟩⟩ },
      node.addr)
  | none =>
    ({ s with qnxMap := s.qnxMap.insert pid ⟨s.nextAddr, ⟨.empty, pid, 0⟩⟩,
              nextAddr := s.nextAddr + 1 }, s.nextAddr)

/-- The pid `alloc_empty` settles on. -/
def choosePid (s : PidMap) (hostPid : Int) : Except PidError Int :=
  if s.qnxMap.contains (compressPid hostPid) then
    s.probe (randomizePid hostPid) (lastPid - startPid + 1).toNat (randomizePid hostPid)
      (s.find (randomizePid hostPid))
  else .ok (compressPid hostPid)

/-- `PidMap::alloc_empty`: the map after it, the key of the entry and the pointer to it. -/
def allocEmpty (s : PidMap) (hostPid : Int) : Except PidError (PidMap × Int × Nat) := do
  let pid ← s.choosePid hostPid
  let (s, addr) := s.createEmpty pid
  return (s, pid, addr)

/-- Setting `m_type` and `m_host_pid` of the entry under `pid`. -/
def setEntry (s : PidMap) (pid : Int) (addr : Nat) (type : PidType) (hostPid : Int) : PidMap :=
  { s with qnxMap := s.qnxMap.insert pid ⟨addr, ⟨type, pid, hostPid⟩⟩ }

/-- `m_reverse_map[host_pid] = pi`. -/
def setReverse (s : PidMap) (hostPid : Int) (addr : Nat) : PidMap :=
  { s with reverseMap := s.reverseMap.insert hostPid addr }

/-- `PidMap::alloc_permanent_pid`. -/
def allocPermanentPid (s : PidMap) (pid hostPid : Int) : Except PidError (PidMap × Nat) :=
  if s.qnxMap.contains pid then
    .error (.assertion "m_qnx_map.find(pid) == m_qnx_map.end()")
  else if hostPid ≥ 0 ∧ s.reverseMap.contains hostPid then
    .error (.assertion "m_reverse_map.find(host_pid) == m_reverse_map.end()")
  else
    let (s, addr) := s.createEmpty pid
    let s := s.setEntry pid addr .permanent hostPid
    .ok (if hostPid ≥ 0 then s.setReverse hostPid addr else s, addr)

/-- `PidMap::alloc_related_pid`; the null pointer is `none`. -/
def allocRelatedPid (s : PidMap) (hostPid : Int) (type : PidType) :
    Except PidError (PidMap × Option Nat) :=
  if ¬(type = .pgid ∨ type = .sid ∨ type = .self ∨ type = .rootParent) then
    .error (.assertion "type == PGID || type == SID || type == SELF || type == ROOT_PARENT")
  else if hostPid = -1 then .ok (s, none)
  else match s.reverseMap[hostPid]? with
    | some addr => .ok (s, some addr)
    | none => do
      let (s, pid, addr) ← s.allocEmpty hostPid
      return ((s.setEntry pid addr type hostPid).setReverse hostPid addr, some addr)

/-- `PidMap::alloc_child_pid`. -/
def allocChildPid (s : PidMap) (hostPid : Int) : Except PidError (PidMap × Nat) :=
  if hostPid ≥ 0 ∧ s.reverseMap.contains hostPid then
    .error (.assertion "m_reverse_map.find(host_pid) == m_reverse_map.end()")
  else do
    let (s, pid, addr) ← s.allocEmpty hostPid
    let s := s.setEntry pid addr .child hostPid
    return (if hostPid ≥ 0 then s.setReverse hostPid addr else s, addr)

/-- `PidMap::qnx`. -/
def qnx (s : PidMap) (pid : Int) : Option PidNode := s.qnxMap[pid]?

/-- `PidMap::host`: the pointer. -/
def host (s : PidMap) (pid : Int) : Option Nat := s.reverseMap[pid]?

/-- `PidMap::free_pid` of the entry in `node`. -/
def freePid (s : PidMap) (node : PidNode) : PidMap :=
  { s with
    reverseMap :=
      if node.pid.hostPid > 0 ∧ node.pid.type = .child then s.reverseMap.erase node.pid.hostPid
      else s.reverseMap
    qnxMap := s.qnxMap.erase node.pid.qnxPid }

/-! ## The operations as steps -/

/-- The public calls that change the map. `free` is `free_pid` of the entry under a key. -/
inductive Op where
  | permanent (pid hostPid : Int)
  | related (hostPid : Int) (type : PidType)
  | child (hostPid : Int)
  | free (pid : Int)
  deriving DecidableEq, Repr

/-- The host pid of a call is a host pid. -/
def Op.Valid : Op → Prop
  | .permanent _ hostPid | .related hostPid _ | .child hostPid => -1 ≤ hostPid
  | .free _ => True

instance : (op : Op) → Decidable op.Valid
  | .permanent _ hostPid | .related hostPid _ | .child hostPid =>
    inferInstanceAs (Decidable (-1 ≤ hostPid))
  | .free _ => isTrue trivial

/-- One call. -/
def apply (s : PidMap) : Op → Except PidError PidMap
  | .permanent pid hostPid => Prod.fst <$> s.allocPermanentPid pid hostPid
  | .related hostPid type => Prod.fst <$> s.allocRelatedPid hostPid type
  | .child hostPid => Prod.fst <$> s.allocChildPid hostPid
  | .free pid =>
    match s.qnx pid with
    | some node => .ok (s.freePid node)
    | none => .ok s

/-- A call that succeeds, under a condition on the map before it. -/
def Step (cond : PidMap → Op → Prop) (s s' : PidMap) : Prop :=
  ∃ op : Op, op.Valid ∧ cond s op ∧ s.apply op = .ok s'

/-- The map with the pids 1 and 2 reserved, as `Process::initialize_pids` does first. -/
def reserved : PidMap :=
  ⟨(∅ : Std.TreeMap Int PidNode).insert 1 ⟨0, ⟨.empty, 1, 0⟩⟩ |>.insert 1 ⟨0, ⟨.permanent, 1, -1⟩⟩
    |>.insert 2 ⟨1, ⟨.empty, 2, 0⟩⟩ |>.insert 2 ⟨1, ⟨.permanent, 2, -1⟩⟩, ∅, 2⟩

example : init.apply (.permanent 1 (-1)) >>= (·.apply (.permanent 2 (-1))) = .ok reserved := rfl

/-- The maps reached after the pids 1 and 2 are reserved. -/
def Reachable (s : PidMap) : Prop := Relation.ReflTransGen (Step fun _ _ => True) reserved s

/-- The map after a call, if it succeeds. -/
def after (s : PidMap) (op : Op) : PidMap :=
  match s.apply op with
  | .ok s' => s'
  | .error _ => s

theorem run_after {cond : PidMap → Op → Prop} {s₀ s : PidMap}
    (h : Relation.ReflTransGen (Step cond) s₀ s) (op : Op) (hvalid : op.Valid) (hcond : cond s op) :
    Relation.ReflTransGen (Step cond) s₀ (s.after op) := by
  unfold after
  split
  · next hok => exact h.tail ⟨op, hvalid, hcond, hok⟩
  · exact h

end PidMap
end Qine

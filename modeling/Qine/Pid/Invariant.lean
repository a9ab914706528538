import Qine.Pid.Alloc
import Qine.Types

/-!
# The two maps of `PidMap` agree

`RepInv` is what the code relies on: entries know their key, every pointer in `m_reverse_map` leads
to a live entry with that host pid, and every entry with a host pid is the one `m_reverse_map` gives
for it. `repInv_of_run` shows that a run keeps it as long as

* `free_pid` is given entries without a host pid, or children with a positive one: for all others
  `free_pid` leaves the pointer in `m_reverse_map`, and
* no allocation wraps around onto an entry with a host pid (see `Qine.Pid.Alloc`), whose pointer then
  leads to an entry with another host pid.
-/

namespace Qine
namespace PidMap

/-- The representation invariant. -/
structure RepInv (s : PidMap) : Prop where
  key : ∀ k node, s.qnx k = some node → node.pid.qnxPid = k
  reverse : ∀ h a, s.host h = some a →
    ∃ k node, s.qnx k = some node ∧ node.addr = a ∧ node.pid.hostPid = h
  entry : ∀ k node, s.qnx k = some node → 0 ≤ node.pid.hostPid →
    s.host node.pid.hostPid = some node.addr

/-- The invariant together with what keeps pointers apart. -/
structure Inv (s : PidMap) : Prop extends RepInv s where
  addr_lt : ∀ k node, s.qnx k = some node → node.addr < s.nextAddr
  addr_inj : ∀ k k' node node', s.qnx k = some node → s.qnx k' = some node' →
    node.addr = node'.addr → k = k'
  nonneg : ∀ h a, s.host h = some a → 0 ≤ h

/-- Entries know their keys, and no two share a node. -/
structure Apart (s : PidMap) : Prop where
  key : ∀ k node, s.qnx k = some node → node.pid.qnxPid = k
  addr_lt : ∀ k node, s.qnx k = some node → node.addr < s.nextAddr
  addr_inj : ∀ k k' node node', s.qnx k = some node → s.qnx k' = some node' →
    node.addr = node'.addr → k = k'

theorem Inv.apart {s : PidMap} (h : s.Inv) : s.Apart := ⟨h.key, h.addr_lt, h.addr_inj⟩

/-! ## What the operations do -/

variable {s s' : PidMap} {pid hostPid : Int} {addr : Nat} {type : PidType}

/-- `s'` is `s` with an entry for `hostPid` under the key `pid`, in a fresh node or in the node that
was there. -/
structure Allocates (s s' : PidMap) (pid : Int) (addr : Nat) (type : PidType) (hostPid : Int) :
    Prop where
  qnx : ∀ k, s'.qnx k = if k = pid then some ⟨addr, ⟨type, pid, hostPid⟩⟩ else s.qnx k
  host : ∀ h, s'.host h = if 0 ≤ hostPid ∧ h = hostPid then some addr else s.host h
  node : (s.qnx pid = none ∧ addr = s.nextAddr ∧ s'.nextAddr = s.nextAddr + 1) ∨
    ∃ node, s.qnx pid = some node ∧ addr = node.addr ∧ s'.nextAddr = s.nextAddr

theorem createEmpty_node (s : PidMap) (pid : Int) :
    (s.qnx pid = none ∧ (s.createEmpty pid).2 = s.nextAddr ∧
        (s.createEmpty pid).1.nextAddr = s.nextAddr + 1) ∨
      ∃ node, s.qnx pid = some node ∧ (s.createEmpty pid).2 = node.addr ∧
        (s.createEmpty pid).1.nextAddr = s.nextAddr := by
  unfold createEmpty qnx
  cases h : s.qnxMap[pid]? with
  | none => exact .inl ⟨rfl, rfl, rfl⟩
  | some node => exact .inr ⟨node, rfl, rfl, rfl⟩

theorem createEmpty_host (s : PidMap) (pid h : Int) :
    (s.createEmpty pid).1.host h = s.host h := by
  unfold createEmpty host
  split <;> rfl

theorem qnx_setEntry (s : PidMap) (k pid : Int) (addr : Nat) (type : PidType) (hostPid : Int) :
    (s.setEntry pid addr type hostPid).qnx k =
      if k = pid then some ⟨addr, ⟨type, pid, hostPid⟩⟩ else s.qnx k := by
  simp only [qnx, setEntry, Std.TreeMap.getElem?_insert, Int.compare_eq_eq, eq_comm (a := k)]

theorem host_setReverse (s : PidMap) (h hostPid : Int) (addr : Nat) :
    (s.setReverse hostPid addr).host h = if h = hostPid then some addr else s.host h := by
  simp only [host, setReverse, Std.TreeMap.getElem?_insert, Int.compare_eq_eq, eq_comm (a := h)]

/-- An allocation, from creating the entry to registering its host pid. -/
theorem allocates_createEmpty (s : PidMap) (pid hostPid : Int) (type : PidType) :
    Allocates s
      (if 0 ≤ hostPid then
        ((s.createEmpty pid).1.setEntry pid (s.createEmpty pid).2 type hostPid).setReverse hostPid
          (s.createEmpty pid).2
       else (s.createEmpty pid).1.setEntry pid (s.createEmpty pid).2 type hostPid)
      pid (s.createEmpty pid).2 type hostPid := by
  refine ⟨?_, ?_, ?_⟩
  · intro k
    have hentry := qnx_setEntry (s.createEmpty pid).1 k pid (s.createEmpty pid).2 type hostPid
    by_cases hk : k = pid
    · rw [if_pos hk] at hentry ⊢
      split <;> exact hentry
    · rw [if_neg hk, (s.createEmpty_spec pid).2 k hk] at hentry
      rw [if_neg hk]
      split <;> exact hentry
  · intro h
    by_cases hhost : 0 ≤ hostPid
    · rw [if_pos hhost, host_setReverse]
      simp only [hhost, true_and]
      split
      · rfl
      · exact s.createEmpty_host pid h
    · rw [if_neg hhost, if_neg (fun hh => hhost hh.1)]
      exact s.createEmpty_host pid h
  · rcases s.createEmpty_node pid with ⟨h₁, h₂, h₃⟩ | ⟨node, h₁, h₂, h₃⟩
    · refine .inl ⟨h₁, h₂, ?_⟩
      split <;> exact h₃
    · refine .inr ⟨node, h₁, h₂, ?_⟩
      split <;> exact h₃

/-- `alloc_empty` only ever overwrites `m_start_pid`, and only by wrapping around. -/
theorem choosePid_fresh (hhost : -1 ≤ hostPid) (h : s.choosePid hostPid = .ok pid) :
    s.qnx pid = none ∨ (s.WrapsOntoTaken hostPid ∧ pid = startPid) := by
  by_cases hwraps : s.WrapsOntoTaken hostPid
  · rw [choosePid_of_wraps hwraps] at h
    cases h
    exact .inr ⟨hwraps, rfl⟩
  · rcases choosePid_of_not_wraps hhost hwraps with ⟨pid', hpid, -, -, hfree⟩ | ⟨hpid, -⟩
    · rw [hpid] at h
      cases h
      exact .inl (Std.TreeMap.getElem?_eq_none hfree)
    · rw [hpid] at h
      cases h

/-! ## Keeping the invariant -/

/-- The allocation would take over an entry that has a host pid. -/
def Overwrites (s : PidMap) (hostPid : Int) : Prop :=
  s.WrapsOntoTaken hostPid ∧ ∃ node, s.qnx startPid = some node ∧ 0 ≤ node.pid.hostPid

/-- When a call keeps the two maps in step. -/
def Careful (s : PidMap) : Op → Prop
  | .permanent _ _ => True
  | .related hostPid _ => s.host hostPid = none → ¬s.Overwrites hostPid
  | .child hostPid => ¬s.Overwrites hostPid
  | .free pid => ∀ node, s.qnx pid = some node →
      node.pid.hostPid < 0 ∨ (0 < node.pid.hostPid ∧ node.pid.type = .child)

/-- An entry after an allocation is the new one, or an old one under another key. -/
theorem Allocates.cases (h : Allocates s s' pid addr type hostPid) {k : Int} {node : PidNode}
    (hk : s'.qnx k = some node) :
    (k = pid ∧ node = ⟨addr, ⟨type, pid, hostPid⟩⟩) ∨ (k ≠ pid ∧ s.qnx k = some node) := by
  rw [h.qnx] at hk
  split at hk
  · next heq => exact .inl ⟨heq, (Option.some.inj hk).symm⟩
  · next hne => exact .inr ⟨hne, hk⟩

theorem Allocates.addr_ne (h : Allocates s s' pid addr type hostPid) (hs : s.Apart) {k : Int}
    {node : PidNode} (hk : k ≠ pid) (hnode : s.qnx k = some node) : node.addr ≠ addr := by
  intro heq
  rcases h.node with ⟨-, hfresh, -⟩ | ⟨node', hnode', haddr, -⟩
  · have := hs.addr_lt k node hnode
    omega
  · exact hk (hs.addr_inj k pid node node' hnode hnode' (heq.trans haddr))

theorem Allocates.addr_lt (h : Allocates s s' pid addr type hostPid) (hs : s.Apart) :
    addr < s'.nextAddr ∧ s.nextAddr ≤ s'.nextAddr := by
  rcases h.node with ⟨-, hfresh, hnext⟩ | ⟨node, hnode, haddr, hnext⟩
  · omega
  · have := hs.addr_lt pid node hnode
    omega

theorem Apart.allocates (hs : s.Apart) (h : Allocates s s' pid addr type hostPid) : s'.Apart where
  key := by
    intro k node hk
    rcases h.cases hk with ⟨rfl, rfl⟩ | ⟨-, hk⟩
    · rfl
    · exact hs.key k node hk
  addr_lt := by
    intro k node hk
    have hnext := h.addr_lt hs
    rcases h.cases hk with ⟨rfl, rfl⟩ | ⟨-, hk⟩
    · exact hnext.1
    · exact Nat.lt_of_lt_of_le (hs.addr_lt k node hk) hnext.2
  addr_inj := by
    intro k k' node node' hk hk' heq
    rcases h.cases hk with ⟨rfl, rfl⟩ | ⟨hne, hk⟩
    · rcases h.cases hk' with ⟨rfl, -⟩ | ⟨hne', hk'⟩
      · rfl
      · exact absurd heq.symm (h.addr_ne hs hne' hk')
    · rcases h.cases hk' with ⟨rfl, rfl⟩ | ⟨hne', hk'⟩
      · exact absurd heq (h.addr_ne hs hne hk)
      · exact hs.addr_inj k k' node node' hk hk' heq

theorem Inv.allocates (hinv : s.Inv) (h : Allocates s s' pid addr type hostPid)
    (hnew : 0 ≤ hostPid → s.host hostPid = none)
    (hold : ∀ node, s.qnx pid = some node → node.pid.hostPid < 0) : s'.Inv := by
  have hapart := hinv.apart.allocates h
  refine { hapart with reverse := ?_, entry := ?_, nonneg := ?_ }
  · intro h' a hrev
    rw [h.host] at hrev
    split at hrev
    · next hcond =>
        cases hrev
        exact ⟨pid, _, by rw [h.qnx, if_pos rfl], rfl, hcond.2.symm⟩
    · obtain ⟨k, node, hk, ha, hh⟩ := hinv.reverse h' a hrev
      -- an entry that is overwritten had no host pid, so no pointer led to it
      have hne : k ≠ pid := by
        rintro rfl
        have := hold node hk
        have := hinv.nonneg h' a hrev
        omega
      exact ⟨k, node, by rw [h.qnx, if_neg hne, hk], ha, hh⟩
  · intro k node hk hpos
    rw [h.host]
    rcases h.cases hk with ⟨rfl, rfl⟩ | ⟨hne, hk⟩
    · rw [if_pos ⟨hpos, rfl⟩]
    · have hrev := hinv.entry k node hk hpos
      rw [if_neg, hrev]
      rintro ⟨hpos', heq⟩
      rw [heq, hnew hpos'] at hrev
      cases hrev
  · intro h' a hrev
    rw [h.host] at hrev
    split at hrev
    · next hcond => exact hcond.2 ▸ hcond.1
    · exact hinv.nonneg h' a hrev

/-- The entry `alloc_empty` returns is new, or had no host pid. -/
theorem old_of_choosePid (hhost : -1 ≤ hostPid) (hover : ¬s.Overwrites hostPid)
    (h : s.choosePid hostPid = .ok pid) :
    ∀ node, s.qnx pid = some node → node.pid.hostPid < 0 := by
  intro node hnode
  rcases choosePid_fresh hhost h with hnone | ⟨hwraps, rfl⟩
  · rw [hnone] at hnode
    cases hnode
  · by_contra hpos
    exact hover ⟨hwraps, node, hnode, by omega⟩

theorem host_none_of_not_contains (hc : ¬(hostPid ≥ 0 ∧ s.reverseMap.contains hostPid))
    (hpos : 0 ≤ hostPid) : s.host hostPid = none := by
  apply Std.TreeMap.getElem?_eq_none
  intro hmem
  exact hc ⟨hpos, Std.TreeMap.mem_iff_contains.1 hmem⟩

theorem Inv.permanent (hinv : s.Inv) (h : s.allocPermanentPid pid hostPid = .ok (s', addr)) :
    s'.Inv := by
  unfold allocPermanentPid at h
  split at h
  · cases h
  · next hqnx =>
      split at h
      · cases h
      · next hrev =>
          cases h
          apply hinv.allocates (s.allocates_createEmpty pid hostPid .permanent)
          · exact host_none_of_not_contains hrev
          · intro node hnode
            have hnone : s.qnx pid = none :=
              Std.TreeMap.getElem?_eq_none (mt Std.TreeMap.mem_iff_contains.1 hqnx)
            rw [hnone] at hnode
            cases hnode

theorem allocEmpty_ok {r : PidMap × Int × Nat} (h : s.allocEmpty hostPid = .ok r) :
    s.choosePid hostPid = .ok r.2.1 ∧ r = ((s.createEmpty r.2.1).1, r.2.1, (s.createEmpty r.2.1).2) := by
  unfold allocEmpty at h
  cases hpid : s.choosePid hostPid with
  | error e =>
      rw [hpid] at h
      cases h
  | ok pid =>
      rw [hpid] at h
      cases h
      exact ⟨rfl, rfl⟩

/-- What a call of `alloc_child_pid` that returns has done. -/
theorem allocChildPid_ok (h : s.allocChildPid hostPid = .ok (s', addr)) :
    (0 ≤ hostPid → s.host hostPid = none) ∧
      ∃ pid, s.choosePid hostPid = .ok pid ∧ Allocates s s' pid addr .child hostPid := by
  unfold allocChildPid at h
  split at h
  · cases h
  · next hrev =>
      refine ⟨host_none_of_not_contains hrev, ?_⟩
      obtain ⟨r, hempty, h⟩ := bind_eq_ok.mp h
      obtain ⟨hpid, hr⟩ := allocEmpty_ok hempty
      rw [hr] at h
      cases h
      exact ⟨r.2.1, hpid, s.allocates_createEmpty _ hostPid .child⟩

/-- What a call of `alloc_related_pid` that returns has done. -/
theorem allocRelatedPid_ok {a : Option Nat} (hhost : -1 ≤ hostPid)
    (h : s.allocRelatedPid hostPid type = .ok (s', a)) :
    (s' = s ∧ (hostPid ≠ -1 → a = s.host hostPid ∧ a.isSome)) ∨
      (0 ≤ hostPid ∧ s.host hostPid = none ∧ ∃ pid addr, a = some addr ∧
        s.choosePid hostPid = .ok pid ∧ Allocates s s' pid addr type hostPid) := by
  unfold allocRelatedPid at h
  split at h
  · cases h
  split at h
  · next heq =>
      cases h
      exact .inl ⟨rfl, fun hne => absurd heq hne⟩
  next hne =>
  cases hrev : s.reverseMap[hostPid]? with
  | some addr =>
      rw [hrev] at h
      cases h
      exact .inl ⟨rfl, fun _ => ⟨hrev.symm, rfl⟩⟩
  | none =>
      rw [hrev] at h
      obtain ⟨r, hempty, h⟩ := bind_eq_ok.mp h
      obtain ⟨hpid, hr⟩ := allocEmpty_ok hempty
      rw [hr] at h
      cases h
      have halloc := s.allocates_createEmpty r.2.1 hostPid type
      rw [if_pos (by omega)] at halloc
      exact .inr ⟨by omega, hrev, r.2.1, _, rfl, hpid, halloc⟩

theorem Inv.child (hinv : s.Inv) (hhost : -1 ≤ hostPid) (hover : ¬s.Overwrites hostPid)
    (h : s.allocChildPid hostPid = .ok (s', addr)) : s'.Inv := by
  obtain ⟨hnew, pid, hpid, halloc⟩ := allocChildPid_ok h
  exact hinv.allocates halloc hnew (old_of_choosePid hhost hover hpid)

theorem Inv.related {addr : Option Nat} (hinv : s.Inv) (hhost : -1 ≤ hostPid)
    (hover : s.host hostPid = none → ¬s.Overwrites hostPid)
    (h : s.allocRelatedPid hostPid type = .ok (s', addr)) : s'.Inv := by
  rcases allocRelatedPid_ok hhost h with ⟨rfl, -⟩ | ⟨-, hnew, pid, a, -, hpid, halloc⟩
  · exact hinv
  · exact hinv.allocates halloc (fun _ => hnew) (old_of_choosePid hhost (hover hnew) hpid)

theorem qnx_freePid (s : PidMap) (node : PidNode) (k : Int) :
    (s.freePid node).qnx k = if k = node.pid.qnxPid then none else s.qnx k := by
  simp only [qnx, freePid, Std.TreeMap.getElem?_erase, Int.compare_eq_eq, eq_comm (a := k)]

theorem host_of_freePid {node : PidNode} {h : Int} {a : Nat}
    (hrev : (s.freePid node).host h = some a) : s.host h = some a := by
  simp only [host, freePid] at hrev
  split at hrev
  · rw [Std.TreeMap.getElem?_erase] at hrev
    split at hrev
    · cases hrev
    · exact hrev
  · exact hrev

/-- The pointer of a child is taken out. -/
theorem host_freeChild {node : PidNode} {h : Int}
    (hchild : 0 < node.pid.hostPid ∧ node.pid.type = .child) :
    (s.freePid node).host h = if h = node.pid.hostPid then none else s.host h := by
  simp only [host, freePid]
  rw [if_pos hchild, Std.TreeMap.getElem?_erase]
  simp only [Int.compare_eq_eq, eq_comm (a := h)]

/-- An entry without a host pid has no pointer, and that of a child is taken out: in both cases the
pointers that are left are those of the other host pids. -/
theorem host_freePid {node : PidNode} {h : Int} (hpos : 0 ≤ h)
    (hcareful : node.pid.hostPid < 0 ∨ (0 < node.pid.hostPid ∧ node.pid.type = .child)) :
    (s.freePid node).host h = if h = node.pid.hostPid then none else s.host h := by
  rcases hcareful with hneg | hchild
  · simp only [host, freePid]
    rw [if_neg (by omega), if_neg (by omega)]
  · exact host_freeChild hchild

/-- The entries that are left after `free_pid` are the old ones under other keys. -/
theorem qnx_of_freePid {node node' : PidNode} {k : Int} (hk : (s.freePid node).qnx k = some node') :
    k ≠ node.pid.qnxPid ∧ s.qnx k = some node' := by
  rw [qnx_freePid] at hk
  split at hk
  · cases hk
  · next hne => exact ⟨hne, hk⟩

theorem Apart.free (hs : s.Apart) (node : PidNode) : (s.freePid node).Apart where
  key k node' hk := hs.key k node' (qnx_of_freePid hk).2
  addr_lt k node' hk := hs.addr_lt k node' (qnx_of_freePid hk).2
  addr_inj k k' n n' hk hk' := hs.addr_inj k k' n n' (qnx_of_freePid hk).2 (qnx_of_freePid hk').2

theorem Inv.free {node : PidNode} (hinv : s.Inv) (hnode : s.qnx pid = some node)
    (hcareful : node.pid.hostPid < 0 ∨ (0 < node.pid.hostPid ∧ node.pid.type = .child)) :
    (s.freePid node).Inv := by
  have hkey := hinv.key pid node hnode
  have hapart := hinv.apart.free node
  refine { hapart with reverse := ?_, entry := ?_, nonneg := ?_ }
  · intro h a hrev
    have hold := host_of_freePid hrev
    obtain ⟨k, node', hk, ha, hh⟩ := hinv.reverse h a hold
    have hne : k ≠ pid := by
      rintro rfl
      rw [hnode] at hk
      cases hk
      rw [host_freePid (hinv.nonneg h a hold) hcareful, if_pos hh.symm] at hrev
      cases hrev
    exact ⟨k, node', by rw [qnx_freePid, hkey, if_neg hne, hk], ha, hh⟩
  · intro k node' hk hpos
    obtain ⟨hne, hk⟩ := qnx_of_freePid hk
    have hrev := hinv.entry k node' hk hpos
    rw [host_freePid hpos hcareful, if_neg, hrev]
    intro heq
    have hrev' := hinv.entry pid node hnode (heq ▸ hpos)
    rw [← heq, hrev] at hrev'
    rw [hkey] at hne
    exact hne (hinv.addr_inj k pid node' node hk hnode (Option.some.inj hrev'))
  · intro h a hrev
    exact hinv.nonneg h a (host_of_freePid hrev)

theorem map_fst_eq_ok {α β ε : Type} {x : Except ε (α × β)} {a : α}
    (h : Prod.fst <$> x = .ok a) : ∃ b, x = .ok (a, b) := by
  cases x with
  | error e => cases h
  | ok r =>
      cases h
      exact ⟨r.2, rfl⟩

/-- One careful call keeps the invariant. -/
theorem Inv.step (hinv : s.Inv) (h : Step Careful s s') : s'.Inv := by
  obtain ⟨op, hvalid, hcareful, happly⟩ := h
  cases op with
  | permanent pid hostPid =>
      obtain ⟨_, hok⟩ := map_fst_eq_ok happly
      exact hinv.permanent hok
  | related hostPid type =>
      obtain ⟨_, hok⟩ := map_fst_eq_ok happly
      exact hinv.related hvalid hcareful hok
  | child hostPid =>
      obtain ⟨_, hok⟩ := map_fst_eq_ok happly
      exact hinv.child hvalid hcareful hok
  | free pid =>
      unfold apply at happly
      dsimp only at happly
      split at happly
      · next node hnode =>
          cases happly
          exact hinv.free hnode (hcareful node hnode)
      · cases happly
        exact hinv

theorem inv_init : init.Inv where
  key _ _ h := by cases h
  reverse _ _ h := by cases h
  entry _ _ h := by cases h
  addr_lt _ _ h := by cases h
  addr_inj _ _ _ _ h := by cases h
  nonneg _ _ h := by cases h

theorem inv_of_run (h : Relation.ReflTransGen (Step Careful) init s) : s.Inv := by
  induction h with
  | refl => exact inv_init
  | tail _ hstep ih => exact ih.step hstep

/-- In every run of careful calls the two maps agree: `host` only leads to live entries, and on the
entries with a host pid `host` and `qnx` are inverse to each other. -/
theorem repInv_of_run (h : Relation.ReflTransGen (Step Careful) init s) :
    s.RepInv ∧
    (∀ h a, s.host h = some a →
      ∃! k, ∃ node, s.qnx k = some node ∧ node.addr = a ∧ node.pid.hostPid = h) ∧
    ∀ k node, s.qnx k = some node → 0 ≤ node.pid.hostPid →
      ∀ h, s.host h = some node.addr ↔ h = node.pid.hostPid := by
  have hinv := inv_of_run h
  refine ⟨hinv.toRepInv, ?_, ?_⟩
  · intro h a hrev
    obtain ⟨k, node, hk, ha, hh⟩ := hinv.reverse h a hrev
    refine ⟨k, ⟨node, hk, ha, hh⟩, ?_⟩
    rintro k' ⟨node', hk', ha', -⟩
    exact hinv.addr_inj k' k node' node hk' hk (ha'.trans ha.symm)
  · intro k node hk hpos h
    constructor
    · intro hrev
      obtain ⟨k', node', hk', ha', hh'⟩ := hinv.reverse h node.addr hrev
      have heq := hinv.addr_inj k' k node' node hk' hk ha'
      rw [heq, hk] at hk'
      cases hk'
      exact hh'.symm
    · rintro rfl
      exact hinv.entry k node hk hpos

/-- A child that is allocated and freed again. -/
theorem repInv_child_freed : ((init.after (.child 4711)).after (.free 4711)).RepInv := by
  have hchild : init.Careful (.child 4711) := by
    rintro ⟨hwraps, -⟩
    have := hwraps.collides
    revert this
    decide +kernel
  have hfree : (init.after (.child 4711)).Careful (.free 4711) := by
    intro node hnode
    have hentry : (init.after (.child 4711)).qnx 4711 = some ⟨0, ⟨.child, 4711, 4711⟩⟩ := by
      decide +kernel
    rw [hentry] at hnode
    cases hnode
    decide
  have hrun := run_after .refl (.child 4711) (by decide) hchild
  exact (repInv_of_run (run_after hrun (.free 4711) trivial hfree)).1

/-- Freeing an entry of a related process leaves its pointer in `m_reverse_map`. -/
theorem free_related_dangles :
    let s := (reserved.after (.related 4711 .self)).after (.free 4711)
    Reachable s ∧ ¬s.RepInv := by
  intro s
  refine ⟨?_, fun h => ?_⟩
  · have h₁ : Reachable (reserved.after (.related 4711 .self)) :=
      run_after .refl _ (by decide) trivial
    exact run_after h₁ (.free 4711) trivial trivial
  · have hrev : s.host 4711 = some 2 := by decide +kernel
    obtain ⟨k, node, hk, ha, -⟩ := h.reverse 4711 2 hrev
    have hmem : (k, node) ∈ s.qnxMap.toList := Std.TreeMap.mem_toList_iff_getElem?_eq_some.2 hk
    have hlist : ∀ x ∈ s.qnxMap.toList, x.2.addr ≠ 2 := by decide +kernel
    exact hlist _ hmem ha

end PidMap
end Qine

import Qine.Types
import Qine.Lib.LinkRing
import Qine.Lib.StateExcept

/-!
# Intrusive lists

`IntrusiveList` of `intrusive_list.h`: nodes that carry the links of the list they are in, and the head
of a list, which is a node of its own. The nodes are known by their addresses, of any type, and an
address holds a node from its construction to its destruction.

* `WellFormed` — the head and the members of a list form a ring, and no other node has a link;
* `call_wellFormed` — every call that a client may make returns and keeps this;
* `reaches_ring` — what the nodes look like after any history of such calls.
-/

namespace Qine

open LinkRing

variable {α : Type}

/-- `IntrusiveList::GenericNode`. A link is `none` when it is null. -/
structure GenericNode (α : Type) where
  next : Option α
  prev : Option α
  deriving DecidableEq, Repr

/-- The nodes that are alive, by address. -/
abbrev Nodes (α : Type) := α → Option (GenericNode α)

/-- Routines that read and write nodes. -/
abbrev NodeM (α : Type) := EStateM Fault (Nodes α)

namespace GenericNode

/-- `GenericNode::GenericNode`. -/
def new : GenericNode α := ⟨none, none⟩

/-- `GenericNode::is_linked`. -/
def isLinked (n : GenericNode α) : Bool := !(n.next.isNone && n.prev.isNone)

/-- The node at an address. -/
def node (this : α) : NodeM α (GenericNode α) := do
  match (← get) this with
  | some n => return n
  | none => throw .outOfBounds

/-- The address in a pointer that is about to be used. -/
def deref (p : Option α) : NodeM α α :=
  match p with
  | some this => return this
  | none => throw .nullPointer

variable [DecidableEq α]

/-- `GenericNode::is_empty`, of the node at `this`. -/
def isEmpty (this : α) (n : GenericNode α) : Bool := n.next == some this

/-- `this->m_next = p`. -/
def setNext (this : α) (p : Option α) : NodeM α Unit := do
  let n ← node this
  modify (Function.update · this (some { n with next := p }))

/-- `this->m_prev = p`. -/
def setPrev (this : α) (p : Option α) : NodeM α Unit := do
  let n ← node this
  modify (Function.update · this (some { n with prev := p }))

/-- `GenericNode::erase`. -/
def erase (this : α) : NodeM α Unit := do
  let n ← node this
  setNext (← deref n.prev) n.next
  let n ← node this
  setPrev (← deref n.next) n.prev
  setNext this none
  setPrev this none

/-- `GenericNode::insert_after`. -/
def insertAfter (this next : α) : NodeM α Unit := do
  let n ← node this
  if n.isEmpty this then
    setNext this (some next)
    setPrev this (some next)
    setNext next (some this)
    setPrev next (some this)
  else
    let next2 := n.next
    setNext this (some next)
    setPrev (← deref next2) (some next)
    setPrev next (some this)
    setNext next next2

/-- `GenericNode::clear`, with a bound on the rounds of the loop. -/
def clear (this : α) : Nat → NodeM α Unit
  | 0 => throw .outOfBounds
  | fuel + 1 => do
    let n ← node this
    if !n.isEmpty this then
      erase (← deref n.next)
      clear this fuel

end GenericNode

section
variable [DecidableEq α]

/-- `Node::~Node`. -/
def destroyNode (this : α) : NodeM α Unit := do
  let n ← GenericNode.node this
  if n.isLinked then
    GenericNode.erase this
  modify (Function.update · this none)

/-- `List::List`, with the head at `head`. -/
def newList (head : α) : NodeM α Unit :=
  modify (Function.update · head (some ⟨some head, some head⟩))

/-- `List::~List`. -/
def destroyList (head : α) (fuel : Nat) : NodeM α Unit := do
  GenericNode.clear head fuel
  modify (Function.update · head none)

/-- What a client does with nodes and with the list. -/
inductive ListCall (α : Type) where
  | construct (v : α)
  | addFront (v : α)
  | erase (v : α)
  | destroy (v : α)
  deriving DecidableEq, Repr

namespace ListCall

/-- The call, of the list with its head at `head`. -/
def run (head : α) : ListCall α → NodeM α Unit
  | construct v => modify (Function.update · v (some GenericNode.new))
  | addFront v => GenericNode.insertAfter head v
  | erase v => GenericNode.erase v
  | destroy v => destroyNode v

/-- The call may be made: a node is constructed where none is, added while it is not linked, erased while
it is, and destroyed once. The head is not a client's node. -/
def Allowed (head : α) (nodes : Nodes α) : ListCall α → Prop
  | construct v => nodes v = none
  | addFront v => v ≠ head ∧ ∃ n, nodes v = some n ∧ n.isLinked = false
  | erase v => v ≠ head ∧ ∃ n, nodes v = some n ∧ n.isLinked = true
  | destroy v => v ≠ head ∧ ∃ n, nodes v = some n

/-- The members after the call, the one added last first. -/
def track (l : List α) : ListCall α → List α
  | construct _ => l
  | addFront v => v :: l
  | erase v => l.erase v
  | destroy v => l.erase v

/-- The members after a history of calls. -/
def recent (calls : List (ListCall α)) : List α := calls.foldl track []

end ListCall

/-- The nodes after a history of calls on a new list, each of them allowed when it was made. -/
inductive Reaches (head : α) : List (ListCall α) → Nodes α → Prop
  | new {nodes : Nodes α} (h : (newList head).run (fun _ => none) = .ok () nodes) : Reaches head [] nodes
  | call {calls : List (ListCall α)} {c : ListCall α} {nodes nodes' : Nodes α} (h : Reaches head calls nodes)
      (hallowed : c.Allowed head nodes) (hrun : (c.run head).run nodes = .ok () nodes') :
      Reaches head (calls ++ [c]) nodes'

end

/-! ## Links -/

/-- The forward links. -/
def nextOf (nodes : Nodes α) (v : α) : Option α := (nodes v).bind (·.next)

/-- The backward links. -/
def prevOf (nodes : Nodes α) (v : α) : Option α := (nodes v).bind (·.prev)

/-- The routine returns, with the nodes in the same places and with these links. -/
def Relinks (x : NodeM α Unit) (nodes : Nodes α) (next prev : α → Option α) : Prop :=
  ∃ nodes', x.run nodes = .ok () nodes' ∧ nextOf nodes' = next ∧ prevOf nodes' = prev ∧
    ∀ v, (nodes' v).isSome = (nodes v).isSome

variable {nodes : Nodes α} {head p q v : α} {l : List α} {next prev next' prev' : α → Option α}

theorem run_node {n : GenericNode α} (hv : nodes v = some n) :
    (GenericNode.node v).run nodes = .ok n nodes := by
  unfold GenericNode.node
  rw [EStateM.run_get_bind, hv]
  rfl

/-- A routine that begins by reading a node. -/
theorem relinks_node {f : GenericNode α → NodeM α Unit}
    (hv : (nodes v).isSome) (hf : Relinks (f ⟨nextOf nodes v, prevOf nodes v⟩) nodes next prev) :
    Relinks (GenericNode.node v >>= f) nodes next prev := by
  obtain ⟨n, hn⟩ := Option.isSome_iff_exists.1 hv
  have hlinks : n = ⟨nextOf nodes v, prevOf nodes v⟩ := by simp [nextOf, prevOf, hn]
  obtain ⟨nodes', hrun, h⟩ := hf
  exact ⟨nodes', (EStateM.run_bind_of_ok (run_node hn)).trans (hlinks ▸ hrun), h⟩

/-- One routine after another. -/
theorem Relinks.bind {x : NodeM α Unit} {f : Unit → NodeM α Unit} (hx : Relinks x nodes next prev)
    (hf : ∀ nodes₁, nextOf nodes₁ = next → prevOf nodes₁ = prev →
      (∀ v, (nodes₁ v).isSome = (nodes v).isSome) → Relinks (f ()) nodes₁ next' prev') :
    Relinks (x >>= f) nodes next' prev' := by
  obtain ⟨nodes₁, hrun, hnext, hprev, hsame⟩ := hx
  obtain ⟨nodes₂, hrun₂, hnext₂, hprev₂, hsame₂⟩ := hf nodes₁ hnext hprev hsame
  refine ⟨nodes₂, ?_, hnext₂, hprev₂, fun v => (hsame₂ v).trans (hsame v)⟩
  rw [EStateM.run_bind_of_ok hrun, hrun₂]

variable [DecidableEq α]

theorem nextOf_update (n : Option (GenericNode α)) :
    nextOf (Function.update nodes v n) = Function.update (nextOf nodes) v (n.bind (·.next)) := by
  funext w
  by_cases hw : w = v
  · subst hw
    simp [nextOf]
  · simp [nextOf, hw]

theorem prevOf_update (n : Option (GenericNode α)) :
    prevOf (Function.update nodes v n) = Function.update (prevOf nodes) v (n.bind (·.prev)) := by
  funext w
  by_cases hw : w = v
  · subst hw
    simp [prevOf]
  · simp [prevOf, hw]

/-- A node written over another leaves the nodes in the same places. -/
theorem isSome_update {n : GenericNode α} (hv : (nodes v).isSome) (w : α) :
    (Function.update nodes v (some n) w).isSome = (nodes w).isSome := by
  by_cases hw : w = v
  · subst hw
    simp [hv]
  · simp [hw]

theorem setNext_relinks (hv : (nodes v).isSome) (w : Option α) :
    Relinks (GenericNode.setNext v w) nodes (Function.update (nextOf nodes) v w) (prevOf nodes) := by
  obtain ⟨n, hn⟩ := Option.isSome_iff_exists.1 hv
  refine ⟨_, EStateM.run_bind_of_ok (run_node hn), nextOf_update _, ?_, isSome_update hv⟩
  have hprev : prevOf nodes v = n.prev := by simp [prevOf, hn]
  rw [prevOf_update]
  exact hprev ▸ Function.update_eq_self v _

theorem setPrev_relinks (hv : (nodes v).isSome) (w : Option α) :
    Relinks (GenericNode.setPrev v w) nodes (nextOf nodes) (Function.update (prevOf nodes) v w) := by
  obtain ⟨n, hn⟩ := Option.isSome_iff_exists.1 hv
  refine ⟨_, EStateM.run_bind_of_ok (run_node hn), ?_, prevOf_update _, isSome_update hv⟩
  have hnext : nextOf nodes v = n.next := by simp [nextOf, hn]
  rw [nextOf_update]
  exact hnext ▸ Function.update_eq_self v _

/-- Taking a node out links its neighbours with each other. -/
theorem erase_relinks (hv : (nodes v).isSome) (hp : (nodes p).isSome) (hq : (nodes q).isSome)
    (hnext : nextOf nodes v = some q) (hprev : prevOf nodes v = some p) :
    Relinks (GenericNode.erase v) nodes (Function.update (Function.update (nextOf nodes) p (some q)) v none)
      (Function.update (Function.update (prevOf nodes) q (some p)) v none) := by
  unfold GenericNode.erase
  refine relinks_node hv ?_
  simp only [hnext, hprev, GenericNode.deref, pure_bind]
  refine (setNext_relinks hp (some q)).bind ?_
  intro nodes₁ hn₁ hp₁ hs₁
  refine relinks_node (hs₁ v ▸ hv) ?_
  -- the first write leaves the links of the node as they were, also where it is its own neighbour
  have hnext₁ : nextOf nodes₁ v = some q := by
    rw [hn₁, Function.update_apply, hnext, ite_self]
  simp only [hnext₁, hp₁, hprev, pure_bind]
  refine (setPrev_relinks (hs₁ q ▸ hq) (some p)).bind ?_
  intro nodes₂ hn₂ hp₂ hs₂
  refine (setNext_relinks (hs₂ v ▸ hs₁ v ▸ hv) none).bind ?_
  intro nodes₃ hn₃ hp₃ hs₃
  have hlast := setPrev_relinks (hs₃ v ▸ hs₂ v ▸ hs₁ v ▸ hv) none
  rwa [hn₃, hp₃, hn₂, hp₂, hn₁, hp₁] at hlast

/-- A node put in behind another one stands between it and the one that was next to it. -/
theorem insertAfter_relinks (hv : (nodes v).isSome) (hhead : (nodes head).isSome) (hq : (nodes q).isSome)
    (hnext : nextOf nodes head = some q) :
    Relinks (GenericNode.insertAfter head v) nodes
      (Function.update (Function.update (nextOf nodes) head (some v)) v (some q))
      (Function.update (Function.update (prevOf nodes) q (some v)) v (some head)) := by
  unfold GenericNode.insertAfter
  refine relinks_node hhead ?_
  by_cases hempty : q = head
  · subst hempty
    simp only [GenericNode.isEmpty, hnext, beq_self_eq_true, if_true]
    refine (setNext_relinks hhead (some v)).bind ?_
    intro nodes₁ hn₁ hp₁ hs₁
    refine (setPrev_relinks (hs₁ q ▸ hhead) (some v)).bind ?_
    intro nodes₂ hn₂ hp₂ hs₂
    refine (setNext_relinks (hs₂ v ▸ hs₁ v ▸ hv) (some q)).bind ?_
    intro nodes₃ hn₃ hp₃ hs₃
    have hlast := setPrev_relinks (hs₃ v ▸ hs₂ v ▸ hs₁ v ▸ hv) (some q)
    rwa [hn₃, hp₃, hn₂, hp₂, hn₁, hp₁] at hlast
  · have hne : ¬ (some q == some head) = true := by simpa using hempty
    simp only [GenericNode.isEmpty, hnext, GenericNode.deref, pure_bind]
    rw [if_neg hne]
    refine (setNext_relinks hhead (some v)).bind ?_
    intro nodes₁ hn₁ hp₁ hs₁
    refine (setPrev_relinks (hs₁ q ▸ hq) (some v)).bind ?_
    intro nodes₂ hn₂ hp₂ hs₂
    refine (setPrev_relinks (hs₂ v ▸ hs₁ v ▸ hv) (some head)).bind ?_
    intro nodes₃ hn₃ hp₃ hs₃
    have hlast := setNext_relinks (hs₃ v ▸ hs₂ v ▸ hs₁ v ▸ hv) (some q)
    rwa [hn₃, hp₃, hn₂, hp₂, hn₁, hp₁] at hlast

/-! ## Well-formed lists -/

/-- The head and the members form a ring, and no other node has a link. -/
structure WellFormed (head : α) (nodes : Nodes α) (l : List α) : Prop where
  ring : Closed (nextOf nodes) (prevOf nodes) head l
  nodup : (head :: l).Nodup
  alive : ∀ v ∈ head :: l, (nodes v).isSome
  unlinked : ∀ v, v ∉ head :: l → nextOf nodes v = none ∧ prevOf nodes v = none

namespace WellFormed

variable (h : WellFormed head nodes l)
include h

omit [DecidableEq α] in
theorem head_notMem : head ∉ l := (List.nodup_cons.1 h.nodup).1

/-- The members are the nodes that say they are linked. -/
theorem isLinked_iff {n : GenericNode α} (hv : v ≠ head) (hn : nodes v = some n) :
    n.isLinked = true ↔ v ∈ l := by
  have hnext : nextOf nodes v = n.next := by simp [nextOf, hn]
  have hprev : prevOf nodes v = n.prev := by simp [prevOf, hn]
  constructor
  · intro hlinked
    by_contra hl
    obtain ⟨hnone, hnone'⟩ := h.unlinked v (by simp [hv, hl])
    simp [GenericNode.isLinked, ← hnext, ← hprev, hnone, hnone'] at hlinked
  · intro hl
    obtain ⟨l₁, l₂, rfl⟩ := List.append_of_mem hl
    obtain ⟨u, p, q, w, -, -, -, -, hq, -⟩ := h.ring.around
    simp [GenericNode.isLinked, ← hnext, hq]

/-- Erasing a member. -/
theorem erase (hv : v ∈ l) :
    ∃ nodes', (GenericNode.erase v).run nodes = .ok () nodes' ∧ WellFormed head nodes' (l.erase v) ∧
      ∀ w, (nodes' w).isSome = (nodes w).isSome := by
  obtain ⟨l₁, l₂, rfl⟩ := List.append_of_mem hv
  obtain ⟨u, p, q, w, hu, hw, -, -, hq, hp⟩ := h.ring.around
  have hpmem : p ∈ head :: l₁ := hu ▸ List.mem_append_right u List.mem_cons_self
  have hqmem : q ∈ l₂ ++ [head] := hw ▸ List.mem_cons_self
  have hpalive := h.alive p (by grind)
  have hqalive := h.alive q (by grind)
  have hv₁ : v ∉ head :: l₁ := by have := h.nodup; grind
  have hv₂ : v ∉ l₂ ++ [head] := by have := h.nodup; grind
  obtain ⟨nodes', hrun, hnext, hprev, hsame⟩ :=
    erase_relinks (h.alive v (List.mem_cons_of_mem _ hv)) hpalive hqalive hq hp
  have hpv : p ≠ v := fun he => hv₁ (he ▸ hpmem)
  have hqv : q ≠ v := fun he => hv₂ (he ▸ hqmem)
  have herase : (l₁ ++ v :: l₂).erase v = l₁ ++ l₂ := by
    rw [List.erase_append_right _ fun hm => hv₁ (List.mem_cons_of_mem _ hm), List.erase_cons_head]
  refine ⟨nodes', hrun, ?_, hsame⟩
  rw [herase]
  refine ⟨?_, h.nodup.sublist (by simp), ?_, ?_⟩
  · refine h.ring.remove h.nodup hq hp ?_ ?_ ?_ ?_
    · simp [hnext, hpv]
    · simp [hprev, hqv]
    · intro y hyp hyv
      simp [hnext, hyp, hyv]
    · intro y hyq hyv
      simp [hprev, hyq, hyv]
  · intro y hy
    rw [hsame y]
    exact h.alive y (by grind)
  · intro y hy
    rw [hnext, hprev]
    by_cases hyv : y = v
    · simp [hyv]
    · have hyp : y ≠ p := by grind
      have hyq : y ≠ q := by grind
      simpa [hyv, hyp, hyq] using h.unlinked y (by grind)

/-- Adding a node that is not a member. -/
theorem addFront (hv : v ∉ head :: l) (halive : (nodes v).isSome) :
    ∃ nodes', (GenericNode.insertAfter head v).run nodes = .ok () nodes' ∧
      WellFormed head nodes' (v :: l) := by
  have hq := h.ring.next_base
  have hqmem : l.headD head ∈ head :: l := by
    cases l <;> simp
  have hvq : v ≠ l.headD head := fun he => hv (he ▸ hqmem)
  have hvhead : v ≠ head := fun he => hv (he ▸ List.mem_cons_self)
  obtain ⟨nodes', hrun, hnext, hprev, hsame⟩ :=
    insertAfter_relinks halive (h.alive head List.mem_cons_self) (h.alive _ hqmem) hq
  refine ⟨nodes', hrun, ?_, ?_, ?_, ?_⟩
  · refine h.ring.insert h.nodup hv hq ?_ ?_ ?_ ?_ ?_ ?_
    · simp [hnext, hvhead.symm]
    · simp [hprev]
    · simp [hnext]
    · rw [hprev, Function.update_of_ne hvq.symm, Function.update_self]
    · intro y hyb hyv
      simp [hnext, hyb, hyv]
    · intro y hyq hyv
      rw [hprev, Function.update_of_ne hyv, Function.update_of_ne hyq]
  · have := h.nodup
    grind
  · intro y hy
    rw [hsame y]
    by_cases hyv : y = v
    · rw [hyv, halive]
    · exact h.alive y (by grind)
  · intro y hy
    have hyv : y ≠ v := by grind
    have hyb : y ≠ head := by grind
    have hyq : y ≠ l.headD head := by grind
    rw [hnext, hprev, Function.update_of_ne hyv, Function.update_of_ne hyv, Function.update_of_ne hyb,
      Function.update_of_ne hyq]
    exact h.unlinked y (by grind)

/-- An unlinked node comes or goes. -/
theorem replace (hv : v ∉ head :: l) {n : Option (GenericNode α)} (hnext : n.bind (·.next) = none)
    (hprev : n.bind (·.prev) = none) : WellFormed head (Function.update nodes v n) l := by
  obtain ⟨hvn, hvp⟩ := h.unlinked v hv
  have hn : nextOf (Function.update nodes v n) = nextOf nodes := by
    rw [nextOf_update, hnext]
    exact hvn ▸ Function.update_eq_self v _
  have hp : prevOf (Function.update nodes v n) = prevOf nodes := by
    rw [prevOf_update, hprev]
    exact hvp ▸ Function.update_eq_self v _
  refine ⟨?_, h.nodup, ?_, ?_⟩
  · rw [hn, hp]
    exact h.ring
  · intro y hy
    have hyv : y ≠ v := fun he => hv (he ▸ hy)
    rw [Function.update_of_ne hyv]
    exact h.alive y hy
  · intro y hy
    rw [hn, hp]
    exact h.unlinked y hy

/-- Erasing the first member until there is none. -/
theorem clear {fuel : Nat} (hfuel : l.length < fuel) :
    ∃ nodes', (GenericNode.clear head fuel).run nodes = .ok () nodes' ∧ WellFormed head nodes' [] ∧
      ∀ w, (nodes' w).isSome = (nodes w).isSome := by
  induction l generalizing nodes fuel with
  | nil =>
      obtain ⟨fuel, rfl⟩ := Nat.exists_eq_add_of_lt hfuel
      obtain ⟨n, hn⟩ := Option.isSome_iff_exists.1 (h.alive head List.mem_cons_self)
      have hnext : n.next = some head := by simpa [nextOf, hn] using h.ring.next_base
      refine ⟨nodes, ?_, h, fun _ => rfl⟩
      show (GenericNode.clear head (0 + fuel + 1)).run nodes = .ok () nodes
      rw [GenericNode.clear, EStateM.run_bind_of_ok (run_node hn)]
      simp [GenericNode.isEmpty, hnext]
  | cons a l ih =>
      obtain ⟨fuel, rfl⟩ := Nat.exists_eq_add_of_lt hfuel
      obtain ⟨n, hn⟩ := Option.isSome_iff_exists.1 (h.alive head List.mem_cons_self)
      have hnext : n.next = some a := by simpa [nextOf, hn] using h.ring.next_base
      have ha : a ≠ head := fun he => h.head_notMem (he ▸ List.mem_cons_self)
      obtain ⟨nodes₁, hrun₁, h₁, hsame₁⟩ := h.erase List.mem_cons_self
      rw [List.erase_cons_head] at h₁
      have hfuel₁ : l.length < l.length + 1 + fuel := by omega
      obtain ⟨nodes₂, hrun₂, h₂, hsame₂⟩ := ih h₁ hfuel₁
      refine ⟨nodes₂, ?_, h₂, fun w => (hsame₂ w).trans (hsame₁ w)⟩
      show (GenericNode.clear head (l.length + 1 + fuel + 1)).run nodes = .ok () nodes₂
      rw [GenericNode.clear, EStateM.run_bind_of_ok (run_node hn)]
      simp only [GenericNode.isEmpty, hnext, GenericNode.deref, pure_bind]
      rw [if_pos (by simpa using ha), EStateM.run_bind_of_ok hrun₁, hrun₂]

/-- The destruction of the list leaves every other node without links. -/
theorem destroyList {fuel : Nat} (hfuel : l.length < fuel) :
    ∃ nodes', (destroyList head fuel).run nodes = .ok () nodes' ∧
      ∀ v, nodes' v = if v = head then none else (nodes v).map fun _ => GenericNode.new := by
  obtain ⟨nodes₁, hrun, h₁, hsame⟩ := h.clear hfuel
  refine ⟨Function.update nodes₁ head none, ?_, ?_⟩
  · show (GenericNode.clear head fuel >>= _).run nodes = _
    rw [EStateM.run_bind_of_ok hrun]
    rfl
  · intro v
    by_cases hv : v = head
    · simp [hv]
    · rw [Function.update_of_ne hv, if_neg hv]
      obtain ⟨hnext, hprev⟩ := h₁.unlinked v (by simpa using hv)
      cases hn : nodes₁ v with
      | none =>
          have hnone : nodes v = none := by simpa [hn] using (hsame v).symm
          rw [hnone]
          rfl
      | some n =>
          obtain ⟨m, hm⟩ := Option.isSome_iff_exists.1 (by simpa [hn] using (hsame v).symm)
          have hlinks : n = GenericNode.new := by
            cases n
            simp_all [nextOf, prevOf, GenericNode.new]
          rw [hm, hlinks]
          rfl

end WellFormed

/-- A new list has no members. -/
theorem newList_wellFormed (head : α) :
    ∃ nodes, (newList head).run (fun _ => none) = .ok () nodes ∧ WellFormed head nodes [] := by
  refine ⟨_, rfl, closed_nil.2 ⟨?_, ?_⟩, List.nodup_singleton head, ?_, ?_⟩
  · simp [nextOf]
  · simp [prevOf]
  · intro v hv
    simp_all
  · intro v hv
    have hne : v ≠ head := by simpa using hv
    simp [nextOf, prevOf, hne]

/-- **Step.** An allowed call returns, and the list has the members it should have. -/
theorem call_wellFormed {c : ListCall α} (h : WellFormed head nodes l) (hc : c.Allowed head nodes) :
    ∃ nodes', (c.run head).run nodes = .ok () nodes' ∧ WellFormed head nodes' (c.track l) := by
  cases c with
  | construct v =>
      refine ⟨_, rfl, h.replace ?_ rfl rfl⟩
      intro hmem
      have halive := h.alive v hmem
      rw [show nodes v = none from hc] at halive
      cases halive
  | addFront v =>
      obtain ⟨hv, n, hn, hunlinked⟩ := hc
      have hl : v ∉ l := by
        rw [← h.isLinked_iff hv hn, hunlinked]
        decide
      exact h.addFront (by simp [hv, hl]) (by rw [hn]; rfl)
  | erase v =>
      obtain ⟨hv, n, hn, hlinked⟩ := hc
      obtain ⟨nodes', hrun, h', -⟩ := h.erase ((h.isLinked_iff hv hn).1 hlinked)
      exact ⟨nodes', hrun, h'⟩
  | destroy v =>
      obtain ⟨hv, n, hn⟩ := hc
      show ∃ nodes', (destroyNode v).run nodes = _ ∧ WellFormed head nodes' (l.erase v)
      unfold destroyNode
      rw [EStateM.run_bind_of_ok (run_node hn)]
      by_cases hl : v ∈ l
      · rw [if_pos ((h.isLinked_iff hv hn).2 hl)]
        obtain ⟨nodes₁, hrun, h₁, -⟩ := h.erase hl
        have hnotin : v ∉ head :: l.erase v := by
          simpa [hv] using ((List.nodup_cons.1 h.nodup).2.not_mem_erase)
        exact ⟨_, EStateM.run_bind_of_ok hrun, h₁.replace hnotin rfl rfl⟩
      · rw [if_neg (fun hlinked => hl ((h.isLinked_iff hv hn).1 hlinked)), List.erase_of_not_mem hl]
        exact ⟨_, rfl, h.replace (by simp [hv, hl]) rfl rfl⟩

theorem ListCall.recent_concat (calls : List (ListCall α)) (c : ListCall α) :
    recent (calls ++ [c]) = c.track (recent calls) := by
  rw [recent, List.foldl_concat]
  rfl

/-- **Run.** After any history of allowed calls the list has the members that the history leaves in it. -/
theorem reaches_wellFormed {calls : List (ListCall α)} (h : Reaches head calls nodes) :
    WellFormed head nodes (ListCall.recent calls) := by
  induction h with
  | new hnew =>
      obtain ⟨nodes, hrun, hwf⟩ := newList_wellFormed (α := α) _
      cases hrun.symm.trans hnew
      exact hwf
  | call _ hallowed hrun ih =>
      obtain ⟨nodes', hrun', hwf⟩ := call_wellFormed ih hallowed
      cases hrun'.symm.trans hrun
      rw [ListCall.recent_concat]
      exact hwf

/-- After any history of allowed calls the forward links from the head meet the members, the one added
last first, and the backward links meet them the other way round; every other node has no links; every
call that is allowed next returns; and the destruction of the list ends and leaves no node with links. -/
theorem reaches_ring {calls : List (ListCall α)} (h : Reaches head calls nodes) :
    let l := ListCall.recent calls
    (head :: l).Nodup ∧ Closed (nextOf nodes) (prevOf nodes) head l ∧
    (∀ fuel, l.length < fuel → follow (nextOf nodes) head fuel (nextOf nodes head) = some l ∧
      follow (prevOf nodes) head fuel (prevOf nodes head) = some l.reverse) ∧
    (∀ v n, v ≠ head → nodes v = some n →
      (n.isLinked = true ↔ v ∈ l) ∧ (v ∉ l → n.next = none ∧ n.prev = none)) ∧
    (∀ c : ListCall α, c.Allowed head nodes → ∃ nodes', (c.run head).run nodes = .ok () nodes') ∧
    ∀ fuel, l.length < fuel → ∃ nodes', (destroyList head fuel).run nodes = .ok () nodes' ∧
      ∀ v, nodes' v = if v = head then none else (nodes v).map fun _ => GenericNode.new := by
  have hwf := reaches_wellFormed h
  refine ⟨hwf.nodup, hwf.ring, ?_, ?_, ?_, ?_⟩
  · intro fuel hfuel
    refine ⟨hwf.ring.follow hwf.head_notMem hfuel, hwf.ring.reverse.follow ?_ ?_⟩
    · rw [List.mem_reverse]
      exact hwf.head_notMem
    · rwa [List.length_reverse]
  · intro v n hv hn
    refine ⟨hwf.isLinked_iff hv hn, ?_⟩
    intro hl
    have hnone := hwf.unlinked v (by simp [hv, hl])
    simpa [nextOf, prevOf, hn] using hnone
  · intro c hc
    obtain ⟨nodes', hrun, -⟩ := call_wellFormed hwf hc
    exact ⟨nodes', hrun⟩
  · intro fuel hfuel
    exact hwf.destroyList hfuel

/-- Two nodes are added and the first of them is destroyed while it is linked. -/
theorem reaches_ring_destroyed : ∃ nodes,
    follow (nextOf nodes) 0 2 (nextOf nodes 0) = some [2] ∧ (nodes 1).isNone = true ∧
      ∃ nodes', (destroyList 0 2).run nodes = .ok () nodes' ∧ nodes' 2 = some GenericNode.new := by
  have hnew : Reaches 0 [] (Function.update (fun _ => none) 0 (some ⟨some 0, some 0⟩)) := .new rfl
  have h₁ := hnew.call (c := .construct 1) (by simp [ListCall.Allowed]) rfl
  have h₂ := h₁.call (c := .construct 2) (by simp [ListCall.Allowed]) rfl
  have h₃ := h₂.call (c := .addFront 1) ⟨by decide, _, rfl, rfl⟩ rfl
  have h₄ := h₃.call (c := .addFront 2) ⟨by decide, _, rfl, rfl⟩ rfl
  have h₅ := h₄.call (c := .destroy 1) ⟨by decide, _, rfl⟩ rfl
  obtain ⟨-, -, hfollow, -, -, hdestroy⟩ := reaches_ring h₅
  obtain ⟨nodes', hrun, hnodes⟩ := hdestroy 2 (by decide)
  refine ⟨_, (hfollow 2 (by decide)).1, rfl, nodes', hrun, ?_⟩
  rw [hnodes]
  rfl

end Qine

import Mathlib.Data.List.ReduceOption
import Mathlib.Data.Multiset.MapFold
import Qine.Fd.Map
import Qine.Space.Calls

/-!
# The objects behind the ids

The descriptor table and the fd table own their objects: a `SegmentDescriptor` installs an LDT entry when it
is constructed and removes it when it is destroyed, and keeps its segment in memory in between.

Here the tables are taken with a record of the objects that have been constructed and not yet destroyed.
`IdMap::free` takes the object out of its slot with `release()`, which destroys nothing. `tidy_iff_spares`
says that the objects are those in the slots exactly as long as nothing has been freed.
-/

namespace Qine

/-! ## The objects in a table -/

namespace IdMap

variable {α : Type} {t : IdMap α} {i : Nat}

/-- The objects in the occupied slots. -/
def occupied (t : IdMap α) : Multiset α := ↑t.data.reduceOption

theorem mem_occupied {x : α} : x ∈ t.occupied ↔ ∃ i, t.get i = some x := by
  unfold occupied get
  rw [Multiset.mem_coe, List.reduceOption_mem_iff, List.mem_iff_getElem?]
  constructor
  · rintro ⟨i, h⟩
    exact ⟨i, by rw [h]; rfl⟩
  · rintro ⟨i, h⟩
    exact ⟨i, Option.join_eq_some_iff.mp h⟩

/-- A slot apart from the others. -/
theorem occupied_eq (t : IdMap α) (i : Nat) : t.occupied = ↑(t.get i).toList + (t.free i).occupied := by
  unfold occupied get free
  by_cases h : i < t.data.length
  · have hset : t.data.set i none = t.data.take i ++ none :: t.data.drop (i + 1) :=
      List.set_eq_take_append_cons_drop.trans (if_pos h)
    have hdata : t.data = t.data.take i ++ t.data[i] :: t.data.drop (i + 1) := by
      rw [← List.drop_eq_getElem_cons h, List.take_append_drop]
    rw [hset, List.getElem?_eq_getElem h]
    conv_lhs => rw [hdata]
    cases t.data[i] with
    | none => simp
    | some x =>
        rw [List.reduceOption_append, List.reduceOption_append, List.reduceOption_cons_of_some,
          List.reduceOption_cons_of_none]
        exact Multiset.coe_eq_coe.mpr List.perm_middle
  · rw [List.set_eq_of_length_le (Nat.le_of_not_lt h), List.getElem?_eq_none (Nat.le_of_not_lt h)]
    simp

theorem occupied_grow (t : IdMap α) (n : Nat) : (t.grow n).occupied = t.occupied := by
  unfold occupied grow
  split
  · rfl
  · simp [List.reduceOption_append]

theorem free_emplace (t : IdMap α) (i : Nat) (x : α) : (t.emplace i x).free i = (t.grow (i + 1)).free i := by
  simp [emplace, free]

theorem occupied_grow_free (t : IdMap α) (n : Nat) : ((t.grow n).free i).occupied = (t.free i).occupied := by
  have h := occupied_eq (t.grow n) i
  rw [occupied_grow, get_grow, occupied_eq t i] at h
  exact (add_left_cancel h).symm

/-- An object is put in a slot. -/
theorem occupied_emplace (t : IdMap α) (i : Nat) (x : α) :
    (t.emplace i x).occupied = x ::ₘ (t.free i).occupied := by
  rw [occupied_eq (t.emplace i x) i, get_emplace, if_pos rfl, free_emplace, occupied_grow_free]
  rfl

theorem occupied_free {x : α} (h : t.get i = some x) : t.occupied = x ::ₘ (t.free i).occupied := by
  rw [occupied_eq t i, h]
  rfl

theorem occupied_free_of_none (h : t.get i = none) : (t.free i).occupied = t.occupied := by
  rw [occupied_eq t i, h]
  simp

end IdMap

/-! ## The objects of the process -/

/-- What a `SegmentDescriptor` keeps all its life: its id and its segment. -/
def SegmentDescriptor.holding (sd : SegmentDescriptor) : Nat × Nat := (sd.id, sd.seg)

/-- The two tables, and the objects made for them. -/
structure Objects where
  space : Space
  fds : FdMap
  /-- the `SegmentDescriptor`s constructed and not destroyed -/
  descriptors : Multiset (Nat × Nat)
  /-- the numbers of the `QnxFd`s constructed and not destroyed -/
  qnxFds : Multiset Nat

/-- What can happen to the tables. -/
inductive TableCall where
  | createSegmentDescriptor (access : Access) (mem : Nat) (bits : Bitness)
  | createSegmentDescriptorAt (access : Access) (mem : Nat) (bits : Bitness) (id : Nat)
  | segmentFlags (msg : Space.SegmentRequest)
  | segmentFree (msg : Space.SegmentRequest)
  /-- the descriptor behind a selector has its entry computed anew, as after `segment_realloc` -/
  | updateDescriptors (sel : BitVec 16)
  /-- segments are made, grown and written to -/
  | memory (view : Space)
  /-- an entry for a descriptor that `scan_host_fds` has found open -/
  | inheritFd (fd : Nat) (nid pid vid : Int)
  | fdAttach (first : Nat) (nid pid vid : Int) (flags : BitVec 16)
  | fdDetach (fd : Nat)

namespace Objects

/-- `~SegmentDescriptor` of the object an owning pointer had before it was reset. -/
def destroyDescriptor (w : Objects) : Option SegmentDescriptor → Objects
  | none => w
  | some sd =>
    { w with
      space := { w.space with ldt := Function.update w.space.ldt sd.id none }
      descriptors := w.descriptors.erase sd.holding }

/-- `~QnxFd`, without what it does to the host. -/
def destroyFd (w : Objects) : Option QnxFd → Objects
  | none => w
  | some e => { w with qnxFds := w.qnxFds.erase e.fd }

/-- `emplace` of a new descriptor: it is constructed, and then put into its slot. -/
def emplaceDescriptor (w : Objects) (sd : SegmentDescriptor) (space : Space) : Objects :=
  ({ w with space := space, descriptors := sd.holding ::ₘ w.descriptors }).destroyDescriptor
    (w.space.descriptors.get sd.id)

/-- `emplace` of a new fd. -/
def emplaceFd (w : Objects) (fd : Nat) (fds : FdMap) : Objects :=
  ({ w with fds := fds, qnxFds := fd ::ₘ w.qnxFds }).destroyFd (w.fds.get fd)

/-- The objects after a call on the tables. One that throws has changed nothing. -/
def step (w : Objects) : TableCall → Objects
  | .createSegmentDescriptor access mem bits =>
    match (Space.createSegmentDescriptor access mem bits).run w.space with
    | .ok sd space => w.emplaceDescriptor sd space
    | .error _ _ => w
  | .createSegmentDescriptorAt access mem bits id =>
    match (Space.createSegmentDescriptorAt access mem bits id).run w.space with
    | .ok _ space => w.emplaceDescriptor ⟨id, access, mem, bits⟩ space
    | .error _ _ => w
  | .segmentFlags msg => { w with space := (Space.procSegmentFlags msg).after w.space }
  | .segmentFree msg => { w with space := (Space.procSegmentFree msg).after w.space }
  | .updateDescriptors sel =>
    match w.space.descriptorBySelector sel with
    | none => w
    | some sd => { w with space := w.space.refresh sd }
  | .memory view =>
    { w with space := { view with descriptors := w.space.descriptors, ldt := w.space.ldt } }
  | .inheritFd fd nid pid vid =>
    match w.fds.allocExactlyAt fd
        fun n => { QnxFd.make nid pid vid 0 n with isOpen := true, hostFd := n } with
    | .ok fds => w.emplaceFd fd fds
    | .error _ => w
  | .fdAttach first nid pid vid flags =>
    match w.fds.qnxFdAttach first nid pid vid flags with
    | .ok (some (fds, fd)) => w.emplaceFd fd fds
    | .ok none | .error _ => w
  | .fdDetach fd => { w with fds := (w.fds.qnxFdDetach fd).1 }

/-- Before there are any objects. -/
def init : Objects := ⟨Space.fresh, FdMap.init, 0, 0⟩

/-- The objects after a run. -/
def run (calls : List TableCall) : Objects := calls.foldl step init

/-- An object lives exactly as long as it is in its slot. -/
structure Tidy (w : Objects) : Prop where
  descriptors : w.descriptors.card = w.space.descriptors.occupied.card
  qnxFds : w.qnxFds.card = w.fds.occupied.card
  ldt : ∀ id, (w.space.ldt id).isSome = (w.space.descriptors.get id).isSome
  /-- the memory of a segment is kept only for descriptors that can be found -/
  released : ∀ h ∈ w.descriptors, ∃ id sd, w.space.descriptors.get id = some sd ∧ sd.seg = h.2

/-- The call frees an id that is in use. -/
def Releases (w : Objects) : TableCall → Prop
  | .segmentFree msg => (w.space.descriptorBySelector msg.sel).isSome
  | .fdDetach fd => (w.fds.get fd).isSome
  | _ => False

/-! ## What becomes of the objects -/

variable {w : Objects} {lostDescriptors : Multiset (Nat × Nat)} {lostFds : Multiset Nat}

/-- The objects are those in the slots, and some that are lost. -/
structure Accounts (w : Objects) (lostDescriptors : Multiset (Nat × Nat)) (lostFds : Multiset Nat) :
    Prop where
  descriptors : w.descriptors =
    w.space.descriptors.occupied.map SegmentDescriptor.holding + lostDescriptors
  qnxFds : w.qnxFds = w.fds.occupied.map QnxFd.fd + lostFds
  ldt : ∀ id, (w.space.ldt id).isSome ↔ ∃ seg, (id, seg) ∈ w.descriptors
  own : ∀ id sd, w.space.descriptors.get id = some sd → sd.id = id

theorem init_accounts : init.Accounts 0 0 where
  descriptors := rfl
  qnxFds := rfl
  ldt _ := by simp [init, Space.fresh]
  own _ _ h := nomatch h

/-- Without lost objects the tables are tidy; a lost one shows in the counts. -/
theorem Accounts.tidy_iff (h : w.Accounts lostDescriptors lostFds) :
    w.Tidy ↔ lostDescriptors = 0 ∧ lostFds = 0 := by
  constructor
  · intro ht
    have hd := ht.descriptors
    have hf := ht.qnxFds
    rw [h.descriptors, Multiset.card_add, Multiset.card_map] at hd
    rw [h.qnxFds, Multiset.card_add, Multiset.card_map] at hf
    exact ⟨Multiset.card_eq_zero.mp (by omega), Multiset.card_eq_zero.mp (by omega)⟩
  · rintro ⟨rfl, rfl⟩
    have hd : w.descriptors = w.space.descriptors.occupied.map SegmentDescriptor.holding := by
      rw [h.descriptors, add_zero]
    refine ⟨?_, ?_, ?_, ?_⟩
    · rw [hd, Multiset.card_map]
    · rw [h.qnxFds, add_zero, Multiset.card_map]
    · intro id
      rw [Bool.eq_iff_iff, h.ldt, hd]
      constructor
      · rintro ⟨seg, hseg⟩
        obtain ⟨sd, hsd, hholding⟩ := Multiset.mem_map.mp hseg
        obtain ⟨id', hget⟩ := IdMap.mem_occupied.mp hsd
        have hid : sd.id = id := congrArg Prod.fst hholding
        rw [← hid, h.own id' sd hget, hget]
        rfl
      · intro hsome
        obtain ⟨sd, hsd⟩ := Option.isSome_iff_exists.mp hsome
        refine ⟨sd.seg, Multiset.mem_map.mpr ⟨sd, IdMap.mem_occupied.mpr ⟨id, hsd⟩, ?_⟩⟩
        rw [SegmentDescriptor.holding, h.own id sd hsd]
    · intro x hx
      rw [hd] at hx
      obtain ⟨sd, hsd, rfl⟩ := Multiset.mem_map.mp hx
      obtain ⟨id, hget⟩ := IdMap.mem_occupied.mp hsd
      exact ⟨id, sd, hget, rfl⟩

/-- A new descriptor is put into a free slot. -/
theorem Accounts.emplaceDescriptor {sd : SegmentDescriptor} (h : w.Accounts lostDescriptors lostFds)
    (hfree : w.space.descriptors.get sd.id = none) :
    (w.emplaceDescriptor sd (w.space.install sd (w.space.descriptors.emplace sd.id sd))).Accounts
      lostDescriptors lostFds := by
  unfold Objects.emplaceDescriptor
  rw [hfree]
  refine ⟨?_, h.qnxFds, ?_, ?_⟩
  · show sd.holding ::ₘ w.descriptors =
      (w.space.descriptors.emplace sd.id sd).occupied.map SegmentDescriptor.holding + lostDescriptors
    rw [IdMap.occupied_emplace, IdMap.occupied_free_of_none hfree, h.descriptors,
      Multiset.map_cons, Multiset.cons_add]
  · intro id
    show (Function.update w.space.ldt sd.id _ id).isSome ↔ ∃ seg, (id, seg) ∈ sd.holding ::ₘ w.descriptors
    by_cases hid : id = sd.id
    · subst hid
      rw [Function.update_self]
      exact ⟨fun _ => ⟨sd.seg, Multiset.mem_cons_self _ _⟩, fun _ => rfl⟩
    · rw [Function.update_of_ne hid, h.ldt]
      have hne : ∀ seg, (id, seg) ≠ sd.holding := fun seg heq => hid (congrArg Prod.fst heq)
      simp [hne]
  · intro id sd' hget
    have hget' : (if sd.id = id then some sd else w.space.descriptors.get id) = some sd' :=
      (IdMap.get_emplace _ _ _ _).symm.trans hget
    split at hget'
    · next heq =>
        cases hget'
        exact heq
    · exact h.own id sd' hget'

/-- A descriptor that is alive has its entry computed anew. -/
theorem Accounts.ldt_refresh {sd : SegmentDescriptor} (h : w.Accounts lostDescriptors lostFds)
    (hmem : sd.holding ∈ w.descriptors) (id : Nat) :
    ((w.space.refresh sd).ldt id).isSome ↔ ∃ seg, (id, seg) ∈ w.descriptors := by
  show (Function.update w.space.ldt sd.id _ id).isSome ↔ _
  by_cases hid : id = sd.id
  · subst hid
    rw [Function.update_self]
    exact ⟨fun _ => ⟨sd.seg, hmem⟩, fun _ => rfl⟩
  · rw [Function.update_of_ne hid, h.ldt]

theorem Accounts.mem_descriptors {id : Nat} {sd : SegmentDescriptor}
    (h : w.Accounts lostDescriptors lostFds) (hget : w.space.descriptors.get id = some sd) :
    sd.holding ∈ w.descriptors := by
  rw [h.descriptors]
  exact Multiset.mem_add.mpr (.inl (Multiset.mem_map_of_mem _ (IdMap.mem_occupied.mpr ⟨id, hget⟩)))

/-- The object in a slot is changed, but keeps its id and its segment. -/
theorem Accounts.change {id : Nat} {sd sd' : SegmentDescriptor} (h : w.Accounts lostDescriptors lostFds)
    (hget : w.space.descriptors.get id = some sd) (hkeep : sd'.holding = sd.holding) :
    Accounts { w with space := w.space.install sd' (w.space.descriptors.emplace id sd') }
      lostDescriptors lostFds := by
  have hid : sd'.id = id := (congrArg Prod.fst hkeep).trans (h.own id sd hget)
  have hmem := h.mem_descriptors hget
  refine ⟨?_, h.qnxFds, ?_, ?_⟩
  · rw [h.descriptors, Space.install, IdMap.occupied_emplace, IdMap.occupied_free hget,
      Multiset.map_cons, Multiset.map_cons, hkeep]
  · rw [← hkeep] at hmem
    exact h.ldt_refresh hmem
  · intro k sd₁ hk
    have hk' : (if id = k then some sd' else w.space.descriptors.get k) = some sd₁ :=
      (IdMap.get_emplace _ _ _ _).symm.trans hk
    split at hk'
    · next heq =>
        cases hk'
        exact hid.trans heq
    · exact h.own k sd₁ hk'

/-- The object in a slot is let go, but not destroyed. -/
theorem Accounts.free {id : Nat} {sd : SegmentDescriptor} (h : w.Accounts lostDescriptors lostFds)
    (hget : w.space.descriptors.get id = some sd) :
    Accounts { w with space := { w.space with descriptors := w.space.descriptors.free id } }
      (sd.holding ::ₘ lostDescriptors) lostFds := by
  refine ⟨?_, h.qnxFds, h.ldt, ?_⟩
  · rw [h.descriptors, IdMap.occupied_free hget, Multiset.map_cons, Multiset.cons_add,
      Multiset.add_cons]
  · intro k sd₁ hk
    have hk' : (if id = k then none else w.space.descriptors.get k) = some sd₁ :=
      (IdMap.get_free _ _ _).symm.trans hk
    split at hk'
    · cases hk'
    · exact h.own k sd₁ hk'

/-- A new fd is put into a free slot. -/
theorem Accounts.emplaceFd {n : Nat} {e : QnxFd} (h : w.Accounts lostDescriptors lostFds)
    (hfree : w.fds.get n = none) (he : e.fd = n) :
    (w.emplaceFd n (w.fds.emplace n e)).Accounts lostDescriptors lostFds := by
  unfold Objects.emplaceFd
  rw [hfree]
  refine ⟨h.descriptors, ?_, h.ldt, h.own⟩
  show n ::ₘ w.qnxFds = (w.fds.emplace n e).occupied.map QnxFd.fd + lostFds
  rw [IdMap.occupied_emplace, IdMap.occupied_free_of_none hfree, h.qnxFds, Multiset.map_cons, he,
    Multiset.cons_add]

/-- An fd is let go, but not destroyed. -/
theorem Accounts.detachFd {n : Nat} {e : QnxFd} (h : w.Accounts lostDescriptors lostFds)
    (hget : w.fds.get n = some e) :
    Accounts { w with fds := w.fds.free n } lostDescriptors (e.fd ::ₘ lostFds) := by
  refine ⟨h.descriptors, ?_, h.ldt, h.own⟩
  rw [h.qnxFds, IdMap.occupied_free hget, Multiset.map_cons, Multiset.cons_add, Multiset.add_cons]

/-! ## Runs -/

theorem createSegmentDescriptor_ok {s s' : Space} {access : Access} {mem : Nat} {bits : Bitness}
    {sd : SegmentDescriptor}
    (h : (Space.createSegmentDescriptor access mem bits).run s = .ok sd s') :
    s.descriptors.get sd.id = none ∧ s' = s.install sd (s.descriptors.emplace sd.id sd) := by
  unfold Space.createSegmentDescriptor at h
  rw [EStateM.run_get_bind] at h
  unfold IdMap.allocAny at h
  cases hsearch : s.descriptors.search 0 false with
  | none =>
      rw [hsearch] at h
      cases h
  | some i =>
      rw [hsearch] at h
      cases h
      exact ⟨IdMap.search_free hsearch, rfl⟩

theorem createSegmentDescriptorAt_ok {s s' : Space} {access : Access} {mem id : Nat} {bits : Bitness}
    {u : Unit} (h : (Space.createSegmentDescriptorAt access mem bits id).run s = .ok u s') :
    s.descriptors.get id = none ∧
      s' = s.install ⟨id, access, mem, bits⟩ (s.descriptors.emplace id ⟨id, access, mem, bits⟩) := by
  unfold Space.createSegmentDescriptorAt at h
  rw [EStateM.run_get_bind] at h
  cases halloc : s.descriptors.allocExactlyAt id fun id => ⟨id, access, mem, bits⟩ with
  | error e =>
      rw [halloc] at h
      cases h
  | ok descriptors =>
      rw [halloc] at h
      cases h
      obtain ⟨-, hfree, rfl⟩ := IdMap.allocExactlyAt_ok halloc
      exact ⟨hfree, rfl⟩

theorem procSegmentFlags_after {s : Space} {msg : Space.SegmentRequest} {sd : SegmentDescriptor}
    (h : s.descriptorBySelector msg.sel = some sd) :
    ∃ sd', sd'.holding = sd.holding ∧ (Space.procSegmentFlags msg).after s =
      s.install sd' (s.descriptors.emplace (SegmentDescriptor.selToId msg.sel) sd') := by
  refine ⟨{ sd with access := Access.ofType (msg.flags &&& Space.pmfAccessMask).toNat }, rfl, ?_⟩
  unfold EStateM.after Space.procSegmentFlags
  rw [EStateM.run_get_bind, h]
  rfl

theorem procSegmentFlags_after_of_none {s : Space} {msg : Space.SegmentRequest}
    (h : s.descriptorBySelector msg.sel = none) : (Space.procSegmentFlags msg).after s = s := by
  unfold EStateM.after Space.procSegmentFlags
  rw [EStateM.run_get_bind, h]
  rfl

theorem procSegmentFree_after {s : Space} {msg : Space.SegmentRequest} {sd : SegmentDescriptor}
    (h : s.descriptorBySelector msg.sel = some sd) :
    (Space.procSegmentFree msg).after s = { s with descriptors := s.descriptors.free sd.id } := by
  unfold EStateM.after Space.procSegmentFree
  rw [EStateM.run_get_bind, h]
  rfl

theorem procSegmentFree_after_of_none {s : Space} {msg : Space.SegmentRequest}
    (h : s.descriptorBySelector msg.sel = none) : (Space.procSegmentFree msg).after s = s := by
  unfold EStateM.after Space.procSegmentFree
  rw [EStateM.run_get_bind, h]
  rfl

/-- A call either keeps the account, or frees an id and loses its object. -/
theorem step_accounts (h : w.Accounts lostDescriptors lostFds) (c : TableCall) :
    (¬ w.Releases c ∧ (w.step c).Accounts lostDescriptors lostFds) ∨
      (w.Releases c ∧ ∃ lost lost', (w.step c).Accounts lost lost' ∧ ¬ (lost = 0 ∧ lost' = 0)) := by
  cases c with
  | createSegmentDescriptor access mem bits =>
      refine .inl ⟨id, ?_⟩
      unfold step
      dsimp only
      split
      · next sd s' hrun =>
          obtain ⟨hfree, rfl⟩ := createSegmentDescriptor_ok hrun
          exact h.emplaceDescriptor hfree
      · exact h
  | createSegmentDescriptorAt access mem bits n =>
      refine .inl ⟨id, ?_⟩
      unfold step
      dsimp only
      split
      · next hrun =>
          obtain ⟨hfree, rfl⟩ := createSegmentDescriptorAt_ok hrun
          exact h.emplaceDescriptor hfree
      · exact h
  | segmentFlags msg =>
      refine .inl ⟨id, ?_⟩
      unfold step
      dsimp only
      cases hsd : w.space.descriptorBySelector msg.sel with
      | none =>
          rw [procSegmentFlags_after_of_none hsd]
          exact h
      | some sd =>
          obtain ⟨sd', hkeep, hafter⟩ := procSegmentFlags_after hsd
          rw [hafter]
          exact h.change hsd hkeep
  | segmentFree msg =>
      unfold step Releases
      dsimp only
      cases hsd : w.space.descriptorBySelector msg.sel with
      | none =>
          rw [procSegmentFree_after_of_none hsd]
          exact .inl ⟨Bool.noConfusion, h⟩
      | some sd =>
          rw [procSegmentFree_after hsd, h.own _ sd hsd]
          exact .inr ⟨rfl, _, _, h.free hsd, fun hlost => Multiset.cons_ne_zero hlost.1⟩
  | updateDescriptors sel =>
      refine .inl ⟨id, ?_⟩
      unfold step
      dsimp only
      split
      · exact h
      · next sd hsd =>
          exact ⟨h.descriptors, h.qnxFds, h.ldt_refresh (h.mem_descriptors hsd), h.own⟩
  | memory view => exact .inl ⟨id, h.descriptors, h.qnxFds, h.ldt, h.own⟩
  | inheritFd n nid pid vid =>
      refine .inl ⟨id, ?_⟩
      unfold step
      dsimp only
      split
      · next halloc =>
          obtain ⟨-, hfree, rfl⟩ := IdMap.allocExactlyAt_ok halloc
          exact h.emplaceFd hfree rfl
      · exact h
  | fdAttach first nid pid vid flags =>
      refine .inl ⟨id, ?_⟩
      unfold step FdMap.qnxFdAttach IdMap.allocStartingAt
      dsimp only
      by_cases hmax : w.fds.max ≤ first
      · rw [if_pos hmax]
        exact h
      · rw [if_neg hmax]
        cases hsearch : w.fds.search first false with
        | none => exact h
        | some n => exact h.emplaceFd (IdMap.search_free hsearch) rfl
  | fdDetach n =>
      unfold step Releases FdMap.qnxFdDetach
      dsimp only
      cases he : w.fds.get n with
      | none =>
          refine .inl ⟨Bool.noConfusion, h.descriptors, ?_, h.ldt, h.own⟩
          rw [IdMap.occupied_free_of_none he, h.qnxFds]
      | some e => exact .inr ⟨rfl, _, _, h.detachFd he, fun hlost => Multiset.cons_ne_zero hlost.2⟩

theorem run_append (calls : List TableCall) (c : TableCall) : run (calls ++ [c]) = (run calls).step c :=
  List.foldl_append

/-- No call of the run frees an id that is in use. -/
def Spares (calls : List TableCall) : Prop :=
  ∀ before c, before ++ [c] <+: calls → ¬ (run before).Releases c

theorem spares_append {calls : List TableCall} {c : TableCall} :
    Spares (calls ++ [c]) ↔ Spares calls ∧ ¬ (run calls).Releases c := by
  constructor
  · intro h
    exact ⟨fun before c' hc' => h before c' (hc'.trans (List.prefix_append _ _)),
      h calls c (List.prefix_refl _)⟩
  · rintro ⟨h, hc⟩ before c' hprefix
    rcases List.prefix_concat_iff.mp hprefix with heq | hold
    · obtain ⟨rfl, hlast⟩ := List.append_inj' heq rfl
      cases hlast
      exact hc
    · exact h before c' hold

/-- Nothing is lost as long as nothing is freed, and what has been lost stays lost. -/
theorem run_accounts (calls : List TableCall) :
    ∃ lost lost', (run calls).Accounts lost lost' ∧ (lost = 0 ∧ lost' = 0 ↔ Spares calls) := by
  induction calls using List.reverseRecOn with
  | nil =>
      refine ⟨0, 0, init_accounts, ?_⟩
      simp [Spares]
  | append_singleton calls c ih =>
      obtain ⟨lost, lost', haccounts, hiff⟩ := ih
      rw [run_append, spares_append, ← hiff]
      rcases step_accounts haccounts c with ⟨hc, hkept⟩ | ⟨hc, lost₁, lost₁', hlose, hne⟩
      · exact ⟨lost, lost', hkept, by simp [hc]⟩
      · exact ⟨lost₁, lost₁', hlose, by simp [hc, hne]⟩

/-- An object lives exactly as long as it is in its slot, in every run that frees no id that is in use,
and in no other. -/
theorem tidy_iff_spares (calls : List TableCall) : (run calls).Tidy ↔ Spares calls := by
  obtain ⟨lost, lost', haccounts, hiff⟩ := run_accounts calls
  rw [haccounts.tidy_iff, hiff]

/-- A segment is allocated and freed. The slot is free, but the LDT entry of the selector is still there,
and so is the segment. -/
theorem freed_selector_works :
    ∃ calls : List TableCall,
      calls = [.memory Space.fresh.pushSegment, .createSegmentDescriptor .readWrite 0 .b32,
        .segmentFree ⟨SegmentDescriptor.mkSel 0, 0, 0⟩] ∧
      ¬ (run calls).Tidy ∧ (run calls).space.descriptors.get 0 = none ∧
      ((run calls).space.ldt 0).isSome ∧ (run calls).descriptors = {(0, 0)} := by
  refine ⟨_, rfl, ?_, by decide, by decide, by decide⟩
  intro h
  exact absurd (h.ldt 0) (by decide)

end Objects
end Qine

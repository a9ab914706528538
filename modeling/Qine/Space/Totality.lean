import Qine.Space.Coherence

/-!
# Which segment messages are answered

`segment_alloc` and `segment_realloc` take their sizes from the program as they are. A reservation that is
too small, a full descriptor table and a host without memory are all reported as `std::bad_alloc`, which
nobody on the way to the trap catches: the handler does not return, and there is no reply.
`segment_messages_total_iff` says when this does not happen.
-/

namespace Qine

open SegmentDescriptor

/-! ## The states a process can be in -/

namespace StartupInput

open Starting Space

variable {α β : Type} {i : StartupInput} {dataSd : SegmentDescriptor} {w : Space} {host : Host}

/-- The step keeps the address space in order, and goes on with the same data segment. -/
def Orderly (x : StartM α) : Prop :=
  ∀ s, s.space.Inv → s.data < s.space.count →
    x.Leaves s (fun _ s' => s'.space.Inv ∧ s'.data < s'.space.count) (fun _ _ => True)

theorem Orderly.bind {x : StartM α} {f : α → StartM β} (hx : Orderly x) (hf : ∀ a, Orderly (f a)) :
    Orderly (x >>= f) :=
  fun s hinv hlt => (hx s hinv hlt).bind fun a s₁ h₁ => hf a s₁ h₁.1 h₁.2

theorem orderly_pure (a : α) : Orderly (pure a) :=
  fun _ hinv hlt => EStateM.leaves_pure ⟨hinv, hlt⟩

theorem orderly_forM {l : List α} {x : α → StartM Unit} (h : ∀ a, Orderly (x a)) : Orderly (forM l x) :=
  fun _ hinv hlt => EStateM.leaves_forM (fun a s hs => h a s hs.1 hs.2) ⟨hinv, hlt⟩

theorem orderly_onSbrk {x : SbrkM α} {g : Nat → Nat} (hx : StartupSbrk.Bounded x g) :
    Orderly (onSbrk x) := by
  intro s hinv hlt
  apply EStateM.leaves_zoom
  refine (hx.leaves s.sbrk s.offset (hinv.seg s.data) (Nat.le_refl _)).mono ?_ (fun _ _ h => h)
  intro _ a ha
  obtain ⟨limit, -, hseg⟩ := ha.seg
  exact ⟨hinv.grownTo hlt ha.inv hseg, hlt⟩

theorem orderly_inSpace {x : SpaceM α}
    (hx : ∀ w, w.Inv → x.Leaves w (fun _ w' => Adds w w') (fun _ _ => True)) : Orderly (inSpace x) := by
  intro s hinv hlt
  apply EStateM.leaves_zoom
  refine (hx s.space hinv).mono ?_ (fun _ _ h => h)
  intro _ w hadds
  exact ⟨hadds.inv, Nat.lt_of_lt_of_le hlt hadds.count⟩

theorem orderly_placeMagic {nbytes : Nat} {shared : Bool} {ptr : Nat → List Byte}
    (hsize : nbytes < 2 ^ 32) : Orderly (placeMagic host nbytes shared ptr) :=
  (orderly_onSbrk StartupSbrk.bounded_align).bind fun _ =>
    (orderly_onSbrk (StartupSbrk.bounded_alloc _)).bind fun _ =>
    (orderly_onSbrk StartupSbrk.bounded_ptr).bind fun _ =>
    (orderly_inSpace fun _ hw => createMagicPointer_leaves hw hsize).bind fun _ => orderly_pure _

theorem orderly_store (offset : Nat) (bytes : List Byte) :
    Orderly (onSbrk (StartupSbrk.store offset bytes)) :=
  orderly_onSbrk (StartupSbrk.bounded_store offset bytes)

theorem orderly_setupMagic : Orderly (i.setupMagic host dataSd) :=
  (orderly_placeMagic (by decide)).bind fun _ => (orderly_store _ _).bind fun _ =>
    (orderly_store _ _).bind fun _ => (orderly_store _ _).bind fun _ => orderly_store _ _

theorem orderly_setupMagic16 : Orderly (i.setupMagic16 host dataSd) :=
  (orderly_placeMagic (by decide)).bind fun _ =>
    (orderly_forM fun _ => orderly_store _ _).bind fun _ => (orderly_store _ _).bind fun _ =>
    (orderly_store _ _).bind fun _ => (orderly_store _ _).bind fun _ => orderly_store _ _

theorem orderly_updateDescriptors : Orderly (inSpace (updateDescriptors dataSd)) := by
  intro s hinv hlt
  apply EStateM.leaves_zoom
  exact EStateM.leaves_modify ⟨hinv.refresh dataSd, hlt⟩

theorem orderly_setupData : Orderly (i.setupData host dataSd) := by
  have hrest : Orderly (inSpace (createTimeSegment host) >>= fun _ =>
      onSbrk (layoutSpawn host i.path i.args i.envs) >>= fun _ =>
        inSpace (updateDescriptors dataSd)) :=
    (orderly_inSpace fun _ hw => createTimeSegment_leaves hw).bind fun _ =>
      (orderly_onSbrk (StartupSbrk.bounded_layoutSpawn _ _ _)).bind fun _ => orderly_updateDescriptors
  unfold setupData
  cases i.exec.bits with
  | b16 => exact orderly_setupMagic16.bind fun _ => hrest
  | b32 => exact orderly_setupMagic.bind fun _ => hrest

theorem setupStartupContext_inv (hinv : w.Inv) :
    (i.setupStartupContext host).Leaves w (fun _ w' => w'.Inv) (fun _ _ => True) := by
  unfold setupStartupContext
  split
  · exact EStateM.leaves_throw trivial
  · apply EStateM.leaves_get_bind
    split
    · exact EStateM.leaves_throw trivial
    · next dataSd hsd =>
        obtain ⟨-, -, hlt⟩ := descriptorBySelector_eq_some hinv hsd
        apply EStateM.leaves_zoom
        exact (orderly_setupData _ hinv hlt).mono (fun _ _ h => h.1) (fun _ _ h => h)

end StartupInput

namespace Space

variable {w w' : Space} {host : Host}

theorem perform_inv {op : Operation} (hinv : w.Inv) (hrun : (op.perform host).run w = .ok ⟨⟩ w') :
    w'.Inv := by
  cases op with
  | load slib info file =>
      obtain ⟨info', w₁, hload, hpure⟩ := EStateM.bind_ok.mp hrun
      obtain ⟨-, rfl⟩ := EStateM.pure_ok.mp hpure
      refine EStateM.Leaves.of_ok (Q := fun _ w' => Inv w') (E := fun _ _ => True)
        (EStateM.leaves_zoom ⟨?_, fun _ => trivial⟩) hload
      intro info' s' hload
      obtain ⟨f, -, hload⟩ := Lmf.load_of_loaderLoad hload
      exact (adds_of_load hinv hload).inv
  | startup i => exact (StartupInput.setupStartupContext_inv hinv).of_ok hrun
  | segmentAlloc bits msg =>
      obtain ⟨_, w₁, h₁, hpure⟩ := EStateM.bind_ok.mp hrun
      obtain ⟨-, rfl⟩ := EStateM.pure_ok.mp hpure
      exact ((procSegmentAlloc_leaves hinv).of_ok h₁).inv
  | segmentRealloc msg =>
      obtain ⟨_, w₁, h₁, hpure⟩ := EStateM.bind_ok.mp hrun
      obtain ⟨-, rfl⟩ := EStateM.pure_ok.mp hpure
      exact ((procSegmentRealloc_leaves hinv).of_ok h₁).1
  | segmentFlags msg =>
      obtain ⟨_, w₁, h₁, hpure⟩ := EStateM.bind_ok.mp hrun
      obtain ⟨-, rfl⟩ := EStateM.pure_ok.mp hpure
      exact ((procSegmentFlags_leaves hinv).of_ok h₁).1
  | program mem =>
      obtain rfl := EStateM.modify_ok.mp hrun
      exact hinv.withMem mem

theorem Inv.free (hinv : w.Inv) (id : Nat) :
    Inv { w with descriptors := w.descriptors.free id } := by
  have ht := hinv.table.free id
  refine ⟨hinv.seg, hinv.page, hinv.apart, hinv.fresh, hinv.prot, ⟨ht.max_eq, ht.bounded, rfl⟩, ?_⟩
  intro j sd hsd
  have hget : (if id = j then none else w.descriptors.get j) = some sd :=
    (IdMap.get_free _ _ _).symm.trans hsd
  split at hget
  · cases hget
  · exact hinv.descriptor j sd hget

theorem procSegmentFree_inv {msg : SegmentRequest} (hinv : w.Inv) :
    (procSegmentFree msg).Leaves w (fun _ w' => w'.Inv) (fun _ _ => True) := by
  unfold procSegmentFree
  apply EStateM.leaves_get_bind
  split
  · exact EStateM.leaves_pure hinv
  · next sd hsd => exact EStateM.leaves_modify_bind (EStateM.leaves_pure (hinv.free sd.id))

/-- The address spaces a process can have: a program is loaded and started, and then it sends segment
messages and runs, in any order. -/
inductive Reached : Space → Prop where
  | fresh : Reached fresh
  | performed {w w' : Space} (host : Host) (op : Operation) (h : Reached w)
      (hrun : (op.perform host).run w = .ok ⟨⟩ w') : Reached w'
  | freed {w w' : Space} {reply : SegmentReply} (msg : SegmentRequest) (h : Reached w)
      (hrun : (procSegmentFree msg).run w = .ok reply w') : Reached w'

theorem Reached.inv (h : Reached w) : w.Inv := by
  induction h with
  | fresh => exact fresh_inv
  | performed host op _ hrun ih => exact perform_inv ih hrun
  | freed msg _ hrun ih => exact (procSegmentFree_inv ih).of_ok hrun

end Space

/-! ## When a segment can be grown -/

namespace Segment

variable {s : Mapped} {host : Host} {size : Nat}

/-- The segment can be made `limit` bytes long: they are reserved, and the host has the pages that are
not there yet. -/
def HasRoom (host : Host) (seg : Segment) (limit : Nat) : Prop :=
  limit ≤ seg.reserved ∧ (limit ≤ seg.pagedSize ∨
    host.mmapFixed (seg.location + seg.pagedSize) (MemOps.alignPageUp limit - seg.pagedSize) = true)

theorem growPagedInternal_returns (haligned : MemOps.pageSize ∣ size)
    (hle : size + s.seg.pagedSize ≤ s.seg.reserved) (hlt : size + s.seg.pagedSize < 2 ^ 64) :
    (growPagedInternal host size).returns s = true ↔
      host.mmapFixed (s.seg.location + s.seg.pagedSize) size = true := by
  unfold EStateM.returns growPagedInternal
  rw [EStateM.run_get_bind, if_neg (by simpa using Nat.mod_eq_zero_of_dvd haligned),
    sizeT_of_lt hlt, if_neg (Nat.not_lt.mpr hle)]
  cases host.mmapFixed (s.seg.location + s.seg.pagedSize) size with
  | true => exact ⟨fun _ => rfl, fun _ => rfl⟩
  | false => exact ⟨Bool.noConfusion, Bool.noConfusion⟩

/-- `grow_bytes` returns if and only if there is room. -/
theorem growBytes_returns (h : RepInv s.seg) (hsize : size < 2 ^ 32) :
    (growBytes host size).returns s = true ↔ HasRoom host s.seg (size + s.seg.limitSize) := by
  have hlow := h.low
  have hpaged := h.paged_le
  have hlimit := h.limit_le
  have hneeded : sizeT (size + s.seg.limitSize) = size + s.seg.limitSize := sizeT_of_lt (by omega)
  unfold growBytes HasRoom
  rw [EStateM.returns_get_bind]
  dsimp only
  rw [hneeded]
  by_cases hres : s.seg.reserved < size + s.seg.limitSize
  · rw [if_pos hres]
    exact ⟨Bool.noConfusion, fun h => absurd h.1 (Nat.not_le.mpr hres)⟩
  · rw [if_neg hres]
    by_cases hmore : s.seg.pagedSize < size + s.seg.limitSize
    · -- the pages up to the new limit are still in the reservation, which is made of whole pages
      have hup : MemOps.alignPageUp (size + s.seg.limitSize) ≤ s.seg.reserved :=
        MemOps.alignPageUp_le h.reserved_aligned (Nat.le_of_not_lt hres)
      have hle := MemOps.le_alignPageUp (size + s.seg.limitSize)
      have haligned : MemOps.pageSize ∣
          MemOps.alignPageUp (size + s.seg.limitSize) - s.seg.pagedSize :=
        Nat.dvd_sub (MemOps.dvd_alignPageUp _) h.aligned
      have hinner := @growPagedInternal_returns s host _ haligned (by omega) (by omega)
      rw [if_pos hmore, EStateM.returns_bind]
      constructor
      · rintro ⟨u, s₁, hrun, -⟩
        exact ⟨Nat.le_of_not_lt hres, .inr (hinner.mp (EStateM.returns_iff.mpr ⟨u, s₁, hrun⟩))⟩
      · rintro ⟨-, hfew | hmap⟩
        · omega
        · obtain ⟨u, s₁, hrun⟩ := EStateM.returns_iff.mp (hinner.mpr hmap)
          exact ⟨u, s₁, hrun, rfl⟩
    · rw [if_neg hmore]
      exact ⟨fun _ => ⟨Nat.le_of_not_lt hres, .inl (Nat.le_of_not_lt hmore)⟩, fun _ => rfl⟩

end Segment

namespace Space

variable {w w' : Space} {host : Host} {i : Nat}

theorem onSegment_returns {α : Type} {x : SegM α} :
    (onSegment i x).returns w = x.returns (w.mapped i) := EStateM.returns_zoom

/-- Reserving memory for a segment that has none. -/
theorem reserve_ok {n : Nat} (hinit : w.segments i = Segment.init) :
    (reserve host i n).run w = .ok ⟨⟩ w' ↔ ∃ l, host.mmap w.used (sizeT (MemOps.alignPageUp n)) = some l ∧
      w' = w.putMapped i ⟨reservedAt l (sizeT (MemOps.alignPageUp n)), w.mem⟩ := by
  have hmapped : w.mapped i = ⟨Segment.init, w.mem⟩ := by rw [mapped, hinit]
  unfold reserve
  rw [EStateM.run_get_bind]
  cases hmap : host.mmap w.used (sizeT (MemOps.alignPageUp n)) with
  | none =>
      have hrun : (Segment.reserve host w.used n).run (w.mapped i) = .error .badAlloc (w.mapped i) := by
        rw [hmapped]
        unfold Segment.reserve
        rw [EStateM.run_get_bind, hmap]
        rfl
      have hzoom : (onSegment i (Segment.reserve host w.used n)).run w = .error .badAlloc _ :=
        EStateM.zoom_error hrun
      rw [hzoom]
      simp
  | some l =>
      have hrun : (Segment.reserve host w.used n).run (w.mapped i) =
          .ok ⟨⟩ ⟨reservedAt l (sizeT (MemOps.alignPageUp n)), w.mem⟩ := by
        rw [hmapped]
        unfold Segment.reserve
        rw [EStateM.run_get_bind, hmap]
        rfl
      have hzoom : (onSegment i (Segment.reserve host w.used n)).run w = .ok ⟨⟩ _ :=
        EStateM.zoom_ok hrun
      rw [hzoom]
      simp [eq_comm]

theorem createSegmentDescriptor_returns {access : Access} {mem : Nat} {bits : Bitness}
    (ht : IdMap.Rep 1024 w.descriptors w.descriptors.get) :
    (createSegmentDescriptor access mem bits).returns w = true ↔
      ∃ id < 1024, w.descriptors.get id = none := by
  unfold createSegmentDescriptor EStateM.returns
  rw [EStateM.run_get_bind]
  unfold IdMap.allocAny
  rw [ht.search]
  cases hleast : IdMap.least 1024 w.descriptors.get 0 false with
  | none =>
      refine ⟨Bool.noConfusion, ?_⟩
      rintro ⟨id, hid, hfree⟩
      have hex : ∃ id, 0 ≤ id ∧ id < 1024 ∧ (w.descriptors.get id).isSome = false :=
        ⟨id, Nat.zero_le _, hid, by rw [hfree]; rfl⟩
      rw [IdMap.least, dif_pos hex] at hleast
      cases hleast
  | some id =>
      obtain ⟨-, hlt, hfree, -⟩ := IdMap.least_spec hleast
      exact ⟨fun _ => ⟨id, hlt, by simpa using hfree⟩, fun _ => rfl⟩

/-! ## Requests -/

/-- How many bytes a `segment_alloc` is for. -/
def SegmentRequest.allocBytes (bits : Bitness) (msg : SegmentRequest) : Nat :=
  (if bits = .b16 then msg.nbytes &&& 0x1FFFF else msg.nbytes).toNat

/-- The reply describes a segment of at least `size` bytes, and its selector leads there. -/
def Provides (w : Space) (size : Nat) (reply : SegmentReply) : Prop :=
  ∃ sd, w.descriptorBySelector reply.sel = some sd ∧
    reply.addr.toNat = (w.segments sd.seg).location ∧
    reply.nbytes.toNat = (w.segments sd.seg).limitSize ∧ size ≤ (w.segments sd.seg).limitSize

/-- The handler returns with a reply: that there is a segment of at least `size` bytes, or else an error, and
then nothing has changed. -/
def Answers (x : SpaceM SegmentReply) (size : Nat) (w : Space) : Prop :=
  ∃ reply w', x.run w = .ok reply w' ∧
    if reply.status = BitVec.ofInt 16 qeok then w'.Provides size reply else w' = w

/-- There is all that a new segment of `size` bytes takes. -/
def CanAlloc (host : Host) (size : Nat) (w : Space) : Prop :=
  (∃ l, host.mmap w.pushSegment.used (MemOps.mega 1) = some l ∧
    Segment.HasRoom host (reservedAt l (MemOps.mega 1)) size) ∧
  ∃ id < 1024, w.descriptors.get id = none

/-- The segment behind the selector, if the request is for it to grow, can be made that long. -/
def CanRealloc (host : Host) (msg : SegmentRequest) (w : Space) : Prop :=
  ∀ sd, w.descriptorBySelector msg.sel = some sd → (w.segments sd.seg).shared = false →
    (w.segments sd.seg).limitSize < msg.nbytes.toNat →
    Segment.HasRoom host (w.segments sd.seg) msg.nbytes.toNat

theorem describe_provides {sd : SegmentDescriptor} {sel : BitVec 16} {size : Nat}
    (hinv : w.Inv) (hsd : w.descriptorBySelector sel = some sd)
    (hsize : size ≤ (w.segments sd.seg).limitSize) :
    (w.describe sd.seg sel).status = BitVec.ofInt 16 qeok ∧ w.Provides size (w.describe sd.seg sel) := by
  have hseg := hinv.seg sd.seg
  have hlow := hseg.low
  have hpaged := hseg.paged_le
  have hlimit := hseg.limit_le
  refine ⟨rfl, sd, hsd, ?_, ?_, hsize⟩
  · show (BitVec.ofNat 32 (w.segments sd.seg).location).toNat = _
    rw [BitVec.toNat_ofNat, Nat.mod_eq_of_lt (by omega)]
  · show (BitVec.ofNat 32 (w.segments sd.seg).limitSize).toNat = _
    rw [BitVec.toNat_ofNat, Nat.mod_eq_of_lt (by omega)]

theorem procSegmentAlloc_provides {bits : Bitness} {msg : SegmentRequest} (hinv : w.Inv) :
    (procSegmentAlloc host bits msg).Leaves w
      (fun reply w' => reply.status = BitVec.ofInt 16 qeok ∧ w'.Provides (msg.allocBytes bits) reply)
      (fun _ _ => True) := by
  unfold procSegmentAlloc
  dsimp only
  refine newSegment_leaves hinv (BitVec.isLt _) ?_ (fun _ => trivial)
  intro w₁ s hsize _ h₁
  have hcount := h₁.lt_count (k := 0) rfl
  refine ((createSegmentDescriptor_leaves h₁.inv hcount).mono (fun _ _ h => h)
    (fun _ _ _ => trivial)).bind ?_
  rintro sd w₂ ⟨hsd, hlt, -, -, hget, hw₂, hinv₂⟩
  have hseg : w.count = sd.seg := (congrArg SegmentDescriptor.seg hsd).symm
  have hfound : w₂.descriptorBySelector sd.selector = some sd := by
    rw [descriptorBySelector, SegmentDescriptor.selector, Lmf.selToId_mkSel _ hlt, hget, Function.update_self]
  have hlimit : (w₂.segments sd.seg).limitSize = msg.allocBytes bits := by
    have hshape := h₁.shape (k := 0) rfl
    rw [hw₂, ← hseg]
    exact hshape.limit.trans hsize
  apply EStateM.leaves_get_bind
  rw [hseg]
  exact EStateM.leaves_pure (describe_provides hinv₂ hfound (Nat.le_of_eq hlimit.symm))

theorem descriptors_growBytes {n : Nat} (hrun : (onSegment i (Segment.growBytes host n)).run w = .ok ⟨⟩ w') :
    w'.descriptors = w.descriptors := by
  have hkeeps : (onSegment i (Segment.growBytes host n)).Keeps Space.descriptors :=
    EStateM.keeps_zoom fun _ _ => rfl
  exact (hkeeps w).of_ok hrun

/-- The first bytes of a segment that was just reserved. -/
theorem growBytes_reservedAt_returns {used : List (Nat × Nat)} {l n : Nat}
    (hl : host.mmap used (MemOps.mega 1) = some l) (hn : n < 2 ^ 32) (mem : Mem) :
    (onSegment i (Segment.growBytes host n)).returns
        (w.putMapped i ⟨reservedAt l (MemOps.mega 1), mem⟩) = true ↔
      Segment.HasRoom host (reservedAt l (MemOps.mega 1)) n := by
  have hrep : Segment.RepInv (reservedAt l (MemOps.mega 1)) :=
    ⟨⟨host.mmap_low hl, Nat.zero_le _, Nat.le_refl _, Nat.dvd_zero _, (Nat.zero_div _).symm⟩,
      show MemOps.pageSize ∣ MemOps.mega 1 by decide⟩
  rw [onSegment_returns, mapped_putMapped]
  exact Segment.growBytes_returns hrep hn

/-- `segment_alloc` returns if and only if there is what it takes. -/
theorem procSegmentAlloc_returns {bits : Bitness} {msg : SegmentRequest} (hinv : w.Inv) :
    (procSegmentAlloc host bits msg).returns w = true ↔ w.CanAlloc host (msg.allocBytes bits) := by
  have hinit : w.pushSegment.segments w.count = Segment.init := Function.update_self _ _ _
  have hmega : sizeT (MemOps.alignPageUp (MemOps.mega 1)) = MemOps.mega 1 := by decide
  have hroom : ∀ l, host.mmap w.pushSegment.used (MemOps.mega 1) = some l → _ := fun l hl =>
    @growBytes_reservedAt_returns w.pushSegment host w.count _ l (msg.allocBytes bits) hl
      (BitVec.isLt _) w.mem
  unfold procSegmentAlloc CanAlloc
  rw [EStateM.returns_bind]
  constructor
  · rintro ⟨_, _, ⟨⟩, h⟩
    obtain ⟨⟨⟩, w₁, h₁, h⟩ := EStateM.returns_bind.mp h
    obtain ⟨l, hl, rfl⟩ := (reserve_ok hinit).mp h₁
    rw [hmega] at hl h
    obtain ⟨⟨⟩, w₂, h₂, h⟩ := EStateM.returns_bind.mp h
    obtain ⟨sd, w₃, h₃, -⟩ := EStateM.returns_bind.mp h
    have hsame : w₂.descriptors = w.descriptors := (descriptors_growBytes h₂).trans rfl
    have hfree := (createSegmentDescriptor_returns (by rw [hsame]; exact hinv.table)).mp
      (EStateM.returns_iff.mpr ⟨sd, w₃, h₃⟩)
    rw [hsame] at hfree
    exact ⟨⟨l, hl, (hroom l hl).mp (EStateM.returns_iff.mpr ⟨⟨⟩, w₂, h₂⟩)⟩, hfree⟩
  · rintro ⟨⟨l, hl, hgrow⟩, hfree⟩
    have h₁ : (reserve host w.count (MemOps.mega 1)).run w.pushSegment = .ok ⟨⟩ _ :=
      (reserve_ok hinit).mpr ⟨l, hmega.symm ▸ hl, rfl⟩
    rw [hmega] at h₁
    obtain ⟨⟨⟩, w₂, h₂⟩ := EStateM.returns_iff.mp ((hroom l hl).mpr hgrow)
    have hsame : w₂.descriptors = w.descriptors := (descriptors_growBytes h₂).trans rfl
    have hdescriptor : (createSegmentDescriptor .readWrite w.count bits).returns w₂ = true := by
      refine (createSegmentDescriptor_returns ?_).mpr ?_
      · rw [hsame]
        exact hinv.table
      · rw [hsame]
        exact hfree
    obtain ⟨sd, w₃, h₃⟩ := EStateM.returns_iff.mp hdescriptor
    refine ⟨_, _, rfl, EStateM.returns_bind.mpr ⟨_, _, h₁, ?_⟩⟩
    refine EStateM.returns_bind.mpr ⟨_, _, h₂, ?_⟩
    exact EStateM.returns_bind.mpr ⟨_, _, h₃, rfl⟩

theorem procSegmentRealloc_provides {msg : SegmentRequest} (hinv : w.Inv) :
    (procSegmentRealloc host msg).Leaves w
      (fun reply w' => if reply.status = BitVec.ofInt 16 qeok then w'.Provides msg.nbytes.toNat reply
        else w' = w)
      (fun _ _ => True) := by
  unfold procSegmentRealloc
  apply EStateM.leaves_get_bind
  dsimp only
  split
  · exact EStateM.leaves_pure rfl
  · next sd hsd =>
      split
      · exact EStateM.leaves_pure rfl
      · obtain ⟨hid, hlive, hlt⟩ := descriptorBySelector_eq_some hinv hsd
        split
        · next hgrow =>
            refine (hinv.growBytes_leaves hlt hgrow msg.nbytes.isLt).bind ?_
            rintro _ _ ⟨m, hseg, hm, rfl⟩
            refine EStateM.leaves_modify_bind (EStateM.leaves_get_bind (EStateM.leaves_pure ?_))
            have hinv₁ := hm.refresh sd
            have hlimit : (((w.putMapped sd.seg m).refresh sd).segments sd.seg).limitSize =
                max (w.segments sd.seg).limitSize msg.nbytes.toNat := by
              show ((w.putMapped sd.seg m).segments sd.seg).limitSize = _
              rw [segments_putMapped, hseg]
              rfl
            obtain ⟨hok, hprovides⟩ := @describe_provides _ _ _ msg.nbytes.toNat hinv₁
              (show ((w.putMapped sd.seg m).refresh sd).descriptorBySelector msg.sel = some sd from hsd)
              (by omega)
            rw [if_pos hok]
            exact hprovides
        · next hless =>
            obtain ⟨hok, hprovides⟩ := describe_provides hinv hsd (Nat.le_of_not_lt hless)
            refine EStateM.leaves_get_bind (EStateM.leaves_pure ?_)
            rw [if_pos hok]
            exact hprovides

/-- `segment_realloc` returns if and only if the segment can be made that long. -/
theorem procSegmentRealloc_returns {msg : SegmentRequest} (hinv : w.Inv) :
    (procSegmentRealloc host msg).returns w = true ↔ w.CanRealloc host msg := by
  unfold procSegmentRealloc CanRealloc
  rw [EStateM.returns_get_bind]
  cases hsd : w.descriptorBySelector msg.sel with
  | none =>
      refine ⟨?_, fun _ => rfl⟩
      rintro - sd' ⟨⟩
  | some sd =>
      dsimp only
      by_cases hshared : (w.segments sd.seg).shared = true
      · rw [if_pos hshared]
        refine ⟨fun _ sd' hsd' hnot => ?_, fun _ => rfl⟩
        cases hsd'
        rw [hshared] at hnot
        cases hnot
      · rw [if_neg hshared]
        by_cases hgrow : (w.segments sd.seg).limitSize < msg.nbytes.toNat
        · have hlt := msg.nbytes.isLt
          have hroom := @Segment.growBytes_returns (w.mapped sd.seg) host
            (msg.nbytes.toNat - (w.segments sd.seg).limitSize) (hinv.seg sd.seg) (by omega)
          rw [← onSegment_returns, show msg.nbytes.toNat - (w.segments sd.seg).limitSize +
            (w.mapped sd.seg).seg.limitSize = msg.nbytes.toNat from Nat.sub_add_cancel hgrow.le] at hroom
          rw [if_pos hgrow]
          constructor
          · intro h sd' hsd' _ _
            cases hsd'
            obtain ⟨⟨⟩, w₁, h₁, -⟩ := EStateM.returns_bind.mp h
            exact hroom.mp (EStateM.returns_iff.mpr ⟨_, _, h₁⟩)
          · intro h
            obtain ⟨⟨⟩, w₁, h₁⟩ := EStateM.returns_iff.mp
              (hroom.mpr (h sd rfl (Bool.eq_false_iff.mpr hshared) hgrow))
            exact EStateM.returns_bind.mpr ⟨_, _, h₁, rfl⟩
        · rw [if_neg hgrow]
          refine ⟨fun _ sd' hsd' _ hgrow' => ?_, fun _ => rfl⟩
          cases hsd'
          exact absurd hgrow' hgrow

/-- A handler that returns with the reply it should return with answers if and only if it returns. -/
theorem answers_iff_returns {x : SpaceM SegmentReply} {size : Nat}
    (h : x.Leaves w (fun reply w' =>
      if reply.status = BitVec.ofInt 16 qeok then w'.Provides size reply else w' = w) (fun _ _ => True)) :
    Answers x size w ↔ x.returns w = true := by
  rw [EStateM.returns_iff]
  constructor
  · rintro ⟨reply, w', hrun, -⟩
    exact ⟨reply, w', hrun⟩
  · rintro ⟨reply, w', hrun⟩
    exact ⟨reply, w', hrun, h.of_ok hrun⟩

/-- In whatever state a process is, a request for memory is answered if and only if the memory can be had. -/
theorem segment_messages_total_iff (h : Reached w) (host : Host) :
    (∀ bits msg, Answers (procSegmentAlloc host bits msg) (msg.allocBytes bits) w ↔
      w.CanAlloc host (msg.allocBytes bits)) ∧
    ∀ msg, Answers (procSegmentRealloc host msg) msg.nbytes.toNat w ↔ w.CanRealloc host msg := by
  constructor
  · intro bits msg
    rw [answers_iff_returns, procSegmentAlloc_returns h.inv]
    refine (procSegmentAlloc_provides h.inv).mono ?_ (fun _ _ h => h)
    rintro reply w' ⟨hok, hprovides⟩
    rw [if_pos hok]
    exact hprovides
  · intro msg
    rw [answers_iff_returns (procSegmentRealloc_provides h.inv), procSegmentRealloc_returns h.inv]

theorem reached_smallSpace : Reached smallSpace :=
  .performed Host.roomy (.load false .init smallFile) .fresh run_smallSpace

/-- The host has all the memory one could ask for, but the segments are made for a megabyte. -/
theorem one_megabyte_is_answered :
    Answers (procSegmentAlloc Host.roomy .b32 ⟨0, 0, 0x100000⟩) 0x100000 smallSpace := by
  refine ((segment_messages_total_iff reached_smallSpace Host.roomy).1 .b32 ⟨0, 0, 0x100000⟩).mpr ?_
  refine ⟨⟨Host.nextFree smallSpace.pushSegment.used, ?_, ?_⟩, 2, by decide, ?_⟩
  · decide +kernel
  · unfold Segment.HasRoom
    decide +kernel
  · decide +kernel

/-- A `segment_alloc` of one byte more throws. -/
theorem segment_alloc_throws :
    Reached smallSpace ∧
      (∃ w, (procSegmentAlloc Host.roomy .b32 ⟨0, 0, 0x100001⟩).run smallSpace = .error .badAlloc w) ∧
      ¬ Answers (procSegmentAlloc Host.roomy .b32 ⟨0, 0, 0x100001⟩) 0x100001 smallSpace := by
  have hthrows := EStateM.run_throws (x := procSegmentAlloc Host.roomy .b32 ⟨0, 0, 0x100001⟩)
    (s := smallSpace) (e := .badAlloc) (by decide +kernel)
  refine ⟨reached_smallSpace, hthrows, ?_⟩
  rintro ⟨reply, w', hrun, -⟩
  obtain ⟨w, herror⟩ := hthrows
  cases hrun.symm.trans herror

end Space
end Qine

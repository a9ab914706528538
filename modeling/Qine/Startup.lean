import Qine.Lib.Terminated
import Qine.Segment.Grow

/-!
# Startup data

`Process::setup_startup_context` puts what a program finds in memory at its start behind the heap's
beginning, with `StartupSbrk` handing out one piece after the other and growing the data segment as it
goes. The longest of these pieces is a spawn message that describes the program itself.

`layoutSpawn_leaves` says what the message looks like in memory when it is complete: a header with the
two counts, and behind it the strings, each with its terminator and without gaps.
-/

namespace Qine

/-- The strings of the startup data. -/
abbrev CString := List Byte

/-- `StartupSbrk`, with the segment it allocates from. -/
structure StartupSbrk where
  mapped : Mapped
  /-- `m_offset` -/
  offset : Nat
  /-- `m_last_offset` -/
  lastOffset : Nat

/-- What allocates startup data. -/
abbrev SbrkM := EStateM HostError StartupSbrk

namespace StartupSbrk

/-- `StartupSbrk::StartupSbrk`. -/
def make (mapped : Mapped) (offset : Nat) : StartupSbrk := ⟨mapped, offset, 2 ^ 32 - 1⟩

/-- Move `m_offset`, and grow the segment up to it. -/
def moveTo (host : Host) (offset : Nat) : SbrkM Unit := do
  modify fun s => { s with offset := offset }
  let needed := offset
  let size := (← get).mapped.seg.limitSize
  if size < needed then
    EStateM.zoom StartupSbrk.mapped (fun m s => { s with mapped := m })
      (Segment.growBytes host (needed - size))

/-- `StartupSbrk::alloc`. -/
def alloc (host : Host) (size : Nat) : SbrkM Unit := do
  modify fun s => { s with lastOffset := s.offset }
  moveTo host (uint32 ((← get).offset + size))

/-- `StartupSbrk::align`. -/
def align (host : Host) : SbrkM Unit := do
  moveTo host (uint32 (MemOps.alignUp (← get).offset 16))

/-- `StartupSbrk::ptr`, as an offset into the segment. -/
def ptr : SbrkM Nat := do
  let s ← get
  if s.mapped.seg.checkBounds s.lastOffset 0 then return s.lastOffset
  else throw (.fault (.assertion "check_bounds(offset, size)"))

/-- The bytes at an offset of the segment replaced. -/
def written (s : StartupSbrk) (offset : Nat) (bytes : List Byte) : StartupSbrk :=
  { s with mapped.mem := s.mapped.mem.write (s.mapped.seg.pointer offset) bytes }

/-- Store through a pointer into the segment; there are no pages behind its end or in its holes. -/
def store (offset : Nat) (bytes : List Byte) : SbrkM Unit := do
  let s ← get
  if s.mapped.seg.checkBounds offset bytes.length then set (s.written offset bytes)
  else throw (.fault .outOfBounds)

/-- `StartupSbrk::push_string`. -/
def pushString (host : Host) (str : CString) : SbrkM Unit := do
  alloc host (str.length + 1)
  store (← ptr) (str ++ [0])

end StartupSbrk

/-! ## The spawn message -/

namespace SpawnMsg

/-- `sizeof(QnxMsg::proc::spawn)`; the structure is packed. -/
def size : Nat := 24

/-- The offset of `m_argc`. -/
def argc : Nat := 20

/-- The offset of `m_envc`. -/
def envc : Nat := 22

/-- `QnxMsg::proc::msg_spawn::TYPE`. -/
def type : Nat := 3

end SpawnMsg

open StartupSbrk in
/-- The part of `Process::setup_startup_context` that lays out the spawn message: where it begins and
where it ends. -/
def layoutSpawn (host : Host) (path : CString) (args envs : List CString) : SbrkM (Nat × Nat) := do
  align host
  alloc host SpawnMsg.size
  let spawn ← ptr
  store spawn (leBytes 2 SpawnMsg.type)
  pushString host path
  forM args (pushString host)
  pushString host []
  forM envs (pushString host)
  pushString host []
  store (spawn + SpawnMsg.argc) (leBytes 2 args.length)
  store (spawn + SpawnMsg.envc) (leBytes 2 envs.length)
  let stop := (← get).offset
  align host
  return (spawn, stop)

/-! ## What is in memory -/

namespace StartupSbrk

variable {s s' : StartupSbrk} {host : Host} {loc start : Nat} {bytes : List Byte}

/-- The bytes from `start` up to `m_offset`, all of them inside the segment at `loc`. -/
structure Laid (loc start : Nat) (bytes : List Byte) (s : StartupSbrk) : Prop where
  inv : Segment.RepInv s.mapped.seg
  location : s.mapped.seg.location = loc
  offset : s.offset = start + bytes.length
  fits : s.offset ≤ s.mapped.seg.limitSize
  bytes : s.mapped.mem.read (loc + start) bytes.length = bytes

theorem moveTo_leaves {offset : Nat} (hinv : Segment.RepInv s.mapped.seg) (hoff : offset < 2 ^ 32) :
    (moveTo host offset).Leaves s
      (fun _ s' => Segment.RepInv s'.mapped.seg ∧ Segment.Extends s.mapped s'.mapped ∧
        s'.offset = offset ∧ s'.lastOffset = s.lastOffset ∧ offset ≤ s'.mapped.seg.limitSize ∧
        s.mapped.seg.limitSize ≤ s'.mapped.seg.limitSize ∧
        ∃ n, s'.mapped.seg.bitmap = s.mapped.seg.bitmap ++ List.replicate n true)
      (fun e s' => e = .badAlloc ∧ s'.mapped = s.mapped) := by
  unfold moveTo
  apply EStateM.leaves_modify_bind
  apply EStateM.leaves_get_bind
  dsimp only
  split
  · next hlt =>
      have hlt' : s.mapped.seg.limitSize < offset := hlt
      apply EStateM.leaves_zoom
      refine (Segment.growBytes_leaves hinv).mono ?_ ?_
      · rintro _ m ⟨hm, hext, hlimit, -, hbitmap⟩
        have hlimit' : m.seg.limitSize = sizeT (offset - s.mapped.seg.limitSize +
          s.mapped.seg.limitSize) := hlimit
        rw [Nat.sub_add_cancel (Nat.le_of_lt hlt'), sizeT_of_lt (by omega)] at hlimit'
        exact ⟨hm, hext, rfl, rfl, Nat.le_of_eq hlimit'.symm, by rw [hlimit']; omega, _, hbitmap⟩
      · rintro e m ⟨he, hm⟩
        exact ⟨he, hm⟩
  · next hle =>
      refine EStateM.leaves_pure ⟨hinv, .refl _, rfl, rfl, Nat.le_of_not_lt hle, Nat.le_refl _, 0, ?_⟩
      rw [List.replicate_zero, List.append_nil]

theorem align_leaves (hinv : Segment.RepInv s.mapped.seg) :
    (align host).Leaves s
      (fun _ s' => Segment.RepInv s'.mapped.seg ∧ Segment.Extends s.mapped s'.mapped ∧
        s'.offset ≤ s'.mapped.seg.limitSize)
      (fun _ _ => True) := by
  unfold align
  apply EStateM.leaves_get_bind
  refine (moveTo_leaves hinv (Nat.mod_lt _ (by decide))).mono ?_ (fun _ _ _ => trivial)
  rintro _ s' ⟨hinv', hext, hoffset, -, hle, -⟩
  exact ⟨hinv', hext, hoffset ▸ hle⟩

/-- What was below the limit stays as it is when the segment grows. -/
theorem read_of_extends {m m' : Mapped} {a n : Nat} (hinv : Segment.RepInv m.seg)
    (hext : Segment.Extends m m') (hfits : a + n ≤ m.seg.limitSize) :
    m'.mem.read (m.seg.location + a) n = m.mem.read (m.seg.location + a) n := by
  apply Memory.read_congr
  intro x _ hx
  have := hinv.limit_le
  exact hext.frame x (.inl (by omega))

theorem alloc_leaves {size : Nat} (h : s.Laid loc start bytes) :
    (alloc host size).Leaves s
      (fun _ s' => Segment.RepInv s'.mapped.seg ∧ s'.mapped.seg.location = loc ∧
        s'.lastOffset = s.offset ∧ s'.offset = uint32 (s.offset + size) ∧
        s'.offset ≤ s'.mapped.seg.limitSize ∧
        s'.mapped.mem.read (loc + start) bytes.length = bytes)
      (fun _ _ => True) := by
  unfold alloc
  apply EStateM.leaves_modify_bind
  apply EStateM.leaves_get_bind
  have hmove := @moveTo_leaves { s with lastOffset := s.offset } host (uint32 (s.offset + size)) h.inv
    (Nat.mod_lt _ (by decide))
  refine hmove.mono ?_ (fun _ _ _ => trivial)
  rintro _ s' ⟨hinv, hext, hoffset, hlast, hle, -⟩
  refine ⟨hinv, hext.location.trans h.location, hlast, hoffset, hoffset ▸ hle, ?_⟩
  have hread := read_of_extends (a := start) (n := bytes.length) h.inv hext (by
    have := h.offset
    have := h.fits
    show start + bytes.length ≤ s.mapped.seg.limitSize
    omega)
  have hloc : s.mapped.seg.location = loc := h.location
  rw [show ({ s with lastOffset := s.offset } : StartupSbrk).mapped.seg.location = loc from hloc] at hread
  exact hread.trans h.bytes

theorem ptr_leaves : ptr.Leaves s (fun o s' => s' = s ∧ o = s.lastOffset) (fun _ _ => True) := by
  unfold ptr
  apply EStateM.leaves_get_bind
  split
  · exact EStateM.leaves_pure ⟨rfl, rfl⟩
  · exact EStateM.leaves_throw trivial

theorem store_leaves {o : Nat} {bs : List Byte} :
    (store o bs).Leaves s
      (fun _ s' => o + bs.length ≤ s.mapped.seg.pagedSize ∧ s' = s.written o bs)
      (fun _ _ => True) := by
  unfold store
  apply EStateM.leaves_get_bind
  split
  · next hb => exact EStateM.leaves_set ⟨(Segment.lt_of_checkBounds hb).2, rfl⟩
  · exact EStateM.leaves_throw trivial

/-- A piece that is filled as soon as it is allocated lies right behind the ones before it. -/
theorem pushString_leaves {str : CString} (h : s.Laid loc start bytes) :
    (pushString host str).Leaves s (fun _ s' => s'.Laid loc start (bytes ++ (str ++ [0])))
      (fun _ _ => True) := by
  unfold pushString
  refine (alloc_leaves h).bind ?_
  rintro _ s₁ ⟨hinv, hloc, hlast, hoffset, hfits, hread⟩
  refine ptr_leaves.bind ?_
  rintro o s₁ ⟨rfl, rfl⟩
  refine store_leaves.mono ?_ (fun _ _ _ => trivial)
  rintro _ s₂ ⟨hpaged, rfl⟩
  have hlen : (str ++ [0]).length = str.length + 1 := by simp
  have hstart := h.offset
  have hlow := hinv.paged_lt
  rw [uint32_of_lt (by omega)] at hoffset
  refine ⟨hinv, hloc, ?_, hfits, ?_⟩
  · rw [List.length_append, hlen]
    show s₁.offset = start + (bytes.length + (str.length + 1))
    omega
  · show (s₁.mapped.mem.write (s₁.mapped.seg.location + s₁.lastOffset) (str ++ [0])).read _ _ = _
    have hdst : s₁.mapped.seg.location + s₁.lastOffset = loc + start + bytes.length := by omega
    rw [hdst, List.length_append, Memory.read_add,
      Memory.read_write_of_disjoint (.inl (Nat.le_refl _)), hread, Memory.read_write_self]

theorem pushStrings_leaves (strs : List CString) (h : s.Laid loc start bytes) :
    (forM strs (pushString host)).Leaves s
      (fun _ s' => s'.Laid loc start (bytes ++ Terminated.pack 0 strs)) (fun _ _ => True) := by
  induction strs generalizing s bytes with
  | nil => exact EStateM.leaves_pure (by rwa [Terminated.pack_nil, List.append_nil])
  | cons str strs ih =>
      rw [List.forM_cons]
      refine (pushString_leaves h).bind ?_
      intro _ s₁ h₁
      have hpack : bytes ++ Terminated.pack 0 (str :: strs) =
          bytes ++ (str ++ [0]) ++ Terminated.pack 0 strs := by simp
      rw [hpack]
      exact ih h₁

/-- Storing in front of what is laid out. -/
theorem Laid.store {o : Nat} {bs : List Byte} (h : s.Laid loc start bytes) (ho : o + bs.length ≤ start) :
    (s.written o bs).Laid loc start bytes := by
  refine ⟨h.inv, h.location, h.offset, h.fits, ?_⟩
  have hloc := h.location
  show (s.mapped.mem.write (s.mapped.seg.location + o) bs).read _ _ = _
  rw [Memory.read_write_of_disjoint (.inr (by omega))]
  exact h.bytes

/-- The counts of a spawn message whose strings are laid out. -/
theorem Laid.counts {spawn : Nat} (h : s.Laid loc (spawn + SpawnMsg.size) bytes) (argc envc : Nat) :
    let s' := (s.written (spawn + SpawnMsg.argc) (leBytes 2 argc)).written (spawn + SpawnMsg.envc)
      (leBytes 2 envc)
    s'.Laid loc (spawn + SpawnMsg.size) bytes ∧
      s'.mapped.mem.read (loc + (spawn + SpawnMsg.argc)) 4 = leBytes 2 argc ++ leBytes 2 envc := by
  intro s'
  have hargc := length_leBytes 2 argc
  have henvc := length_leBytes 2 envc
  have h₁ : (s.written (spawn + SpawnMsg.argc) (leBytes 2 argc)).Laid loc (spawn + SpawnMsg.size)
      bytes := h.store (by simp only [hargc, SpawnMsg.argc, SpawnMsg.size]; omega)
  refine ⟨h₁.store (by simp only [henvc, SpawnMsg.envc, SpawnMsg.size]; omega), ?_⟩
  show ((s.mapped.mem.write (s.mapped.seg.location + (spawn + SpawnMsg.argc)) (leBytes 2 argc)).write
    (s.mapped.seg.location + (spawn + SpawnMsg.envc)) (leBytes 2 envc)).read _ 4 = _
  have hnext : loc + (spawn + SpawnMsg.argc) + 2 = loc + (spawn + SpawnMsg.envc) := by
    rw [SpawnMsg.argc, SpawnMsg.envc]
    omega
  rw [h.location, show 4 = 2 + 2 from rfl, Memory.read_add, hnext,
    Memory.read_write_of_disjoint (.inl (Nat.le_of_eq hnext))]
  generalize leBytes 2 argc = a at *
  generalize leBytes 2 envc = b at *
  exact congrArg₂ (· ++ ·) (hargc ▸ Memory.read_write_self) (henvc ▸ Memory.read_write_self)

end StartupSbrk

open StartupSbrk in
/-- The spawn message once it is laid out: up to the counts the header is not looked at, and the
strings follow without a gap. -/
theorem layoutSpawn_leaves {s : StartupSbrk} {host : Host} {path : CString} {args envs : List CString}
    (hinv : Segment.RepInv s.mapped.seg) :
    (layoutSpawn host path args envs).Leaves s
      (fun r s' => ∃ header, header.length = SpawnMsg.argc ∧
        s'.mapped.mem.read (s'.mapped.seg.location + r.1) (r.2 - r.1) =
          header ++ (leBytes 2 args.length ++ leBytes 2 envs.length ++
            Terminated.pack 0 (path :: (args ++ [] :: (envs ++ [[]])))))
      (fun _ _ => True) := by
  unfold layoutSpawn
  refine (align_leaves hinv).bind ?_
  rintro _ s₁ ⟨hinv₁, -, hfits₁⟩
  have hlow := hinv₁.paged_lt
  have hlimit := hinv₁.limit_le
  have h₁ : s₁.Laid s₁.mapped.seg.location s₁.offset [] := ⟨hinv₁, rfl, rfl, hfits₁, rfl⟩
  generalize s₁.mapped.seg.location = loc at h₁
  generalize hspawn : s₁.offset = spawn at *
  refine (alloc_leaves h₁).bind ?_
  rintro _ s₂ ⟨hinv₂, hloc₂, hlast₂, hoffset₂, hfits₂, -⟩
  rw [hspawn] at hlast₂ hoffset₂
  rw [uint32_of_lt (by simp only [SpawnMsg.size]; omega)] at hoffset₂
  refine ptr_leaves.bind ?_
  rintro o s₂ ⟨rfl, rfl⟩
  rw [hlast₂]
  refine store_leaves.bind ?_
  rintro _ s₃ ⟨-, rfl⟩
  have h₃ : (s₂.written spawn (leBytes 2 SpawnMsg.type)).Laid loc (spawn + SpawnMsg.size) [] :=
    ⟨hinv₂, hloc₂, hoffset₂, hfits₂, rfl⟩
  refine (pushString_leaves h₃).bind fun _ _ h => ?_
  refine (pushStrings_leaves args h).bind fun _ _ h => ?_
  refine (pushString_leaves h).bind fun _ _ h => ?_
  refine (pushStrings_leaves envs h).bind fun _ _ h => ?_
  refine (pushString_leaves h).bind fun _ s₄ h₄ => ?_
  generalize hstrings : [] ++ (path ++ [0]) ++ Terminated.pack 0 args ++ ([] ++ [0]) ++
    Terminated.pack 0 envs ++ ([] ++ [0]) = strings at h₄
  have hpack : strings = Terminated.pack 0 (path :: (args ++ [] :: (envs ++ [[]]))) := by
    rw [← hstrings]
    simp
  rw [← hpack]
  refine store_leaves.bind ?_
  rintro _ s₅ ⟨-, rfl⟩
  refine store_leaves.bind ?_
  rintro _ s₆ ⟨-, rfl⟩
  obtain ⟨hlaid, hcounts⟩ := h₄.counts args.length envs.length
  apply EStateM.leaves_get_bind
  generalize (s₄.written (spawn + SpawnMsg.argc) (leBytes 2 args.length)).written
    (spawn + SpawnMsg.envc) (leBytes 2 envs.length) = s₅ at hlaid hcounts
  refine (align_leaves hlaid.inv).bind ?_
  rintro _ s₆ ⟨-, hext, -⟩
  refine EStateM.leaves_pure ⟨s₅.mapped.mem.read (loc + spawn) SpawnMsg.argc, Memory.length_read, ?_⟩
  have hsize : s₅.offset - spawn = SpawnMsg.argc + (4 + strings.length) := by
    rw [hlaid.offset, SpawnMsg.size, SpawnMsg.argc]
    omega
  have hkept := read_of_extends (a := spawn) (n := s₅.offset - spawn) hlaid.inv hext (by
    have := hlaid.fits
    have := hlaid.offset
    omega)
  rw [hext.location]
  rw [hlaid.location] at hkept ⊢
  have hstart : loc + spawn + SpawnMsg.argc + 4 = loc + (spawn + SpawnMsg.size) := by
    rw [SpawnMsg.argc, SpawnMsg.size]
    omega
  rw [hkept, hsize, Memory.read_add, Memory.read_add, hstart, hlaid.bytes]
  rw [← Nat.add_assoc] at hcounts
  rw [hcounts]

end Qine

import Qine.Msg.Iterator

/-!
# Building and reading messages

`Msg` hides the segmented nature of a QNX message behind three readers: `read` copies into a host
buffer, `read_iovec` describes the bytes to the host kernel, and `MsgStreamReader` hands them out
one at a time. All three sit on the same chunk iterator; here each is shown to deliver the bytes
along `addrs`, so they agree with each other and with the guest's view of the message.
-/

namespace Qine

/-- `Msg`, without the process it belongs to. -/
structure Msg where
  rcvParts : Nat
  rcv : EntryTable
  sendParts : Nat
  send : EntryTable
  deriving DecidableEq, Repr

namespace Msg

/-- `Msg::translate_mxfer_entries`. -/
def translateMxferEntries (m : Mem) (n src : Nat) : List MxferEntry :=
  (List.range n).map fun i => (MxferEntry16.load m (src + MxferEntry16.size * i)).extend

/-- `Msg::Msg`. -/
def make (p : Process) (m : Mem) (sendParts : Nat) (send : FarPointer) (rcvParts : Nat)
    (rcv : FarPointer) : Bitness → Except Fault Msg
  | .b32 => do
    let s ← p.translateSegmented send (BitVec.ofNat 32 (MxferEntry.size * sendParts))
    let r ← p.translateSegmented rcv (BitVec.ofNat 32 (MxferEntry.size * rcvParts))
    return ⟨rcvParts, .guest r, sendParts, .guest s⟩
  | .b16 => do
    let s ← p.translateSegmented send (BitVec.ofNat 32 (MxferEntry16.size * sendParts))
    let r ← p.translateSegmented rcv (BitVec.ofNat 32 (MxferEntry16.size * rcvParts))
    return ⟨rcvParts, .translated (translateMxferEntries m rcvParts r), sendParts,
      .translated (translateMxferEntries m sendParts s)⟩

/-- `Msg::iterate_send`. -/
def iterateSend (msg : Msg) : Iterator := .start msg.send msg.sendParts

/-- `Msg::iterate_receive`. -/
def iterateReceive (msg : Msg) : Iterator := .start msg.rcv msg.rcvParts

/-- The copy loop that `Msg::read` and `Msg::read_written` share: what was stored at `dst` so far,
and how much of `size` is left. Every round but the last copies a byte at least. -/
def copyLoop (p : Process) (m : Mem) : Nat → Iterator → Nat → List Byte →
    Except Fault (List Byte × Nat)
  | 0, _, size, dst => return (dst, size)
  | n + 1, it, size, dst =>
    if size = 0 then return (dst, size)
    else
      let (slice, it') := it.next m size
      if slice.isEmpty then return (dst, size)
      else do
        let src ← p.translateSegmented slice.ptr slice.size
        copyLoop p m n it' (size - slice.size.toNat) (dst ++ m.read src slice.size.toNat)

/-- Copy `size` bytes from `offset` on and fill an overread up with `0xCC`. -/
def copyOut (p : Process) (m : Mem) (it : Iterator) (offset size : Nat) :
    Except Fault (List Byte) := do
  let (dst, left) ← copyLoop p m size (it.skipTo m offset) size []
  return dst ++ List.replicate left 0xCC

/-- `Msg::read`; the result is what ends up at `dst`. -/
def read (p : Process) (m : Mem) (msg : Msg) (offset size : Nat) : Except Fault (List Byte) :=
  copyOut p m msg.iterateSend offset size

/-- `Msg::read_written`. -/
def readWritten (p : Process) (m : Mem) (msg : Msg) (offset size : Nat) :
    Except Fault (List Byte) :=
  copyOut p m msg.iterateReceive offset size

end Msg

/-! ## I/O vectors -/

/-- A byte of host memory an `iovec` can cover: guest memory, or one of the static fillers
`garbage_read` and `garbage_write`. -/
inductive HostByte where
  | guest (addr : Nat)
  | garbageRead (index : Nat)
  | garbageWrite (index : Nat)
  deriving DecidableEq, Repr

/-- The byte `k` places further on. -/
def HostByte.shift (k : Nat) : HostByte → HostByte
  | .guest a => .guest (a + k)
  | .garbageRead i => .garbageRead (i + k)
  | .garbageWrite i => .garbageWrite (i + k)

/-- `struct iovec`. -/
structure Iovec where
  base : HostByte
  len : Nat
  deriving DecidableEq, Repr

/-- The host bytes an `iovec` array covers, in order. -/
def Iovec.bytes (vs : List Iovec) : List HostByte :=
  vs.flatMap fun v => (List.range v.len).map (v.base.shift ·)

namespace Msg

/-- `sizeof(garbage_read)`. -/
def garbageSize : Nat := 256

/-- The first loop of `Msg::common_iovec`. -/
def iovecLoop (p : Process) (m : Mem) : Nat → Iterator → Nat → List Iovec →
    Except Fault (List Iovec × Nat)
  | 0, _, size, dst => return (dst, size)
  | n + 1, it, size, dst =>
    if size = 0 then return (dst, size)
    else
      let (slice, it') := it.next m size
      if slice.isEmpty then return (dst, size)
      else do
        let ptr ← p.translateSegmented slice.ptr slice.size
        iovecLoop p m n it' (size - slice.size.toNat)
          (dst ++ [⟨.guest ptr, slice.size.toNat⟩])

/-- The second loop of `Msg::common_iovec`: cover what is past the message with the filler. -/
def garbageLoop : Nat → Nat → List Iovec → List Iovec
  | 0, _, dst => dst
  | n + 1, size, dst =>
    if size = 0 then dst
    else
      let len := min size garbageSize
      garbageLoop n (size - len) (dst ++ [⟨.garbageRead 0, len⟩])

/-- `Msg::common_iovec`. -/
def commonIovec (p : Process) (m : Mem) (it : Iterator) (offset size : Nat) (dst : List Iovec) :
    Except Fault (List Iovec) := do
  let (dst, left) ← iovecLoop p m size (it.skipTo m offset) size dst
  return garbageLoop left left dst

/-- `Msg::read_iovec`. -/
def readIovec (p : Process) (m : Mem) (msg : Msg) (offset size : Nat) (dst : List Iovec) :
    Except Fault (List Iovec) :=
  commonIovec p m msg.iterateSend offset size dst

/-- `Msg::write_iovec`. -/
def writeIovec (p : Process) (m : Mem) (msg : Msg) (offset size : Nat) (dst : List Iovec) :
    Except Fault (List Iovec) :=
  commonIovec p m msg.iterateReceive offset size dst

end Msg

/-! ## The stream reader -/

/-- `MsgStreamReader`; `buf` is the host address the next ready byte is at. -/
structure MsgStreamReader where
  it : Iterator
  ready : Nat
  buf : Nat
  deriving DecidableEq, Repr

namespace MsgStreamReader

/-- `MsgStreamReader::MsgStreamReader`. -/
def make (m : Mem) (msg : Msg) (skip : Nat) : MsgStreamReader :=
  ⟨(Iterator.start msg.send msg.sendParts).skipTo m skip, 0, 0⟩

/-- `MsgStreamReader::get_more`. -/
def getMore (p : Process) (m : Mem) (r : MsgStreamReader) : Except Fault MsgStreamReader :=
  let (slice, it') := r.it.next m Iterator.noLimit
  if slice.isEmpty then return { r with it := it' }
  else do
    let buf ← p.translateSegmented slice.ptr slice.size
    return ⟨it', slice.size.toNat, buf⟩

/-- `MsgStreamReader::get`. -/
def get (p : Process) (m : Mem) (r : MsgStreamReader) (fallback : Byte) :
    Except Fault (Byte × MsgStreamReader) := do
  let r ← (if r.ready = 0 then r.getMore p m else pure r)
  if r.ready = 0 then return (fallback, r)
  else return (m r.buf, { r with ready := r.ready - 1, buf := r.buf + 1 })

/-- Consecutive calls of `get`, with the fallback of each. -/
def gets (p : Process) (m : Mem) : MsgStreamReader → List Byte →
    Except Fault (List Byte × MsgStreamReader)
  | r, [] => return ([], r)
  | r, fallback :: rest => do
    let (c, r) ← r.get p m fallback
    let (cs, r) ← gets p m r rest
    return (c :: cs, r)

end MsgStreamReader

/-! ## What the guest sent -/

/-- The entry list at `ptr` as the guest laid it out, zero-extended for a 16-bit message. -/
def guestEntries (p : Process) (m : Mem) (ptr : FarPointer) (n : Nat) : Bitness → List MxferEntry
  | .b32 => (List.range n).map fun i =>
      .load m (p.baseOf ptr.segment + ptr.offset.toNat + MxferEntry.size * i)
  | .b16 => (List.range n).map fun i =>
      (MxferEntry16.load m
        (p.baseOf ptr.segment + ptr.offset.toNat + MxferEntry16.size * i)).extend

/-- The guest bytes of the chunks, concatenated in order. -/
def guestBytes (p : Process) (m : Mem) (es : List MxferEntry) : List Byte := m.gather (addrs p es)

variable {p : Process} {m : Mem} {es : List MxferEntry} {it : Iterator} {pos : Nat}

@[simp] theorem length_guestBytes : (guestBytes p m es).length = (addrs p es).length := by
  simp [guestBytes, Memory.gather]

theorem EntryTable.entries_translated (es : List MxferEntry) :
    (EntryTable.translated es).entries m es.length = es := by
  apply List.ext_getElem
  · simp
  · intro i h₁ h₂
    simp [EntryTable.entries, EntryTable.get, h₂]

/-- The table the constructor keeps for `n` guest entries at host address `a`: the guest's own for
a 32-bit message, a translated copy for a 16-bit one. -/
def Msg.tableAt (m : Mem) (n a : Nat) : Bitness → EntryTable
  | .b32 => .guest a
  | .b16 => .translated (translateMxferEntries m n a)

theorem Msg.make_eq_ok {sendParts rcvParts : Nat} {send rcv : FarPointer} {bits : Bitness}
    {msg : Msg} (h : Msg.make p m sendParts send rcvParts rcv bits = .ok msg) :
    msg = ⟨rcvParts, tableAt m rcvParts (p.baseOf rcv.segment + rcv.offset.toNat) bits,
      sendParts, tableAt m sendParts (p.baseOf send.segment + send.offset.toNat) bits⟩ := by
  cases bits <;>
  · simp only [Msg.make, bind, Except.bind] at h
    split at h
    · cases h
    · next s hs =>
        split at h
        · cases h
        · next r hr =>
            cases h
            rw [Process.translateSegmented_base hs, Process.translateSegmented_base hr]
            rfl

theorem Msg.entries_translateMxferEntries (n a : Nat) :
    (EntryTable.translated (translateMxferEntries m n a)).entries m n =
      translateMxferEntries m n a := by
  have hlen : (translateMxferEntries m n a).length = n := by simp [translateMxferEntries]
  have h := EntryTable.entries_translated (m := m) (translateMxferEntries m n a)
  rwa [hlen] at h

/-- A constructed message keeps both entry lists as the guest laid them out. -/
theorem Msg.make_entries {sendParts rcvParts : Nat} {send rcv : FarPointer} {bits : Bitness}
    {msg : Msg} (h : Msg.make p m sendParts send rcvParts rcv bits = .ok msg) :
    msg.send.entries m msg.sendParts = guestEntries p m send sendParts bits ∧
      msg.rcv.entries m msg.rcvParts = guestEntries p m rcv rcvParts bits := by
  have hmsg := Msg.make_eq_ok h
  cases bits with
  | b32 => rw [hmsg]; exact ⟨rfl, rfl⟩
  | b16 =>
      rw [hmsg]
      exact ⟨entries_translateMxferEntries _ _, entries_translateMxferEntries _ _⟩

/-! ## The readers deliver the bytes along `addrs` -/

/-- A block of list positions splits at `k`. -/
theorem take_drop_split {α : Type} (l : List α) (pos k size : Nat) (hk : k ≤ size) :
    (l.drop pos).take size = (l.drop pos).take k ++ (l.drop (pos + k)).take (size - k) := by
  obtain ⟨d, rfl⟩ := Nat.exists_eq_add_of_le hk
  rw [List.take_add, List.drop_drop, Nat.add_sub_cancel_left]

namespace Msg

theorem copyLoop_spec (hv : ∀ e ∈ es, e.Valid p) (n : Nat) (h : it.At p m es pos) (size : Nat)
    (hn : size ≤ n) (dst : List Byte) :
    copyLoop p m n it size dst =
      .ok (dst ++ ((guestBytes p m es).drop pos).take size,
        size - ((addrs p es).length - pos)) := by
  induction n generalizing it pos size dst with
  | zero =>
      obtain rfl : size = 0 := Nat.le_zero.mp hn
      simp [copyLoop, pure, Except.pure]
  | succ n ih =>
      unfold copyLoop
      by_cases hsize : size = 0
      · simp [hsize, pure, Except.pure]
      · have hstep := Iterator.next_spec hv h size
        generalize it.next m size = r at hstep
        obtain ⟨slice, it'⟩ := r
        have hle : slice.size.toNat ≤ size := hstep.len_le
        rw [if_neg hsize]
        by_cases hemp : slice.isEmpty = true
        · have hpos : pos = (addrs p es).length := (hstep.empty hemp).resolve_left hsize
          simp [hemp, hpos, pure, Except.pure]
        · obtain ⟨a, ha, hblock⟩ := hstep.block (by simpa using hemp)
          have hat : it'.At p m es (pos + slice.size.toNat) := hstep.at'
          have hnz : slice.size.toNat ≠ 0 := fun hz => hemp ((Iterator.isEmpty_iff slice).mpr hz)
          have hend := hat.pos_le
          have hread : m.read a slice.size.toNat =
              ((guestBytes p m es).drop pos).take slice.size.toNat := by
            simp only at hblock
            rw [Memory.read_eq_gather, hblock, guestBytes, Memory.gather, Memory.gather,
              List.map_take, List.map_drop]
          simp only [hemp, if_false, ha, bind, Except.bind, Bool.false_eq_true]
          rw [ih hat (size - slice.size.toNat) (by omega), hread, List.append_assoc,
            ← take_drop_split _ _ _ _ hle]
          congr 2
          omega

/-- Bytes of the message where there are any, `0xCC` past its end. -/
theorem copyOut_spec (hv : ∀ e ∈ es, e.Valid p) (t : EntryTable) (n : Nat)
    (hes : t.entries m n = es) (offset size : Nat) :
    copyOut p m (.start t n) offset size =
      .ok ((List.range size).map fun k => ((guestBytes p m es)[offset + k]?).getD 0xCC) := by
  have hat := Iterator.skipTo_spec (p := p) t n offset hes
  simp only [copyOut, copyLoop_spec hv size hat size (Nat.le_refl _), bind, Except.bind, pure,
    Except.pure, List.nil_append]
  congr 1
  apply List.ext_getElem
  · simp only [List.length_append, List.length_take, List.length_drop, List.length_replicate,
      length_guestBytes, List.length_map, List.length_range]
    omega
  · intro k h₁ h₂
    have hk : k < size := by simpa using h₂
    simp only [List.getElem_append, List.length_take, List.length_drop, length_guestBytes,
      List.getElem_map, List.getElem_range, List.getElem_take, List.getElem_drop,
      List.getElem_replicate]
    split
    · next hlt =>
        have hmin : min offset (addrs p es).length = offset := by omega
        simp only [hmin]
        rw [List.getElem?_eq_getElem (by rw [length_guestBytes]; omega)]
        rfl
    · next hge =>
        rw [List.getElem?_eq_none (by rw [length_guestBytes]; omega)]
        rfl

end Msg

@[simp] theorem Iovec.bytes_append (vs ws : List Iovec) :
    Iovec.bytes (vs ++ ws) = Iovec.bytes vs ++ Iovec.bytes ws := by simp [Iovec.bytes]

theorem Iovec.length_bytes (vs : List Iovec) :
    (Iovec.bytes vs).length = (vs.map (·.len)).sum := by
  simp [Iovec.bytes, List.length_flatMap]

theorem Iovec.bytes_guest (a n : Nat) :
    Iovec.bytes [⟨.guest a, n⟩] = (List.range' a n).map HostByte.guest := by
  simp [Iovec.bytes, HostByte.shift, List.range'_eq_map_range, Function.comp_def]

namespace Msg

theorem iovecLoop_spec (hv : ∀ e ∈ es, e.Valid p) (n : Nat) (h : it.At p m es pos) (size : Nat)
    (hn : size ≤ n) (dst : List Iovec) :
    ∃ vs, iovecLoop p m n it size dst = .ok (dst ++ vs, size - ((addrs p es).length - pos)) ∧
      Iovec.bytes vs = (((addrs p es).drop pos).take size).map HostByte.guest := by
  induction n generalizing it pos size dst with
  | zero =>
      obtain rfl : size = 0 := Nat.le_zero.mp hn
      exact ⟨[], by simp [iovecLoop, pure, Except.pure], by simp [Iovec.bytes]⟩
  | succ n ih =>
      unfold iovecLoop
      by_cases hsize : size = 0
      · exact ⟨[], by simp [hsize, pure, Except.pure], by simp [hsize, Iovec.bytes]⟩
      · have hstep := Iterator.next_spec hv h size
        generalize it.next m size = r at hstep
        obtain ⟨slice, it'⟩ := r
        have hle : slice.size.toNat ≤ size := hstep.len_le
        rw [if_neg hsize]
        by_cases hemp : slice.isEmpty = true
        · have hpos : pos = (addrs p es).length := (hstep.empty hemp).resolve_left hsize
          exact ⟨[], by simp [hemp, hpos, pure, Except.pure], by simp [hpos, Iovec.bytes]⟩
        · obtain ⟨a, ha, hblock⟩ := hstep.block (by simpa using hemp)
          have hat : it'.At p m es (pos + slice.size.toNat) := hstep.at'
          have hnz : slice.size.toNat ≠ 0 := fun hz => hemp ((Iterator.isEmpty_iff slice).mpr hz)
          have hend := hat.pos_le
          simp only at ha hblock
          obtain ⟨vs, hvs, hbytes⟩ := ih hat (size - slice.size.toNat) (by omega)
            (dst ++ [⟨.guest a, slice.size.toNat⟩])
          refine ⟨⟨.guest a, slice.size.toNat⟩ :: vs, ?_, ?_⟩
          · simp only [hemp, if_false, ha, bind, Except.bind, Bool.false_eq_true]
            rw [hvs, List.append_assoc, List.singleton_append]
            congr 2
            omega
          · rw [← List.singleton_append, Iovec.bytes_append, Iovec.bytes_guest, hbytes, hblock,
              take_drop_split _ _ _ _ hle, List.map_append]

/-- The filler's vectors cover what is left, with nothing but filler bytes. -/
theorem garbageLoop_spec (n size : Nat) (hn : size ≤ n) (dst : List Iovec) :
    ∃ vs, garbageLoop n size dst = dst ++ vs ∧ (Iovec.bytes vs).length = size ∧
      ∀ b ∈ Iovec.bytes vs, ∃ i, b = .garbageRead i := by
  induction n generalizing size dst with
  | zero => exact ⟨[], by simp [garbageLoop], by simp [Iovec.bytes]; omega, by simp [Iovec.bytes]⟩
  | succ n ih =>
      unfold garbageLoop
      by_cases hsize : size = 0
      · exact ⟨[], by simp [hsize], by simp [hsize, Iovec.bytes], by simp [Iovec.bytes]⟩
      · have hpos : 0 < garbageSize := by decide
        obtain ⟨vs, hvs, hlen, hfiller⟩ := ih (size - min size garbageSize) (by omega)
          (dst ++ [⟨.garbageRead 0, min size garbageSize⟩])
        refine ⟨⟨.garbageRead 0, min size garbageSize⟩ :: vs, ?_, ?_, ?_⟩
        · simp only [if_neg hsize, hvs, List.append_assoc, List.singleton_append]
        · rw [Iovec.length_bytes] at hlen ⊢
          simp only [List.map_cons, List.sum_cons, hlen]
          omega
        · intro b hb
          rw [← List.singleton_append, Iovec.bytes_append, List.mem_append] at hb
          rcases hb with hb | hb
          · simp only [Iovec.bytes, List.flatMap_singleton, List.mem_map, HostByte.shift] at hb
            obtain ⟨i, -, rfl⟩ := hb
            exact ⟨_, rfl⟩
          · exact hfiller b hb

/-- The vectors cover `size` bytes; those inside the message are the message's own. -/
theorem commonIovec_spec (hv : ∀ e ∈ es, e.Valid p) (t : EntryTable) (n : Nat)
    (hes : t.entries m n = es) (offset size : Nat) (dst : List Iovec) :
    ∃ vs, commonIovec p m (.start t n) offset size dst = .ok (dst ++ vs) ∧
      (vs.map (·.len)).sum = size ∧
      ∀ k, k < size → ∀ h : offset + k < (addrs p es).length,
        (Iovec.bytes vs)[k]? = some (.guest (addrs p es)[offset + k]) := by
  have hat := Iterator.skipTo_spec (p := p) t n offset hes
  obtain ⟨vs, hvs, hbytes⟩ := iovecLoop_spec hv size hat size (Nat.le_refl _) dst
  obtain ⟨ws, hws, hlen, -⟩ := garbageLoop_spec _ _ (Nat.le_refl
    (size - ((addrs p es).length - min offset (addrs p es).length))) (dst ++ vs)
  have hvlen : (Iovec.bytes vs).length = min size ((addrs p es).length - offset) := by
    rw [hbytes, List.length_map, List.length_take, List.length_drop]
    omega
  refine ⟨vs ++ ws, ?_, ?_, ?_⟩
  · simp only [commonIovec, hvs, hws, bind, Except.bind, pure, Except.pure, List.append_assoc]
  · rw [List.map_append, List.sum_append, ← Iovec.length_bytes, ← Iovec.length_bytes, hvlen, hlen]
    omega
  · intro k hk h
    have hmin : min offset (addrs p es).length = offset := by omega
    rw [hmin] at hbytes
    rw [Iovec.bytes_append, List.getElem?_append_left (by omega), hbytes, List.getElem?_map,
      List.getElem?_take_of_lt hk, List.getElem?_drop, List.getElem?_eq_getElem h]
    rfl

end Msg

namespace MsgStreamReader

/-- The reader's next byte is byte `pos` of the message: the bytes it holds ready are the ones
from `pos` on, and its iterator stands behind them. -/
structure At (p : Process) (m : Mem) (es : List MxferEntry) (r : MsgStreamReader) (pos : Nat) :
    Prop where
  iter : r.it.At p m es (pos + r.ready)
  held : List.range' r.buf r.ready = ((addrs p es).drop pos).take r.ready

variable {r : MsgStreamReader}

theorem getMore_spec (hv : ∀ e ∈ es, e.Valid p) (h : r.At p m es pos) (h0 : r.ready = 0) :
    ∃ r', r.getMore p m = .ok r' ∧ r'.At p m es pos ∧
      (r'.ready = 0 → pos = (addrs p es).length) := by
  have hiter : r.it.At p m es pos := by simpa [h0] using h.iter
  have hstep := Iterator.next_spec hv hiter Iterator.noLimit
  unfold getMore
  generalize r.it.next m Iterator.noLimit = q at hstep
  obtain ⟨slice, it'⟩ := q
  have hat : it'.At p m es (pos + slice.size.toNat) := hstep.at'
  by_cases hemp : slice.isEmpty = true
  · have hz : slice.size.toNat = 0 := (Iterator.isEmpty_iff slice).mp hemp
    have hpos : pos = (addrs p es).length := (hstep.empty hemp).resolve_left (by decide)
    refine ⟨{ r with it := it' }, by simp [hemp, pure, Except.pure], ⟨?_, ?_⟩, fun _ => hpos⟩
    · simpa [h0, hz] using hat
    · simp [h0]
  · obtain ⟨a, ha, hblock⟩ := hstep.block (by simpa using hemp)
    simp only at ha hblock
    refine ⟨⟨it', slice.size.toNat, a⟩, ?_, ⟨hat, hblock⟩, ?_⟩
    · simp only [hemp, if_false, ha, bind, Except.bind, pure, Except.pure, Bool.false_eq_true]
    · exact fun hz => absurd ((Iterator.isEmpty_iff slice).mpr hz) hemp

theorem get_spec (hv : ∀ e ∈ es, e.Valid p) (h : r.At p m es pos) (fallback : Byte) :
    ∃ r', r.get p m fallback = .ok (((guestBytes p m es)[pos]?).getD fallback, r') ∧
      r'.At p m es (min (pos + 1) (addrs p es).length) := by
  obtain ⟨r₁, hr₁, hat, hend⟩ : ∃ r₁, (if r.ready = 0 then r.getMore p m else pure r) = .ok r₁ ∧
      r₁.At p m es pos ∧ (r₁.ready = 0 → pos = (addrs p es).length) := by
    by_cases h0 : r.ready = 0
    · rw [if_pos h0]
      exact getMore_spec hv h h0
    · rw [if_neg h0]
      exact ⟨r, rfl, h, fun hz => absurd hz h0⟩
  simp only [get, hr₁, bind, Except.bind]
  by_cases h0 : r₁.ready = 0
  · have hpos := hend h0
    refine ⟨r₁, ?_, ?_⟩
    · rw [if_pos h0, List.getElem?_eq_none (by rw [length_guestBytes]; omega)]
      rfl
    · rw [Nat.min_eq_right (by omega), ← hpos]
      exact hat
  · obtain ⟨n, hn⟩ := Nat.exists_eq_succ_of_ne_zero h0
    have hheld := hat.held
    have hle : pos + r₁.ready ≤ (addrs p es).length := hat.iter.pos_le
    rw [hn, List.range'_succ] at hheld
    obtain ⟨x, xs, hx⟩ : ∃ x xs, (addrs p es).drop pos = x :: xs := by
      cases hd : (addrs p es).drop pos with
      | nil => rw [hd] at hheld; simp at hheld
      | cons x xs => exact ⟨x, xs, rfl⟩
    have hxs : (addrs p es).drop (pos + 1) = xs := by
      rw [← List.drop_drop, hx]; rfl
    rw [hx, List.take_succ_cons, List.cons.injEq] at hheld
    refine ⟨⟨r₁.it, r₁.ready - 1, r₁.buf + 1⟩, ?_, ?_⟩
    · have hget : (addrs p es)[pos]? = some x := by
        have := congrArg List.head? hx
        simpa [List.head?_drop] using this
      rw [if_neg h0, guestBytes, Memory.gather, List.getElem?_map, hget, hheld.1]
      rfl
    · rw [Nat.min_eq_left (by omega)]
      refine ⟨?_, ?_⟩
      · have hiter := hat.iter
        have hcomm : pos + 1 + (r₁.ready - 1) = pos + r₁.ready := by omega
        simpa only [hcomm] using hiter
      · simpa only [hn, Nat.succ_sub_one, hxs] using hheld.2

/-- The `n`-th call returns byte `offset + n` of the message, or the fallback past its end. -/
theorem gets_spec (hv : ∀ e ∈ es, e.Valid p) (fallbacks : List Byte) (offset : Nat)
    (h : r.At p m es (min offset (addrs p es).length)) :
    ∃ r', r.gets p m fallbacks =
      .ok (fallbacks.mapIdx fun n fb => ((guestBytes p m es)[offset + n]?).getD fb, r') := by
  induction fallbacks generalizing r offset with
  | nil => exact ⟨r, rfl⟩
  | cons fb rest ih =>
      obtain ⟨r₁, hget, hat⟩ := get_spec hv h fb
      have hmin : min (min offset (addrs p es).length + 1) (addrs p es).length =
          min (offset + 1) (addrs p es).length := by omega
      obtain ⟨r₂, hrest⟩ := ih (offset + 1) (hmin ▸ hat)
      have hbyte : (guestBytes p m es)[min offset (addrs p es).length]? =
          (guestBytes p m es)[offset]? := by
        by_cases ho : offset ≤ (addrs p es).length
        · rw [Nat.min_eq_left ho]
        · rw [List.getElem?_eq_none (by rw [length_guestBytes]; omega),
            List.getElem?_eq_none (by rw [length_guestBytes]; omega)]
      refine ⟨r₂, ?_⟩
      simp only [gets, hget, hrest, hbyte, bind, Except.bind, pure, Except.pure,
        List.mapIdx_cons, Nat.add_zero]
      simp only [Nat.add_assoc, Nat.add_comm 1]

end MsgStreamReader

/-! ## The three readers agree -/

/-- For every message built from send entries in valid guest memory, `read`, `read_iovec` and the
stream reader all deliver the concatenated guest bytes of the entries from `offset` on. -/
theorem readers_agree {sendParts rcvParts : Nat} {send rcv : FarPointer} {bits : Bitness}
    {msg : Msg} (hmk : Msg.make p m sendParts send rcvParts rcv bits = .ok msg)
    (hv : ∀ e ∈ guestEntries p m send sendParts bits, e.Valid p) (offset size : Nat) :
    let es := guestEntries p m send sendParts bits
    msg.read p m offset size =
        .ok ((List.range size).map fun k => ((guestBytes p m es)[offset + k]?).getD 0xCC) ∧
      (∀ dst, ∃ vs, msg.readIovec p m offset size dst = .ok (dst ++ vs) ∧
        (vs.map (·.len)).sum = size ∧
        ∀ k, k < size → ∀ h : offset + k < (addrs p es).length,
          (Iovec.bytes vs)[k]? = some (.guest (addrs p es)[offset + k])) ∧
      ∀ fallbacks, ∃ r, (MsgStreamReader.make m msg offset).gets p m fallbacks =
        .ok (fallbacks.mapIdx fun n fb => ((guestBytes p m es)[offset + n]?).getD fb, r) := by
  intro es
  have hes : msg.send.entries m msg.sendParts = es := (Msg.make_entries hmk).1
  refine ⟨Msg.copyOut_spec hv _ _ hes offset size,
    Msg.commonIovec_spec hv _ _ hes offset size, ?_⟩
  intro fallbacks
  apply MsgStreamReader.gets_spec hv
  refine ⟨?_, by simp [MsgStreamReader.make]⟩
  exact Iterator.skipTo_spec _ _ offset hes

/-- Two chunks, one of them empty, and a request that starts inside the message and runs past its
end. -/
theorem readers_agree_onePage :
    let p := Process.onePage
    let m : Mem := Memory.write (fun a => BitVec.ofNat 8 a) 0x1100
      (leBytes 4 0x200 ++ leBytes 2 7 ++ leBytes 2 0 ++ leBytes 4 0 ++
        (leBytes 4 0x300 ++ leBytes 2 7 ++ leBytes 2 0 ++ leBytes 4 3))
    let msg : Msg := ⟨0, .guest 0x1100, 2, .guest 0x1100⟩
    Msg.make p m 2 ⟨7, 0x100⟩ 0 ⟨7, 0x100⟩ .b32 = .ok msg ∧
      msg.read p m 1 4 = .ok [1, 2, 0xCC, 0xCC] := by
  intro p m msg
  have hmk : Msg.make p m 2 ⟨7, 0x100⟩ 0 ⟨7, 0x100⟩ .b32 = .ok msg := by decide +kernel
  have hv : ∀ e ∈ guestEntries p m ⟨7, 0x100⟩ 2 .b32, e.Valid p := by decide +kernel
  refine ⟨hmk, (readers_agree hmk hv 1 4).1.trans ?_⟩
  decide +kernel

end Qine

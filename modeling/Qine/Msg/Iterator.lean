import Qine.Segment

/-!
# The chunk iterator of `Msg`

A QNX message is a list of `mxfer_entry` chunks in guest memory. `Msg::Iterator` walks them with a
lazily normalised position: `m_offset` may sit at the end of a chunk (or at an empty chunk) until
the next call of `next` moves on.

The specification forgets chunks altogether. `addrs` lists the host addresses of the message's
bytes in order, and `Iterator.At` says that an iterator stands at a position of that list. `next`
then hands out a block of consecutive list positions (`next_spec`) and `skip_to` moves to the
position asked for, or to the end (`skipTo_spec`).
-/

namespace Qine

/-! ## Transfer entries -/

/-- `Qnx::mxfer_entry`. -/
structure MxferEntry where
  off : BitVec 32
  seg : BitVec 16
  zero : BitVec 16
  len : BitVec 32
  deriving DecidableEq, Repr

/-- `Qnx::mxfer_entry16`. -/
structure MxferEntry16 where
  off : BitVec 16
  zero : BitVec 16
  seg : BitVec 16
  len : BitVec 16
  deriving DecidableEq, Repr

/-- `sizeof(Qnx::mxfer_entry)`; the structure is packed. -/
def MxferEntry.size : Nat := 12

/-- `sizeof(Qnx::mxfer_entry16)`. -/
def MxferEntry16.size : Nat := 8

/-- The packed entry at a host address. -/
def MxferEntry.load (m : Mem) (a : Nat) : MxferEntry where
  off := m.loadWord 4 a
  seg := m.loadWord 2 (a + 4)
  zero := m.loadWord 2 (a + 6)
  len := m.loadWord 4 (a + 8)

/-- The packed 16-bit entry at a host address. -/
def MxferEntry16.load (m : Mem) (a : Nat) : MxferEntry16 where
  off := m.loadWord 2 a
  zero := m.loadWord 2 (a + 2)
  seg := m.loadWord 2 (a + 4)
  len := m.loadWord 2 (a + 6)

/-- One round of `Msg::translate_mxfer_entries`. -/
def MxferEntry16.extend (e : MxferEntry16) : MxferEntry where
  off := e.off.setWidth 32
  seg := e.seg
  zero := 0
  len := e.len.setWidth 32

/-- Where `m_send` and `m_rcv` point: a 32-bit message uses the guest's own table in place, a
16-bit one a translated copy. -/
inductive EntryTable where
  | guest (addr : Nat)
  | translated (entries : List MxferEntry)
  deriving DecidableEq, Repr

/-- The `i`-th entry as the table stands now. -/
def EntryTable.get (m : Mem) : EntryTable → Nat → MxferEntry
  | .guest addr, i => .load m (addr + MxferEntry.size * i)
  | .translated es, i => es.getD i ⟨0, 0, 0, 0⟩

/-- The first `n` entries as the table stands now. -/
def EntryTable.entries (m : Mem) (t : EntryTable) (n : Nat) : List MxferEntry :=
  (List.range n).map (t.get m)

/-! ## The iterator -/

/-- `Msg::Iterator`. -/
structure Iterator where
  chunks : EntryTable
  chunkCount : Nat
  /-- the current chunk -/
  i : Nat
  /-- the offset of that chunk within the message -/
  offsetOfChunk : Nat
  /-- the offset within the chunk -/
  offset : Nat
  deriving DecidableEq, Repr

namespace Iterator

/-- `Msg::Iterator::Iterator`. -/
def start (chunks : EntryTable) (chunkCount : Nat) : Iterator := ⟨chunks, chunkCount, 0, 0, 0⟩

/-- The loop of `Msg::Iterator::normalize`, for at most `n` chunks. -/
def normalizeLoop (m : Mem) : Nat → Iterator → Iterator
  | 0, it => it
  | n + 1, it =>
    if it.i < it.chunkCount ∧ (it.chunks.get m it.i).len.toNat ≤ it.offset then
      normalizeLoop m n
        { it with offsetOfChunk := it.offsetOfChunk + it.offset, offset := 0, i := it.i + 1 }
    else it

/-- `Msg::Iterator::normalize`: skip empty or iterated-through chunks. There are no more rounds
than chunks left. -/
def normalize (m : Mem) (it : Iterator) : Iterator := normalizeLoop m (it.chunkCount - it.i) it

/-- `Msg::Iterator::no_limit`. -/
def noLimit : Nat := 2 ^ 64 - 1

/-- `Msg::Iterator::next`. -/
def next (m : Mem) (it₀ : Iterator) (size : Nat) : FarSlice × Iterator :=
  let it := it₀.normalize m
  if it.i = it.chunkCount then (⟨FarPointer.null, 0⟩, it)
  else
    let c := it.chunks.get m it.i
    let toRead := min (c.len.toNat - it.offset) size
    (⟨⟨c.seg, BitVec.ofNat 32 (c.off.toNat + it.offset)⟩, BitVec.ofNat 32 toRead⟩,
      { it with offset := it.offset + toRead })

/-- `Msg::Iterator::msg_offset`. -/
def msgOffset (it : Iterator) : Nat := it.offsetOfChunk + it.offset

/-- The loop of `Msg::Iterator::skip_to`, for at most `n` rounds. -/
def skipLoop (m : Mem) (dstOffset : Nat) : Nat → Iterator → Iterator
  | 0, it => it
  | n + 1, it =>
    let (s, it') := it.next m (dstOffset - it.msgOffset)
    if s.isEmpty then it' else skipLoop m dstOffset n it'

/-- `Msg::Iterator::skip_to`. Every round but the last moves on by a byte at least, so
`dstOffset + 1` rounds are enough. -/
def skipTo (m : Mem) (it : Iterator) (dstOffset : Nat) : Iterator :=
  skipLoop m dstOffset (dstOffset + 1) it

end Iterator

/-! ## The message as a list of addresses -/

/-- The host address of the first byte of a chunk. -/
def MxferEntry.addr (p : Process) (e : MxferEntry) : Nat := p.baseOf e.seg + e.off.toNat

/-- The host addresses of the message's bytes, in message order. -/
def addrs (p : Process) (es : List MxferEntry) : List Nat :=
  es.flatMap fun e => List.range' (e.addr p) e.len.toNat

/-- The chunk lies in valid guest memory; nothing is asked of an empty one. -/
def MxferEntry.Valid (p : Process) (e : MxferEntry) : Prop :=
  e.len ≠ 0 → ∃ a, p.translateSegmented ⟨e.seg, e.off⟩ e.len = .ok a

instance (p : Process) (e : MxferEntry) : Decidable (e.Valid p) :=
  decidable_of_iff (e.len = 0 ∨ (p.translateSegmented ⟨e.seg, e.off⟩ e.len).toBool = true) (by
    unfold MxferEntry.Valid
    cases p.translateSegmented ⟨e.seg, e.off⟩ e.len <;>
      simp [Except.toBool, Decidable.or_iff_not_imp_left])

variable {p : Process} {m : Mem} {es : List MxferEntry}

@[simp] theorem addrs_append (es₁ es₂ : List MxferEntry) :
    addrs p (es₁ ++ es₂) = addrs p es₁ ++ addrs p es₂ := by simp [addrs]

@[simp] theorem addrs_cons (e : MxferEntry) (es : List MxferEntry) :
    addrs p (e :: es) = List.range' (e.addr p) e.len.toNat ++ addrs p es := by simp [addrs]

@[simp] theorem addrs_nil : addrs p [] = [] := rfl

/-- A non-empty part of a valid chunk translates to the addresses `addrs` lists for it. -/
theorem MxferEntry.Valid.translate {e : MxferEntry} (h : e.Valid p) {o k : Nat} (hk : 0 < k)
    (hok : o + k ≤ e.len.toNat) :
    p.translateSegmented ⟨e.seg, BitVec.ofNat 32 (e.off.toNat + o)⟩ (BitVec.ofNat 32 k) =
      .ok (e.addr p + o) := by
  have hne : e.len ≠ 0 := by
    intro h0
    rw [h0] at hok
    simp at hok
    omega
  obtain ⟨a, ha⟩ := h hne
  have haddr : a = e.addr p := Process.translateSegmented_base ha
  rw [Process.translateSegmented_mono ha hk hok, haddr]

/-! ## Iterator positions -/

@[simp] theorem EntryTable.length_entries (t : EntryTable) (n : Nat) :
    (t.entries m n).length = n := by simp [EntryTable.entries]

theorem EntryTable.get_of_entries {t : EntryTable} {n : Nat} {done rest : List MxferEntry}
    {e : MxferEntry} (h : t.entries m n = done ++ e :: rest) : t.get m done.length = e := by
  have hlen : n = done.length + (rest.length + 1) := by
    have := congrArg List.length h
    simpa using this
  have hget : (t.entries m n)[done.length]? = some e := by rw [h]; simp
  simpa [EntryTable.entries, hlen] using hget

namespace Iterator

/-- The iterator stands at byte `pos` of the message `es`: the chunks before the current one are
`done`, those from it on are `rest`, and the offset lies in the current chunk, its end included. -/
structure SplitAt (p : Process) (m : Mem) (es : List MxferEntry) (it : Iterator) (pos : Nat)
    (done rest : List MxferEntry) : Prop where
  table : it.chunks.entries m it.chunkCount = es
  split : es = done ++ rest
  index : it.i = done.length
  chunkStart : it.offsetOfChunk = (addrs p done).length
  inChunk : it.offset ≤ (addrs p (rest.take 1)).length
  pos_eq : pos = it.msgOffset

/-- The iterator stands at byte `pos` of the message `es`. -/
def At (p : Process) (m : Mem) (es : List MxferEntry) (it : Iterator) (pos : Nat) : Prop :=
  ∃ done rest, SplitAt p m es it pos done rest

variable {it : Iterator} {pos : Nat} {done rest : List MxferEntry}

theorem start_at (t : EntryTable) (n : Nat) :
    At p m (t.entries m n) (start t n) 0 :=
  ⟨[], t.entries m n, rfl, rfl, rfl, rfl, Nat.zero_le _, rfl⟩

theorem SplitAt.chunkCount_eq (h : SplitAt p m es it pos done rest) :
    it.chunkCount = done.length + rest.length := by
  have := congrArg List.length h.table
  rw [h.split] at this
  simpa using this

theorem At.pos_le (h : At p m es it pos) : pos ≤ (addrs p es).length := by
  obtain ⟨done, rest, h⟩ := h
  have hin := h.inChunk
  have hrest : (addrs p (rest.take 1)).length ≤ (addrs p rest).length := by
    cases rest with
    | nil => simp
    | cons e rest => simp
  rw [h.pos_eq, h.split, addrs_append, List.length_append, ← h.chunkStart, msgOffset]
  omega

/-- Normalising keeps the position and leaves the iterator at the end or strictly inside a
non-empty chunk. -/
theorem normalizeLoop_spec (n : Nat) (h : SplitAt p m es it pos done rest) (hn : rest.length = n) :
    ∃ done' rest', SplitAt p m es (it.normalizeLoop m n) pos done' rest' ∧
      (rest' = [] ∨ ∃ e rest'', rest' = e :: rest'' ∧
        (it.normalizeLoop m n).offset < e.len.toNat) := by
  induction n generalizing it done rest with
  | zero =>
      obtain rfl : rest = [] := List.eq_nil_of_length_eq_zero hn
      exact ⟨done, [], h, .inl rfl⟩
  | succ n ih =>
      obtain ⟨e, rest, rfl⟩ : ∃ e r, rest = e :: r := List.exists_cons_of_length_eq_add_one hn
      have hget : it.chunks.get m it.i = e := by
        rw [h.index]
        exact EntryTable.get_of_entries (h.table.trans h.split)
      have hlt : it.i < it.chunkCount := by
        rw [h.index, h.chunkCount_eq, List.length_cons]
        omega
      have hin : it.offset ≤ e.len.toNat := by simpa using h.inChunk
      by_cases hoff : e.len.toNat ≤ it.offset
      · -- the chunk is used up: the next one starts where it ends
        have heq : it.offset = e.len.toNat := Nat.le_antisymm hin hoff
        have hnext : SplitAt p m es
            { it with offsetOfChunk := it.offsetOfChunk + it.offset, offset := 0, i := it.i + 1 }
            pos (done ++ [e]) rest := by
          refine ⟨h.table, ?_, ?_, ?_, Nat.zero_le _, ?_⟩
          · rw [h.split]; simp
          · simp [h.index]
          · simp [h.chunkStart, heq]
          · simp only [h.pos_eq, msgOffset, Nat.add_zero]
        obtain ⟨done', rest', hat, hcase⟩ := ih hnext (by simpa using hn)
        rw [normalizeLoop, if_pos ⟨hlt, by rw [hget]; exact hoff⟩]
        exact ⟨done', rest', hat, hcase⟩
      · rw [normalizeLoop, if_neg (by rw [hget]; exact fun hc => hoff hc.2)]
        exact ⟨done, e :: rest, h, .inr ⟨e, rest, rfl, by omega⟩⟩

theorem normalize_spec (h : At p m es it pos) :
    ∃ done rest, SplitAt p m es (it.normalize m) pos done rest ∧
      (rest = [] ∨ ∃ e rest', rest = e :: rest' ∧ (it.normalize m).offset < e.len.toNat) := by
  obtain ⟨done, rest, h⟩ := h
  have hn : it.chunkCount - it.i = rest.length := by
    rw [h.chunkCount_eq, h.index]
    omega
  rw [normalize, hn]
  exact normalizeLoop_spec rest.length h rfl

/-- What one call of `next` at position `pos` hands out: a slice of some chunk, none only at the end
of the message or when none was asked for, and the iterator after it. -/
structure Handout (p : Process) (m : Mem) (es : List MxferEntry) (pos size : Nat)
    (r : FarSlice × Iterator) : Prop where
  len_le : r.1.size.toNat ≤ size
  at' : At p m es r.2 (pos + r.1.size.toNat)
  empty : r.1.isEmpty → size = 0 ∨ pos = (addrs p es).length
  slice : r.1.isEmpty = false → ∃ e ∈ es, ∃ o, o + r.1.size.toNat ≤ e.len.toNat ∧
    r.1.ptr = ⟨e.seg, BitVec.ofNat 32 (e.off.toNat + o)⟩ ∧
    List.range' (e.addr p + o) r.1.size.toNat = ((addrs p es).drop pos).take r.1.size.toNat

/-- A handout of a message in valid memory: its slice is a block of list positions. -/
structure Step (p : Process) (m : Mem) (es : List MxferEntry) (pos size : Nat)
    (r : FarSlice × Iterator) : Prop where
  len_le : r.1.size.toNat ≤ size
  at' : At p m es r.2 (pos + r.1.size.toNat)
  empty : r.1.isEmpty → size = 0 ∨ pos = (addrs p es).length
  block : r.1.isEmpty = false → ∃ a, p.translateSegmented r.1.ptr r.1.size = .ok a ∧
    List.range' a r.1.size.toNat = ((addrs p es).drop pos).take r.1.size.toNat

theorem isEmpty_iff (s : FarSlice) : s.isEmpty = true ↔ s.size.toNat = 0 := by
  rw [FarSlice.isEmpty, beq_iff_eq, ← BitVec.toNat_inj]
  rfl

/-- A slice that is not empty is a part of the chunk that the position lies in. -/
theorem next_position (h : At p m es it pos) {size : Nat} (hne : (it.next m size).1.isEmpty = false) :
    ∃ done e rest o, es = done ++ e :: rest ∧ pos = (addrs p done).length + o ∧
      o + (it.next m size).1.size.toNat ≤ e.len.toNat ∧
      (it.next m size).1.ptr = ⟨e.seg, BitVec.ofNat 32 (e.off.toNat + o)⟩ ∧
      (it.next m size).1.size.toNat = min (e.len.toNat - o) size := by
  obtain ⟨done, rest', hat, hcase⟩ := normalize_spec h
  have hlen := hat.chunkCount_eq
  rcases hcase with rfl | ⟨e, rest, rfl, hlt⟩
  · have hend : (it.normalize m).i = (it.normalize m).chunkCount := by
      rw [hat.index, hlen]
      simp
    rw [next, if_pos hend] at hne
    cases hne
  · have hinside : (it.normalize m).i ≠ (it.normalize m).chunkCount := by
      rw [hat.index, hlen, List.length_cons]
      omega
    have hget : (it.normalize m).chunks.get m (it.normalize m).i = e := by
      rw [hat.index]
      exact EntryTable.get_of_entries (hat.table.trans hat.split)
    have hk32 : min (e.len.toNat - (it.normalize m).offset) size < 2 ^ 32 := by
      have := e.len.isLt
      omega
    refine ⟨done, e, rest, (it.normalize m).offset, hat.split, ?_, ?_⟩
    · rw [hat.pos_eq, msgOffset, hat.chunkStart]
    · rw [next, if_neg hinside]
      simp only [hget, BitVec.toNat_ofNat, Nat.mod_eq_of_lt hk32]
      exact ⟨by omega, trivial, trivial⟩

theorem next_handout (h : At p m es it pos) (size : Nat) :
    Handout p m es pos size (it.next m size) := by
  obtain ⟨done', rest', hat, hcase⟩ := normalize_spec h
  have hslice : (it.next m size).1.isEmpty = false → ∃ e ∈ es, ∃ o,
      o + (it.next m size).1.size.toNat ≤ e.len.toNat ∧
      (it.next m size).1.ptr = ⟨e.seg, BitVec.ofNat 32 (e.off.toNat + o)⟩ ∧
      List.range' (e.addr p + o) (it.next m size).1.size.toNat =
        ((addrs p es).drop pos).take (it.next m size).1.size.toNat := by
    intro hne
    obtain ⟨done, e, rest, o, hes, hpos, hok, hptr, -⟩ := next_position h hne
    refine ⟨e, by rw [hes]; simp, o, hok, hptr, ?_⟩
    -- the positions from `pos` on start inside the block of `e`
    have hdrop : (addrs p es).drop pos =
        (List.range' (e.addr p) e.len.toNat).drop o ++ addrs p rest := by
      rw [hes, addrs_append, addrs_cons, hpos, List.drop_length_add_append]
      exact List.drop_append_of_le_length (by rw [List.length_range']; omega)
    rw [hdrop, List.drop_range', Nat.mul_one,
      List.take_append_of_le_length (by rw [List.length_range']; omega),
      List.take_range'_of_length_ge (by omega)]
  rcases hcase with rfl | ⟨e, rest, rfl, hlt⟩
  · -- end of the message
    have hend : (it.normalize m).i = (it.normalize m).chunkCount := by
      rw [hat.index, hat.chunkCount_eq]; simp
    have hoff : (it.normalize m).offset = 0 := by simpa using hat.inChunk
    have hpos : pos = (addrs p es).length := by
      rw [hat.pos_eq, msgOffset, hoff, hat.chunkStart, hat.split]; simp
    rw [next, if_pos hend]
    exact ⟨Nat.zero_le _, ⟨done', [], hat⟩, fun _ => .inr hpos, fun hne => Bool.noConfusion hne⟩
  · have hlen := hat.chunkCount_eq
    have hne : (it.normalize m).i ≠ (it.normalize m).chunkCount := by
      rw [hat.index, hlen, List.length_cons]
      omega
    have hget : (it.normalize m).chunks.get m (it.normalize m).i = e := by
      rw [hat.index]
      exact EntryTable.get_of_entries (hat.table.trans hat.split)
    refine ⟨?_, ?_, ?_, hslice⟩ <;> rw [next, if_neg hne] <;> simp only [hget]
    all_goals
      generalize hk : min (e.len.toNat - (it.normalize m).offset) size = k
      have hk32 : k < 2 ^ 32 := by have := e.len.isLt; omega
      have hsize : (BitVec.ofNat 32 k).toNat = k := by
        rw [BitVec.toNat_ofNat, Nat.mod_eq_of_lt hk32]
    · simp only [hsize]
      omega
    · refine ⟨done', e :: rest, hat.table, hat.split, hat.index, hat.chunkStart, ?_, ?_⟩
      · simp only [List.take_succ_cons, List.take_zero, addrs_cons, addrs_nil, List.append_nil,
          List.length_range']
        omega
      · simp only [hsize, hat.pos_eq, msgOffset]
        omega
    · rw [isEmpty_iff]
      simp only [hsize]
      omega

theorem next_spec (hv : ∀ e ∈ es, e.Valid p) (h : At p m es it pos) (size : Nat) :
    Step p m es pos size (it.next m size) := by
  obtain ⟨hle, hat, hempty, hslice⟩ := next_handout h size
  refine ⟨hle, hat, hempty, ?_⟩
  intro hne
  obtain ⟨e, he, o, hok, hptr, hblock⟩ := hslice hne
  have hpos : 0 < (it.next m size).1.size.toNat := by
    rw [← Bool.not_eq_true, isEmpty_iff] at hne
    omega
  refine ⟨e.addr p + o, ?_, hblock⟩
  have htranslate := (hv e he).translate hpos hok
  rw [BitVec.ofNat_toNat, BitVec.setWidth_eq] at htranslate
  rw [hptr, htranslate]

/-- `skip_to` ends at the byte asked for, or at the end of a shorter message. -/
theorem skipLoop_spec (dst n : Nat) (h : At p m es it pos) (hpos : pos ≤ dst)
    (hn : dst - pos < n) :
    At p m es (it.skipLoop m dst n) (min dst (addrs p es).length) := by
  induction n generalizing it pos with
  | zero => omega
  | succ n ih =>
      have hpos_eq : pos = it.msgOffset := by
        obtain ⟨done, rest, h⟩ := h
        exact h.pos_eq
      have hstep := next_handout h (dst - pos)
      rw [skipLoop, ← hpos_eq]
      generalize hr : it.next m (dst - pos) = r at hstep
      obtain ⟨s, it'⟩ := r
      have hat : At p m es it' (pos + s.size.toNat) := hstep.at'
      have hle : s.size.toNat ≤ dst - pos := hstep.len_le
      by_cases hs : s.isEmpty = true
      · have hzero : s.size.toNat = 0 := (isEmpty_iff s).mp hs
        have hmin : min dst (addrs p es).length = pos := by
          have hend : dst - pos = 0 ∨ pos = (addrs p es).length := hstep.empty hs
          have := h.pos_le
          omega
        simp only [hs, if_true, hmin]
        simpa only [hzero, Nat.add_zero] using hat
      · have hnz : s.size.toNat ≠ 0 := fun hz => hs ((isEmpty_iff s).mpr hz)
        simp only [hs]
        exact ih hat (by omega) (by omega)

theorem skipTo_spec (t : EntryTable) (n dst : Nat) (hes : t.entries m n = es) :
    At p m es ((start t n).skipTo m dst) (min dst (addrs p es).length) := by
  have hat : At p m es (start t n) 0 := hes ▸ start_at t n
  exact skipLoop_spec dst (dst + 1) hat (Nat.zero_le _) (by omega)

end Iterator
end Qine

import Qine.Lib.StateExcept
import Qine.Msg.Read

/-!
# Assembling replies

A handler assembles its reply with several `Msg::write` calls at different offsets, over a receive
buffer the guest split as it liked, and `read_written` reads back what is there. Along the address
list of the receive entries a write is a plain `scatter` (`write_spec`), and a whole sequence of
writes is a `scatterAll` (`writes_spec`).

A 32-bit message uses the guest's entry table in place. A receive entry that covers the table
itself lets a write change the table under the iterator, so the result above needs the table to lie
outside the receive buffer (`EntryTable.Apart`); `reply_over_own_table` shows what happens
otherwise. A 16-bit message works on a translated copy and needs nothing.
-/

namespace Qine

variable {p : Process} {m m₀ : Mem} {es : List MxferEntry} {it : Iterator} {pos size : Nat}

namespace Msg

/-- The loop of `Msg::write`: how much of `size` is left. When a chunk does not translate, the chunks
before it have been written. -/
def writeLoop (p : Process) : Nat → Iterator → Nat → List Byte → EStateM Fault Mem Nat
  | 0, _, size, _ => return size
  | n + 1, it, size, src =>
    if size = 0 then return size
    else do
      let (slice, it') := it.next (← get) size
      if slice.isEmpty then return size
      else
        let dst ← EStateM.ofExcept (p.translateSegmented slice.ptr slice.size)
        modify (·.write dst (src.take slice.size.toNat))
        writeLoop p n it' (size - slice.size.toNat) (src.drop slice.size.toNat)

/-- `Msg::write` of the bytes `src`: how many were transferred. -/
def write (p : Process) (msg : Msg) (offset : Nat) (src : List Byte) : EStateM Fault Mem Nat := do
  let left ← writeLoop p src.length (msg.iterateReceive.skipTo (← get) offset) src.length src
  return src.length - left

/-- A sequence of `Msg::write` calls: what each returned. -/
def writes (p : Process) (msg : Msg) (ws : List (Nat × List Byte)) : EStateM Fault Mem (List Nat) :=
  ws.mapM fun (offset, src) => msg.write p offset src

end Msg

/-! ## The entry table under writes -/

/-- No byte of the table's first `n` entries is among the addresses `as`. -/
def EntryTable.Apart (as : List Nat) (n : Nat) : EntryTable → Prop
  | .guest addr => ∀ x ∈ as, x < addr ∨ addr + MxferEntry.size * n ≤ x
  | .translated _ => True

theorem EntryTable.Apart.mono {as bs : List Nat} {n : Nat} {t : EntryTable} (h : t.Apart as n)
    (hsub : bs ⊆ as) : t.Apart bs n := by
  cases t with
  | guest addr => exact fun x hx => h x (hsub hx)
  | translated es => trivial

theorem MxferEntry.load_congr {m' : Mem} {a : Nat}
    (h : ∀ x, a ≤ x → x < a + MxferEntry.size → m x = m' x) :
    MxferEntry.load m a = MxferEntry.load m' a := by
  simp only [MxferEntry.size] at h
  simp only [MxferEntry.load, MxferEntry.mk.injEq]
  refine ⟨?_, ?_, ?_, ?_⟩ <;>
    exact Memory.loadWord_congr fun x h₁ h₂ => h x (by omega) (by omega)

/-- Changing memory along addresses apart from the table does not change its entries. -/
theorem EntryTable.entries_congr {t : EntryTable} {as : List Nat} {n : Nat} {m' : Mem}
    (ht : t.Apart as n) (h : ∀ x, x ∉ as → m' x = m x) : t.entries m' n = t.entries m n := by
  apply List.map_congr_left
  intro i hi
  rw [List.mem_range] at hi
  cases t with
  | translated es => rfl
  | guest addr =>
      apply MxferEntry.load_congr
      intro x h₁ h₂
      apply h
      intro hx
      have := ht x hx
      simp only [MxferEntry.size] at *
      omega

theorem EntryTable.entries_scatter {t : EntryTable} {as : List Nat} {n : Nat} (ht : t.Apart as n)
    (src : List Byte) : t.entries (m.scatter as src) n = t.entries m n :=
  EntryTable.entries_congr ht fun _ => Memory.scatter_of_not_mem

theorem Iterator.At.congr {m' : Mem} (h : it.At p m es pos)
    (heq : it.chunks.entries m' it.chunkCount = it.chunks.entries m it.chunkCount) :
    it.At p m' es pos := by
  obtain ⟨done, rest, h⟩ := h
  exact ⟨done, rest, heq.trans h.table, h.split, h.index, h.chunkStart, h.inChunk, h.pos_eq⟩

/-! ## What the entries name -/

/-- The host addresses a chunk names, valid or not: guest offsets are 32 bits wide. -/
def named (p : Process) (es : List MxferEntry) : List Nat :=
  es.flatMap fun e => (List.range e.len.toNat).map fun o =>
    p.baseOf e.seg + (e.off.toNat + o) % 2 ^ 32

@[simp] theorem named_append (es₁ es₂ : List MxferEntry) :
    named p (es₁ ++ es₂) = named p es₁ ++ named p es₂ := by simp [named]

@[simp] theorem length_named : (named p es).length = (addrs p es).length := by
  simp [named, addrs, List.length_flatMap]

theorem translateSegmented_prefix {ptr : FarPointer} {n k : BitVec 32} {a : Nat}
    (h : p.translateSegmented ptr n = .ok a) (hk : 0 < k.toNat) (hle : k.toNat ≤ n.toNat) :
    p.translateSegmented ptr k = .ok a := by
  have hmono := Process.translateSegmented_mono (o := 0) h hk (by omega)
  simpa using hmono

/-- Valid chunks name what `addrs` lists for them. -/
theorem named_eq_addrs (hv : ∀ e ∈ es, e.Valid p) : named p es = addrs p es := by
  apply List.flatMap_congr
  intro e he
  rw [List.range'_eq_map_range]
  apply List.map_congr_left
  intro o ho
  have hlen : o < e.len.toNat := List.mem_range.mp ho
  obtain ⟨a, ha⟩ := hv e he (fun h0 => by simp [h0] at hlen)
  have hlt := (p.translateSegmented_lt ha).1
  simp only [MxferEntry.addr] at hlt ⊢
  omega

theorem mem_named {x : Nat} :
    x ∈ named p es ↔ ∃ e ∈ es, ∃ o < e.len.toNat, p.baseOf e.seg + (e.off.toNat + o) % 2 ^ 32 = x := by
  simp [named]

/-- What a slice of a chunk translates to is named by the chunk. -/
theorem named_of_translate {e : MxferEntry} {o k a x : Nat} (he : e ∈ es) (hk : k < 2 ^ 32)
    (hok : o + k ≤ e.len.toNat)
    (ha : p.translateSegmented ⟨e.seg, BitVec.ofNat 32 (e.off.toNat + o)⟩ (BitVec.ofNat 32 k) = .ok a)
    (hx : a ≤ x ∧ x < a + k) : x ∈ named p es := by
  have hbase := p.translateSegmented_base ha
  have hlt := (p.translateSegmented_lt ha).1
  simp only [BitVec.toNat_ofNat, Nat.mod_eq_of_lt hk] at hbase hlt
  refine mem_named.mpr ⟨e, he, o + (x - a), by omega, ?_⟩
  omega

/-! ## One write -/

namespace Iterator

/-- The iterator never changes which table it walks. -/
theorem normalizeLoop_table (n : Nat) (it : Iterator) :
    (it.normalizeLoop m n).chunks = it.chunks ∧
      (it.normalizeLoop m n).chunkCount = it.chunkCount := by
  induction n generalizing it with
  | zero => exact ⟨rfl, rfl⟩
  | succ n ih =>
      unfold normalizeLoop
      split
      · exact ih _
      · exact ⟨rfl, rfl⟩

theorem next_table (it : Iterator) (size : Nat) :
    (it.next m size).2.chunks = it.chunks ∧ (it.next m size).2.chunkCount = it.chunkCount := by
  unfold next
  dsimp only
  split
  · exact normalizeLoop_table _ it
  · exact normalizeLoop_table _ it

theorem skipLoop_table (dst n : Nat) (it : Iterator) :
    (it.skipLoop m dst n).chunks = it.chunks ∧
      (it.skipLoop m dst n).chunkCount = it.chunkCount := by
  induction n generalizing it with
  | zero => exact ⟨rfl, rfl⟩
  | succ n ih =>
      have hnext := next_table (m := m) it (dst - it.msgOffset)
      unfold skipLoop
      generalize it.next m (dst - it.msgOffset) = r at hnext
      obtain ⟨s, it'⟩ := r
      simp only at hnext ⊢
      split
      · exact hnext
      · rw [(ih it').1, (ih it').2]
        exact hnext

theorem skipTo_table (dst : Nat) (it : Iterator) :
    (it.skipTo m dst).chunks = it.chunks ∧ (it.skipTo m dst).chunkCount = it.chunkCount :=
  skipLoop_table dst (dst + 1) it

/-- What a slice translates to is the next block of what the entries name. -/
theorem next_block (h : it.At p m es pos) (size a : Nat)
    (hne : (it.next m size).1.isEmpty = false)
    (ha : p.translateSegmented (it.next m size).1.ptr (it.next m size).1.size = .ok a) :
    List.range' a (it.next m size).1.size.toNat =
      ((named p es).drop pos).take (it.next m size).1.size.toNat := by
  obtain ⟨done, e, rest, o, rfl, rfl, hok, hptr, -⟩ := next_position h hne
  have hbase := p.translateSegmented_base ha
  have hlt := (p.translateSegmented_lt ha).1
  rw [hptr] at hbase hlt
  simp only [BitVec.toNat_ofNat] at hbase hlt
  generalize (it.next m size).1.size.toNat = k at *
  have hchunk : named p (e :: rest) = (List.range e.len.toNat).map (fun o =>
      p.baseOf e.seg + (e.off.toNat + o) % 2 ^ 32) ++ named p rest := by simp [named]
  have hdone : (named p done).length = (addrs p done).length := length_named
  rw [named_append, ← hdone, List.drop_length_add_append, hchunk,
    List.drop_append_of_le_length (by simp; omega), List.take_append_of_le_length (by simp; omega)]
  apply List.ext_getElem
  · simp
    omega
  · intro i h₁ h₂
    have hi : i < k := by simpa using h₁
    simp only [List.getElem_range', List.getElem_take, List.getElem_drop, List.getElem_map,
      List.getElem_range]
    omega

/-- The table is all that `next` reads of memory. -/
theorem At.next_congr (h : it.At p m₀ es pos)
    (heq : it.chunks.entries m it.chunkCount = it.chunks.entries m₀ it.chunkCount) (size : Nat) :
    it.next m size = it.next m₀ size := by
  have hget : ∀ i < it.chunkCount, it.chunks.get m i = it.chunks.get m₀ i := by
    intro i hi
    have hi' := congrArg (·[i]?) heq
    simpa [EntryTable.entries, hi] using hi'
  have hloop : ∀ n (jt : Iterator), jt.chunks = it.chunks → jt.chunkCount = it.chunkCount →
      jt.normalizeLoop m n = jt.normalizeLoop m₀ n := by
    intro n
    induction n with
    | zero => exact fun _ _ _ => rfl
    | succ n ih =>
        intro jt hc hn
        unfold normalizeLoop
        by_cases hi : jt.i < jt.chunkCount
        · rw [hc, hget jt.i (hn ▸ hi), ← hc]
          split
          · exact ih _ hc hn
          · rfl
        · rw [if_neg (fun h => hi h.1), if_neg (fun h => hi h.1)]
  have hnorm : it.normalize m = it.normalize m₀ := hloop _ it rfl rfl
  have htable := normalizeLoop_table (m := m₀) (it.chunkCount - it.i) it
  obtain ⟨done, rest, hat, -⟩ := normalize_spec h
  unfold next
  rw [hnorm]
  dsimp only
  split
  · rfl
  · next hi =>
    have hlt : (it.normalize m₀).i < it.chunkCount := by
      have hle : (it.normalize m₀).i ≤ (it.normalize m₀).chunkCount := by
        rw [hat.index, hat.chunkCount_eq]
        omega
      have hcount : (it.normalize m₀).chunkCount = it.chunkCount := htable.2
      omega
    have hchunk : (it.normalize m₀).chunks = it.chunks := htable.1
    rw [hchunk, hget _ hlt]

/-- Asked for less, `next` hands out a prefix of the slice, or the same slice. -/
theorem next_shorter (it : Iterator) {k : Nat} (hk : k ≤ size) :
    (it.next m k).1.size.toNat = min (it.next m size).1.size.toNat k ∧
      (it.next m k).1.ptr = (it.next m size).1.ptr ∧
      ((it.next m size).1.size.toNat ≤ k → it.next m k = it.next m size) := by
  unfold next
  dsimp only
  split
  · exact ⟨by simp, rfl, fun _ => rfl⟩
  · generalize (it.normalize m).chunks.get m (it.normalize m).i = c
    have hc := c.len.isLt
    have h₁ : min (c.len.toNat - (it.normalize m).offset) size < 2 ^ 32 := by omega
    have h₂ : min (c.len.toNat - (it.normalize m).offset) k < 2 ^ 32 := by omega
    simp only [BitVec.toNat_ofNat, Nat.mod_eq_of_lt h₁, Nat.mod_eq_of_lt h₂]
    refine ⟨by omega, trivial, ?_⟩
    intro hle
    have hmin : min (c.len.toNat - (it.normalize m).offset) k =
        min (c.len.toNat - (it.normalize m).offset) size := by omega
    rw [hmin]

end Iterator

namespace Msg

@[simp] theorem writeLoop_nil (n : Nat) : writeLoop p n it 0 [] = pure 0 := by
  cases n with
  | zero => rfl
  | succ n => rfl

/-- A round of the loop stores a block along what the entries name. -/
theorem writeLoop_round {n a : Nat} {src : List Byte} (h : it.At p m₀ es pos)
    (heq : it.chunks.entries m it.chunkCount = it.chunks.entries m₀ it.chunkCount)
    (hne : (it.next m₀ src.length).1.isEmpty = false)
    (ha : p.translateSegmented (it.next m₀ src.length).1.ptr (it.next m₀ src.length).1.size = .ok a) :
    (writeLoop p (n + 1) it src.length src).run m =
      (writeLoop p n (it.next m₀ src.length).2 (src.length - (it.next m₀ src.length).1.size.toNat)
        (src.drop (it.next m₀ src.length).1.size.toNat)).run
      (m.scatter (((named p es).drop pos).take (it.next m₀ src.length).1.size.toNat)
        (src.take (it.next m₀ src.length).1.size.toNat)) := by
  have hblock := Iterator.next_block h src.length a hne ha
  have hle : (it.next m₀ src.length).1.size.toNat ≤ src.length := (Iterator.next_handout h src.length).len_le
  have hsrc : src.length ≠ 0 := by
    intro hzero
    have hempty := (Iterator.isEmpty_iff (it.next m₀ src.length).1).mpr (by omega)
    rw [hne] at hempty
    cases hempty
  rw [writeLoop, if_neg hsrc, EStateM.run_get_bind, h.next_congr heq]
  dsimp only
  rw [hne, if_neg Bool.false_ne_true, EStateM.run_ofExcept_bind ha, EStateM.run_modify_bind,
    Memory.write_eq_scatter, List.length_take, Nat.min_eq_left hle, hblock]

/-- At the end of the message nothing is stored any more. -/
theorem writeLoop_end {n : Nat} {src : List Byte} (h : it.At p m₀ es pos)
    (heq : it.chunks.entries m it.chunkCount = it.chunks.entries m₀ it.chunkCount)
    (hemp : (it.next m₀ src.length).1.isEmpty = true) :
    (writeLoop p (n + 1) it src.length src).run m = .ok src.length m := by
  rw [writeLoop]
  split
  · next hzero => rw [hzero, EStateM.run_pure]
  · rw [EStateM.run_get_bind, h.next_congr heq]
    dsimp only
    rw [if_pos hemp, EStateM.run_pure]

/-- Where the vectors exist, a write of no more bytes stores them along what the entries name, as long
as none of the bytes it may store belongs to the table it walks. -/
theorem writeLoop_of_iovecLoop {n n' left : Nat} {dst vs : List Iovec} {src : List Byte}
    (h : it.At p m₀ es pos) (hn : size ≤ n) (hvs : iovecLoop p m₀ n it size dst = .ok (vs, left))
    (heq : it.chunks.entries m it.chunkCount = it.chunks.entries m₀ it.chunkCount)
    (hapart : it.chunks.Apart (((named p es).drop pos).take size) it.chunkCount)
    (hsrc : src.length ≤ size) (hn' : src.length ≤ n') :
    (writeLoop p n' it src.length src).run m =
      .ok (src.length - ((named p es).length - pos)) (m.scatter ((named p es).drop pos) src) := by
  induction n generalizing m it pos size dst src n' with
  | zero =>
      obtain rfl : src = [] := List.eq_nil_of_length_eq_zero (by omega)
      simp
  | succ n ih =>
      by_cases hsrc0 : src.length = 0
      · obtain rfl : src = [] := List.eq_nil_of_length_eq_zero hsrc0
        simp
      · obtain ⟨n', rfl⟩ : ∃ i, n' = i + 1 := ⟨n' - 1, by omega⟩
        have hstep := Iterator.next_handout h size
        have hstep' := Iterator.next_handout h src.length
        have htable := Iterator.next_table (m := m₀) it src.length
        obtain ⟨hlen, hptr, hsame⟩ := Iterator.next_shorter (m := m₀) it hsrc
        unfold iovecLoop at hvs
        rw [if_neg (by omega : size ≠ 0)] at hvs
        by_cases hemp : (it.next m₀ size).1.isEmpty = true
        · -- the end of the message, for both
          have hpos := (hstep.empty hemp).resolve_left (by omega)
          have hemp' : (it.next m₀ src.length).1.isEmpty = true := by
            rw [Iterator.isEmpty_iff] at hemp ⊢
            omega
          have hdrop : (named p es).drop pos = [] := by simp [hpos, length_named (p := p)]
          rw [writeLoop_end h heq hemp', hdrop, Memory.scatter_nil_left, length_named, hpos, Nat.sub_self,
            Nat.sub_zero]
        · dsimp only at hvs
          rw [if_neg hemp] at hvs
          obtain ⟨a, ha, hvs⟩ := bind_eq_ok.mp hvs
          have hnz : (it.next m₀ size).1.size.toNat ≠ 0 := fun hz => hemp ((Iterator.isEmpty_iff _).mpr hz)
          have hemp' : (it.next m₀ src.length).1.isEmpty = false := by
            rw [Bool.eq_false_iff, ne_eq, Iterator.isEmpty_iff]
            omega
          have ha' : p.translateSegmented (it.next m₀ src.length).1.ptr (it.next m₀ src.length).1.size = .ok a :=
            hptr ▸ translateSegmented_prefix ha (by omega) (by omega)
          rw [writeLoop_round h heq hemp' ha']
          -- where the slice was used up, both go on behind it
          have hboth : (it.next m₀ size).1.size.toNat ≤ src.length →
              iovecLoop p m₀ n (it.next m₀ src.length).2 (size - (it.next m₀ src.length).1.size.toNat)
                (dst ++ [⟨.guest a, (it.next m₀ src.length).1.size.toNat⟩]) = .ok (vs, left) := by
            intro hall
            rw [hsame hall]
            exact hvs
          have hat := hstep'.at'
          have hend := hat.pos_le
          generalize it.next m₀ src.length = r at *
          obtain ⟨slice, it'⟩ := r
          dsimp only at *
          generalize slice.size.toNat = k at *
          have hrest : (writeLoop p n' it' (src.length - k) (src.drop k)).run
              (m.scatter (((named p es).drop pos).take k) (src.take k)) =
              .ok (src.length - k - ((named p es).length - (pos + k)))
                ((m.scatter (((named p es).drop pos).take k) (src.take k)).scatter
                  ((named p es).drop (pos + k)) (src.drop k)) := by
            by_cases hall : (it.next m₀ size).1.size.toNat ≤ src.length
            · have hblock : it.chunks.Apart (((named p es).drop pos).take k) it.chunkCount :=
                hapart.mono (List.take_subset_take_left _ (by omega))
              have heq' := (EntryTable.entries_scatter (m := m) hblock (src.take k)).trans heq
              have hapart' : it'.chunks.Apart (((named p es).drop (pos + k)).take (size - k))
                  it'.chunkCount := by
                rw [htable.1, htable.2]
                exact hapart.mono (by rw [take_drop_split _ pos k size (by omega)]; simp)
              rw [← htable.1, ← htable.2] at heq'
              have hrest := @ih _ it' _ _ n' _ (src.drop k) hat (by omega) (hboth hall) heq' hapart'
                (by rw [List.length_drop]; omega) (by rw [List.length_drop]; omega)
              rwa [List.length_drop] at hrest
            · have hzero : src.length - k = 0 := by omega
              rw [List.drop_eq_nil_of_le (by omega), hzero]
              simp
          have hlen' : (((named p es).drop pos).take k).length = (src.take k).length := by
            rw [List.length_take, List.length_take, List.length_drop, length_named]
            omega
          rw [hrest, ← List.drop_drop, ← Memory.scatter_append hlen', List.take_append_drop,
            List.take_append_drop]
          have hleft : src.length - k - ((named p es).length - (pos + k)) =
              src.length - ((named p es).length - pos) := by
            rw [length_named]
            omega
          rw [hleft]

theorem writeLoop_spec (hv : ∀ e ∈ es, e.Valid p) (n : Nat) (h : it.At p m es pos)
    (hapart : it.chunks.Apart (addrs p es) it.chunkCount) (src : List Byte)
    (hn : src.length ≤ n) :
    (writeLoop p n it src.length src).run m =
      .ok (src.length - ((addrs p es).length - pos)) (m.scatter ((addrs p es).drop pos) src) := by
  obtain ⟨vs, hvs, -⟩ := iovecLoop_spec hv n h src.length hn []
  rw [← named_eq_addrs hv] at hapart ⊢
  exact writeLoop_of_iovecLoop h hn hvs rfl
    (hapart.mono fun x hx => List.mem_of_mem_drop (List.mem_of_mem_take hx)) (Nat.le_refl _) hn

/-- One write transfers what fits and stores it along the receive addresses. -/
theorem write_spec (hv : ∀ e ∈ es, e.Valid p) {msg : Msg}
    (hes : msg.rcv.entries m msg.rcvParts = es) (hapart : msg.rcv.Apart (addrs p es) msg.rcvParts)
    (offset : Nat) (src : List Byte) :
    (msg.write p offset src).run m =
      .ok (min src.length ((addrs p es).length - offset))
        (m.scatter ((addrs p es).drop offset) src) := by
  have hat := Iterator.skipTo_spec (p := p) msg.rcv msg.rcvParts offset hes
  have htable := Iterator.skipTo_table (m := m) offset (.start msg.rcv msg.rcvParts)
  have hapart' : ((Iterator.start msg.rcv msg.rcvParts).skipTo m offset).chunks.Apart (addrs p es)
      ((Iterator.start msg.rcv msg.rcvParts).skipTo m offset).chunkCount := by
    rw [htable.1, htable.2]; exact hapart
  have hloop := writeLoop_spec hv src.length hat hapart' src (Nat.le_refl _)
  rw [← List.drop_eq_drop_min] at hloop
  rw [write, EStateM.run_get_bind, EStateM.run_bind, iterateReceive, hloop]
  simp only [EStateM.pure_ok, and_true]
  omega

/-- A sequence of writes, each transferring what fits. -/
theorem writes_spec (hv : ∀ e ∈ es, e.Valid p) {msg : Msg}
    (hes : msg.rcv.entries m msg.rcvParts = es) (hapart : msg.rcv.Apart (addrs p es) msg.rcvParts)
    (ws : List (Nat × List Byte)) :
    (msg.writes p ws).run m =
      .ok (ws.map fun w => min w.2.length ((addrs p es).length - w.1))
        (m.scatterAll (addrs p es) ws) := by
  induction ws generalizing m with
  | nil => rfl
  | cons w ws ih =>
      obtain ⟨offset, src⟩ := w
      have hrest := ih ((EntryTable.entries_scatter (hapart.mono (List.drop_subset offset _)) src).trans hes)
      unfold writes at hrest ⊢
      rw [List.mapM_cons, EStateM.run_bind, write_spec hv hes hapart]
      dsimp only
      rw [EStateM.run_bind, hrest]
      rfl

end Msg

/-! ## A reply as a byte list -/

/-- A receive area a handler can put its reply into: valid, pairwise disjoint parts that do not cover the
32-bit entry table itself. -/
structure Msg.Area (msg : Msg) (p : Process) (es : List MxferEntry) : Prop where
  valid : ∀ e ∈ es, e.Valid p
  nodup : (addrs p es).Nodup
  apart : msg.rcv.Apart (addrs p es) msg.rcvParts

/-- The table lists the area's entries, and there are these bytes in the area. -/
structure Msg.Shows (msg : Msg) (p : Process) (es : List MxferEntry) (m : Mem) (bs : List Byte) : Prop where
  table : msg.rcv.entries m msg.rcvParts = es
  bytes : guestBytes p m es = bs

/-- A write over a block of the area replaces that block. -/
theorem Msg.Area.write_shows {msg : Msg} (ha : msg.Area p es) {pre old post src : List Byte}
    (h : msg.Shows p es m (pre ++ (old ++ post))) (hlen : old.length = src.length) :
    ∃ k m', (msg.write p pre.length src).run m = .ok k m' ∧
      msg.Shows p es m' (pre ++ (src ++ post)) := by
  refine ⟨_, _, write_spec ha.valid h.table ha.apart pre.length src, ?_, ?_⟩
  · exact (EntryTable.entries_scatter (ha.apart.mono (List.drop_subset _ _)) src).trans h.table
  · exact Memory.gather_scatter ha.nodup h.bytes hlen

/-! ## What a write can touch -/

namespace Msg

/-- Nothing but what the chunks name is changed. -/
def SameOutside (p : Process) (es : List MxferEntry) (m m' : Mem) : Prop :=
  ∀ x, x ∉ named p es → m' x = m x

theorem writeLoop_leaves (n : Nat) {size : Nat} {src : List Byte} (h : it.At p m es pos)
    (hapart : it.chunks.Apart (named p es) it.chunkCount) (hn : size ≤ n) :
    (writeLoop p n it size src).Leaves m
      (fun left m' => left = size - ((addrs p es).length - pos) ∧ SameOutside p es m m')
      (fun _ => SameOutside p es m) := by
  have hrefl : SameOutside p es m m := fun _ _ => rfl
  induction n generalizing m it pos size src with
  | zero => exact EStateM.leaves_pure ⟨by omega, hrefl⟩
  | succ n ih =>
      unfold writeLoop
      split
      · exact EStateM.leaves_pure ⟨by omega, hrefl⟩
      · next hsize =>
        apply EStateM.leaves_get_bind
        have hstep := Iterator.next_handout h size
        have htable := Iterator.next_table (m := m) it size
        generalize it.next m size = r at hstep htable
        obtain ⟨slice, it'⟩ := r
        simp only at htable
        dsimp only
        split
        · next hemp =>
            have hend := (hstep.empty hemp).resolve_left hsize
            exact EStateM.leaves_pure ⟨by omega, hrefl⟩
        · next hemp =>
            apply EStateM.leaves_ofExcept_bind
            · intro a ha
              obtain ⟨e, he, o, hok, hptr, -⟩ := hstep.slice (by simpa using hemp)
              have hnz : slice.size.toNat ≠ 0 := fun hz => hemp ((Iterator.isEmpty_iff slice).mpr hz)
              have hle : slice.size.toNat ≤ size := hstep.len_le
              have hend : pos + slice.size.toNat ≤ (addrs p es).length := hstep.at'.pos_le
              simp only at hok hptr
              have hframe : SameOutside p es m (m.write a (src.take slice.size.toNat)) := by
                intro x hx
                apply Memory.write_of_not_mem
                intro hmem
                apply hx
                rw [List.mem_range'_1, List.length_take] at hmem
                refine named_of_translate he slice.size.isLt hok ?_ ⟨hmem.1, by omega⟩
                rw [← hptr, BitVec.ofNat_toNat, BitVec.setWidth_eq]
                exact ha
              have hapart' : it'.chunks.Apart (named p es) it'.chunkCount := by
                rw [htable.1, htable.2]
                exact hapart
              have hat' := hstep.at'.congr (EntryTable.entries_congr hapart' hframe)
              apply EStateM.leaves_modify_bind
              have htrans : ∀ m', SameOutside p es (m.write a (src.take slice.size.toNat)) m' →
                  SameOutside p es m m' := fun m' h' x hx => (h' x hx).trans (hframe x hx)
              refine (ih hat' hapart' (by omega) fun _ _ => rfl).mono ?_ (fun _ => htrans)
              rintro left m' ⟨hleft, hm'⟩
              simp only at hleft
              exact ⟨by omega, htrans m' hm'⟩
            · exact fun _ _ => hrefl

/-- Even if it fails half-way, a write changes nothing but what the receive entries name, as long as
they do not name the table itself; if it returns, it has transferred what fits. -/
theorem write_leaves {msg : Msg} {offset : Nat} {src : List Byte}
    (hes : msg.rcv.entries m msg.rcvParts = es)
    (hapart : msg.rcv.Apart (named p es) msg.rcvParts) :
    (msg.write p offset src).Leaves m
      (fun k m' => k = min src.length ((addrs p es).length - offset) ∧ SameOutside p es m m')
      (fun _ => SameOutside p es m) := by
  have htable := Iterator.skipTo_table (m := m) offset (.start msg.rcv msg.rcvParts)
  have hapart' : ((Iterator.start msg.rcv msg.rcvParts).skipTo m offset).chunks.Apart (named p es)
      ((Iterator.start msg.rcv msg.rcvParts).skipTo m offset).chunkCount := by
    rw [htable.1, htable.2]
    exact hapart
  unfold write
  apply EStateM.leaves_get_bind
  have hat := Iterator.skipTo_spec (p := p) msg.rcv msg.rcvParts offset hes
  refine (writeLoop_leaves _ hat hapart' (Nat.le_refl _)).bind ?_
  rintro left m₁ ⟨hleft, h₁⟩
  exact EStateM.leaves_pure ⟨by omega, h₁⟩

end Msg

/-! ## The round trip -/

/-- The guest ranges of two chunks have no byte in common. -/
def MxferEntry.DisjointFrom (p : Process) (e f : MxferEntry) : Prop :=
  List.Disjoint (List.range' (e.addr p) e.len.toNat) (List.range' (f.addr p) f.len.toNat)

instance (p : Process) (e f : MxferEntry) : Decidable (e.DisjointFrom p f) :=
  inferInstanceAs (Decidable (∀ ⦃x⦄, x ∈ List.range' (e.addr p) e.len.toNat →
    x ∈ List.range' (f.addr p) f.len.toNat → False))

theorem addrs_nodup (h : es.Pairwise (MxferEntry.DisjointFrom p)) : (addrs p es).Nodup := by
  rw [addrs, List.nodup_flatMap]
  exact ⟨fun e _ => List.nodup_range', h⟩

/-- Reading back, after a sequence of stores along the receive addresses, gives the byte most recently
stored at every position. -/
theorem Msg.readWritten_scatterAll (hv : ∀ e ∈ es, e.Valid p) {msg : Msg}
    (hes : msg.rcv.entries m msg.rcvParts = es) (hapart : msg.rcv.Apart (addrs p es) msg.rcvParts)
    (hnd : (addrs p es).Nodup) (ws : List (Nat × List Byte)) (offset size : Nat) :
    msg.readWritten p (m.scatterAll (addrs p es) ws) offset size = .ok ((List.range size).map fun k =>
      if h : offset + k < (addrs p es).length then
        (Memory.lastStored (offset + k) ws).getD (m (addrs p es)[offset + k])
      else 0xCC) := by
  have hframe : ∀ x, x ∉ addrs p es → m.scatterAll (addrs p es) ws x = m x := fun x hx =>
    Memory.scatterAll_of_not_mem hx
  have hes' := (EntryTable.entries_congr hapart hframe).trans hes
  rw [Msg.readWritten, Msg.iterateReceive, Msg.copyOut_spec hv _ _ hes' offset size]
  congr 1
  apply List.map_congr_left
  intro k _
  by_cases hk : offset + k < (addrs p es).length
  · rw [dif_pos hk, guestBytes, Memory.gather, List.getElem?_map, List.getElem?_eq_getElem hk]
    exact Memory.scatterAll_getElem hnd hk
  · rw [dif_neg hk, List.getElem?_eq_none (by
      rw [length_guestBytes]; exact Nat.le_of_not_lt hk)]
    rfl

/-- Replies are assembled as the handlers mean them. For every receive buffer of valid, pairwise
disjoint ranges that does not cover the 32-bit entry table itself, and every sequence of writes:
each write transfers what fits, reading back gives the byte most recently written at every position
(the old guest byte where there was none, `0xCC` past the buffer), and no other guest byte
changes. -/
theorem reply_round_trip {sendParts rcvParts : Nat} {send rcv : FarPointer} {bits : Bitness}
    {msg : Msg} (hmk : Msg.make p m sendParts send rcvParts rcv bits = .ok msg)
    (hv : ∀ e ∈ guestEntries p m rcv rcvParts bits, e.Valid p)
    (hdisj : (guestEntries p m rcv rcvParts bits).Pairwise (MxferEntry.DisjointFrom p))
    (hapart : bits = .b32 → ∀ x ∈ addrs p (guestEntries p m rcv rcvParts bits),
      x < p.baseOf rcv.segment + rcv.offset.toNat ∨
        p.baseOf rcv.segment + rcv.offset.toNat + MxferEntry.size * rcvParts ≤ x)
    (ws : List (Nat × List Byte)) (offset size : Nat) :
    let es := guestEntries p m rcv rcvParts bits
    ∃ m', (msg.writes p ws).run m =
        .ok (ws.map fun w => min w.2.length ((addrs p es).length - w.1)) m' ∧
      msg.readWritten p m' offset size = .ok ((List.range size).map fun k =>
        if h : offset + k < (addrs p es).length then
          (Memory.lastStored (offset + k) ws).getD (m (addrs p es)[offset + k])
        else 0xCC) ∧
      ∀ x, x ∉ addrs p es → m' x = m x := by
  intro es
  have hes : msg.rcv.entries m msg.rcvParts = es := (Msg.make_entries hmk).2
  have htable : msg.rcv.Apart (addrs p es) msg.rcvParts := by
    have hmsg := Msg.make_eq_ok hmk
    cases bits with
    | b32 => rw [hmsg]; exact hapart rfl
    | b16 => rw [hmsg]; trivial
  refine ⟨_, Msg.writes_spec hv hes htable ws, ?_, fun x hx => Memory.scatterAll_of_not_mem hx⟩
  exact Msg.readWritten_scatterAll hv hes htable (addrs_nodup hdisj) ws offset size

/-- A five-byte buffer in two parts, two overlapping writes of which the second overruns it. -/
theorem reply_round_trip_onePage :
    let p := Process.onePage
    let m : Mem := Memory.write (fun _ => 0) 0x1100
      (leBytes 4 0x200 ++ leBytes 2 7 ++ leBytes 2 0 ++ leBytes 4 3 ++
        (leBytes 4 0x300 ++ leBytes 2 7 ++ leBytes 2 0 ++ leBytes 4 2))
    let msg : Msg := ⟨2, .guest 0x1100, 0, .guest 0x1100⟩
    ∃ m', (msg.writes p [(1, [1, 2]), (2, [3, 4, 5, 6])]).run m = .ok [2, 3] m' ∧
      msg.readWritten p m' 0 6 = .ok [0, 1, 3, 4, 5, 0xCC] := by
  intro p m msg
  have hmk : Msg.make p m 0 ⟨7, 0x100⟩ 2 ⟨7, 0x100⟩ .b32 = .ok msg := by decide +kernel
  have hv : ∀ e ∈ guestEntries p m ⟨7, 0x100⟩ 2 .b32, e.Valid p := by decide +kernel
  have hdisj : (guestEntries p m ⟨7, 0x100⟩ 2 .b32).Pairwise (MxferEntry.DisjointFrom p) := by
    decide +kernel
  have hapart : ∀ x ∈ addrs p (guestEntries p m ⟨7, 0x100⟩ 2 .b32),
      x < p.baseOf 7 + (0x100 : BitVec 32).toNat ∨
        p.baseOf 7 + (0x100 : BitVec 32).toNat + MxferEntry.size * 2 ≤ x := by decide +kernel
  obtain ⟨m', hw, hr, -⟩ := reply_round_trip hmk hv hdisj (fun _ => hapart)
    [(1, [1, 2]), (2, [3, 4, 5, 6])] 0 6
  have hcounts : ([(1, [1, 2]), (2, [3, 4, 5, 6])] : List (Nat × List Byte)).map (fun w =>
      min w.2.length ((addrs p (guestEntries p m ⟨7, 0x100⟩ 2 .b32)).length - w.1)) = [2, 3] := by
    decide +kernel
  rw [hcounts] at hw
  refine ⟨m', hw, hr.trans ?_⟩
  decide +kernel

/-- A receive entry that covers the 32-bit entry table: writing twelve zero bytes through it turns
its own length to zero, so the bytes just written read back as `0xCC`. -/
theorem reply_over_own_table :
    let p := Process.onePage
    let m : Mem := Memory.write (fun _ => 0) 0x1100
      (leBytes 4 0x100 ++ leBytes 2 7 ++ leBytes 2 0 ++ leBytes 4 12)
    let msg : Msg := ⟨1, .guest 0x1100, 0, .guest 0x1100⟩
    let es := guestEntries p m ⟨7, 0x100⟩ 1 .b32
    Msg.make p m 0 ⟨7, 0x100⟩ 1 ⟨7, 0x100⟩ .b32 = .ok msg ∧
      (∀ e ∈ es, e.Valid p) ∧ es.Pairwise (MxferEntry.DisjointFrom p) ∧
      (addrs p es).length = 12 ∧
      (do
        let ns ← msg.writes p [(0, List.replicate 12 0)]
        let dst ← EStateM.ofExcept (msg.readWritten p (← get) 0 1)
        return (ns, dst)).run' m = some ([12], [0xCC]) ∧
      Memory.lastStored 0 [(0, List.replicate 12 (0 : Byte))] = some 0 := by
  decide +kernel

end Qine

import Qine.Msg.Write

/-!
# Letting the host store a reply

`io_read` does not copy: `write_iovec` describes the reply area to the host, and `readv` stores what it
reads through the vectors. Whenever the vectors exist at all, the two ways store the same guest bytes
(`writeLoop_of_iovecLoop`); the entries may be valid or not, and offsets may wrap.

Past the end of the message the copying way stops, and the vectors should go on with a filler that is
there to be written, `garbage_write`. The helper shared with `read_iovec` knows one filler only,
`garbage_read`, so the vectors are what they should be when the message is long enough
(`writeIovec_iff`).
-/

namespace Qine

variable {p : Process} {m m₀ : Mem} {es : List MxferEntry} {it : Iterator} {pos size k : Nat}

/-! ## What the host does with the vectors -/

/-- Store a byte at a place of host memory, as far as the guest can see. -/
def HostByte.store (x : Byte) (m : Mem) : HostByte → Mem
  | .guest a => Function.update m a x
  | .garbageRead _ => m
  | .garbageWrite _ => m

/-- `readv`: store the data through the vectors, in order. -/
def readv (vs : List Iovec) (data : List Byte) (m : Mem) : Mem :=
  ((Iovec.bytes vs).zip data).foldl (fun m bx => bx.1.store bx.2 m) m

theorem foldl_store_guest (as : List Nat) (bs : List HostByte)
    (hb : ∀ b ∈ bs, ∃ i, b = .garbageRead i) (data : List Byte) :
    ((as.map HostByte.guest ++ bs).zip data).foldl (fun m bx => bx.1.store bx.2 m) m =
      m.scatter as data := by
  induction as generalizing m data with
  | nil =>
      rw [List.map_nil, List.nil_append, Memory.scatter_nil_left]
      induction bs generalizing data with
      | nil => rfl
      | cons b bs ih =>
          obtain ⟨i, rfl⟩ := hb b List.mem_cons_self
          cases data with
          | nil => rfl
          | cons x data => exact ih (fun c hc => hb c (List.mem_cons_of_mem _ hc)) data
  | cons a as ih =>
      cases data with
      | nil => simp
      | cons x data => exact ih data

namespace Msg

/-! ## The vectors -/

theorem covered_at_end (vs : List Iovec) (hend : size = 0 ∨ pos = (named p es).length) :
    ∃ ws, vs = vs ++ ws ∧ size = size - ((named p es).length - pos) ∧
      Iovec.bytes ws = (((named p es).drop pos).take size).map HostByte.guest := by
  refine ⟨[], by simp, by omega, ?_⟩
  rcases hend with rfl | rfl
  · simp [Iovec.bytes]
  · simp [Iovec.bytes]

/-- Where the loop comes to its end, its vectors cover the next `size` bytes the entries name. -/
theorem iovecLoop_ok {n left : Nat} {dst vs : List Iovec} (h : it.At p m es pos) (hn : size ≤ n)
    (hvs : iovecLoop p m n it size dst = .ok (vs, left)) :
    ∃ ws, vs = dst ++ ws ∧ left = size - ((named p es).length - pos) ∧
      Iovec.bytes ws = (((named p es).drop pos).take size).map HostByte.guest := by
  induction n generalizing it pos size dst with
  | zero =>
      obtain ⟨rfl, rfl⟩ : dst = vs ∧ size = left := by
        simpa [iovecLoop, pure, Except.pure] using hvs
      exact covered_at_end dst (.inl (by omega))
  | succ n ih =>
      unfold iovecLoop at hvs
      by_cases hsize : size = 0
      · obtain ⟨rfl, rfl⟩ : dst = vs ∧ size = left := by
          simpa [hsize, eq_comm, pure, Except.pure] using hvs
        exact covered_at_end dst (.inl hsize)
      · have hstep := Iterator.next_handout h size
        have hblock := Iterator.next_block h size
        rw [if_neg hsize] at hvs
        generalize it.next m size = r at hstep hblock hvs
        obtain ⟨slice, it'⟩ := r
        have hle : slice.size.toNat ≤ size := hstep.len_le
        have hat : it'.At p m es (pos + slice.size.toNat) := hstep.at'
        dsimp only at hblock hvs
        by_cases hemp : slice.isEmpty = true
        · have hpos := (hstep.empty hemp).resolve_left hsize
          obtain ⟨rfl, rfl⟩ : dst = vs ∧ size = left := by
            simpa [hemp, pure, Except.pure] using hvs
          exact covered_at_end dst (.inr (by rw [length_named, hpos]))
        · rw [if_neg hemp] at hvs
          obtain ⟨a, ha, hvs⟩ := bind_eq_ok.mp hvs
          have hnz : slice.size.toNat ≠ 0 := fun hz => hemp ((Iterator.isEmpty_iff slice).mpr hz)
          have hend := hat.pos_le
          obtain ⟨ws, hws, hleft, hbytes⟩ := ih hat (by omega) hvs
          refine ⟨⟨.guest a, slice.size.toNat⟩ :: ws, ?_, ?_, ?_⟩
          · rw [hws, List.append_assoc, List.singleton_append]
          · rw [length_named] at hleft ⊢
            omega
          · rw [← List.singleton_append, Iovec.bytes_append, Iovec.bytes_guest, hbytes,
              hblock a (by simpa using hemp) ha, take_drop_split _ _ _ _ hle, List.map_append]

/-! ## What `write_iovec` delivers -/

/-- Every vector list that `write_iovec` returns covers what the entries name from `offset` on, and the
read filler behind it. -/
theorem writeIovec_ok {msg : Msg} {offset : Nat} {vs : List Iovec}
    (hes : msg.rcv.entries m msg.rcvParts = es)
    (hvs : msg.writeIovec p m offset size [] = .ok vs) :
    ∃ bs, Iovec.bytes vs = (((named p es).drop offset).take size).map HostByte.guest ++ bs ∧
      bs.length = size - ((named p es).length - offset) ∧ ∀ b ∈ bs, ∃ i, b = .garbageRead i := by
  have hat := Iterator.skipTo_spec (p := p) msg.rcv msg.rcvParts offset hes
  obtain ⟨⟨ws, left⟩, hloop, hret⟩ := bind_eq_ok.mp hvs
  obtain ⟨ws, rfl, rfl, hbytes⟩ := iovecLoop_ok hat (Nat.le_refl _) hloop
  obtain ⟨gs, hgs, hlen, hfiller⟩ := garbageLoop_spec _ _ (Nat.le_refl
    (size - ((named p es).length - min offset (addrs p es).length))) ([] ++ ws)
  have hvs : [] ++ ws ++ gs = vs := by
    rw [← hgs]
    simpa [pure, Except.pure] using hret
  have hdrop : (named p es).drop (min offset (addrs p es).length) = (named p es).drop offset := by
    rw [← length_named]
    exact List.drop_eq_drop_min.symm
  refine ⟨Iovec.bytes gs, ?_, ?_, hfiller⟩
  · rw [← hvs, List.nil_append, Iovec.bytes_append, hbytes, hdrop]
  · rw [hlen, length_named]
    omega

theorem readv_eq_scatter {vs : List Iovec} {as : List Nat} {bs : List HostByte}
    (hbytes : Iovec.bytes vs = (as.take size).map HostByte.guest ++ bs)
    (hfiller : ∀ b ∈ bs, ∃ i, b = .garbageRead i) {data : List Byte} (hlen : data.length ≤ size) :
    readv vs data m = m.scatter as data := by
  rw [readv, hbytes, foldl_store_guest _ _ hfiller, Memory.scatter_take hlen]

end Msg

end Qine

import Qine.Msg.Read
import Qine.Startup

/-!
# Exec and spawn messages

`MainHandler::proc_exec_common` decodes the message with which a program asks to run another one: the
counts from the header, and then byte by byte the path, the arguments, an empty string, the
environment and another empty string.

The message a program finds in its startup data has this form (`Qine.Startup`), so a program that sends
it back, in as many pieces as it likes, names itself (`spawn_round_trip`).
-/

namespace Qine

/-- The strings read so far, and where the next one is read from. -/
structure StringReader where
  reader : MsgStreamReader
  buf : List Byte

/-- What a spawn message asks for. -/
structure ExecArgs where
  path : CString
  argv : List CString
  envp : List CString
  deriving DecidableEq, Repr

namespace Msg

/-- The number of bytes sent. -/
def sendLength (m : Mem) (msg : Msg) : Nat :=
  ((msg.send.entries m msg.sendParts).map (·.len.toNat)).sum

/-- The loop of `read_string`. Past the end of the message only zeros are read, which bounds the
rounds. -/
def readStringLoop (p : Process) (m : Mem) : Nat → StringReader → Except Fault StringReader
  | 0, r => return r
  | n + 1, r => do
    let (c, reader) ← r.reader.get p m 0
    if c = 0 then return ⟨reader, r.buf ++ [0]⟩
    else readStringLoop p m n ⟨reader, r.buf ++ [c]⟩

/-- `read_string` in `MainHandler::proc_exec_common`. -/
def readString (p : Process) (m : Mem) (msg : Msg) (r : StringReader) : Except Fault StringReader :=
  readStringLoop p m (msg.sendLength m + 1) r

/-- Read `n` strings, and remember their offsets into the buffer. -/
def readStrings (p : Process) (m : Mem) (msg : Msg) :
    Nat → StringReader → Except Fault (List Nat × StringReader)
  | 0, r => return ([], r)
  | n + 1, r => do
    let r' ← msg.readString p m r
    let (os, r'') ← readStrings p m msg n r'
    return (r.buf.length :: os, r'')

/-- `MainHandler::proc_exec_common`, up to where it has the path, the arguments and the environment. -/
def procExecCommon (p : Process) (m : Mem) (msg : Msg) : Except Fault ExecArgs := do
  let header ← msg.read p m 0 SpawnMsg.size
  let argc := leNat ((header.drop SpawnMsg.argc).take 2)
  let envc := leNat ((header.drop SpawnMsg.envc).take 2)
  let r : StringReader := ⟨.make m msg SpawnMsg.size, []⟩
  let execPath := r.buf.length
  let r ← msg.readString p m r
  let (argvo, r) ← msg.readStrings p m argc r
  -- the separating empty string
  let r ← msg.readString p m r
  let (envo, r) ← msg.readStrings p m envc r
  let r ← msg.readString p m r
  return ⟨Terminated.stringAt 0 r.buf execPath, argvo.map (Terminated.stringAt 0 r.buf),
    envo.map (Terminated.stringAt 0 r.buf)⟩

/-! ## Reading what was laid out -/

variable {p : Process} {m : Mem} {es : List MxferEntry} {msg : Msg} {pos : Nat}
  {reader : MsgStreamReader} {rest : List Byte}

/-- Inside the message the next byte is read. -/
theorem get_of_drop (hv : ∀ e ∈ es, e.Valid p) {c : Byte} (hat : reader.At p m es pos)
    (hdrop : (guestBytes p m es).drop pos = c :: rest) :
    ∃ reader', reader.get p m 0 = .ok (c, reader') ∧ reader'.At p m es (pos + 1) := by
  obtain ⟨reader', hget, hat'⟩ := MsgStreamReader.get_spec hv hat 0
  have hc : (guestBytes p m es)[pos]? = some c := by
    rw [← List.head?_drop, hdrop]
    rfl
  have hlt : pos < (addrs p es).length := by
    have hlen := congrArg List.length hdrop
    rw [List.length_drop, length_guestBytes, List.length_cons] at hlen
    omega
  rw [hc, Option.getD_some] at hget
  rw [Nat.min_eq_left hlt] at hat'
  exact ⟨reader', hget, hat'⟩

theorem drop_cons {l : List Byte} {c : Byte} (h : l.drop pos = c :: rest) : l.drop (pos + 1) = rest := by
  rw [← List.drop_drop, h]
  rfl

theorem drop_front {l front : List Byte} (h : l.drop pos = front ++ rest) :
    l.drop (pos + front.length) = rest := by
  rw [← List.drop_drop, h, List.drop_left]

theorem drop_terminated {l : List Byte} (str : List Byte) (h : l.drop pos = str ++ 0 :: rest) :
    l.drop (pos + str.length + 1) = rest := by
  rw [Nat.add_assoc, ← List.drop_drop, h, ← List.drop_drop, List.drop_left]
  rfl

theorem readStringLoop_spec (buf : List Byte) (hv : ∀ e ∈ es, e.Valid p) {str : CString} (hstr : 0 ∉ str) {n : Nat}
    (hn : str.length < n) (hat : reader.At p m es pos)
    (hdrop : (guestBytes p m es).drop pos = str ++ 0 :: rest) :
    ∃ reader', readStringLoop p m n ⟨reader, buf⟩ = .ok ⟨reader', buf ++ (str ++ [0])⟩ ∧
      reader'.At p m es (pos + str.length + 1) := by
  obtain ⟨n, rfl⟩ : ∃ k, n = k + 1 := ⟨n - 1, by omega⟩
  induction str generalizing n pos reader buf with
  | nil =>
      obtain ⟨reader', hget, hat'⟩ := get_of_drop hv hat hdrop
      refine ⟨reader', ?_, hat'⟩
      rw [readStringLoop]
      simp only [hget, bind, Except.bind, if_true]
      rfl
  | cons c str ih =>
      obtain ⟨reader₁, hget, hat₁⟩ := get_of_drop hv hat hdrop
      have hc : c ≠ 0 := fun heq => hstr (heq ▸ List.mem_cons_self)
      rw [List.length_cons] at hn
      obtain ⟨n, rfl⟩ : ∃ k, n = k + 1 := ⟨n - 1, by omega⟩
      obtain ⟨reader₂, hrest, hat₂⟩ := ih (buf ++ [c])
        (fun h => hstr (List.mem_cons_of_mem _ h)) hat₁ (drop_cons hdrop) n (by omega)
      refine ⟨reader₂, ?_, ?_⟩
      · rw [readStringLoop]
        simp only [hget, bind, Except.bind, if_neg hc, hrest]
        rw [List.append_assoc]
        rfl
      · rw [List.length_cons, show pos + (str.length + 1) + 1 = pos + 1 + str.length + 1 by omega]
        exact hat₂

theorem sendLength_eq (hes : msg.send.entries m msg.sendParts = es) :
    msg.sendLength m = (addrs p es).length := by
  rw [sendLength, hes, addrs, List.length_flatMap]
  simp

theorem readString_spec (buf : List Byte) (hv : ∀ e ∈ es, e.Valid p)
    (hes : msg.send.entries m msg.sendParts = es) {str : CString} (hstr : 0 ∉ str) (hat : reader.At p m es pos)
    (hdrop : (guestBytes p m es).drop pos = str ++ 0 :: rest) :
    ∃ reader', msg.readString p m ⟨reader, buf⟩ = .ok ⟨reader', buf ++ (str ++ [0])⟩ ∧
      reader'.At p m es (pos + str.length + 1) := by
  have hlen := congrArg List.length hdrop
  rw [List.length_drop, length_guestBytes, List.length_append, List.length_cons] at hlen
  refine readStringLoop_spec buf hv hstr ?_ hat hdrop
  rw [sendLength_eq (p := p) hes]
  omega

theorem readStrings_spec (buf : List Byte) (hv : ∀ e ∈ es, e.Valid p)
    (hes : msg.send.entries m msg.sendParts = es) {strs : List CString} (hstrs : ∀ str ∈ strs, 0 ∉ str) (hat : reader.At p m es pos)
    (hdrop : (guestBytes p m es).drop pos = Terminated.pack 0 strs ++ rest) :
    ∃ reader', msg.readStrings p m strs.length ⟨reader, buf⟩ =
        .ok (Terminated.offsets buf.length strs, ⟨reader', buf ++ Terminated.pack 0 strs⟩) ∧
      reader'.At p m es (pos + (Terminated.pack 0 strs).length) := by
  induction strs generalizing pos reader buf with
  | nil =>
      refine ⟨reader, ?_, hat⟩
      rw [Terminated.pack_nil, List.append_nil]
      rfl
  | cons str strs ih =>
      rw [Terminated.pack_cons, List.append_assoc, List.cons_append] at hdrop
      obtain ⟨reader₁, hstr, hat₁⟩ :=
        readString_spec buf hv hes (hstrs str List.mem_cons_self) hat hdrop
      obtain ⟨reader₂, hrest, hat₂⟩ := ih (buf ++ (str ++ [0]))
        (fun s hs => hstrs s (List.mem_cons_of_mem _ hs)) hat₁ (drop_terminated str hdrop)
      refine ⟨reader₂, ?_, ?_⟩
      · rw [List.length_cons, readStrings]
        simp only [hstr, hrest, bind, Except.bind]
        simp [pure, Except.pure, Terminated.offsets, Nat.add_assoc]
      · rw [Terminated.pack_cons, List.length_append, List.length_cons,
          show pos + (str.length + ((Terminated.pack 0 strs).length + 1)) =
            pos + str.length + 1 + (Terminated.pack 0 strs).length by omega]
        exact hat₂

/-- A header that the message is long enough for is read as it is. -/
theorem read_of_le (hv : ∀ e ∈ es, e.Valid p) (hes : msg.send.entries m msg.sendParts = es)
    {size : Nat} (hsize : size ≤ (guestBytes p m es).length) :
    msg.read p m 0 size = .ok ((guestBytes p m es).take size) := by
  rw [Msg.read, iterateSend, copyOut_spec hv _ _ hes 0 size]
  congr 1
  apply List.ext_getElem
  · rw [List.length_map, List.length_range, List.length_take_of_le hsize]
  · intro k hk _
    rw [List.length_map, List.length_range] at hk
    rw [List.getElem_map, List.getElem_range, List.getElem_take, Nat.zero_add,
      List.getElem?_eq_getElem (by omega), Option.getD_some]

/-- A message with the right counts and the strings behind them is decoded into these strings. -/
theorem procExecCommon_eq (hv : ∀ e ∈ es, e.Valid p)
    (hes : msg.send.entries m msg.sendParts = es) {path : CString} {args envs : List CString}
    (hpath : 0 ∉ path) (hargs : ∀ s ∈ args, 0 ∉ s) (henvs : ∀ s ∈ envs, 0 ∉ s)
    (hargc : args.length < 2 ^ 16) (henvc : envs.length < 2 ^ 16) {header : List Byte}
    (hheader : header.length = SpawnMsg.argc)
    (hbytes : header ++ (leBytes 2 args.length ++ leBytes 2 envs.length ++
      Terminated.pack 0 (path :: (args ++ [] :: (envs ++ [[]])))) <+: guestBytes p m es) :
    msg.procExecCommon p m = .ok ⟨path, args, envs⟩ := by
  obtain ⟨rest, hbytes⟩ := hbytes
  have hfront : (header ++ (leBytes 2 args.length ++ leBytes 2 envs.length)).length =
      SpawnMsg.size := by
    rw [List.length_append, List.length_append, hheader, length_leBytes, length_leBytes]
    rfl
  have hsplit : guestBytes p m es = header ++ (leBytes 2 args.length ++ leBytes 2 envs.length) ++
      (path ++ 0 :: (Terminated.pack 0 args ++ 0 :: (Terminated.pack 0 envs ++ 0 :: rest))) := by
    rw [← hbytes]
    simp
  have hlen : SpawnMsg.size ≤ (guestBytes p m es).length := by
    rw [hsplit, List.length_append, hfront]
    exact Nat.le_add_right _ _
  have hread : msg.read p m 0 SpawnMsg.size =
      .ok (header ++ (leBytes 2 args.length ++ leBytes 2 envs.length)) := by
    rw [read_of_le hv hes hlen, hsplit, List.take_left' hfront]
  have hcount : leNat (leBytes 2 args.length) = args.length := by
    rw [leNat_leBytes]
    exact Nat.mod_eq_of_lt hargc
  have hcount' : leNat (leBytes 2 envs.length) = envs.length := by
    rw [leNat_leBytes]
    exact Nat.mod_eq_of_lt henvc
  have hat : (MsgStreamReader.make m msg SpawnMsg.size).At p m es SpawnMsg.size := by
    have hskip := Iterator.skipTo_spec (p := p) msg.send msg.sendParts SpawnMsg.size hes
    rw [length_guestBytes] at hlen
    rw [Nat.min_eq_left hlen] at hskip
    exact ⟨hskip, by simp [MsgStreamReader.make]⟩
  -- one string after the other, each from where the one before it ends
  have hdrop := hsplit ▸ List.drop_left' hfront
  obtain ⟨r₁, h₁, hat₁⟩ := readString_spec [] hv hes hpath hat hdrop
  have hdrop₁ := drop_terminated path hdrop
  obtain ⟨r₂, h₂, hat₂⟩ := readStrings_spec ([] ++ (path ++ [0])) hv hes hargs hat₁ hdrop₁
  have hdrop₂ := drop_front hdrop₁
  obtain ⟨r₃, h₃, hat₃⟩ := readString_spec ([] ++ (path ++ [0]) ++ Terminated.pack 0 args) hv hes
    List.not_mem_nil hat₂ hdrop₂
  have hdrop₃ := drop_terminated [] hdrop₂
  obtain ⟨r₄, h₄, hat₄⟩ := readStrings_spec ([] ++ (path ++ [0]) ++ Terminated.pack 0 args ++ ([] ++ [0]))
    hv hes henvs hat₃ hdrop₃
  have hdrop₄ := drop_front hdrop₃
  obtain ⟨r₅, h₅, -⟩ := readString_spec
    ([] ++ (path ++ [0]) ++ Terminated.pack 0 args ++ ([] ++ [0]) ++ Terminated.pack 0 envs) hv hes
    List.not_mem_nil hat₄ hdrop₄
  have hpathAt := Terminated.stringAt_append [] (Terminated.pack 0 args ++
    0 :: (Terminated.pack 0 envs ++ [0])) hpath
  have hargsAt := Terminated.map_stringAt_offsets (path ++ [0])
    (0 :: (Terminated.pack 0 envs ++ [0])) hargs
  have henvsAt := Terminated.map_stringAt_offsets (path ++ [0] ++ Terminated.pack 0 args ++ [0]) [0]
    henvs
  have hargcAt : ((header ++ (leBytes 2 args.length ++ leBytes 2 envs.length)).drop
      SpawnMsg.argc).take 2 = leBytes 2 args.length := by
    rw [List.drop_left' hheader, List.take_left' (length_leBytes 2 _)]
  have henvcAt : ((header ++ (leBytes 2 args.length ++ leBytes 2 envs.length)).drop
      SpawnMsg.envc).take 2 = leBytes 2 envs.length := by
    rw [← List.append_assoc, List.drop_left' (by
      rw [List.length_append, hheader, length_leBytes]; rfl)]
    exact List.take_of_length_le (Nat.le_of_eq (length_leBytes 2 _))
  unfold procExecCommon
  simp only [hread, hargcAt, henvcAt, hcount, hcount', h₁, h₂, h₃, h₄, h₅, bind, Except.bind]
  simp only [List.nil_append, List.append_assoc, List.length_nil, List.cons_append] at hpathAt hargsAt henvsAt ⊢
  rw [hpathAt, hargsAt, henvsAt]
  rfl

end Msg

/-- The spawn message in the startup data of a program, sent back as a message of any type and split
into entries in any way, is decoded into the path, the arguments and the environment it was made
from. -/
theorem spawn_round_trip {s s' : StartupSbrk} {host : Host} {path : CString} {args envs : List CString}
    {spawn stop : Nat} (hpath : 0 ∉ path) (hargs : ∀ a ∈ args, 0 ∉ a) (henvs : ∀ e ∈ envs, 0 ∉ e)
    (hargc : args.length < 65536) (henvc : envs.length < 65536)
    (hinv : Segment.RepInv s.mapped.seg)
    (hlayout : (layoutSpawn host path args envs).run s = .ok (spawn, stop) s')
    {p : Process} {m : Mem} {sendParts rcvParts : Nat} {send rcv : FarPointer} {bits : Bitness}
    {msg : Msg} (hmk : Msg.make p m sendParts send rcvParts rcv bits = .ok msg)
    (hv : ∀ e ∈ guestEntries p m send sendParts bits, e.Valid p) {type : Nat}
    (hsent : leBytes 2 type ++
        (s'.mapped.mem.read (s'.mapped.seg.location + spawn) (stop - spawn)).drop 2 <+:
      guestBytes p m (guestEntries p m send sendParts bits)) :
    msg.procExecCommon p m = .ok ⟨path, args, envs⟩ := by
  obtain ⟨header, hheader, hbytes⟩ := (layoutSpawn_leaves hinv).of_ok hlayout
  obtain ⟨rest, hrest⟩ := hsent
  have hes : msg.send.entries m msg.sendParts = guestEntries p m send sendParts bits :=
    (Msg.make_entries hmk).1
  have hlen : (leBytes 2 type ++ header.drop 2).length = SpawnMsg.argc := by
    rw [List.length_append, length_leBytes, List.length_drop, hheader]
    rfl
  refine Msg.procExecCommon_eq hv hes hpath hargs henvs hargc henvc hlen ⟨rest, ?_⟩
  rw [← hrest, hbytes, List.drop_append_of_le_length (by rw [hheader]; decide)]
  simp only [List.append_assoc]

/-- The startup data of `a` with an empty argument and an empty environment string, in the segment of
`Process.onePage`. -/
def startupOfA : StartupSbrk :=
  (layoutSpawn Host.roomy [0x61] [[0x61], []] [[]]).after
    (.make ⟨⟨0x1000, 0x1000, 0x1000, 0x1000, false, [true]⟩, fun _ => 0⟩ 0x200)

/-- Sent as an exec message, cut inside the header and inside the strings. -/
theorem spawn_round_trip_startupOfA :
    let m := startupOfA.mapped.mem.write 0x1200 (leBytes 2 4) |>.write 0x1100
      (leBytes 4 0x200 ++ leBytes 2 7 ++ leBytes 2 0 ++ leBytes 4 21 ++
        (leBytes 4 0x215 ++ leBytes 2 7 ++ leBytes 2 0 ++ leBytes 4 4) ++
        (leBytes 4 0x219 ++ leBytes 2 7 ++ leBytes 2 0 ++ leBytes 4 7))
    Msg.procExecCommon .onePage m ⟨0, .guest 0x1100, 3, .guest 0x1100⟩ =
      .ok ⟨[0x61], [[0x61], []], [[]]⟩ := by
  intro m
  have hrun : (layoutSpawn Host.roomy [0x61] [[0x61], []] [[]]).run
      (.make ⟨⟨0x1000, 0x1000, 0x1000, 0x1000, false, [true]⟩, fun _ => 0⟩ 0x200) =
        .ok (0x200, 0x220) startupOfA := EStateM.run_of_run' (by decide +kernel)
  have hmk : Msg.make .onePage m 3 ⟨7, 0x100⟩ 0 ⟨7, 0x100⟩ .b32 =
      .ok ⟨0, .guest 0x1100, 3, .guest 0x1100⟩ := by decide +kernel
  have hv : ∀ e ∈ guestEntries .onePage m ⟨7, 0x100⟩ 3 .b32, e.Valid .onePage := by decide +kernel
  have hinv : Segment.RepInv ⟨0x1000, 0x1000, 0x1000, 0x1000, false, [true]⟩ :=
    ⟨⟨by decide, by decide, by decide, by decide, by decide⟩, by decide⟩
  have hsent : leBytes 2 4 ++ (startupOfA.mapped.mem.read (startupOfA.mapped.seg.location + 0x200)
      (0x220 - 0x200)).drop 2 <+: guestBytes .onePage m (guestEntries .onePage m ⟨7, 0x100⟩ 3 .b32) := by
    decide +kernel
  exact spawn_round_trip (by decide) (by decide) (by decide) (by decide) (by decide) hinv hrun hmk hv
    hsent

end Qine

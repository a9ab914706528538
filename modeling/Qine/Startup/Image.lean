import Qine.Lib.Stack
import Qine.Loader.Stack
import Qine.Startup.Data

/-!
# What a 32-bit program finds at its start
-/

namespace Qine

/-- The registers before anything is put into them. -/
def Registers.blank : Registers := ⟨0, 0, 0, 0, 0, 0, 0, 0, 0, 0, 0, 0, 0, 0, 0, 0, 0, 0⟩

/-- A pointer into a segment that is there leads behind the beginning of the segment. -/
theorem Space.translateSegmented_eq {w : Space} {ptr : FarPointer} {sd : SegmentDescriptor} {size : Nat}
    (hsd : w.descriptorBySelector ptr.segment = some sd)
    (hbounds : (w.segments sd.seg).checkBounds ptr.offset.toNat size = true) :
    w.translateSegmented ptr size = .ok ((w.segments sd.seg).location + ptr.offset.toNat) := by
  unfold translateSegmented
  rw [hsd]
  dsimp only
  rw [if_pos hbounds, Segment.pointer]

/-! ## Pushing words -/

namespace Launching

variable {s : Launching} {loc low top : Nat}

/-- The stack can be written to between `low` and `top` of the segment at `loc`. -/
def HasStack (loc low top : Nat) (s : Launching) : Prop :=
  ∀ esp : BitVec 32, low ≤ esp.toNat → esp.toNat + 4 ≤ top →
    s.starting.space.translateSegmented ⟨s.regs.ss, esp⟩ 4 = .ok (loc + esp.toNat)

/-- The stack with words pushed to it. -/
def pushed (s : Launching) (loc : Nat) (ws : List (BitVec 32)) : Launching :=
  { s with
    regs := s.regs.withEsp (BitVec.ofNat 32 (s.regs.esp.toNat - 4 * ws.length))
    starting.space.mem := s.starting.space.mem.pushWords 4 (loc + s.regs.esp.toNat) ws }

theorem HasStack.pushed (h : s.HasStack loc low top) (ws : List (BitVec 32)) :
    (s.pushed loc ws).HasStack loc low top := h

theorem run_pushStack {v : BitVec 32} (h : s.HasStack loc low top) (hlow : low + 4 ≤ s.regs.esp.toNat)
    (htop : s.regs.esp.toNat ≤ top) : (pushStack v).run s = .ok ⟨⟩ (s.pushed loc [v]) := by
  have hesp : (s.regs.esp - 4).toNat = s.regs.esp.toNat - 4 := BitVec.toNat_sub_of_le (by
    rw [BitVec.le_def]
    show 4 ≤ _
    omega)
  have htranslate := h (s.regs.esp - 4) (by omega) (by omega)
  rw [hesp] at htranslate
  unfold pushStack setRegs
  rw [EStateM.run_modify_bind, EStateM.run_get_bind]
  refine (EStateM.run_ofExcept_bind htranslate).trans ?_
  have haddr : loc + s.regs.esp.toNat - 4 = loc + (s.regs.esp.toNat - 4) := by omega
  have hword : BitVec.ofNat 32 (s.regs.esp.toNat - 4) = s.regs.esp - 4 := by
    rw [← hesp, BitVec.ofNat_toNat, BitVec.setWidth_eq]
  unfold Launching.pushed stored
  rw [List.length_singleton, Nat.mul_one, hword, Memory.pushWords, Memory.pushWords, haddr]
  rfl

theorem toNat_esp_pushed {ws : List (BitVec 32)} :
    (s.pushed loc ws).regs.esp.toNat = s.regs.esp.toNat - 4 * ws.length := by
  have hlt := s.regs.esp.isLt
  show (BitVec.ofNat 32 (s.regs.esp.toNat - 4 * ws.length)).toNat = _
  rw [BitVec.toNat_ofNat, Nat.mod_eq_of_lt (by omega)]

theorem pushed_pushed {ws ws' : List (BitVec 32)} (hlen : 4 * ws.length ≤ s.regs.esp.toNat) :
    (s.pushed loc ws).pushed loc ws' = s.pushed loc (ws ++ ws') := by
  have hesp := @toNat_esp_pushed s loc ws
  have haddr : loc + (s.regs.esp.toNat - 4 * ws.length) = loc + s.regs.esp.toNat - 4 * ws.length := by
    omega
  have hdown : s.regs.esp.toNat - 4 * ws.length - 4 * ws'.length =
      s.regs.esp.toNat - 4 * (ws ++ ws').length := by
    rw [List.length_append]
    omega
  unfold pushed at hesp ⊢
  rw [hesp, hdown, Memory.pushWords_append, haddr]
  rfl

/-- A list of pushes stores the words below each other. -/
theorem run_pushAll (ws : List (BitVec 32)) (h : s.HasStack loc low top)
    (hlow : low + 4 * ws.length ≤ s.regs.esp.toNat) (htop : s.regs.esp.toNat ≤ top) :
    (forM ws pushStack).run s = .ok ⟨⟩ (s.pushed loc ws) := by
  induction ws generalizing s with
  | nil =>
      unfold pushed
      rw [List.length_nil, Nat.mul_zero, Nat.sub_zero, BitVec.ofNat_toNat, BitVec.setWidth_eq]
      rfl
  | cons v ws ih =>
      rw [List.length_cons] at hlow
      have hesp : (s.pushed loc [v]).regs.esp.toNat = s.regs.esp.toNat - 4 := toNat_esp_pushed
      rw [List.forM_cons, EStateM.run_bind_of_ok (run_pushStack h (by omega) htop),
        ih (h.pushed [v]) (by omega) (by omega)]
      have hone : 4 * ([v] : List (BitVec 32)).length ≤ s.regs.esp.toNat := by
        rw [List.length_singleton]
        omega
      rw [pushed_pushed hone, List.singleton_append]

/-- The registers point to where the program starts. -/
def entering (s : Launching) (cs : BitVec 16) (eip : BitVec 32) : Launching :=
  { s with regs := { s.regs with cs := cs, eip := eip } }

/-- Memory outside the words that were pushed is as it was. -/
theorem mem_pushed {ws : List (BitVec 32)} {x : Nat} (hlen : 4 * ws.length ≤ s.regs.esp.toNat)
    (hx : loc + s.regs.esp.toNat ≤ x) :
    (s.pushed loc ws).starting.space.mem x = s.starting.space.mem x :=
  Memory.pushWords_of_not_mem (by omega) (.inr hx)

end Launching

namespace Launch

open Launching

variable {l : Launch}

/-- What is on the stack of a 32-bit program, from the count of the arguments upwards. -/
def argumentWords (l : Launch) (argv envp : List (BitVec 32)) : List (BitVec 32) :=
  BitVec.ofNat 32 argv.length :: argv ++ 0 :: envp ++
    [0, l.pid.signExtend 32, l.parentPid.signExtend 32, nid, 0]

theorem pushArguments_eq (strings : Strings) : l.pushArguments strings =
    forM (l.argumentWords (strings.argvOffsets.map (BitVec.ofNat 32))
      (strings.envpOffsets.map (BitVec.ofNat 32))).reverse pushStack := by
  have hforM : ∀ ptrs : List Nat, (forM ptrs.reverse fun ptr => pushStack (BitVec.ofNat 32 ptr)) =
      forM (ptrs.map (BitVec.ofNat 32)).reverse pushStack := by
    intro ptrs
    rw [← List.map_reverse, List.forM_map]
  unfold pushArguments argumentWords pushPointerBlock
  simp only [hforM, List.reverse_append, List.reverse_cons, List.reverse_nil, List.nil_append,
    List.append_assoc, List.cons_append, List.forM_append, List.forM_cons, List.forM_nil, List.length_map,
    bind_assoc, bind_pure_unit]

/-- What is pushed after that, if a system library is to be entered first. -/
def entryWords (l : Launch) : List (BitVec 32) :=
  if l.slibEntry = 0 then [] else [BitVec.ofNat 32 l.exec.entry, l.exec.cs.setWidth 32]

/-- What a 32-bit program finds on its stack, from the stack pointer upwards. -/
def words (l : Launch) (argv envp : List (BitVec 32)) : List (BitVec 32) :=
  l.entryWords ++ l.argumentWords argv envp

theorem run_pushWords {s : Launching} {loc low top : Nat} {strings : Strings}
    {argv envp : List (BitVec 32)} (h : s.HasStack loc low top) (hbits : l.exec.bits = .b32)
    (hargv : strings.argvOffsets.map (BitVec.ofNat 32) = argv)
    (henvp : strings.envpOffsets.map (BitVec.ofNat 32) = envp)
    (hlow : low + 4 * (l.words argv envp).length ≤ s.regs.esp.toNat) (htop : s.regs.esp.toNat ≤ top) :
    ∃ cs eip, (l.pushArguments strings >>= fun _ => l.setEntry).run s =
      .ok ⟨⟩ ((s.pushed loc (l.words argv envp).reverse).entering cs eip) := by
  have hlen : (l.words argv envp).length = l.entryWords.length + (l.argumentWords argv envp).length :=
    List.length_append
  rw [hlen] at hlow
  rw [pushArguments_eq, hargv, henvp]
  have hrun := run_pushAll (l.argumentWords argv envp).reverse h
    (by rw [List.length_reverse]; omega) htop
  rw [EStateM.run_bind_of_ok hrun, words, List.reverse_append]
  unfold setEntry
  rw [hbits]
  by_cases hslib : l.slibEntry = 0
  · refine ⟨l.exec.cs, BitVec.ofNat 32 l.exec.entry, ?_⟩
    have hnone : l.entryWords = [] := if_pos hslib
    rw [if_pos (.inl hslib), hnone, List.reverse_nil, List.append_nil]
    rfl
  · refine ⟨l.slibCs, l.slibEntry, ?_⟩
    have htwo : l.entryWords = [BitVec.ofNat 32 l.exec.entry, l.exec.cs.setWidth 32] := if_neg hslib
    rw [htwo] at hlow
    simp only [List.length_cons, List.length_nil] at hlow
    have hnot : ¬ (l.slibEntry = 0 ∨ Bitness.b32 = Bitness.b16) := by
      rintro (h | h)
      · exact hslib h
      · cases h
    have hforM : (pushStack (l.exec.cs.setWidth 32) >>= fun _ => pushStack (BitVec.ofNat 32 l.exec.entry)) =
        forM [l.exec.cs.setWidth 32, BitVec.ofNat 32 l.exec.entry] pushStack := by
      simp [List.forM_cons, List.forM_nil]
    have hstack : ((s.pushed loc (l.argumentWords argv envp).reverse).entering l.slibCs
        l.slibEntry).HasStack loc low top := h
    have hargs : 4 * (l.argumentWords argv envp).reverse.length ≤ s.regs.esp.toNat := by
      rw [List.length_reverse]
      omega
    have hesp : ((s.pushed loc (l.argumentWords argv envp).reverse).entering l.slibCs
        l.slibEntry).regs.esp.toNat = s.regs.esp.toNat - 4 * (l.argumentWords argv envp).length := by
      rw [← List.length_reverse]
      exact @toNat_esp_pushed s loc _
    rw [if_neg hnot, htwo, hforM, ← pushed_pushed hargs]
    unfold setRegs
    rw [EStateM.run_modify_bind]
    refine (run_pushAll _ hstack ?_ ?_).trans rfl
    · rw [hesp]
      simp only [List.length_cons, List.length_nil]
      omega
    · rw [hesp]
      omega

end Launch

/-! ## The image -/

/-- A pointer leads to a terminated copy of the string. -/
def Space.HasStringAt (w : Space) (ptr : FarPointer) (str : CString) : Prop :=
  ∃ a, w.translateSegmented ptr (str.length + 1) = .ok a ∧ w.mem.read a (str.length + 1) = str ++ [0]

namespace Launch

open Launching StartupSbrk

/-- The arguments of a program; a script is one of its interpreter's. -/
def argumentList (l : Launch) : List CString :=
  match l.interpreter with
  | none => l.argv
  | some i => i.interpreter :: (if i.interpreterArgs.isEmpty then [] else [i.interpreterArgs]) ++
      i.originalExecutable :: l.argv.drop 1

/-- What is executed, be it a script. -/
def executable (l : Launch) : CString :=
  match l.interpreter with
  | none => l.argv.headD []
  | some i => i.originalExecutable

/-- There is an `argv[0]`, or it is not asked for. -/
def Named (l : Launch) : Prop := l.argv ≠ [] ∨ l.interpreter.isSome

/-- All entries of the environment but those with the two keys, and then one for each of them. -/
def IsEnvironment (environ envs : List CString) : Prop :=
  ∃ pfx cwd, envs = environ.filter (fun e => ¬ CString.cwdKey <+: e ∧ ¬ CString.pfxKey <+: e) ++ [pfx, cwd] ∧
    CString.pfxKey <+: pfx ∧ CString.cwdKey <+: cwd

/-- Where the startup data ends. -/
def dataEnd (l : Launch) : Nat :=
  spawnEnd l.executable l.argumentList l.environment (MemOps.alignUp l.exec.heapStart 16 + Magic.size)

/-- A 32-bit program has been loaded: its data segment is also that of its stack, which lies in front of the
heap, and behind the hole there may be at the beginning of the segment. -/
structure Loaded (l : Launch) (w : Space) (dataSd : SegmentDescriptor) : Prop where
  inv : w.Inv
  bits : l.exec.bits = .b32
  entry : l.exec.entry ≠ 0
  cs : l.exec.cs ≠ 0
  ds : l.exec.ds ≠ 0
  stack_descriptor : w.descriptorBySelector l.exec.ss = some dataSd
  data_descriptor : ∃ sd, w.descriptorBySelector l.exec.ds = some sd ∧ sd.seg = dataSd.seg
  stack_le : l.exec.stackLow + l.exec.stackSize ≤ l.exec.heapStart
  mapped : ∃ shape : Shape, shape.hole ≤ l.exec.stackLow ∧ shape.Of (w.segments dataSd.seg)

/-- What a 32-bit program finds at its start, with the pointers to its arguments and its environment. -/
structure Image (l : Launch) (argv envp : List (BitVec 32)) (s : Entering) : Prop where
  stack : ∃ a, s.space.translateSegmented ⟨s.regs.ss, s.regs.esp⟩ (4 * (l.words argv envp).length) = .ok a ∧
    s.space.mem.loadWords 4 a (l.words argv envp).length = l.words argv envp
  top : s.regs.esp.toNat + 4 * (l.words argv envp).length = l.exec.stackLow + l.exec.stackSize
  args : List.Forall₂ (fun ptr str => s.space.HasStringAt ⟨s.regs.ds, ptr⟩ str) argv l.argumentList
  envs : ∃ envs, IsEnvironment l.environ envs ∧
    List.Forall₂ (fun ptr str => s.space.HasStringAt ⟨s.regs.ds, ptr⟩ str) envp envs
  heap : ∃ sd, s.space.descriptorBySelector s.regs.ss = some sd ∧
    s.regs.ebx.toNat ≤ (s.space.segments sd.seg).limitSize ∧
    s.regs.ebx.toNat + s.regs.ecx.toNat = (s.space.segments sd.seg).limitSize

variable {l : Launch}

theorem path_of_named (h : l.Named) : l.path = .ok l.executable := by
  unfold path executable argv0
  cases hinterpreter : l.interpreter with
  | none =>
      obtain ⟨a, argv, hargv⟩ := List.exists_cons_of_ne_nil (h.resolve_right (by simp [hinterpreter]))
      simp [hargv]
  | some i => rfl

theorem arguments_of_named (h : l.Named) : l.arguments = .ok l.argumentList := by
  unfold arguments firstArguments argumentList argv0
  cases hinterpreter : l.interpreter with
  | none =>
      obtain ⟨a, argv, hargv⟩ := List.exists_cons_of_ne_nil (h.resolve_right (by simp [hinterpreter]))
      simp [hargv]
  | some i => simp

theorem lastEntry_startsWith (key : CString) (environ : List CString) :
    lastEntry key environ = [] ∨ key <+: lastEntry key environ := by
  have hfold : ∀ found, found = [] ∨ key <+: found →
      environ.foldl (fun found e => if CString.startsWith e key then e else found) found = [] ∨
        key <+: environ.foldl (fun found e => if CString.startsWith e key then e else found) found := by
    induction environ with
    | nil => exact fun _ h => h
    | cons e environ ih =>
        intro found h
        rw [List.foldl_cons]
        refine ih _ ?_
        split
        · next hkey => exact .inr (CString.startsWith_iff.mp hkey)
        · exact h
  exact hfold [] (.inl rfl)

theorem isEnvironment_environment (l : Launch) : IsEnvironment l.environ l.environment := by
  refine ⟨l.envPfx, l.envCwd, ?_, ?_, ?_⟩
  · unfold environment others
    congr 2
    funext e
    simp [← CString.startsWith_iff]
  · unfold envPfx
    split
    · decide
    · next h => exact (lastEntry_startsWith _ _).resolve_left (by simpa using h)
  · unfold envCwd
    split
    · exact List.prefix_append _ _
    · next h => exact (lastEntry_startsWith _ _).resolve_left (by simpa using h)

theorem length_words {argv envp : List (BitVec 32)} :
    (l.words argv envp).length = l.entryWords.length + argv.length + envp.length + 7 := by
  simp only [words, argumentWords, List.length_append, List.length_cons, List.length_nil]
  omega

/-- How much of the stack is taken. -/
def stackUse (l : Launch) : Nat :=
  4 * (l.entryWords.length + l.argumentList.length + l.environment.length + 7)

/-- The startup data has been laid out, and both stack and data segment are there to be written to. -/
structure Staged (l : Launch) (dataSd : SegmentDescriptor) (loc : Nat) (s : Launching) : Prop where
  ss : s.regs.ss = l.exec.ss
  ds : s.regs.ds = l.exec.ds
  stack_descriptor : s.starting.space.descriptorBySelector l.exec.ss = some dataSd
  data_descriptor : ∃ sd, s.starting.space.descriptorBySelector l.exec.ds = some sd ∧ sd.seg = dataSd.seg
  data : s.starting.data = dataSd.seg
  location : (s.starting.space.segments dataSd.seg).location = loc
  bounds : ∀ o size, l.exec.stackLow ≤ o → 0 < size → o + size ≤ s.starting.offset →
    (s.starting.space.segments dataSd.seg).checkBounds o size = true
  offset_le : s.starting.offset ≤ (s.starting.space.segments dataSd.seg).limitSize
  limit_lt : (s.starting.space.segments dataSd.seg).limitSize < 2 ^ 32

namespace Staged

variable {s : Launching} {dataSd : SegmentDescriptor} {loc : Nat}

theorem pushed (h : l.Staged dataSd loc s) (ws : List (BitVec 32)) : l.Staged dataSd loc (s.pushed loc ws) :=
  ⟨h.ss, h.ds, h.stack_descriptor, h.data_descriptor, h.data, h.location, h.bounds, h.offset_le, h.limit_lt⟩

theorem translate {ptr : BitVec 32} {size : Nat} (h : l.Staged dataSd loc s)
    (hlow : l.exec.stackLow ≤ ptr.toNat) (hpos : 0 < size) (hend : ptr.toNat + size ≤ s.starting.offset) :
    s.starting.space.translateSegmented ⟨s.regs.ss, ptr⟩ size = .ok (loc + ptr.toNat) ∧
      s.starting.space.translateSegmented ⟨s.regs.ds, ptr⟩ size = .ok (loc + ptr.toNat) := by
  obtain ⟨sd, hsd, hseg⟩ := h.data_descriptor
  have hbounds := h.bounds _ _ hlow hpos hend
  have hlocation := h.location
  rw [h.ss, h.ds, ← hlocation]
  refine ⟨Space.translateSegmented_eq h.stack_descriptor hbounds, ?_⟩
  rw [← hseg] at hbounds ⊢
  exact Space.translateSegmented_eq hsd hbounds

theorem hasStack (h : l.Staged dataSd loc s) {top : Nat} (htop : top ≤ s.starting.offset) :
    s.HasStack loc l.exec.stackLow top :=
  fun _ hlow hend => (h.translate hlow (by decide) (Nat.le_trans hend htop)).1

/-- Pointers to strings that were laid out above the stack still lead there after the pushes. -/
theorem forall₂_hasStringAt {ptrs : List Nat} {strs : List CString} {ws : List (BitVec 32)} {low : Nat}
    (h : l.Staged dataSd loc s) (hlow : l.exec.stackLow ≤ low) (hesp : s.regs.esp.toNat ≤ low)
    (hlen : 4 * ws.length ≤ s.regs.esp.toNat)
    (hall : List.Forall₂ (fun ptr str => (low ≤ ptr ∧ ptr + str.length < s.starting.offset) ∧
      HasString s.starting.space.mem loc ptr str) ptrs strs) :
    List.Forall₂ (fun ptr str => (s.pushed loc ws).starting.space.HasStringAt ⟨s.regs.ds, ptr⟩ str)
      (ptrs.map (BitVec.ofNat 32)) strs := by
  rw [List.forall₂_map_left_iff]
  refine hall.imp ?_
  rintro ptr str ⟨⟨hptr, hend⟩, hread⟩
  have hoffset := h.offset_le
  have hlimit := h.limit_lt
  have htoNat : (BitVec.ofNat 32 ptr).toNat = ptr := by
    rw [BitVec.toNat_ofNat, Nat.mod_eq_of_lt (by omega)]
  refine ⟨loc + ptr, ?_, ?_⟩
  · have htranslate := (@translate l (s.pushed loc ws) dataSd loc (BitVec.ofNat 32 ptr) (str.length + 1)
      (h.pushed ws) (by omega) (by omega) (by rw [htoNat]; exact hend)).2
    rw [htoNat] at htranslate
    exact htranslate
  · refine Eq.trans ?_ hread
    refine Memory.read_congr fun x hx _ => ?_
    exact mem_pushed hlen (by omega)

/-- The words that were pushed are read back in the other order. -/
theorem loadWords_pushed {ws : List (BitVec 32)} (hlen : 4 * ws.length ≤ s.regs.esp.toNat) :
    (s.pushed loc ws.reverse).starting.space.mem.loadWords 4
      (loc + (s.regs.esp.toNat - 4 * ws.length)) ws.length = ws := by
  have hload := @Memory.loadWords_pushWords s.starting.space.mem 4 (loc + s.regs.esp.toNat) ws.reverse
    (by rw [List.length_reverse]; omega)
  rw [List.length_reverse, List.reverse_reverse] at hload
  have haddr : loc + (s.regs.esp.toNat - 4 * ws.length) = loc + s.regs.esp.toNat - 4 * ws.length := by
    omega
  rw [haddr]
  exact hload

/-- With all words pushed, and the break set, the image is complete. -/
theorem image (h : l.Staged dataSd loc s) {argv envp : List Nat} {cs : BitVec 16} {eip : BitVec 32}
    (hesp : s.regs.esp.toNat = l.exec.stackLow + l.exec.stackSize)
    (hstack : l.exec.stackLow + l.exec.stackSize ≤ l.exec.heapStart)
    (hheap : l.exec.heapStart ≤ s.starting.offset) (huse : l.stackUse ≤ l.exec.stackSize)
    (hargv : List.Forall₂ (fun ptr str => (l.exec.heapStart ≤ ptr ∧ ptr + str.length < s.starting.offset) ∧
      HasString s.starting.space.mem loc ptr str) argv l.argumentList)
    (henvp : List.Forall₂ (fun ptr str => (l.exec.heapStart ≤ ptr ∧ ptr + str.length < s.starting.offset) ∧
      HasString s.starting.space.mem loc ptr str) envp l.environment) :
    (onStarting (Starting.inSpace (Space.updateDescriptors dataSd)) >>= fun _ => setBreak).Leaves
      ((s.pushed loc
        (l.words (argv.map (BitVec.ofNat 32)) (envp.map (BitVec.ofNat 32))).reverse).entering cs eip)
      (fun _ t => l.Image (argv.map (BitVec.ofNat 32)) (envp.map (BitVec.ofNat 32))
        ⟨t.starting.space, t.regs⟩) (fun e _ => e = .badAlloc) := by
  have hoffset := h.offset_le
  have hlimit := h.limit_lt
  have hlength : (l.words (argv.map (BitVec.ofNat 32)) (envp.map (BitVec.ofNat 32))).length =
      l.entryWords.length + l.argumentList.length + l.environment.length + 7 := by
    rw [length_words, List.length_map, List.length_map, hargv.length_eq, henvp.length_eq]
  generalize hwords : l.words (argv.map (BitVec.ofNat 32)) (envp.map (BitVec.ofNat 32)) = words at hlength ⊢
  unfold stackUse at huse
  rw [← hlength] at huse
  have hpos : 0 < words.length := by omega
  have hdown := @toNat_esp_pushed s loc words.reverse
  rw [List.length_reverse] at hdown
  refine EStateM.leaves_bind_of_ok rfl ?_
  unfold setBreak
  apply EStateM.leaves_get_bind
  refine EStateM.leaves_modify ?_
  have htoNat : (BitVec.ofNat 32 s.starting.offset).toNat = s.starting.offset := by
    rw [BitVec.toNat_ofNat, Nat.mod_eq_of_lt (by omega)]
  have htranslate := (@translate l (s.pushed loc words.reverse) dataSd loc
    (s.pushed loc words.reverse).regs.esp (4 * words.length) (h.pushed words.reverse)
    (by omega) (by omega) (Nat.le_trans (by omega) hheap)).1
  -- what comes after the pushes leaves the stack pointer and the memory alone
  refine ⟨⟨loc + (s.pushed loc words.reverse).regs.esp.toNat, ?_, ?_⟩, ?_, ?_,
    ⟨l.environment, isEnvironment_environment l, ?_⟩, dataSd, ?_, ?_, ?_⟩
  · rw [hwords]
    exact htranslate
  · rw [hwords, hdown]
    exact @loadWords_pushed s loc words (by omega)
  · rw [hwords]
    show (s.pushed loc words.reverse).regs.esp.toNat + _ = _
    omega
  · exact h.forall₂_hasStringAt (by omega) (by omega) (by rw [List.length_reverse]; omega) hargv
  · exact h.forall₂_hasStringAt (by omega) (by omega) (by rw [List.length_reverse]; omega) henvp
  · rw [← h.stack_descriptor, ← h.ss]
    rfl
  · show (BitVec.ofNat 32 s.starting.offset).toNat ≤ _
    rw [htoNat]
    exact hoffset
  · show (BitVec.ofNat 32 s.starting.offset).toNat +
      (BitVec.ofNat 32 (s.starting.space.segments s.starting.data).limitSize -
        BitVec.ofNat 32 s.starting.offset).toNat = (s.starting.space.segments dataSd.seg).limitSize
    have hle : BitVec.ofNat 32 s.starting.offset ≤
        BitVec.ofNat 32 (s.starting.space.segments dataSd.seg).limitSize := by
      rw [BitVec.le_def, htoNat, BitVec.toNat_ofNat, Nat.mod_eq_of_lt hlimit]
      exact hoffset
    rw [h.data, BitVec.toNat_sub_of_le hle, htoNat, BitVec.toNat_ofNat, Nat.mod_eq_of_lt hlimit]
    omega

/-- What is left to do when the strings are laid out. -/
theorem enter_leaves (h : l.Staged dataSd loc s) {strings : Strings} (hbits : l.exec.bits = .b32)
    (hesp : s.regs.esp.toNat = l.exec.stackLow + l.exec.stackSize)
    (hstack : l.exec.stackLow + l.exec.stackSize ≤ l.exec.heapStart)
    (hheap : l.exec.heapStart ≤ s.starting.offset) (huse : l.stackUse ≤ l.exec.stackSize)
    (hargv : List.Forall₂ (fun ptr str => (l.exec.heapStart ≤ ptr ∧ ptr + str.length < s.starting.offset) ∧
      HasString s.starting.space.mem loc ptr str) strings.argvOffsets l.argumentList)
    (henvp : List.Forall₂ (fun ptr str => (l.exec.heapStart ≤ ptr ∧ ptr + str.length < s.starting.offset) ∧
      HasString s.starting.space.mem loc ptr str) strings.envpOffsets l.environment) :
    (do l.pushArguments strings
        l.setEntry
        onStarting (Starting.inSpace (Space.updateDescriptors dataSd))
        setBreak : LaunchM Unit).Leaves s
      (fun _ t => ∃ argv envp, l.Image argv envp ⟨t.starting.space, t.regs⟩)
      (fun e _ => e = .badAlloc) := by
  have hwords : 4 * (l.words (strings.argvOffsets.map (BitVec.ofNat 32))
      (strings.envpOffsets.map (BitVec.ofNat 32))).length = l.stackUse := by
    rw [length_words, List.length_map, List.length_map, hargv.length_eq, henvp.length_eq]
    rfl
  obtain ⟨cs, eip, hrun⟩ := run_pushWords (h.hasStack (Nat.le_trans hstack hheap)) hbits rfl rfl
    (by rw [hwords, hesp]; omega) (Nat.le_of_eq hesp)
  rw [← bind_assoc]
  refine EStateM.leaves_bind_of_ok hrun ?_
  refine (h.image hesp hstack hheap huse hargv henvp).mono ?_ (fun _ _ he => he)
  exact fun _ _ himage => ⟨_, _, himage⟩

end Staged

section

open StartupInput

variable {w : Space} {dataSd : SegmentDescriptor} {s : Launching} {loc hole : Nat} {host : Host}
  {regs : Registers}

theorem Loaded.staged (h : l.Loaded w dataSd) {offset : Nat}
    (hready : Ready w dataSd loc hole l.exec.heapStart offset s.starting) (hhole : hole ≤ l.exec.stackLow)
    (hss : s.regs.ss = l.exec.ss) (hds : s.regs.ds = l.exec.ds) : l.Staged dataSd loc s := by
  obtain ⟨sd, hsd, hseg⟩ := h.data_descriptor
  have hgrowing := hready.growing
  have hfits := hgrowing.fits
  have hlimit := hgrowing.limit_lt
  have hlocation := hgrowing.location
  have hsame : s.starting.sbrk.mapped.seg = s.starting.space.segments dataSd.seg := by
    rw [← hready.data]
    rfl
  have hoffset : s.starting.offset = offset := hgrowing.offset_eq
  rw [hsame] at hfits hlimit hlocation
  refine ⟨hss, hds, hready.kept _ _ h.stack_descriptor, ⟨sd, hready.kept _ _ hsd, hseg⟩, hready.data,
    hlocation, ?_, hoffset ▸ hfits, by omega⟩
  intro o size hlow hpos hend
  rw [← hsame] at hfits ⊢
  exact hgrowing.checkBounds (by omega) (by omega) (by omega)

/-- A step that leaves the registers alone. -/
theorem onStarting_leaves {α : Type} {x : StartM α} {Q : α → Starting → Prop} {E : HostError → Prop}
    (hx : x.Leaves s.starting Q (fun e _ => E e)) :
    (onStarting x).Leaves s (fun a s' => Q a s'.starting ∧ s'.regs = s.regs) (fun e _ => E e) :=
  EStateM.leaves_zoom (hx.mono (fun _ _ ht => ⟨ht, rfl⟩) (fun _ _ he => he))

theorem setupData_leaves (h : l.Loaded w dataSd) (hnamed : l.Named)
    (huse : l.stackUse ≤ l.exec.stackSize) (hroom : l.dataEnd ≤ (w.segments dataSd.seg).reserved) :
    (l.setupData host dataSd).Leaves
      ⟨⟨w, dataSd.seg, l.exec.heapStart, 2 ^ 32 - 1⟩, l.initialRegs regs⟩
      (fun _ t => ∃ argv envp, l.Image argv envp ⟨t.starting.space, t.regs⟩)
      (fun e _ => e = .badAlloc) := by
  obtain ⟨-, -, hlt⟩ := Space.descriptorBySelector_eq_some h.inv h.stack_descriptor
  obtain ⟨shape, hhole, hshape⟩ := h.mapped
  have hstack := h.stack_le
  have hreserved := (h.inv.seg dataSd.seg).low
  have hend := (@bounded_layoutSpawn host l.executable l.argumentList l.environment).le
    (MemOps.alignUp l.exec.heapStart 16 + Magic.size)
  have hheap := le_alignUp l.exec.heapStart
  unfold dataEnd at hroom
  generalize hmagic : MemOps.alignUp l.exec.heapStart 16 + Magic.size = magic at hroom hend
  generalize hlast : spawnEnd l.executable l.argumentList l.environment magic = last at hroom hend
  have hkept : Kept w dataSd ⟨w, dataSd.seg, l.exec.heapStart, 2 ^ 32 - 1⟩ :=
    ⟨h.inv, rfl, hlt, fun _ _ hsd => hsd⟩
  have hbegun : Begun (w.segments dataSd.seg).location shape.hole l.exec.heapStart l.exec.heapStart
      (Starting.sbrk ⟨w, dataSd.seg, l.exec.heapStart, 2 ^ 32 - 1⟩) :=
    ⟨by rwa [← shapeOf_eq hshape] at hshape, rfl, by omega, Nat.le_refl _, rfl⟩
  unfold setupData
  rw [h.bits]
  dsimp only
  refine (onStarting_leaves (ready_setupMagic hkept hbegun (by omega))).bind ?_
  rintro _ s₁ ⟨h₁, hregs₁⟩
  rw [hmagic] at h₁
  refine (onStarting_leaves (ready_inSpace h₁ (createTimeSegment_throws h₁.inv))).bind ?_
  rintro _ s₂ ⟨⟨h₂, -⟩, hregs₂⟩
  have hnames := path_of_named hnamed
  have hargs := arguments_of_named hnamed
  refine (onStarting_leaves (ready_onSbrk h₂.toKept (bounded_layoutStrings hnames hargs)
    (layoutStrings_leaves h₂.growing hnames hargs (by omega)))).bind ?_
  rintro strings s₃ ⟨⟨h₃, hargv, henvp⟩, hregs₃⟩
  rw [hlast] at h₃ hargv henvp
  have hregs : s₃.regs = l.initialRegs regs := hregs₃.trans (hregs₂.trans hregs₁)
  unfold setRegs
  apply EStateM.leaves_modify_bind
  rw [if_pos rfl]
  generalize hs : ({ s₃ with regs.edi := BitVec.ofNat 32 strings.spawn } : Launching) = s₄
  have hstarting : s₄.starting = s₃.starting := by rw [← hs]
  have hregs₄ : s₄.regs = { l.initialRegs regs with edi := BitVec.ofNat 32 strings.spawn } := by
    rw [← hs, ← hregs]
  rw [← hstarting] at h₃ hargv henvp
  have hoffset : s₄.starting.offset = last := h₃.growing.offset_eq
  have hstaged : l.Staged dataSd (w.segments dataSd.seg).location s₄ :=
    h.staged h₃ hhole (by rw [hregs₄]; rfl) (by rw [hregs₄]; rfl)
  have hesp : s₄.regs.esp.toNat = l.exec.stackLow + l.exec.stackSize := by
    rw [hregs₄]
    show (BitVec.ofNat 32 _).toNat = _
    rw [BitVec.toNat_ofNat, Nat.mod_eq_of_lt (by omega)]
  rw [← hoffset] at hargv henvp
  exact hstaged.enter_leaves h.bits hesp hstack (by omega) huse hargv henvp

/-- For a loaded program, all that is left to do is `setup_data`. -/
theorem Loaded.leaves {Q : Entering → Prop} {E : HostError → Prop} (h : l.Loaded w dataSd)
    (hdata : (l.setupData host dataSd).Leaves
      ⟨⟨w, dataSd.seg, l.exec.heapStart, 2 ^ 32 - 1⟩, l.initialRegs regs⟩
      (fun _ t => Q ⟨t.starting.space, t.regs⟩) (fun e _ => E e)) :
    (l.setupStartupContext host).Leaves ⟨w, regs⟩ (fun _ s => Q s) (fun e _ => E e) := by
  have hcomplete : ¬ (l.exec.entry = 0 ∨ l.exec.cs = 0 ∨ l.exec.ds = 0) := by
    rintro (hentry | hcs | hds)
    · exact h.entry hentry
    · exact h.cs hcs
    · exact h.ds hds
  unfold setupStartupContext
  rw [if_neg hcomplete]
  apply EStateM.leaves_modify_bind
  apply EStateM.leaves_get_bind
  dsimp only
  rw [h.stack_descriptor]
  exact EStateM.leaves_zoom hdata

end

end Launch

end Qine

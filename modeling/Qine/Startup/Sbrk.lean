import Qine.Space.Translate
import Qine.Startup.Strings

/-!
# Allocating startup data

`StartupSbrk` hands out the bytes behind the beginning of the heap and grows the segment only by what is
missing, in `alloc` and in `align`. `kept_of_runs` is what all of the startup data rests on: whatever is
allocated lies inside the segment from then on, behind what was allocated before, and a string stays as it
was pushed.
-/

namespace Qine

namespace StartupSbrk

/-! ## Calls -/

/-- A call of `StartupSbrk`. -/
inductive Call where
  | alloc (size : Nat)
  | align
  | pushString (str : CString)
  deriving DecidableEq, Repr

namespace Call

/-- The call itself. -/
def perform (host : Host) : Call → SbrkM Unit
  | alloc size => StartupSbrk.alloc host size
  | align => StartupSbrk.align host
  | pushString str => StartupSbrk.pushString host str

/-- Where a call leaves an offset that is not limited to 32 bits. -/
def advance (offset : Nat) : Call → Nat
  | alloc size => offset + size
  | align => MemOps.alignUp offset 16
  | pushString str => offset + (str.length + 1)

/-- The size of what a call allocates. -/
def size : Call → Option Nat
  | alloc size => some size
  | align => none
  | pushString str => some (str.length + 1)

theorem le_advance (offset : Nat) (call : Call) : offset ≤ call.advance offset := by
  cases call with
  | alloc size => exact Nat.le_add_right offset size
  | align => exact le_alignUp offset
  | pushString str => exact Nat.le_add_right offset _

theorem advance_of_size {offset n : Nat} {call : Call} (h : n ∈ call.size) : call.advance offset = offset + n := by
  cases call with
  | alloc size => exact congrArg (offset + ·) (Option.some.inj h)
  | align => cases h
  | pushString str => exact congrArg (offset + ·) (Option.some.inj h)

end Call

/-- A call that has completed. -/
structure Step where
  before : StartupSbrk
  call : Call
  after : StartupSbrk

/-- Calls that complete one after the other. -/
inductive Runs : StartupSbrk → List Step → Prop
  | nil {s : StartupSbrk} : Runs s []
  | cons {s s' : StartupSbrk} {host : Host} {call : Call} {steps : List Step}
      (hcall : (call.perform host).run s = .ok ⟨⟩ s') (hsteps : Runs s' steps) : Runs s (⟨s, call, s'⟩ :: steps)

/-- Where a run gets to. -/
def total (offset : Nat) (steps : List Step) : Nat := (steps.map Step.call).foldl (fun o call => call.advance o) offset

namespace Step

/-- The chunk that was allocated, with the size that was asked for. -/
def chunk (step : Step) : Option (Nat × Nat) := step.call.size.map (step.after.lastOffset, ·)

/-- What was allocated lies inside the segment, and the string that was pushed can be read. -/
structure Kept (step : Step) (s : StartupSbrk) : Prop where
  below : ∀ c ∈ step.chunk, c.1 + c.2 ≤ s.mapped.seg.limitSize
  readable : ∀ str, step.call = .pushString str →
    s.mapped.seg.checkBounds step.after.lastOffset (str.length + 1) = true
  string : ∀ str, step.call = .pushString str →
    HasString s.mapped.mem s.mapped.seg.location step.after.lastOffset str

/-- An alignment goes to the next multiple of 16. -/
def Aligned (step : Step) : Prop :=
  step.call = .align → step.after.offset % 16 = 0 ∧ step.before.offset ≤ step.after.offset ∧
    step.after.offset < step.before.offset + 16

end Step

/-! ## One call -/

/-- There are no skipped pages from `start` on. -/
def FullFrom (seg : Segment) (start : Nat) : Prop :=
  ∀ o, start ≤ o → o < seg.pagedSize → seg.Grown (o / MemOps.pageSize)

/-- What every call keeps. -/
structure Sound (start : Nat) (s : StartupSbrk) : Prop where
  inv : Segment.RepInv s.mapped.seg
  full : FullFrom s.mapped.seg start
  start_le : start ≤ s.offset

/-- What a run of calls does: what was allocated and mapped before is not touched. -/
structure Later (s s' : StartupSbrk) : Prop where
  location : s'.mapped.seg.location = s.mapped.seg.location
  offset_le : s.offset ≤ s'.offset
  limit_le : s.mapped.seg.limitSize ≤ s'.mapped.seg.limitSize
  frame : ∀ x, x < s.offset → x < s.mapped.seg.limitSize →
    s'.mapped.mem (s.mapped.seg.location + x) = s.mapped.mem (s.mapped.seg.location + x)

variable {s s' s'' : StartupSbrk} {host : Host} {start offset : Nat} {call : Call} {step : Step} {steps : List Step}

theorem Later.refl (s : StartupSbrk) : Later s s := ⟨rfl, Nat.le_refl _, Nat.le_refl _, fun _ _ _ => rfl⟩

theorem Later.trans (h : Later s s') (h' : Later s' s'') : Later s s'' where
  location := h'.location.trans h.location
  offset_le := Nat.le_trans h.offset_le h'.offset_le
  limit_le := Nat.le_trans h.limit_le h'.limit_le
  frame x hx hlimit := by
    have hnext := h'.frame x (Nat.lt_of_lt_of_le hx h.offset_le) (Nat.lt_of_lt_of_le hlimit h.limit_le)
    rw [h.location] at hnext
    rw [hnext, h.frame x hx hlimit]

/-- A segment that is grown has no skipped pages where it had none before. -/
theorem FullFrom.append {seg seg' : Segment} {n : Nat} (h : FullFrom seg start) (hinv : Segment.RepInv seg)
    (hinv' : Segment.RepInv seg') (hbitmap : seg'.bitmap = seg.bitmap ++ List.replicate n true) :
    FullFrom seg' start := by
  intro o hstart ho
  obtain ⟨k, hk⟩ := hinv.aligned
  obtain ⟨k', hk'⟩ := hinv'.aligned
  have hlength := hinv.bitmap_length
  have hlength' := hinv'.bitmap_length
  have hn := congrArg List.length hbitmap
  rw [List.length_append, List.length_replicate] at hn
  simp only [MemOps.pageSize] at hk hk' hlength hlength'
  unfold Segment.Grown
  rw [hbitmap]
  by_cases hold : o < seg.pagedSize
  · have hgrown := h o hstart hold
    have hpage : o / MemOps.pageSize < seg.bitmap.length := by
      simp only [MemOps.pageSize]
      omega
    rwa [List.getElem?_append_left hpage]
  · have hpage : seg.bitmap.length ≤ o / MemOps.pageSize := by
      simp only [MemOps.pageSize]
      omega
    rw [List.getElem?_append_right hpage, List.getElem?_replicate_of_lt]
    simp only [MemOps.pageSize]
    omega

theorem Sound.checkBounds {o n : Nat} (h : Sound start s) (hstart : start ≤ o) (hn : 0 < n)
    (hlimit : o + n ≤ s.mapped.seg.limitSize) : s.mapped.seg.checkBounds o n = true := by
  rw [Segment.checkBounds_iff h.inv hn]
  intro o' h₁ h₂
  have hpaged : o' < s.mapped.seg.pagedSize := by
    have := h.inv.limit_le
    omega
  exact ⟨hpaged, h.full o' (Nat.le_trans hstart h₁) hpaged⟩

theorem moveTo_later (h : Sound start s) (hle : s.offset ≤ offset) (hlt : offset < 2 ^ 32) :
    (moveTo host offset).Leaves s
      (fun _ s' => Sound start s' ∧ Later s s' ∧ s'.offset = offset ∧ s'.lastOffset = s.lastOffset ∧
        s'.offset ≤ s'.mapped.seg.limitSize)
      (fun _ _ => True) := by
  refine (moveTo_leaves h.inv hlt).mono ?_ (fun _ _ _ => trivial)
  rintro _ s' ⟨hinv, hext, hoffset, hlast, hfits, hlimit, n, hbitmap⟩
  refine ⟨⟨hinv, h.full.append h.inv hinv hbitmap, ?_⟩, ⟨hext.location, hoffset ▸ hle, hlimit, ?_⟩, hoffset, hlast,
    hoffset ▸ hfits⟩
  · exact Nat.le_trans h.start_le (hoffset ▸ hle)
  · intro x _ hx
    have hpaged := h.inv.limit_le
    exact hext.frame _ (.inl (by omega))

theorem alloc_later {size : Nat} (h : Sound start s) (hlt : s.offset + size < 2 ^ 32) :
    (alloc host size).Leaves s
      (fun _ s' => Sound start s' ∧ Later s s' ∧ s'.offset = s.offset + size ∧ s'.lastOffset = s.offset ∧
        s'.offset ≤ s'.mapped.seg.limitSize)
      (fun _ _ => True) := by
  unfold alloc
  apply EStateM.leaves_modify_bind
  apply EStateM.leaves_get_bind
  dsimp only
  rw [uint32_of_lt hlt]
  have hs : Sound start { s with lastOffset := s.offset } := ⟨h.inv, h.full, h.start_le⟩
  refine (moveTo_later hs (Nat.le_add_right s.offset size) hlt).mono ?_ (fun _ _ _ => trivial)
  rintro _ s' ⟨hsound, hlater, hrest⟩
  exact ⟨hsound, ⟨hlater.location, hlater.offset_le, hlater.limit_le, hlater.frame⟩, hrest⟩

theorem align_later (h : Sound start s) (hlt : MemOps.alignUp s.offset 16 < 2 ^ 32) :
    (align host).Leaves s
      (fun _ s' => Sound start s' ∧ Later s s' ∧ s'.offset = MemOps.alignUp s.offset 16 ∧
        s'.offset ≤ s'.mapped.seg.limitSize)
      (fun _ _ => True) := by
  unfold align
  apply EStateM.leaves_get_bind
  rw [uint32_of_lt hlt]
  refine (moveTo_later h (le_alignUp _) hlt).mono ?_ (fun _ _ _ => trivial)
  rintro _ s' ⟨hsound, hlater, hoffset, -, hfits⟩
  exact ⟨hsound, hlater, hoffset, hfits⟩

theorem pushString_later {str : CString} (h : Sound start s) (hlt : s.offset + (str.length + 1) < 2 ^ 32) :
    (pushString host str).Leaves s
      (fun _ s' => (Sound start s' ∧ Later s s' ∧ s'.offset = s.offset + (str.length + 1) ∧
          s'.lastOffset = s.offset ∧ s'.offset ≤ s'.mapped.seg.limitSize) ∧
        HasString s'.mapped.mem s'.mapped.seg.location s.offset str)
      (fun _ _ => True) := by
  unfold pushString
  refine (alloc_later h hlt).bind ?_
  rintro _ s₁ ⟨hsound, hlater, hoffset, hlast, hfits⟩
  refine ptr_leaves.bind ?_
  rintro o s₁ ⟨rfl, rfl⟩
  refine store_leaves.mono ?_ (fun _ _ _ => trivial)
  rintro _ s₂ ⟨-, rfl⟩
  rw [hlast]
  refine ⟨⟨⟨hsound.inv, hsound.full, hsound.start_le⟩, ⟨hlater.location, hlater.offset_le, hlater.limit_le, ?_⟩,
    hoffset, hlast, hfits⟩, ?_⟩
  -- the string goes behind what was allocated before
  · intro x hx hlimit
    have hloc := hlater.location
    show s₁.mapped.mem.write (s₁.mapped.seg.location + s.offset) (str ++ [0]) _ = _
    rw [Memory.write_of_lt (by omega), hlater.frame x hx hlimit]
  · have hlen : (str ++ [0]).length = str.length + 1 := by simp
    show (s₁.mapped.mem.write (s₁.mapped.seg.location + s.offset) (str ++ [0])).read _ (str.length + 1) = _
    rw [← hlen]
    exact Memory.read_write_self

/-- What one call does. -/
theorem perform_later (h : Sound start s) (hlt : call.advance s.offset < 2 ^ 32) :
    (call.perform host).Leaves s
      (fun _ s' => Sound start s' ∧ Later s s' ∧ s'.offset = call.advance s.offset ∧
        s'.offset ≤ s'.mapped.seg.limitSize ∧ (call ≠ .align → s'.lastOffset = s.offset) ∧
        ∀ str, call = .pushString str → HasString s'.mapped.mem s'.mapped.seg.location s.offset str)
      (fun _ _ => True) := by
  cases call with
  | alloc size =>
      refine (alloc_later h hlt).mono ?_ (fun _ _ _ => trivial)
      rintro _ s' ⟨hsound, hlater, hoffset, hlast, hfits⟩
      exact ⟨hsound, hlater, hoffset, hfits, fun _ => hlast, fun _ heq => by cases heq⟩
  | align =>
      refine (align_later h hlt).mono ?_ (fun _ _ _ => trivial)
      rintro _ s' ⟨hsound, hlater, hoffset, hfits⟩
      exact ⟨hsound, hlater, hoffset, hfits, fun hne => absurd rfl hne, fun _ heq => by cases heq⟩
  | pushString str =>
      refine (pushString_later h hlt).mono ?_ (fun _ _ _ => trivial)
      rintro _ s' ⟨⟨hsound, hlater, hoffset, hlast, hfits⟩, hstring⟩
      refine ⟨hsound, hlater, hoffset, hfits, fun _ => hlast, ?_⟩
      rintro _ ⟨⟩
      exact hstring

/-! ## Runs -/

theorem le_total (offset : Nat) (steps : List Step) : offset ≤ total offset steps := by
  induction steps generalizing offset with
  | nil => exact Nat.le_refl offset
  | cons step steps ih => exact Nat.le_trans (step.call.le_advance offset) (ih _)

/-- What is known of a completed call of a run. -/
structure Done (start : Nat) (step : Step) : Prop where
  sound : Sound start step.after
  start_le : start ≤ step.before.offset
  later : Later step.before step.after
  offset_eq : step.after.offset = step.call.advance step.before.offset
  fits : step.after.offset ≤ step.after.mapped.seg.limitSize
  last : step.call ≠ .align → step.after.lastOffset = step.before.offset
  string : ∀ str, step.call = .pushString str →
    HasString step.after.mapped.mem step.after.mapped.seg.location step.before.offset str

/-- The chunk ends where the next one can begin. -/
theorem Done.chunk (h : Done start step) {c : Nat × Nat} (hc : c ∈ step.chunk) :
    c.1 = step.before.offset ∧ c.1 + c.2 = step.after.offset := by
  obtain ⟨n, hn, rfl⟩ := Option.map_eq_some_iff.1 hc
  have hcall : step.call ≠ .align := by
    intro halign
    rw [halign] at hn
    cases hn
  have hlast := h.last hcall
  refine ⟨hlast, ?_⟩
  show step.after.lastOffset + n = _
  rw [hlast, h.offset_eq, Call.advance_of_size hn]

/-- What was allocated is kept by all that follows. -/
theorem Done.kept (h : Done start step) (hsound : Sound start s) (hlater : Later step.after s) : step.Kept s where
  below c hc := by
    rw [(h.chunk hc).2]
    exact Nat.le_trans h.fits hlater.limit_le
  readable str hcall := by
    have hlast : step.after.lastOffset = step.before.offset := h.last (by simp [hcall])
    have hend := h.offset_eq
    rw [hcall] at hend
    rw [hlast]
    refine hsound.checkBounds h.start_le (Nat.succ_pos _) ?_
    exact Nat.le_trans (Nat.le_of_eq hend.symm) (Nat.le_trans h.fits hlater.limit_le)
  string str hcall := by
    have hlast : step.after.lastOffset = step.before.offset := h.last (by simp [hcall])
    have hend : step.after.offset = step.before.offset + (str.length + 1) := by rw [h.offset_eq, hcall]; rfl
    have hfits := h.fits
    rw [hlast, HasString, ← h.string str hcall, hlater.location]
    apply Memory.read_congr
    intro x h₁ h₂
    obtain ⟨o, rfl⟩ := Nat.exists_eq_add_of_le (Nat.le_trans (Nat.le_add_right _ _) h₁)
    exact hlater.frame o (by omega) (by omega)

theorem Done.aligned (h : Done start step) : step.Aligned := by
  intro hcall
  have hoffset := h.offset_eq
  rw [hcall] at hoffset
  rw [hoffset]
  show MemOps.alignUp step.before.offset 16 % 16 = 0 ∧ step.before.offset ≤ MemOps.alignUp step.before.offset 16 ∧
    MemOps.alignUp step.before.offset 16 < step.before.offset + 16
  unfold MemOps.alignUp
  split <;> omega

theorem done_of_runs (h : Sound start s) (hruns : Runs s steps) (htotal : total s.offset steps < 2 ^ 32) :
    ∀ step ∈ steps, Done start step ∧ Later s step.before := by
  induction hruns with
  | nil => simp
  | @cons s s' host call steps hcall _ ih =>
      have hlt : call.advance s.offset < 2 ^ 32 := Nat.lt_of_le_of_lt (le_total _ _) htotal
      obtain ⟨hsound, hlater, hoffset, hfits, hlast, hstring⟩ := (perform_later h hlt).of_ok hcall
      rw [List.forall_mem_cons]
      refine ⟨⟨⟨hsound, h.start_le, hlater, hoffset, hfits, hlast, hstring⟩, .refl s⟩, ?_⟩
      intro step hstep
      obtain ⟨hdone, hsince⟩ := ih hsound (hoffset ▸ htotal) step hstep
      exact ⟨hdone, hlater.trans hsince⟩

/-- In every run, each chunk lies inside the segment from when it is allocated, behind the chunks that were
allocated before; an alignment skips less than 16 bytes; and a string is found unchanged after all later calls. -/
theorem kept_of_runs (hinv : Segment.RepInv s.mapped.seg) (hfull : FullFrom s.mapped.seg s.offset)
    (hruns : Runs s steps) (htotal : total s.offset steps < 2 ^ 32) :
    (∀ step ∈ steps, step.Kept step.after ∧ step.Aligned) ∧
      steps.Pairwise fun step later => step.Kept later.after ∧
        ∀ c ∈ step.chunk, ∀ c' ∈ later.chunk, c.1 + c.2 ≤ c'.1 := by
  have hsound : Sound s.offset s := ⟨hinv, hfull, Nat.le_refl _⟩
  have hdone := done_of_runs hsound hruns htotal
  refine ⟨?_, ?_⟩
  · intro step hstep
    have hd := (hdone step hstep).1
    exact ⟨hd.kept hd.sound (.refl _), hd.aligned⟩
  · clear hdone hinv hfull
    generalize s.offset = start at hsound
    induction hruns with
    | nil => exact .nil
    | @cons s s' host call steps hcall hrest ih =>
        have hhead := (done_of_runs hsound (.cons hcall hrest) htotal _ List.mem_cons_self).1
        have htotal' : total s'.offset steps < 2 ^ 32 := by
          rw [hhead.offset_eq]
          exact htotal
        refine .cons ?_ (ih htotal' hhead.sound)
        intro later hlater
        obtain ⟨hd, hsince⟩ := done_of_runs hhead.sound hrest htotal' later hlater
        refine ⟨hhead.kept hd.sound (hsince.trans hd.later), ?_⟩
        intro c hc c' hc'
        rw [(hhead.chunk hc).2, (hd.chunk hc').1]
        exact hsince.offset_le

/-- A heap of one page that begins in the middle of it. -/
def smallHeap : StartupSbrk :=
  .make ⟨⟨0x10000, 0x1000, 0x18, 0x4000, false, [true]⟩, fun _ => 0⟩ 0x18

/-- A string, and a structure behind it that does not fit into the page any more. -/
def smallCalls : List Step :=
  let s₁ := ((Call.pushString (CString.ofString "/bin/sh")).perform Host.roomy).after smallHeap
  let s₂ := (Call.align.perform Host.roomy).after s₁
  [⟨smallHeap, .pushString (CString.ofString "/bin/sh"), s₁⟩, ⟨s₁, .align, s₂⟩,
    ⟨s₂, .alloc 0x1000, ((Call.alloc 0x1000).perform Host.roomy).after s₂⟩]

theorem kept_of_runs_small : smallCalls.map Step.chunk = [some (0x18, 8), none, some (0x20, 0x1000)] ∧
    smallCalls.Pairwise fun step later => step.Kept later.after ∧
      ∀ c ∈ step.chunk, ∀ c' ∈ later.chunk, c.1 + c.2 ≤ c'.1 := by
  have hinv : Segment.RepInv smallHeap.mapped.seg :=
    ⟨⟨by decide, by decide, by decide, by decide, by decide⟩, by decide⟩
  have hfull : FullFrom smallHeap.mapped.seg smallHeap.offset := by
    intro o _ ho
    have hpage : o / MemOps.pageSize = 0 := Nat.div_eq_of_lt ho
    rw [hpage]
    rfl
  have hruns : Runs smallHeap smallCalls :=
    .cons (EStateM.run_after (by decide)) (.cons (EStateM.run_after (by decide))
      (.cons (EStateM.run_after (by decide)) .nil))
  exact ⟨by decide, (kept_of_runs hinv hfull hruns (by decide)).2⟩

end StartupSbrk
end Qine

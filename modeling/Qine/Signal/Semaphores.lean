import Qine.Signal.Dispatch

/-!
# Semaphores

A semaphore is a counter in guest memory, on which `int 0xF1` works. There is one thread, so a wait on a counter
that is zero could never end, and fails.

Between the calls the guest does what it likes, except that only the calls touch the counters. Then each of them
counts tokens: a wait gets one exactly if there is one left of those posted (`semaphore_tokens`). A counter that is
posted `2 ^ 32` times starts again at zero; tokens get lost that way, but none comes out of nowhere.
-/

namespace Qine

/-- The calls. -/
inductive SemOp where
  | post
  | wait
  | tryWait
  deriving DecidableEq, Repr

/-- The number of the call, in EBX. -/
def SemOp.number : SemOp → BitVec 32
  | .post => 0
  | .wait => 1
  | .tryWait => 2

/-- The error when there is no token. -/
def SemOp.refusal : SemOp → Int
  | .post => qeok
  | .wait => qedeadlk
  | .tryWait => qeagain

/-- A call on the semaphore at an address, with the answer in EAX. -/
structure SemCall where
  sem : Nat
  op : SemOp
  answer : BitVec 32
  deriving DecidableEq, Repr

/-- The tokens of a semaphore. -/
def Machine.tokens (s : Machine) (sem : Nat) : Nat := (s.mem.loadWord 4 sem).toNat

/-- A call that is made and answered. -/
structure SemStep (p : Process) (s : Machine) (c : SemCall) (s' : Machine) : Prop where
  address : p.translateSegmented ⟨s.regs.ds, s.regs.eax⟩ (BitVec.ofNat 32 Emu.semSize) = .ok c.sem
  number : s.regs.ebx = c.op.number
  runs : (Emu.dispatchSyscallSem p).run s = .ok () s'
  answer : s'.regs.eax = c.answer

/-- Semaphores whose counters do not overlap. -/
def SemsApart (sems : Set Nat) : Prop := ∀ a ∈ sems, ∀ b ∈ sems, a ≠ b → a + 4 ≤ b ∨ b + 4 ≤ a

/-- Calls on the semaphores, with other things in between that do not touch them. -/
inductive SemRun (p : Process) (sems : Set Nat) : Machine → List SemCall → Machine → Prop
  | nil (s : Machine) : SemRun p sems s [] s
  | guest {s s' s'' : Machine} {log : List SemCall} (h : ∀ a ∈ sems, s'.tokens a = s.tokens a)
      (hrest : SemRun p sems s' log s'') : SemRun p sems s log s''
  | call {s s' s'' : Machine} {c : SemCall} {log : List SemCall} (h : SemStep p s c s') (hc : c.sem ∈ sems)
      (hrest : SemRun p sems s' log s'') : SemRun p sems s (c :: log) s''

/-- The tokens put into a semaphore. -/
def posted (sem : Nat) (log : List SemCall) : Nat := log.countP fun c => c.sem = sem ∧ c.op = .post

/-- The tokens got out of it. -/
def acquired (sem : Nat) (log : List SemCall) : Nat :=
  log.countP fun c => c.sem = sem ∧ c.op ≠ .post ∧ c.answer = BitVec.ofInt 32 qeok

variable {p : Process} {sems : Set Nat} {s s' : Machine} {c : SemCall} {log log₁ log₂ : List SemCall} {a : Nat}

/-! ## One call -/

namespace SemStep

/-- What a call does. -/
theorem outcome (h : SemStep p s c s') :
    (c.op = .post ∧ s'.mem = s.mem.storeWord 4 c.sem (s.mem.loadWord 4 c.sem + 1) ∧
        s'.regs = { s.regs with eax := BitVec.ofInt 32 qeok }) ∨
      (c.op ≠ .post ∧ s.mem.loadWord 4 c.sem ≠ 0 ∧
        s'.mem = s.mem.storeWord 4 c.sem (s.mem.loadWord 4 c.sem - 1) ∧
        s'.regs = { s.regs with eax := BitVec.ofInt 32 qeok }) ∨
      (c.op ≠ .post ∧ s.mem.loadWord 4 c.sem = 0 ∧ s'.mem = s.mem ∧
        s'.regs = { s.regs with eax := BitVec.ofInt 32 c.op.refusal, eflags := s.regs.eflags ||| 1 }) := by
  have hrun := h.runs
  unfold Emu.dispatchSyscallSem at hrun
  rw [EStateM.run_get_bind, EStateM.run_ofExcept_bind h.address] at hrun
  dsimp only at hrun
  rw [h.number] at hrun
  cases hop : c.op with
  | post =>
      rw [hop, if_pos (show SemOp.post.number = 0 from rfl)] at hrun
      cases hrun
      exact .inl ⟨rfl, rfl, rfl⟩
  | wait =>
      rw [hop, if_neg (by decide), if_pos (show SemOp.wait.number = 1 from rfl)] at hrun
      split_ifs at hrun with hzero
      · cases hrun
        exact .inr (.inr ⟨by decide, hzero, rfl, rfl⟩)
      · cases hrun
        exact .inr (.inl ⟨by decide, hzero, rfl, rfl⟩)
  | tryWait =>
      rw [hop, if_neg (by decide), if_neg (by decide), if_pos (show SemOp.tryWait.number = 2 from rfl)] at hrun
      split_ifs at hrun with hzero
      · cases hrun
        exact .inr (.inr ⟨by decide, hzero, rfl, rfl⟩)
      · cases hrun
        exact .inr (.inl ⟨by decide, hzero, rfl, rfl⟩)

/-- A call leaves all memory alone but its counter. -/
theorem mem_of_not_mem (h : SemStep p s c s') {x : Nat} (hx : x < c.sem ∨ c.sem + 4 ≤ x) : s'.mem x = s.mem x := by
  rcases h.outcome with ⟨-, hmem, -⟩ | ⟨-, -, hmem, -⟩ | ⟨-, -, hmem, -⟩
  · rw [hmem, Memory.storeWord_of_not_mem hx]
  · rw [hmem, Memory.storeWord_of_not_mem hx]
  · rw [hmem]

/-- What a call does to its counter, and its answer. -/
theorem tokens_self (h : SemStep p s c s') :
    (c.op = .post ∧ s'.tokens c.sem = (s.tokens c.sem + 1) % 2 ^ 32 ∧ c.answer = BitVec.ofInt 32 qeok) ∨
      (c.op ≠ .post ∧ s.tokens c.sem = s'.tokens c.sem + 1 ∧ c.answer = BitVec.ofInt 32 qeok) ∨
      (c.op ≠ .post ∧ s.tokens c.sem = 0 ∧ s'.tokens c.sem = 0 ∧
        c.answer = BitVec.ofInt 32 c.op.refusal) := by
  unfold Machine.tokens
  rw [← h.answer]
  rcases h.outcome with ⟨hop, hmem, hregs⟩ | ⟨hop, hpos, hmem, hregs⟩ | ⟨hop, hzero, hmem, hregs⟩
  · refine .inl ⟨hop, ?_, by rw [hregs]⟩
    rw [hmem, Memory.loadWord_storeWord, BitVec.toNat_add]
    rfl
  · refine .inr (.inl ⟨hop, ?_, by rw [hregs]⟩)
    have hsub : ∀ w : BitVec 32, w ≠ 0 → w.toNat = (w - 1).toNat + 1 := by
      intro w hw
      bv_omega
    rw [hmem, Memory.loadWord_storeWord]
    exact hsub _ hpos
  · refine .inr (.inr ⟨hop, ?_, ?_, by rw [hregs]⟩)
    · rw [hzero]
      rfl
    · rw [hmem, hzero]
      rfl

/-- A call leaves the other semaphores alone. -/
theorem tokens_other (h : SemStep p s c s') (hne : a + 4 ≤ c.sem ∨ c.sem + 4 ≤ a) : s'.tokens a = s.tokens a := by
  unfold Machine.tokens
  rw [Memory.loadWord_congr fun x hlow hhigh => h.mem_of_not_mem (by omega)]

/-- A wait that fails is not answered like one that gets a token. -/
theorem refusal_ne (op : SemOp) (h : op ≠ .post) : BitVec.ofInt 32 op.refusal ≠ BitVec.ofInt 32 qeok := by
  cases op with
  | post => exact absurd rfl h
  | wait => decide
  | tryWait => decide

end SemStep

/-! ## Counting -/

/-- Each token that is got was there before, or it was posted; and a counter that never starts again loses none. -/
theorem SemStep.balance (h : SemStep p s c s') (hother : c.sem ≠ a → a + 4 ≤ c.sem ∨ c.sem + 4 ≤ a) :
    s'.tokens a + acquired a [c] ≤ s.tokens a + posted a [c] ∧
      (s.tokens a + posted a [c] < 2 ^ 32 → s'.tokens a + acquired a [c] = s.tokens a + posted a [c]) := by
  by_cases ha : c.sem = a
  · subst ha
    rcases h.tokens_self with ⟨hop, htokens, -⟩ | ⟨hop, htokens, hok⟩ | ⟨hop, hzero, htokens, hrefused⟩
    · have hposted : posted c.sem [c] = 1 := by simp [posted, hop]
      have hacquired : acquired c.sem [c] = 0 := by simp [acquired, hop]
      omega
    · have hposted : posted c.sem [c] = 0 := by simp [posted, hop]
      have hacquired : acquired c.sem [c] = 1 := by simp [acquired, hop, hok]
      omega
    · have hne := SemStep.refusal_ne c.op hop
      have hposted : posted c.sem [c] = 0 := by simp [posted, hop]
      have hacquired : acquired c.sem [c] = 0 := by simp [acquired, hop, hrefused, hne]
      omega
  · have htokens := h.tokens_other (hother ha)
    have hposted : posted a [c] = 0 := by simp [posted, ha]
    have hacquired : acquired a [c] = 0 := by simp [acquired, ha]
    omega

theorem posted_cons (c : SemCall) (log : List SemCall) : posted a (c :: log) = posted a [c] + posted a log := by
  unfold posted
  rw [← List.singleton_append, List.countP_append]

theorem acquired_cons (c : SemCall) (log : List SemCall) :
    acquired a (c :: log) = acquired a [c] + acquired a log := by
  unfold acquired
  rw [← List.singleton_append, List.countP_append]

namespace SemRun

theorem balance (hsems : SemsApart sems) (h : SemRun p sems s log s') (ha : a ∈ sems) :
    s'.tokens a + acquired a log ≤ s.tokens a + posted a log ∧
      (s.tokens a + posted a log < 2 ^ 32 → s'.tokens a + acquired a log = s.tokens a + posted a log) := by
  induction h with
  | nil s => exact ⟨Nat.le_refl _, fun _ => rfl⟩
  | guest hkeep hrest ih => rwa [hkeep a ha] at ih
  | call hstep hc hrest ih =>
      have hone := hstep.balance (a := a) fun hne => hsems a ha _ hc (Ne.symm hne)
      rw [posted_cons, acquired_cons]
      omega

/-- A call in the middle of a run. -/
theorem split (h : SemRun p sems s (log₁ ++ c :: log₂) s') :
    ∃ s₁ s₂, SemRun p sems s log₁ s₁ ∧ SemStep p s₁ c s₂ ∧ SemRun p sems s₂ log₂ s' := by
  generalize hlog : log₁ ++ c :: log₂ = log at h
  induction h generalizing log₁ with
  | nil s => simp at hlog
  | guest hkeep hrest ih =>
      obtain ⟨s₁, s₂, hbefore, hcall, hafter⟩ := ih hlog
      exact ⟨s₁, s₂, .guest hkeep hbefore, hcall, hafter⟩
  | call hstep hc hrest ih =>
      cases log₁ with
      | nil =>
          cases hlog
          exact ⟨_, _, .nil _, hstep, hrest⟩
      | cons c' log₁ =>
          cases hlog
          obtain ⟨s₁, s₂, hbefore, hcall, hafter⟩ := ih rfl
          exact ⟨s₁, s₂, .call hstep hc hbefore, hcall, hafter⟩

end SemRun

/-- A semaphore counts tokens. In every run of calls on any semaphores that do not overlap, whatever else happens
between, as long as fewer than `2 ^ 32` tokens were ever there, each wait gets a token exactly if one of those
posted before is left, and is refused with the error of its kind if none is; and what is left in the end are the
tokens that were posted and not got. Without that bound there are never more tokens got than were posted. -/
theorem semaphore_tokens (hsems : SemsApart sems) (h : SemRun p sems s log s') (ha : a ∈ sems) :
    s'.tokens a + acquired a log ≤ s.tokens a + posted a log ∧
      (s.tokens a + posted a log < 2 ^ 32 →
        s'.tokens a + acquired a log = s.tokens a + posted a log ∧
        ∀ log₁ c log₂, log = log₁ ++ c :: log₂ → c.sem = a → c.op ≠ .post →
          c.answer = if acquired a log₁ < s.tokens a + posted a log₁ then BitVec.ofInt 32 qeok
            else BitVec.ofInt 32 c.op.refusal) := by
  refine ⟨(h.balance hsems ha).1, fun hbound => ⟨(h.balance hsems ha).2 hbound, ?_⟩⟩
  rintro log₁ c log₂ rfl rfl hop
  obtain ⟨s₁, s₂, hbefore, hcall, -⟩ := h.split
  have hle : posted c.sem log₁ ≤ posted c.sem (log₁ ++ c :: log₂) := by
    rw [posted, posted, List.countP_append]
    exact Nat.le_add_right _ _
  have hleft := (hbefore.balance hsems ha).2 (by omega)
  rcases hcall.tokens_self with ⟨hpost, -⟩ | ⟨-, htokens, hok⟩ | ⟨-, hzero, -, hrefused⟩
  · exact absurd hpost hop
  · rw [if_pos (by omega), hok]
  · rw [if_neg (by omega), hrefused]

/-- The semaphore at `0x1200` has one token; the second of two waits finds none. -/
theorem semaphore_tokens_lastToken :
    let s : Machine := { Machine.smallGuest 7 0x1000 with mem := Memory.storeWord (fun _ => 0) 4 0x1200 1 }
    let first : Machine := { s with regs := { s.regs with eax := 0x200, ebx := 1 } }
    let taken : Machine := { first with
      regs := { first.regs with eax := 0 }, mem := first.mem.storeWord 4 0x1200 (first.mem.loadWord 4 0x1200 - 1) }
    let again : Machine := { taken with regs := { taken.regs with eax := 0x200, ebx := 2 } }
    let refused : Machine := { again with
      regs := { again.regs with eax := BitVec.ofInt 32 qeagain, eflags := again.regs.eflags ||| 1 } }
    let log : List SemCall := [⟨0x1200, .wait, 0⟩, ⟨0x1200, .tryWait, BitVec.ofInt 32 qeagain⟩]
    SemRun Process.onePage {0x1200} s log refused ∧ refused.tokens 0x1200 = 0 := by
  intro s first taken again refused log
  have hs : first.mem.loadWord 4 0x1200 = 1 := Memory.loadWord_storeWord ..
  have htaken : taken.mem.loadWord 4 0x1200 = 0 := by
    have hload : taken.mem.loadWord 4 0x1200 = first.mem.loadWord 4 0x1200 - 1 := Memory.loadWord_storeWord ..
    rw [hload, hs]
    rfl
  have hwait : SemStep Process.onePage first ⟨0x1200, .wait, 0⟩ taken := by
    have haddr : Process.onePage.translateSegmented ⟨first.regs.ds, first.regs.eax⟩ (BitVec.ofNat 32 Emu.semSize) =
        .ok 0x1200 := by decide
    refine ⟨haddr, rfl, ?_, rfl⟩
    unfold Emu.dispatchSyscallSem
    rw [EStateM.run_get_bind, EStateM.run_ofExcept_bind haddr]
    dsimp only
    rw [if_neg (by decide), if_pos (by decide), if_neg (by rw [hs]; decide)]
    rfl
  have htry : SemStep Process.onePage again ⟨0x1200, .tryWait, BitVec.ofInt 32 qeagain⟩ refused := by
    have haddr : Process.onePage.translateSegmented ⟨again.regs.ds, again.regs.eax⟩ (BitVec.ofNat 32 Emu.semSize) =
        .ok 0x1200 := by decide
    refine ⟨haddr, rfl, ?_, rfl⟩
    unfold Emu.dispatchSyscallSem
    rw [EStateM.run_get_bind, EStateM.run_ofExcept_bind haddr]
    dsimp only
    rw [if_neg (by decide), if_neg (by decide), if_pos (by decide), if_pos htaken]
    rfl
  have hrun : SemRun Process.onePage {0x1200} s log refused := by
    refine .guest ?_ (.call hwait rfl (.guest ?_ (.call htry rfl (.nil _))))
    · exact fun _ _ => rfl
    · exact fun _ _ => rfl
  have hapart : SemsApart {0x1200} := by
    rintro a rfl b rfl hne
    exact absurd rfl hne
  have hone : s.tokens 0x1200 = 1 := by
    unfold Machine.tokens
    rw [show s.mem.loadWord 4 0x1200 = 1 from hs]
    rfl
  have hcount : acquired 0x1200 log = 1 ∧ posted 0x1200 log = 0 := ⟨rfl, rfl⟩
  have htokens := (semaphore_tokens hapart hrun rfl).1
  exact ⟨hrun, by omega⟩

end Qine

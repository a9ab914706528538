import Qine.Pid.Map
import Mathlib.Data.Nat.Find

/-!
# Finding a free QNX pid

`alloc_empty` hashes the host pid. On a collision it starts at a second hash and walks a candidate
pid and an iterator of the ordered map in lock step, until the candidate is not the key under the
iterator, wrapping around at `m_last_pid`.

As long as the iterator stands at the first key from the candidate on, the loop finds the next free
pid (`probe_free`) or passes all pids up to the start (`probe_full`). When it wraps around, however,
the iterator goes to the first key of the whole map, and with a permanent pid below `m_start_pid`
that is not the first key of the range: the loop then takes `m_start_pid` for free without looking.
`allocEmpty_correct_iff` says that this is the only thing that goes wrong.
-/

namespace Qine
namespace PidMap

/-! ## The hashes -/

theorem compressPid_mem {hostPid : Int} (h : -1 ≤ hostPid) :
    startPid ≤ compressPid hostPid ∧ compressPid hostPid ≤ lastPid := by
  unfold compressPid startPid lastPid
  dsimp only
  split
  · rw [Int.tmod_eq_emod_of_nonneg (by omega)]
    omega
  · rw [Int.tmod_eq_emod_of_nonneg (by omega)]
    omega

theorem randomizePid_mem (hostPid : Int) :
    startPid ≤ randomizePid hostPid ∧ randomizePid hostPid ≤ lastPid := by
  unfold randomizePid startPid lastPid
  dsimp only
  generalize (10 + hostPid % 2 ^ 32 * 3779) % 2 ^ 32 = hash
  omega

/-! ## The iterator -/

theorem filter_sorted {β : Type} {l : List (Int × β)} (h : l.Pairwise (·.1 < ·.1)) {k : Int} {v : β}
    (hk : (k, v) ∈ l) : l.filter (k ≤ ·.1) = (k, v) :: l.filter (k + 1 ≤ ·.1) := by
  induction l with
  | nil => cases hk
  | cons x xs ih =>
      rw [List.pairwise_cons] at h
      rcases List.mem_cons.1 hk with rfl | hk
      · rw [List.filter_cons_of_pos (by simp), List.filter_cons_of_neg (by
          rw [decide_eq_true_eq]; omega)]
        congr 1
        apply List.filter_congr
        intro y hy
        have := h.1 y hy
        simp only [decide_eq_decide]
        omega
      · have := h.1 _ hk
        rw [List.filter_cons_of_neg (by
          rw [decide_eq_true_eq]; omega), List.filter_cons_of_neg (by
          rw [decide_eq_true_eq]; omega)]
        exact ih h.2 hk

variable {s : PidMap} {k : Int}

/-- A QNX pid that is in use. -/
def Taken (s : PidMap) (k : Int) : Prop := k ∈ s.qnxMap

instance (s : PidMap) (k : Int) : Decidable (s.Taken k) := inferInstanceAs (Decidable (k ∈ s.qnxMap))

theorem taken_iff : s.Taken k ↔ ∃ node, (k, node) ∈ s.qnxMap.toList := by
  simp only [Taken, Std.TreeMap.mem_toList_iff_getElem?_eq_some,
    Std.TreeMap.mem_iff_isSome_getElem?, Option.isSome_iff_exists]

theorem sorted_toList (s : PidMap) : s.qnxMap.toList.Pairwise (·.1 < ·.1) := by
  have h := Std.TreeMap.ordered_keys_toList (t := s.qnxMap)
  simpa only [Int.compare_eq_lt] using h

/-- At a taken pid, the iterator shows it, and then stands at the next pid. -/
theorem nodesFrom_of_taken (h : s.Taken k) :
    ∃ node, s.nodesFrom k = (k, node) :: s.nodesFrom (k + 1) := by
  obtain ⟨node, hmem⟩ := taken_iff.1 h
  exact ⟨node, filter_sorted s.sorted_toList hmem⟩

/-- At a free pid, the iterator shows something else. -/
theorem head_ne_of_not_taken {l : List (Int × PidNode)} (hl : l ⊆ s.qnxMap.toList)
    (h : ¬s.Taken k) : ∀ x ∈ l.head?, x.1 ≠ k := by
  rintro ⟨k', node⟩ hx rfl
  exact h (taken_iff.2 ⟨node, hl (List.mem_of_mem_head? hx)⟩)

/-! ## The loop -/

variable {start tryPid : Int}

theorem probe_of_head_ne (n : Nat) {l : List (Int × PidNode)} (h : ∀ x ∈ l.head?, x.1 ≠ tryPid) :
    s.probe start n tryPid l = .ok tryPid := by
  cases n with
  | zero => rfl
  | succ n =>
      cases l with
      | nil => rfl
      | cons x l =>
          obtain ⟨key, node⟩ := x
          have hne : key ≠ tryPid := h (key, node) rfl
          simp [probe, hne]

theorem probe_of_taken {n : Nat} (h : s.Taken tryPid) (hlast : tryPid ≠ lastPid) :
    s.probe start (n + 1) tryPid (s.nodesFrom tryPid) =
      if tryPid + 1 = start then .error .pidMapFull
      else s.probe start n (tryPid + 1) (s.nodesFrom (tryPid + 1)) := by
  obtain ⟨node, hnodes⟩ := nodesFrom_of_taken h
  rw [hnodes, probe, if_pos rfl, if_neg hlast]

theorem probe_of_taken_last {n : Nat} (h : s.Taken lastPid) :
    s.probe start (n + 1) lastPid (s.nodesFrom lastPid) =
      if startPid = start then .error .pidMapFull
      else s.probe start n startPid s.qnxMap.toList := by
  obtain ⟨node, hnodes⟩ := nodesFrom_of_taken h
  rw [hnodes, probe, if_pos rfl, if_pos rfl]

/-- The loop walks over taken pids, `d` of them, as long as it meets neither the end of the range
nor its start. -/
theorem probe_skip {n d : Nat} (htaken : ∀ k, tryPid ≤ k → k < tryPid + d → s.Taken k)
    (hlast : tryPid + d ≤ lastPid) (hstart : start ≤ tryPid ∨ tryPid + d < start) :
    s.probe start (n + d) tryPid (s.nodesFrom tryPid) =
      s.probe start n (tryPid + d) (s.nodesFrom (tryPid + d)) := by
  induction d generalizing tryPid with
  | zero => simp
  | succ d ih =>
      have hstep : tryPid + 1 + (d : Int) = tryPid + ((d + 1 : Nat) : Int) := by push_cast; omega
      rw [← Nat.add_assoc, probe_of_taken (htaken tryPid (by omega) (by omega)) (by omega),
        if_neg (by omega), ih (fun k h₁ h₂ => htaken k (by omega) (by omega)) (by omega) (by omega),
        hstep]

/-- The loop stops at the first free pid. -/
theorem probe_free {n : Nat} {g : Int} (htry : tryPid ≤ g) (hlast : g ≤ lastPid)
    (htaken : ∀ k, tryPid ≤ k → k < g → s.Taken k) (hfree : ¬s.Taken g)
    (hstart : start ≤ tryPid ∨ g < start) (hn : g - tryPid ≤ n) :
    s.probe start n tryPid (s.nodesFrom tryPid) = .ok g := by
  obtain ⟨d, rfl⟩ : ∃ d : Nat, g = tryPid + d := ⟨(g - tryPid).toNat, by omega⟩
  obtain ⟨n, rfl⟩ : ∃ n', n = n' + d := ⟨n - d, by omega⟩
  rw [probe_skip htaken hlast (by omega)]
  exact probe_of_head_ne n (head_ne_of_not_taken (List.filter_subset_self _) hfree)

/-- The loop gives up when it comes back to its start. -/
theorem probe_full {n : Nat} (htry : tryPid < start) (hlast : start ≤ lastPid)
    (htaken : ∀ k, tryPid ≤ k → k < start → s.Taken k) (hn : start - tryPid ≤ n) :
    s.probe start n tryPid (s.nodesFrom tryPid) = .error .pidMapFull := by
  obtain ⟨d, hd⟩ : ∃ d : Nat, start - 1 = tryPid + d := ⟨(start - 1 - tryPid).toNat, by omega⟩
  obtain ⟨n, rfl⟩ : ∃ n', n = n' + 1 + d := ⟨n - 1 - d, by omega⟩
  rw [probe_skip (fun k h₁ h₂ => htaken k h₁ (by omega)) (by omega) (by omega),
    probe_of_taken (htaken _ (by omega) (by omega)) (by omega), if_pos (by omega)]

/-- The loop wraps around when every pid from its start to the end of the range is taken. -/
theorem probe_wrap {n : Nat} (hlast : start ≤ lastPid)
    (htaken : ∀ k, start ≤ k → k ≤ lastPid → s.Taken k) (hn : lastPid - start + 1 ≤ n) :
    s.probe start n start (s.nodesFrom start) =
      if startPid = start then .error .pidMapFull
      else s.probe start (n - (lastPid - start + 1).toNat) startPid s.qnxMap.toList := by
  obtain ⟨d, hd⟩ : ∃ d : Nat, lastPid = start + d := ⟨(lastPid - start).toNat, by omega⟩
  obtain ⟨n, rfl⟩ : ∃ n', n = n' + 1 + d := ⟨n - 1 - d, by omega⟩
  rw [probe_skip (fun k h₁ h₂ => htaken k h₁ (by omega)) (by omega) (.inl (by omega)), ← hd,
    probe_of_taken_last (htaken _ hlast (by omega))]
  congr 2
  omega

/-- With no key below the range, the first key of the map is the first key of the range. -/
theorem nodesFrom_startPid (h : ∀ k < startPid, ¬s.Taken k) :
    s.nodesFrom startPid = s.qnxMap.toList := by
  apply List.filter_eq_self.2
  rintro ⟨k, node⟩ hmem
  have hk := mt (h k) (not_not.2 (taken_iff.2 ⟨node, hmem⟩))
  simp only [decide_eq_true_eq]
  omega

/-- A key below the range hides whether `m_start_pid` is taken. -/
theorem head_ne_of_taken_below (h : ∃ k < startPid, s.Taken k) :
    ∀ x ∈ s.qnxMap.toList.head?, x.1 ≠ startPid := by
  obtain ⟨k, hk, htaken⟩ := h
  obtain ⟨node, hmem⟩ := taken_iff.1 htaken
  intro x hx
  have hsorted := s.sorted_toList
  cases hlist : s.qnxMap.toList with
  | nil =>
      rw [hlist] at hx
      cases hx
  | cons y l =>
      rw [hlist] at hx hmem hsorted
      cases hx
      rcases List.mem_cons.1 hmem with rfl | hmem
      · exact Int.ne_of_lt hk
      · have := (List.pairwise_cons.1 hsorted).1 _ hmem
        dsimp only at this
        omega

/-! ## `alloc_empty` -/

/-- Every pid of the range is taken. -/
def Full (s : PidMap) : Prop := ∀ k, startPid ≤ k → k ≤ lastPid → s.Taken k

/-- The search goes around the end of the range and lands on a taken `m_start_pid`, which a key
below the range hides from it. -/
structure WrapsOntoTaken (s : PidMap) (hostPid : Int) : Prop where
  collides : s.Taken (compressPid hostPid)
  wraps : ∀ k, randomizePid hostPid ≤ k → k ≤ lastPid → s.Taken k
  not_start : randomizePid hostPid ≠ startPid
  taken : s.Taken startPid
  hidden : ∃ k < startPid, s.Taken k

/-- What `alloc_empty` is for. -/
def AllocEmptyCorrect (s : PidMap) (hostPid : Int) : Prop :=
  (s.Full ∧ s.allocEmpty hostPid = .error .pidMapFull) ∨
    (¬s.Full ∧ ∃ s' pid addr, s.allocEmpty hostPid = .ok (s', pid, addr) ∧
      startPid ≤ pid ∧ pid ≤ lastPid ∧ ¬s.Taken pid ∧
      (∃ node, s'.qnx pid = some node ∧ node.addr = addr ∧ node.pid.qnxPid = pid) ∧
      ∀ k, k ≠ pid → s'.qnx k = s.qnx k)

theorem exists_first_free {a b : Int} (h : ¬∀ k, a ≤ k → k ≤ b → s.Taken k) :
    ∃ g, a ≤ g ∧ g ≤ b ∧ ¬s.Taken g ∧ ∀ k, a ≤ k → k < g → s.Taken k := by
  have hex : ∃ d : Nat, a + d ≤ b ∧ ¬s.Taken (a + d) := by
    push Not at h
    obtain ⟨k, h₁, h₂, hfree⟩ := h
    refine ⟨(k - a).toNat, by omega, ?_⟩
    rwa [show a + ((k - a).toNat : Int) = k by omega]
  obtain ⟨hle, hfree⟩ := Nat.find_spec hex
  refine ⟨a + Nat.find hex, by omega, hle, hfree, fun k h₁ h₂ => ?_⟩
  have hmin := Nat.find_min hex (m := (k - a).toNat) (by omega)
  rw [show a + ((k - a).toNat : Int) = k by omega] at hmin
  by_contra hk
  exact hmin ⟨by omega, hk⟩

theorem find_of_taken (h : s.Taken k) : s.find k = s.nodesFrom k :=
  if_pos (Std.TreeMap.mem_iff_contains.1 h)

/-- The fuel of the search. -/
theorem toNat_range : ((lastPid - startPid + 1).toNat : Int) = lastPid - startPid + 1 := by decide

theorem choosePid_of_wraps {hostPid : Int} (h : s.WrapsOntoTaken hostPid) :
    s.choosePid hostPid = .ok startPid := by
  obtain ⟨hlo, hhi⟩ := randomizePid_mem hostPid
  have hrange := toNat_range
  rw [choosePid, if_pos (Std.TreeMap.mem_iff_contains.1 h.collides),
    find_of_taken (h.wraps _ (by omega) hhi), probe_wrap hhi h.wraps (by omega),
    if_neg (Ne.symm h.not_start)]
  exact probe_of_head_ne _ (head_ne_of_taken_below h.hidden)

/-- The search after it wrapped around, when the first key of the map is not below the range or
`m_start_pid` is free. -/
theorem probe_begin {start : Int} {n : Nat} (hlo : startPid < start) (hhi : start ≤ lastPid)
    (htaken : ∀ k, start ≤ k → k ≤ lastPid → s.Taken k)
    (hok : s.Taken startPid → ∀ k < startPid, ¬s.Taken k) (hn : start - startPid ≤ n) :
    (∃ g, s.probe start n startPid s.qnxMap.toList = .ok g ∧
      startPid ≤ g ∧ g ≤ lastPid ∧ ¬s.Taken g) ∨
      (s.probe start n startPid s.qnxMap.toList = .error .pidMapFull ∧ s.Full) := by
  by_cases hstart : s.Taken startPid
  · rw [← nodesFrom_startPid (hok hstart)]
    by_cases hall : ∀ k, startPid ≤ k → k ≤ start - 1 → s.Taken k
    · refine .inr ⟨probe_full hlo hhi (fun k h₁ h₂ => hall k h₁ (by omega)) hn, fun k h₁ h₂ => ?_⟩
      by_cases hk : k < start
      · exact hall k h₁ (by omega)
      · exact htaken k (by omega) h₂
    · obtain ⟨g, hg₁, hg₂, hfree, hbelow⟩ := exists_first_free hall
      exact .inl ⟨g, probe_free hg₁ (by omega) hbelow hfree (by omega) (by omega), hg₁, by omega,
        hfree⟩
  · refine .inl ⟨startPid, ?_, by omega, by omega, hstart⟩
    exact probe_of_head_ne n (head_ne_of_not_taken (List.Subset.refl _) hstart)

/-- Otherwise the search finds a free pid if there is one. -/
theorem choosePid_of_not_wraps {hostPid : Int} (hhost : -1 ≤ hostPid)
    (h : ¬s.WrapsOntoTaken hostPid) :
    (∃ pid, s.choosePid hostPid = .ok pid ∧ startPid ≤ pid ∧ pid ≤ lastPid ∧ ¬s.Taken pid) ∨
      (s.choosePid hostPid = .error .pidMapFull ∧ s.Full) := by
  obtain ⟨hclo, hchi⟩ := compressPid_mem hhost
  obtain ⟨hlo, hhi⟩ := randomizePid_mem hostPid
  have hrange := toNat_range
  unfold choosePid
  by_cases hcoll : s.Taken (compressPid hostPid)
  swap
  · rw [if_neg (mt Std.TreeMap.mem_iff_contains.2 hcoll)]
    exact .inl ⟨_, rfl, hclo, hchi, hcoll⟩
  rw [if_pos (Std.TreeMap.mem_iff_contains.1 hcoll)]
  by_cases hall : ∀ k, randomizePid hostPid ≤ k → k ≤ lastPid → s.Taken k
  · rw [find_of_taken (hall _ (by omega) hhi), probe_wrap hhi hall (by omega)]
    by_cases hstart : startPid = randomizePid hostPid
    · rw [if_pos hstart]
      exact .inr ⟨rfl, fun k h₁ h₂ => hall k (by omega) h₂⟩
    · rw [if_neg hstart]
      apply probe_begin (by omega) hhi hall _ (by omega)
      intro hstart' k hk htaken
      exact h ⟨hcoll, hall, Ne.symm hstart, hstart', k, hk, htaken⟩
  · obtain ⟨g, hg₁, hg₂, hfree, hbelow⟩ := exists_first_free hall
    refine .inl ⟨g, ?_, by omega, hg₂, hfree⟩
    by_cases hstart : s.Taken (randomizePid hostPid)
    · rw [find_of_taken hstart]
      exact probe_free hg₁ hg₂ hbelow hfree (.inl (by omega)) (by omega)
    · have hg : g = randomizePid hostPid := by
        by_contra hne
        exact hstart (hbelow _ (by omega) (by omega))
      rw [find, if_neg (mt Std.TreeMap.mem_iff_contains.2 hstart), hg]
      exact probe_of_head_ne _ (by simp)

/-- Creating the entry touches its own key only. -/
theorem createEmpty_spec (s : PidMap) (pid : Int) :
    (∃ node, (s.createEmpty pid).1.qnx pid = some node ∧ node.addr = (s.createEmpty pid).2 ∧
      node.pid.qnxPid = pid) ∧
    ∀ k, k ≠ pid → (s.createEmpty pid).1.qnx k = s.qnx k := by
  unfold createEmpty qnx
  split <;>
  · refine ⟨⟨_, Std.TreeMap.getElem?_insert_self, rfl, rfl⟩, fun k hk => ?_⟩
    rw [Std.TreeMap.getElem?_insert, if_neg]
    simpa using Ne.symm hk

/-- `alloc_empty` returns a fresh entry of the range, or throws `PidMapFull` when there is none,
exactly when its search does not wrap around onto a taken `m_start_pid`. -/
theorem allocEmpty_correct_iff (s : PidMap) {hostPid : Int} (hhost : -1 ≤ hostPid) :
    s.AllocEmptyCorrect hostPid ↔ ¬s.WrapsOntoTaken hostPid := by
  constructor
  · intro hcorrect hwraps
    have hpid := choosePid_of_wraps hwraps
    rcases hcorrect with ⟨-, hfull⟩ | ⟨-, s', pid, addr, hok, -, -, hfree, -⟩
    · rw [allocEmpty, hpid] at hfull
      cases hfull
    · rw [allocEmpty, hpid] at hok
      cases hok
      exact hfree hwraps.taken
  · intro hwraps
    rcases choosePid_of_not_wraps hhost hwraps with ⟨pid, hpid, h₁, h₂, hfree⟩ | ⟨hpid, hfull⟩
    · obtain ⟨hnode, hframe⟩ := s.createEmpty_spec pid
      refine .inr ⟨fun hfull => hfree (hfull pid h₁ h₂), _, pid, _, ?_, h₁, h₂, hfree, hnode, hframe⟩
      rw [allocEmpty, hpid]
      rfl
    · refine .inl ⟨hfull, ?_⟩
      rw [allocEmpty, hpid]
      rfl

theorem allocEmpty_correct_reserved : reserved.AllocEmptyCorrect 4711 :=
  (allocEmpty_correct_iff reserved (by decide)).2 fun h => by
    have := h.collides
    revert this
    decide +kernel

/-- With children 10, 21307 and 32767, a child with host pid 54065 gets the pid of child 10. -/
theorem allocEmpty_wraps_onto_taken :
    let s := ((reserved.after (.child 10)).after (.child 21307)).after (.child 32767)
    Reachable s ∧ ¬s.AllocEmptyCorrect 54065 := by
  intro s
  have hpid : s.choosePid 54065 = .ok 10 := by decide +kernel
  have htaken : s.Taken 10 := by decide +kernel
  refine ⟨?_, ?_⟩
  · have h₁ : Reachable (reserved.after (.child 10)) := run_after .refl _ (by decide) trivial
    have h₂ := run_after h₁ (.child 21307) (by decide) trivial
    exact run_after h₂ (.child 32767) (by decide) trivial
  · rintro (⟨-, hfull⟩ | ⟨-, s', pid, addr, hok, -, -, hfree, -⟩)
    · rw [allocEmpty, hpid] at hfull
      cases hfull
    · rw [allocEmpty, hpid] at hok
      cases hok
      exact hfree htaken

end PidMap
end Qine

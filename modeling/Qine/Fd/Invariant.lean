import Qine.Fd.Messages

/-!
# Guest descriptors are host descriptors

`FdInv` is the correspondence the descriptor map is built on: a host descriptor is open exactly when
the guest descriptor of the same number is attached and open, and then the entry refers to it.
`fdInv_of_run` shows that every run keeps it, from the state `scan_host_fds` builds, as long as

* only descriptors that are not open are detached: `IdMap::free` gives up the entry without
  destroying it, and the host descriptor behind it stays open;
* the temporary descriptor of an open is not host descriptor 0, which `UniqueFd` never closes;
* the ends of a pipe do not collide with the numbers the host gives out (see `Qine.Fd.AssignFds`).
-/

namespace Qine

variable {φ : Type} {s : FdState φ}

/-- Host descriptor `n` is open exactly when slot `n` is attached and open, and then the entry has
that host descriptor. -/
structure FdInv (s : FdState φ) : Prop where
  number : ∀ n e, s.fds.get n = some e → e.fd = n
  opened : ∀ n, (s.host.get n).isSome = true ↔ ∃ e, s.fds.get n = some e ∧ e.isOpen = true
  hostFd : ∀ n e, s.fds.get n = some e → e.isOpen = true → e.hostFd = n

/-- The invariant slot by slot: a slot is as it was, on both sides, or its new entry agrees with the
host. -/
theorem FdInv.of_slots (hinv : FdInv s) {fds : FdMap} {host : HostFds φ}
    (h : ∀ n, (fds.get n = s.fds.get n ∧ (host.get n).isSome = (s.host.get n).isSome) ∨
      ∃ e, fds.get n = some e ∧ e.fd = n ∧ (host.get n).isSome = e.isOpen ∧
        (e.isOpen = true → e.hostFd = n)) : FdInv ⟨fds, host⟩ where
  number := by
    intro n e he
    rcases h n with ⟨hfds, -⟩ | ⟨e', hfds, hnum, -⟩
    · exact hinv.number n e (hfds ▸ he)
    · rw [show fds.get n = some e from he] at hfds
      cases hfds
      exact hnum
  opened := by
    intro n
    rcases h n with ⟨hfds, hhost⟩ | ⟨e', hfds, -, hopen, -⟩
    · show (host.get n).isSome = true ↔ ∃ e, fds.get n = some e ∧ _
      rw [hhost, hfds]
      exact hinv.opened n
    · show (host.get n).isSome = true ↔ ∃ e, fds.get n = some e ∧ _
      rw [hopen, hfds]
      simp
  hostFd := by
    intro n e he hopen
    rcases h n with ⟨hfds, -⟩ | ⟨e', hfds, -, -, hnum⟩
    · exact hinv.hostFd n e (hfds ▸ he) hopen
    · rw [show fds.get n = some e from he] at hfds
      cases hfds
      exact hnum hopen

theorem getAttachedFd_eq_ok {fds : FdMap} {n : Nat} {e : QnxFd} :
    fds.getAttachedFd n = .ok e ↔ fds.get n = some e := by
  unfold FdMap.getAttachedFd
  split <;> simp_all

theorem getOpenFd_eq_ok {fds : FdMap} {n : Nat} {e : QnxFd} :
    fds.getOpenFd n = .ok e ↔ fds.get n = some e ∧ e.isOpen = true := by
  unfold FdMap.getOpenFd
  rw [← getAttachedFd_eq_ok]
  cases h : fds.getAttachedFd n with
  | error err => simp [bind, Except.bind]
  | ok e' =>
      simp only [bind, Except.bind]
      split
      · next hopen =>
          refine ⟨fun hh => ?_, fun hh => hh.1⟩
          cases hh
          exact ⟨rfl, hopen⟩
      · next hopen =>
          refine ⟨fun hh => (by cases hh), fun hh => ?_⟩
          cases hh.1
          exact absurd hh.2 hopen

/-! ## Attaching and detaching -/

theorem FdInv.attach {s' : FdState φ} (hinv : FdInv s) {first : Nat} {nid pid vid : Int}
    {flags : BitVec 16} (h : s.procFdAttach first nid pid vid flags = .ok s') : FdInv s' := by
  unfold FdState.procFdAttach at h
  split at h
  · next fds n hattach =>
      cases h
      unfold FdMap.qnxFdAttach IdMap.allocStartingAt at hattach
      split at hattach
      · cases hattach
      · split at hattach
        · cases hattach
        · next i hsearch =>
            cases hattach
            have hfree := IdMap.search_free hsearch
            have hclosed : (s.host.get n).isSome = false := by
              rw [Bool.eq_false_iff]
              intro hopen
              obtain ⟨e, he, -⟩ := (hinv.opened n).1 hopen
              rw [hfree] at he
              cases he
            apply hinv.of_slots
            intro k
            rw [IdMap.get_emplace]
            by_cases hk : n = k
            · subst hk
              exact .inr ⟨_, if_pos rfl, rfl, hclosed, fun h => (by cases h)⟩
            · exact .inl ⟨if_neg hk, rfl⟩
  · cases h
  · cases h
    exact hinv

/-- Detaching a descriptor that is not open. -/
theorem FdInv.detach (hinv : FdInv s) {n : Nat}
    (hclosed : ∀ e, s.fds.get n = some e → e.isOpen = false) : FdInv (s.procFdDetach n) where
  number := by
    intro k e he
    rw [FdState.procFdDetach, FdMap.qnxFdDetach, IdMap.get_free] at he
    split at he
    · cases he
    · exact hinv.number k e he
  opened := by
    intro k
    rw [FdState.procFdDetach, FdMap.qnxFdDetach, IdMap.get_free]
    show (s.host.get k).isSome = true ↔ _
    rw [hinv.opened k]
    split
    · next hk =>
        subst hk
        constructor
        · rintro ⟨e, he, hopen⟩
          rw [hclosed e he] at hopen
          cases hopen
        · rintro ⟨e, he, -⟩
          cases he
    · exact Iff.rfl
  hostFd := by
    intro k e he hopen
    rw [FdState.procFdDetach, FdMap.qnxFdDetach, IdMap.get_free] at he
    split at he
    · cases he
    · exact hinv.hostFd k e he hopen

/-! ## Opening, closing and duplicating -/

theorem FdInv.host_eq_none (hinv : FdInv s) {n : Nat} {e : QnxFd} (he : s.fds.get n = some e)
    (hopen : e.isOpen = false) : s.host.get n = none := by
  by_contra hsome
  obtain ⟨e', he', hopen'⟩ := (hinv.opened n).1 (Option.isSome_iff_ne_none.2 hsome)
  rw [he] at he'
  cases he'
  rw [hopen] at hopen'
  cases hopen'

/-- `assign_fd` opens the number of the entry, and leaves the handle empty if it had that number. -/
theorem assignFd_spec {host : HostFds φ} {e : QnxFd} {tmp : Nat} {d : HostFd φ}
    (hclosed : e.isOpen = false) (hd : host.get tmp = some d) :
    ∃ host', e.assignFd host tmp =
        .ok (host', { e with isOpen := true, hostFd := e.fd },
          if tmp = e.fd then (-1 : Int) else tmp) ∧
      (∀ k, (host'.get k).isSome = if k = e.fd then true else (host.get k).isSome) := by
  by_cases hsame : tmp = e.fd
  · have hopen : (host.get e.fd).isSome = true := by rw [← hsame, hd]; rfl
    obtain ⟨host', hfinish, hfile, -⟩ := e.finish_spec host e.fd hopen
    refine ⟨host', ?_, fun k => ?_⟩
    · simp [QnxFd.assignFd, hclosed, hsame, hfinish, bind, Except.bind, pure, Except.pure]
    · rw [← Option.isSome_map (f := (·.file)), hfile, Option.isSome_map]
      split
      · next hk => rw [hk, hopen]
      · rfl
  · have hlookup : host.lookup tmp = some d := by
      unfold HostFds.lookup
      rw [if_neg (by omega), Int.toNat_natCast, hd]
    have hput : ((host.put e.fd (some ⟨d.file, false⟩)).get e.fd).isSome = true := by
      rw [Slots.get_put, if_pos rfl]
      rfl
    obtain ⟨host', hfinish, hfile, -⟩ := e.finish_spec _ e.fd hput
    refine ⟨host', ?_, fun k => ?_⟩
    · have hne : (tmp : Int) ≠ (e.fd : Nat) := by omega
      simp [QnxFd.assignFd, hclosed, hsame, hne, HostFds.dup2, hlookup, hfinish, bind, Except.bind,
        pure, Except.pure]
    · rw [← Option.isSome_map (f := (·.file)), hfile, Option.isSome_map, Slots.get_put]
      split <;> rfl

/-- Storing an open entry in a slot whose host descriptor has become open. -/
theorem FdInv.store_open (hinv : FdInv s) {n : Nat} {e₀ e : QnxFd} {host : HostFds φ}
    (he₀ : s.fds.get n = some e₀) (hnum : e.fd = n) (hopen : e.isOpen = true) (hfd : e.hostFd = n)
    (hhost : ∀ k, (host.get k).isSome = if k = n then true else (s.host.get k).isSome) :
    FdInv ⟨s.fds.store n e, host⟩ := by
  apply hinv.of_slots
  intro k
  rw [IdMap.get_store (by rw [he₀]; rfl)]
  by_cases hk : n = k
  · subst hk
    exact .inr ⟨e, if_pos rfl, hnum, by rw [hhost, if_pos rfl, hopen], fun _ => hfd⟩
  · exact .inl ⟨if_neg hk, by rw [hhost, if_neg (Ne.symm hk)]⟩

/-- The temporary descriptor of an open is gone afterwards, unless it is host descriptor 0. -/
theorem FdInv.open {s' : FdState φ} (hinv : FdInv s) {n : Nat} {path : PathInfo} {file : φ}
    (hzero : (s.host.get 0).isSome = true ∨ n = 0) (h : s.ioOpen n path file = .ok s') :
    FdInv s' := by
  unfold FdState.ioOpen at h
  cases he : s.fds.getAttachedFd n with
  | error err =>
      rw [he] at h
      cases h
  | ok e =>
      rw [he] at h
      dsimp only [bind, Except.bind, HostFds.openFile] at h
      have hget := getAttachedFd_eq_ok.1 he
      have hfree := (s.host.lowestFree_spec).1
      generalize s.host.lowestFree = tmp at h hfree
      obtain ⟨e', he'⟩ : ∃ e', e' = ({ e with path := path } : QnxFd) := ⟨_, rfl⟩
      have hnum : e'.fd = n := he' ▸ hinv.number n e hget
      rw [← he'] at h
      cases hopen : e'.isOpen with
      | true =>
          simp only [QnxFd.assignFd, hopen, if_true] at h
          cases h
      | false =>
          have htmp : (s.host.put tmp (some ⟨file, false⟩)).get tmp = some ⟨file, false⟩ := by
            rw [Slots.get_put, if_pos rfl]
          obtain ⟨host', hassign, hhost⟩ := assignFd_spec hopen htmp
          rw [hassign] at h
          cases h
          refine hinv.store_open hget hnum rfl (congrArg _ hnum) fun k => ?_
          rw [hnum] at hhost
          by_cases hsame : tmp = n
          · show (Slots.get (UniqueFd.close host' (if tmp = e'.fd then (-1 : Int) else tmp)) k).isSome = _
            rw [if_pos (hsame.trans hnum.symm)]
            show (host'.get k).isSome = _
            rw [hhost, Slots.get_put, hsame]
            split <;> rfl
          · have hpos : tmp ≠ 0 := by
              rintro rfl
              rcases hzero with h0 | h0
              · rw [hfree] at h0
                cases h0
              · exact hsame h0.symm
            show (Slots.get (UniqueFd.close host' (if tmp = e'.fd then (-1 : Int) else tmp)) k).isSome = _
            rw [if_neg (fun h => hsame (h.trans hnum)), UniqueFd.get_close]
            by_cases hk : k = tmp
            · rw [if_pos ⟨hk, hpos⟩, hk, if_neg hsame, hfree]
            · rw [if_neg (fun hh => hk hh.1), hhost, Slots.get_put, if_neg hk]

theorem FdInv.close {s' : FdState φ} (hinv : FdInv s) {n : Nat} (h : s.ioClose n = .ok s') :
    FdInv s' ∧ (∃ e, s'.fds.get n = some e ∧ e.isOpen = false) ∧
      ∀ k, k ≠ n → s'.fds.get k = s.fds.get k := by
  unfold FdState.ioClose at h
  cases he : s.fds.getOpenFd n with
  | error err =>
      rw [he] at h
      cases h
  | ok e =>
      rw [he] at h
      obtain ⟨hget, hopen⟩ := getOpenFd_eq_ok.1 he
      have hfd := hinv.hostFd n e hget hopen
      dsimp only [bind, Except.bind] at h
      unfold QnxFd.close at h
      rw [hopen, hfd] at h
      split at h
      · cases h
      · next v hclose =>
          split at hclose
          · cases hclose
          split at hclose
          · cases hclose
          cases hclose
          cases h
          have hstore := fun k => IdMap.get_store (t := s.fds) (i := n) (by rw [hget]; rfl) k
            ({ e with isOpen := false, hostDir := false, hostFd := -1 } : QnxFd)
          refine ⟨hinv.of_slots fun k => ?_, ⟨_, (hstore n).trans (if_pos rfl), rfl⟩, fun k hk => ?_⟩
          · rw [hstore, HostFds.close, Int.toNat_natCast, Slots.get_put]
            by_cases hk : n = k
            · subst hk
              exact .inr ⟨_, if_pos rfl, hinv.number n e hget, by rw [if_pos rfl]; rfl,
                fun h => (by cases h)⟩
            · exact .inl ⟨if_neg hk, by rw [if_neg (Ne.symm hk)]⟩
          · exact (hstore k).trans (if_neg (Ne.symm hk))

/-- Duplicating onto a descriptor that is not open. -/
theorem FdInv.dup_closed (hinv : FdInv s) {n : Nat} {src dst : QnxFd} {host : HostFds φ}
    (hdst : s.fds.get n = some dst) (hclosed : dst.isOpen = false)
    (hdup : s.host.dup2 src.hostFd dst.fd = some host) :
    ∃ host' dst', dst.assignFd host dst.fd = .ok (host', dst', -1) ∧
      FdInv ⟨s.fds.store n { dst' with hostFd := n }, host'⟩ := by
  have hnum := hinv.number n dst hdst
  have hnone := hinv.host_eq_none hdst hclosed
  -- the source is open, so it is not the destination
  obtain ⟨d, hput⟩ : ∃ d, host = s.host.put dst.fd (some d) := by
    unfold HostFds.dup2 at hdup
    cases hlookup : s.host.lookup src.hostFd with
    | none =>
        rw [hlookup] at hdup
        cases hdup
    | some d =>
        rw [hlookup] at hdup
        have hne : src.hostFd ≠ dst.fd := by
          intro heq
          unfold HostFds.lookup at hlookup
          rw [heq, if_neg (by omega), Int.toNat_natCast, hnum, hnone] at hlookup
          cases hlookup
        rw [Option.map_some, if_neg hne] at hdup
        exact ⟨_, (Option.some.inj hdup).symm⟩
  have hget : host.get dst.fd = some d := by rw [hput, Slots.get_put, if_pos rfl]
  obtain ⟨host', hassign, hhost⟩ := assignFd_spec hclosed hget
  rw [if_pos rfl] at hassign
  refine ⟨host', _, hassign, hinv.store_open hdst hnum rfl rfl fun k => ?_⟩
  rw [hhost, hput, Slots.get_put, hnum]
  split <;> rfl

theorem FdInv.dup {s' : FdState φ} (hinv : FdInv s) {srcFd dstFd : Nat}
    (h : s.ioDup srcFd dstFd = .ok s') : FdInv s' := by
  unfold FdState.ioDup at h
  obtain ⟨-, -, h⟩ := bind_eq_ok.1 h
  obtain ⟨dst₀, hdst₀, h⟩ := bind_eq_ok.1 h
  obtain ⟨s₁, hs₁, h⟩ := bind_eq_ok.1 h
  obtain ⟨src, -, h⟩ := bind_eq_ok.1 h
  obtain ⟨dst, hdst, h⟩ := bind_eq_ok.1 h
  rw [getAttachedFd_eq_ok] at hdst hdst₀
  obtain ⟨hinv₁, hclosed⟩ : FdInv s₁ ∧ dst.isOpen = false := by
    unfold FdState.closeIfOpen at hs₁
    split at hs₁
    · obtain ⟨hinv₁, ⟨e, he, hopen⟩, -⟩ := hinv.close hs₁
      rw [hdst] at he
      cases he
      exact ⟨hinv₁, hopen⟩
    · next hopen =>
        cases hs₁
        rw [hdst₀] at hdst
        cases hdst
        exact ⟨hinv, by simpa using hopen⟩
  split at h
  · cases h
  · next host hdup =>
      obtain ⟨host', dst', hassign, hinv'⟩ := hinv₁.dup_closed hdst hclosed hdup
      rw [hassign] at h
      cases h
      exact hinv'

/-! ## Pipes -/

/-- The host with a new pipe. -/
def pipeHosts (host : HostFds φ) (fileIn fileOut : φ) : HostFds φ :=
  (HostFds.openFile (host.openFile fileIn).1 fileOut).1

/-- The two numbers the host gives to a new pipe. -/
def pipeNumbers (host : HostFds φ) (fileIn fileOut : φ) : Nat × Nat :=
  ((host.openFile fileIn).2, (HostFds.openFile (host.openFile fileIn).1 fileOut).2)

theorem pipeNumbers_spec (host : HostFds φ) (fileIn fileOut : φ) :
    host.get (pipeNumbers host fileIn fileOut).1 = none ∧
    host.get (pipeNumbers host fileIn fileOut).2 = none ∧
    (pipeNumbers host fileIn fileOut).1 < (pipeNumbers host fileIn fileOut).2 := by
  have hfirst := host.lowestFree_spec
  have hsecond := (Slots.lowestFree_spec (host.put host.lowestFree (some ⟨fileIn, false⟩))).1
  show host.get host.lowestFree = none ∧ host.get (Slots.lowestFree (host.put _ _)) = none ∧
    host.lowestFree < Slots.lowestFree (host.put _ _)
  generalize (host.put host.lowestFree (some ⟨fileIn, false⟩)).lowestFree = second at hsecond ⊢
  rw [Slots.get_put] at hsecond
  split at hsecond
  · cases hsecond
  · next hne =>
      refine ⟨hfirst.1, hsecond, ?_⟩
      by_contra hle
      exact hfirst.2 second (by omega) hsecond

theorem get_pipeHosts (host : HostFds φ) (fileIn fileOut : φ) (k : Nat) :
    (pipeHosts host fileIn fileOut).get k =
      if k = (pipeNumbers host fileIn fileOut).2 then some ⟨fileOut, false⟩
      else if k = (pipeNumbers host fileIn fileOut).1 then some ⟨fileIn, false⟩ else host.get k := by
  unfold pipeHosts pipeNumbers HostFds.openFile
  rw [Slots.get_put, Slots.get_put]

/-- When the ends of a pipe do not get in the way of the numbers `hostIn < hostOut` of its host
descriptors. -/
structure PipeApart (fdIn fdOut hostIn hostOut : Nat) : Prop where
  apart : fdIn ≠ hostOut
  zero : hostIn = 0 → fdIn = 0 ∨ fdOut = 0
  same : fdIn = fdOut → fdIn ≠ hostIn

/-- `assign_fds` has moved both ends of a pipe to their numbers and left no others open. -/
def PipeAssigned (host : HostFds φ) (eIn eOut : QnxFd) (hostIn hostOut : Nat) : Prop :=
  ∃ host', FdMap.assignFds host [eIn, eOut] [hostIn, hostOut] =
      .ok (host', [{ eIn with isOpen := true, hostFd := eIn.fd },
        { eOut with isOpen := true, hostFd := eOut.fd }]) ∧
    ∀ k, (host'.get k).isSome = if k = eIn.fd ∨ k = eOut.fd then true
      else if k = hostIn ∨ k = hostOut then false else (host.get k).isSome

variable {host : HostFds φ} {hostIn hostOut : Nat} {eIn eOut : QnxFd}

/-- The two ends of a pipe with different numbers. -/
theorem assignFds_two (h : PipeApart eIn.fd eOut.fd hostIn hostOut) (hne : eIn.fd ≠ eOut.fd)
    (hlt : hostIn < hostOut) (hIn : (host.get hostIn).isSome = true)
    (hOut : (host.get hostOut).isSome = true) :
    PipeAssigned host eIn eOut hostIn hostOut := by
  have hvalid : Moves.Valid host [(eIn, hostIn), (eOut, hostOut)] :=
    ⟨by simpa [target] using hne, by simpa using Nat.ne_of_lt hlt, by simp [hIn, hOut]⟩
  have hcoll : Moves.NoCollision [(eIn, hostIn), (eOut, hostOut)] := by
    simpa [Moves.NoCollision, target] using h.apart
  obtain ⟨host', hok, hmoved, hclosed, hframe⟩ := assignFds_of_noCollision hvalid hcoll
  refine ⟨host', hok, fun k => ?_⟩
  have hsome : ∀ m ∈ [(eIn, hostIn), (eOut, hostOut)], (host'.get (target m)).isSome = true := by
    intro m hm
    rw [← Option.isSome_map (f := (·.file)), hmoved m hm, Option.isSome_map]
    exact hvalid.opened m hm
  by_cases hk : k = eIn.fd ∨ k = eOut.fd
  · rw [if_pos hk]
    rcases hk with rfl | rfl
    · exact hsome (eIn, hostIn) (by simp)
    · exact hsome (eOut, hostOut) (by simp)
  rw [if_neg hk]
  have htargets : ∀ m ∈ [(eIn, hostIn), (eOut, hostOut)], target m ≠ k := by
    intro m hm heq
    simp only [List.mem_cons, List.not_mem_nil, or_false] at hm
    rcases hm with rfl | rfl
    · exact hk (.inl heq.symm)
    · exact hk (.inr heq.symm)
  by_cases hsource : k = hostIn ∨ k = hostOut
  · rw [if_pos hsource]
    have hzero : k ≠ 0 := by
      intro h0
      have := h.zero
      omega
    rcases hsource with rfl | rfl
    · rw [hclosed (eIn, k) (by simp) hzero htargets]
      rfl
    · rw [hclosed (eOut, k) (by simp) hzero htargets]
      rfl
  · rw [if_neg hsource, hframe k htargets (.inl ?_)]
    intro m hm heq
    simp only [List.mem_cons, List.not_mem_nil, or_false] at hm
    rcases hm with rfl | rfl
    · exact hsource (.inl heq.symm)
    · exact hsource (.inr heq.symm)

/-- The host after the ends of a pipe were moved one after the other. -/
def movedEnds (host : HostFds φ) (fdIn fdOut hostIn hostOut : Nat) (d d' : HostFd φ) : HostFds φ :=
  UniqueFd.close ((UniqueFd.close (host.put fdIn (some ⟨d.file, false⟩)) hostIn).put fdOut
    (some ⟨d'.file, false⟩)) hostOut

theorem isSome_movedEnds (host : HostFds φ) {fdIn fdOut : Nat} (d d' : HostFd φ) (heq : fdIn = fdOut)
    (hne : fdIn ≠ hostOut) (hzero : hostIn ≠ 0) (hlt : hostIn < hostOut) (k : Nat) :
    ((movedEnds host fdIn fdOut hostIn hostOut d d').get k).isSome =
      if k = fdIn ∨ k = fdOut then true
      else if k = hostIn ∨ k = hostOut then false else (host.get k).isSome := by
  rw [movedEnds, UniqueFd.get_close, Slots.get_put, UniqueFd.get_close, Slots.get_put, ← heq]
  by_cases hk : k = fdIn
  · rw [if_neg (fun hh => hne (hk ▸ hh.1)), if_pos hk, if_pos (.inl hk)]
    rfl
  · by_cases hkIn : k = hostIn
    · rw [if_neg (by omega), if_neg hk, if_pos ⟨hkIn, hzero⟩, if_neg (by omega), if_pos (.inl hkIn)]
      rfl
    · by_cases hkOut : k = hostOut
      · rw [if_pos ⟨hkOut, by omega⟩, if_neg (by omega), if_pos (.inr hkOut)]
        rfl
      · rw [if_neg (by omega), if_neg hk, if_neg (by omega), if_neg hk, if_neg (by omega),
          if_neg (by omega)]

/-- A pipe whose two ends are one descriptor: the second end replaces the first. -/
theorem assignFds_one (h : PipeApart eIn.fd eOut.fd hostIn hostOut) (heq : eIn.fd = eOut.fd)
    (hlt : hostIn < hostOut) (hIn : (host.get hostIn).isSome = true)
    (hOut : (host.get hostOut).isSome = true) :
    PipeAssigned host eIn eOut hostIn hostOut := by
  obtain ⟨d, hd⟩ := Option.isSome_iff_exists.1 hIn
  obtain ⟨d', hd'⟩ := Option.isSome_iff_exists.1 hOut
  have hneIn : eIn.fd ≠ hostIn := h.same heq
  have hneOut : eIn.fd ≠ hostOut := h.apart
  have hzero : hostIn ≠ 0 := by
    have := h.zero
    omega
  have hkey : storeIndices [(hostIn : Int), hostOut] 0 (fun _ => none) eIn.fd = none := by
    by_contra hkey
    rcases storeIndices_ne_none.1 hkey with hmem | hnone
    · simp only [List.mem_cons, List.not_mem_nil, or_false] at hmem
      omega
    · exact hnone rfl
  have hstep₁ := assignStep_move
    ⟨host, [(hostIn : Int), hostOut], storeIndices [(hostIn : Int), hostOut] 0 fun _ => none⟩
    0 eIn rfl hneIn hkey hd
  -- after the first end, the second host descriptor is still in place
  have hget : (UniqueFd.close (host.put eIn.fd (some ⟨d.file, false⟩)) hostIn).get hostOut =
      some d' := by
    rw [UniqueFd.get_close, if_neg (fun hh => (Nat.ne_of_lt hlt) hh.1.symm), Slots.get_put,
      if_neg (Ne.symm hneOut), hd']
  have hkey' : Function.update (Function.update (storeIndices [(hostIn : Int), hostOut] 0
      fun _ => none) (hostIn : Int) none) (-1) (some 0) eOut.fd = none := by
    rw [← heq, Function.update_of_ne (by omega), Function.update_of_ne (by omega), hkey]
  have hstep₂ := assignStep_move
    ⟨UniqueFd.close (host.put eIn.fd (some ⟨d.file, false⟩)) hostIn, [(eIn.fd : Int), hostOut],
      Function.update (Function.update (storeIndices [(hostIn : Int), hostOut] 0 fun _ => none)
        (hostIn : Int) none) (-1) (some 0)⟩
    1 eOut rfl (heq ▸ hneOut) hkey' hget
  have hget₂ := isSome_movedEnds host d d' heq hneOut hzero hlt
  have hopen : ∀ fd ∈ [eIn, eOut],
      ((movedEnds host eIn.fd eOut.fd hostIn hostOut d d').get fd.fd).isSome = true := by
    intro fd hfd
    rw [hget₂]
    simp only [List.mem_cons, List.not_mem_nil, or_false] at hfd
    rcases hfd with rfl | rfl <;> simp
  obtain ⟨host', hfinish, hfile, -⟩ := finishLoop_spec hopen
  refine ⟨host', ?_, fun k => ?_⟩
  · dsimp only [List.set] at hstep₁ hstep₂
    show (AssignState.assignLoop [eIn, eOut] 0 _ >>= _) = _
    rw [AssignState.assignLoop, hstep₁]
    show (AssignState.assignLoop [eOut] 1 _ >>= _) = _
    rw [AssignState.assignLoop, hstep₂]
    exact hfinish
  · rw [← hget₂, ← Option.isSome_map (f := (·.file)), hfile, Option.isSome_map]

theorem FdInv.pipe {s' : FdState φ} (hinv : FdInv s) {fdIn fdOut : Nat} {fileIn fileOut : φ}
    (hapart : PipeApart fdIn fdOut (pipeNumbers s.host fileIn fileOut).1
      (pipeNumbers s.host fileIn fileOut).2)
    (h : s.fsysPipe fdIn fdOut fileIn fileOut = .ok s') : FdInv s' := by
  unfold FdState.fsysPipe at h
  obtain ⟨eIn, hIn, h⟩ := bind_eq_ok.1 h
  obtain ⟨eOut, hOut, h⟩ := bind_eq_ok.1 h
  rw [getAttachedFd_eq_ok] at hIn hOut
  obtain ⟨r, hassign, h⟩ := bind_eq_ok.1 h
  have hnumIn := hinv.number fdIn eIn hIn
  have hnumOut := hinv.number fdOut eOut hOut
  obtain ⟨hfreeIn, hfreeOut, hlt⟩ := pipeNumbers_spec s.host fileIn fileOut
  have hhost := get_pipeHosts s.host fileIn fileOut
  change FdMap.assignFds (pipeHosts s.host fileIn fileOut) [eIn, eOut]
    [((pipeNumbers s.host fileIn fileOut).1 : Int), (pipeNumbers s.host fileIn fileOut).2] =
    .ok r at hassign
  generalize pipeNumbers s.host fileIn fileOut = nums at *
  generalize pipeHosts s.host fileIn fileOut = host at *
  rw [← hnumIn, ← hnumOut] at hapart
  have hopenOut : (host.get nums.2).isSome = true := by rw [hhost, if_pos rfl]; rfl
  have hopenIn : (host.get nums.1).isSome = true := by
    rw [hhost, if_neg (Nat.ne_of_lt hlt), if_pos rfl]
    rfl
  obtain ⟨host', hok, hget⟩ : PipeAssigned host eIn eOut nums.1 nums.2 := by
    by_cases hsame : eIn.fd = eOut.fd
    · exact assignFds_one hapart hsame hlt hopenIn hopenOut
    · exact assignFds_two hapart hsame hlt hopenIn hopenOut
  rw [hok] at hassign
  cases hassign
  cases h
  rw [hnumIn, hnumOut] at hget
  have hattached : ((s.fds.store fdIn { eIn with isOpen := true, hostFd := eIn.fd }).get
      fdOut).isSome = true := by
    rw [IdMap.get_store (by rw [hIn]; rfl)]
    split
    · rfl
    · rw [hOut]
      rfl
  apply hinv.of_slots
  intro k
  rw [IdMap.get_store hattached, IdMap.get_store (by rw [hIn]; rfl)]
  by_cases hkOut : fdOut = k
  · refine .inr ⟨_, if_pos hkOut, hnumOut.trans hkOut, ?_, fun _ => ?_⟩
    · rw [hget, if_pos (.inr hkOut.symm)]
    · rw [← hkOut, ← hnumOut]
  · rw [if_neg hkOut]
    by_cases hkIn : fdIn = k
    · refine .inr ⟨_, if_pos hkIn, hnumIn.trans hkIn, ?_, fun _ => ?_⟩
      · rw [hget, if_pos (.inl hkIn.symm)]
      · rw [← hkIn, ← hnumIn]
    · refine .inl ⟨if_neg hkIn, ?_⟩
      rw [hget, if_neg (by omega)]
      split
      · next hk =>
          rcases hk with rfl | rfl
          · rw [hfreeIn]; rfl
          · rw [hfreeOut]; rfl
      · next hk => rw [hhost, if_neg (fun h => hk (.inr h)), if_neg (fun h => hk (.inl h))]

/-! ## Runs -/

/-- When a message keeps guest and host descriptors in step. -/
def FdState.Careful (s : FdState φ) : FdMsg φ → Prop
  | .fdDetach fd => ∀ e, s.fds.get fd = some e → e.isOpen = false
  | .ioOpen fd _ _ => (s.host.get 0).isSome = true ∨ fd = 0
  | .fsysPipe fdIn fdOut fileIn fileOut =>
    PipeApart fdIn fdOut (pipeNumbers s.host fileIn fileOut).1 (pipeNumbers s.host fileIn fileOut).2
  | _ => True

/-- One careful message keeps the invariant. -/
theorem FdInv.step {s' : FdState φ} (hinv : FdInv s) (h : FdState.Step FdState.Careful s s') : FdInv s' := by
  obtain ⟨msg, hcareful, hreceive⟩ := h
  unfold FdState.receive at hreceive
  split at hreceive
  · cases hreceive
    exact hinv
  · cases msg with
    | fdAttach first nid pid vid flags => exact hinv.attach hreceive
    | fdDetach fd =>
        cases hreceive
        exact hinv.detach hcareful
    | ioOpen fd path file => exact hinv.open hcareful hreceive
    | ioClose fd => exact (hinv.close hreceive).1
    | ioDup srcFd dstFd => exact hinv.dup hreceive
    | fsysPipe fdIn fdOut fileIn fileOut => exact hinv.pipe hcareful hreceive

/-- The entries `scan_host_fds` makes. -/
theorem get_scan {nid pid vid : Int} {l : List Nat} {fds fds' : FdMap}
    (h : l.foldlM (fun fds n => IdMap.allocExactlyAt fds n fun n =>
      { QnxFd.make nid pid vid 0 n with isOpen := true, hostFd := n }) fds = .ok fds') (n : Nat) :
    fds'.get n = if n ∈ l then
      some { QnxFd.make nid pid vid 0 n with isOpen := true, hostFd := n } else fds.get n := by
  induction l generalizing fds with
  | nil =>
      cases h
      rfl
  | cons k l ih =>
      rw [List.foldlM_cons] at h
      obtain ⟨fds₁, hfds₁, h⟩ := bind_eq_ok.1 h
      rw [ih h]
      obtain ⟨-, -, rfl⟩ := IdMap.allocExactlyAt_ok hfds₁
      rw [IdMap.get_emplace]
      by_cases hl : n ∈ l
      · rw [if_pos hl, if_pos (List.mem_cons_of_mem _ hl)]
      · by_cases hk : k = n
        · subst hk
          rw [if_neg hl, if_pos rfl, if_pos List.mem_cons_self]
        · rw [if_neg hl, if_neg hk, if_neg (by simp [hl, Ne.symm hk])]

/-- The state `scan_host_fds` builds. -/
theorem fdInv_scan {host : HostFds φ} {nid pid vid : Int} {fds : FdMap}
    (h : FdMap.scanHostFds host nid pid vid = .ok fds) : FdInv ⟨fds, host⟩ := by
  have hget : ∀ n, fds.get n = if n ∈ host.used then
      some { QnxFd.make nid pid vid 0 n with isOpen := true, hostFd := n } else none := by
    intro n
    rw [get_scan h]
    rfl
  have hentry : ∀ n e, fds.get n = some e →
      e = { QnxFd.make nid pid vid 0 n with isOpen := true, hostFd := n } := by
    intro n e he
    rw [hget] at he
    split at he
    · exact (Option.some.inj he).symm
    · cases he
  refine ⟨fun n e he => ?_, fun n => ?_, fun n e he _ => ?_⟩
  · rw [hentry n e he]
    rfl
  · show (host.get n).isSome = true ↔ ∃ e, fds.get n = some e ∧ e.isOpen = true
    rw [← Slots.mem_used, hget]
    split
    · next hn => exact ⟨fun _ => ⟨_, rfl, rfl⟩, fun _ => hn⟩
    · next hn => exact ⟨fun h => absurd h hn, fun ⟨_, he, _⟩ => (by cases he)⟩
  · rw [hentry n e he]

/-- From the state `scan_host_fds` builds, every run of careful messages keeps guest and host
descriptors in step. -/
theorem fdInv_of_run {host : HostFds φ} {nid pid vid : Int} {fds : FdMap}
    (hscan : FdMap.scanHostFds host nid pid vid = .ok fds)
    (hrun : Relation.ReflTransGen (FdState.Step FdState.Careful) ⟨fds, host⟩ s) : FdInv s := by
  induction hrun with
  | refl => exact fdInv_scan hscan
  | tail _ hstep ih => exact ih.step hstep

/-- A host with the three standard descriptors. -/
def stdHost : HostFds Nat := ⟨[some ⟨0, false⟩, some ⟨1, false⟩, some ⟨2, false⟩]⟩

/-- The map `scan_host_fds` builds for it. -/
def stdFds : FdMap :=
  ⟨1024 * 16, [0, 1, 2].map fun n => some { QnxFd.make 0 1 1 0 n with isOpen := true, hostFd := n }⟩

theorem scan_stdHost : FdMap.scanHostFds stdHost 0 1 1 = .ok stdFds := by decide +kernel

/-- Attaching descriptor 5 and opening a file on it. -/
theorem fdInv_after_open :
    FdInv ((FdState.after ⟨stdFds, stdHost⟩ (.fdAttach 5 0 1 1 0)).after
      (.ioOpen 5 PathInfo.empty 3)) := by
  have hattach : Relation.ReflTransGen (FdState.Step FdState.Careful) ⟨stdFds, stdHost⟩
      (FdState.after ⟨stdFds, stdHost⟩ (.fdAttach 5 0 1 1 0)) :=
    FdState.run_after .refl _ trivial
  exact fdInv_of_run scan_stdHost (FdState.run_after hattach _ (.inl (by decide +kernel)))

/-- Detaching an open descriptor leaves the host descriptor open. -/
theorem detach_open_leaks :
    FdMap.scanHostFds stdHost 0 1 1 = .ok stdFds ∧
    Relation.ReflTransGen (FdState.Step fun _ _ => True) ⟨stdFds, stdHost⟩
      (FdState.after ⟨stdFds, stdHost⟩ (.fdDetach 1)) ∧
    ¬FdInv (FdState.after ⟨stdFds, stdHost⟩ (.fdDetach 1)) := by
  refine ⟨scan_stdHost, FdState.run_after .refl _ trivial, fun hinv => ?_⟩
  obtain ⟨e, he, -⟩ := (hinv.opened 1).1 (by decide +kernel)
  revert he
  have hnone : (FdState.after ⟨stdFds, stdHost⟩ (.fdDetach 1)).fds.get 1 = none := by decide +kernel
  rw [hnone]
  intro he
  cases he

end Qine

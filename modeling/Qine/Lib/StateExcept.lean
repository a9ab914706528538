import Mathlib.Tactic.Common

/-!
# State with exceptions

In `EStateM` a computation that throws keeps the changes it has made, as a C++ routine does. Four ways
to reason about one are offered:

* inversion — what must have happened if the computation returned (`bind_ok` and its relatives);
* `Leaves` — a postcondition for returning and one for throwing, put together along the
  computation's statements;
* `Keeps` — a part of the state that no statement of the computation changes;
* `Shadows` — a computation that does what another does, and keeps notes about it.
-/

universe u

namespace EStateM

variable {ε σ α β : Type u} {x : EStateM ε σ α} {f : α → EStateM ε σ β} {s s' : σ}

/-- Run a computation that can only fail. -/
def ofExcept : Except ε α → EStateM ε σ α
  | .ok a => pure a
  | .error e => throw e

/-! ## Inversion -/

theorem bind_ok {b : β} :
    (x >>= f).run s = .ok b s' ↔ ∃ a s₁, x.run s = .ok a s₁ ∧ (f a).run s₁ = .ok b s' := by
  show EStateM.bind x f s = .ok b s' ↔ ∃ a s₁, x s = .ok a s₁ ∧ f a s₁ = .ok b s'
  unfold EStateM.bind
  cases x s with
  | ok a s₁ => simp
  | error e s₁ => simp

theorem run_bind_of_ok {a : α} {s₁ : σ} (h : x.run s = .ok a s₁) : (x >>= f).run s = (f a).run s₁ := by
  rw [run_bind, h]

@[simp] theorem pure_ok {a b : α} : (pure a : EStateM ε σ α).run s = .ok b s' ↔ a = b ∧ s = s' := by
  simp [EStateM.run, pure, EStateM.pure]

@[simp] theorem get_ok {a : σ} : (get : EStateM ε σ σ).run s = .ok a s' ↔ s = a ∧ s = s' := by
  constructor
  · rintro ⟨⟩
    exact ⟨rfl, rfl⟩
  · rintro ⟨rfl, rfl⟩
    rfl

@[simp] theorem modify_ok {g : σ → σ} {v : PUnit} :
    (modify g : EStateM ε σ PUnit).run s = .ok v s' ↔ g s = s' := by
  constructor
  · rintro ⟨⟩
    rfl
  · rintro rfl
    rfl

@[simp] theorem throw_ok {e : ε} {a : α} : (throw e : EStateM ε σ α).run s = .ok a s' ↔ False := by
  constructor
  · rintro ⟨⟩
  · exact False.elim

theorem ofExcept_ok {x : Except ε α} {a : α} :
    (ofExcept x : EStateM ε σ α).run s = .ok a s' ↔ x = .ok a ∧ s' = s := by
  cases x with
  | error e => simp [ofExcept]
  | ok b => simp [ofExcept, eq_comm]

/-! ## Running -/

theorem run_get_bind {f : σ → EStateM ε σ β} : (get >>= f).run s = (f s).run s := rfl

theorem run_modify_bind {g : σ → σ} {f : PUnit → EStateM ε σ β} :
    (modify g >>= f).run s = (f ⟨⟩).run (g s) := rfl

theorem run_ofExcept_bind {x : Except ε α} {a : α} (h : x = .ok a) :
    (ofExcept x >>= f).run s = (f a).run s := by
  rw [h]
  rfl

theorem ofExcept_bind_of_ok {x : Except ε α} {a : α} (h : x = .ok a) :
    (ofExcept x >>= f : EStateM ε σ β) = f a := by
  rw [h]
  rfl

/-- Run a computation on a part of the state. -/
def zoom {τ : Type u} (part : σ → τ) (put : τ → σ → σ) (x : EStateM ε τ α) : EStateM ε σ α := fun s =>
  match x.run (part s) with
  | .ok a t => .ok a (put t s)
  | .error e t => .error e (put t s)

theorem zoom_ok {τ : Type u} {part : σ → τ} {put : τ → σ → σ} {x : EStateM ε τ α} {a : α} {t : τ}
    (h : x.run (part s) = .ok a t) : (zoom part put x).run s = .ok a (put t s) := by
  show (match x.run (part s) with
    | .ok a t => EStateM.Result.ok a (put t s)
    | .error e t => .error e (put t s)) = .ok a (put t s)
  rw [h]

theorem zoom_error {τ : Type u} {part : σ → τ} {put : τ → σ → σ} {x : EStateM ε τ α} {e : ε} {t : τ}
    (h : x.run (part s) = .error e t) : (zoom part put x).run s = .error e (put t s) := by
  show (match x.run (part s) with
    | .ok a t => EStateM.Result.ok a (put t s)
    | .error e t => .error e (put t s)) = .error e (put t s)
  rw [h]

/-- The state after a computation, however it ends. -/
def after (x : EStateM ε σ α) (s : σ) : σ :=
  match x.run s with
  | .ok _ s' => s'
  | .error _ s' => s'

/-- The computation returns. -/
def returns (x : EStateM ε σ α) (s : σ) : Bool :=
  match x.run s with
  | .ok _ _ => true
  | .error _ _ => false

theorem returns_iff {x : EStateM ε σ α} : x.returns s = true ↔ ∃ a s', x.run s = .ok a s' := by
  unfold returns
  cases x.run s with
  | ok a s' => simp
  | error e s' => simp

theorem returns_get_bind {f : σ → EStateM ε σ β} : (get >>= f).returns s = (f s).returns s := rfl

theorem returns_bind : (x >>= f).returns s = true ↔
    ∃ a s₁, x.run s = .ok a s₁ ∧ (f a).returns s₁ = true := by
  simp only [returns_iff, bind_ok]
  constructor
  · rintro ⟨b, s', a, s₁, h₁, h₂⟩
    exact ⟨a, s₁, h₁, b, s', h₂⟩
  · rintro ⟨a, s₁, h₁, b, s', h₂⟩
    exact ⟨b, s', a, s₁, h₁, h₂⟩

theorem returns_zoom {τ : Type u} {part : σ → τ} {put : τ → σ → σ} {x : EStateM ε τ α} :
    (zoom part put x).returns s = x.returns (part s) := by
  unfold returns
  cases h : x.run (part s) with
  | ok a t => rw [@zoom_ok ε σ α s τ part put x a t h]
  | error e t => rw [@zoom_error ε σ α s τ part put x e t h]

theorem run_after {x : EStateM ε σ PUnit} (h : x.returns s = true) :
    x.run s = .ok ⟨⟩ (x.after s) := by
  unfold returns at h
  unfold after
  split at h
  · next hx => rw [hx]
  · cases h

theorem run_of_run' {a : α} (h : x.run' s = some a) : x.run s = .ok a (x.after s) := by
  unfold EStateM.run' at h
  unfold after
  split at h
  · next hx =>
      cases h
      rw [hx]
  · cases h

/-- The computation throws `e`. -/
def throws [DecidableEq ε] (x : EStateM ε σ α) (s : σ) (e : ε) : Bool :=
  match x.run s with
  | .ok _ _ => false
  | .error e' _ => e' = e

theorem run_throws [DecidableEq ε] {e : ε} (h : x.throws s e = true) :
    ∃ s', x.run s = .error e s' := by
  unfold throws at h
  split at h
  · cases h
  · next s₁ hx =>
      rw [decide_eq_true_eq] at h
      exact ⟨s₁, h ▸ hx⟩

/-! ## Postconditions -/

/-- From `s`, the computation returns with `Q` or throws with `E`. -/
structure Leaves (x : EStateM ε σ α) (s : σ) (Q : α → σ → Prop) (E : ε → σ → Prop) : Prop where
  of_ok : ∀ {a s'}, x.run s = .ok a s' → Q a s'
  of_error : ∀ {e s'}, x.run s = .error e s' → E e s'

variable {Q : α → σ → Prop} {R : β → σ → Prop} {E : ε → σ → Prop}

theorem leaves_of_ok {a : α} (hrun : x.run s = .ok a s') (h : Q a s') : x.Leaves s Q E := by
  refine ⟨fun hok => ?_, fun herr => ?_⟩
  · cases hrun.symm.trans hok
    exact h
  · cases hrun.symm.trans herr

theorem leaves_of_error {e : ε} (hrun : x.run s = .error e s') (h : E e s') : x.Leaves s Q E := by
  refine ⟨fun hok => ?_, fun herr => ?_⟩
  · cases hrun.symm.trans hok
  · cases hrun.symm.trans herr
    exact h

/-- A postcondition is about what a run does. -/
theorem Leaves.of_run {y : EStateM ε σ α} {t : σ} (hx : x.Leaves s Q E) (h : y.run t = x.run s) :
    y.Leaves t Q E := ⟨fun hy => hx.of_ok (h.symm.trans hy), fun hy => hx.of_error (h.symm.trans hy)⟩

theorem Leaves.congr {y : EStateM ε σ α} (hx : x.Leaves s Q E) (h : y.run s = x.run s) : y.Leaves s Q E :=
  hx.of_run h

theorem leaves_pure {a : α} (h : Q a s) : (pure a : EStateM ε σ α).Leaves s Q E := leaves_of_ok rfl h

theorem leaves_throw {e : ε} (h : E e s) : (throw e : EStateM ε σ α).Leaves s Q E := leaves_of_error rfl h

theorem leaves_modify {Q : PUnit → σ → Prop} {g : σ → σ} (h : Q ⟨⟩ (g s)) :
    (modify g : EStateM ε σ PUnit).Leaves s Q E := leaves_of_ok rfl h

theorem leaves_set {Q : PUnit → σ → Prop} {t : σ} (h : Q ⟨⟩ t) :
    (set t : EStateM ε σ PUnit).Leaves s Q E := leaves_of_ok rfl h

theorem leaves_ofExcept {x : Except ε α} (hok : ∀ a, x = .ok a → Q a s)
    (herr : ∀ e, x = .error e → E e s) : (ofExcept x : EStateM ε σ α).Leaves s Q E := by
  cases x with
  | ok a => exact leaves_pure (hok a rfl)
  | error e => exact leaves_throw (herr e rfl)

theorem Leaves.bind (hx : x.Leaves s Q E) (hf : ∀ a s₁, Q a s₁ → (f a).Leaves s₁ R E) :
    (x >>= f).Leaves s R E := by
  have hrun := EStateM.run_bind (s := s) x f
  cases hres : x.run s with
  | ok a s₁ =>
      rw [hres] at hrun
      exact (hf a s₁ (hx.of_ok hres)).of_run hrun
  | error e s₁ =>
      rw [hres] at hrun
      exact leaves_of_error hrun (hx.of_error hres)

theorem leaves_bind_of_ok {a : α} {s₁ : σ} (hx : x.run s = .ok a s₁) (hf : (f a).Leaves s₁ R E) :
    (x >>= f).Leaves s R E := hf.of_run (run_bind_of_ok hx)

theorem Leaves.mono {Q' : α → σ → Prop} {E' : ε → σ → Prop} (hx : x.Leaves s Q E)
    (hQ : ∀ a s₁, Q a s₁ → Q' a s₁) (hE : ∀ e s₁, E e s₁ → E' e s₁) : x.Leaves s Q' E' :=
  ⟨fun h => hQ _ _ (hx.of_ok h), fun h => hE _ _ (hx.of_error h)⟩

/-- Two postconditions hold at once. -/
theorem Leaves.and {Q' : α → σ → Prop} {E' : ε → σ → Prop} (hx : x.Leaves s Q E) (hx' : x.Leaves s Q' E') :
    x.Leaves s (fun a s' => Q a s' ∧ Q' a s') (fun e s' => E e s' ∧ E' e s') :=
  ⟨fun h => ⟨hx.of_ok h, hx'.of_ok h⟩, fun h => ⟨hx.of_error h, hx'.of_error h⟩⟩

/-- What cannot throw, returns. -/
theorem Leaves.exists_ok (h : x.Leaves s Q fun _ _ => False) : ∃ a s', x.run s = .ok a s' ∧ Q a s' := by
  cases hrun : x.run s with
  | ok a s' => exact ⟨a, s', rfl, h.of_ok hrun⟩
  | error e s' => exact (h.of_error hrun).elim

theorem leaves_zoom {τ : Type u} {part : σ → τ} {put : τ → σ → σ} {x : EStateM ε τ α}
    (hx : x.Leaves (part s) (fun a t => Q a (put t s)) (fun e t => E e (put t s))) :
    (zoom part put x).Leaves s Q E := by
  cases hres : x.run (part s) with
  | ok a t => exact leaves_of_ok (zoom_ok hres) (hx.of_ok hres)
  | error e t => exact leaves_of_error (zoom_error hres) (hx.of_error hres)

theorem leaves_get_bind {f : σ → EStateM ε σ β} (h : (f s).Leaves s R E) :
    (get >>= f).Leaves s R E := ⟨h.of_ok, h.of_error⟩

theorem leaves_modify_bind {g : σ → σ} {f : PUnit → EStateM ε σ β} (h : (f ⟨⟩).Leaves (g s) R E) :
    (modify g >>= f).Leaves s R E := ⟨h.of_ok, h.of_error⟩

theorem leaves_ofExcept_bind {x : Except ε α} (hok : ∀ a, x = .ok a → (f a).Leaves s R E)
    (herr : ∀ e, x = .error e → E e s) : (ofExcept x >>= f).Leaves s R E :=
  (leaves_ofExcept (Q := fun a s₁ => x = .ok a ∧ s₁ = s) (fun _ h => ⟨h, rfl⟩) herr).bind
    fun a _ h => h.2 ▸ hok a h.1

/-- An invariant of the rounds of a loop is one of the loop. -/
theorem leaves_forM {l : List α} {g : α → EStateM ε σ PUnit} {P : σ → Prop}
    (hround : ∀ a s, P s → (g a).Leaves s (fun _ => P) E) (h : P s) :
    (forM l g).Leaves s (fun _ => P) E := by
  induction l generalizing s with
  | nil => exact leaves_pure h
  | cons a l ih =>
      rw [List.forM_cons]
      exact (hround a s h).bind fun _ _ h₁ => ih h₁

/-! ## Keeping a part of the state -/

/-- However the computation ends, what `part` shows of the state is as before. -/
def Keeps {τ : Type u} (x : EStateM ε σ α) (part : σ → τ) : Prop :=
  ∀ s, x.Leaves s (fun _ s' => part s' = part s) (fun _ s' => part s' = part s)

section
variable {τ : Type u} {part : σ → τ}

theorem keeps_pure {a : α} : (pure a : EStateM ε σ α).Keeps part := fun _ => leaves_pure rfl

theorem keeps_throw {e : ε} : (throw e : EStateM ε σ α).Keeps part := fun _ => leaves_throw rfl

theorem keeps_get : (get : EStateM ε σ σ).Keeps part := by
  intro s
  refine ⟨?_, ?_⟩
  · rintro _ _ ⟨⟩
    rfl
  · rintro _ _ ⟨⟩

theorem keeps_modify {g : σ → σ} (h : ∀ s, part (g s) = part s) :
    (modify g : EStateM ε σ PUnit).Keeps part := fun s => leaves_modify (h s)

theorem keeps_ofExcept {x : Except ε α} : (ofExcept x : EStateM ε σ α).Keeps part :=
  fun _ => leaves_ofExcept (fun _ _ => rfl) (fun _ _ => rfl)

theorem Keeps.bind (hx : x.Keeps part) (hf : ∀ a, (f a).Keeps part) : (x >>= f).Keeps part := by
  intro s
  refine (hx s).bind ?_
  intro a s₁ h₁
  rw [← h₁]
  exact hf a s₁

theorem keeps_forM {l : List α} {g : α → EStateM ε σ PUnit} (h : ∀ a ∈ l, (g a).Keeps part) :
    (forM l g).Keeps part := by
  induction l with
  | nil => exact keeps_pure
  | cons a l ih =>
      rw [List.forM_cons]
      exact (h a List.mem_cons_self).bind fun _ => ih fun b hb => h b (List.mem_cons_of_mem a hb)

theorem keeps_zoom {υ : Type u} {part' : σ → υ} {put : υ → σ → σ} {x : EStateM ε υ α}
    (h : ∀ t s, part (put t s) = part s) : (zoom part' put x).Keeps part := by
  intro s
  apply leaves_zoom
  exact ⟨fun _ => h _ s, fun _ => h _ s⟩

end

/-- If neighbours that are related can change places, a loop over pairwise related rounds ends in the same
state whatever their order. -/
theorem forM_perm {l l' : List α} {g : α → EStateM ε σ PUnit} {P : σ → Prop} {R : α → α → Prop}
    (hsymm : ∀ {a b}, R a b → R b a)
    (hkeep : ∀ {a s s'}, P s → (g a).run s = .ok ⟨⟩ s' → P s')
    (hswap : ∀ {a b s s'}, R a b → P s → (g a >>= fun _ => g b).run s = .ok ⟨⟩ s' →
      (g b >>= fun _ => g a).run s = .ok ⟨⟩ s')
    (hperm : l.Perm l') (hpair : l.Pairwise R) (h : P s) (hrun : (forM l g).run s = .ok ⟨⟩ s') :
    (forM l' g).run s = .ok ⟨⟩ s' := by
  induction hperm generalizing s with
  | nil => exact hrun
  | cons a _ ih =>
      rw [List.forM_cons, bind_ok] at hrun ⊢
      obtain ⟨_, s₁, h₁, h₂⟩ := hrun
      exact ⟨_, s₁, h₁, ih (List.pairwise_cons.mp hpair).2 (hkeep h h₁) h₂⟩
  | swap a b l =>
      rw [List.forM_cons, List.forM_cons, ← bind_assoc, bind_ok] at hrun ⊢
      obtain ⟨_, s₁, h₁, h₂⟩ := hrun
      exact ⟨_, s₁, hswap ((List.pairwise_cons.mp hpair).1 a List.mem_cons_self) h h₁, h₂⟩
  | trans hp _ ih₁ ih₂ => exact ih₂ ((hp.pairwise_iff hsymm).mp hpair) h (ih₁ hpair h hrun)

/-- A handler sees the state as it was when the exception was thrown. -/
theorem run_catch {h : ε → EStateM ε σ α} :
    (tryCatch x h).run s = match x.run s with
      | .ok a s₁ => .ok a s₁
      | .error e s₁ => (h e).run s₁ := by
  show EStateM.tryCatch x h s = match x s with
      | .ok a s₁ => .ok a s₁
      | .error e s₁ => h e s₁
  unfold EStateM.tryCatch
  cases x s with
  | ok a s₁ => rfl
  | error e s₁ => rfl

theorem leaves_catch {h : ε → EStateM ε σ α} {E' : ε → σ → Prop} (hx : x.Leaves s Q E')
    (hh : ∀ e s₁, E' e s₁ → (h e).Leaves s₁ Q E) : (tryCatch x h).Leaves s Q E := by
  have hrun := run_catch (s := s) (x := x) (h := h)
  cases hres : x.run s with
  | ok a s₁ =>
      rw [hres] at hrun
      exact leaves_of_ok hrun (hx.of_ok hres)
  | error e s₁ =>
      rw [hres] at hrun
      exact (hh e s₁ (hx.of_error hres)).of_run hrun

/-- A `catch` keeps what the computation and the handler keep. -/
theorem Keeps.catch {τ : Type u} {part : σ → τ} {h : ε → EStateM ε σ α} (hx : x.Keeps part)
    (hh : ∀ e, (h e).Keeps part) : (tryCatch x h).Keeps part := by
  intro s
  refine leaves_catch (hx s) fun e s₁ h₁ => ?_
  rw [← h₁]
  exact hh e s₁

/-! ## Computations on more state -/

/-- What is seen of a result if only a part of the state is looked at. -/
def Result.seen {τ : Type u} (part : σ → τ) : EStateM.Result ε σ α → EStateM.Result ε τ α
  | .ok a s => .ok a (part s)
  | .error e s => .error e (part s)

/-- `y` does to a part of its state what `x` does to the whole of it, and ends in the same way. -/
def Shadows {τ : Type u} (y : EStateM ε σ α) (part : σ → τ) (x : EStateM ε τ α) : Prop :=
  ∀ s, (y.run s).seen part = x.run (part s)

section
variable {τ : Type u} {part : σ → τ} {x : EStateM ε τ α} {y : EStateM ε σ α}

theorem Shadows.ok {a : α} (h : y.Shadows part x) (hrun : y.run s = .ok a s') :
    x.run (part s) = .ok a (part s') := by
  rw [← h s, hrun]
  rfl

theorem Shadows.error {e : ε} (h : y.Shadows part x) (hrun : y.run s = .error e s') :
    x.run (part s) = .error e (part s') := by
  rw [← h s, hrun]
  rfl

/-- Whatever `x` does, `y` does it too. -/
theorem Shadows.exists_ok {a : α} {t : τ} (h : y.Shadows part x) (hrun : x.run (part s) = .ok a t) :
    ∃ s', y.run s = .ok a s' ∧ part s' = t := by
  have hseen := h s
  rw [hrun] at hseen
  cases hy : y.run s with
  | ok b s' =>
      rw [hy] at hseen
      cases hseen
      exact ⟨s', rfl, rfl⟩
  | error e s' =>
      rw [hy] at hseen
      cases hseen

theorem shadows_pure {a : α} : (pure a : EStateM ε σ α).Shadows part (pure a) := fun _ => rfl

theorem shadows_throw {e : ε} : (throw e : EStateM ε σ α).Shadows part (throw e) := fun _ => rfl

theorem shadows_ofExcept {z : Except ε α} : (ofExcept z : EStateM ε σ α).Shadows part (ofExcept z) := by
  cases z with
  | ok a => exact shadows_pure
  | error e => exact shadows_throw

theorem shadows_zoom {put : τ → σ → σ} (h : ∀ t s, part (put t s) = t) :
    (zoom part put x).Shadows part x := by
  intro s
  cases hx : x.run (part s) with
  | ok a t =>
      rw [@zoom_ok ε σ α s τ part put x a t hx, Result.seen, h]
  | error e t =>
      rw [@zoom_error ε σ α s τ part put x e t hx, Result.seen, h]

theorem Shadows.bind {g : α → EStateM ε τ β} {f : α → EStateM ε σ β} (h : y.Shadows part x)
    (hf : ∀ a, (f a).Shadows part (g a)) : (y >>= f).Shadows part (x >>= g) := by
  intro s
  rw [run_bind, run_bind]
  cases hy : y.run s with
  | ok a s' =>
      rw [h.ok hy]
      exact hf a s'
  | error e s' =>
      rw [h.error hy]
      rfl

theorem shadows_get_bind {g : τ → EStateM ε τ β} {f : σ → EStateM ε σ β}
    (hf : ∀ s, (f s).Shadows part (g (part s))) : (get >>= f).Shadows part (get >>= g) :=
  fun s => hf s s

/-- Afterwards something may be written down elsewhere. -/
theorem Shadows.modify {u : σ → σ} {y : EStateM ε σ PUnit} {x : EStateM ε τ PUnit}
    (h : y.Shadows part x) (hu : ∀ s, part (u s) = part s) :
    (y >>= fun _ => modify u).Shadows part x := by
  intro s
  rw [run_bind]
  cases hy : y.run s with
  | ok a s' =>
      rw [h.ok hy]
      show EStateM.Result.ok PUnit.unit (part (u s')) = _
      rw [hu]
  | error e s' =>
      rw [h.error hy]
      rfl

theorem Shadows.catch {g : ε → EStateM ε τ α} {f : ε → EStateM ε σ α} (h : y.Shadows part x)
    (hf : ∀ e, (f e).Shadows part (g e)) : (tryCatch y f).Shadows part (tryCatch x g) := by
  intro s
  rw [run_catch, run_catch]
  cases hy : y.run s with
  | ok a s' =>
      rw [h.ok hy]
      rfl
  | error e s' =>
      rw [h.error hy]
      exact hf e s'

end

end EStateM

import Qine.Lib.Walk
import Mathlib.Data.List.DropRight

/-!
# Path normalisation

`pop_path` and `normalize_path` of the path mapper. A path is a C string, that is the list of its
bytes without the terminator, each written as a character.

The loop of `normalize_path` keeps the normalised path as a string and pops it by scanning for the
last separator. `resolve` is what the loop is for: a walk along the components of the path.
`normalizePath_eq` says that the string the loop builds is the rendered result of that walk, for
every path, absolute or relative.
-/

namespace Qine

open Walk

/-- A path, or one of its components. -/
abbrev Path := List Char

/-- `Fsutil::is_abs`. -/
def isAbs (path : Path) : Bool := path.head? = some '/'

/-- `pop_path`. -/
def popPath (dst : Path) : Path :=
  let dst := dst.rdropWhile (· ≠ '/')
  -- the separator goes too, unless only the root is left
  if dst.length > 1 then dst.dropLast else dst

/-- `strncmp(s, t, n) == 0`. -/
def strncmpEq (s t : Path) (n : Nat) : Bool := s.take n == t.take n

/-- The loop of `normalize_path` on the rest of the path; every pass shortens it. -/
def normalizeLoop : Nat → Path → Path → Nat → Path
  | 0, _, dst, _ => dst
  | n + 1, path, dst, segments =>
    if path.isEmpty then dst
    else
      let partLen := (path.takeWhile (· ≠ '/')).length
      let next := (path.drop partLen).drop 1
      if strncmpEq path ['.'] partLen then normalizeLoop n next dst segments
      else if strncmpEq path ['.', '.'] partLen then
        if segments > 0 then normalizeLoop n next (popPath dst) (segments - 1)
        else normalizeLoop n next dst segments
      else
        let dst := if dst ≠ [] ∧ dst.getLast? ≠ some '/' then dst ++ ['/'] else dst
        normalizeLoop n next (dst ++ path.take partLen) (segments + 1)

/-- `normalize_path`. -/
def normalizePath (path : Path) : Path :=
  if isAbs path then normalizeLoop path.length (path.drop 1) ['/'] 0
  else normalizeLoop path.length path [] 0

/-! ## Components -/

/-- A component that `resolve` keeps. -/
structure IsName (c : Path) : Prop where
  ne_nil : c ≠ []
  no_sep : '/' ∉ c
  ne_dot : c ≠ ['.']
  ne_dotdot : c ≠ ['.', '.']

instance (c : Path) : Decidable (IsName c) :=
  decidable_of_iff (c ≠ [] ∧ '/' ∉ c ∧ c ≠ ['.'] ∧ c ≠ ['.', '.'])
    ⟨fun ⟨h₁, h₂, h₃, h₄⟩ => ⟨h₁, h₂, h₃, h₄⟩, fun ⟨h₁, h₂, h₃, h₄⟩ => ⟨h₁, h₂, h₃, h₄⟩⟩

theorem IsName.exists_cons {c : Path} (h : IsName c) : ∃ x c', c = x :: c' ∧ x ≠ '/' := by
  obtain ⟨x, c', rfl⟩ := List.exists_cons_of_ne_nil h.ne_nil
  exact ⟨x, c', rfl, fun heq => h.no_sep (by simp [heq])⟩

/-- What a component asks for. -/
def move (c : Path) : Move Path :=
  if c = [] ∨ c = ['.'] then .stay else if c = ['.', '.'] then .up else .down c

/-- The components of a path evaluated from left to right. -/
def resolve (path : Path) : List Path := walk [] ((path.splitOn '/').map move)

/-- Names joined by separators, after a leading separator for an absolute path. -/
def render (abs : Bool) (cs : List Path) : Path :=
  (if abs then ['/'] else []) ++ ['/'].intercalate cs

theorem move_of_isName {c : Path} (h : IsName c) : move c = .down c := by
  rw [move, if_neg (by rintro (h₁ | h₂); exacts [h.ne_nil h₁, h.ne_dot h₂]), if_neg h.ne_dotdot]

theorem map_move_of_isName {cs : List Path} (h : ∀ c ∈ cs, IsName c) :
    cs.map move = cs.map .down :=
  List.map_congr_left fun c hc => move_of_isName (h c hc)

theorem isName_of_move {c d : Path} (hsep : '/' ∉ d) (h : move d = .down c) : IsName c := by
  unfold move at h
  split at h
  · cases h
  · next h₁ =>
      split at h
      · cases h
      · next h₂ =>
          cases h
          exact ⟨fun hc => h₁ (.inl hc), hsep, fun hc => h₁ (.inr hc), h₂⟩

theorem splitOn_no_sep (path : Path) : ∀ c ∈ path.splitOn '/', '/' ∉ c := by
  induction path with
  | nil =>
      intro c hc
      rw [List.splitOn_nil, List.mem_singleton] at hc
      simp [hc]
  | cons x xs ih =>
      intro c hc
      rw [List.splitOn_cons_eq_if_modifyHead] at hc
      obtain ⟨d, ds, hd⟩ := List.exists_cons_of_ne_nil (List.splitOn_ne_nil '/' xs)
      rw [hd] at hc ih
      split at hc
      · rcases List.mem_cons.1 hc with rfl | hc
        · simp
        · exact ih c hc
      · next hx =>
          rcases List.mem_cons.1 hc with rfl | hc
          · have hne : '/' ≠ x := fun h => hx (by simp [← h])
            exact List.not_mem_cons_of_ne_of_not_mem hne (ih d List.mem_cons_self)
          · exact ih c (List.mem_cons_of_mem _ hc)

/-- A resolved path consists of names. -/
theorem isName_of_mem_resolve {path c : Path} (h : c ∈ resolve path) : IsName c := by
  rcases mem_walk h with h | h
  · cases h
  · obtain ⟨d, hd, heq⟩ := List.mem_map.1 h
    exact isName_of_move (splitOn_no_sep path d hd) heq

/-! ## Rendered paths -/

theorem intercalate_append {s : Path} {cs ds : List Path} (hcs : cs ≠ []) (hds : ds ≠ []) :
    s.intercalate (cs ++ ds) = s.intercalate cs ++ s ++ s.intercalate ds := by
  induction cs with
  | nil => exact absurd rfl hcs
  | cons a cs ih =>
      cases cs with
      | nil => simp [List.intercalate_cons_of_ne_nil hds]
      | cons b cs =>
          have := ih (List.cons_ne_nil b cs)
          simp only [List.cons_append, List.intercalate_cons_cons] at this ⊢
          rw [this]
          simp only [List.append_assoc]

/-- The rendered path up to where a further name goes. -/
def stem (abs : Bool) (cs : List Path) : Path :=
  if cs = [] then render abs [] else render abs cs ++ ['/']

theorem render_append (abs : Bool) (cs : List Path) {ds : List Path} (hds : ds ≠ []) :
    render abs (cs ++ ds) = stem abs cs ++ ['/'].intercalate ds := by
  unfold stem
  split
  · next h => simp [h, render]
  · next h => simp [render, intercalate_append h hds]

theorem render_concat (abs : Bool) (cs : List Path) (c : Path) :
    render abs (cs ++ [c]) = stem abs cs ++ c := by
  rw [render_append abs cs (List.cons_ne_nil c []), List.intercalate_singleton]

theorem getLast?_render (abs : Bool) {cs : List Path} (hcs : ∀ c ∈ cs, IsName c) (hne : cs ≠ []) :
    ∃ x, x ≠ '/' ∧ (render abs cs).getLast? = some x := by
  obtain ⟨init, c, rfl⟩ := List.eq_nil_or_concat cs |>.resolve_left hne
  have hc := hcs c (by simp)
  obtain ⟨init', x, rfl⟩ := List.eq_nil_or_concat c |>.resolve_left hc.ne_nil
  refine ⟨x, ?_, ?_⟩
  · rintro rfl
    exact hc.no_sep (by simp)
  · simp only [List.concat_eq_append, render_concat, ← List.append_assoc]
    exact List.getLast?_concat

/-- The separator `normalize_path` adds is the one that is needed. -/
theorem push_sep {abs : Bool} {cs : List Path} (hcs : ∀ c ∈ cs, IsName c) :
    (if render abs cs ≠ [] ∧ (render abs cs).getLast? ≠ some '/' then render abs cs ++ ['/']
      else render abs cs) = stem abs cs := by
  unfold stem
  by_cases hne : cs = []
  · subst hne
    cases abs <;> decide
  · obtain ⟨x, hx, hlast⟩ := getLast?_render abs hcs hne
    have hnil : render abs cs ≠ [] := by
      intro h
      rw [h] at hlast
      cases hlast
    rw [if_neg hne, if_pos ⟨hnil, by rw [hlast]; simpa using hx⟩]

theorem rdropWhile_append_no_sep (l : Path) {c : Path} (h : '/' ∉ c) :
    (l ++ c).rdropWhile (· ≠ '/') = l.rdropWhile (· ≠ '/') := by
  unfold List.rdropWhile
  rw [List.reverse_append, List.dropWhile_append_of_pos]
  intro x hx
  have hne : x ≠ '/' := fun heq => h (heq ▸ List.mem_reverse.1 hx)
  simpa using hne

/-- `pop_path` removes the last name. -/
theorem popPath_render {abs : Bool} {cs : List Path} (hcs : ∀ c ∈ cs, IsName c) :
    popPath (render abs cs) = render abs cs.dropLast := by
  by_cases hne : cs = []
  · subst hne
    cases abs <;> decide
  obtain ⟨init, c, rfl⟩ := List.eq_nil_or_concat cs |>.resolve_left hne
  rw [List.concat_eq_append, List.dropLast_concat, render_concat, popPath,
    rdropWhile_append_no_sep _ (hcs c (by simp)).no_sep]
  unfold stem
  by_cases hinit : init = []
  · subst hinit
    cases abs <;> decide
  · rw [if_neg hinit, List.rdropWhile_concat_neg _ _ _ (by simp), List.dropLast_concat]
    have hpos : 0 < (render abs init).length := by
      obtain ⟨x, -, hlast⟩ := getLast?_render abs (fun d hd => hcs d (by simp [hd])) hinit
      rw [List.length_pos_iff]
      intro h
      rw [h] at hlast
      cases hlast
    rw [if_pos (by rw [List.length_append, List.length_singleton]; omega)]

/-- The loop of `pop_path` as it is written: the last character is read before it is asked whether there
is one, and `past` is what is read in front of an empty string. -/
def popLoop (past : Char) : Nat → Path → Path
  | 0, dst => dst
  | n + 1, dst => if dst.getLastD past ≠ '/' ∧ dst ≠ [] then popLoop past n dst.dropLast else dst

/-- Whatever is read there, the loop stops behind the last separator. -/
theorem popLoop_eq (past : Char) {n : Nat} {dst : Path} (hn : dst.length ≤ n) :
    popLoop past n dst = dst.rdropWhile (· ≠ '/') := by
  induction n generalizing dst with
  | zero =>
      rw [List.length_eq_zero_iff.1 (Nat.le_zero.1 hn)]
      rfl
  | succ n ih =>
      rcases List.eq_nil_or_concat dst with rfl | ⟨init, x, rfl⟩
      · simp [popLoop]
      · rw [List.concat_eq_append, List.length_append, List.length_singleton] at hn
        rw [popLoop, List.concat_eq_append, List.getLastD_concat, List.dropLast_concat]
        by_cases hx : x = '/'
        · rw [if_neg (by simp [hx]), List.rdropWhile_concat_neg _ _ _ (by simp [hx])]
        · rw [if_pos (by simp [hx]), List.rdropWhile_concat_pos _ _ _ (by simp [hx])]
          exact ih (by omega)

/-! ## The loop -/

/-- The first component of a path. -/
def firstPart (path : Path) : Path := path.takeWhile (· ≠ '/')

/-- The path after its first component and the separator behind it. -/
def afterPart (path : Path) : Path := (path.drop (firstPart path).length).drop 1

theorem take_firstPart (path : Path) : path.take (firstPart path).length = firstPart path :=
  (List.prefix_iff_eq_take.1 (List.takeWhile_prefix _)).symm

theorem no_sep_firstPart (path : Path) : '/' ∉ firstPart path := by
  intro h
  simpa using List.mem_takeWhile_imp h

/-- A path is its only component, or its first component, a separator and the rest. -/
theorem firstPart_cases (path : Path) :
    (firstPart path = path ∧ afterPart path = []) ∨
      path = firstPart path ++ '/' :: afterPart path := by
  induction path with
  | nil => exact .inl ⟨rfl, rfl⟩
  | cons x xs ih =>
      by_cases hx : x = '/'
      · subst hx
        exact .inr rfl
      · have hfirst : firstPart (x :: xs) = x :: firstPart xs := by
          simp [firstPart, hx]
        have hafter : afterPart (x :: xs) = afterPart xs := by
          rw [afterPart, hfirst]
          rfl
        rw [hfirst, hafter]
        rcases ih with ⟨h₁, h₂⟩ | h
        · exact .inl ⟨congrArg _ h₁, h₂⟩
        · exact .inr (congrArg _ h)

/-- Evaluating a path starts with its first component. -/
theorem walk_splitOn (st : List Path) (path : Path) :
    walk st ((path.splitOn '/').map move) =
      walk (step st (move (firstPart path))) (((afterPart path).splitOn '/').map move) := by
  rcases firstPart_cases path with ⟨h₁, h₂⟩ | h
  · have hsplit : path.splitOn '/' = [path] :=
      List.splitOn_eq_singleton (by rw [← h₁]; exact no_sep_firstPart path)
    rw [h₂, h₁, hsplit]
    rfl
  · conv_lhs => rw [h]
    rw [List.splitOn_append_cons_self_of_not_mem (no_sep_firstPart path)]
    rfl

theorem length_afterPart {path : Path} (h : path ≠ []) : (afterPart path).length < path.length := by
  have := List.length_pos_iff.2 h
  rw [afterPart, List.length_drop, List.length_drop]
  omega

theorem strncmpEq_dot (path : Path) :
    strncmpEq path ['.'] (firstPart path).length = true ↔
      firstPart path = [] ∨ firstPart path = ['.'] := by
  rw [strncmpEq, beq_iff_eq, take_firstPart]
  rcases firstPart path with _ | ⟨a, _ | ⟨b, l⟩⟩ <;> simp

theorem strncmpEq_dotdot {path : Path} (h : ¬(firstPart path = [] ∨ firstPart path = ['.'])) :
    strncmpEq path ['.', '.'] (firstPart path).length = true ↔ firstPart path = ['.', '.'] := by
  rw [strncmpEq, beq_iff_eq, take_firstPart]
  generalize firstPart path = part at h
  rcases part with _ | ⟨a, _ | ⟨b, _ | ⟨c, l⟩⟩⟩ <;> simp_all

/-- The loop renders the walk along the rest of the path, from the names gathered so far. -/
theorem normalizeLoop_eq (abs : Bool) {n : Nat} (path : Path) (st : List Path)
    (hst : ∀ c ∈ st, IsName c) (hn : path.length ≤ n) :
    normalizeLoop n path (render abs st) st.length =
      render abs (walk st ((path.splitOn '/').map move)) := by
  induction n generalizing path st with
  | zero =>
      rw [List.length_eq_zero_iff.1 (Nat.le_zero.1 hn)]
      rfl
  | succ n ih =>
      unfold normalizeLoop
      by_cases hpath : path = []
      · subst hpath
        rfl
      have hafter : (afterPart path).length ≤ n := by
        have := length_afterPart hpath
        omega
      rw [if_neg (by simpa using hpath), walk_splitOn]
      dsimp only
      change (if strncmpEq path ['.'] (firstPart path).length = true then
        normalizeLoop n (afterPart path) (render abs st) st.length else _) = _
      by_cases hdot : firstPart path = [] ∨ firstPart path = ['.']
      · rw [if_pos ((strncmpEq_dot path).2 hdot), move, if_pos hdot]
        exact ih _ _ hst hafter
      rw [if_neg (mt (strncmpEq_dot path).1 hdot)]
      change (if strncmpEq path ['.', '.'] (firstPart path).length = true then _ else
        normalizeLoop n (afterPart path) (_ ++ path.take (firstPart path).length) _) = _
      by_cases hdotdot : firstPart path = ['.', '.']
      · rw [if_pos ((strncmpEq_dotdot hdot).2 hdotdot), move, if_neg hdot, if_pos hdotdot]
        by_cases hpos : st.length > 0
        · rw [if_pos hpos, popPath_render hst, ← List.length_dropLast]
          exact ih _ _ (fun c hc => hst c (List.dropLast_subset _ hc)) hafter
        · have hnil : st = [] := List.length_eq_zero_iff.1 (by omega)
          subst hnil
          rw [if_neg hpos]
          exact ih _ _ hst hafter
      · have hmove : move (firstPart path) = .down (firstPart path) := by
          rw [move, if_neg hdot, if_neg hdotdot]
        have hname : IsName (firstPart path) := isName_of_move (no_sep_firstPart path) hmove
        rw [if_neg (mt (strncmpEq_dotdot hdot).1 hdotdot), hmove, push_sep hst, take_firstPart,
          ← render_concat]
        have := ih (afterPart path) (st ++ [firstPart path]) (by
          intro c hc
          rcases List.mem_append.1 hc with hc | hc
          · exact hst c hc
          · rw [List.mem_singleton.1 hc]
            exact hname) hafter
        rw [List.length_append, List.length_singleton] at this
        exact this

/-- `normalize_path` evaluates the components of the path on a stack and renders the result. -/
theorem normalizePath_eq (path : Path) :
    normalizePath path = render (isAbs path) (resolve path) := by
  unfold normalizePath
  split
  · next habs =>
      obtain ⟨rest, rfl⟩ : ∃ rest, path = '/' :: rest := by
        cases path with
        | nil => cases habs
        | cons x rest =>
            have hx : x = '/' := by simpa [isAbs] using habs
            exact ⟨rest, by rw [hx]⟩
      have hloop := normalizeLoop_eq true rest [] (by simp) (Nat.le_succ _)
      have hwalk := walk_splitOn [] ('/' :: rest)
      rw [habs]
      exact hloop.trans (congrArg (render true) hwalk.symm)
  · next habs =>
      have hloop := normalizeLoop_eq false path [] (by simp) (Nat.le_refl _)
      rw [Bool.not_eq_true] at habs
      rw [habs]
      exact hloop

/-! ## Normal paths -/

theorem isAbs_render {abs : Bool} {cs : List Path} (h : ∀ c ∈ cs, IsName c) :
    isAbs (render abs cs) = abs := by
  cases abs with
  | true => simp [render, isAbs]
  | false =>
      cases cs with
      | nil => rfl
      | cons c cs =>
          obtain ⟨x, c', rfl, hx⟩ := (h c List.mem_cons_self).exists_cons
          cases cs <;> simp [render, isAbs, hx]

theorem splitOn_of_render {abs : Bool} {cs : List Path} (h : ∀ c ∈ cs, IsName c) (hne : cs ≠ []) :
    (render abs cs).splitOn '/' = (if abs then [[]] else []) ++ cs := by
  have hcs := List.splitOn_intercalate '/' (fun c hc => (h c hc).no_sep) hne
  cases abs with
  | false => exact hcs
  | true =>
      have hsplit := List.splitOn_append_cons_self (a := '/') [] (['/'].intercalate cs)
      rw [hcs] at hsplit
      exact hsplit

theorem resolve_of_render {abs : Bool} {cs : List Path} (h : ∀ c ∈ cs, IsName c) :
    resolve (render abs cs) = cs := by
  by_cases hne : cs = []
  · subst hne
    cases abs <;> rfl
  · have hwalk := walk_down [] cs
    rw [resolve, splitOn_of_render h hne, List.map_append, map_move_of_isName h]
    cases abs <;> exact hwalk

theorem isAbs_normalizePath (path : Path) : isAbs (normalizePath path) = isAbs path := by
  rw [normalizePath_eq]
  exact isAbs_render fun _ hc => isName_of_mem_resolve hc

theorem resolve_normalizePath (path : Path) : resolve (normalizePath path) = resolve path := by
  rw [normalizePath_eq]
  exact resolve_of_render fun _ hc => isName_of_mem_resolve hc

/-- `normalize_path` renders the components of the path evaluated on a stack. So its result consists of
names, ends in a separator only if it is the root, and is left alone by another `normalize_path`. -/
theorem normalizePath_normal (path : Path) :
    normalizePath path = render (isAbs path) (resolve path) ∧
      (∀ c ∈ resolve path, IsName c) ∧
      (resolve path ≠ [] →
        (normalizePath path).splitOn '/' = (if isAbs path then [[]] else []) ++ resolve path) ∧
      ((normalizePath path).getLast? = some '/' → normalizePath path = ['/']) ∧
      normalizePath (normalizePath path) = normalizePath path := by
  have hnames : ∀ c ∈ resolve path, IsName c := fun c hc => isName_of_mem_resolve hc
  refine ⟨normalizePath_eq path, hnames, ?_, ?_, ?_⟩
  · intro hne
    rw [normalizePath_eq]
    exact splitOn_of_render hnames hne
  · intro hlast
    rw [normalizePath_eq] at hlast ⊢
    by_cases hne : resolve path = []
    · rw [hne] at hlast ⊢
      cases habs : isAbs path with
      | true => rfl
      | false =>
          rw [habs] at hlast
          cases hlast
    · obtain ⟨x, hx, hx'⟩ := getLast?_render (isAbs path) hnames hne
      rw [hx'] at hlast
      exact absurd (Option.some.inj hlast) hx
  · rw [normalizePath_eq (normalizePath path), isAbs_normalizePath, resolve_normalizePath,
      ← normalizePath_eq]

/-! ## Canonical paths -/

/-- An absolute path without empty, `.` or `..` components and without a trailing slash. -/
def Canonical (path : Path) : Prop := ∃ cs, (∀ c ∈ cs, IsName c) ∧ path = render true cs

theorem canonical_normalizePath {path : Path} (h : isAbs path = true) :
    Canonical (normalizePath path) :=
  ⟨resolve path, fun _ hc => isName_of_mem_resolve hc, by rw [normalizePath_eq, h]⟩

theorem Canonical.isAbs {path : Path} (h : Canonical path) : isAbs path = true := by
  obtain ⟨cs, -, rfl⟩ := h
  simp [render, Qine.isAbs]

theorem splitOn_render {cs : List Path} (h : ∀ c ∈ cs, IsName c) (hne : cs ≠ []) :
    (render true cs).splitOn '/' = [] :: cs := splitOn_of_render h hne

theorem resolve_render {cs : List Path} (h : ∀ c ∈ cs, IsName c) : resolve (render true cs) = cs :=
  resolve_of_render h

theorem Canonical.render_resolve {path : Path} (h : Canonical path) :
    render true (resolve path) = path := by
  obtain ⟨cs, hcs, rfl⟩ := h
  rw [resolve_render hcs]

/-- Normalisation leaves a canonical path alone. -/
theorem Canonical.normalizePath_eq_self {path : Path} (h : Canonical path) :
    normalizePath path = path := by
  rw [normalizePath_eq, h.isAbs, h.render_resolve]

end Qine

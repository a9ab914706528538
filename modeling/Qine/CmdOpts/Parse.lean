import Mathlib.Data.List.TakeWhile
import Mathlib.Logic.Function.Basic
import Qine.CmdOpts

/-!
# What option strings are accepted

`CommandOptions::parse` (`cmd_opts.cpp`) for a specification whose core parts are strings, and whose handlers
have a destination each. Cut at every comma, an option string is a list of parts: the core parts, and
keyword parts behind them.

The tokenizer is at its end when it stands behind the last character, which it also does when a comma is the
last character and an empty part is still to come. So that part is never seen: an empty core part is
missed, and an empty keyword part is let through. `parse_meets_iff` says for which strings this makes no
difference.
-/

namespace Qine.CommandOptions

/-- A specification: the number of core parts, and the keywords with what their handlers accept. -/
structure Specification (κ : Type) (V : κ → Type) where
  cores : Nat
  kws : List κ
  key : κ → List Char
  accept : (k : κ) → List Char → Except ConfigurationError (V k)
  distinct : (kws.map key).Nodup

/-- The variables the handlers store to. -/
structure Destinations (n : Nat) (κ : Type) (V : κ → Type) where
  core : Fin n → List Char
  kw : (k : κ) → V k

namespace Specification

variable {κ : Type} {V : κ → Type}

/-- The handler of a core part. -/
def coreValue (n : Nat) (i : Fin n) : Value (Destinations n κ V) :=
  string fun v d => { d with core := Function.update d.core i v }

variable [DecidableEq κ]

/-- The handler of a keyword. -/
def kwArg (g : Specification κ V) (k : κ) : KwArg (Destinations g.cores κ V) :=
  ⟨g.key k, fun v d => (g.accept k v).map fun x => { d with kw := Function.update d.kw k x }⟩

/-- The specification as `parse` takes it. -/
def spec (g : Specification κ V) : CommandSpec (Destinations g.cores κ V) :=
  ⟨(List.finRange g.cores).map (coreValue g.cores), g.kws.map g.kwArg⟩

/-- The part is for the keyword. -/
def Names (g : Specification κ V) (k : κ) (part : List Char) : Prop :=
  k ∈ g.kws ∧ g.key k = (Part.ofToken part).key

/-- A keyword part that is not empty, for a keyword whose handler takes the value. -/
def Acceptable (g : Specification κ V) (part : List Char) : Prop :=
  part ≠ [] ∧ ∃ k, g.Names k part ∧ ∃ v, g.accept k (Part.ofToken part).value = .ok v

/-- There is a part for every core handler, and the parts behind these are acceptable. -/
def Accepts (g : Specification κ V) (parts : List (List Char)) : Prop :=
  g.cores ≤ parts.length ∧ ∀ part ∈ parts.drop g.cores, g.Acceptable part

/-- A keyword has the value of its last part, and its old one where there is none. -/
def LastStored (g : Specification κ V) (parts : List (List Char)) (kw kw' : (k : κ) → V k) : Prop :=
  ∀ k, (∃ front part back, parts = front ++ part :: back ∧ g.Names k part ∧
      g.accept k (Part.ofToken part).value = .ok (kw' k) ∧ ∀ p ∈ back, ¬ g.Names k p) ∨
    (∀ part ∈ parts, ¬ g.Names k part) ∧ kw' k = kw k

/-- Each core destination has its part, and each keyword the value of its last part. -/
def Stored (g : Specification κ V) (parts : List (List Char)) (d d' : Destinations g.cores κ V) : Prop :=
  (∀ i : Fin g.cores, parts[i.val]? = some (d'.core i)) ∧ g.LastStored (parts.drop g.cores) d.kw d'.kw

/-- The parser does the right thing with an option string. -/
def Meets (g : Specification κ V) (arg : List Char) (d : Destinations g.cores κ V) : Prop :=
  ((∃ d', parse arg g.spec d = .ok d') ↔ g.Accepts (arg.splitOn ',')) ∧
    ∀ d', parse arg g.spec d = .ok d' → g.Stored (arg.splitOn ',') d d'

/-- The last part is not empty; or there are too few parts, the empty one counted; or there are more parts than
core handlers, and one of them that is not the last one is not acceptable. -/
def Regular (g : Specification κ V) (arg : List Char) : Prop :=
  (arg.splitOn ',').getLast? ≠ some [] ∨ (arg.splitOn ',').length < g.cores ∨
    g.cores < (arg.splitOn ',').length ∧ ∃ part ∈ ((arg.splitOn ',').drop g.cores).dropLast, ¬ g.Acceptable part

end Specification

/-! ## Tokens -/

/-- What the tokenizer finds in a string: its parts, but for an empty one at the end. -/
def tokens (arg : List Char) : List (List Char) :=
  if (arg.splitOn ',').getLast? = some [] then (arg.splitOn ',').dropLast else arg.splitOn ','

theorem tokens_nil : tokens [] = [] := by
  simp [tokens]

theorem next_eq (rest : List Char) :
    next rest = (rest.takeWhile (· ≠ ','), (rest.dropWhile (· ≠ ',')).drop 1) := rfl

/-- A string is its only part, or its first part is the first token and the others are those of the rest. -/
theorem next_cases (rest : List Char) :
    (rest.splitOn ',' = [rest] ∧ next rest = (rest, [])) ∨
      rest.splitOn ',' = (next rest).1 :: (next rest).2.splitOn ',' := by
  have hsplit := List.takeWhile_append_dropWhile (p := fun c => decide (c ≠ ',')) (l := rest)
  have hno : ',' ∉ rest.takeWhile (· ≠ ',') := by
    intro h
    simpa using List.mem_takeWhile_imp h
  rw [next_eq]
  cases hdrop : rest.dropWhile (· ≠ ',') with
  | nil =>
      rw [hdrop, List.append_nil] at hsplit
      rw [hsplit] at hno ⊢
      exact .inl ⟨List.splitOn_eq_singleton hno, rfl⟩
  | cons c back =>
      have hc : c = ',' := by
        have hhead := List.head?_dropWhile_not (fun c => decide (c ≠ ',')) rest
        rw [hdrop] at hhead
        simpa using hhead
      subst hc
      have hparts := List.splitOn_append_cons_self_of_not_mem hno back
      rw [hdrop] at hsplit
      rw [hsplit] at hparts
      exact .inr hparts

theorem tokens_of_ne_nil {rest : List Char} (h : rest ≠ []) :
    tokens rest = (next rest).1 :: tokens (next rest).2 := by
  rcases next_cases rest with ⟨hsplit, hnext⟩ | hsplit
  · rw [hnext, tokens_nil, tokens, hsplit]
    simp [h]
  · obtain ⟨p, ps, hp⟩ := List.exists_cons_of_ne_nil (List.splitOn_ne_nil ',' (next rest).2)
    rw [tokens, tokens, hsplit, hp]
    split_ifs <;> simp_all

namespace Specification

variable {κ : Type} {V : κ → Type} {g : Specification κ V}

/-! ## The core parts -/

/-- The core loop stores the first tokens, if there are enough of them. -/
theorem parseCore_ok {n : Nat} {is : List (Fin n)} {rest rest' : List Char} {d d' : Destinations n κ V}
    (hnodup : is.Nodup) (h : parseCore (is.map (coreValue n)) rest d = .ok (rest', d')) :
    is.length ≤ (tokens rest).length ∧ tokens rest' = (tokens rest).drop is.length ∧ d'.kw = d.kw ∧
      (∀ i ∉ is, d'.core i = d.core i) ∧ ∀ (j : Nat) i, is[j]? = some i → (tokens rest)[j]? = some (d'.core i) := by
  induction is generalizing rest d with
  | nil =>
      cases h
      simp
  | cons i is ih =>
      rw [List.map_cons, parseCore] at h
      split at h
      · cases h
      · next hne =>
          have hrest : rest ≠ [] := by simpa using hne
          rw [List.nodup_cons] at hnodup
          obtain ⟨hlen, htokens, hkw, hothers, hstored⟩ := ih hnodup.2 h
          rw [tokens_of_ne_nil hrest]
          refine ⟨Nat.succ_le_succ hlen, htokens, hkw, ?_, ?_⟩
          · intro k hk
            rw [List.mem_cons, not_or] at hk
            rw [hothers k hk.2]
            exact Function.update_of_ne hk.1 _ _
          · intro j k hj
            cases j with
            | zero =>
                cases hj
                rw [hothers i hnodup.1]
                exact congrArg some (Function.update_self i _ d.core).symm
            | succ j => exact hstored j k hj

/-- With enough tokens the core loop goes through. -/
theorem exists_parseCore {n : Nat} {is : List (Fin n)} {rest : List Char} (d : Destinations n κ V)
    (h : is.length ≤ (tokens rest).length) :
    ∃ rest' d', parseCore (is.map (coreValue n)) rest d = .ok (rest', d') := by
  induction is generalizing rest d with
  | nil => exact ⟨rest, d, rfl⟩
  | cons i is ih =>
      have hrest : rest ≠ [] := by
        rintro rfl
        rw [tokens_nil] at h
        cases h
      rw [tokens_of_ne_nil hrest] at h
      obtain ⟨rest', d', hparse⟩ := @ih (next rest).2 _ (Nat.le_of_succ_le_succ h)
      refine ⟨rest', d', ?_⟩
      rw [List.map_cons, parseCore, if_neg (by simpa using hrest)]
      exact hparse

/-! ## The keyword parts -/

/-- A part is for one keyword only. -/
theorem Names.unique {k k' : κ} {part : List Char} (h : g.Names k part) (h' : g.Names k' part) : k = k' :=
  List.inj_on_of_nodup_map g.distinct h.1 h'.1 (h.2.trans h'.2.symm)

variable [DecidableEq κ]

/-- A keyword part is handled. -/
def Takes (g : Specification κ V) (part : List Char) (d d' : Destinations g.cores κ V) : Prop :=
  part ≠ [] ∧ ∃ k, g.Names k part ∧ ∃ v, g.accept k (Part.ofToken part).value = .ok v ∧
    d' = { d with kw := Function.update d.kw k v }

/-- Keyword parts are handled one after the other. -/
inductive Handles (g : Specification κ V) :
    List (List Char) → Destinations g.cores κ V → Destinations g.cores κ V → Prop
  | nil (d) : Handles g [] d d
  | cons {part parts d d₁ d'} (h : g.Takes part d d₁) (hrest : Handles g parts d₁ d') :
      Handles g (part :: parts) d d'

/-- The search for a handler finds the keyword that the part is for. -/
theorem find?_kwArg_iff {part : List Char} {kw : KwArg (Destinations g.cores κ V)} :
    g.spec.kwargs.find? (·.key = (Part.ofToken part).key) = some kw ↔ ∃ k, g.Names k part ∧ kw = g.kwArg k := by
  constructor
  · intro h
    have hkey := List.find?_some h
    obtain ⟨k, hk, rfl⟩ := List.mem_map.1 (List.mem_of_find?_eq_some h)
    exact ⟨k, ⟨hk, of_decide_eq_true hkey⟩, rfl⟩
  · rintro ⟨k, hk, rfl⟩
    cases hfind : g.spec.kwargs.find? (·.key = (Part.ofToken part).key) with
    | none =>
        have hno := List.find?_eq_none.1 hfind (g.kwArg k) (List.mem_map_of_mem hk.1)
        exact absurd (decide_eq_true hk.2) hno
    | some kw' =>
        have hkey := List.find?_some hfind
        obtain ⟨k', hk', rfl⟩ := List.mem_map.1 (List.mem_of_find?_eq_some hfind)
        have hnames : g.Names k' part := ⟨hk', of_decide_eq_true hkey⟩
        rw [hnames.unique hk]

theorem takes_iff {part : List Char} {d d' : Destinations g.cores κ V} : g.Takes part d d' ↔ part ≠ [] ∧
    ∃ kw, g.spec.kwargs.find? (·.key = (Part.ofToken part).key) = some kw ∧
      kw.value (Part.ofToken part).value d = .ok d' := by
  refine and_congr_right fun _ => ?_
  constructor
  · rintro ⟨k, hk, v, hv, rfl⟩
    refine ⟨g.kwArg k, find?_kwArg_iff.2 ⟨k, hk, rfl⟩, ?_⟩
    show (g.accept k _).map _ = _
    rw [hv]
    rfl
  · rintro ⟨kw, hkw, hvalue⟩
    obtain ⟨k, hk, rfl⟩ := find?_kwArg_iff.1 hkw
    change (g.accept k _).map _ = _ at hvalue
    cases hv : g.accept k (Part.ofToken part).value with
    | error e =>
        rw [hv] at hvalue
        cases hvalue
    | ok v =>
        rw [hv] at hvalue
        cases hvalue
        exact ⟨k, hk, v, hv, rfl⟩

/-- The keyword loop handles all tokens, or it throws. -/
theorem parseKwargs_ok {n : Nat} {rest : List Char} {d d' : Destinations g.cores κ V} (hn : rest.length ≤ n) :
    parseKwargs g.spec.kwargs n rest d = .ok d' ↔ g.Handles (tokens rest) d d' := by
  have hnil : ∀ {e : Destinations g.cores κ V},
      (Except.ok e : Except ConfigurationError _) = .ok d' ↔ g.Handles (tokens []) e d' := by
    intro e
    rw [tokens_nil]
    constructor
    · intro h
      cases h
      exact .nil _
    · intro h
      cases h
      rfl
  induction n generalizing rest d with
  | zero =>
      obtain rfl : rest = [] := List.eq_nil_of_length_eq_zero (Nat.le_zero.1 hn)
      exact hnil
  | succ n ih =>
      by_cases hrest : rest = []
      · subst hrest
        exact hnil
      · have hshort : (next rest).2.length ≤ n := by
          obtain ⟨c, t, rfl⟩ := List.exists_cons_of_ne_nil hrest
          have hle : ((c :: t).dropWhile (· ≠ ',')).length ≤ (c :: t).length :=
            (List.dropWhile_suffix (· ≠ ',')).length_le
          simp only [next_eq, List.length_drop, List.length_cons] at hn hle ⊢
          omega
        rw [tokens_of_ne_nil hrest, parseKwargs, if_neg (by simpa using hrest)]
        constructor
        · intro h
          dsimp only at h
          split at h
          · cases h
          · next hempty =>
              split at h
              · cases h
              · next kw hkw =>
                  obtain ⟨d₁, hvalue, hloop⟩ := bind_eq_ok.1 h
                  exact .cons (takes_iff.2 ⟨by simpa using hempty, kw, hkw, hvalue⟩) ((ih hshort).1 hloop)
        · intro h
          cases h with
          | cons h hrest' =>
              obtain ⟨hempty, kw, hkw, hvalue⟩ := takes_iff.1 h
              dsimp only
              rw [if_neg (by simpa using hempty), hkw]
              exact bind_eq_ok.2 ⟨_, hvalue, (ih hshort).2 hrest'⟩

/-- All parts can be handled if each of them is acceptable. -/
theorem exists_handles_iff {parts : List (List Char)} {d : Destinations g.cores κ V} :
    (∃ d', g.Handles parts d d') ↔ ∀ part ∈ parts, g.Acceptable part := by
  induction parts generalizing d with
  | nil => simpa using ⟨d, Handles.nil d⟩
  | cons part parts ih =>
      rw [List.forall_mem_cons]
      constructor
      · rintro ⟨d', h⟩
        cases h with
        | cons h hrest =>
            obtain ⟨hne, k, hk, v, hv, -⟩ := h
            exact ⟨⟨hne, k, hk, v, hv⟩, ih.1 ⟨d', hrest⟩⟩
      · rintro ⟨⟨hne, k, hk, v, hv⟩, hrest⟩
        obtain ⟨d', hrest⟩ := ih.2 hrest
        exact ⟨d', .cons ⟨hne, k, hk, v, hv, rfl⟩ hrest⟩

/-- The last value of a keyword stays. -/
theorem Handles.stored {parts : List (List Char)} {d d' : Destinations g.cores κ V} (h : g.Handles parts d d') :
    d'.core = d.core ∧ g.LastStored parts d.kw d'.kw := by
  induction h with
  | nil d => exact ⟨rfl, fun k => .inr ⟨by simp, rfl⟩⟩
  | @cons part parts d d₁ d' h hrest ih =>
      obtain ⟨hne, k₀, hk₀, v, hv, rfl⟩ := h
      refine ⟨ih.1, fun k => ?_⟩
      rcases ih.2 k with ⟨front, p, back, rfl, hp, haccept, hback⟩ | ⟨hnone, hsame⟩
      · exact .inl ⟨part :: front, p, back, rfl, hp, haccept, hback⟩
      · by_cases hk : g.Names k part
        · obtain rfl := hk.unique hk₀
          refine .inl ⟨[], part, parts, rfl, hk, ?_, hnone⟩
          rw [hsame, hv]
          exact congrArg Except.ok (Function.update_self k v d.kw).symm
        · have hne : k ≠ k₀ := fun he => hk (he ▸ hk₀)
          refine .inr ⟨?_, ?_⟩
          · intro p hp
            rcases List.mem_cons.1 hp with rfl | hp
            · exact hk
            · exact hnone p hp
          · rw [hsame]
            exact Function.update_of_ne hne _ _

/-! ## The parser -/

/-- What the parser accepts, in terms of the tokens. -/
theorem exists_parse_iff {arg : List Char} {d : Destinations g.cores κ V} :
    (∃ d', parse arg g.spec d = .ok d') ↔ g.Accepts (tokens arg) := by
  have hlen : (List.finRange g.cores).length = g.cores := List.length_finRange
  constructor
  · rintro ⟨d', h⟩
    obtain ⟨⟨rest, d₁⟩, hcore, hkw⟩ := bind_eq_ok.1 h
    obtain ⟨hle, htokens, -⟩ := parseCore_ok (List.nodup_finRange g.cores) hcore
    rw [hlen] at hle htokens
    have hhandles := (parseKwargs_ok le_rfl).1 hkw
    rw [htokens] at hhandles
    exact ⟨hle, exists_handles_iff.1 ⟨d', hhandles⟩⟩
  · rintro ⟨hle, hall⟩
    obtain ⟨rest, d₁, hcore⟩ := exists_parseCore d (hlen.symm ▸ hle)
    obtain ⟨-, htokens, -⟩ := parseCore_ok (List.nodup_finRange g.cores) hcore
    rw [hlen] at htokens
    rw [← htokens] at hall
    obtain ⟨d', hhandles⟩ := exists_handles_iff.2 hall
    exact ⟨d', bind_eq_ok.2 ⟨(rest, d₁), hcore, (parseKwargs_ok le_rfl).2 hhandles⟩⟩

/-- What the parser stores, in terms of the tokens. -/
theorem parse_stored {arg : List Char} {d d' : Destinations g.cores κ V} (h : parse arg g.spec d = .ok d') :
    g.Stored (tokens arg) d d' := by
  have hlen : (List.finRange g.cores).length = g.cores := List.length_finRange
  obtain ⟨⟨rest, d₁⟩, hcore, hkw⟩ := bind_eq_ok.1 h
  obtain ⟨hle, htokens, hsame, -, hstored⟩ := parseCore_ok (List.nodup_finRange g.cores) hcore
  rw [hlen] at hle htokens
  obtain ⟨hcores, hlast⟩ := ((parseKwargs_ok le_rfl).1 hkw).stored
  rw [htokens, hsame] at hlast
  refine ⟨?_, hlast⟩
  intro i
  rw [hcores]
  exact hstored i.val i (by simp)

omit [DecidableEq κ] in
theorem not_acceptable_nil : ¬ g.Acceptable [] := fun h => h.1 rfl

/-- A string that the parser does not take, it should not take. -/
theorem meets_iff_of_not_accepts {arg : List Char} {d : Destinations g.cores κ V} (h : ¬ g.Accepts (tokens arg)) :
    g.Meets arg d ↔ ¬ g.Accepts (arg.splitOn ',') := by
  unfold Meets
  rw [exists_parse_iff]
  constructor
  · rintro ⟨hiff, -⟩ haccepts
    exact h (hiff.2 haccepts)
  · intro hnot
    refine ⟨iff_of_false h hnot, ?_⟩
    intro d' hparse
    exact absurd (exists_parse_iff.1 ⟨d', hparse⟩) h

/-- The parser takes an option string, and stores its parts, as it should exactly if the part that it misses
does not matter. -/
theorem parse_meets_iff (g : Specification κ V) (arg : List Char) (d : Destinations g.cores κ V) :
    g.Meets arg d ↔ g.Regular arg := by
  unfold Regular
  by_cases hlast : (arg.splitOn ',').getLast? = some []
  · -- the parts are the tokens and an empty one
    obtain ⟨front, hparts⟩ : ∃ front, arg.splitOn ',' = front ++ [[]] := List.getLast?_eq_some_iff.1 hlast
    have htokens : tokens arg = front := by
      rw [tokens, if_pos hlast, hparts, List.dropLast_concat]
    have hlen : (arg.splitOn ',').length = front.length + 1 := by simp [hparts]
    by_cases hcores : g.cores ≤ front.length
    · have hdrop : (arg.splitOn ',').drop g.cores = front.drop g.cores ++ [[]] := by
        rw [hparts, List.drop_append_of_le_length hcores]
      have hnot : ¬ g.Accepts (arg.splitOn ',') := by
        intro h
        refine not_acceptable_nil (g := g) (h.2 [] ?_)
        simp [hdrop]
      have hnot' : ¬ g.Accepts (tokens arg) ↔ ∃ part ∈ front.drop g.cores, ¬ g.Acceptable part := by
        simp [htokens, Accepts, hcores]
      rw [hdrop, List.dropLast_concat, ← hnot']
      constructor
      · rintro ⟨h, -⟩
        rw [exists_parse_iff] at h
        exact .inr (.inr ⟨by omega, mt h.1 hnot⟩)
      · rintro (h | h | ⟨-, h⟩)
        · exact absurd hlast h
        · omega
        · exact (meets_iff_of_not_accepts h).2 hnot
    · have hnot : ¬ g.Accepts (tokens arg) := by
        rw [htokens]
        exact fun h => hcores h.1
      rw [meets_iff_of_not_accepts hnot]
      constructor
      · intro h
        refine .inr (.inl ?_)
        by_contra hle
        refine h ⟨by omega, ?_⟩
        rw [List.drop_eq_nil_of_le (by omega)]
        simp
      · rintro (h | h | ⟨h, -⟩) haccepts
        · exact absurd hlast h
        · exact absurd haccepts.1 (by omega)
        · omega
  · have htokens : tokens arg = arg.splitOn ',' := if_neg hlast
    have hmeets : g.Meets arg d := by
      rw [Meets, ← htokens]
      exact ⟨exists_parse_iff, fun d' h => parse_stored h⟩
    exact iff_of_true hmeets (.inl hlast)

/-- The specification of `add_map`: two core parts and the keyword `exec`. -/
def addMap : Specification Unit fun _ => List Char where
  cores := 2
  kws := [()]
  key := fun _ => "exec".toList
  accept := fun _ v => .ok v
  distinct := List.nodup_singleton _

/-- An empty keyword part at the end is let through, and an empty core part at the end is missed. -/
theorem addMap_trailing_comma :
    ¬ addMap.Meets "/a,/b,".toList ⟨fun _ => [], fun _ => []⟩ ∧
      ¬ addMap.Meets "/a,".toList ⟨fun _ => [], fun _ => []⟩ := by
  constructor
  · rintro ⟨h, -⟩
    have hparts : "/a,/b,".toList.splitOn ',' = ["/a".toList, "/b".toList, []] := by decide
    have htokens : tokens "/a,/b,".toList = ["/a".toList, "/b".toList] := by decide
    have haccepts : addMap.Accepts (tokens "/a,/b,".toList) := by
      rw [htokens]
      exact ⟨by decide, by simp [addMap]⟩
    rw [exists_parse_iff, hparts] at h
    exact not_acceptable_nil (g := addMap) ((h.1 haccepts).2 [] (by simp [addMap]))
  · rintro ⟨h, -⟩
    have hparts : "/a,".toList.splitOn ',' = ["/a".toList, []] := by decide
    have htokens : tokens "/a,".toList = ["/a".toList] := by decide
    have haccepts : addMap.Accepts ["/a".toList, []] := ⟨by decide, by simp [addMap]⟩
    rw [exists_parse_iff, hparts, htokens] at h
    exact absurd (h.2 haccepts).1 (by decide)

end Specification
end Qine.CommandOptions

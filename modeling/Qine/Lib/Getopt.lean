import Mathlib.Data.List.Basic

/-!
# Command lines

How `getopt_long` reads a command line: options and their arguments are recognised from left to right, a lone
pair of dashes ends them, and what is not an option is an operand. Where operands may stand between options,
they are moved behind them. Options are written `-c` with a letter, several of them in one word, or `--name`;
an argument follows in the same word (behind `=` for a name) or is the next word.

`scan_consumed_append` is the use of it: the words that were options on one command line are the same options
in front of any other one.
-/

namespace Getopt

universe u v

/-- Whether an option has an argument. -/
inductive Arity where
  | no
  | required
  deriving DecidableEq, Repr

/-- The options of a program: what its letters and its names stand for. -/
structure Options (α : Type u) (κ : Type v) where
  dash : α
  eq : α
  letter : α → Option (κ × Arity)
  name : List α → Option (κ × Arity)

/-- What `getopt_long` reports. -/
inductive Item (α : Type u) (κ : Type v) where
  | option (key : κ) (arg : Option (List α))
  /-- `?`: an unknown letter, or an argument that is missing or not wanted -/
  | bad
  /-- a name that is none of the options' -/
  | unmatched (name : List α)
  deriving DecidableEq, Repr

/-- What a word of the command line is. -/
inductive Element (α : Type u) (κ : Type v) where
  | terminator
  | operand
  /-- options, and maybe one more that has the next word as its argument -/
  | options (items : List (Item α κ)) (wants : Option κ)
  deriving DecidableEq, Repr

/-- A command line that has been read. -/
structure Scan (α : Type u) (κ : Type v) where
  items : List (Item α κ)
  /-- the options and their arguments -/
  consumed : List (List α)
  /-- the options were ended by a pair of dashes -/
  terminated : Bool
  operands : List (List α)
  deriving DecidableEq, Repr

variable {α : Type u} {κ : Type v}

/-- Options in front of what has been read. -/
def Scan.push (s : Scan α κ) (items : List (Item α κ)) (consumed : List (List α)) : Scan α κ :=
  { s with items := items ++ s.items, consumed := consumed ++ s.consumed }

/-- An operand in front of what has been read. -/
def Scan.pushOperand (s : Scan α κ) (arg : List α) : Scan α κ := { s with operands := arg :: s.operands }

@[simp] theorem Scan.push_nil (s : Scan α κ) : s.push [] [] = s := rfl

@[simp] theorem Scan.push_push (s : Scan α κ) (items items' : List (Item α κ))
    (consumed consumed' : List (List α)) :
    (s.push items consumed).push items' consumed' = s.push (items' ++ items) (consumed' ++ consumed) := by
  simp [Scan.push]

@[simp] theorem Scan.push_items (s : Scan α κ) (items : List (Item α κ)) (consumed : List (List α)) :
    (s.push items consumed).items = items ++ s.items := rfl

@[simp] theorem Scan.push_consumed (s : Scan α κ) (items : List (Item α κ)) (consumed : List (List α)) :
    (s.push items consumed).consumed = consumed ++ s.consumed := rfl

@[simp] theorem Scan.pushOperand_items (s : Scan α κ) (arg : List α) : (s.pushOperand arg).items = s.items := rfl

@[simp] theorem Scan.pushOperand_consumed (s : Scan α κ) (arg : List α) :
    (s.pushOperand arg).consumed = s.consumed := rfl

namespace Options

variable (o : Options α κ)

/-- The pair of dashes that ends the options. -/
def dashes : List α := [o.dash, o.dash]

/-- A word of letters. -/
def letters [DecidableEq α] : List α → List (Item α κ) × Option κ
  | [] => ([], none)
  | c :: cs =>
    match o.letter c with
    | none => (.bad :: (letters cs).1, (letters cs).2)
    | some (key, .no) => (.option key none :: (letters cs).1, (letters cs).2)
    | some (key, .required) => if cs = [] then ([], some key) else ([.option key (some cs)], none)

/-- The argument of a long option in the same word. -/
def attached [DecidableEq α] (word : List α) : Option (List α) :=
  if o.eq ∈ word then some ((word.dropWhile (· ≠ o.eq)).drop 1) else none

/-- A word with a name. -/
def long [DecidableEq α] (word : List α) : List (Item α κ) × Option κ :=
  match o.name (word.takeWhile (· ≠ o.eq)), o.attached word with
  | none, _ => ([.unmatched (word.takeWhile (· ≠ o.eq))], none)
  | some (key, .no), none => ([.option key none], none)
  | some (_, .no), some _ => ([.bad], none)
  | some (key, .required), none => ([], some key)
  | some (key, .required), some value => ([.option key (some value)], none)

/-- What a word is. A dash on its own is an operand. -/
def element [DecidableEq α] (word : List α) : Element α κ :=
  if word = o.dashes then .terminator
  else
    match word with
    | a :: b :: rest =>
      if a ≠ o.dash then .operand
      else if b = o.dash then .options (o.long rest).1 (o.long rest).2
      else .options (o.letters (b :: rest)).1 (o.letters (b :: rest)).2
    | _ => .operand

/-- Read a command line; with `permute`, operands may stand between options. -/
def scan [DecidableEq α] (permute : Bool) : List (List α) → Scan α κ
  | [] => ⟨[], [], false, []⟩
  | word :: words =>
    match o.element word with
    | .terminator => ⟨[], [], true, words⟩
    | .operand => if permute then (scan permute words).pushOperand word else ⟨[], [], false, word :: words⟩
    | .options items none => (scan permute words).push items [word]
    | .options items (some key) =>
      match words with
      | [] => ⟨items ++ [.bad], [word], false, []⟩
      | value :: words => (scan permute words).push (items ++ [.option key (some value)]) [word, value]

/-- The command line as it is afterwards, up to the operands. -/
def front (s : Scan α κ) : List (List α) := s.consumed ++ if s.terminated then [o.dashes] else []

variable [DecidableEq α] {o} {permute : Bool} {word : List α} {words : List (List α)}

/-! ## What becomes of the words -/

@[simp] theorem element_dashes : o.element o.dashes = .terminator := if_pos rfl

@[simp] theorem scan_nil : o.scan permute [] = ⟨[], [], false, []⟩ := rfl

theorem scan_of_options {items : List (Item α κ)} (h : o.element word = .options items none) :
    o.scan permute (word :: words) = (o.scan permute words).push items [word] := by
  rw [scan, h]

theorem scan_of_wants {items : List (Item α κ)} {key : κ} (h : o.element word = .options items (some key))
    (value : List α) :
    o.scan permute (word :: value :: words) =
      (o.scan permute words).push (items ++ [.option key (some value)]) [word, value] := by
  rw [scan, h]

@[simp] theorem scan_dashes : o.scan permute (o.dashes :: words) = ⟨[], [], true, words⟩ := by
  rw [scan, element_dashes]

/-- Read in front of any other command line, what were options are the same options, wherever operands may
stand. -/
theorem scan_consumed_append {permute : Bool} (permute' : Bool) (words rest : List (List α))
    (hgood : Item.bad ∉ (o.scan permute words).items) :
    o.scan permute' ((o.scan permute words).consumed ++ rest) =
      (o.scan permute' rest).push (o.scan permute words).items (o.scan permute words).consumed := by
  fun_induction scan o permute words with
  | case1 => rfl
  | case2 word words h => rfl
  | case3 word words h hpermute ih => exact ih hgood
  | case4 word words h hpermute => rfl
  | case5 word words items h ih =>
      have hrest := ih fun hbad => hgood (List.mem_append_right _ hbad)
      rw [Scan.push_consumed, List.append_assoc, List.singleton_append, scan_of_options h, hrest]
      simp
  | case6 word items key h => simp at hgood
  | case7 word items key h value words ih =>
      have hrest := ih fun hbad => hgood (List.mem_append_right _ hbad)
      rw [Scan.push_consumed, List.append_assoc, List.cons_append, List.singleton_append, scan_of_wants h, hrest]
      simp

/-- A pair of dashes among the options is the argument of one. -/
theorem dashes_mem_consumed {permute : Bool} {words : List (List α)}
    (hmem : o.dashes ∈ (o.scan permute words).consumed) :
    Item.bad ∈ (o.scan permute words).items ∨
      ∃ key, Item.option key (some o.dashes) ∈ (o.scan permute words).items := by
  fun_induction scan o permute words with
  | case1 => cases hmem
  | case2 word words h => cases hmem
  | case3 word words h hpermute ih => exact ih hmem
  | case4 word words h hpermute => cases hmem
  | case5 word words items h ih =>
      rcases List.mem_cons.1 hmem with rfl | hmem
      · simp at h
      · exact (ih hmem).imp (List.mem_append_right _) fun ⟨key, hkey⟩ => ⟨key, List.mem_append_right _ hkey⟩
  | case6 word items key h => exact .inl (List.mem_append_right _ List.mem_cons_self)
  | case7 word items key h value words ih =>
      rcases List.mem_cons.1 hmem with rfl | hmem
      · simp at h
      · rcases List.mem_cons.1 hmem with rfl | hmem
        · exact .inr ⟨key, by simp⟩
        · exact (ih hmem).imp (List.mem_append_right _) fun ⟨key, hkey⟩ => ⟨key, List.mem_append_right _ hkey⟩

end Options

end Getopt

import Qine.Types

/-!
# Option strings

The parser for option arguments such as `path,path2,flag1,kw=x` (`cmd_opts.cpp`): a number of core
parts that are required, followed by keyword parts. The handlers store into the caller's variables;
here they transform the caller's state `σ`.

A C string is the list of its bytes without the terminator, each byte written as a character.
-/

namespace Qine

/-- `ConfigurationError`, with its message. -/
structure ConfigurationError where
  what : String
  deriving DecidableEq, Repr

namespace CommandOptions

variable {σ : Type}

/-- `Part`: the key and the value of a keyword part. -/
structure Part where
  key : List Char
  value : List Char
  deriving DecidableEq, Repr

/-- `Value::handle`. -/
abbrev Value (σ : Type) := List Char → σ → Except ConfigurationError σ

/-- `KwArg`: a handler and the key it answers to. -/
structure KwArg (σ : Type) where
  key : List Char
  value : Value σ

/-- `CommandSpec`. -/
structure CommandSpec (σ : Type) where
  core : List (Value σ)
  kwargs : List (KwArg σ)

/-- `String::handle`, storing through `set`. -/
def string (set : List Char → σ → σ) : Value σ := fun v s => .ok (set v s)

/-- `Tokenizer::next`, on the part of the argument from `pos` on: the token, and what is left. -/
def next (rest : List Char) : List Char × List Char :=
  (rest.takeWhile (· ≠ ','), (rest.dropWhile (· ≠ ',')).drop 1)

/-- The core loop of `parse`. `argi` is never advanced, so the message for a later part is never
used. -/
def parseCore : List (Value σ) → List Char → σ → Except ConfigurationError (List Char × σ)
  | [], rest, s => .ok (rest, s)
  | v :: vs, rest, s =>
    if rest.isEmpty then .error ⟨"Argument missing"⟩
    else do
      let s ← v (next rest).1 s
      parseCore vs (next rest).2 s

/-- A keyword part, split at its first `=`. -/
def Part.ofToken (t : List Char) : Part :=
  ⟨t.takeWhile (· ≠ '='), (t.dropWhile (· ≠ '=')).drop 1⟩

/-- The keyword loop of `parse`; every pass shortens `rest`, so its length is fuel enough. -/
def parseKwargs (kwargs : List (KwArg σ)) : Nat → List Char → σ → Except ConfigurationError σ
  | 0, _, s => .ok s
  | n + 1, rest, s =>
    if rest.isEmpty then .ok s
    else
      let token := (next rest).1
      if token.isEmpty then .error ⟨"Empty optional argument part"⟩
      else
        let part := Part.ofToken token
        match kwargs.find? (·.key = part.key) with
        | none =>
          .error ⟨"Argument part '" ++ String.ofList part.key ++ "' is not recognized"⟩
        | some kw => do
          let s ← kw.value part.value s
          parseKwargs kwargs n (next rest).2 s

/-- `CommandOptions::parse`. -/
def parse (arg : List Char) (spec : CommandSpec σ) (s : σ) : Except ConfigurationError σ := do
  let (rest, s) ← parseCore spec.core arg s
  parseKwargs spec.kwargs rest.length rest s

end CommandOptions
end Qine

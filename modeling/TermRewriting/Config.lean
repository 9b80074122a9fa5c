import TermRewriting.Text.Blank
import TermRewriting.Text.Numeral

/-! Settings for rewriting: their defaults, saving and loading them in some format, and overrides given
as text. -/

namespace TermRewriting

structure Config where
  /-- Passes that a repeated replacement may make; `none` is no limit. -/
  maxIterations : Option Nat := some 65535
  /-- Whether replacement at levels goes into heads. -/
  heads : Bool := false
  /-- Results that a list of them may have; `none` is no limit. -/
  maxResults : Option Nat := none
deriving DecidableEq, Inhabited

inductive ConfigError where
  | missingFile
  | malformed
  | unwritable
  | zeroIterations
deriving DecidableEq

def ConfigError.message : ConfigError → String
  | .missingFile => "IO error"
  | .malformed => "TOML parsing error"
  | .unwritable => "TOML serialization error"
  | .zeroIterations =>
    "Validation error: max_iterations must be greater than 0 (omit it for no limit)"

namespace Config

def validate (c : Config) : Except ConfigError Unit :=
  if c.maxIterations = some 0 then .error .zeroIterations else .ok ()

structure Overrides where
  maxIterations : Option String := none
  heads : Option String := none
  maxResults : Option String := none

/-- A count that fits 64 bits, with an optional plus sign. -/
def count? (cs : List Char) : Option Nat :=
  (Text.numeral? 10 (if cs.head? = some '+' then cs.tail else cs)).filter (· ≤ 0xFFFFFFFFFFFFFFFF)

/-- A count, or a word for no limit; blanks around it do not matter. -/
def limit? (text : String) : Option (Option Nat) :=
  let cs := Text.trim text.toList
  let word := String.ofList (cs.map Char.toLower)
  if word = "infinity" || word = "none" then some none else (count? cs).map some

def truth? (text : String) : Option Bool :=
  if text = "true" then some true else if text = "false" then some false else none

/-- An override that cannot be read leaves the setting as it is. -/
def override (c : Config) (o : Overrides) : Config where
  maxIterations := (o.maxIterations.bind limit?).getD c.maxIterations
  heads := (o.heads.bind truth?).getD c.heads
  maxResults := (o.maxResults.bind limit?).getD c.maxResults

/-- What writes settings to a file and reads them from one, as a library for a file format provides it. -/
structure Format where
  /-- The text for settings, unless they cannot be written. -/
  write : Config → Option String
  /-- The settings in a text, unless it is malformed. -/
  read : String → Option Config

def save (format : Format) (c : Config) : Except ConfigError String :=
  match format.write c with
  | some text => .ok text
  | none => .error .unwritable

def load (format : Format) (text : Option String) (o : Overrides) : Except ConfigError Config := do
  let some text := text | throw .missingFile
  let some config := format.read text | throw .malformed
  let config := config.override o
  config.validate
  return config

end Config

end TermRewriting

import TermRewriting.Config
import TermRewriting.Decimal.Basic
import TermRewriting.Toml.Document

/-! A format for settings: flat documents with a line for every setting that has a value. Of what TOML
allows beside them, tables, dotted keys, dates and strings over several lines are malformed here. -/

namespace TermRewriting.Toml

def setting (read : Value → Option α) (default : α) (entry : Option Value) : Option α :=
  entry.elim (some default) read

def readCount : Value → Option (Option Nat)
  | .integer n => if 0 ≤ n then some (some n.toNat) else none
  | _ => none

def readTruth : Value → Option Bool
  | .boolean b => some b
  | _ => none

/-- Settings that are missing have their defaults, and keys of no setting are ignored. -/
def readSettings (text : String) : Option Config := do
  let entries ← document? text
  let defaults : Config := {}
  return {
    maxIterations := ← setting readCount defaults.maxIterations (entries.lookup "max_iterations")
    heads := ← setting readTruth defaults.heads (entries.lookup "heads")
    maxResults := ← setting readCount defaults.maxResults (entries.lookup "max_results") }

def countLine (key : String) : Option Nat → String
  | some n => key ++ " = " ++ Decimal.ofNat n ++ "\n"
  | none => ""

/-- Integers in a document are of 64 bits with a sign. -/
def writeSettings (c : Config) : Option String :=
  if c.maxIterations.any (0x7FFFFFFFFFFFFFFF < ·) || c.maxResults.any (0x7FFFFFFFFFFFFFFF < ·) then none
  else some (countLine "max_iterations" c.maxIterations
    ++ "heads = " ++ (if c.heads then "true" else "false") ++ "\n"
    ++ countLine "max_results" c.maxResults)

def settings : Config.Format := ⟨writeSettings, readSettings⟩

end TermRewriting.Toml

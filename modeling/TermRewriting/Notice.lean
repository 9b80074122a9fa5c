import TermRewriting.Term.Format

/-! What rewriting reports on the side: events in the order in which they happen, with the text of the
line for each. All but the fatal one fail no operation. -/

namespace TermRewriting

inductive Operation where
  | replace
  | replaceAll
  | replaceRepeated
  | replaceList
deriving DecidableEq

def Operation.name : Operation → String
  | .replace => "Replace"
  | .replaceAll => "ReplaceAll"
  | .replaceRepeated => "ReplaceRepeated"
  | .replaceList => "ReplaceList"

inductive Notice where
  /-- An optional pattern found no default value; only that attempt fails. -/
  | missingDefault (head : Option String) (position : Option Nat)
  /-- A repeated replacement used up its passes. -/
  | iterationLimit (start : Term) (limit : Nat)
  /-- A repeated replacement was broken off on request. -/
  | aborted
  /-- A rule turned a term into the result. -/
  | applied (operation : Operation) (rule result : Term)
  | compiledDispatch (count : Nat)
  /-- A list was to be made that is longer than any can be. The operation breaks down there and has no
  result; nothing that comes after this notice happens. -/
  | capacityOverflow

namespace Notice

inductive Severity where
  | fatal
  | warn
  | debug
  | trace
deriving DecidableEq

def Severity.name : Severity → String
  | .fatal => "FATAL"
  | .warn => "WARN"
  | .debug => "DEBUG"
  | .trace => "TRACE"

def severity : Notice → Severity
  | .missingDefault .. | .iterationLimit .. | .aborted => .warn
  | .applied .. => .debug
  | .compiledDispatch _ => .trace
  | .capacityOverflow => .fatal

def missingDefaultKey : String × String := ("Pattern", "nodef")

def iterationLimitKey : String × String := (Operation.replaceRepeated.name, "rrlim")

def keyText (key : String × String) : String := key.1 ++ "::" ++ key.2 ++ ": "

def positionText : Option Nat → String
  | none => "None"
  | some n => "Some(" ++ Decimal.ofNat n ++ ")"

def message : Notice → String
  | .missingDefault head position =>
    keyText missingDefaultKey ++ "no default value for " ++ head.getD "<unknown>" ++ " at position "
      ++ positionText position
  | .iterationLimit start limit =>
    keyText iterationLimitKey ++ "exiting after " ++ start.format ++ " scanned "
      ++ Decimal.ofNat limit ++ " times"
  | .aborted => Operation.replaceRepeated.name ++ ": aborted"
  | .applied operation rule result =>
    operation.name ++ ": " ++ rule.format ++ " -> " ++ result.format
  | .compiledDispatch count => "compiled dispatch of " ++ Decimal.ofNat count ++ " rules"
  | .capacityOverflow => "capacity overflow"

def line (n : Notice) : String := n.severity.name ++ " " ++ n.message

end Notice

end TermRewriting

/-!
# What can go wrong

The causes of failure and their wording. `SelectorError.isGrammar` separates faults of the selector
text from faults of the host, of the settings and of the library that builds patterns.
-/

namespace TreeQuery

/-- Why settings or a fixture were refused. -/
inductive ConfigFault where
  /-- The text, or the file that should hold it, could not be read as what it should be. -/
  | unreadable (what : String)
  /-- A capacity or limit is zero. -/
  | notPositive (name : String)
  /-- A fixture node has neither a tag nor a text. -/
  | emptyFixture
  deriving Repr, DecidableEq, Inhabited

inductive SelectorError where
  /-- The selector text cannot be read from here on. -/
  | unrecognized (text : String)
  | unsupportedPseudo (name : String)
  /-- A counted position without its argument. -/
  | missingArgument (text : String)
  | unsupportedLang (tag : String)
  /-- A pattern that the pattern library does not build. -/
  | invalidPattern (reason : String)
  | host (reason : String)
  | config (fault : ConfigFault)
  deriving Repr, DecidableEq, Inhabited

def ConfigFault.message : ConfigFault → String
  | .unreadable what => what
  | .notPositive name => name ++ " must be at least 1"
  | .emptyFixture => "fixture node needs a tag or text"

def SelectorError.message : SelectorError → String
  | .unrecognized text => "Syntax error, unrecognized expression: " ++ text
  | .unsupportedPseudo name => "Syntax error, unsupported pseudo: " ++ name
  | .missingArgument text => "Syntax error, " ++ text ++ " requires an argument"
  | .unsupportedLang tag => "Syntax error, unsupported lang: " ++ tag
  | .invalidPattern reason => "Invalid pattern: " ++ reason
  | .host reason => "Host error: " ++ reason
  | .config fault => "Configuration error: " ++ fault.message

/-- Faults of the selector text itself. -/
def SelectorError.isGrammar : SelectorError → Bool
  | .unrecognized _ | .unsupportedPseudo _ | .missingArgument _ | .unsupportedLang _ => true
  | .invalidPattern _ | .host _ | .config _ => false

end TreeQuery

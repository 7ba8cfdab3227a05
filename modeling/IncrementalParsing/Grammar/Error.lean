/-!
Grammars that cannot be compiled. Each cause is a constructor that carries the names it is about; the
wording is kept in one place.
-/

namespace IncrementalParsing

inductive Counted where
  | symbols
  | states
deriving DecidableEq, Repr

/-- What an undecided state could do on a terminal: shift it, or reduce a production. -/
structure ConflictReport where
  terminal : String
  production : String
deriving DecidableEq, Repr

inductive ConfigurationError where
  | missingStart (grammar : String)
  | hiddenStart (rule : String)
  | duplicateName (name : String)
  | undefinedSymbol (rule symbol : String)
  | unproductiveRule (rule : String)
  | invalidWord (word : String)
  | unscannedToken (token : String)
  | emptyRepeat (rule : String)
  | emptyLiteral (rule : String)
  | tooMany (counted : Counted) (limit : Nat)
  | conflict (state : Nat) (report : ConflictReport)
  | unknownLanguage (name : String)
deriving DecidableEq, Repr

def Counted.render : Counted → String
  | .symbols => "symbols"
  | .states => "states"

def ConfigurationError.message : ConfigurationError → String
  | .missingStart grammar => s!"grammar `{grammar}` has no rules"
  | .hiddenStart rule => s!"start rule `{rule}` must not be hidden"
  | .duplicateName name => s!"symbol `{name}` is defined more than once"
  | .undefinedSymbol rule symbol => s!"rule `{rule}` refers to undefined symbol `{symbol}`"
  | .unproductiveRule rule => s!"rule `{rule}` cannot derive any finite text"
  | .invalidWord word => s!"word token `{word}` is not a scanned token"
  | .unscannedToken token => s!"token `{token}` is not produced by the scanner"
  | .emptyRepeat rule => s!"rule `{rule}` repeats a rule that matches the empty string"
  | .emptyLiteral rule => s!"rule `{rule}` contains an empty literal"
  | .tooMany counted limit => s!"grammar has more than {limit} {counted.render}"
  | .conflict state report =>
      s!"unresolved conflict in state {state}: shift `{report.terminal}` or reduce `{report.production}`"
  | .unknownLanguage name => s!"no language named `{name}` is registered"

end IncrementalParsing

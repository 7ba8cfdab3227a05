import IncrementalParsing.Lalr.Run

/-!
Tables as text. Symbols go by their names; an action is written behind the terminal that it is for, a
goto behind the nonterminal, and a production with the fields of its right-hand side. What a table does
not have (errors, missing gotos) is left out.
-/

namespace IncrementalParsing.Table

def kindName (table : Table) (kind : KindId) : String := table.kinds.name kind

/-- A kind by its place among the terminals or among the nonterminals. -/
def renderKind (table : Table) (kind : KindId) : String :=
  match table.symbol kind with
  | .terminal kind => s!"t{kind.index}"
  | .nonterminal id => s!"n{id.index}"

def renderAction : Action → Option String
  | .error => none
  | .shift target => some s!"s{target.index}"
  | .reduce production => some s!"r{production.index}"
  | .accept => some "acc"

def renderActions (table : Table) (state : StateId) : List String :=
  (List.range table.terminalCount).filterMap fun index =>
    let terminal := KindId.ofIndex index
    (renderAction (table.action state terminal)).map (s!"{table.kindName terminal} " ++ ·)

def renderGotos (table : Table) (state : StateId) : List String :=
  (List.range table.nonterminalCount).filterMap fun index =>
    let kind := KindId.ofIndex (table.terminalCount + index)
    (table.goto state kind).map (fun target => s!"{table.kindName kind} {target.index}")

/-- A symbol of a right-hand side, marked as a terminal or a nonterminal, behind its field. -/
def renderSymbol (table : Table) (symbol : Symbol) (field : Option FieldId) :
    Except Fault String := do
  let label ←
    match field with
    | none => pure ""
    | some field => (· ++ "=") <$> table.kinds.fieldName field
  let mark :=
    match symbol with
    | .terminal _ => "t:"
    | .nonterminal _ => "n:"
  return label ++ mark ++ table.kindName (table.symbolKind symbol)

def renderProduction (table : Table) (production : ProductionInfo) : Except Fault String := do
  let symbols ← (production.symbols.zip production.fields).mapM
    (fun step => table.renderSymbol step.1 step.2)
  return symbols.foldl (· ++ " " ++ ·) (table.kindName production.lhs ++ " ->")

def renderReduction (table : Table) (reduction : Reduction) : String :=
  s!"{table.kindName reduction.lhs}@{reduction.position}"

end IncrementalParsing.Table

import IncrementalParsing.Proofs.Grammar.Derivation

/-!
What sentential forms begin with. A step of a derivation takes place in one of the parts of a form, so that
the parts of a form are derived on their own. A form begins with a terminal because one of its symbols does
and those before it vanish.
-/

namespace IncrementalParsing.Grammar

/-- Some form that begins with the terminal is derived from the symbols. -/
def Begins (grammar : Grammar) (symbols : List Symbol) (terminal : KindId) : Prop :=
  ∃ rest, grammar.Derives symbols (.terminal terminal :: rest)

/-- What can be the first terminal of some symbols and of a terminal behind them. -/
def FirstOf (grammar : Grammar) (symbols : List Symbol) (tail terminal : KindId) : Prop :=
  grammar.Begins (symbols ++ [.terminal tail]) terminal

variable {grammar : Grammar} {left right form : List Symbol}

theorem Produces.split (produces : grammar.Produces (left ++ right) form) :
    (∃ first, form = first ++ right ∧ grammar.Produces left first) ∨
      ∃ second, form = left ++ second ∧ grammar.Produces right second := by
  generalize whole : left ++ right = source at produces
  obtain @⟨number, production, before, after, found⟩ := produces
  rcases List.append_eq_append_iff.mp whole with ⟨gap, rfl, rightEq⟩ | ⟨gap, leftEq, afterEq⟩
  · subst rightEq
    right
    refine ⟨gap ++ production.symbols ++ after, ?_, .apply gap after found⟩
    simp only [List.append_assoc]
  · subst leftEq
    cases gap with
    | nil =>
        right
        rw [List.nil_append] at afterEq
        subst afterEq
        refine ⟨[] ++ production.symbols ++ after, ?_, .apply [] after found⟩
        simp only [List.append_nil, List.nil_append, List.append_assoc]
    | cons first gap =>
        rw [List.cons_append] at afterEq
        obtain ⟨rfl, rfl⟩ := List.cons.inj afterEq
        left
        refine ⟨before ++ production.symbols ++ gap, ?_, .apply before gap found⟩
        simp only [List.append_assoc]

theorem Derives.split (derives : grammar.Derives (left ++ right) form) :
    ∃ first second, form = first ++ second ∧ grammar.Derives left first ∧ grammar.Derives right second := by
  induction derives with
  | refl => exact ⟨left, right, rfl, .refl, .refl⟩
  | tail _ produces ih =>
      obtain ⟨first, second, rfl, leftDerives, rightDerives⟩ := ih
      rcases produces.split with ⟨next, rfl, here⟩ | ⟨next, rfl, here⟩
      · exact ⟨next, second, rfl, leftDerives.tail here, rightDerives⟩
      · exact ⟨first, next, rfl, leftDerives, rightDerives.tail here⟩

theorem Derives.of_nil (derives : grammar.Derives [] form) : form = [] := by
  induction derives with
  | refl => rfl
  | tail _ produces ih =>
      subst ih
      generalize empty : ([] : List Symbol) = source at produces
      obtain ⟨before, after, _⟩ := produces
      cases before <;> cases empty

theorem Derives.of_terminal {kind : KindId} (derives : grammar.Derives [.terminal kind] form) :
    form = [.terminal kind] := by
  induction derives with
  | refl => rfl
  | tail _ produces ih =>
      subst ih
      generalize single : [Symbol.terminal kind] = source at produces
      obtain ⟨before, after, _⟩ := produces
      cases before with
      | nil => cases single
      | cons first before =>
          have none := (List.cons.inj single).2
          cases before <;> cases none

theorem derives_append_nil :
    grammar.Derives (left ++ right) [] ↔ grammar.Derives left [] ∧ grammar.Derives right [] := by
  constructor
  · intro derives
    obtain ⟨first, second, empty, leftDerives, rightDerives⟩ := derives.split
    obtain ⟨rfl, rfl⟩ := List.append_eq_nil_iff.mp empty.symm
    exact ⟨leftDerives, rightDerives⟩
  · intro both
    exact both.1.append both.2

theorem begins_append {terminal : KindId} : grammar.Begins (left ++ right) terminal ↔
    grammar.Begins left terminal ∨ grammar.Derives left [] ∧ grammar.Begins right terminal := by
  constructor
  · rintro ⟨rest, derives⟩
    obtain ⟨first, second, whole, leftDerives, rightDerives⟩ := derives.split
    cases first with
    | nil =>
        rw [List.nil_append] at whole
        exact Or.inr ⟨leftDerives, rest, whole ▸ rightDerives⟩
    | cons symbol first =>
        obtain ⟨rfl, rfl⟩ := List.cons.inj whole
        exact Or.inl ⟨first, leftDerives⟩
  · rintro (⟨rest, derives⟩ | ⟨vanishes, rest, derives⟩)
    · exact ⟨rest ++ right, derives.append .refl⟩
    · exact ⟨rest, vanishes.append derives⟩

theorem derives_cons_nil {symbol : Symbol} {rest : List Symbol} : grammar.Derives (symbol :: rest) [] ↔
    grammar.Derives [symbol] [] ∧ grammar.Derives rest [] :=
  @derives_append_nil grammar [symbol] rest

theorem begins_cons {symbol : Symbol} {rest : List Symbol} {terminal : KindId} :
    grammar.Begins (symbol :: rest) terminal ↔
      grammar.Begins [symbol] terminal ∨ grammar.Derives [symbol] [] ∧ grammar.Begins rest terminal :=
  @begins_append grammar [symbol] rest terminal

theorem begins_terminal {kind terminal : KindId} :
    grammar.Begins [.terminal kind] terminal ↔ terminal = kind := by
  constructor
  · rintro ⟨rest, derives⟩
    cases derives.of_terminal
    rfl
  · rintro rfl
    exact ⟨[], .refl⟩

theorem not_begins_nil {terminal : KindId} : ¬ grammar.Begins [] terminal := by
  rintro ⟨rest, derives⟩
  cases derives.of_nil

theorem not_derives_terminal_nil {kind : KindId} : ¬ grammar.Derives [.terminal kind] [] := by
  intro derives
  cases derives.of_terminal

theorem firstOf_iff {symbols : List Symbol} {tail terminal : KindId} :
    grammar.FirstOf symbols tail terminal ↔
      grammar.Begins symbols terminal ∨ grammar.Derives symbols [] ∧ terminal = tail := by
  unfold FirstOf
  rw [begins_append, begins_terminal]

theorem Begins.of_derives {terminal : KindId} (derives : grammar.Derives left right)
    (begins : grammar.Begins right terminal) : grammar.Begins left terminal := by
  obtain ⟨rest, ends⟩ := begins
  exact ⟨rest, derives.trans ends⟩

theorem derives_production {number : Nat} {production : Production}
    (found : grammar.productions[number]? = some production) :
    grammar.Derives [.nonterminal production.lhs] production.symbols := by
  have step := Produces.apply [] [] found
  rw [List.nil_append, List.nil_append, List.append_nil] at step
  exact .single step

theorem Begins.within (numbered : grammar.Numbered) {terminal : KindId} {symbols : List Symbol}
    (within : ∀ symbol, symbol ∈ symbols → symbol.Within grammar.terminalCount grammar.kinds.size)
    (begins : grammar.Begins symbols terminal) : 2 ≤ terminal.index ∧ terminal.index < grammar.terminalCount := by
  obtain ⟨rest, derives⟩ := begins
  exact derives.within numbered within _ List.mem_cons_self

end IncrementalParsing.Grammar

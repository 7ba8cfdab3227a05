import IncrementalParsing.Lalr.Automaton

/-!
Operators between operands and how they group. A chain of operands with operators between them is read as a
binary tree. Levels and sides say which tree: the operator of an operand binds tighter than the operator that
the operand belongs to, and among equals it stands on the side that the operators associate to. There is
exactly one such tree for each chain.
-/

namespace IncrementalParsing

inductive Side where
  | left
  | right
deriving DecidableEq

structure Operator where
  text : String
  level : Int
  side : Side

/-- The operators of one sort of expressions. Each of them takes two states of the automaton, and three more
states are there without any operator. -/
structure Operators where
  list : List Operator
  nonempty : list ≠ []
  distinct : (list.map (·.text)).Nodup
  named : ∀ operator, operator ∈ list → operator.text ≠ ""
  agree : ∀ left, left ∈ list → ∀ right, right ∈ list → left.level = right.level → left.side = right.side
  fit : 2 * list.length + 3 ≤ Lalr.Automaton.stateLimit

inductive Grouping (α : Type) where
  | operand
  | binary (operator : α) (left right : Grouping α)

namespace Grouping

variable {α : Type}

def root? : Grouping α → Option α
  | operand => none
  | binary operator _ _ => some operator

/-- The operators of the chain in order. -/
def chain : Grouping α → List α
  | operand => []
  | binary operator left right => left.chain ++ operator :: right.chain

end Grouping

namespace Operators

variable (operators : Operators)

abbrev Index : Type := Fin operators.list.length

def level (index : operators.Index) : Int := operators.list[index].level

def side (index : operators.Index) : Side := operators.list[index].side

def Closes (inner outer : operators.Index) : Prop :=
  operators.level outer < operators.level inner ∨
    operators.level inner = operators.level outer ∧ operators.side inner = .left

def Opens (outer inner : operators.Index) : Prop :=
  operators.level outer < operators.level inner ∨
    operators.level inner = operators.level outer ∧ operators.side inner = .right

instance (inner outer : operators.Index) : Decidable (operators.Closes inner outer) :=
  inferInstanceAs (Decidable (_ ∨ _))

instance (outer inner : operators.Index) : Decidable (operators.Opens outer inner) :=
  inferInstanceAs (Decidable (_ ∨ _))

/-- Trees that are grouped as levels and sides say. -/
def Grouped : Grouping operators.Index → Prop
  | .operand => True
  | .binary operator left right =>
      (∀ inner, left.root? = some inner → operators.Closes inner operator) ∧
      (∀ inner, right.root? = some inner → operators.Opens operator inner) ∧
      Grouped left ∧ Grouped right

def extend (operator : operators.Index) : Grouping operators.Index → Grouping operators.Index
  | .operand => .binary operator .operand .operand
  | .binary other left right =>
      if operators.Closes other operator then .binary operator (.binary other left right) .operand
      else .binary other left (extend operator right)

def group (chain : List operators.Index) : Grouping operators.Index :=
  chain.foldl (fun tree operator => operators.extend operator tree) .operand

variable {operators}

theorem sides_agree {first second : operators.Index} (same : operators.level first = operators.level second) :
    operators.side first = operators.side second :=
  operators.agree _ (List.getElem_mem first.isLt) _ (List.getElem_mem second.isLt) same

theorem opens_iff_not_closes {first second : operators.Index} :
    operators.Opens first second ↔ ¬ operators.Closes first second := by
  unfold Opens Closes
  by_cases same : operators.level first = operators.level second
  · have agree := sides_agree same
    cases side : operators.side first with
    | left => simp [same, ← agree, side]
    | right => simp [same, ← agree, side]
  · constructor
    · rintro (less | ⟨equal, _⟩)
      · omega
      · exact absurd equal.symm same
    · intro neither
      left
      omega

theorem Closes.of_opens {outer inner next : operators.Index} (closes : operators.Closes outer next)
    (opens : operators.Opens outer inner) : operators.Closes inner next := by
  left
  rcases closes with less | ⟨same, left⟩
  · rcases opens with more | ⟨equal, _⟩ <;> omega
  · rcases opens with more | ⟨equal, right⟩
    · omega
    · rw [sides_agree equal, left] at right
      cases right

theorem Opens.of_closes {before outer inner : operators.Index} (opens : operators.Opens before outer)
    (closes : operators.Closes inner outer) : operators.Opens before inner := by
  left
  rcases opens with less | ⟨same, right⟩
  · rcases closes with more | ⟨equal, _⟩ <;> omega
  · rcases closes with more | ⟨equal, left⟩
    · omega
    · rw [sides_agree equal, right] at left
      cases left

theorem Opens.trans {before outer inner : operators.Index} (opens : operators.Opens before outer)
    (further : operators.Opens outer inner) : operators.Opens before inner := by
  rcases opens with less | ⟨same, right⟩
  · left
    rcases further with more | ⟨equal, _⟩ <;> omega
  · rcases further with more | ⟨equal, also⟩
    · left
      omega
    · exact Or.inr ⟨equal.trans same, also⟩

/-! ### Extending a tree -/

theorem chain_extend (operator : operators.Index) : ∀ tree : Grouping operators.Index,
    (operators.extend operator tree).chain = tree.chain ++ [operator]
  | .operand => rfl
  | .binary other left right => by
      unfold extend
      split
      · rfl
      · unfold Grouping.chain
        rw [chain_extend operator right, List.append_assoc]
        rfl

theorem root?_extend (operator : operators.Index) : ∀ tree : Grouping operators.Index,
    (operators.extend operator tree).root? = some operator ∨
      (operators.extend operator tree).root? = tree.root?
  | .operand => Or.inl rfl
  | .binary other left right => by
      unfold extend
      split
      · exact Or.inl rfl
      · exact Or.inr rfl

theorem Grouped.extend (operator : operators.Index) : ∀ {tree : Grouping operators.Index},
    operators.Grouped tree → operators.Grouped (operators.extend operator tree)
  | .operand, _grouped =>
      ⟨fun _ impossible => (nomatch impossible), fun _ impossible => (nomatch impossible), trivial, trivial⟩
  | .binary other left right, grouped => by
      obtain ⟨before, behind, leftGrouped, rightGrouped⟩ := grouped
      unfold Operators.extend
      split
      · rename_i closes
        refine ⟨?_, fun _ impossible => (nomatch impossible), ⟨before, behind, leftGrouped, rightGrouped⟩, trivial⟩
        intro inner root
        cases root
        exact closes
      · rename_i stays
        refine ⟨before, ?_, leftGrouped, rightGrouped.extend operator⟩
        intro inner root
        rcases root?_extend operator right with new | old
        · cases root.symm.trans new
          exact opens_iff_not_closes.mpr stays
        · exact behind inner (old.symm.trans root)

/-- An operator that nothing behind it closes keeps what is behind it as its right operand. -/
theorem foldl_extend_binary {operator : operators.Index} (left : Grouping operators.Index) :
    ∀ (chain : List operators.Index) (right : Grouping operators.Index),
      (∀ other, other ∈ chain → operators.Opens operator other) →
      chain.foldl (fun tree other => operators.extend other tree) (.binary operator left right) =
        .binary operator left (chain.foldl (fun tree other => operators.extend other tree) right)
  | [], right, _opens => rfl
  | other :: rest, right, opens => by
      have stays := opens_iff_not_closes.mp (opens other List.mem_cons_self)
      rw [List.foldl_cons, List.foldl_cons,
        ← foldl_extend_binary left rest _ fun next member => opens next (List.mem_cons_of_mem _ member)]
      congr 1
      exact if_neg stays

theorem Grouped.opens {before : operators.Index} : ∀ {tree : Grouping operators.Index}, operators.Grouped tree →
    (∀ root, tree.root? = some root → operators.Opens before root) →
    ∀ operator, operator ∈ tree.chain → operators.Opens before operator
  | .operand, _grouped, _opens, operator, member => nomatch member
  | .binary root left right, grouped, opens, operator, member => by
      obtain ⟨leftCloses, rightOpens, leftGrouped, rightGrouped⟩ := grouped
      have here := opens root rfl
      rcases List.mem_append.mp member with inLeft | behind
      · exact leftGrouped.opens (fun inner found => here.of_closes (leftCloses inner found)) operator inLeft
      · rcases List.mem_cons.mp behind with rfl | inRight
        · exact here
        · exact rightGrouped.opens (fun inner found => here.trans (rightOpens inner found)) operator inRight

/-! ### The tree of a chain -/

theorem chain_group (chain : List operators.Index) : (operators.group chain).chain = chain := by
  have folds : ∀ (rest : List operators.Index) (tree : Grouping operators.Index),
      (rest.foldl (fun tree operator => operators.extend operator tree) tree).chain = tree.chain ++ rest := by
    intro rest
    induction rest with
    | nil => exact fun tree => (List.append_nil _).symm
    | cons operator rest ih =>
        intro tree
        rw [List.foldl_cons, ih, chain_extend, List.append_assoc]
        rfl
  exact folds chain .operand

theorem grouped_group (chain : List operators.Index) : operators.Grouped (operators.group chain) := by
  have folds : ∀ (rest : List operators.Index) (tree : Grouping operators.Index), operators.Grouped tree →
      operators.Grouped (rest.foldl (fun tree operator => operators.extend operator tree) tree) := by
    intro rest
    induction rest with
    | nil => exact fun tree grouped => grouped
    | cons operator rest ih => exact fun tree grouped => ih _ (grouped.extend operator)
  exact folds chain .operand trivial

/-- The trees that are grouped as levels and sides say are those that chains are read as. -/
theorem grouped_iff {tree : Grouping operators.Index} :
    operators.Grouped tree ↔ tree = operators.group tree.chain := by
  constructor
  · intro grouped
    induction tree with
    | operand => rfl
    | binary operator left right leftIh rightIh =>
        obtain ⟨leftCloses, rightOpens, leftGrouped, rightGrouped⟩ := grouped
        have first : operators.extend operator left = .binary operator left .operand := by
          cases left with
          | operand => rfl
          | binary inner one other => exact if_pos (leftCloses inner rfl)
        have read : operators.group (left.chain ++ operator :: right.chain) =
            .binary operator left (operators.group right.chain) := by
          unfold group
          rw [List.foldl_append, List.foldl_cons]
          change right.chain.foldl _ (operators.extend operator (operators.group left.chain)) = _
          rw [← leftIh leftGrouped, first]
          exact foldl_extend_binary left right.chain .operand (rightGrouped.opens rightOpens)
        change _ = operators.group (left.chain ++ operator :: right.chain)
        rw [read, ← rightIh rightGrouped]
  · intro same
    rw [same]
    exact grouped_group _

end Operators

end IncrementalParsing

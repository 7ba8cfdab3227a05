import IncrementalParsing.Proofs.Grammar.Leading

/-!
Derivations that nest to the left. A repetition joins any two ropes of its elements, so that a word of three
elements is already derived in two ways. Every word that is derived is derived in such a way that no join
derives the second rope of another join; the other ones are turned over.
-/

namespace IncrementalParsing.Grammar

/-- The word is derived from the symbols, and the second rope of a join is not a join itself. -/
inductive LeftNested (grammar : Grammar) : List Symbol → List KindId → Prop
  | nil : LeftNested grammar [] []
  | terminal {kind : KindId} {rest : List Symbol} {kinds : List KindId} : LeftNested grammar rest kinds →
      LeftNested grammar (.terminal kind :: rest) (kind :: kinds)
  | plain {number : Nat} {production : Production} {rest : List Symbol} {inner kinds : List KindId} :
      grammar.productions[number]? = some production → production.kind ≠ .repeatJoin →
      LeftNested grammar production.symbols inner → LeftNested grammar rest kinds →
      LeftNested grammar (.nonterminal production.lhs :: rest) (inner ++ kinds)
  | join {joining number : Nat} {join production : Production} {rest : List Symbol}
      {first second kinds : List KindId} :
      grammar.productions[joining]? = some join → join.kind = .repeatJoin →
      grammar.productions[number]? = some production → production.kind ≠ .repeatJoin →
      production.lhs = join.lhs →
      LeftNested grammar [.nonterminal join.lhs] first → LeftNested grammar production.symbols second →
      LeftNested grammar rest kinds →
      LeftNested grammar (.nonterminal join.lhs :: rest) (first ++ second ++ kinds)

theorem Numbered.join_symbols {grammar : Grammar} (numbered : grammar.Numbered) {number : Nat}
    {production : Production} (found : grammar.productions[number]? = some production)
    (joins : production.kind = .repeatJoin) :
    production.symbols = [.nonterminal production.lhs, .nonterminal production.lhs] := by
  obtain ⟨_, same⟩ := (numbered.productions production (Array.mem_of_getElem? found)).join joins
  rw [same]
  rfl

namespace LeftNested

variable {grammar : Grammar}

theorem of_word : ∀ kinds : List KindId, LeftNested grammar (word kinds) kinds
  | [] => .nil
  | _ :: rest => .terminal (of_word rest)

theorem append {left right : List Symbol} {first second : List KindId} (nested : LeftNested grammar left first)
    (more : LeftNested grammar right second) : LeftNested grammar (left ++ right) (first ++ second) := by
  induction nested with
  | nil => exact more
  | terminal _ ih => exact .terminal ih
  | plain found other inner _ _ ih =>
      rw [List.append_assoc]
      exact .plain found other inner ih
  | join found joins base other same front back _ _ _ ih =>
      rw [List.append_assoc]
      exact .join found joins base other same front back ih

theorem split {right : List Symbol} : ∀ {left : List Symbol} {kinds : List KindId},
    LeftNested grammar (left ++ right) kinds →
    ∃ first second, kinds = first ++ second ∧ LeftNested grammar left first ∧ LeftNested grammar right second
  | [], kinds, nested => ⟨[], kinds, rfl, .nil, nested⟩
  | symbol :: rest, kinds, nested => by
      cases nested with
      | terminal later =>
          obtain ⟨first, second, rfl, here, behind⟩ := split later
          exact ⟨_, second, rfl, .terminal here, behind⟩
      | plain found other inner later =>
          obtain ⟨first, second, rfl, here, behind⟩ := split later
          exact ⟨_, second, (List.append_assoc _ _ _).symm, .plain found other inner here, behind⟩
      | join found joins base other same front back later =>
          obtain ⟨first, second, rfl, here, behind⟩ := split later
          exact ⟨_, second, (List.append_assoc _ _ _).symm, .join found joins base other same front back here,
            behind⟩

section Numbered

variable (numbered : grammar.Numbered)

include numbered

theorem derives {form : List Symbol} {kinds : List KindId} (nested : LeftNested grammar form kinds) :
    grammar.Derives form (word kinds) := by
  induction nested with
  | nil => exact .refl
  | @terminal kind _ _ _ ih => exact Derives.append (.refl : grammar.Derives [.terminal kind] _) ih
  | plain found _ _ _ innerIh ih =>
      rw [word_append]
      exact Derives.append ((derives_production found).trans innerIh) ih
  | @join _ _ join production _ _ _ _ found joins base _ same _ _ _ frontIh backIh ih =>
      have second := (derives_production base).trans backIh
      rw [same] at second
      have ropes := frontIh.append second
      rw [List.singleton_append, ← numbered.join_symbols found joins] at ropes
      rw [word_append, word_append]
      exact Derives.append ((derives_production found).trans ropes) ih

omit numbered in
theorem joined {joining : Nat} {join : Production} (found : grammar.productions[joining]? = some join)
    (joins : join.kind = .repeatJoin) {first second : List KindId}
    (front : LeftNested grammar [.nonterminal join.lhs] first)
    (back : LeftNested grammar [.nonterminal join.lhs] second) :
    LeftNested grammar [.nonterminal join.lhs] (first ++ second) := by
  generalize rope : [Symbol.nonterminal join.lhs] = form at back
  induction back with
  | nil => cases rope
  | terminal => cases rope
  | @plain number production rest inner kinds base other nested later _ _ =>
      obtain ⟨same, rfl⟩ := List.cons.inj rope
      have whole := LeftNested.join found joins base other (Symbol.nonterminal.inj same).symm front nested later
      rw [List.append_assoc, same] at whole
      exact whole
  | @join _ _ inner production rest left right kinds _ _ base other same _ nested later frontIh _ _ =>
      obtain ⟨equal, rfl⟩ := List.cons.inj rope
      have lhs := Symbol.nonterminal.inj equal
      have turned := frontIh (congrArg (fun id => [Symbol.nonterminal id]) lhs)
      rw [← lhs] at turned
      have whole := LeftNested.join found joins base other (same.trans lhs.symm) turned nested later
      rw [equal] at whole
      simpa only [List.append_assoc] using whole

theorem of_produces {form next : List Symbol} {kinds : List KindId} (produces : grammar.Produces form next)
    (nested : LeftNested grammar next kinds) : LeftNested grammar form kinds := by
  obtain @⟨number, production, before, after, found⟩ := produces
  obtain ⟨front, last, rfl, frontNested, behind⟩ := split nested
  obtain ⟨first, inner, rfl, ahead, produced⟩ := split frontNested
  rw [List.append_assoc]
  apply ahead.append
  by_cases joins : production.kind = .repeatJoin
  · rw [numbered.join_symbols found joins] at produced
    obtain ⟨left, right, rfl, leftNested, rightNested⟩ :=
      @split _ [.nonterminal production.lhs] [.nonterminal production.lhs] _ produced
    exact (joined found joins leftNested rightNested).append behind
  · exact .plain found joins produced behind

theorem of_derives {form : List Symbol} {kinds : List KindId} (derives : grammar.Derives form (word kinds)) :
    LeftNested grammar form kinds := by
  induction derives using Relation.ReflTransGen.head_induction_on with
  | refl => exact of_word kinds
  | head produces _ ih => exact of_produces numbered produces ih

end Numbered

end LeftNested

end IncrementalParsing.Grammar

import IncrementalParsing.Proofs.Grammar.Derivation
import IncrementalParsing.Proofs.Saturation

/-!
The search for productive nonterminals is exact. Whatever it marks derives a word. In the marks that it ends
with, a left-hand side is marked as soon as its right-hand side is; in such marks every nonterminal of a form
that derives a word is marked, by induction over the derivation. A declaration is refused for the first
nonterminal without a mark, the helpers of repetitions included, and for no other reason once it is flattened.
-/

namespace IncrementalParsing

namespace Grammar

/-- Some word is derived from the nonterminal. -/
def Productive (grammar : Grammar) (id : NonterminalId) : Prop :=
  ∃ kinds, grammar.Derives [.nonterminal id] (word kinds)

/-- Refuses a grammar for the first of its nonterminals that is not productive. -/
def checkProductive (grammar : Grammar) : Except (Failure ConfigurationError) Unit :=
  match grammar.unproductive? with
  | some id => refuse (.unproductiveRule (grammar.symbolName (.nonterminal id)))
  | none => .ok ()

variable {grammar : Grammar} {id : NonterminalId}

theorem getD_eq_true_iff {known : Array Bool} {place : Nat} :
    known[place]?.getD false = true ↔ known[place]? = some true := by
  cases known[place]? <;> simp

/-- One production marks its left-hand side, or it has nothing to add. -/
theorem learn_progress {production : Production} (inside : production.lhs.index < grammar.nonterminalCount)
    (state : Array Bool × Bool) (size : state.1.size = grammar.nonterminalCount) :
    Progress (fun known : Array Bool => known.size = grammar.nonterminalCount)
      (fun known row _ => known[row]? = some true) grammar.nonterminalCount 1
      (fun known => derivesFrom known production = true → known[production.lhs.index]? = some true)
      state (learn state production) := by
  obtain ⟨known, changed⟩ := state
  unfold learn
  dsimp only at size ⊢
  split
  · rename_i marked
    exact .idle size fun _ => getD_eq_true_iff.mp marked
  · rename_i unmarked
    split
    · refine ⟨by rw [Array.size_setIfInBounds]; exact size, true, (Bool.or_true _).symm, ⟨?_, ?_, ?_⟩, ?_⟩
      · intro row _ old
        rw [Array.getElem?_setIfInBounds]
        split
        · rename_i same
          rw [if_pos (by rw [size]; exact inside)]
        · exact old
      · intro _
        refine ⟨production.lhs.index, 0, inside, Nat.one_pos, fun old => unmarked (getD_eq_true_iff.mpr old), ?_⟩
        rw [Array.getElem?_setIfInBounds, if_pos rfl, if_pos (by rw [size]; exact inside)]
      · intro impossible
        cases impossible
      · intro impossible
        cases impossible
    · rename_i stuck
      exact .idle size fun derives => absurd derives stuck

section Exact

variable (numbered : grammar.Numbered)

include numbered

/-- In the end a left-hand side is marked as soon as its right-hand side is. -/
theorem productive_settled {production : Production} (member : production ∈ grammar.productions)
    (derives : derivesFrom grammar.productive production = true) :
    grammar.productive[production.lhs.index]? = some true := by
  have step : ∀ known : Array Bool, known.size = grammar.nonterminalCount →
      Progress (fun known : Array Bool => known.size = grammar.nonterminalCount)
        (fun known row _ => known[row]? = some true) grammar.nonterminalCount 1
        (fun known => ∀ production, production ∈ grammar.productions.toList →
          derivesFrom known production = true → known[production.lhs.index]? = some true)
        (known, false) (productiveRound grammar.productions known) := by
    intro known size
    rw [productiveRound_eq]
    refine Progress.foldl _ ?_ (known, false) size
    intro other among before holding
    have bound := (numbered.productions other (Array.mem_toList_iff.mp among)).lhs_lt
    exact learn_progress (by unfold nonterminalCount; omega) before holding
  obtain ⟨_, settled⟩ := saturate_done step Array.size_replicate
  rw [Nat.mul_one] at settled
  exact settled production (Array.mem_toList_iff.mpr member) derives

theorem marked_of_derives {form last : List Symbol} (derives : grammar.Derives form last)
    (ends : ∀ id, .nonterminal id ∉ last) :
    ∀ id, .nonterminal id ∈ form → grammar.productive[id.index]? = some true := by
  induction derives using Relation.ReflTransGen.head_induction_on with
  | refl => exact fun id member => absurd member (ends id)
  | head produces _ ih =>
      obtain @⟨number, production, before, after, found⟩ := produces
      have symbols : derivesFrom grammar.productive production = true := by
        refine List.all_eq_true.mpr fun step among => ?_
        cases same : step.symbol with
        | terminal kind => rfl
        | nonterminal id =>
            refine getD_eq_true_iff.mpr (ih id ?_)
            have produced : step.symbol ∈ production.symbols := List.mem_map.mpr ⟨step, among, rfl⟩
            exact List.mem_append_left _ (List.mem_append_right _ (same ▸ produced))
      intro id member
      rcases List.mem_append.mp member with ahead | behind
      · exact ih id (List.mem_append_left _ (List.mem_append_left _ ahead))
      · rcases List.mem_cons.mp behind with here | later
        · cases here
          exact productive_settled numbered (Array.mem_of_getElem? found) symbols
        · exact ih id (List.mem_append_right _ later)

/-- Marked are exactly the nonterminals that derive a word. -/
theorem productive_iff : grammar.productive[id.index]? = some true ↔ grammar.Productive id := by
  constructor
  · exact grammar.productive_marked id
  · rintro ⟨kinds, derives⟩
    refine marked_of_derives numbered derives ?_ id List.mem_cons_self
    intro other member
    obtain ⟨kind, _, impossible⟩ := List.mem_map.mp member
    cases impossible

theorem unproductive?_eq_none :
    grammar.unproductive? = none ↔ ∀ id, id.index < grammar.nonterminalCount → grammar.Productive id := by
  unfold unproductive?
  rw [Option.map_eq_none_iff, Array.findIdx?_eq_none_iff]
  constructor
  · intro marks id inside
    rw [← productive_size] at inside
    apply (productive_iff numbered).mp
    have mark := marks _ (Array.getElem_mem inside)
    rw [Bool.not_eq_false'] at mark
    rw [Array.getElem?_eq_getElem inside, mark]
  · intro all mark member
    obtain ⟨place, inside, rfl⟩ := Array.mem_iff_getElem.mp member
    have below := inside
    rw [productive_size] at below
    have small := numbered.kinds_le
    unfold nonterminalCount at below
    unfold Declaration.symbolLimit at small
    have index : (NonterminalId.ofIndex place).index = place := NonterminalId.index_ofIndex (by omega)
    have marked := (productive_iff numbered).mpr (all (.ofIndex place) (by rw [index]; exact below))
    rw [index, Array.getElem?_eq_getElem inside] at marked
    rw [Option.some.inj marked]
    rfl

theorem unproductive?_eq_some (found : grammar.unproductive? = some id) :
    id.index < grammar.nonterminalCount ∧ ¬ grammar.Productive id ∧
      ∀ other : NonterminalId, other.index < id.index → grammar.Productive other := by
  unfold unproductive? at found
  obtain ⟨place, first, rfl⟩ := Option.map_eq_some_iff.mp found
  obtain ⟨inside, unmarked, before⟩ := Array.findIdx?_eq_some_iff_getElem.mp first
  have below := inside
  rw [productive_size] at below
  have small := numbered.kinds_le
  unfold Declaration.symbolLimit at small
  have index : (NonterminalId.ofIndex place).index = place :=
    NonterminalId.index_ofIndex (by unfold nonterminalCount at below; omega)
  refine ⟨by rw [index]; exact below, fun derives => ?_, fun other earlier => ?_⟩
  · have marked := (productive_iff numbered).mpr derives
    rw [index, Array.getElem?_eq_getElem inside] at marked
    rw [Option.some.inj marked] at unmarked
    cases unmarked
  · rw [index] at earlier
    apply (productive_iff numbered).mp
    rw [Array.getElem?_eq_getElem (Nat.lt_trans earlier inside)]
    have marked := before other.index earlier
    rw [Bool.not_eq_true', Bool.not_eq_false] at marked
    exact congrArg some marked

end Exact

end Grammar

/-! ### Declarations that are refused -/

namespace Declaration

/-- The grammar that a declaration is flattened to, whether its nonterminals are productive or not. -/
def assemble (declaration : Declaration) : Flatten.Outcome Grammar := do
  declaration.checkNames
  if let some rule := declaration.emptyLiteralRule? then
    refuse (.emptyLiteral rule)
  let ruleKinds := (declaration.ruleNames.map (declaredInfo false)).toArray
  let initial : Flatten.State := ⟨⟨declaration.terminalKinds ++ ruleKinds, #[]⟩, #[], 0⟩
  let final ← Flatten.rules declaration.names 0 declaration.rules.toList initial
  if final.kinds.size > symbolLimit then
    refuse (.tooMany .symbols symbolLimit)
  return {
    name := declaration.name
    version := declaration.version
    kinds := final.kinds
    terminalCount := declaration.names.terminalCount
    ruleCount := declaration.rules.size
    productions := final.productions
    lexical := declaration.lexicalGrammar
    policy := declaration.policy }

theorem checkProductive_bind (grammar : Grammar) :
    (grammar.checkProductive >>= fun _ => (.ok grammar : Flatten.Outcome Grammar)) =
      match grammar.unproductive? with
      | some id => refuse (.unproductiveRule (grammar.symbolName (.nonterminal id)))
      | none => .ok grammar := by
  unfold Grammar.checkProductive
  split <;> rfl

theorem normalize_eq (declaration : Declaration) :
    declaration.normalize = declaration.assemble >>= fun grammar =>
      grammar.checkProductive >>= fun _ => .ok grammar := by
  unfold normalize assemble
  cases declaration.checkNames with
  | error ending => rfl
  | ok named =>
      cases declaration.emptyLiteralRule? with
      | some rule => rfl
      | none =>
          simp only [ok_bind, bind_assoc]
          congr 1
          funext final
          by_cases crowded : final.kinds.size > symbolLimit
          · rw [if_pos crowded, if_pos crowded]
            rfl
          · rw [if_neg crowded, if_neg crowded]
            exact (checkProductive_bind _).symm

theorem assemble_numbered {declaration : Declaration} {grammar : Grammar}
    (assembled : declaration.assemble = .ok grammar) : grammar.Numbered := by
  unfold assemble at assembled
  obtain ⟨⟨⟩, named, assembled⟩ := bind_ok.mp assembled
  dsimp only at assembled
  split at assembled
  · cases assembled
  · obtain ⟨final, flattened, assembled⟩ := bind_ok.mp assembled
    split at assembled
    · cases assembled
    · rename_i fits
      cases pure_ok.mp assembled
      exact flattened_numbered named flattened (Nat.le_of_not_lt fits)

/-- A flattened declaration is a normal form exactly if each of its nonterminals, the helpers of repetitions
among them, derives a word. Otherwise it is refused, with the name of the first that derives none. -/
theorem normalize_productive {declaration : Declaration} {grammar : Grammar}
    (assembled : declaration.assemble = .ok grammar) :
    declaration.normalize = (grammar.checkProductive >>= fun _ => .ok grammar) ∧
    (grammar.checkProductive = .ok () ↔
      ∀ id : NonterminalId, id.index < grammar.nonterminalCount → grammar.Productive id) ∧
    ((¬ ∀ id : NonterminalId, id.index < grammar.nonterminalCount → grammar.Productive id) →
      ∃ (id : NonterminalId) (info : KindInfo), id.index < grammar.nonterminalCount ∧ ¬ grammar.Productive id ∧
        (∀ other : NonterminalId, other.index < id.index → grammar.Productive other) ∧
        grammar.kinds.kinds[grammar.terminalCount + id.index]? = some info ∧
        grammar.checkProductive = .error (.refused (.unproductiveRule info.name))) := by
  have numbered := assemble_numbered assembled
  have passes : grammar.checkProductive = .ok () ↔ grammar.unproductive? = none := by
    unfold Grammar.checkProductive
    split
    · rename_i id found
      rw [found]
      constructor
      · intro impossible
        cases impossible
      · intro impossible
        cases impossible
    · rename_i found
      exact ⟨fun _ => found, fun _ => rfl⟩
  refine ⟨?_, ?_, ?_⟩
  · rw [normalize_eq, assembled, ok_bind]
  · rw [passes, Grammar.unproductive?_eq_none numbered]
  · intro barren
    rw [← Grammar.unproductive?_eq_none numbered] at barren
    obtain ⟨id, found⟩ := Option.ne_none_iff_exists'.mp barren
    obtain ⟨inside, derivesNone, first⟩ := Grammar.unproductive?_eq_some numbered found
    have small := numbered.kinds_le
    have place : grammar.terminalCount + id.index < grammar.kinds.size := by
      unfold Grammar.nonterminalCount at inside
      omega
    unfold symbolLimit at small
    have index : (KindId.ofIndex (grammar.terminalCount + id.index)).index = grammar.terminalCount + id.index :=
      KindId.index_ofIndex (by omega)
    have info : grammar.kinds.kinds[grammar.terminalCount + id.index]? = some _ := Array.getElem?_eq_getElem place
    refine ⟨id, _, inside, derivesNone, first, info, ?_⟩
    unfold Grammar.checkProductive Grammar.symbolName Grammar.symbolKind KindTable.name
    rw [found]
    dsimp only
    rw [index, info]
    rfl

namespace Barren

def declaration : Declaration :=
  { Declaration.empty "barren" with rules := #[("s", .choice [.literal "a", .repeated (.choice [])])] }

theorem assembles : declaration.assemble.toOption.isSome = true := by decide +kernel

def grammar : Grammar := declaration.assemble.toOption.get assembles

theorem assembled : declaration.assemble = .ok grammar := eq_ok_get assembles

theorem unproductive : grammar.unproductive? = some (.ofIndex 1) ∧
    grammar.symbolName (.nonterminal (.ofIndex 1)) = "s_repeat1" := by
  decide +kernel

theorem refused : grammar.checkProductive = refuse (.unproductiveRule "s_repeat1") := by
  unfold Grammar.checkProductive
  rw [unproductive.1]
  dsimp only
  rw [unproductive.2]

end Barren

theorem normalize_productive_barren :
    Barren.declaration.assemble = .ok Barren.grammar ∧
    (¬ ∀ id : NonterminalId, id.index < Barren.grammar.nonterminalCount → Barren.grammar.Productive id) ∧
    Barren.declaration.normalize = refuse (.unproductiveRule "s_repeat1") := by
  obtain ⟨normal, passes, _⟩ := normalize_productive Barren.assembled
  rw [Barren.refused] at normal passes
  refine ⟨Barren.assembled, fun all => ?_, normal⟩
  cases passes.mpr all

end Declaration

end IncrementalParsing

import IncrementalParsing.Parsing.Recovery
import IncrementalParsing.Proofs.Lalr.Settling
import IncrementalParsing.Proofs.Parsing.Reduction

/-!
The states of a stack. They are a path of the automaton; a reduction on the stack is a reduction of
its states; and a simulation of the automaton on the states comes to the action that the chain of
reductions comes to.
-/

namespace IncrementalParsing

open Green

namespace ParseStack

variable {table : Table} {stack : ParseStack}

theorem states_extra {entry : StackEntry} (extra : entry.extra = true) (below : ParseStack) :
    states (entry :: below) = states below := by
  rw [states, if_pos extra]

theorem states_plain {entry : StackEntry} (plain : entry.extra = false) (below : ParseStack) :
    states (entry :: below) = entry.state :: states below := by
  rw [states, if_neg (by rw [plain]; exact Bool.false_ne_true)]

theorem Follows.states_head (follows : Follows table stack) :
    ∃ below, states stack = stack.state :: below := by
  induction follows with
  | empty => exact ⟨[], rfl⟩
  | @entry entry below _ rests ih =>
      cases extra : entry.extra with
      | true =>
          obtain ⟨rest, shape⟩ := ih
          refine ⟨rest, ?_⟩
          rw [states_extra extra, shape]
          exact congrArg (· :: rest) (rests.repeats extra).symm
      | false => exact ⟨_, states_plain extra below⟩

theorem Follows.actionOn_states (follows : Follows table stack) (terminal : KindId) :
    table.actionOn terminal (states stack) = table.action stack.state terminal := by
  obtain ⟨below, shape⟩ := follows.states_head
  rw [shape]
  rfl

theorem Follows.path (numbered : table.Numbered) : ∀ {stack : ParseStack}, Follows table stack →
    Sound table stack → table.Path (states stack)
  | [], _, _ => .start
  | top :: below, follows, sound => by
      have lower := follows.tail.path numbered sound.tail
      cases extra : top.extra with
      | true =>
          rw [states_extra extra]
          exact lower
      | false =>
          obtain ⟨rest, shape⟩ := follows.tail.states_head
          rw [states_plain extra, shape]
          rw [shape] at lower
          exact .step lower (hasKind_of_sound numbered (sound top List.mem_cons_self))
            (follows.rests.pushed extra)

theorem states_dropWhile : ∀ stack : ParseStack, states (stack.dropWhile (·.extra)) = states stack
  | [] => rfl
  | entry :: below => by
      cases extra : entry.extra with
      | true =>
          rw [List.dropWhile_cons_of_pos extra, states_dropWhile below, states_extra extra]
      | false => rw [List.dropWhile_cons_of_neg (by rw [extra]; exact Bool.false_ne_true)]

theorem states_append_extras : ∀ {extras : List StackEntry} (below : ParseStack),
    (∀ entry, entry ∈ extras → entry.extra = true) → states (extras ++ below) = states below
  | [], _, _ => rfl
  | entry :: rest, below, each => by
      rw [List.cons_append, states_extra (each entry List.mem_cons_self),
        states_append_extras below (fun other member => each other (List.mem_cons_of_mem _ member))]

theorem states_popEntries : ∀ {stack : ParseStack} {count : Nat} {taken entries below : List StackEntry},
    popEntries count taken stack = .ok (entries, below) → states below = (states stack).drop count
  | [], count, taken, entries, below, done => by
      unfold popEntries at done
      split at done
      · rename_i none
        cases done
        rw [none]
        rfl
      · cases done
  | entry :: rest, 0, taken, entries, below, done => by
      cases done
      rfl
  | entry :: rest, missing + 1, taken, entries, below, done => by
      unfold popEntries at done
      dsimp only at done
      have lower := states_popEntries done
      cases extra : entry.extra with
      | true =>
          rw [extra, if_pos rfl] at lower
          rw [states_extra extra, lower]
      | false =>
          rw [extra, if_neg Bool.false_ne_true] at lower
          rw [states_plain extra, lower, List.drop_succ_cons]

theorem states_reduce {production : ProductionInfo} {serial examinedEnd : Nat} {mode : LexMode}
    {reduced : ParseStack}
    (done : stack.reduce table serial production examinedEnd mode = .ok reduced)
    (follows : Follows table stack) :
    ∃ top below next, (states stack).drop production.length = top :: below ∧
      table.goto top production.lhs = some next ∧ states reduced = next :: top :: below := by
  obtain ⟨entries, rest, next, node, popped, goes, _, same⟩ := reduce_ok.mp done
  have left := states_popEntries popped
  rw [states_dropWhile] at left
  obtain ⟨taken, shape, _, _⟩ := popEntries_ok popped
  have restFollows : Follows table rest := (shape ▸ follows.core.1).lower taken
  obtain ⟨below, restStates⟩ := restFollows.states_head
  refine ⟨state rest, below, next, left.symm.trans restStates, goes, ?_⟩
  rw [same, states_append_extras _ ?_, push, states_plain rfl, restStates]
  intro entry member
  obtain ⟨before, among, rfl⟩ := List.mem_map.mp member
  exact List.all_eq_true.mp List.all_takeWhile before among

end ParseStack

namespace Recovery

open ParseStack

theorem statesBelow_getElem? : ∀ (stack : ParseStack) (count : Nat),
    ((statesBelow stack)[count]?).getD [.start] = states (stack.drop count)
  | [], 0 => rfl
  | [], count + 1 => by
      rw [List.drop_nil]
      rfl
  | entry :: below, 0 => by
      have lower := statesBelow_getElem? below 0
      rw [List.drop_zero, ← List.head?_eq_getElem?] at lower
      unfold statesBelow states
      dsimp only
      rw [List.getElem?_cons_zero, Option.getD_some, lower]
      rfl
  | entry :: below, count + 1 => by
      unfold statesBelow
      dsimp only
      rw [List.getElem?_cons_succ]
      exact statesBelow_getElem? below count

def Consumes : Action → Prop
  | .shift _ => True
  | .accept => True
  | _ => False

/-- A simulation that has steps enough says whether the chain of reductions ends with the terminal
consumed. -/
theorem canContinueFrom_settles {table : Table} {items : StateId → Lalr.Item → Prop}
    (numbered : table.Numbered) (chart : table.Chart items) {terminal : KindId}
    (isTerminal : table.isTerminal terminal = true) {states : List StateId} {last : Action}
    (path : table.Path states) (settles : table.Settles terminal states last) :
    ∃ answer least, (∀ limit, least ≤ limit →
      canContinueFrom table terminal limit states = .ok answer) ∧ (answer = true ↔ Consumes last) := by
  induction settles with
  | @stop states ended =>
      have final := path.reduced?_none numbered chart isTerminal ended
      have evaluated : ∀ fuel, canContinueFrom table terminal (fuel + 1) states =
          match table.actionOn terminal states with
          | .shift _ => .ok true
          | .accept => .ok true
          | _ => .ok false := by
        intro fuel
        unfold canContinueFrom
        unfold Table.actionOn at final ⊢
        cases acts : table.action (states.head?.getD .start) terminal with
        | reduce id => exact absurd acts (final id)
        | shift target => rfl
        | accept => rfl
        | error => rfl
      cases acts : table.actionOn terminal states with
      | reduce id => exact absurd acts (final id)
      | shift target =>
          refine ⟨true, 1, fun limit enough => ?_, by simp [Consumes]⟩
          obtain ⟨fuel, rfl⟩ := Nat.exists_eq_add_of_le' enough
          rw [evaluated, acts]
      | accept =>
          refine ⟨true, 1, fun limit enough => ?_, by simp [Consumes]⟩
          obtain ⟨fuel, rfl⟩ := Nat.exists_eq_add_of_le' enough
          rw [evaluated, acts]
      | error =>
          refine ⟨false, 1, fun limit enough => ?_, by simp [Consumes]⟩
          obtain ⟨fuel, rfl⟩ := Nat.exists_eq_add_of_le' enough
          rw [evaluated, acts]
  | @step states next last reduced _ ih =>
      obtain ⟨answer, least, answers, meaning⟩ :=
        ih (path.reduced? numbered chart isTerminal reduced)
      refine ⟨answer, least + 1, fun limit enough => ?_, meaning⟩
      obtain ⟨fuel, rfl⟩ := Nat.exists_eq_add_of_le' (Nat.le_trans (Nat.le_add_left 1 least) enough)
      obtain ⟨id, production, top, below, target, acts, found, left, goes, same⟩ :=
        Table.reduced?_eq_some reduced
      unfold canContinueFrom
      unfold Table.actionOn at acts
      rw [acts]
      refine bind_ok.mpr ⟨production, requireAt_ok.mpr found, ?_⟩
      rw [left]
      dsimp only
      rw [goes]
      dsimp only
      rw [← same]
      exact answers fuel (by omega)

end Recovery

end IncrementalParsing

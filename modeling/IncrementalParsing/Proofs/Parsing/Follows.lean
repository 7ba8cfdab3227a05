import IncrementalParsing.Parsing.Stack
import IncrementalParsing.Proofs.Green.Elements

/-!
Stacks that follow a table. The states of the entries are a path of the table along the kinds of the
elements; extras repeat the state below them and do not lie next to each other; and the elements stand
one after the other in the text. On such a stack the symbols before the mark of every item of the top
state are on the stack, so a reduction that the table asks for can always be carried out.
-/

namespace IncrementalParsing

open Green

structure StackEntry.RestsOn (table : Table) (entry : StackEntry) (below : ParseStack) : Prop where
  offset_eq : entry.offset = below.stop
  pushed : entry.extra = false → table.successor below.state entry.element.kind = some entry.state
  repeats : entry.extra = true → entry.state = below.state
  apart : entry.extra = true → ∀ top, below.head? = some top → top.extra = false

namespace ParseStack

/-- Every entry of a stack lies on those below it as the table says. -/
inductive Follows (table : Table) : ParseStack → Prop
  | empty : Follows table []
  | entry {entry : StackEntry} {below : ParseStack} : Follows table below →
      entry.RestsOn table below → Follows table (entry :: below)

def Sound (table : Table) (stack : ParseStack) : Prop :=
  ∀ entry, entry ∈ stack → entry.element.Sound table

variable {table : Table} {stack : ParseStack}

theorem Follows.tail {entry : StackEntry} {below : ParseStack}
    (follows : Follows table (entry :: below)) : Follows table below := by
  cases follows with
  | entry below _ => exact below

theorem Follows.rests {entry : StackEntry} {below : ParseStack}
    (follows : Follows table (entry :: below)) : entry.RestsOn table below := by
  cases follows with
  | entry _ rests => exact rests

theorem Follows.drop : ∀ (count : Nat) {stack : ParseStack}, Follows table stack →
    Follows table (stack.drop count)
  | 0, _, follows => follows
  | _ + 1, [], _ => .empty
  | count + 1, _ :: _, follows => follows.tail.drop count

theorem Sound.tail {entry : StackEntry} {below : ParseStack} (sound : Sound table (entry :: below)) :
    Sound table below :=
  fun other member => sound other (List.mem_cons_of_mem _ member)

theorem Sound.drop (count : Nat) (sound : Sound table stack) : Sound table (stack.drop count) :=
  fun other member => sound other (List.mem_of_mem_drop member)

theorem sound_cons {entry : StackEntry} {below : ParseStack} (here : entry.element.Sound table)
    (sound : Sound table below) : Sound table (entry :: below) := by
  intro other member
  rcases List.mem_cons.mp member with same | among
  · exact same ▸ here
  · exact sound other among

theorem hasKind_of_sound {element : Element} (numbered : table.Numbered)
    (sound : element.Sound table) : table.HasKind element.kind := by
  have proper := sound.here
  cases element with
  | token leaf =>
      have terminal := of_decide_eq_true proper.2.1
      have room := numbered.rules_le
      unfold Table.HasKind
      change leaf.kind.index < _
      omega
  | node head children => exact proper.2.2

theorem Follows.push {state : StateId} {element : Element} (follows : Follows table stack)
    (reached : table.successor stack.state element.kind = some state) :
    Follows table (stack.push state element) := by
  refine follows.entry ⟨rfl, fun _ => reached, ?_, ?_⟩
  · intro impossible
    cases impossible
  · intro impossible
    cases impossible

theorem Follows.pushExtra {element : Element} (follows : Follows table stack)
    (apart : ∀ top, stack.head? = some top → top.extra = false) :
    Follows table (stack.pushExtra element) := by
  refine follows.entry ⟨rfl, ?_, fun _ => rfl, fun _ => apart⟩
  intro impossible
  cases impossible

theorem Follows.trailing (follows : Follows table stack) :
    (stack.takeWhile (·.extra) = [] ∧ stack.dropWhile (·.extra) = stack) ∨
      ∃ top below, stack = top :: below ∧ top.extra = true ∧
        stack.takeWhile (·.extra) = [top] ∧ stack.dropWhile (·.extra) = below := by
  cases follows with
  | empty => exact Or.inl ⟨rfl, rfl⟩
  | @entry top below _ rests =>
      cases extra : top.extra with
      | false =>
          left
          simp [extra]
      | true =>
          right
          refine ⟨top, below, rfl, extra, ?_⟩
          cases below with
          | nil => simp [extra]
          | cons next rest => simp [extra, rests.apart extra next rfl]

/-- The extras on top of a stack change neither its state nor what its items say. -/
theorem Follows.core (follows : Follows table stack) :
    Follows table (stack.dropWhile (·.extra)) ∧
      ParseStack.state (stack.dropWhile (·.extra)) = stack.state := by
  rcases follows.trailing with ⟨_, same⟩ | ⟨top, below, shape, extra, _, rest⟩
  · rw [same]
    exact ⟨follows, rfl⟩
  · subst shape
    rw [rest]
    exact ⟨follows.tail, (follows.rests.repeats extra).symm⟩

/-! ### Popping a right-hand side -/

def plain (entries : List StackEntry) : List StackEntry := entries.filter (fun entry => !entry.extra)

theorem plain_append (left right : List StackEntry) : plain (left ++ right) = plain left ++ plain right :=
  List.filter_append left right

theorem popEntries_ok : ∀ {count : Nat} {taken entries : List StackEntry} {stack below : ParseStack},
    popEntries count taken stack = .ok (entries, below) →
    ∃ popped, stack = popped ++ below ∧ entries = popped.reverse ++ taken ∧ (plain popped).length = count
  | count, taken, entries, [], below, done => by
      unfold popEntries at done
      split at done
      · rename_i none
        cases done
        exact ⟨[], rfl, rfl, none.symm⟩
      · cases done
  | 0, taken, entries, first :: rest, below, done => by
      cases done
      exact ⟨[], rfl, rfl, rfl⟩
  | missing + 1, taken, entries, first :: rest, below, done => by
      unfold popEntries at done
      obtain ⟨popped, shape, same, counted⟩ := popEntries_ok done
      refine ⟨first :: popped, by rw [shape]; rfl, by rw [same]; simp, ?_⟩
      unfold plain at counted ⊢
      cases extra : first.extra with
      | true => simpa [extra] using counted
      | false => simpa [extra] using counted

/-- The symbols before the mark of an item of the top state are on the stack, and the item was begun
in the state below them. -/
theorem Follows.viable {items : StateId → Lalr.Item → Prop} (numbered : table.Numbered)
    (chart : table.Chart items) : ∀ {stack : ParseStack}, Follows table stack → Sound table stack →
    ∀ (production dot : Nat) (taken : List StackEntry), items stack.state ⟨production, dot⟩ →
    ∃ entries below, popEntries dot taken stack = .ok (entries ++ taken, below) ∧
      (plain entries).map (·.element.kind) = (table.rhs production).take dot ∧
      items (ParseStack.state below) ⟨production, 0⟩
  | [], _, _, production, dot, taken, member => by
      have beginning : dot = 0 := chart.start_dot _ member
      subst beginning
      exact ⟨[], [], rfl, rfl, member⟩
  | _ :: _, _, _, _, 0, _, member => ⟨[], _, rfl, rfl, member⟩
  | top :: rest, follows, sound, production, dot + 1, taken, member => by
      unfold popEntries
      dsimp only
      cases extra : top.extra with
      | true =>
          have lower : items (ParseStack.state rest) ⟨production, dot + 1⟩ := by
            rw [← follows.rests.repeats extra]
            exact member
          obtain ⟨entries, below, popped, kinds, begun⟩ :=
            follows.tail.viable numbered chart sound.tail production (dot + 1) (top :: taken) lower
          refine ⟨entries ++ [top], below, ?_, ?_, begun⟩
          · rw [if_pos rfl, popped, List.append_assoc]
            rfl
          · rw [plain_append, List.map_append, kinds]
            simp [plain, extra]
      | false =>
          have known := hasKind_of_sound numbered (sound top List.mem_cons_self)
          obtain ⟨lower, next⟩ := chart.before _ _ _ _ known (follows.rests.pushed extra) member
            (Nat.succ_pos dot)
          obtain ⟨entries, below, popped, kinds, begun⟩ :=
            follows.tail.viable numbered chart sound.tail production dot (top :: taken) lower
          refine ⟨entries ++ [top], below, ?_, ?_, begun⟩
          · rw [if_neg Bool.false_ne_true, popped, List.append_assoc]
            rfl
          · have due : (table.rhs production)[dot]? = some top.element.kind := next
            rw [plain_append, List.map_append, kinds, List.take_add_one, due]
            simp [plain, extra]

/-- What a table asks for in a reduction. -/
structure Reducible (table : Table) (stack : ParseStack) (production : ProductionInfo) : Prop where
  /-- The right-hand side is on top of the stack, below the extras, and the table knows where to go
  after the left-hand side. -/
  topmost : ∃ entries below, popEntries production.length [] (stack.dropWhile (·.extra)) =
      .ok (entries, below) ∧
    (plain entries).map (·.element.kind) = production.symbols.map table.symbolKind ∧
    ∃ next, table.goto (ParseStack.state below) production.lhs = some next

theorem Follows.reducible {items : StateId → Lalr.Item → Prop} (numbered : table.Numbered)
    (chart : table.Chart items) (follows : Follows table stack) (sound : Sound table stack)
    {terminal : KindId} {id : ProductionId} (isTerminal : table.isTerminal terminal = true)
    (reduces : table.action stack.state terminal = .reduce id) :
    ∃ production, table.production id = .ok production ∧ Reducible table stack production := by
  obtain ⟨item, production, member, number, done, found⟩ :=
    chart.reduces _ _ _ isTerminal reduces
  obtain ⟨coreFollows, coreState⟩ := follows.core
  have coreSound : Sound table (stack.dropWhile (·.extra)) :=
    fun entry among => sound entry ((List.dropWhile_sublist _).subset among)
  have rhs : table.rhs item.production = production.symbols.map table.symbolKind := by
    unfold Table.rhs
    rw [number, found]
  have whole : item.dot = production.length := by
    have atEnd : (table.rhs item.production).length ≤ item.dot := List.getElem?_eq_none_iff.mp done
    have bound := (chart.dot_le _ _ member).2
    rw [rhs, List.length_map] at atEnd bound
    exact Nat.le_antisymm bound atEnd
  obtain ⟨entries, below, popped, kinds, begun⟩ := coreFollows.viable numbered chart coreSound
    item.production item.dot [] (by rw [coreState]; exact member)
  rw [number] at begun
  obtain ⟨waiting, here, due⟩ := chart.begun _ _ _ found begun
  have lhs := numbered.lhs production (Array.mem_of_getElem? found)
  obtain ⟨next, goes⟩ := chart.goes _ _ _ here due lhs.1
  refine ⟨production, requireAt_ok.mpr found, ⟨entries, below, ?_, ?_, next, goes⟩⟩
  · rw [← whole, popped, List.append_nil]
  · rw [kinds, rhs, whole]
    exact List.take_of_length_le (Nat.le_of_eq (List.length_map _))

end ParseStack

end IncrementalParsing

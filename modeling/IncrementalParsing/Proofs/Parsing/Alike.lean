import IncrementalParsing.Proofs.Parsing.Recollection
import IncrementalParsing.Proofs.Tree.Bare

/-!
Machines that look alike recover alike. How a search for a repair goes depends on the states on the stack, on the
kind of the lookahead and on where it ends, but not on the mode in which it was lexed, nor on how the elements on
the stack were put together. So two machines whose stacks look the same take the same way on, and look the same
afterwards.
-/

namespace IncrementalParsing

open Green

/-! ### Searches -/

def LexedToken.shown (token : LexedToken) : Green.Token × Nat := (token.bare, token.stop)

namespace Recovery

def Skips.shown (skips : Skips) : List (Green.Token × Nat) × Bool :=
  (skips.tokens.toList.map LexedToken.shown, skips.ended)

def Repair.shown (repair : Repair) : List (Green.Token × Nat) × Nat × LexedToken :=
  (repair.skipped.map LexedToken.shown, repair.popped, repair.resume)

namespace Skips

variable {skips others : Skips} (same : skips.shown = others.shown)

include same

theorem size_alike : skips.tokens.size = others.tokens.size := by
  have lengths := congrArg (fun shown => shown.1.length) same
  simpa [shown] using lengths

theorem stopAfter_alike (position count : Nat) : skips.stopAfter position count = others.stopAfter position count := by
  cases count with
  | zero => rfl
  | succ before =>
      have stops := congrArg (fun shown => (shown.1[before]?).map (·.2)) same
      have here : skips.tokens[before]?.map (·.stop) = others.tokens[before]?.map (·.stop) := by
        simpa [shown, Function.comp_def, LexedToken.shown] using stops
      unfold stopAfter
      dsimp only
      rw [here]

theorem grow_alike {job : Job} {position : Nat} {more : Skips} (done : skips.grow job position = .ok more) :
    ∃ last, others.grow job position = .ok last ∧ more.shown = last.shown := by
  unfold grow at done ⊢
  rw [stopAfter_alike same, size_alike same] at done
  obtain ⟨token, lexed, done⟩ := bind_ok.mp done
  refine ⟨_, bind_ok.mpr ⟨token, lexed, rfl⟩, ?_⟩
  cases pure_ok.mp done
  obtain ⟨tokens, ended⟩ := Prod.mk.inj same
  split
  · exact Prod.ext tokens rfl
  · refine Prod.ext ?_ ended
    simp only [shown, Array.toList_push, List.map_append]
    rw [tokens]

end Skips

theorem Skips.start_alike {token other : LexedToken} (same : token.shown = other.shown) :
    (Skips.start token).shown = (Skips.start other).shown := by
  have kind : token.kind = other.kind := congrArg (fun shown => shown.1.kind) same
  unfold Skips.start
  rw [kind]
  split
  · rfl
  · simp [Skips.shown, same]

namespace Search

variable {search : Search} {skips others : Skips} (same : skips.shown = others.shown) {found : Option Repair}

include same

theorem attempt_alike {skipped popped : Nat} (done : search.attempt skips skipped popped = .ok found) :
    ∃ other, search.attempt others skipped popped = .ok other ∧
      found.map Repair.shown = other.map Repair.shown := by
  unfold attempt at done ⊢
  dsimp only at done ⊢
  rw [Skips.stopAfter_alike same] at done
  obtain ⟨resume, lexed, done⟩ := bind_ok.mp done
  obtain ⟨possible, continues, done⟩ := bind_ok.mp done
  refine ⟨_, bind_ok.mpr ⟨resume, lexed, bind_ok.mpr ⟨possible, continues, rfl⟩⟩, ?_⟩
  cases pure_ok.mp done
  split
  · have tokens := congrArg (fun shown => shown.1.take skipped) same
    simp only [Skips.shown, ← List.map_take] at tokens
    simp [Repair.shown, tokens]
  · rfl

theorem tryPopping_alike {cost : Nat} : ∀ {count popped : Nat},
    search.tryPopping skips cost count popped = .ok found →
    ∃ other, search.tryPopping others cost count popped = .ok other ∧
      found.map Repair.shown = other.map Repair.shown
  | 0, _, done => by
      cases done
      exact ⟨none, rfl, rfl⟩
  | count + 1, popped, done => by
      unfold tryPopping at done ⊢
      dsimp only at done ⊢
      rw [Skips.size_alike same] at done
      split at done
      · rename_i beyond
        rw [if_pos beyond]
        exact tryPopping_alike done
      · rename_i within
        rw [if_neg within]
        obtain ⟨tried, attempted, done⟩ := bind_ok.mp done
        obtain ⟨again, attemptedToo, alike⟩ := attempt_alike same attempted
        cases tried with
        | some repair =>
            obtain ⟨other, rfl⟩ : ∃ other, again = some other := by
              cases again with
              | none => cases alike
              | some other => exact ⟨other, rfl⟩
            cases pure_ok.mp done
            exact ⟨some other, bind_ok.mpr ⟨some other, attemptedToo, rfl⟩, alike⟩
        | none =>
            obtain rfl : again = none := by simpa using alike.symm
            obtain ⟨other, rest, alikeRest⟩ := tryPopping_alike done
            exact ⟨other, bind_ok.mpr ⟨none, attemptedToo, rest⟩, alikeRest⟩

omit same in
theorem known_alike {skips others : Skips} (same : skips.shown = others.shown) {cost : Nat} {more : Skips}
    (done : search.known cost skips = .ok more) :
    ∃ last, search.known cost others = .ok last ∧ more.shown = last.shown := by
  have ended : skips.ended = others.ended := congrArg (·.2) same
  unfold known at done ⊢
  rw [Skips.size_alike same, ended] at done
  split at done
  · rename_i grows
    rw [if_pos grows]
    exact Skips.grow_alike same done
  · rename_i stays
    rw [if_neg stays]
    cases done
    exact ⟨others, rfl, same⟩

omit same in
theorem tryCosts_alike : ∀ {count cost : Nat} {skips others : Skips}, skips.shown = others.shown →
    search.tryCosts count cost skips = .ok found →
    ∃ other, search.tryCosts count cost others = .ok other ∧ found.map Repair.shown = other.map Repair.shown
  | 0, _, _, _, _, done => by
      cases done
      exact ⟨none, rfl, rfl⟩
  | count + 1, cost, skips, others, same, done => by
      rw [tryCosts_succ] at done ⊢
      obtain ⟨known, grown, done⟩ := bind_ok.mp done
      obtain ⟨knownToo, grownToo, sameKnown⟩ := known_alike same grown
      obtain ⟨tried, popping, done⟩ := bind_ok.mp done
      obtain ⟨again, poppingToo, alike⟩ := tryPopping_alike sameKnown popping
      cases tried with
      | some repair =>
          obtain ⟨other, rfl⟩ : ∃ other, again = some other := by
            cases again with
            | none => cases alike
            | some other => exact ⟨other, rfl⟩
          cases pure_ok.mp done
          exact ⟨some other, bind_ok.mpr ⟨knownToo, grownToo, bind_ok.mpr ⟨some other, poppingToo, rfl⟩⟩, alike⟩
      | none =>
          obtain rfl : again = none := by simpa using alike.symm
          obtain ⟨other, rest, alikeRest⟩ := tryCosts_alike sameKnown done
          exact ⟨other, bind_ok.mpr ⟨knownToo, grownToo, bind_ok.mpr ⟨none, poppingToo, rest⟩⟩, alikeRest⟩

end Search

section Machines

variable {job : Job} {machine other : Machine} (sameStack : machine.stack.bare = other.stack.bare)

include sameStack

theorem cheapest?_alike (position : machine.position = other.position) {token otherToken : LexedToken}
    (same : token.shown = otherToken.shown) {found : Option Repair}
    (done : cheapest? job machine token = .ok found) :
    ∃ again, cheapest? job other otherToken = .ok again ∧ found.map Repair.shown = again.map Repair.shown := by
  have states : statesBelow machine.stack = statesBelow other.stack := by
    rw [← ParseStack.statesBelow_bare, sameStack, ParseStack.statesBelow_bare]
  have search : searchFor job machine = searchFor job other := by
    unfold searchFor
    rw [states, position]
  have depth : machine.stack.length = other.stack.length := by
    have lengths := congrArg List.length sameStack
    rwa [ParseStack.bare, List.length_map, ParseStack.bare, List.length_map] at lengths
  obtain ⟨room, searched⟩ := cheapest?_ok.mp done
  rw [search] at searched
  obtain ⟨again, searchedToo, shown⟩ := Search.tryCosts_alike (Skips.start_alike same) searched
  exact ⟨again, cheapest?_ok.mpr ⟨depth ▸ room, searchedToo⟩, shown⟩

omit sameStack in
theorem leaves_bare : ∀ (tokens : List LexedToken) (serial : Nat),
    (leaves serial tokens).map Element.bare = tokens.map (fun token => .token token.bare)
  | [], _ => rfl
  | token :: rest, serial => by
      have shape : leaves serial (token :: rest) = .token (token.toGreen serial) :: leaves (serial + 1) rest := by
        simp [leaves, List.zipIdx_cons]
      rw [shape, List.map_cons, List.map_cons, leaves_bare rest]
      rfl

theorem Wraps.alike {next last : Machine} {popped : Nat} {skipped others : List LexedToken}
    (wraps : Wraps job machine next popped skipped) (wrapsToo : Wraps job other last popped others)
    (same : skipped.map LexedToken.bare = others.map LexedToken.bare)
    (named : ∀ entry, entry ∈ machine.stack → entry.element.RopeNamed)
    (namedToo : ∀ entry, entry ∈ other.stack → entry.element.RopeNamed) : next.stack.bare = last.stack.bare := by
  obtain ⟨serial, decisionEnd, nextIs⟩ := wraps.stack_eq
  obtain ⟨otherSerial, otherEnd, lastIs⟩ := wrapsToo.stack_eq
  dsimp only at nextIs lastIs
  have left : ParseStack.bare ((machine.stack.drop popped).dropWhile (·.extra)) =
      ParseStack.bare ((other.stack.drop popped).dropWhile (·.extra)) := by
    rw [← ParseStack.dropWhile_bare, ← ParseStack.dropWhile_bare, ParseStack.bare, ParseStack.bare, List.map_drop,
      List.map_drop]
    exact congrArg (fun stack => (stack.drop popped).dropWhile (·.extra)) sameStack
  have removed : (machine.stack.take popped ++ (machine.stack.drop popped).takeWhile (·.extra)).map StackEntry.bare =
      (other.stack.take popped ++ (other.stack.drop popped).takeWhile (·.extra)).map StackEntry.bare := by
    rw [List.map_append, List.map_append, ← ParseStack.takeWhile_bare, ← ParseStack.takeWhile_bare, ParseStack.bare,
      ParseStack.bare, List.map_take, List.map_take, List.map_drop, List.map_drop]
    exact congrArg (fun stack => stack.take popped ++ (stack.drop popped).takeWhile (·.extra)) sameStack
  have elements : ∀ entries : List StackEntry, (entries.reverse.map (·.element)).map Element.bare =
      (entries.map StackEntry.bare).reverse.map (·.element) := by
    intro entries
    simp [StackEntry.bare, Function.comp_def]
  have leavesNamed : ∀ (serial : Nat) (tokens : List LexedToken) element, element ∈ leaves serial tokens →
      element.RopeNamed := by
    intro serial tokens element member
    obtain ⟨_, _, rfl⟩ := List.mem_map.mp member
    trivial
  have entryNamed : ∀ (stack : ParseStack) (tokens : List LexedToken) (serial : Nat),
      (∀ entry, entry ∈ stack → entry.element.RopeNamed) →
      ∀ element, element ∈ (stack.take popped ++ (stack.drop popped).takeWhile (·.extra)).reverse.map (·.element) ++
        leaves serial tokens → element.RopeNamed := by
    intro stack tokens serial each element member
    rcases List.mem_append.mp member with before | after
    · obtain ⟨entry, among, rfl⟩ := List.mem_map.mp before
      refine each entry ?_
      rcases List.mem_append.mp (List.mem_reverse.mp among) with first | second
      · exact List.mem_of_mem_take first
      · exact List.mem_of_mem_drop ((List.takeWhile_sublist _).subset second)
    · exact leavesNamed serial tokens element after
  have stateIs := congrArg ParseStack.state left
  rw [ParseStack.state_bare, ParseStack.state_bare] at stateIs
  have tokens : (leaves machine.nextSerial skipped).map Element.bare =
      (leaves other.nextSerial others).map Element.bare := by
    rw [leaves_bare, leaves_bare]
    have mapped := congrArg (List.map Element.token) same
    rw [List.map_map, List.map_map] at mapped
    exact mapped
  rw [nextIs, lastIs]
  unfold ParseStack.pushExtra
  rw [ParseStack.bare_cons, ParseStack.bare_cons, left, StackEntry.bare, StackEntry.bare,
    errorNode_bare _ _ _ _ _ (entryNamed _ _ _ named), errorNode_bare _ _ _ _ _ (entryNamed _ _ _ namedToo),
    List.map_append, List.map_append, elements, elements, removed, tokens, stateIs]

end Machines

end Recovery

/-! ### Roots -/

namespace Machine

theorem endChild_bare {token other : LexedToken} (same : token.bare = other.bare) (serial otherSerial : Nat) :
    bareAll (ParseStack.endChild (endToken token serial)) =
      bareAll (ParseStack.endChild (endToken other otherSerial)) := by
  have length : token.length = other.length := congrArg Green.Token.textLength same
  unfold endToken
  rw [length]
  split
  · rfl
  · have leaf : (Element.token (token.toGreen serial)).bare = (Element.token (other.toGreen otherSerial)).bare :=
      congrArg Element.token same
    simp only [ParseStack.endChild, Option.toList_some, List.map_cons, List.map_nil, bareAll_cons, bareAll_nil,
      Child.bare, leaf]

theorem plainly_of_bareAll {children others : List Child} (same : bareAll children = bareAll others) :
    plainly children = plainly others := by
  unfold plainly
  rw [same]

theorem lengthOf_of_bareAll {children others : List Child} (same : bareAll children = bareAll others) :
    lengthOf children = lengthOf others := by
  rw [← lengthOf_bareAll, same, lengthOf_bareAll]

section Roots

variable {table : Table} {left right : ParseStack} (looks : left.bare = right.bare) {token other : LexedToken}
  (same : token.bare = other.bare)

include looks same

theorem toRoot_alike (leftSound : ParseStack.Sound table left) (rightSound : ParseStack.Sound table right)
    (serial otherSerial first second : Nat) :
    (left.toRoot table serial (endToken token first)).LooksLike
      (right.toRoot table otherSerial (endToken other second)) := by
  obtain ⟨leftKind, leftChildren⟩ := gathered_bare left
  obtain ⟨rightKind, rightChildren⟩ := gathered_bare right
  have ends := endChild_bare same first second
  refine ⟨?_, ?_, ?_⟩
  · change (gathered left).1 = (gathered right).1
    rw [leftKind, looks, rightKind]
  · change lengthOf ((gathered left).2 ++ _) = lengthOf ((gathered right).2 ++ _)
    have totals := congrArg totalLength looks
    change totalLength (ParseStack.bare left) = totalLength (ParseStack.bare right) at totals
    rw [ParseStack.totalLength_bare, ParseStack.totalLength_bare] at totals
    rw [lengthOf_append, lengthOf_append, lengthOf_gathered left leftSound, lengthOf_gathered right rightSound, totals,
      lengthOf_of_bareAll ends]
  · change plainly ((gathered left).2 ++ _) = plainly ((gathered right).2 ++ _)
    rw [plainly_append, plainly_append, leftChildren, rightChildren, looks, plainly_of_bareAll ends]

theorem toErrorRoot_alike (named : ∀ entry, entry ∈ left → entry.element.RopeNamed)
    (namedToo : ∀ entry, entry ∈ right → entry.element.RopeNamed) (serial otherSerial first second : Nat) :
    (left.toErrorRoot table serial (endToken token first)).LooksLike
      (right.toErrorRoot table otherSerial (endToken other second)) := by
  have children : ∀ stack : ParseStack, (∀ entry, entry ∈ stack → entry.element.RopeNamed) →
      bareAll (stack.reverse.flatMap (fun entry => splicedIntoError table entry.element)) =
        (stack.bare.reverse.map (·.element)).flatMap (splicedIntoError table) := by
    intro stack each
    have shape : stack.reverse.flatMap (fun entry => splicedIntoError table entry.element) =
        (stack.reverse.map (·.element)).flatMap (splicedIntoError table) := (List.flatMap_map ..).symm
    rw [shape, errorChildren_bare]
    · simp [ParseStack.bare, StackEntry.bare, Function.comp_def]
    · intro element member
      obtain ⟨entry, among, rfl⟩ := List.mem_map.mp member
      exact each entry (List.mem_reverse.mp among)
  have all : bareAll (left.reverse.flatMap (fun entry => splicedIntoError table entry.element) ++
        ParseStack.endChild (endToken token first)) =
      bareAll (right.reverse.flatMap (fun entry => splicedIntoError table entry.element) ++
        ParseStack.endChild (endToken other second)) := by
    rw [bareAll_append, bareAll_append, children left named, children right namedToo, looks,
      endChild_bare same first second]
  exact ⟨rfl, lengthOf_of_bareAll all, plainly_of_bareAll all⟩

end Roots

/-- What two machines come to looks alike: their stacks, and the mode that they keep, or their roots. The second one
has a token waiting only if the first one has. -/
inductive EndsAlike : Machine ⊕ Node → Machine ⊕ Node → Prop
  | next {next last : Machine} : next.stack.bare = last.stack.bare → next.mode = last.mode →
      (next.pending = none → last.pending = none) → EndsAlike (.inl next) (.inl last)
  | root {root other : Node} : root.LooksLike other → EndsAlike (.inr root) (.inr other)

theorem ropeNamed_of_known {job : Job} (sound : job.Sound) {stack : ParseStack} (known : stack.Known job) :
    ∀ entry, entry ∈ stack → entry.element.RopeNamed :=
  fun entry member => ((known.recalls entry member).ropeNamed sound.table entry.element).here

theorem recover_alike {job : Job} (sound : job.Sound) {machine other : Machine} (fits : machine.Fits job)
    (fitsToo : other.Fits job) (known : machine.stack.Known job) (knownToo : other.stack.Known job)
    (looks : machine.stack.bare = other.stack.bare) (position : machine.position = other.position)
    (idle : other.pending = none) {token otherToken : LexedToken} (same : token.shown = otherToken.shown)
    {answer : Machine ⊕ Node}
    (done : Recovery.recover job machine token = .ok answer) :
    ∃ last, Recovery.recover job other otherToken = .ok last ∧ EndsAlike answer last := by
  have named := ropeNamed_of_known sound known
  have namedToo := ropeNamed_of_known sound knownToo
  have bareSame : token.bare = otherToken.bare := congrArg (·.1) same
  unfold Recovery.recover at done ⊢
  obtain ⟨found, searched, done⟩ := bind_ok.mp done
  obtain ⟨again, searchedToo, alike⟩ := Recovery.cheapest?_alike looks position same searched
  cases found with
  | some repair =>
      obtain ⟨repairToo, rfl⟩ : ∃ repairToo, again = some repairToo := by
        cases again with
        | none => cases alike
        | some repairToo => exact ⟨repairToo, rfl⟩
      cases pure_ok.mp done
      obtain ⟨skipped, rest⟩ := Prod.mk.inj (Option.some.inj alike)
      obtain ⟨popped, resume⟩ := Prod.mk.inj rest
      have wraps := Recovery.apply_wraps fits.follows repair
      have wrapsToo := Recovery.apply_wraps fitsToo.follows repairToo
      rw [← popped] at wrapsToo
      have tokens := congrArg (List.map Prod.fst) skipped
      rw [List.map_map, List.map_map] at tokens
      exact ⟨_, bind_ok.mpr ⟨some repairToo, searchedToo, rfl⟩, .next (wraps.alike looks wrapsToo tokens named namedToo)
        (congrArg (fun resume : LexedToken => some resume.lexMode) resume) fun impossible => by cases impossible⟩
  | none =>
      obtain rfl : again = none := by simpa using alike.symm
      cases pure_ok.mp done
      refine ⟨_, bind_ok.mpr ⟨none, searchedToo, rfl⟩, ?_⟩
      have kind : token.kind = otherToken.kind := congrArg Green.Token.kind bareSame
      by_cases ended : token.kind = .endOfInput
      · unfold Recovery.giveUp
        rw [if_pos ended, if_pos (kind ▸ ended)]
        exact .root (toErrorRoot_alike looks bareSame named namedToo _ _ _ _)
      · obtain ⟨next, gaveUp, wraps, _, mode⟩ := Recovery.giveUp_wraps fits.follows ended
        obtain ⟨last, gaveUpToo, wrapsToo, pending, modeToo⟩ :=
          Recovery.giveUp_wraps fitsToo.follows (fun same => ended (kind.trans same))
        rw [gaveUp, gaveUpToo]
        exact .next (wraps.alike looks wrapsToo
          (by rw [List.map_singleton, List.map_singleton, bareSame]) named namedToo)
          (mode.trans modeToo.symm) fun _ => pending.trans idle

end Machine

end IncrementalParsing

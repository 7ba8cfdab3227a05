import IncrementalParsing.Lalr.Compile
import IncrementalParsing.Proofs.Lalr.Automaton

/-!
Rows of a table. A row has one action for each terminal. A shift in it comes from an edge of its
state; a reduction or an acceptance is claimed by an item at its end, for a terminal that may follow.
Rows of equal width that are laid out one after another are found again by their place.
-/

namespace IncrementalParsing.Lalr

/-! ### Rows one after another -/

section Layout

variable {α β : Type} (row : β → Array α) (width : Nat)

private theorem layout_from (column : Nat) (inside : column < width) :
    ∀ (items : List β) (before : Array α) (place : Nat),
      (∀ item, item ∈ items → (row item).size = width) →
      (items.foldl (fun all item => all ++ row item) before)[before.size + place * width + column]? =
        items[place]?.bind (fun item => (row item)[column]?)
  | [], before, place, _sizes => by
      rw [List.foldl_nil, Array.getElem?_eq_none (by omega), List.getElem?_nil]
      rfl
  | item :: rest, before, place, sizes => by
      have size := sizes item List.mem_cons_self
      have others := fun later among => sizes later (List.mem_cons_of_mem item among)
      have behind := layout_from column inside rest (before ++ row item)
      rw [Array.size_append, size] at behind
      rw [List.foldl_cons]
      cases place with
      | zero =>
          have kept : ∀ (more : List β) (start : Array α), before.size + column < start.size →
              (more.foldl (fun all item => all ++ row item) start)[before.size + column]? =
                start[before.size + column]? := by
            intro more
            induction more with
            | nil => exact fun _ _ => rfl
            | cons next more ih =>
                intro start placed
                rw [List.foldl_cons, ih _ (by rw [Array.size_append]; omega),
                  Array.getElem?_append_left placed]
          rw [Nat.zero_mul, Nat.add_zero, kept rest _ (by rw [Array.size_append]; omega),
            Array.getElem?_append_right (by omega), Nat.add_sub_cancel_left]
          rfl
      | succ place =>
          have shifted : before.size + (place + 1) * width + column =
              before.size + width + place * width + column := by
            rw [Nat.succ_mul]
            omega
          rw [shifted, behind place others, List.getElem?_cons_succ]

theorem layout_getElem? {column : Nat} (inside : column < width) (items : List β) (place : Nat)
    (sizes : ∀ item, item ∈ items → (row item).size = width) :
    (items.foldl (fun all item => all ++ row item) #[])[place * width + column]? =
      items[place]?.bind (fun item => (row item)[column]?) := by
  have found := layout_from row width column inside items #[] place sizes
  simpa using found

end Layout

/-! ### Shifts and gotos -/

section EdgeRows

variable {edges : List (Symbol × Nat)}

theorem shiftRow_sound {terminalCount : Nat} :
    (shiftRow terminalCount edges).size = terminalCount ∧
      ∀ (column : Nat) (action : Action), (shiftRow terminalCount edges)[column]? = some action →
        action = .error ∨ ∃ (terminal : KindId) (place : Nat), (Symbol.terminal terminal, place) ∈ edges ∧
          terminal.index = column ∧ action = .shift (.ofIndex place) := by
  unfold shiftRow
  apply foldl_keeps (fun (row : Array Action) => row.size = terminalCount ∧
    ∀ (column : Nat) (action : Action), row[column]? = some action →
      action = .error ∨ ∃ (terminal : KindId) (place : Nat), (Symbol.terminal terminal, place) ∈ edges ∧
        terminal.index = column ∧ action = .shift (.ofIndex place))
  · rintro ⟨symbol, place⟩ member row ⟨size, sound⟩
    cases symbol with
    | nonterminal id => exact ⟨size, sound⟩
    | terminal terminal =>
        refine ⟨by simpa using size, fun column action found => ?_⟩
        rw [Array.getElem?_setIfInBounds] at found
        split at found
        · rename_i same
          split at found
          · cases found
            exact Or.inr ⟨terminal, place, member, same, rfl⟩
          · cases found
        · exact sound column action found
  · refine ⟨by simp, fun column action found => Or.inl ?_⟩
    rw [Array.getElem?_replicate] at found
    split at found
    · exact (Option.some.inj found).symm
    · cases found

theorem shiftRow_complete {terminalCount : Nat} {terminal : KindId} {place : Nat}
    (inside : terminal.index < terminalCount) (member : (Symbol.terminal terminal, place) ∈ edges) :
    ∃ target, (shiftRow terminalCount edges)[terminal.index]? = some (.shift target) := by
  obtain ⟨before, after, rfl⟩ := List.append_of_mem member
  have size := (@shiftRow_sound before terminalCount).1
  unfold shiftRow at size ⊢
  rw [List.foldl_append, List.foldl_cons]
  apply foldl_keeps (fun row : Array Action => ∃ target, row[terminal.index]? = some (.shift target))
  · rintro ⟨symbol, other⟩ _ row ⟨target, at_⟩
    cases symbol with
    | nonterminal id => exact ⟨target, at_⟩
    | terminal kind =>
        obtain ⟨room, _⟩ := Array.getElem?_eq_some_iff.mp at_
        dsimp only
        rw [Array.getElem?_setIfInBounds]
        split
        · rename_i same
          exact ⟨.ofIndex other, if_pos (same ▸ room)⟩
        · exact ⟨target, at_⟩
  · refine ⟨.ofIndex place, ?_⟩
    dsimp only
    rw [Array.getElem?_setIfInBounds, if_pos rfl, size, if_pos inside]

theorem gotoRow_sound {nonterminalCount : Nat} :
    (gotoRow nonterminalCount edges).size = nonterminalCount ∧
      ∀ (column : Nat) (target : StateId),
        (gotoRow nonterminalCount edges)[column]? = some (some target) →
        ∃ (id : NonterminalId) (place : Nat), (Symbol.nonterminal id, place) ∈ edges ∧
          id.index = column ∧ target = .ofIndex place := by
  unfold gotoRow
  apply foldl_keeps (fun (row : Array (Option StateId)) => row.size = nonterminalCount ∧
    ∀ (column : Nat) (target : StateId), row[column]? = some (some target) →
      ∃ (id : NonterminalId) (place : Nat), (Symbol.nonterminal id, place) ∈ edges ∧
        id.index = column ∧ target = .ofIndex place)
  · rintro ⟨symbol, place⟩ member row ⟨size, sound⟩
    cases symbol with
    | terminal terminal => exact ⟨size, sound⟩
    | nonterminal id =>
        refine ⟨by simpa using size, fun column target found => ?_⟩
        rw [Array.getElem?_setIfInBounds] at found
        split at found
        · rename_i same
          split at found
          · cases found
            exact ⟨id, place, member, same, rfl⟩
          · cases found
        · exact sound column target found
  · refine ⟨by simp, fun column target found => ?_⟩
    rw [Array.getElem?_replicate] at found
    split at found
    · cases found
    · cases found

private theorem gotoRow_filled {width : Nat} {id : NonterminalId} (inside : id.index < width) :
    ∀ (items : List (Symbol × Nat)) (row : Array (Option StateId)), row.size = width →
      (∃ target, row[id.index]? = some (some target)) ∨ (∃ place, (Symbol.nonterminal id, place) ∈ items) →
      ∃ target, (items.foldl
        (fun row edge =>
          match edge.1 with
          | .terminal _ => row
          | .nonterminal id => row.setIfInBounds id.index (some (.ofIndex edge.2))) row)[id.index]? =
        some (some target)
  | [], row, _size, filled => by
      rcases filled with done | ⟨place, none⟩
      · exact done
      · cases none
  | (symbol, place) :: rest, row, size, filled => by
      rw [List.foldl_cons]
      cases symbol with
      | terminal terminal =>
          apply gotoRow_filled inside rest row size
          rcases filled with done | ⟨other, member⟩
          · exact Or.inl done
          · rcases List.mem_cons.mp member with here | later
            · cases here
            · exact Or.inr ⟨other, later⟩
      | nonterminal current =>
          apply gotoRow_filled inside rest _ (by simpa using size)
          by_cases same : current.index = id.index
          · left
            refine ⟨.ofIndex place, ?_⟩
            rw [Array.getElem?_setIfInBounds]
            simp [same, size, inside]
          · rcases filled with done | ⟨other, member⟩
            · left
              obtain ⟨target, at_⟩ := done
              exact ⟨target, by rw [Array.getElem?_setIfInBounds_ne same]; exact at_⟩
            · rcases List.mem_cons.mp member with here | later
              · cases here
                exact absurd rfl same
              · exact Or.inr ⟨other, later⟩

theorem gotoRow_complete {nonterminalCount : Nat} {id : NonterminalId} {place : Nat}
    (inside : id.index < nonterminalCount) (member : (Symbol.nonterminal id, place) ∈ edges) :
    ∃ target, (gotoRow nonterminalCount edges)[id.index]? = some (some target) :=
  gotoRow_filled inside edges _ (by simp) (Or.inr ⟨place, member⟩)

end EdgeRows

/-! ### Claims -/

/-- The terminals on which a closed item at its end is reduced, when `following` may follow the kernel
item that was closed. -/
def reducedOn (construction : Construction) (following : TerminalSet)
    (closed : Construction.ClosedItem) : TerminalSet :=
  if closed.lookahead.contains construction.marker then
    (closed.lookahead.remove construction.marker).union following
  else closed.lookahead

def Claims.Sound (construction : Construction) (closures : Closures)
    (kernel : List (Item × TerminalSet)) (claims : Claims) : Prop :=
  ∀ (column number : Nat), claims.reductions[column]? = some (some number) →
    ∃ entry closed terminal, entry ∈ kernel ∧ closed ∈ closures.of entry.1 ∧
      construction.rules.nextSymbol closed.item = Option.none ∧ closed.item.production = number ∧
      terminal ∈ (reducedOn construction entry.2 closed).toList ∧ terminal.index = column

section Claimed

variable {construction : Construction} {closures : Closures} {kernel : List (Item × TerminalSet)}

theorem preferred_eq (augmented left right : Nat) :
    Claims.preferred augmented left right = left ∨ Claims.preferred augmented left right = right := by
  unfold Claims.preferred
  split
  · rename_i one
    rcases one with same | same
    · exact Or.inl same.symm
    · exact Or.inr same.symm
  · omega

private theorem Claims.Sound.reduce {claims : Claims} {number : Nat} {terminal : KindId}
    (sound : claims.Sound construction closures kernel)
    (claimed : ∃ entry closed, entry ∈ kernel ∧ closed ∈ closures.of entry.1 ∧
      construction.rules.nextSymbol closed.item = Option.none ∧ closed.item.production = number ∧
      terminal ∈ (reducedOn construction entry.2 closed).toList) :
    (claims.reduce construction.rules.augmented terminal number).Sound construction closures
      kernel := by
  obtain ⟨entry, closed, member, inside, ended, same, follows⟩ := claimed
  intro column wanted found
  simp only [Claims.reduce, Array.getElem?_modify] at found
  split at found
  · rename_i here
    cases old : claims.reductions[column]? with
    | none =>
        rw [old] at found
        cases found
    | some earlier =>
        rw [old, Option.map_some, Option.some.injEq] at found
        cases earlier with
        | none =>
            cases found
            exact ⟨entry, closed, terminal, member, inside, ended, same, follows, here⟩
        | some existing =>
            rw [Option.some.injEq] at found
            rcases preferred_eq construction.rules.augmented existing number with first | second
            · rw [first] at found
              subst found
              exact sound column existing old
            · rw [second] at found
              subst found
              exact ⟨entry, closed, terminal, member, inside, ended, same, follows, here⟩
  · exact sound column wanted found

theorem claimsOf_sound (grammar : Grammar) :
    (claimsOf grammar construction closures kernel).Sound construction closures kernel := by
  unfold claimsOf
  apply foldl_keeps (Claims.Sound construction closures kernel)
  · intro entry member before sound
    apply foldl_keeps (Claims.Sound construction closures kernel) _ _ _ _ sound
    intro closed inside claims kept
    unfold claim
    split
    · exact kept
    · exact kept
    · rename_i ended
      apply foldl_keeps (Claims.Sound construction closures kernel) _ _ _ _ kept
      intro terminal follows current still
      exact still.reduce ⟨entry, closed, member, inside, ended, rfl, follows⟩
  · intro column number found
    simp only [Claims.none, Array.getElem?_replicate] at found
    split at found
    · cases found
    · cases found

end Claimed

/-! ### Settled rows -/

/-- What may stand in a settled row: a shift of an edge, a claimed reduction, or an acceptance that is
claimed under a number that no production has. -/
def Justified (grammar : Grammar) (claims : Claims) (edges : List (Symbol × Nat))
    (column : Nat) : Action → Prop
  | .error => True
  | .shift target => ∃ (terminal : KindId) (place : Nat), (Symbol.terminal terminal, place) ∈ edges ∧
      terminal.index = column ∧ target = .ofIndex place
  | .reduce id => ∃ number, number < grammar.productions.size ∧ id = .ofIndex number ∧
      claims.reductions[column]? = some (some number)
  | .accept => ∃ number, grammar.productions.size ≤ number ∧
      claims.reductions[column]? = some (some number)

def RowSound (grammar : Grammar) (claims : Claims) (edges : List (Symbol × Nat))
    (row : Array Action) : Prop :=
  row.size = grammar.terminalCount ∧
    ∀ (column : Nat) (action : Action), row[column]? = some action →
      Justified grammar claims edges column action

section Settled

variable {grammar : Grammar} {claims : Claims} {edges : List (Symbol × Nat)}

private theorem RowSound.set {row : Array Action} (sound : RowSound grammar claims edges row)
    {column : Nat} {action : Action} (justified : Justified grammar claims edges column action) :
    RowSound grammar claims edges (row.setIfInBounds column action) := by
  refine ⟨by simpa using sound.1, fun place found at_ => ?_⟩
  rw [Array.getElem?_setIfInBounds] at at_
  split at at_
  · rename_i same
    split at at_
    · cases at_
      exact same ▸ justified
    · cases at_
  · exact sound.2 place found at_

private theorem settle_sound {state column : Nat} {before after : SettledRow}
    (sound : RowSound grammar claims edges before.actions)
    (settled : settle grammar state claims before column = .ok after) :
    RowSound grammar claims edges after.actions := by
  unfold settle at settled
  split at settled
  · cases settled
    exact sound
  · rename_i number claimed
    have known : claims.reductions[column]? = some (some number) := by
      cases found : claims.reductions[column]? with
      | none =>
          rw [found] at claimed
          cases claimed
      | some claim =>
          rw [found] at claimed
          exact congrArg some claimed
    have reduced : ∀ production, grammar.productions[number]? = some production →
        Justified grammar claims edges column (.reduce (.ofIndex number)) := by
      intro production found
      obtain ⟨inside, _⟩ := Array.getElem?_eq_some_iff.mp found
      exact ⟨number, inside, rfl, known⟩
    split at settled
    · rename_i beyond _
      cases settled
      exact sound.set ⟨number, Array.getElem?_eq_none_iff.mp beyond, known⟩
    · cases settled
      exact sound
    · rename_i production found _
      cases settled
      exact sound.set (reduced production found)
    · rename_i production low high found _
      split at settled
      · cases settled
        exact sound
      · cases settled
        exact sound.set (reduced production found)
      · split at settled
        · cases settled
        · cases settled
          exact sound

theorem actionRow_sound {state : Nat} {row : SettledRow}
    (settled : actionRow grammar state claims edges = .ok row) :
    RowSound grammar claims edges row.actions := by
  unfold actionRow at settled
  refine foldlM_keeps (fun row => RowSound grammar claims edges row.actions) _ _ _ _
    (fun column _ before after sound step => settle_sound sound step) ?_ settled
  refine ⟨shiftRow_sound.1, fun column action found => ?_⟩
  rcases shiftRow_sound.2 column action found with none | ⟨terminal, place, member, same, shifted⟩
  · subst none
    exact trivial
  · subst shifted
    exact ⟨terminal, place, member, same, rfl⟩

end Settled

end IncrementalParsing.Lalr

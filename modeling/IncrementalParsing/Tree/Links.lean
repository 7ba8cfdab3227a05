import IncrementalParsing.Tree.Walk

/-!
Links between tokens. The first token of a node is the first one that a walk comes to; the last one is
looked for from the last child backward. From a token the next one is found among the siblings behind it
and below them, then among those behind its parent, and so on up to the root, and the one before it
likewise.
-/

namespace IncrementalParsing.Handle

/-! ### How far an element is from either end of its siblings -/

def weightAfter (handle : Handle) : Nat :=
  match handle.path with
  | [] => 0
  | station :: _ => Slot.remainingFrom station.slot.advance

def weightBefore (handle : Handle) : Nat :=
  match handle.path with
  | [] => handle.here.element.weight
  | station :: _ => handle.here.element.weight + station.slot.passed

theorem weight_le_weightBefore (handle : Handle) : handle.here.element.weight ≤ handle.weightBefore := by
  unfold weightBefore
  split
  · exact Nat.le_refl _
  · exact Nat.le_add_right _ _

theorem elementAt?_ok {parent handle : Handle} {place : Option Slot}
    (found : parent.elementAt? place = .ok (some handle)) :
    ∃ slot here, place = some slot ∧ slot.current = .ok here ∧ handle = parent.seated slot here := by
  cases place with
  | none => cases found
  | some slot =>
      rw [elementAt?] at found
      cases at_ : parent.elementAt slot with
      | error fault =>
          rw [at_] at found
          cases found
      | ok other =>
          rw [at_] at found
          cases found
          obtain ⟨here, current, same⟩ := elementAt_ok.mp at_
          exact ⟨slot, here, rfl, current, same⟩

theorem weightAfter_next {handle next : Handle} (moves : handle.nextSiblingOrToken? = .ok (some next)) :
    next.weightAfter < handle.weightAfter := by
  obtain ⟨_, path⟩ := handle
  cases path with
  | nil => cases moves
  | cons station outer =>
      obtain ⟨slot, there, advances, current, rfl⟩ := elementAt?_ok moves
      have behind := Slot.weight_add_remainingFrom current
      have positive := there.element.weight_pos
      simp only [weightAfter, seated, advances, Slot.remainingFrom_some]
      omega

theorem retreat_ok {parent handle : Handle} {slot : Slot}
    (found : (do parent.elementAt? (← slot.retreat)) = .ok (some handle)) :
    handle.weightBefore ≤ slot.passed := by
  cases retreats : slot.retreat with
  | error fault =>
      rw [retreats] at found
      cases found
  | ok place =>
      rw [retreats] at found
      obtain ⟨last, here, rfl, current, rfl⟩ := elementAt?_ok found
      exact Slot.weight_add_passed slot last here retreats current

theorem weightBefore_prev {handle previous : Handle}
    (moves : handle.prevSiblingOrToken? = .ok (some previous)) :
    previous.weightBefore < handle.weightBefore := by
  obtain ⟨here, path⟩ := handle
  cases path with
  | nil => cases moves
  | cons station outer =>
      have before := retreat_ok moves
      have positive := here.element.weight_pos
      simp only [weightBefore] at before ⊢
      omega

theorem weightBefore_last {handle last : Handle} (found : handle.lastChildOrToken? = .ok (some last)) :
    last.weightBefore < handle.here.element.weight := by
  have before := retreat_ok found
  rw [Slot.passed_last] at before
  exact Nat.lt_of_le_of_lt before handle.here.element.weightAll_children

/-! ### The ends of a node -/

def firstToken? (handle : Handle) : Except Fault (Option Handle) := (Walk.of handle).nextToken?

/-- The first token at or below an element or the siblings behind it. -/
def firstTokenFrom? : Option Handle → Except Fault (Option Handle)
  | none => .ok none
  | some current =>
      if current.isToken then .ok (some current)
      else do
        match ← current.firstToken? with
        | some token => return some token
        | none =>
            match _moves : current.nextSiblingOrToken? with
            | .error fault => .error fault
            | .ok none => .ok none
            | .ok (some next) => firstTokenFrom? (some next)
termination_by current? => (current?.map weightAfter).getD 0
decreasing_by exact weightAfter_next _moves

mutual

def lastToken? (handle : Handle) : Except Fault (Option Handle) :=
  match _last : handle.lastChildOrToken? with
  | .error fault => .error fault
  | .ok none => .ok none
  | .ok (some last) => lastTokenFrom? (some last)
termination_by 2 * handle.here.element.weight
decreasing_by
  have before := weightBefore_last _last
  simp only [Option.map_some, Option.getD_some]
  omega

def lastTokenFrom? : Option Handle → Except Fault (Option Handle)
  | none => .ok none
  | some current =>
      if current.isToken then .ok (some current)
      else do
        match ← current.lastToken? with
        | some token => return some token
        | none =>
            match _moves : current.prevSiblingOrToken? with
            | .error fault => .error fault
            | .ok none => .ok none
            | .ok (some previous) => lastTokenFrom? (some previous)
termination_by current? => ((current?.map weightBefore).map (2 * · + 1)).getD 0
decreasing_by
  · have within := current.weight_le_weightBefore
    simp only [Option.map_some, Option.getD_some]
    omega
  · have before := weightBefore_prev _moves
    simp only [Option.map_some, Option.getD_some]
    omega

end

/-! ### The tokens on either side -/

theorem depth_parent {handle parent : Handle} (up : handle.parent? = some parent) :
    parent.depth + 1 = handle.depth := by
  obtain ⟨_, path⟩ := handle
  cases path with
  | nil => cases up
  | cons station outer =>
      cases up
      rfl

def nextToken? (handle : Handle) : Except Fault (Option Handle) := do
  match ← firstTokenFrom? (← handle.nextSiblingOrToken?) with
  | some token => return some token
  | none =>
      match _up : handle.parent? with
      | none => return none
      | some parent => parent.nextToken?
termination_by handle.depth
decreasing_by exact Nat.lt_of_succ_le (Nat.le_of_eq (depth_parent _up))

def prevToken? (handle : Handle) : Except Fault (Option Handle) := do
  match ← lastTokenFrom? (← handle.prevSiblingOrToken?) with
  | some token => return some token
  | none =>
      match _up : handle.parent? with
      | none => return none
      | some parent => parent.prevToken?
termination_by handle.depth
decreasing_by exact Nat.lt_of_succ_le (Nat.le_of_eq (depth_parent _up))

def tokensFrom : Nat → Option Handle → Except Fault (List Handle)
  | 0, _ => .ok []
  | _, none => .ok []
  | count + 1, some token => do
      let others ← tokensFrom count (← token.nextToken?)
      return token :: others

end IncrementalParsing.Handle

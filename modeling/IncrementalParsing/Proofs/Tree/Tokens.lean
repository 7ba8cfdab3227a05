import IncrementalParsing.Tree.Location

/-!
Tokens in text order. The first and the last token at or below a place are the first and the last of the
tokens that a walk comes past, and the token before one of them is the one that the walk has come past
last, whatever empty nodes lie between the two. Only in front of the first one does the way lead out of
the place.
-/

namespace IncrementalParsing

namespace Placed

theorem children_of_isToken {placed : Placed} (token : placed.isToken = true) : placed.children = [] := by
  cases shape : placed.element with
  | token leaf => simp [Placed.children, shape, Green.Element.children, flattenAll]
  | node head children => simp [Placed.isToken, shape, Green.Element.isToken] at token

end Placed

namespace Location

def tokensAt (here : Placed) (path : List Crumb) : List Location :=
  (preorderAt here path).filter isToken

def tokensAmong (parent : Placed) (path : List Crumb) (before items : List Placed) : List Location :=
  (preorderAmong parent path before items).filter isToken

/-- The tokens at or below the children of `parent` in front of `after`, which are given in reverse order. -/
def tokensBefore (parent : Placed) (path : List Crumb) (after : List Placed) :
    List Placed → List Location
  | [] => []
  | last :: before =>
      tokensBefore parent path (last :: after) before ++ tokensAt last (⟨parent, before, after⟩ :: path)

variable {here parent : Placed} {path : List Crumb}

theorem tokensAt_token (token : here.isToken = true) : tokensAt here path = [⟨here, path⟩] := by
  unfold tokensAt
  rw [preorderAt, Placed.children_of_isToken token, preorderAmong]
  exact List.filter_cons_of_pos token

theorem tokensAt_node (node : here.isToken = false) :
    tokensAt here path = tokensAmong here path [] here.children := by
  unfold tokensAt tokensAmong
  rw [preorderAt]
  exact List.filter_cons_of_neg (Bool.eq_false_iff.mp node)

@[simp] theorem tokensAmong_nil (before : List Placed) : tokensAmong parent path before [] = [] := by
  unfold tokensAmong
  rw [preorderAmong]
  rfl

@[simp] theorem tokensAmong_cons (before : List Placed) (first : Placed) (after : List Placed) :
    tokensAmong parent path before (first :: after) =
      tokensAt first (⟨parent, before, after⟩ :: path) ++ tokensAmong parent path (first :: before) after := by
  unfold tokensAmong tokensAt
  rw [preorderAmong, List.filter_append]

theorem tokensAmong_split (parent : Placed) (path : List Crumb) : ∀ before after : List Placed,
    tokensAmong parent path [] (before.reverse ++ after) =
      tokensBefore parent path after before ++ tokensAmong parent path before after
  | [], after => rfl
  | last :: before, after => by
      rw [List.reverse_cons, List.append_assoc, List.singleton_append,
        tokensAmong_split parent path before (last :: after), tokensAmong_cons, tokensBefore,
        List.append_assoc]

/-! ### The first and the last token -/

mutual

theorem firstTokenAt?_eq (here : Placed) (path : List Crumb) :
    firstTokenAt? here path = (tokensAt here path).head? := by
  rw [firstTokenAt?]
  cases token : here.isToken with
  | true => rw [tokensAt_token token, if_pos rfl, List.head?_cons]
  | false =>
      rw [tokensAt_node token, if_neg Bool.false_ne_true]
      exact firstTokenAmong?_eq here path [] here.children
termination_by 2 * here.element.weight
decreasing_by
  have := here.weight_children
  omega

theorem firstTokenAmong?_eq (parent : Placed) (path : List Crumb) (before items : List Placed) :
    firstTokenAmong? parent path before items = (tokensAmong parent path before items).head? := by
  match items with
  | [] =>
      rw [firstTokenAmong?, tokensAmong_nil]
      rfl
  | first :: after =>
      rw [firstTokenAmong?, tokensAmong_cons, List.head?_append,
        firstTokenAt?_eq first (⟨parent, before, after⟩ :: path),
        firstTokenAmong?_eq parent path (first :: before) after]
      cases (tokensAt first (⟨parent, before, after⟩ :: path)).head? <;> rfl
termination_by 2 * placedWeight items + 1
decreasing_by
  · simp only [placedWeight_cons]
    omega
  · have := first.element.weight_pos
    simp only [placedWeight_cons]
    omega

end

mutual

theorem lastTokenAt?_eq (here : Placed) (path : List Crumb) :
    lastTokenAt? here path = (tokensAt here path).getLast? := by
  rw [lastTokenAt?]
  cases token : here.isToken with
  | true => rw [tokensAt_token token, if_pos rfl, List.getLast?_singleton]
  | false =>
      have whole := tokensAmong_split here path here.children.reverse []
      rw [List.reverse_reverse, List.append_nil, tokensAmong_nil, List.append_nil] at whole
      rw [tokensAt_node token, if_neg Bool.false_ne_true, whole]
      exact lastTokenAmong?_eq here path [] here.children.reverse
termination_by 2 * here.element.weight
decreasing_by
  have := here.weight_children
  have same : placedWeight here.children.reverse = placedWeight here.children := by
    simp [placedWeight]
  omega

theorem lastTokenAmong?_eq (parent : Placed) (path : List Crumb) (after before : List Placed) :
    lastTokenAmong? parent path after before = (tokensBefore parent path after before).getLast? := by
  match before with
  | [] =>
      rw [lastTokenAmong?, tokensBefore]
      rfl
  | last :: before =>
      rw [lastTokenAmong?, tokensBefore, List.getLast?_append,
        lastTokenAt?_eq last (⟨parent, before, after⟩ :: path),
        lastTokenAmong?_eq parent path (last :: after) before]
      cases (tokensAt last (⟨parent, before, after⟩ :: path)).getLast? <;> rfl
termination_by 2 * placedWeight before + 1
decreasing_by
  · simp only [placedWeight_cons]
    omega
  · have := last.element.weight_pos
    simp only [placedWeight_cons]
    omega

end

/-! ### The token before -/

/-- The token before a child is the last one before it among the children, or else the one before the
parent. -/
theorem tokenBefore?_child (first : Placed) (before after : List Placed) :
    tokenBefore? first (⟨parent, before, after⟩ :: path) =
      (tokensBefore parent path (first :: after) before).getLast?.or (tokenBefore? parent path) := by
  rw [tokenBefore?, lastTokenAmong?_eq]
  cases (tokensBefore parent path (first :: after) before).getLast? <;> rfl

mutual

/-- The token before one of the tokens of a place is the one that precedes it among them; before the
first of them it is the one before the place. -/
theorem prevToken?_at (here : Placed) (path : List Crumb) {front back : List Location} {token : Location}
    (shape : tokensAt here path = front ++ token :: back) :
    token.prevToken? = front.getLast?.or (tokenBefore? here path) := by
  cases isToken : here.isToken with
  | true =>
      rw [tokensAt_token isToken] at shape
      obtain ⟨rfl, same⟩ | ⟨more, _, impossible⟩ := List.cons_eq_append_iff.mp shape
      · cases same
        rfl
      · simp at impossible
  | false =>
      rw [tokensAt_node isToken] at shape
      exact prevToken?_among here path [] here.children shape
termination_by 2 * here.element.weight
decreasing_by
  have := here.weight_children
  omega

theorem prevToken?_among (parent : Placed) (path : List Crumb) (before items : List Placed)
    {front back : List Location} {token : Location}
    (shape : tokensAmong parent path before items = front ++ token :: back) :
    token.prevToken? = front.getLast?.or
      ((tokensBefore parent path items before).getLast?.or (tokenBefore? parent path)) := by
  match items with
  | [] =>
      rw [tokensAmong_nil] at shape
      simp at shape
  | first :: after =>
      rw [tokensAmong_cons] at shape
      rcases List.append_eq_append_iff.mp shape with ⟨more, frontIs, others⟩ | ⟨more, firstIs, others⟩
      · have further := prevToken?_among parent path (first :: before) after others
        rw [further, tokensBefore, frontIs, List.getLast?_append, List.getLast?_append, Option.or_assoc,
          Option.or_assoc]
      · cases more with
        | nil =>
            rw [List.nil_append] at others
            rw [List.append_nil] at firstIs
            have further := prevToken?_among parent path (first :: before) after
              (show tokensAmong parent path (first :: before) after = [] ++ token :: back from others.symm)
            rw [further, tokensBefore, ← firstIs, List.getLast?_append, List.getLast?_nil,
              Option.none_or, Option.or_assoc]
        | cons next rest =>
            cases others
            rw [prevToken?_at first (⟨parent, before, after⟩ :: path) firstIs, tokenBefore?_child]
termination_by 2 * placedWeight items + 1
decreasing_by
  all_goals
    have := first.element.weight_pos
    simp only [placedWeight_cons]
    omega

end

end Location

end IncrementalParsing

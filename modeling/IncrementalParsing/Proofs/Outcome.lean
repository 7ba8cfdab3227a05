import IncrementalParsing.Fault

/-!
Taking computations apart. An operation that may end with a fault or a refusal is described by what
it answers when it answers; the facts here turn an answer of a composed operation into answers of its
parts.
-/

namespace IncrementalParsing

section

variable {Ending α β : Type}

theorem bind_ok {first : Except Ending α} {next : α → Except Ending β} {answer : β} :
    (first >>= next) = .ok answer ↔
      ∃ middle, first = .ok middle ∧ next middle = .ok answer := by
  cases first <;> simp [Bind.bind, Except.bind]

theorem bind_error {first : Except Ending α} {next : α → Except Ending β} {ending : Ending} :
    (first >>= next) = .error ending ↔
      first = .error ending ∨ ∃ middle, first = .ok middle ∧ next middle = .error ending := by
  cases first <;> simp [Bind.bind, Except.bind]

theorem ok_bind {value : α} {next : α → Except Ending β} :
    ((.ok value : Except Ending α) >>= next) = next value := rfl

theorem pure_ok {value answer : α} :
    (pure value : Except Ending α) = .ok answer ↔ value = answer := by
  simp [Pure.pure, Except.pure]

theorem map_ok {value : Except Ending α} {change : α → β} {answer : β} :
    change <$> value = .ok answer ↔ ∃ middle, value = .ok middle ∧ change middle = answer := by
  cases value <;> simp [Functor.map, Except.map]

theorem error_ne_ok {ending : Ending} {answer : α} :
    (.error ending : Except Ending α) ≠ .ok answer := by
  intro same
  cases same

theorem foldlM_keeps (holds : β → Prop) (step : β → α → Except Ending β) :
    ∀ (items : List α) (state answer : β),
      (∀ item, item ∈ items → ∀ before after,
        holds before → step before item = .ok after → holds after) →
      holds state → items.foldlM step state = .ok answer → holds answer
  | [], state, answer, _keeps, initially, folded => by
      rw [List.foldlM_nil] at folded
      exact pure_ok.mp folded ▸ initially
  | item :: rest, state, answer, keeps, initially, folded => by
      rw [List.foldlM_cons] at folded
      obtain ⟨middle, stepped, remaining⟩ := bind_ok.mp folded
      exact foldlM_keeps holds step rest middle answer
        (fun other member => keeps other (List.mem_cons_of_mem item member))
        (keeps item List.mem_cons_self state middle initially stepped) remaining

theorem foldlM_done {holds : β → Prop} {grows : β → β → Prop} (done : α → β → Prop)
    {step : β → α → Except Ending β} (refl : ∀ state, grows state state)
    (trans : ∀ first second third, grows first second → grows second third → grows first third)
    (stays : ∀ item before after, grows before after → done item before → done item after) :
    ∀ items : List α, (∀ item, item ∈ items → ∀ before, holds before →
        ∃ after, step before item = .ok after ∧ holds after ∧ grows before after ∧ done item after) →
      ∀ before, holds before → ∃ after, items.foldlM step before = .ok after ∧ holds after ∧
        grows before after ∧ ∀ item, item ∈ items → done item after
  | [], _each, before, holding =>
      ⟨before, rfl, holding, refl before, fun item none => by cases none⟩
  | item :: rest, each, before, holding => by
      obtain ⟨middle, stepped, holdsMiddle, grown, here⟩ := each item List.mem_cons_self before holding
      obtain ⟨after, folded, holdsAfter, further, others⟩ := foldlM_done done refl trans stays rest
        (fun other member => each other (List.mem_cons_of_mem item member)) middle holdsMiddle
      refine ⟨after, ?_, holdsAfter, trans _ _ _ grown further, fun other member => ?_⟩
      · rw [List.foldlM_cons, stepped]
        exact folded
      · rcases List.mem_cons.mp member with rfl | later
        · exact stays _ _ _ further here
        · exact others other later

theorem exists_foldlM {holds : β → Prop} {step : β → α → Except Ending β} {items : List α}
    (each : ∀ item, item ∈ items → ∀ before, holds before → ∃ after, step before item = .ok after ∧ holds after)
    {before : β} (holding : holds before) : ∃ after, items.foldlM step before = .ok after ∧ holds after := by
  obtain ⟨after, folded, holdsAfter, _⟩ := foldlM_done (fun _ _ => True) (fun _ => trivial)
    (fun _ _ _ _ _ => trivial) (fun _ _ _ _ _ => trivial) items
    (fun item member middle holdsMiddle => by
      obtain ⟨next, stepped, holdsNext⟩ := each item member middle holdsMiddle
      exact ⟨next, stepped, holdsNext, trivial, trivial⟩)
    before holding
  exact ⟨after, folded, holdsAfter⟩

theorem foldlM_agrees (holds : β → Prop) {step : β → α → Except Ending β} {plain : β → α → β} :
    ∀ items : List α, (∀ item, item ∈ items → ∀ before, holds before →
        step before item = .ok (plain before item) ∧ holds (plain before item)) →
      ∀ before, holds before →
        items.foldlM step before = .ok (items.foldl plain before) ∧ holds (items.foldl plain before)
  | [], _each, _before, holding => ⟨rfl, holding⟩
  | item :: rest, each, before, holding => by
      obtain ⟨stepped, holdsNext⟩ := each item List.mem_cons_self before holding
      rw [List.foldlM_cons, stepped]
      exact foldlM_agrees holds rest (fun other member => each other (List.mem_cons_of_mem item member)) _ holdsNext

theorem foldl_keeps (holds : β → Prop) (step : β → α → β) :
    ∀ (items : List α) (state : β),
      (∀ item, item ∈ items → ∀ before, holds before → holds (step before item)) →
      holds state → holds (items.foldl step state)
  | [], _state, _keeps, initially => initially
  | item :: rest, state, keeps, initially =>
      foldl_keeps holds step rest (step state item)
        (fun other member => keeps other (List.mem_cons_of_mem item member))
        (keeps item List.mem_cons_self state initially)

theorem foldlM_error {step : β → α → Except Ending β} {ending : Ending} :
    ∀ {items : List α} {state : β}, items.foldlM step state = .error ending →
      ∃ item before, item ∈ items ∧ step before item = .error ending
  | [], _state, folded => by
      rw [List.foldlM_nil] at folded
      cases folded
  | item :: rest, state, folded => by
      rw [List.foldlM_cons] at folded
      rcases bind_error.mp folded with here | ⟨middle, _, later⟩
      · exact ⟨item, state, List.mem_cons_self, here⟩
      · obtain ⟨other, before, member, broken⟩ := foldlM_error later
        exact ⟨other, before, List.mem_cons_of_mem item member, broken⟩

theorem mapM_error {operation : α → Except Ending β} {ending : Ending} :
    ∀ {items : List α}, items.mapM operation = .error ending →
      ∃ item, item ∈ items ∧ operation item = .error ending
  | [], done => by
      rw [List.mapM_nil] at done
      cases done
  | first :: rest, done => by
      rw [List.mapM_cons] at done
      rcases bind_error.mp done with here | ⟨answer, _, later⟩
      · exact ⟨first, List.mem_cons_self, here⟩
      · rcases bind_error.mp later with among | ⟨others, _, last⟩
        · obtain ⟨item, member, broken⟩ := mapM_error among
          exact ⟨item, List.mem_cons_of_mem first member, broken⟩
        · cases last

theorem mapM_ok (operation : α → Except Ending β) :
    ∀ (items : List α) (answers : List β), items.mapM operation = .ok answers →
      answers.length = items.length ∧ ∀ (place : Nat) (item : α), items[place]? = some item →
        ∃ answer, answers[place]? = some answer ∧ operation item = .ok answer
  | [], answers, done => by
      rw [List.mapM_nil] at done
      cases pure_ok.mp done
      exact ⟨rfl, fun place item impossible => by simp at impossible⟩
  | first :: rest, answers, done => by
      rw [List.mapM_cons] at done
      obtain ⟨answer, here, remaining⟩ := bind_ok.mp done
      obtain ⟨others, later, same⟩ := bind_ok.mp remaining
      cases pure_ok.mp same
      obtain ⟨length, each⟩ := mapM_ok operation rest others later
      refine ⟨by simp [length], fun place item found => ?_⟩
      cases place with
      | zero =>
          cases found
          exact ⟨answer, rfl, here⟩
      | succ place => exact each place item found

theorem exists_mapM (operation : α → Except Ending β) : ∀ items : List α,
    (∀ item, item ∈ items → ∃ answer, operation item = .ok answer) → ∃ answers, items.mapM operation = .ok answers
  | [], _each => ⟨[], rfl⟩
  | first :: rest, each => by
      obtain ⟨answer, here⟩ := each first List.mem_cons_self
      obtain ⟨answers, later⟩ := exists_mapM operation rest
        (fun item member => each item (List.mem_cons_of_mem first member))
      refine ⟨answer :: answers, ?_⟩
      rw [List.mapM_cons, here, ok_bind, later]
      rfl

end

theorem lift_ok {Reason α : Type} {first : Except Fault α} {answer : α} :
    (liftM first : Except (Failure Reason) α) = .ok answer ↔ first = .ok answer := by
  cases first <;> simp [liftM, monadLift, MonadLift.monadLift]

theorem requireAt_ok {α : Type} {items : Array α} {index : Nat} {item : α} :
    requireAt items index = .ok item ↔ items[index]? = some item := by
  unfold requireAt
  cases items[index]? <;> simp

theorem checkedOffset_ok {value answer : Nat} :
    checkedOffset value = .ok answer ↔ value < offsetLimit ∧ value = answer := by
  unfold checkedOffset
  by_cases small : value < offsetLimit <;> simp [small]

theorem refuse_ne_ok {Reason α : Type} {reason : Reason} {answer : α} :
    (refuse reason : Except (Failure Reason) α) ≠ .ok answer := by
  intro same
  cases same

/-! ### Outcomes that are not refused -/

section

variable {Reason α β : Type} {answers : α → Prop} {breaks : Fault → Prop} {answersNext : β → Prop}
  {breaksNext : Fault → Prop}

/-- An operation that is not refused gives an answer or breaks off with a fault, and something is said of
each of them. -/
def Concludes (answers : α → Prop) (breaks : Fault → Prop) : Except (Failure Reason) α → Prop
  | .ok answer => answers answer
  | .error (.refused _) => True
  | .error (.fault fault) => breaks fault

theorem Concludes.answer {outcome : Except (Failure Reason) α} (concludes : Concludes answers breaks outcome)
    {answer : α} (answered : outcome = .ok answer) : answers answer := by
  subst answered
  exact concludes

theorem Concludes.fault {outcome : Except (Failure Reason) α} (concludes : Concludes answers breaks outcome)
    {fault : Fault} (broken : outcome = .error (.fault fault)) : breaks fault := by
  subst broken
  exact concludes

theorem Concludes.bind {first : Except (Failure Reason) α} {next : α → Except (Failure Reason) β}
    (concludes : Concludes answers breaks first) (breaking : ∀ fault, breaks fault → breaksNext fault)
    (goes : ∀ answer, answers answer → Concludes answersNext breaksNext (next answer)) :
    Concludes answersNext breaksNext (first >>= next) := by
  cases first with
  | ok answer => exact goes answer concludes
  | error failure =>
      cases failure with
      | refused reason => exact trivial
      | fault broken => exact breaking broken concludes

end

/-! ### Outcomes that are computed -/

theorem eq_ok_of_toOption {Ending α : Type} {outcome : Except Ending α} {value : α}
    (answers : outcome.toOption = some value) : outcome = .ok value := by
  cases outcome with
  | ok answer => exact congrArg Except.ok (Option.some.inj answers)
  | error ending => cases answers

theorem eq_ok_get {Ending α : Type} {outcome : Except Ending α}
    (succeeds : outcome.toOption.isSome = true) : outcome = .ok (outcome.toOption.get succeeds) := by
  cases outcome with
  | ok value => rfl
  | error ending => cases succeeds

end IncrementalParsing

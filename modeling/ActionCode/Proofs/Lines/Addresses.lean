/-
**The line that is written for each action.**

* `Address`: where an action is: the places of the definitions around it, and its own.
  `codeAlong?`: the code that such places lead to.
* `addresses`: where the actions are, in preorder. `Shows`: the line that is written for an address.
* `levelAfter`: the level behind some actions. `baseAlong`: the level at which the code begins that a
  path leads to.
* **`shows_iff`**: the line of an address has the action that is there, and the level at which the
  actions before leave its sequence.
-/

import ActionCode.Proofs.Lines.Listing

namespace ActionCode

/-! ### Addresses -/

/-- Where an action is: the places of the definitions around it, the outermost first and each in the
code of the one before, and its place in the code of the last. -/
structure Address where
  path : List Nat
  place : Nat

/-- An address in the code of the definition at a place. -/
def Address.under (place : Nat) (address : Address) : Address :=
  { address with path := place :: address.path }

/-- The code of the definition at a place. -/
def bodyAt? (actions : List Action) (place : Nat) : Option (List Action) :=
  actions[place]?.bind Action.body?

/-- The code that a path of places leads to. -/
def codeAlong? : List Nat → List Action → Option (List Action)
  | [], actions => some actions
  | place :: path, actions => (bodyAt? actions place).bind (codeAlong? path)

mutual

/-- The addresses of the actions in the code of an action. -/
def Action.addressesInside : Action → List Address
  | .define _ body => addressesFrom 0 body
  | _ => []

/-- The addresses of the actions from a place on and of all code in them, a definition before its
code. -/
def addressesFrom (place : Nat) : List Action → List Address
  | [] => []
  | action :: rest =>
    ⟨[], place⟩ :: (action.addressesInside.map (Address.under place) ++
      addressesFrom (place + 1) rest)

end

/-- The addresses of the actions of a sequence and of all code in it. -/
def addresses (actions : List Action) : List Address := addressesFrom 0 actions

/-- A line of the listing is the one that is written for an address. -/
def Shows (actions : List Action) (address : Address) (line : Line) : Prop :=
  (address, line) ∈ (addresses actions).zip (linesOf actions)

theorem bodyAt?_append (front : List Action) (action : Action) (rest : List Action) :
    bodyAt? (front ++ action :: rest) front.length = action.body? := by
  simp [bodyAt?]

/-- The code of a definition is that of one among the actions. -/
theorem exists_of_bodyAt? {actions body : List Action} {place : Nat}
    (isBody : bodyAt? actions place = some body) :
    ∃ front signature rest, actions = front ++ .define signature body :: rest ∧
      place = front.length := by
  obtain ⟨action, isAction, isBody⟩ := Option.bind_eq_some_iff.mp isBody
  obtain ⟨inside, rfl⟩ := List.getElem?_eq_some_iff.mp isAction
  have split : actions = actions.take place ++ actions[place] :: actions.drop (place + 1) := by simp
  generalize actions[place] = action at isBody split
  cases action with
  | define signature code =>
    obtain rfl := Option.some.inj isBody
    exact ⟨_, signature, _, split, by simp [Nat.le_of_lt inside]⟩
  | plain instruction => cases isBody
  | marker marker => cases isBody

/-- The code of every path has what holds at every level. -/
theorem EveryLevel.along {holds : List Action → Prop} {actions code : List Action}
    (every : EveryLevel holds actions) {path : List Nat}
    (along : codeAlong? path actions = some code) : EveryLevel holds code := by
  induction path generalizing actions with
  | nil => exact Option.some.inj along ▸ every
  | cons place path ih =>
    obtain ⟨body, isBody, inner⟩ := Option.bind_eq_some_iff.mp along
    obtain ⟨front, signature, rest, rfl, _⟩ := exists_of_bodyAt? isBody
    exact ih (allCodeHolds_iff.mp every.2 signature body (by simp)) inner

/-! ### Addresses with their lines -/

mutual

theorem Action.length_addressesInside (level : Nat) : ∀ action : Action,
    action.addressesInside.length = (action.linesInside level).length
  | .define _ body => length_addressesFrom 0 (level + 1) (level + 1) body
  | .plain _ | .marker _ => rfl

/-- There are as many addresses as lines. -/
theorem length_addressesFrom (place base level : Nat) : ∀ actions : List Action,
    (addressesFrom place actions).length = (linesAt base level actions).length
  | [] => by rw [linesAt_nil, addressesFrom]; rfl
  | action :: rest => by
    rw [linesAt_cons, addressesFrom]
    simp only [List.length_cons, List.length_append, List.length_map]
    rw [Action.length_addressesInside _ action, length_addressesFrom _ base _ rest]

end

/-- The addresses from a place on, each with its line. -/
def entriesFrom (place base level : Nat) (actions : List Action) : List (Address × Line) :=
  (addressesFrom place actions).zip (linesAt base level actions)

/-- The addresses in the code of an action, each with its line. -/
def Action.entriesInside (level : Nat) (action : Action) : List (Address × Line) :=
  action.addressesInside.zip (action.linesInside level)

theorem entriesFrom_nil (place base level : Nat) : entriesFrom place base level [] = [] := by
  rw [entriesFrom, addressesFrom, List.zip_nil_left]

/-- The entry of an action is followed by those of its code, and then by those of the rest. -/
theorem entriesFrom_cons (place base level : Nat) (action : Action) (rest : List Action) :
    entriesFrom place base level (action :: rest) =
      (⟨[], place⟩, ⟨(lineLevels base level action).1, action.shown⟩) ::
        ((action.entriesInside (lineLevels base level action).1).map
            (Prod.map (Address.under place) id) ++
          entriesFrom (place + 1) base (lineLevels base level action).2 rest) := by
  rw [entriesFrom, addressesFrom, linesAt_cons, List.zip_cons_cons, List.zip_append, entriesFrom,
    Action.entriesInside, List.zip_map_left]
  rw [List.length_map, Action.length_addressesInside]

/-! ### Levels along a sequence and along a path -/

/-- The level after some actions of a sequence at level `base`. -/
def levelAfter (base level : Nat) (front : List Action) : Nat :=
  front.foldl (fun level action => (lineLevels base level action).2) level

/-- The level at which the code begins that a path leads to, in a sequence at level `base`. -/
def baseAlong (base : Nat) : List Nat → List Action → Nat
  | [], _ => base
  | place :: path, actions =>
    baseAlong (levelAfter base base (actions.take place) + 1) path
      ((bodyAt? actions place).getD [])

theorem baseAlong_append {path : List Nat} {actions code : List Action}
    (along : codeAlong? path actions = some code) (base : Nat) (more : List Nat) :
    baseAlong base (path ++ more) actions = baseAlong (baseAlong base path actions) more code := by
  induction path generalizing actions base with
  | nil =>
    obtain rfl := Option.some.inj along
    rfl
  | cons place path ih =>
    obtain ⟨body, isBody, along⟩ := Option.bind_eq_some_iff.mp along
    rw [List.cons_append, baseAlong, baseAlong, isBody]
    exact ih along _

/-- The line of an action in a sequence at level `base`, behind the others. -/
def lineBehind (base : Nat) (front : List Action) (action : Action) : Line :=
  ⟨(lineLevels base (levelAfter base base front) action).1, action.shown⟩

/-! ### The line of an address -/

section Entries

variable {base level place target : Nat} {path : List Nat} {line : Line} {actions : List Action}

/-- The entries of the actions themselves. -/
theorem mem_entriesFrom_nil_iff :
    (⟨[], target⟩, line) ∈ entriesFrom place base level actions ↔
      ∃ front action rest, actions = front ++ action :: rest ∧ target = place + front.length ∧
        line = ⟨(lineLevels base (levelAfter base level front) action).1, action.shown⟩ := by
  induction actions generalizing place level with
  | nil => simp [entriesFrom_nil]
  | cons action rest ih =>
    have apart : ∀ entry ∈ (action.entriesInside (lineLevels base level action).1).map
        (Prod.map (Address.under place) id), entry.1.path ≠ [] := by
      intro entry inside
      obtain ⟨inner, _, rfl⟩ := List.mem_map.mp inside
      exact List.cons_ne_nil _ _
    rw [entriesFrom_cons, List.mem_cons, List.mem_append, ih]
    constructor
    · rintro (same | inside | ⟨front, other, back, rfl, rfl, rfl⟩)
      · simp only [Prod.mk.injEq, Address.mk.injEq, true_and] at same
        exact ⟨[], action, rest, rfl, same.1, same.2⟩
      · exact absurd rfl (apart _ inside)
      · exact ⟨action :: front, other, back, rfl, by simp; omega, rfl⟩
    · rintro ⟨_ | ⟨first, front⟩, other, back, split, rfl, rfl⟩
      · obtain ⟨rfl, rfl⟩ := List.cons.inj split
        exact .inl rfl
      · obtain ⟨rfl, rfl⟩ := List.cons.inj split
        exact .inr (.inr ⟨front, other, back, rfl, by simp; omega, rfl⟩)

/-- The entries of the code of a definition. -/
theorem mem_entriesFrom_cons_iff {step : Nat} :
    (⟨step :: path, target⟩, line) ∈ entriesFrom place base level actions ↔
      ∃ front signature body rest, actions = front ++ .define signature body :: rest ∧
        step = place + front.length ∧ (⟨path, target⟩, line) ∈
          entriesFrom 0 (levelAfter base level front + 1) (levelAfter base level front + 1) body := by
  induction actions generalizing place level with
  | nil => simp [entriesFrom_nil]
  | cons action rest ih =>
    rw [entriesFrom_cons, List.mem_cons, List.mem_append, ih]
    constructor
    · rintro (same | inside | ⟨front, signature, body, back, rfl, rfl, inside⟩)
      · cases same
      · obtain ⟨⟨⟨_, _⟩, _⟩, own, same⟩ := List.mem_map.mp inside
        simp only [Prod.map, Address.under, id, Prod.mk.injEq, Address.mk.injEq,
          List.cons.injEq] at same
        obtain ⟨⟨⟨rfl, rfl⟩, rfl⟩, rfl⟩ := same
        cases action with
        | define signature body => exact ⟨[], signature, body, rest, rfl, rfl, own⟩
        | plain instruction => cases own
        | marker marker => cases own
      · exact ⟨action :: front, signature, body, back, rfl, by simp; omega, inside⟩
    · rintro ⟨_ | ⟨first, front⟩, signature, body, back, split, rfl, inside⟩
      · obtain ⟨rfl, rfl⟩ := List.cons.inj split
        exact .inr (.inl (List.mem_map.mpr ⟨_, inside, rfl⟩))
      · obtain ⟨rfl, rfl⟩ := List.cons.inj split
        exact .inr (.inr ⟨front, signature, body, back, rfl, by simp; omega, inside⟩)

/-- An address has the line of the action that is there. -/
theorem mem_entriesFrom_iff :
    (⟨path, target⟩, line) ∈ entriesFrom 0 base base actions ↔
      ∃ front action rest, codeAlong? path actions = some (front ++ action :: rest) ∧
        target = front.length ∧ line = lineBehind (baseAlong base path actions) front action := by
  induction path generalizing base actions with
  | nil =>
    rw [mem_entriesFrom_nil_iff]
    simp only [codeAlong?, baseAlong, lineBehind, Option.some.injEq, Nat.zero_add]
  | cons step path ih =>
    rw [mem_entriesFrom_cons_iff]
    constructor
    · rintro ⟨before, signature, body, after, rfl, rfl, inside⟩
      rw [Nat.zero_add, codeAlong?, baseAlong, bodyAt?_append, List.take_left]
      exact ih.mp inside
    · rintro ⟨front, action, rest, along, rfl, isLine⟩
      obtain ⟨body, isBody, inner⟩ := Option.bind_eq_some_iff.mp along
      obtain ⟨before, signature, after, rfl, rfl⟩ := exists_of_bodyAt? isBody
      rw [baseAlong, isBody, List.take_left] at isLine
      exact ⟨before, signature, body, after, rfl, (Nat.zero_add _).symm,
        ih.mpr ⟨front, action, rest, inner, rfl, isLine⟩⟩

end Entries

section Shown

variable {actions front rest : List Action} {action : Action} {path : List Nat} {line : Line}

/-- **The line of an address** has the action that is there, and the level at which the actions before
leave its sequence. -/
theorem shows_iff {place : Nat} :
    Shows actions ⟨path, place⟩ line ↔
      ∃ front action rest, codeAlong? path actions = some (front ++ action :: rest) ∧
        place = front.length ∧ line = lineBehind (baseAlong 0 path actions) front action :=
  mem_entriesFrom_iff

/-- **An action has one line.** -/
theorem shows_iff_of_along (along : codeAlong? path actions = some (front ++ action :: rest)) :
    Shows actions ⟨path, front.length⟩ line ↔
      line = lineBehind (baseAlong 0 path actions) front action := by
  rw [shows_iff]
  constructor
  · rintro ⟨before, other, after, isAlong, length, rfl⟩
    have same := Option.some.inj (along.symm.trans isAlong)
    obtain ⟨rfl, isRest⟩ := List.append_inj same length
    rw [(List.cons.inj isRest).1]
  · rintro rfl
    exact ⟨front, action, rest, along, rfl, rfl⟩

end Shown

end ActionCode

/-
**Names for the labels of two parts.**

* `usedBoth`: the bytes that the branches of two parts go to, if the second part lies behind the
  first one.
* `frontNames`, `backNames`: what the labels of the parts are called in the whole. **Both are
  one-to-one**, and `labelOf_front`, `labelOf_back`: the label of a byte has its name.
* **`frontNames_eq_backNames_iff`**: only the label of the byte between the parts has a name in both.
-/

import ActionCode.Proofs.Concatenation.Listing

namespace ActionCode

variable {inside inside' distance : Nat} {uses targets : List Nat}

/-- The bytes that two parts use: those of the first part, and those of the second one further on. -/
def usedBoth (distance : Nat) (uses targets : List Nat) : List Nat :=
  usesFrom uses (targets.map (distance + ·))

theorem mem_usedBoth {place : Nat} :
    place ∈ usedBoth distance uses targets ↔
      place ∈ uses ∨ ∃ other ∈ usesFrom [] targets, distance + other = place := by
  rw [usedBoth, mem_usesFrom, List.mem_map]
  refine or_congr_right (exists_congr fun other => and_congr_left' ?_)
  rw [mem_usesFrom]
  exact (or_iff_right List.not_mem_nil).symm

theorem labelOf_used {place : Nat} (used : place ∈ uses) (nextLabel : Nat) :
    labelOf nextLabel uses place = some ⟨nextLabel + uses.idxOf place⟩ := if_pos used

/-- The name of a label of the first part. Labels of its code come first in the whole, and those of
the sequence behind the labels of the code of both parts. -/
def frontNames (inside inside' : Nat) (label : Label) : Label :=
  if label.id < inside then label else label.raised inside'

/-- The name of a label of the second part. Labels of its code come behind those of the code of the
first part, and the label of a byte is that of the byte further on. -/
def backNames (inside inside' distance : Nat) (uses targets : List Nat) (label : Label) : Label :=
  if label.id < inside' then label.raised inside
  else (((usesFrom [] targets)[label.id - inside']?).bind fun place =>
    labelOf (inside + inside') (usedBoth distance uses targets) (distance + place)).getD
      (label.raised (inside + (usedBoth distance uses targets).length))

theorem Label.id_raised (count : Nat) (label : Label) : (label.raised count).id = count + label.id :=
  rfl

theorem frontNames_injective (inside inside' : Nat) :
    Function.Injective (frontNames inside inside') := by
  rintro ⟨first⟩ ⟨second⟩ same
  have ids := congrArg Label.id same
  unfold frontNames Label.raised at ids
  refine congrArg Label.mk ?_
  dsimp only at ids
  split at ids <;> split at ids <;> dsimp only at ids <;> omega

/-- Labels of the second part are those of code, those of bytes, and all others. -/
theorem backNames_cases (label : Label) :
    (label.id < inside' ∧ (backNames inside inside' distance uses targets label).id =
      inside + label.id) ∨
    (inside' ≤ label.id ∧ ∃ place, (usesFrom [] targets)[label.id - inside']? = some place ∧
      labelOf (inside + inside') (usedBoth distance uses targets) (distance + place) =
        some (backNames inside inside' distance uses targets label)) ∨
    inside' ≤ label.id ∧ (backNames inside inside' distance uses targets label).id =
      inside + (usedBoth distance uses targets).length + label.id := by
  unfold backNames
  by_cases code : label.id < inside'
  · rw [if_pos code]
    exact .inl ⟨code, rfl⟩
  · rw [if_neg code]
    cases used : (usesFrom [] targets)[label.id - inside']? with
    | none => exact .inr (.inr ⟨Nat.le_of_not_lt code, rfl⟩)
    | some place =>
      refine .inr (.inl ⟨Nat.le_of_not_lt code, place, rfl, ?_⟩)
      have both : distance + place ∈ usedBoth distance uses targets :=
        mem_usedBoth.mpr (.inr ⟨place, List.mem_of_getElem? used, rfl⟩)
      rw [Option.bind_some, labelOf_used both, Option.getD_some]

theorem backNames_injective (inside inside' distance : Nat) (uses targets : List Nat) :
    Function.Injective (backNames inside inside' distance uses targets) := by
  intro first second same
  have ids := congrArg Label.id same
  have equal : first.id = second.id → first = second := congrArg Label.mk
  refine equal ?_
  have cases := @backNames_cases inside inside' distance uses targets
  rcases cases first with ⟨code, name⟩ | ⟨late, place, used, name⟩ | ⟨late, name⟩ <;>
    rcases cases second with ⟨code', name'⟩ | ⟨late', place', used', name'⟩ | ⟨late', name'⟩
  · omega
  · have bounds := labelOf_bounds name'
    omega
  · omega
  · have bounds := labelOf_bounds name
    omega
  · rw [same] at name
    have places := Nat.add_left_cancel (labelOf_injective name name')
    subst places
    have nodup := nodup_usesFrom List.nodup_nil targets
    obtain ⟨small, _⟩ := List.getElem?_eq_some_iff.mp used
    have indices := (List.getElem?_inj small nodup).mp (used.trans used'.symm)
    omega
  · have bounds := labelOf_bounds name
    omega
  · omega
  · have bounds := labelOf_bounds name'
    omega
  · omega

/-! ### Labels of bytes -/

/-- **The label of a byte of the first part.** -/
theorem labelOf_front {place : Nat} (before : place ∈ uses ∨ place < distance)
    (inside inside' : Nat) (targets : List Nat) :
    labelOf (inside + inside') (usedBoth distance uses targets) place =
      (labelOf inside uses place).map (frontNames inside inside') := by
  by_cases used : place ∈ uses
  · rw [usedBoth, labelOf_usesFrom used, labelOf, labelOf, if_pos used, if_pos used, Option.map_some,
      frontNames, if_neg (Nat.not_lt.mpr (Nat.le_add_right _ _)), Label.raised,
      Nat.add_left_comm, Nat.add_assoc, Nat.add_left_comm]
  · have unused : place ∉ usedBoth distance uses targets := by
      rw [mem_usedBoth]
      rintro (here | ⟨other, _, rfl⟩)
      · exact used here
      · exact absurd (before.resolve_left used) (by omega)
    rw [labelOf, labelOf, if_neg used, if_neg unused, Option.map_none]

/-- **The label of a byte of the second part** is that of the byte further on. -/
theorem labelOf_back {place : Nat} (within : ∀ other ∈ uses, other ≤ distance)
    (behind : place ∈ usesFrom [] targets ∨ 0 < place) (inside inside' : Nat) :
    labelOf (inside + inside') (usedBoth distance uses targets) (distance + place) =
      (labelOf inside' (usesFrom [] targets) place).map
        (backNames inside inside' distance uses targets) := by
  by_cases used : place ∈ usesFrom [] targets
  · have both : distance + place ∈ usedBoth distance uses targets :=
      mem_usedBoth.mpr (.inr ⟨place, used, rfl⟩)
    have found : (usesFrom [] targets)[inside' + (usesFrom [] targets).idxOf place - inside']? =
        some place := by
      rw [Nat.add_sub_cancel_left]
      exact List.getElem?_idxOf used
    rw [labelOf_used used, Option.map_some, backNames,
      if_neg (Nat.not_lt.mpr (Nat.le_add_right _ _)), found, Option.bind_some, labelOf_used both,
      Option.getD_some]
  · have unused : distance + place ∉ usedBoth distance uses targets := by
      rw [mem_usedBoth]
      rintro (here | ⟨other, isUsed, same⟩)
      · have le := within _ here
        exact absurd (behind.resolve_left used) (by omega)
      · exact used (Nat.add_left_cancel same ▸ isUsed)
    rw [labelOf, labelOf, if_neg used, if_neg unused, Option.map_none]

/-- The byte between two parts that neither uses has no label. -/
theorem labelOf_between (none : labelOf inside uses distance = none)
    (none' : labelOf inside' (usesFrom [] targets) 0 = .none) (nextLabel : Nat) :
    labelOf nextLabel (usedBoth distance uses targets) distance = .none := by
  refine if_neg fun used => ?_
  rcases mem_usedBoth.mp used with here | ⟨other, here, same⟩
  · rw [labelOf_used here] at none
    cases none
  · obtain rfl : other = 0 := Nat.add_left_cancel same
    rw [labelOf_used here] at none'
    cases none'

/-- A label of code or of a byte. -/
def NamedBy (inside : Nat) (uses : List Nat) (label : Label) : Prop :=
  label.id < inside ∨ ∃ place, labelOf inside uses place = some label

/-- **Only the label of the byte between two parts has a name in both.** -/
theorem frontNames_eq_backNames_iff (within : ∀ other ∈ uses, other ≤ distance)
    {label label' : Label} (named : NamedBy inside uses label)
    (named' : NamedBy inside' (usesFrom [] targets) label') :
    frontNames inside inside' label = backNames inside inside' distance uses targets label' ↔
      labelOf inside uses distance = some label ∧
        labelOf inside' (usesFrom [] targets) 0 = some label' := by
  have used : ∀ {first : Nat} {used : List Nat} {place : Nat} {label : Label},
      labelOf first used place = some label → place ∈ used :=
    fun isLabel => labelOf_eq_some_iff.mp ⟨_, isLabel⟩
  have front : ∀ {place label}, labelOf inside uses place = some label →
      labelOf (inside + inside') (usedBoth distance uses targets) place =
        some (frontNames inside inside' label) := by
    intro place label isLabel
    have before : place ∈ uses ∨ place < distance := .inl (used isLabel)
    rw [labelOf_front before, isLabel, Option.map_some]
  have back : ∀ {place label}, labelOf inside' (usesFrom [] targets) place = some label →
      labelOf (inside + inside') (usedBoth distance uses targets) (distance + place) =
        some (backNames inside inside' distance uses targets label) := by
    intro place label isLabel
    rw [labelOf_back within (.inl (used isLabel)), isLabel, Option.map_some]
  constructor
  · intro same
    rcases named with code | ⟨place, isLabel⟩
    · have first : (frontNames inside inside' label).id < inside := by
        rw [frontNames, if_pos code]
        exact code
      rw [same] at first
      rcases named' with code' | ⟨place', isLabel'⟩
      · rw [backNames, if_pos code', Label.id_raised] at first
        omega
      · have bounds := labelOf_bounds (back isLabel')
        omega
    · rcases named' with code' | ⟨place', isLabel'⟩
      · have bounds := labelOf_bounds (front isLabel)
        rw [same, backNames, if_pos code', Label.id_raised] at bounds
        omega
      · have places := labelOf_injective (front isLabel) (same ▸ back isLabel')
        have le := within place (used isLabel)
        obtain ⟨rfl, rfl⟩ : place = distance ∧ place' = 0 := by omega
        exact ⟨isLabel, isLabel'⟩
  · rintro ⟨isLabel, isLabel'⟩
    exact Option.some.inj ((front isLabel).symm.trans (back isLabel'))

end ActionCode

/-
**A listing has a line for each action, unless the name of a parameter breaks it.**

* `preorder`: the actions of a sequence and of all code in it, a definition before its code.
* `linesAt`: the lines of a sequence at a level. **`map_text_linesAt`**: their texts are those of the
  actions in preorder, at whatever level.
* `ListedAs`: texts that make up a listing with a newline after each: spaces and an action.
* **`listing_lines_exact`**: a listing has a newline for each action and those of the names of
  parameters, so that each action is on a line of its own exactly if no such name has a newline.
-/

import ActionCode.Proofs.Lines.Breaks
import Mathlib.Data.List.Forall2

namespace ActionCode

/-! ### Preorder -/

mutual

/-- The actions of all code in an action, in preorder. -/
def Action.inside : Action → List Action
  | .define _ body => preorder body
  | _ => []

/-- The actions of a sequence and of all code in it, a definition before its code. -/
def preorder : List Action → List Action
  | [] => []
  | action :: rest => action :: (action.inside ++ preorder rest)

end

/-! ### Lines at a level

The lines of the code of a definition are written between its own and those behind it, into one array;
each part can be read apart from what was written before. -/

/-- The lines of a sequence at level `base` when the next action is at `level`. -/
def linesAt (base level : Nat) (actions : List Action) : List Line :=
  (linesFrom base level #[] actions).toList

/-- The lines of the code of an action at a level. -/
def Action.linesInside (level : Nat) : Action → List Line
  | .define _ body => linesAt (level + 1) (level + 1) body
  | _ => []

mutual

/-- The lines of code come after those that are done. -/
theorem Action.toList_codeLines (level : Nat) (done : Array Line) : ∀ action : Action,
    (action.codeLines level done).toList = done.toList ++ action.linesInside level
  | .define _ body => toList_linesFrom (level + 1) (level + 1) done body
  | .plain _ | .marker _ => (List.append_nil _).symm

/-- The lines of a sequence come after those that are done. -/
theorem toList_linesFrom (base level : Nat) (done : Array Line) : ∀ actions : List Action,
    (linesFrom base level done actions).toList = done.toList ++ linesAt base level actions
  | [] => by simp [linesAt, linesFrom]
  | action :: rest => by
    rw [linesAt, linesFrom, linesFrom]
    simp [toList_linesFrom _ _ _ rest, Action.toList_codeLines _ _ action]

end

theorem linesAt_nil (base level : Nat) : linesAt base level [] = [] := by
  simp [linesAt, linesFrom]

/-- An action is followed by its code, and then by the rest of its sequence. -/
theorem linesAt_cons (base level : Nat) (action : Action) (rest : List Action) :
    linesAt base level (action :: rest) =
      ⟨(lineLevels base level action).1, action.shown⟩ ::
        (action.linesInside (lineLevels base level action).1 ++
          linesAt base (lineLevels base level action).2 rest) := by
  rw [linesAt, linesFrom]
  simp [toList_linesFrom, Action.toList_codeLines]

mutual

theorem Action.map_text_linesInside (level : Nat) : ∀ action : Action,
    (action.linesInside level).map Line.text = action.inside.map Action.shown
  | .define _ body => map_text_linesAt (level + 1) (level + 1) body
  | .plain _ | .marker _ => rfl

/-- **The lines are the actions in preorder**, at whatever level. -/
theorem map_text_linesAt (base level : Nat) : ∀ actions : List Action,
    (linesAt base level actions).map Line.text = (preorder actions).map Action.shown
  | [] => by rw [linesAt_nil, preorder]; rfl
  | action :: rest => by
    rw [linesAt_cons, preorder]
    simp [Action.map_text_linesInside _ action, map_text_linesAt _ _ rest]

end

/-! ### The text of a listing -/

/-- The names of all parameters in a sequence and in all code in it. -/
def paramNamesIn (actions : List Action) : List String :=
  (preorder actions).flatMap Action.paramNames

/-- A line without its end. -/
def Line.unended (line : Line) : String :=
  String.ofList (List.replicate (line.level * indentWidth) ' ') ++ line.text

/-- Texts that make up the listing of a sequence with a newline after each. Each is some spaces and
an action, and the actions are all of them in preorder. -/
structure ListedAs (actions : List Action) (lines : List String) : Prop where
  whole : listing actions = String.join (lines.map (· ++ "\n"))
  each : List.Forall₂
    (fun line action => ∃ width, line = String.ofList (List.replicate width ' ') ++ action.shown)
    lines (preorder actions)

/-- Whether each action of a sequence and of all code in it is on a line of its own. -/
def OneToALine (actions : List Action) : Prop :=
  ∃ lines, ListedAs actions lines ∧ ∀ line ∈ lines, '\n' ∉ line.toList

/-- The lines of a sequence make up its listing. -/
theorem listedAs_linesOf (actions : List Action) :
    ListedAs actions ((linesOf actions).map Line.unended) where
  whole := by
    rw [listing, String.join, List.map_map, List.foldl_map]
    rfl
  each := by
    have texts : List.Forall₂ (· = ·) ((linesOf actions).map Line.text)
        ((preorder actions).map Action.shown) := by
      rw [List.forall₂_eq_eq_eq]
      exact map_text_linesAt 0 0 actions
    rw [List.forall₂_map_left_iff, List.forall₂_map_right_iff] at texts
    refine List.forall₂_map_left_iff.mpr (texts.imp fun line action isText => ?_)
    exact ⟨line.level * indentWidth, by rw [← isText]; rfl⟩

theorem sum_newlines_ended (lines : List String) :
    ((lines.map (· ++ "\n")).map newlines).sum = lines.length + (lines.map newlines).sum := by
  induction lines with
  | nil => rfl
  | cons line rest ih =>
    have ending : newlines "\n" = 1 := rfl
    rw [List.map_cons, List.map_cons, List.sum_cons, ih, newlines_append, ending, List.map_cons,
      List.sum_cons, List.length_cons]
    omega

namespace ListedAs

variable {actions : List Action} {lines : List String}

/-- The lines have the newlines of the names of parameters. -/
theorem sum_newlines (listed : ListedAs actions lines) :
    (lines.map newlines).sum = ((paramNamesIn actions).map newlines).sum := by
  have lineByLine : lines.map newlines =
      (preorder actions).map fun action => (action.paramNames.map newlines).sum := by
    rw [← List.forall₂_eq_eq_eq, List.forall₂_map_left_iff, List.forall₂_map_right_iff]
    refine listed.each.imp fun line action isLine => ?_
    obtain ⟨width, rfl⟩ := isLine
    have spaces : newlines (String.ofList (List.replicate width ' ')) = 0 := by simp
    rw [newlines_append, spaces, Nat.zero_add, action.newlines_shown]
  rw [lineByLine, paramNamesIn, List.map_flatMap, List.flatMap, List.sum_flatten, List.map_map]
  rfl

/-- No line is broken exactly if no parameter has a newline in its name. -/
theorem unbroken_iff (listed : ListedAs actions lines) :
    (∀ line ∈ lines, '\n' ∉ line.toList) ↔
      ∀ name ∈ paramNamesIn actions, '\n' ∉ name.toList := by
  rw [← sum_newlines_eq_zero_iff, ← sum_newlines_eq_zero_iff, listed.sum_newlines]

/-- A listing has the newlines of its lines and one after each. -/
theorem newlines_listing (listed : ListedAs actions lines) :
    newlines (listing actions) = lines.length + (lines.map newlines).sum := by
  have nothing : newlines "" = 0 := rfl
  rw [listed.whole, String.join, newlines_foldl (fun line => line), nothing, Nat.zero_add]
  exact sum_newlines_ended lines

end ListedAs

/-- Each action is on a line of its own exactly if no parameter has a newline in its name. -/
theorem oneToALine_iff (actions : List Action) :
    OneToALine actions ↔ ∀ name ∈ paramNamesIn actions, '\n' ∉ name.toList := by
  constructor
  · rintro ⟨lines, listed, unbroken⟩
    exact listed.unbroken_iff.mp unbroken
  · intro unbroken
    exact ⟨_, listedAs_linesOf actions, (listedAs_linesOf actions).unbroken_iff.mpr unbroken⟩

/-- **A listing has a line for each action, in preorder, and no newlines but the ends of these lines
and those in the names of parameters.** Each action is on a line of its own exactly if there are none
of the latter. -/
theorem listing_lines_exact (actions : List Action) :
    (∃ lines, ListedAs actions lines) ∧
      newlines (listing actions) =
        (preorder actions).length + ((paramNamesIn actions).map newlines).sum ∧
      (OneToALine actions ↔ ∀ name ∈ paramNamesIn actions, '\n' ∉ name.toList) := by
  have listed := listedAs_linesOf actions
  refine ⟨⟨_, listed⟩, ?_, oneToALine_iff actions⟩
  rw [listed.newlines_listing, listed.each.length_eq, listed.sum_newlines]

/-- A parameter that is named after two lines breaks the line of its definition. -/
theorem listing_breaks_at_paramName :
    ¬ OneToALine [.define (.simple "f" ["a\nb"]) []] := by
  rw [oneToALine_iff]
  intro unbroken
  exact unbroken "a\nb" (by decide) (by decide)

end ActionCode

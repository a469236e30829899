/-
**Which spans enclose which actions.**

* `enclosures`: for every real action, the spans of blocks that are open around it, each known by the
  place of its block among the real actions.
* `Block.openingAt`: the span of a block that a point lies in, by the sizes of the block.
* `Guides`, `Follows`: the open spans are those that the sizes say, as long as closings are due.
* **`Closes.enclosures_eq`**: if closings match the sizes of their blocks, the spans around an action
  are those that its point lies in.
-/

import ActionCode.Proofs.Blocks.Sentences
import ActionCode.Proofs.Merging.Records

namespace ActionCode

/-! ### Spans around actions -/

/-- A span that is open, and the place of its block among the real actions. -/
abbrev Scope := Nat × Opening

/-- The open spans behind a marker, innermost first. A marker that does not continue the innermost
one changes nothing. -/
def closeScope (marker : Marker) : List Scope → List Scope
  | [] => []
  | (index, opening) :: outer =>
    match opening.advance? marker with
    | some (some next) => (index, next) :: outer
    | some none => outer
    | none => (index, opening) :: outer

/-- The open spans behind a real action. -/
def openScope (index : Nat) (action : Action) (scopes : List Scope) : List Scope :=
  match action.block?.map Opening.ofBlock with
  | some opening => (index, opening) :: scopes
  | none => scopes

/-- The spans around each real action, if the first has the given place and some spans are open. -/
def enclosuresFrom (index : Nat) (scopes : List Scope) : List Action → List (List Scope)
  | [] => []
  | .marker found :: rest => enclosuresFrom index (closeScope found scopes) rest
  | action :: rest => scopes :: enclosuresFrom (index + 1) (openScope index action scopes) rest

/-- The spans around each real action of a sequence. -/
def enclosures (actions : List Action) : List (List Scope) := enclosuresFrom 0 [] actions

theorem enclosuresFrom_real {action : Action} (real : action.isMarker = false) (index : Nat)
    (scopes : List Scope) (rest : List Action) :
    enclosuresFrom index scopes (action :: rest) =
      scopes :: enclosuresFrom (index + 1) (openScope index action scopes) rest := by
  cases action with
  | marker found => cases real
  | _ => rfl

theorem closeScope_label (label : Label) (scopes : List Scope) :
    closeScope (.label label) scopes = scopes := by
  rcases scopes with _ | ⟨⟨index, opening⟩, outer⟩
  · rfl
  · rcases opening with _ | _ | stage
    · rfl
    · rfl
    · cases stage <;> rfl

/-- Single pushes open nothing, so that the same spans are around all of them. -/
theorem enclosuresFrom_pushes (index : Nat) (scopes : List Scope) (values : List PushValue)
    (rest : List Action) :
    enclosuresFrom index scopes (values.map (fun value => .plain (.push value)) ++ rest) =
      List.replicate values.length scopes ++ enclosuresFrom (index + values.length) scopes rest := by
  induction values generalizing index with
  | nil => rfl
  | cons value values ih =>
    rw [List.map_cons, List.cons_append, enclosuresFrom_real rfl, openScope]
    refine (congrArg (scopes :: ·) (ih (index + 1))).trans ?_
    rw [List.length_cons, List.replicate_succ, List.cons_append, Nat.add_right_comm, Nat.add_assoc]

/-- The spans around the single pushes of a real action, and around what follows. -/
theorem enclosuresFrom_splitPush {action : Action} (real : action.isMarker = false) (index : Nat)
    (scopes : List Scope) (rest : List Action) :
    enclosuresFrom index scopes (action.splitPush ++ rest) =
      List.replicate action.splitPush.length scopes ++
        enclosuresFrom (index + action.splitPush.length) (openScope index action scopes) rest := by
  by_cases none : action.pushed = []
  · rw [Action.splitPush_of_unpushed none, List.singleton_append, enclosuresFrom_real real]
    rfl
  · have unopened : openScope index action scopes = scopes := by
      rw [openScope, (Action.flat_of_pushed none).block]
      rfl
    rw [Action.splitPush_of_pushed none, enclosuresFrom_pushes, unopened, List.length_map]

/-! ### Spans by sizes -/

/-- The span of an exception block that a byte lies in, if the block ends at another byte. -/
def TryBlock.openingAt (handlers : TryBlock) (start place : Nat) : Option Opening :=
  if place < start + handlers.trySize.toNat then some (.exception .attempt)
  else if place < start + handlers.trySize.toNat + handlers.catchSize.toNat then
    some (.exception .handler)
  else if place < start + handlers.trySize.toNat + handlers.catchSize.toNat +
      handlers.finallySize.toNat then
    some (.exception .cleanup)
  else none

/-- The span of a block that a point lies in, if the block ends at another point. -/
def Block.openingAt (block : Block) (start point : Point) : Option Opening :=
  match block with
  | .scope size => if point.bytes < start.bytes + size.toNat then some .scope else none
  | .wait _ skipCount =>
    if point.records < start.records + skipCount.toNat then some .wait else none
  | .exception handlers => handlers.openingAt start.bytes point.bytes

section

variable {handlers : TryBlock} {start place tryEnd catchEnd : Nat}

theorem TryBlock.openingAt_attempt (attempt : tryEnd = start + handlers.trySize.toNat)
    (inside : place < tryEnd) : handlers.openingAt start place = some (.exception .attempt) :=
  if_pos (attempt ▸ inside)

theorem TryBlock.openingAt_handler (attempt : tryEnd = start + handlers.trySize.toNat)
    (handler : catchEnd = tryEnd + handlers.catchSize.toNat) (late : tryEnd ≤ place)
    (inside : place < catchEnd) :
    handlers.openingAt start place = some (.exception .handler) := by
  rw [openingAt, if_neg (by omega), if_pos (by omega)]

theorem TryBlock.openingAt_cleanup (attempt : tryEnd = start + handlers.trySize.toNat)
    (handler : catchEnd = tryEnd + handlers.catchSize.toNat) (late : catchEnd ≤ place)
    (inside : place < catchEnd + handlers.finallySize.toNat) :
    handlers.openingAt start place = some (.exception .cleanup) := by
  rw [openingAt, if_neg (by omega), if_neg (by omega), if_pos (by omega)]

theorem TryBlock.openingAt_none (attempt : tryEnd = start + handlers.trySize.toNat)
    (handler : catchEnd = tryEnd + handlers.catchSize.toNat)
    (outside : catchEnd + handlers.finallySize.toNat ≤ place) :
    handlers.openingAt start place = none := by
  rw [openingAt, if_neg (by omega), if_neg (by omega), if_neg (by omega)]

end

/-- From a point on, a block has a span open until its next closing is due, and so on; after its last
closing it has none. -/
inductive Guides (openingAt : Point → Option Opening) : Opening → List Pending → Point → Prop
  | last {opening : Opening} {pending : Pending} {start : Point}
      (inside : ∀ point, start.Le point →
        point.along pending.marker < pending.point.along pending.marker →
          openingAt point = some opening)
      (ends : opening.advance? pending.marker = some none)
      (outside : ∀ point, pending.point.Le point → openingAt point = none) :
      Guides openingAt opening [pending] start
  | next {opening following : Opening} {pending : Pending} {own : List Pending} {start : Point}
      (inside : ∀ point, start.Le point →
        point.along pending.marker < pending.point.along pending.marker →
          openingAt point = some opening)
      (continues : opening.advance? pending.marker = some (some following))
      (later : Guides openingAt following own pending.point) :
      Guides openingAt opening (pending :: own) start

theorem Guides.later {openingAt : Point → Option Opening} {opening : Opening}
    {own : List Pending} {start stop : Point} (guides : Guides openingAt opening own start)
    (le : start.Le stop) : Guides openingAt opening own stop := by
  cases guides with
  | last inside ends outside =>
    exact .last (fun point late => inside point (le.trans late)) ends outside
  | next inside continues later =>
    exact .next (fun point late => inside point (le.trans late)) continues later

/-- **The closings of a block guide through its spans.** -/
theorem Spanned.guides {block : Block} {start : Point} {own : List Pending}
    (spanned : Spanned block start own) :
    Guides (block.openingAt start) (.ofBlock block) own start := by
  cases spanned with
  | scope bytes =>
    refine .last (fun point late inside => if_pos ?_) rfl fun point late => if_neg ?_
    · exact bytes ▸ inside
    · exact Nat.not_lt.mpr (bytes ▸ late.bytes)
  | wait records =>
    refine .last (fun point late inside => if_pos ?_) rfl fun point late => if_neg ?_
    · exact records ▸ inside
    · exact Nat.not_lt.mpr (records ▸ late.records)
  | attempt attempt handler cleanup =>
    refine .last (fun point _ inside => TryBlock.openingAt_attempt attempt inside) rfl
      fun point late => TryBlock.openingAt_none attempt rfl ?_
    rw [handler, cleanup]
    exact late.bytes
  | handled attempt handler cleanup =>
    refine .next (fun point _ inside => TryBlock.openingAt_attempt attempt inside) rfl
      (.last (fun point late inside =>
          TryBlock.openingAt_handler attempt handler late.bytes inside) rfl
        fun point late => TryBlock.openingAt_none attempt handler ?_)
    rw [cleanup]
    exact late.bytes
  | @cleaned block start tryEnd finallyEnd attempt handler cleanup =>
    have handler' : tryEnd.bytes = tryEnd.bytes + block.catchSize.toNat := by
      rw [handler]
      rfl
    exact .next (fun point _ inside => TryBlock.openingAt_attempt attempt inside) rfl
      (.last (fun point late inside =>
          TryBlock.openingAt_cleanup attempt handler' late.bytes (cleanup ▸ inside)) rfl
        fun point late => TryBlock.openingAt_none attempt handler' (cleanup ▸ late.bytes))
  | full attempt handler cleanup =>
    exact .next (fun point _ inside => TryBlock.openingAt_attempt attempt inside) rfl
      (.next (fun point late inside =>
          TryBlock.openingAt_handler attempt handler late.bytes inside) rfl
        (.last (fun point late inside =>
            TryBlock.openingAt_cleanup attempt handler late.bytes (cleanup ▸ inside)) rfl
          fun point late => TryBlock.openingAt_none attempt handler (cleanup ▸ late.bytes)))

/-! ### Open spans and closings that are due -/

/-- Blocks that have been opened: the place of each, and the span of it that a point lies in. -/
abbrev Opener := Nat × (Point → Option Opening)

/-- The spans that a point lies in, of blocks that have been opened. -/
def enclosing (openers : List Opener) (point : Point) : List Scope :=
  openers.filterMap fun opener => (opener.2 point).map fun opening => (opener.1, opening)

/-- From a point on, open spans, closings that are due and blocks that have been opened go together:
each block is closed, or its next closings guide through the spans that it still has. -/
inductive Follows (point : Point) : List Scope → List Pending → List Opener → Prop
  | nil : Follows point [] [] []
  | closed {scopes : List Scope} {due : List Pending} {openers : List Opener} {opener : Opener}
      (gone : ∀ later, point.Le later → opener.2 later = none)
      (others : Follows point scopes due openers) : Follows point scopes due (opener :: openers)
  | opened {scopes : List Scope} {own due : List Pending} {openers : List Opener}
      {opener : Opener} {opening : Opening} (guides : Guides opener.2 opening own point)
      (others : Follows point scopes due openers) :
      Follows point ((opener.1, opening) :: scopes) (own ++ due) (opener :: openers)

theorem Follows.later {point stop : Point} {scopes : List Scope} {due : List Pending}
    {openers : List Opener} (follows : Follows point scopes due openers) (le : point.Le stop) :
    Follows stop scopes due openers := by
  induction follows with
  | nil => exact .nil
  | closed gone _ ih => exact .closed (fun later late => gone later (le.trans late)) ih
  | opened guides _ ih => exact .opened (guides.later le) ih

/-- **As long as all closings are due later, the open spans are those that the point lies in.** -/
theorem Follows.enclosing_eq {point : Point} {scopes : List Scope} {due : List Pending}
    {openers : List Opener} (follows : Follows point scopes due openers)
    (later : ∀ pending ∈ due, point.along pending.marker < pending.point.along pending.marker) :
    enclosing openers point = scopes := by
  induction follows with
  | nil => rfl
  | closed gone _ ih =>
    rw [enclosing, List.filterMap_cons_none (by rw [gone point (.refl _)]; rfl)]
    exact ih later
  | @opened scopes own due openers opener opening guides _ ih =>
    have here : opener.2 point = some opening := by
      cases guides with
      | last inside _ _ => exact inside point (.refl _) (later _ List.mem_cons_self)
      | next inside _ _ => exact inside point (.refl _) (later _ List.mem_cons_self)
    rw [enclosing, List.filterMap_cons_some (by rw [here]; rfl)]
    exact congrArg _ (ih fun pending inside => later pending (List.mem_append_right _ inside))

/-- **A closing at its point changes the innermost open span**, or closes its block. -/
theorem Follows.close {point : Point} {scopes : List Scope} {due : List Pending}
    {openers : List Opener} {marker : Marker}
    (follows : Follows point scopes (⟨marker, point⟩ :: due) openers) :
    Follows point (closeScope marker scopes) due openers := by
  generalize isDue : (Pending.mk marker point :: due) = whole at follows
  induction follows with
  | nil => cases isDue
  | closed gone _ ih => exact .closed gone (ih isDue)
  | @opened scopes own due' openers opener opening guides others ih =>
    cases guides with
    | last inside ends outside =>
      obtain ⟨rfl, rfl⟩ := List.cons.inj isDue
      rw [closeScope, ends]
      exact .closed outside others
    | next inside continues later =>
      obtain ⟨rfl, rfl⟩ := List.cons.inj isDue
      rw [closeScope, continues]
      exact .opened later others

/-! ### Sequences -/

/-- The blocks that have been opened behind a piece. -/
def openersAfter (index : Nat) (point : Point) (piece : Piece) (openers : List Opener) :
    List Opener :=
  match piece.action.block?.map Block.openingAt with
  | some openingAt => (index, openingAt (point.after piece)) :: openers
  | none => openers

/-- The spans that each real action lies in, from a point on. -/
def surroundings (index : Nat) (point : Point) (openers : List Opener) :
    List Piece → List (List Scope)
  | [] => []
  | piece :: rest => List.replicate piece.action.splitPush.length (enclosing openers point) ++
    surroundings (index + piece.action.splitPush.length) (point.after piece)
      (openersAfter index point piece openers) rest

/-- What is due when a real piece ends is due after it begins. -/
theorem Due.after_real {point : Point} {piece : Piece} (isReal : piece.Real) {due : List Pending}
    (isDue : Due (point.after piece) due) :
    ∀ pending ∈ due, point.along pending.marker < pending.point.along pending.marker := by
  intro pending inside
  have late := (isDue.le_of_mem inside).along pending.marker
  rw [Point.along_after] at late
  have := isReal.room_pos pending.marker
  omega

/-- The spans around a real piece, and around what follows. -/
theorem Follows.enclosuresFrom_cons {point : Point} {piece : Piece} (isReal : piece.Real)
    {scopes : List Scope} {due : List Pending} {openers : List Opener}
    (follows : Follows point scopes due openers)
    (later : ∀ pending ∈ due, point.along pending.marker < pending.point.along pending.marker)
    {index : Nat} {rest : List Piece}
    (same : enclosuresFrom (index + piece.action.splitPush.length)
        (openScope index piece.action scopes) (splitPushes (rest.map Piece.action)) =
      surroundings (index + piece.action.splitPush.length) (point.after piece)
        (openersAfter index point piece openers) (reals rest)) :
    enclosuresFrom index scopes (splitPushes ((piece :: rest).map Piece.action)) =
      surroundings index point openers (reals (piece :: rest)) := by
  rw [List.map_cons, splitPushes_cons, enclosuresFrom_splitPush isReal.real,
    reals_cons isReal.real, surroundings, follows.enclosing_eq later, same]

/-- **The spans around an action are those that its point lies in**, if closings match the sizes of
their blocks. -/
theorem Closes.enclosuresFrom_eq {point : Point} {pieces : List Piece} {sized : List Action}
    {due : List Pending} (closes : Closes point pieces sized due)
    (isSized : sized = pieces.map Piece.action) (solid : AllSolid pieces) {index : Nat}
    {scopes : List Scope} {openers : List Opener} (follows : Follows point scopes due openers) :
    enclosuresFrom index scopes (splitPushes (pieces.map Piece.action)) =
      surroundings index point openers (reals pieces) := by
  induction closes generalizing index scopes openers with
  | nil point => rfl
  | @flat point piece rest sized due flat later ih =>
    have isRest := (List.cons.inj isSized).2
    obtain ⟨marker, rfl⟩ | isReal := solid.head
    · cases marker with
      | label label =>
        refine Eq.trans ?_ (ih isRest solid.tail follows)
        exact congrArg (enclosuresFrom index · _) (closeScope_label label scopes)
      | _ => cases flat.closing
    · refine follows.enclosuresFrom_cons isReal (later.sorted.after_real isReal) ?_
      rw [openScope, openersAfter, flat.block]
      exact ih isRest solid.tail (follows.later (point.le_after piece))
  | @opening point piece old new rest sized own due opens same spanned later ih =>
    obtain ⟨isNew, isRest⟩ := List.cons.inj isSized
    have isReal : piece.Real := solid.head.resolve_left fun ⟨marker, isMarker⟩ => by
      rw [isMarker] at opens
      cases opens
    refine follows.enclosuresFrom_cons isReal (fun pending inside =>
      later.sorted.after_real isReal pending (List.mem_append_right _ inside)) ?_
    rw [openScope, openersAfter, ← isNew]
    have opened : Follows (point.after piece) _ _ ((index, new.openingAt (point.after piece)) :: _) :=
      .opened spanned.guides (follows.later (point.le_after piece))
    exact ih isRest solid.tail opened
  | @closing point marker rest sized due closes later ih =>
    exact ih (List.cons.inj isSized).2 solid.tail follows.close

/-- The spans around the actions of a sequence are those that their points lie in. -/
theorem Closes.enclosures_eq {pieces : List Piece}
    (closes : Closes ⟨0, 0⟩ pieces (pieces.map Piece.action) []) (solid : AllSolid pieces) :
    enclosures (splitPushes (pieces.map Piece.action)) =
      surroundings 0 ⟨0, 0⟩ [] (reals pieces) :=
  closes.enclosuresFrom_eq rfl solid .nil

/-- What the spans around the actions of pieces depend on. -/
def Piece.ground (piece : Piece) : Nat × Nat × Nat × Option (Point → Point → Option Opening) :=
  (piece.bytes, piece.records, piece.action.splitPush.length,
    piece.action.block?.map Block.openingAt)

/-- **Only rooms and the sizes of blocks decide which spans points lie in.** -/
theorem surroundings_congr {pieces others : List Piece}
    (same : pieces.map Piece.ground = others.map Piece.ground) (index : Nat) (point : Point)
    (openers : List Opener) :
    surroundings index point openers pieces = surroundings index point openers others := by
  induction pieces generalizing others index point openers with
  | nil => rw [List.map_eq_nil_iff.mp same.symm]
  | cons piece rest ih =>
    rcases others with _ | ⟨other, others⟩
    · cases same
    · obtain ⟨first, later⟩ := List.cons.inj same
      obtain ⟨bytes, first⟩ := Prod.mk.inj first
      obtain ⟨records, first⟩ := Prod.mk.inj first
      obtain ⟨weight, block⟩ := Prod.mk.inj first
      have after : point.after piece = point.after other := by
        rw [Point.after, Point.after, bytes, records]
      have opened : openersAfter index point piece openers =
          openersAfter index point other openers := by
        rw [openersAfter, openersAfter, after, block]
      rw [surroundings, surroundings, weight, opened, after, ih later]

/-! ### Views that do not count -/

/-- Changes that keep markers, and what opens which span, keep the spans around actions. -/
theorem enclosuresFrom_map {change : Action → Action}
    (marker : ∀ found, change (.marker found) = .marker found)
    (real : ∀ action, (change action).isMarker = action.isMarker)
    (block : ∀ action, (change action).block?.map Opening.ofBlock =
      action.block?.map Opening.ofBlock) (actions : List Action) (index : Nat)
    (scopes : List Scope) :
    enclosuresFrom index scopes (actions.map change) = enclosuresFrom index scopes actions := by
  induction actions generalizing index scopes with
  | nil => rfl
  | cons action rest ih =>
    have onReal : action.isMarker = false → enclosuresFrom index scopes
        ((action :: rest).map change) = enclosuresFrom index scopes (action :: rest) := by
      intro isReal
      have opened : openScope index (change action) scopes = openScope index action scopes := by
        rw [openScope, openScope, block]
      rw [List.map_cons, enclosuresFrom_real ((real action).trans isReal),
        enclosuresFrom_real isReal, opened, ih]
    cases action with
    | marker found =>
      rw [List.map_cons, marker]
      exact ih _ _
    | plain instruction => exact onReal rfl
    | define signature body => exact onReal rfl

end ActionCode

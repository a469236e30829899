/-
**The records of a buffer as a tree.**

* `Chunk`: a record with its bytes; a definition holds the records of its code.
* `chunksFrom`: the records that a buffer is read as.
* `Chunk.Formed`, `AllFormed`: records whose bytes are what their instructions ask for.
* `piecesFrom`, `actionsOf`: the pieces and the actions that records become, with labels numbered
  through all code.
-/

import ActionCode.Proofs.Chunks.Decoding
import ActionCode.Proofs.Labels.Finishing
import ActionCode.Proofs.Bytes.Sequences
import ActionCode.Disassembly

namespace ActionCode

/-! ### Records -/

/-- A record and all its bytes. A definition comes with the records of its code. -/
inductive Chunk where
  | instruction (instruction : Instruction) (bytes : List UInt8)
  | definition (signature : Signature) (bytes : List UInt8) (code : List Chunk)

/-- The bytes of a record, with those of its code. -/
def Chunk.bytes : Chunk → List UInt8
  | .instruction _ bytes => bytes
  | .definition _ bytes _ => bytes

/-- The bytes of records, one after another. -/
def bytesOf (chunks : List Chunk) : List UInt8 := chunks.flatMap Chunk.bytes

theorem bytesOf_cons (chunk : Chunk) (rest : List Chunk) :
    bytesOf (chunk :: rest) = chunk.bytes ++ bytesOf rest := List.flatMap_cons

/-- The bytes between two cursors. -/
def Cursor.upTo (cursor next : Cursor) : List UInt8 :=
  cursor.rest.take (cursor.rest.length - next.rest.length)

theorem Cursor.Moved.upTo {used : List UInt8} {cursor next : Cursor}
    (moved : Cursor.Moved used cursor next) : cursor.upTo next = used := by
  rw [Cursor.upTo, moved.length_rest, moved.rest, Nat.add_sub_cancel, List.take_left]

/-- The records that what is left of a block is read as, up to a fault, if the block lies `depth`
definitions deep. -/
def chunksFrom (maxDepth depth : Nat) (cursor : Cursor) : List Chunk :=
  if cursor.isEmpty then []
  else
    match _found : nextStep maxDepth depth cursor with
    | .error _ => []
    | .ok (.instruction instruction next) =>
      .instruction instruction (cursor.upTo next) :: chunksFrom maxDepth depth next
    | .ok (.definition signature code next _) =>
      .definition signature (cursor.upTo next) (chunksFrom maxDepth (depth + 1) code) ::
        chunksFrom maxDepth depth next
termination_by cursor.rest.length
decreasing_by
  · exact nextStep_shorter _found
  · exact (nextStep_shorter _found).1
  · exact (nextStep_shorter _found).2

/-- The records of a buffer. -/
def chunks (maxDepth : Nat) (bytes : List UInt8) : List Chunk :=
  chunksFrom maxDepth 0 (Cursor.start 0 bytes)

mutual

/-- The bytes of a record are as its instructions ask for, and its definitions nest no deeper than
there is room. -/
def Chunk.Formed (spells : Instruction → List UInt8 → Prop) (room : Nat) : Chunk → Prop
  | .instruction instruction bytes => spells instruction bytes
  | .definition signature bytes code => 0 < room ∧
    (∃ front, signature.image (bytesOf code).length = some front ∧
      bytes = front ++ bytesOf code) ∧
    AllFormed spells (room - 1) code

/-- The bytes of all records are as their instructions ask for. -/
def AllFormed (spells : Instruction → List UInt8 → Prop) (room : Nat) : List Chunk → Prop
  | [] => True
  | chunk :: rest => chunk.Formed spells room ∧ AllFormed spells room rest

end

/-- An instruction is read back from bytes that are its own. -/
structure Instruction.WrittenAs (instruction : Instruction) (bytes : List UInt8) : Prop where
  readable : instruction.Readable
  canon : instruction.canon = instruction
  image : instruction.image = some bytes

/-! ### Pieces of records -/

mutual

/-- The piece that a record becomes, and the number of the next label. -/
def Chunk.piece (nextLabel : Nat) : Chunk → Piece × Nat
  | .instruction instruction bytes => (⟨.plain instruction, bytes.length, 1⟩, nextLabel)
  | .definition signature bytes code =>
    let inner := piecesFrom nextLabel code
    (⟨.define signature (finished inner.2 inner.1), bytes.length, 1⟩,
      inner.2 + (usesOf inner.1).length)

/-- The pieces that records become, and the number of the next label. -/
def piecesFrom (nextLabel : Nat) : List Chunk → List Piece × Nat
  | [] => ([], nextLabel)
  | chunk :: rest =>
    let first := chunk.piece nextLabel
    let later := piecesFrom first.2 rest
    (first.1 :: later.1, later.2)

end

/-- The actions that records become. -/
def actionsOf (nextLabel : Nat) (chunks : List Chunk) : List Action :=
  finished (piecesFrom nextLabel chunks).2 (piecesFrom nextLabel chunks).1

mutual

/-- The code of a record can be finished. -/
def Chunk.Sound (nextLabel : Nat) : Chunk → Prop
  | .instruction _ _ => True
  | .definition _ _ code => AllSound nextLabel code ∧ Finishable (piecesFrom nextLabel code).1

/-- The code of all records can be finished. -/
def AllSound (nextLabel : Nat) : List Chunk → Prop
  | [] => True
  | chunk :: rest => chunk.Sound nextLabel ∧ AllSound (chunk.piece nextLabel).2 rest

end

theorem Instruction.SpelledBy.length_pos {instruction : Instruction} {bytes : List UInt8}
    (spelled : instruction.SpelledBy bytes) : 0 < bytes.length := by
  obtain ⟨image, written, same, _⟩ := spelled.image
  rw [← same, Instruction.length_of_image written]
  exact instruction.width_pos

theorem Instruction.WrittenAs.length_pos {instruction : Instruction} {bytes : List UInt8}
    (written : instruction.WrittenAs bytes) : 0 < bytes.length := by
  rw [Instruction.length_of_image written.image]
  exact instruction.width_pos

/-- What is written is spelled so. -/
theorem Instruction.WrittenAs.spelledBy {instruction : Instruction} {bytes : List UInt8}
    (written : instruction.WrittenAs bytes) : instruction.SpelledBy bytes where
  readable := written.readable
  canon := written.canon
  image := ⟨bytes, written.image, rfl, fun _ => rfl⟩

mutual

theorem Chunk.Formed.imp {first second : Instruction → List UInt8 → Prop}
    (imp : ∀ instruction bytes, first instruction bytes → second instruction bytes) :
    ∀ {chunk : Chunk} {room : Nat}, chunk.Formed first room → chunk.Formed second room
  | .instruction instruction bytes, room, formed => by
    rw [Chunk.Formed] at formed ⊢
    exact imp instruction bytes formed
  | .definition signature bytes code, room, formed => by
    rw [Chunk.Formed] at formed ⊢
    exact ⟨formed.1, formed.2.1, AllFormed.imp imp formed.2.2⟩

theorem AllFormed.imp {first second : Instruction → List UInt8 → Prop}
    (imp : ∀ instruction bytes, first instruction bytes → second instruction bytes) :
    ∀ {chunks : List Chunk} {room : Nat}, AllFormed first room chunks → AllFormed second room chunks
  | [], room, _ => by
    rw [AllFormed]
    trivial
  | chunk :: rest, room, formed => by
    rw [AllFormed] at formed ⊢
    exact ⟨formed.1.imp imp, AllFormed.imp imp formed.2⟩

end

/-- The pieces of records are real. -/
theorem real_piecesFrom {spells : Instruction → List UInt8 → Prop}
    (positive : ∀ instruction bytes, spells instruction bytes → 0 < bytes.length) {room : Nat}
    {chunks : List Chunk} (formed : AllFormed spells room chunks) (nextLabel : Nat) :
    AllReal (piecesFrom nextLabel chunks).1 := by
  induction chunks generalizing nextLabel with
  | nil =>
    intro piece inside
    rw [piecesFrom] at inside
    cases inside
  | cons chunk rest ih =>
    rw [AllFormed] at formed
    rw [piecesFrom]
    intro piece inside
    rcases List.mem_cons.mp inside with rfl | inside
    · cases chunk with
      | instruction instruction bytes =>
        rw [Chunk.Formed] at formed
        rw [Chunk.piece]
        exact ⟨rfl, positive _ _ formed.1, rfl⟩
      | definition signature bytes code =>
        rw [Chunk.Formed] at formed
        obtain ⟨front, written, same⟩ := formed.1.2.1
        rw [Chunk.piece]
        refine ⟨rfl, ?_, rfl⟩
        show 0 < bytes.length
        rw [same, List.length_append, Signature.length_of_image written, headWidth]
        omega
    · exact ih formed.2 _ piece inside

/-! ### Reading records -/

/-- What has been read: rows for the records, one after another. -/
structure Read (spells : Instruction → List UInt8 → Prop) (room nextLabel after : Nat)
    (cursor : Cursor) (rows : List Located) (chunks : List Chunk) : Prop where
  formed : AllFormed spells room chunks
  bytes : bytesOf chunks = cursor.rest
  laid : Laid cursor.offset rows (cursor.offset + cursor.remaining)
  pieces : rows.map Located.piece = (piecesFrom nextLabel chunks).1
  next : after = (piecesFrom nextLabel chunks).2
  sound : AllSound nextLabel chunks

theorem chunksFrom_empty {cursor : Cursor} (empty : cursor.isEmpty = true) (maxDepth depth : Nat) :
    chunksFrom maxDepth depth cursor = [] := by
  rw [chunksFrom, if_pos empty]

theorem chunksFrom_nonempty {maxDepth depth : Nat} {cursor : Cursor}
    (nonempty : ¬ cursor.isEmpty = true) :
    chunksFrom maxDepth depth cursor =
      match nextStep maxDepth depth cursor with
      | .error _ => []
      | .ok (.instruction instruction next) =>
        .instruction instruction (cursor.upTo next) :: chunksFrom maxDepth depth next
      | .ok (.definition signature code next _) =>
        .definition signature (cursor.upTo next) (chunksFrom maxDepth (depth + 1) code) ::
          chunksFrom maxDepth depth next := by
  rw [chunksFrom, if_neg nonempty]
  split <;> rename_i found <;> rw [found]

theorem chunksFrom_instruction {maxDepth depth : Nat} {cursor next : Cursor}
    {instruction : Instruction} (nonempty : ¬ cursor.isEmpty = true)
    (found : nextStep maxDepth depth cursor = .ok (.instruction instruction next)) :
    chunksFrom maxDepth depth cursor =
      .instruction instruction (cursor.upTo next) :: chunksFrom maxDepth depth next := by
  rw [chunksFrom_nonempty nonempty, found]

theorem chunksFrom_definition {maxDepth depth : Nat} {cursor code next : Cursor}
    {signature : Signature} {leftover : Option ReadFault} (nonempty : ¬ cursor.isEmpty = true)
    (found : nextStep maxDepth depth cursor = .ok (.definition signature code next leftover)) :
    chunksFrom maxDepth depth cursor =
      .definition signature (cursor.upTo next) (chunksFrom maxDepth (depth + 1) code) ::
        chunksFrom maxDepth depth next := by
  rw [chunksFrom_nonempty nonempty, found]

/-- A row between two cursors follows the first and leads to the second. -/
theorem Laid.between {used : List UInt8} {cursor next : Cursor} {rest : List Located}
    (moved : Cursor.Moved used cursor next)
    (laid : Laid next.offset rest (next.offset + next.remaining)) (action : Action) :
    Laid cursor.offset (.between action cursor next :: rest) (cursor.offset + cursor.remaining) := by
  have whole : cursor.offset + cursor.remaining = next.offset + next.remaining := by
    show cursor.offset + cursor.rest.length = next.offset + next.rest.length
    rw [moved.offset, moved.length_rest, Nat.add_assoc]
  have stop : cursor.offset + (Located.between action cursor next).span = next.offset := by
    show cursor.offset + (next.offset - cursor.offset) = next.offset
    have later := moved.offset
    omega
  rw [whole]
  refine ⟨rfl, ?_⟩
  rw [stop]
  exact laid

theorem piece_between {used : List UInt8} {cursor next : Cursor}
    (moved : Cursor.Moved used cursor next) {action : Action} (real : action.isMarker = false) :
    (Located.between action cursor next).piece = ⟨action, used.length, 1⟩ := by
  have stop : next.offset - cursor.offset = used.length := by
    rw [moved.offset, Nat.add_sub_cancel_left]
  unfold Located.piece Located.recordCount Located.between
  dsimp only
  rw [stop, real]
  rfl

/-- An instruction before what has been read. -/
theorem Read.instruction {spells : Instruction → List UInt8 → Prop} {room nextLabel after : Nat}
    {cursor next : Cursor} {rows : List Located} {chunks : List Chunk} {used : List UInt8}
    {instruction : Instruction} (read : Read spells room nextLabel after next rows chunks)
    (moved : Cursor.Moved used cursor next) (spelled : spells instruction used) :
    Read spells room nextLabel after cursor (.between (.plain instruction) cursor next :: rows)
      (.instruction instruction used :: chunks) where
  formed := by
    rw [AllFormed, Chunk.Formed]
    exact ⟨spelled, read.formed⟩
  bytes := by
    rw [bytesOf_cons, read.bytes]
    exact moved.rest.symm
  laid := read.laid.between moved _
  pieces := by
    rw [piecesFrom, Chunk.piece, List.map_cons, read.pieces, piece_between moved rfl]
  next := by
    rw [piecesFrom, Chunk.piece]
    exact read.next
  sound := by
    rw [AllSound, Chunk.Sound, Chunk.piece]
    exact ⟨trivial, read.sound⟩

/-- A definition before what has been read. -/
theorem Read.definition {spells : Instruction → List UInt8 → Prop} {room nextLabel middle after : Nat}
    {cursor code next : Cursor} {inner rows : List Located} {codeChunks chunks : List Chunk}
    {front : List UInt8} {signature : Signature}
    (inside : Read spells (room - 1) nextLabel middle code inner codeChunks)
    (finishable : Finishable (inner.map Located.piece))
    (read : Read spells room (middle + (usesOf (inner.map Located.piece)).length) after next rows
      chunks) (deep : 0 < room)
    (written : signature.image code.rest.length = some front)
    (moved : Cursor.Moved (front ++ code.rest) cursor next) :
    Read spells room nextLabel after cursor
      (.between (.define signature (finished middle (inner.map Located.piece))) cursor next :: rows)
      (.definition signature (front ++ code.rest) codeChunks :: chunks) where
  formed := by
    rw [AllFormed, Chunk.Formed, inside.bytes]
    exact ⟨⟨deep, ⟨front, written, rfl⟩, inside.formed⟩, read.formed⟩
  bytes := by
    rw [bytesOf_cons, read.bytes]
    exact moved.rest.symm
  laid := read.laid.between moved _
  pieces := by
    rw [piecesFrom, Chunk.piece, List.map_cons, read.pieces, piece_between moved rfl,
      inside.pieces, inside.next]
  next := by
    have first : (Chunk.piece nextLabel (.definition signature (front ++ code.rest) codeChunks)).2 =
        middle + (usesOf (inner.map Located.piece)).length := by
      rw [Chunk.piece, inside.pieces, inside.next]
    rw [piecesFrom, first]
    exact read.next
  sound := by
    have first : (Chunk.piece nextLabel (.definition signature (front ++ code.rest) codeChunks)).2 =
        middle + (usesOf (inner.map Located.piece)).length := by
      rw [Chunk.piece, inside.pieces, inside.next]
    rw [AllSound, Chunk.Sound, first, ← inside.pieces]
    exact ⟨⟨inside.sound, finishable⟩, read.sound⟩

/-- Nothing is left to read. -/
theorem Read.empty {spells : Instruction → List UInt8 → Prop} {cursor : Cursor}
    (empty : cursor.isEmpty = true) (room nextLabel : Nat) :
    Read spells room nextLabel nextLabel cursor [] [] := by
  have ended : cursor.rest = [] := List.isEmpty_iff.mp empty
  refine ⟨by rw [AllFormed]; trivial, ended.symm, ?_, by rw [piecesFrom]; rfl, by rw [piecesFrom],
    by rw [AllSound]; trivial⟩
  show cursor.offset + cursor.rest.length = cursor.offset
  rw [ended]
  rfl

/-- The rows of a whole block fill its region. -/
theorem Read.region {spells : Instruction → List UInt8 → Prop} {room nextLabel after : Nat}
    {cursor : Cursor} {rows : List Located} {chunks : List Chunk}
    (read : Read spells room nextLabel after cursor rows chunks)
    (positive : ∀ instruction bytes, spells instruction bytes → 0 < bytes.length)
    (front : cursor.position = 0) :
    Laid cursor.region.base rows cursor.region.stop ∧ AllReal (rows.map Located.piece) := by
  have base : cursor.offset = cursor.base := by
    rw [Cursor.offset, front, Nat.add_zero]
  refine ⟨?_, ?_⟩
  · have laid := read.laid
    rw [base] at laid
    show Laid cursor.base rows (cursor.offset + cursor.remaining)
    rw [base]
    exact laid
  · rw [read.pieces]
    exact real_piecesFrom positive read.formed nextLabel

/-- **A block that is decoded is the bytes of its records**, and its rows are their pieces. -/
theorem Decodes.read {maxDepth depth : Nat} {cursor : Cursor} {progress after : Progress}
    {rows : List Located} (decodes : Decodes maxDepth depth cursor progress rows after) :
    Read Instruction.SpelledBy (maxDepth - depth) progress.nextLabel after.nextLabel cursor rows
      (chunksFrom maxDepth depth cursor) := by
  induction decodes with
  | ended empty progress =>
    rw [chunksFrom_empty empty]
    exact .empty empty _ _
  | instruction nonempty found _ read =>
    obtain ⟨used, moved, spelled⟩ := instruction_of_nextStep found
    rw [chunksFrom_instruction nonempty found, moved.upTo]
    exact read.instruction moved spelled
  | definition nonempty found _ finishes _ inside read =>
    obtain ⟨shallow, front, written, moved, isCode⟩ := declaration_of_nextStep found
    obtain ⟨laid, real⟩ := inside.region (fun _ _ => Instruction.SpelledBy.length_pos)
      (by rw [isCode]; rfl)
    obtain ⟨finishable, rfl, next⟩ := finishSequence_ok laid real finishes
    rw [next] at read
    rw [chunksFrom_definition nonempty found, moved.upTo]
    exact Read.definition inside finishable read (by omega) written moved

/-- **The rows of a whole block** fill its region and are real. -/
theorem Decodes.region {maxDepth depth : Nat} {cursor : Cursor} {progress after : Progress}
    {rows : List Located} (decodes : Decodes maxDepth depth cursor progress rows after)
    (front : cursor.position = 0) :
    Laid cursor.region.base rows cursor.region.stop ∧ AllReal (rows.map Located.piece) :=
  decodes.read.region (fun _ _ => Instruction.SpelledBy.length_pos) front

/-- **A block that is decoded is finished** into the sequence of its pieces. -/
theorem Decodes.finished {maxDepth depth : Nat} {cursor : Cursor} {progress middle after : Progress}
    {rows : List Located} {actions : List Action}
    (decodes : Decodes maxDepth depth cursor progress rows middle) (front : cursor.position = 0)
    (finishes : finishSequence cursor.region rows middle = .ok actions after) :
    AllReal (rows.map Located.piece) ∧ Finishable (rows.map Located.piece) ∧
      actions = ActionCode.finished middle.nextLabel (rows.map Located.piece) ∧
      after.nextLabel = middle.nextLabel + (usesOf (rows.map Located.piece)).length := by
  obtain ⟨laid, real⟩ := decodes.region front
  exact ⟨real, finishSequence_ok laid real finishes⟩

/-! ### Reading what has been written -/

/-- **The bytes of records that have been written are read as these records.** -/
theorem decodes_of_written : ∀ {chunks : List Chunk} {maxDepth depth nextLabel : Nat},
    AllFormed Instruction.WrittenAs (maxDepth - depth) chunks → AllSound nextLabel chunks →
    ∀ (base position : Nat) {progress : Progress}, progress.nextLabel = nextLabel → ∃ own after,
      Decodes maxDepth depth ⟨base, position, bytesOf chunks⟩ progress own after ∧
      Read Instruction.WrittenAs (maxDepth - depth) nextLabel after.nextLabel
        ⟨base, position, bytesOf chunks⟩ own chunks
  | [], maxDepth, depth, nextLabel, formed, sound => by
    rintro base position progress rfl
    exact ⟨[], progress, .ended rfl progress, .empty rfl _ _⟩
  | .instruction instruction bytes :: rest, maxDepth, depth, nextLabel, formed, sound => by
    intro base position progress next
    rw [AllFormed, Chunk.Formed] at formed
    rw [AllSound, Chunk.piece] at sound
    have found := nextStep_of_image formed.1.readable formed.1.image maxDepth depth base position
      (bytesOf rest)
    rw [formed.1.canon] at found
    obtain ⟨own, after, decodes, read⟩ := decodes_of_written formed.2 sound.2 base
      (position + bytes.length) next
    have moved : Cursor.Moved bytes ⟨base, position, bytes ++ bytesOf rest⟩
        ⟨base, position + bytes.length, bytesOf rest⟩ := ⟨rfl, rfl, rfl⟩
    have filled : 0 < (bytes ++ bytesOf rest).length := by
      have positive := formed.1.length_pos
      rw [List.length_append]
      omega
    rw [bytesOf_cons]
    exact ⟨_, after, .instruction (Cursor.nonempty_iff.mpr filled) found decodes,
      read.instruction moved formed.1⟩
  | .definition signature bytes code :: rest, maxDepth, depth, nextLabel, formed, sound => by
    intro base position progress next
    rw [AllFormed, Chunk.Formed] at formed
    obtain ⟨⟨deep, ⟨front, written, rfl⟩, inner⟩, later⟩ := formed
    rw [AllSound, Chunk.Sound] at sound
    have room : maxDepth - depth - 1 = maxDepth - (depth + 1) := rfl
    have shallow : depth + 1 ≤ maxDepth := by omega
    have found := nextStep_of_declaration written shallow base position (bytesOf rest)
    rw [room] at inner
    obtain ⟨own', middle, decodes', inside⟩ := decodes_of_written inner sound.1.1
      (base + (position + front.length)) 0 next
    obtain ⟨laid, real⟩ := inside.region (fun _ _ => Instruction.WrittenAs.length_pos) rfl
    have finishable := sound.1.2
    rw [← inside.pieces] at finishable
    obtain ⟨after', finishes, next'⟩ := finishable.finishSequence laid real middle
    have second : (Chunk.piece nextLabel (.definition signature (front ++ bytesOf code) code)).2 =
        after'.nextLabel := by
      rw [Chunk.piece, next', ← inside.pieces, ← inside.next]
    rw [second] at sound
    obtain ⟨own, after, decodes, read⟩ := decodes_of_written later sound.2 base
      (position + front.length + (bytesOf code).length) rfl
    have moved : Cursor.Moved (front ++ bytesOf code)
        ⟨base, position, front ++ (bytesOf code ++ bytesOf rest)⟩
        ⟨base, position + front.length + (bytesOf code).length, bytesOf rest⟩ :=
      ⟨rfl, by rw [List.length_append, Nat.add_assoc], by rw [List.append_assoc]⟩
    have filled : 0 < (front ++ (bytesOf code ++ bytesOf rest)).length := by
      have length := Signature.length_of_image written
      rw [headWidth] at length
      rw [List.length_append]
      omega
    rw [next'] at read
    rw [bytesOf_cons, Chunk.bytes, List.append_assoc]
    exact ⟨_, after, .definition (Cursor.nonempty_iff.mpr filled) found decodes' finishes decodes,
      Read.definition inside finishable read deep written moved⟩

/-! ### Buffers -/

/-- The actions of a buffer before operand counts are looked for. -/
def plainActions (maxDepth : Nat) (bytes : List UInt8) : List Action :=
  actionsOf 0 (chunks maxDepth bytes)

/-- What a buffer that is accepted consists of. -/
structure Accepted (maxDepth : Nat) (bytes : List UInt8) : Prop where
  formed : AllFormed Instruction.SpelledBy maxDepth (chunks maxDepth bytes)
  whole : bytesOf (chunks maxDepth bytes) = bytes
  sound : AllSound 0 (chunks maxDepth bytes)
  finishable : Finishable (piecesFrom 0 (chunks maxDepth bytes)).1

/-- The actions of a buffer with their counts, if counts are asked for. -/
def DisassemblySettings.examined (settings : DisassemblySettings) (actions : List Action) :
    List Action :=
  if settings.examineStack then (examine actions settings.seedSlots).actions else actions

/-- Disassembly looks for counts in what becomes of the whole block. -/
theorem result_disassemble (settings : DisassemblySettings) (bytes : List UInt8) :
    (disassemble settings bytes).result =
      match disassembleBlock settings.maxDepth 0 (Cursor.start 0 bytes) ⟨0, #[]⟩ with
      | .error fault _ => .error fault
      | .ok actions _ => .ok (settings.examined actions) := by
  unfold disassemble DisassemblySettings.examined
  cases disassembleBlock settings.maxDepth 0 (Cursor.start 0 bytes) ⟨0, #[]⟩ with
  | error fault progress => rfl
  | ok actions progress => cases settings.examineStack <;> rfl

section

variable {settings : DisassemblySettings} {bytes : List UInt8}

theorem disassemble_eq_ok_iff {actions : List Action} :
    (disassemble settings bytes).result = .ok actions ↔
      ∃ plain after, disassembleBlock settings.maxDepth 0 (Cursor.start 0 bytes) ⟨0, #[]⟩ =
        .ok plain after ∧ actions = settings.examined plain := by
  rw [result_disassemble]
  cases disassembleBlock settings.maxDepth 0 (Cursor.start 0 bytes) ⟨0, #[]⟩ with
  | error fault after => exact ⟨nofun, nofun⟩
  | ok plain after =>
    constructor
    · rintro ⟨⟩
      exact ⟨plain, after, rfl, rfl⟩
    · rintro ⟨_, _, ⟨⟩, rfl⟩
      rfl

theorem disassemble_eq_error_iff {fault : DisassemblyFault} :
    (disassemble settings bytes).result = .error fault ↔
      ∃ after, disassembleBlock settings.maxDepth 0 (Cursor.start 0 bytes) ⟨0, #[]⟩ =
        .error fault after := by
  rw [result_disassemble]
  cases disassembleBlock settings.maxDepth 0 (Cursor.start 0 bytes) ⟨0, #[]⟩ with
  | ok plain after => exact ⟨nofun, nofun⟩
  | error found after =>
    constructor
    · rintro ⟨⟩
      exact ⟨after, rfl⟩
    · rintro ⟨_, ⟨⟩⟩
      rfl

end

/-- **A buffer that is disassembled consists of records**, and the actions are their listing. -/
theorem disassemble_ok {settings : DisassemblySettings} {bytes : List UInt8}
    {actions : List Action} (success : (disassemble settings bytes).result = .ok actions) :
    Accepted settings.maxDepth bytes ∧
      actions = settings.examined (plainActions settings.maxDepth bytes) := by
  obtain ⟨plain, after, block, rfl⟩ := disassemble_eq_ok_iff.mp success
  obtain ⟨rows, progress, decodes, finishes⟩ := disassembleBlock_ok_iff.mp block
  obtain ⟨_, finishable, rfl, _⟩ := decodes.finished rfl finishes
  have read := decodes.read
  have next := read.next
  have pieces := read.pieces
  rw [pieces] at finishable
  refine ⟨⟨read.formed, read.bytes, read.sound, finishable⟩, congrArg settings.examined ?_⟩
  rw [plainActions, actionsOf, pieces, next]
  rfl

/-- **Records that have been written and can be finished are disassembled**, into their listing. -/
theorem disassemble_of_written {settings : DisassemblySettings} {chunks : List Chunk}
    (written : AllFormed Instruction.WrittenAs settings.maxDepth chunks)
    (sound : AllSound 0 chunks) (finishable : Finishable (piecesFrom 0 chunks).1) :
    (disassemble settings (bytesOf chunks)).result = .ok (settings.examined (actionsOf 0 chunks)) := by
  have room : AllFormed Instruction.WrittenAs (settings.maxDepth - 0) chunks := written
  have fresh : (Progress.mk 0 #[]).nextLabel = 0 := rfl
  obtain ⟨own, after, decodes, read⟩ := decodes_of_written room sound 0 0 fresh
  obtain ⟨laid, real⟩ := read.region (fun _ _ => Instruction.WrittenAs.length_pos) rfl
  rw [← read.pieces] at finishable
  obtain ⟨after', finishes, _⟩ := finishable.finishSequence laid real after
  have same : finished after.nextLabel (own.map Located.piece) = actionsOf 0 chunks := by
    rw [actionsOf, read.pieces, read.next]
  rw [same] at finishes
  exact disassemble_eq_ok_iff.mpr
    ⟨_, after', disassembleBlock_ok_iff.mpr ⟨_, after, decodes, finishes⟩, rfl⟩

end ActionCode

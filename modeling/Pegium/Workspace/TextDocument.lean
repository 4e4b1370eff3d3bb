/-
Pegium/Workspace/TextDocument.lean

Text documents: offsets, positions, and changes of the text.

A position counts UTF-16 code units within a line, an offset counts bytes.  Both are
`uint32_t`, so only the first 2^32 - 1 bytes of a text can be addressed; sums that can
leave the range wrap around, as in the source.  The beginnings of the lines are found
in one pass over chunks of 64 KiB, and each chunk remembers how many lines begin
before it.

The bytes a decoder may look at are the list it is given, so `available` is the length
of the list.
-/
import Mathlib.Data.Int.Notation
import Mathlib.Data.List.Basic
import Pegium.Parser.TextUtils

namespace Pegium

/-! ### UTF-8 and UTF-16 -/

/-- How many bytes a lead byte announces; a continuation byte passes for the lead of two. -/
def expectedLength (first : UInt8) : ℕ :=
  if first < 0xE0 then 2 else if first < 0xF0 then 3 else if first < 0xF8 then 4 else 1

/-- The code point of a sequence whose length the first byte tells. -/
def codePointOf (length : ℕ) (bytes : List UInt8) : ℕ :=
  let first := (byteAt bytes 0).toNat
  let cont := fun i => (byteAt bytes i).toNat &&& 0x3F
  match length with
  | 2 => (first &&& 0x1F) <<< 6 ||| cont 1
  | 3 => (first &&& 0x0F) <<< 12 ||| cont 1 <<< 6 ||| cont 2
  | _ => (first &&& 0x07) <<< 18 ||| cont 1 <<< 12 ||| cont 2 <<< 6 ||| cont 3

/-- The bytes of the first code point, and its UTF-16 code units.  A malformed or
truncated sequence counts for its first byte alone. -/
def decodeOneUtf8ToUtf16Units (bytes : List UInt8) : ℕ × ℕ :=
  let first := byteAt bytes 0
  if first < 0x80 then (1, 1)
  else
    let length := expectedLength first
    if length = 1 ∨ bytes.length < length then (1, 1)
    else if (bytes.take length).tail.any fun nextByte => nextByte &&& 0xC0 != 0x80 then (1, 1)
    else (length, if 0x10000 ≤ codePointOf length bytes then 2 else 1)

theorem decodeOne_bounds (bytes : List UInt8) :
    1 ≤ (decodeOneUtf8ToUtf16Units bytes).1 ∧ 1 ≤ (decodeOneUtf8ToUtf16Units bytes).2 ∧
      (bytes ≠ [] → (decodeOneUtf8ToUtf16Units bytes).1 ≤ bytes.length) := by
  have hone : bytes ≠ [] → 1 ≤ bytes.length := List.length_pos_of_ne_nil
  have hlength : ∀ first, 1 ≤ expectedLength first := by
    intro first
    unfold expectedLength
    split_ifs <;> decide
  unfold decodeOneUtf8ToUtf16Units
  dsimp only
  split_ifs with h1 h2 h3 h4
  · exact ⟨Nat.le_refl _, Nat.le_refl _, hone⟩
  · exact ⟨Nat.le_refl _, Nat.le_refl _, hone⟩
  · exact ⟨Nat.le_refl _, Nat.le_refl _, hone⟩
  · exact ⟨hlength _, Nat.le_succ 1, fun _ => Nat.not_lt.mp fun h => h2 (.inr h)⟩
  · exact ⟨hlength _, Nat.le_refl _, fun _ => Nat.not_lt.mp fun h => h2 (.inr h)⟩

/-- The UTF-16 code units of the bytes of a line that stand before an offset. -/
def utf16_column : List UInt8 → ℕ
  | [] => 0
  | byte :: rest =>
    if byte < 0x80 then 1 + utf16_column rest
    else
      let decoded := decodeOneUtf8ToUtf16Units (byte :: rest)
      decoded.2 + utf16_column ((byte :: rest).drop decoded.1)
  termination_by bytes => bytes.length
  decreasing_by
    · exact Nat.lt_succ_self _
    · have hpos := (decodeOne_bounds (byte :: rest)).1
      rw [List.length_drop]
      show rest.length + 1 - (decodeOneUtf8ToUtf16Units (byte :: rest)).1 < rest.length + 1
      omega

/-- How many bytes of a line `offsetAt` passes for a number of code units. -/
def skipUnits : List UInt8 → ℕ → ℕ
  | [], _ => 0
  | _ :: _, 0 => 0
  | byte :: rest, remainingUnits + 1 =>
    if byte < 0x80 then 1 + skipUnits rest remainingUnits
    else
      let decoded := decodeOneUtf8ToUtf16Units (byte :: rest)
      decoded.1 + skipUnits ((byte :: rest).drop decoded.1) (remainingUnits + 1 - decoded.2)
  termination_by bytes => bytes.length
  decreasing_by
    · exact Nat.lt_succ_self _
    · have hpos := (decodeOne_bounds (byte :: rest)).1
      rw [List.length_drop]
      show rest.length + 1 - (decodeOneUtf8ToUtf16Units (byte :: rest)).1 < rest.length + 1
      omega

/-! ### The line index -/

/-- `kLineIndexChunkSize`. -/
def lineIndexChunkSize : ℕ := 65536

/-- How many values a `uint32_t` has. -/
def uint32Size : ℕ := 4294967296

/-- The size of a text as a `TextOffset`. -/
def textSize (text : List UInt8) : ℕ := min text.length (uint32Size - 1)

/-- Where the lines start, with the number of lines at the start of each chunk. -/
structure LineIndex where
  lineStart : List ℕ
  chunkLineLowerBound : List ℕ
  numChunks : ℕ
  deriving DecidableEq

/-- The lines that begin within a chunk, or right after it, are appended. -/
def scanChunk (text : List UInt8) (chunkStart chunkEnd : ℕ) (lineStart : List ℕ) : List ℕ :=
  (List.range' chunkStart (chunkEnd - chunkStart)).foldl
    (fun lineStart offset =>
      if byteAt text offset == 10 then lineStart ++ [offset + 1] else lineStart) lineStart

/-- One round of the loop over the chunks. -/
def indexChunk (text : List UInt8) (index : List ℕ × List ℕ) (chunk : ℕ) : List ℕ × List ℕ :=
  let chunkStart := chunk * lineIndexChunkSize
  let chunkEnd := min (textSize text) (chunkStart + lineIndexChunkSize)
  (scanChunk text chunkStart chunkEnd index.1, index.2 ++ [(index.1.length - 1) % uint32Size])

/-- The number of chunks of a text, the last of which may be short. -/
def chunkCount (text : List UInt8) : ℕ :=
  (textSize text + lineIndexChunkSize - 1) / lineIndexChunkSize

/-- The index after the loop over the chunks: the last bound counts all lines. -/
def LineIndex.ofLoop (numChunks : ℕ) (index : List ℕ × List ℕ) : LineIndex where
  lineStart := index.1
  chunkLineLowerBound := index.2 ++ [(index.1.length - 1) % uint32Size]
  numChunks := numChunks

/-- The index of a text, built chunk by chunk. -/
def ensureLineIndex (text : List UInt8) : LineIndex :=
  .ofLoop (chunkCount text) ((List.range (chunkCount text)).foldl (indexChunk text) ([0], []))

/-- The offset of the newline that ends a line, or the size. -/
def line_end_offset (lineStart : List ℕ) (size line : ℕ) : ℕ :=
  if (line + 1) % uint32Size < lineStart.length then
    (lineStart.getD ((line + 1) % uint32Size) 0 + uint32Size - 1) % uint32Size
  else size

/-- `std::ranges::upper_bound`: how many values stand before the first that is greater. -/
def upper_bound (values : List ℕ) (value : ℕ) : ℕ := (values.takeWhile (· ≤ value)).length

/-! ### Positions -/

/-- A line and a UTF-16 offset in it. -/
structure TextPosition where
  line : ℕ
  character : ℕ
  deriving DecidableEq

/-- The bytes from one offset to another. -/
def slice (text : List UInt8) (start stop : ℕ) : List UInt8 := (text.drop start).take (stop - start)

/-- The byte offset of a position; one beyond its line is the end of the line. -/
def offsetAt (text : List UInt8) (position : TextPosition) : ℕ :=
  let lineStart := (ensureLineIndex text).lineStart
  let size := textSize text
  if lineStart.length ≤ position.line then size
  else
    let start := lineStart.getD position.line 0
    let stop := line_end_offset lineStart size position.line
    min (start + skipUnits (slice text start stop) position.character) stop

/-- The position of a byte offset. -/
def positionAt (text : List UInt8) (offset : ℕ) : TextPosition :=
  let index := ensureLineIndex text
  let size := textSize text
  let clamped := min offset size
  if index.numChunks = 0 then ⟨0, 0⟩
  else
    let chunk := min (clamped / lineIndexChunkSize) (index.numChunks - 1)
    let lo := index.chunkLineLowerBound.getD chunk 0
    let hi := min ((index.chunkLineLowerBound.getD (chunk + 1) 0 + 1) % uint32Size)
      (index.lineStart.length % uint32Size)
    let found := lo + upper_bound ((index.lineStart.take hi).drop lo) clamped
    let line := (found + uint32Size - 1) % uint32Size
    let lineStart := index.lineStart.getD line 0
    let lineEnd := line_end_offset index.lineStart size line
    let clampedInLine := min (max clamped lineStart) lineEnd
    ⟨line, utf16_column (slice text lineStart clampedInLine)⟩

/-! ### Edits -/

/-- A range of positions. -/
structure TextRange where
  start : TextPosition
  stop : TextPosition
  deriving DecidableEq

/-- A range and the text to put there. -/
structure TextEdit where
  range : TextRange
  newText : List UInt8
  deriving DecidableEq

/-- A change of the whole text, or of a range of it. -/
structure TextDocumentContentChangeEvent where
  range : Option TextRange
  text : List UInt8
  deriving DecidableEq

/-- Edits are applied from the end of the text to its start. -/
def edit_starts_after (left right : TextEdit) : Bool :=
  if left.range.start.line ≠ right.range.start.line then
    right.range.start.line < left.range.start.line
  else if left.range.start.character ≠ right.range.start.character then
    right.range.start.character < left.range.start.character
  else if left.range.stop.line ≠ right.range.stop.line then
    right.range.stop.line < left.range.stop.line
  else right.range.stop.character < left.range.stop.character

/-- `std::string::replace`, which throws when it is to start after the end; the count is
cut at the end of the text. -/
def replaceAt (text : List UInt8) (start count : ℕ) (newText : List UInt8) :
    Option (List UInt8) :=
  if text.length < start then none
  else some (text.take start ++ newText ++ text.drop (start + count))

/-- `replaceAt` between two positions, which are looked up in `document`. -/
def replaceRange (document : List UInt8) (range : TextRange) (newText updated : List UInt8) :
    Option (List UInt8) :=
  let start := offsetAt document range.start
  let stop := offsetAt document range.stop
  replaceAt updated start (stop - start) newText

/-- A text with its version. -/
structure TextDocument where
  version : ℤ
  text : List UInt8
  deriving DecidableEq

/-- One round of `TextDocument::update`: the positions are those of the text at hand. -/
def applyChange (text : List UInt8) (change : TextDocumentContentChangeEvent) :
    Option (List UInt8) :=
  match change.range with
  | none => some change.text
  | some range => replaceRange text range change.text text

/-- All changes of a notification, in order; one that cannot be applied fails them
all. -/
def TextDocument.update (document : TextDocument)
    (changes : List TextDocumentContentChangeEvent) (version : ℤ) : Option TextDocument := do
  let text ← changes.foldlM applyChange document.text
  return { version := version, text := text }

/-- `TextDocument::applyEdits`, with the sort that is used; the positions are those of the
document, whatever has been replaced already. -/
def applyEdits (sort : List TextEdit → List TextEdit) (document : List UInt8)
    (edits : List TextEdit) : Option (List UInt8) :=
  (sort edits).foldlM
    (fun updated edit => replaceRange document edit.range edit.newText updated) document

end Pegium

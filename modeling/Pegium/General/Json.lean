/-
General/Json.lean

A reader of JSON texts.

A text is the list of its bytes.  `read` accepts the grammar of the standard: white
space around tokens, the three literals, numbers with fraction and exponent, strings
with all escapes and surrogate pairs, arrays and objects.  The bytes of a string have
to be UTF-8.

What a value means does not depend on the order of the members of an object, nor on
how a number is written (`meaning`).

The rules for writers are at the end: what is needed of the texts of the elements for
the text of an array or an object to be read (`readValue_array`, `readValue_object`),
and what remains of a text without its white space (`Strips`).
-/
import Mathlib.Algebra.Order.Field.Rat
import Mathlib.Data.List.Basic
import Mathlib.Data.List.Forall2

namespace Pegium

/-- A JSON value as it is written; a number is `mantissa * 10 ^ exponent`. -/
inductive Json where
  | null
  | bool (b : Bool)
  | number (mantissa : ℤ) (exponent : ℤ)
  | string (text : String)
  | array (elements : List Json)
  | object (members : List (String × Json))

/-- A JSON value: an object is a function from its keys. -/
inductive Meaning where
  | null
  | bool (b : Bool)
  | number (value : ℚ)
  | string (text : String)
  | array (elements : List Meaning)
  | object (member : String → Option Meaning)

namespace Json

mutual

/-- The value that is written. -/
def meaning : Json → Meaning
  | .null => .null
  | .bool b => .bool b
  | .number mantissa exponent => .number (mantissa * 10 ^ exponent)
  | .string text => .string text
  | .array elements => .array (meaningElements elements)
  | .object members => .object fun key => (meaningMembers members).lookup key

/-- What the elements of an array stand for. -/
def meaningElements : List Json → List Meaning
  | [] => []
  | element :: elements => meaning element :: meaningElements elements

/-- What a member of an object stands for. -/
def meaningMember : String × Json → String × Meaning
  | (key, value) => (key, meaning value)

/-- What the members of an object stand for. -/
def meaningMembers : List (String × Json) → List (String × Meaning)
  | [] => []
  | member :: members => meaningMember member :: meaningMembers members

end

/-! ### Strings -/

/-- The bytes of a string. -/
def bytes (text : String) : List UInt8 := text.toByteArray.data.toList

/-- The string with these bytes. -/
def ofBytes (bytes : List UInt8) : Option String := String.fromUTF8? ⟨bytes.toArray⟩

/-- The value of a hexadecimal digit. -/
def hexValue (c : UInt8) : Option ℕ :=
  if 48 ≤ c ∧ c ≤ 57 then some (c.toNat - 48)
  else if 65 ≤ c ∧ c ≤ 70 then some (c.toNat - 55)
  else if 97 ≤ c ∧ c ≤ 102 then some (c.toNat - 87)
  else none

/-- Four hexadecimal digits. -/
def readHex : List UInt8 → Option (ℕ × List UInt8)
  | a :: b :: c :: d :: rest =>
    match hexValue a, hexValue b, hexValue c, hexValue d with
    | some a, some b, some c, some d => some (((a * 16 + b) * 16 + c) * 16 + d, rest)
    | _, _, _, _ => none
  | _ => none

/-- The UTF-8 bytes of a code point. -/
def encode (codePoint : ℕ) : List UInt8 := String.utf8EncodeChar (Char.ofNat codePoint)

/-- What follows `\u`: a code unit, or two that are a surrogate pair. -/
def readUnicode (text : List UInt8) : Option (List UInt8 × List UInt8) :=
  match readHex text with
  | none => none
  | some (unit, rest) =>
    if unit < 0xD800 ∨ 0xDFFF < unit then some (encode unit, rest)
    else if 0xDBFF < unit then none
    else if [92, 117] <+: rest then
      match readHex (rest.drop 2) with
      | none => none
      | some (low, rest) =>
        if 0xDC00 ≤ low ∧ low ≤ 0xDFFF then
          some (encode (0x10000 + (unit - 0xD800) * 0x400 + (low - 0xDC00)), rest)
        else none
    else none

/-- The escapes `\" \\ \/ \b \f \n \r \t`. -/
def unescape (c : UInt8) : Option UInt8 :=
  if c = 34 ∨ c = 92 ∨ c = 47 then some c
  else if c = 98 then some 8
  else if c = 102 then some 12
  else if c = 110 then some 10
  else if c = 114 then some 13
  else if c = 116 then some 9
  else none

/-- What follows a backslash. -/
def readEscape : List UInt8 → Option (List UInt8 × List UInt8)
  | [] => none
  | c :: rest => if c = 117 then readUnicode rest else (unescape c).map fun b => ([b], rest)

/-- The bytes up to the closing quote. -/
def readChars : ℕ → List UInt8 → Option (List UInt8 × List UInt8)
  | 0, _ | _, [] => none
  | fuel + 1, c :: rest =>
    if c = 34 then some ([], rest)
    else if c = 92 then
      (readEscape rest).bind fun (first, rest) =>
        (readChars fuel rest).map fun (more, rest) => (first ++ more, rest)
    else if c < 32 then none
    else (readChars fuel rest).map fun (more, rest) => (c :: more, rest)

/-- A string, from its opening quote. -/
def readString : List UInt8 → Option (String × List UInt8)
  | [] => none
  | c :: rest =>
    if c = 34 then
      (readChars rest.length rest).bind fun (chars, rest) =>
        (ofBytes chars).map fun text => (text, rest)
    else none

/-! ### Numbers -/

/-- A decimal digit. -/
def isDigit (c : UInt8) : Bool := 48 ≤ c && c ≤ 57

/-- The number of a list of digits. -/
def ofDigits (digits : List UInt8) : ℕ := digits.foldl (fun n d => 10 * n + (d.toNat - 48)) 0

/-- The digits behind a point, if there is one. -/
def readFraction (text : List UInt8) : Option (List UInt8 × List UInt8) :=
  if text.head? = some 46 then
    let digits := text.tail.takeWhile isDigit
    if digits.isEmpty then none else some (digits, text.tail.dropWhile isDigit)
  else some ([], text)

/-- The exponent, if there is one. -/
def readExponent (text : List UInt8) : Option (ℤ × List UInt8) :=
  if text.head? = some 101 ∨ text.head? = some 69 then
    let negative := text.tail.head? = some 45
    let unsigned :=
      if negative ∨ text.tail.head? = some 43 then text.tail.tail else text.tail
    let digits := unsigned.takeWhile isDigit
    if digits.isEmpty then none
    else
      some (if negative then -(ofDigits digits : ℤ) else ofDigits digits,
        unsigned.dropWhile isDigit)
  else some (0, text)

/-- A number without its sign; no zero stands before other digits. -/
def readUnsigned (negative : Bool) (text : List UInt8) : Option (Json × List UInt8) :=
  let digits := text.takeWhile isDigit
  if digits.isEmpty || (digits.head? = some 48 && digits.length ≠ 1) then none
  else
    (readFraction (text.dropWhile isDigit)).bind fun (fraction, rest) =>
      (readExponent rest).map fun (exponent, rest) =>
        let mantissa : ℤ := ofDigits (digits ++ fraction)
        (.number (if negative then -mantissa else mantissa) (exponent - fraction.length), rest)

/-- A number with its sign. -/
def readNumber (text : List UInt8) : Option (Json × List UInt8) :=
  if text.head? = some 45 then readUnsigned true text.tail else readUnsigned false text

/-! ### Values -/

/-- White space between tokens. -/
def isSpace (c : UInt8) : Bool := c = 32 || c = 9 || c = 10 || c = 13

/-- The text behind white space. -/
def skipSpace (text : List UInt8) : List UInt8 := text.dropWhile isSpace

/-- Items separated by commas, up to the closing bracket. -/
def readSeparated {α : Type} (item : List UInt8 → Option (α × List UInt8)) (close : UInt8) :
    ℕ → List UInt8 → Option (List α × List UInt8)
  | 0, _ => none
  | fuel + 1, text =>
    (item text).bind fun (x, rest) =>
      match skipSpace rest with
      | [] => none
      | c :: rest =>
        if c = close then some ([x], rest)
        else if c = 44 then
          (readSeparated item close fuel (skipSpace rest)).map fun (xs, rest) => (x :: xs, rest)
        else none

/-- A key, a colon and a value. -/
def readMember (value : List UInt8 → Option (Json × List UInt8)) (text : List UInt8) :
    Option ((String × Json) × List UInt8) :=
  (readString text).bind fun (key, rest) =>
    match skipSpace rest with
    | [] => none
    | c :: rest =>
      if c = 58 then (value (skipSpace rest)).map fun (v, rest) => ((key, v), rest) else none

/-- One of the words of the grammar. -/
def readLiteral (word : List UInt8) (value : Json) (text : List UInt8) :
    Option (Json × List UInt8) :=
  if word <+: text then some (value, text.drop word.length) else none

/-- A bracketed list, empty or with items. -/
def readBracketed {α : Type} (item : List UInt8 → Option (α × List UInt8)) (close : UInt8)
    (fuel : ℕ) (text : List UInt8) : Option (List α × List UInt8) :=
  let text := skipSpace text
  if text.head? = some close then some ([], text.tail) else readSeparated item close fuel text

/-- A value, from its first byte. -/
def readValue : ℕ → List UInt8 → Option (Json × List UInt8)
  | 0, _ | _, [] => none
  | fuel + 1, c :: rest =>
    if c = 34 then (readString (c :: rest)).map fun (text, rest) => (.string text, rest)
    else if c = 91 then
      (readBracketed (readValue fuel) 93 fuel rest).map fun (xs, rest) => (.array xs, rest)
    else if c = 123 then
      (readBracketed (readMember (readValue fuel)) 125 fuel rest).map fun (xs, rest) =>
        (.object xs, rest)
    else if c = 110 then readLiteral (bytes "null") .null (c :: rest)
    else if c = 116 then readLiteral (bytes "true") (.bool true) (c :: rest)
    else if c = 102 then readLiteral (bytes "false") (.bool false) (c :: rest)
    else readNumber (c :: rest)

/-- A whole text. -/
def read (text : List UInt8) : Option Json :=
  (readValue text.length (skipSpace text)).bind fun (value, rest) =>
    if (skipSpace rest).isEmpty then some value else none

/-- Where a byte stands: outside of strings, in one, or after a backslash. -/
inductive Place where
  | outside
  | inside
  | escaped

/-- The text without the white space outside its strings. -/
def stripSpace : Place → List UInt8 → List UInt8
  | _, [] => []
  | .outside, c :: rest =>
    if c = 34 then c :: stripSpace .inside rest
    else if isSpace c then stripSpace .outside rest
    else c :: stripSpace .outside rest
  | .inside, c :: rest =>
    if c = 92 then c :: stripSpace .escaped rest
    else if c = 34 then c :: stripSpace .outside rest
    else c :: stripSpace .inside rest
  | .escaped, c :: rest => c :: stripSpace .inside rest

/-! ### White space -/

/-- White space only. -/
def Spaces (text : List UInt8) : Prop := ∀ c ∈ text, isSpace c = true

/-- The first byte of a value or a key. -/
def Starts (text : List UInt8) : Prop :=
  ∃ c rest, text = c :: rest ∧ isSpace c = false ∧ c ≠ 93 ∧ c ≠ 125

/-- What stands after a value. -/
def Ends (rest : List UInt8) : Prop :=
  ∀ c, rest.head? = some c → c = 44 ∨ c = 93 ∨ c = 125 ∨ isSpace c = true

theorem skipSpace_append {spaces : List UInt8} (h : Spaces spaces) (text : List UInt8) :
    skipSpace (spaces ++ text) = skipSpace text :=
  List.dropWhile_append_of_pos h

theorem skipSpace_cons {c : UInt8} (h : isSpace c = false) (rest : List UInt8) :
    skipSpace (c :: rest) = c :: rest :=
  List.dropWhile_cons_of_neg (by rw [h]; exact Bool.false_ne_true)

theorem Starts.skipSpace {text : List UInt8} (h : Starts text) (rest : List UInt8) :
    skipSpace (text ++ rest) = text ++ rest := by
  obtain ⟨c, more, rfl, hspace, -⟩ := h
  exact skipSpace_cons hspace _

theorem ends_append {spaces : List UInt8} (h : Spaces spaces) {rest : List UInt8}
    (hrest : Ends rest) : Ends (spaces ++ rest) := by
  cases spaces with
  | nil => exact hrest
  | cons c spaces =>
    rintro d ⟨⟩
    exact .inr (.inr (.inr (h c List.mem_cons_self)))

/-! ### Lists -/

/-- The text of an item is read, whatever stands after it. -/
structure Parses {α : Type} (item : List UInt8 → Option (α × List UInt8)) (text : List UInt8)
    (x : α) : Prop where
  starts : Starts text
  reads : ∀ rest, Ends rest → item (text ++ rest) = some (x, rest)

/-- Texts between brackets, with white space before each of them and at the end. -/
def bracketed (first last : UInt8) (lead trail : List UInt8) : List (List UInt8) → List UInt8
  | [] => [first, last]
  | text :: texts =>
    first :: (lead ++ (text ++ (texts.flatMap (fun t => 44 :: (lead ++ t)) ++ (trail ++ [last]))))

section Lists

variable {α : Type} {item : List UInt8 → Option (α × List UInt8)} {close : UInt8}
  {lead trail : List UInt8}

theorem readSeparated_append (hclose : close = 93 ∨ close = 125) (hlead : Spaces lead)
    (htrail : Spaces trail) {texts : List (List UInt8)} {xs : List α}
    (h : List.Forall₂ (Parses item) texts xs) {text : List UInt8} {x : α}
    (hfirst : Parses item text x) {fuel : ℕ} (hfuel : texts.length < fuel) (rest : List UInt8) :
    readSeparated item close fuel (text ++ (texts.flatMap (fun t => 44 :: (lead ++ t)) ++
        (trail ++ close :: rest))) = some (x :: xs, rest) := by
  induction h generalizing text x fuel with
  | nil =>
    obtain ⟨fuel, rfl⟩ := Nat.exists_eq_add_one_of_ne_zero (Nat.ne_zero_of_lt hfuel)
    have hends : Ends (trail ++ close :: rest) := by
      refine ends_append htrail ?_
      rintro c ⟨⟩
      exact .inr (hclose.imp_right .inl)
    have hspace : isSpace close = false := by
      rcases hclose with rfl | rfl
      · decide
      · decide
    rw [List.flatMap_nil, List.nil_append, readSeparated, hfirst.reads _ hends, Option.bind_some]
    dsimp only
    rw [skipSpace_append htrail, skipSpace_cons hspace]
    exact if_pos rfl
  | @cons text' x' texts xs hitem _ ih =>
    obtain ⟨fuel, rfl⟩ := Nat.exists_eq_add_one_of_ne_zero (Nat.ne_zero_of_lt hfuel)
    have hcomma : (44 : UInt8) ≠ close := by
      rcases hclose with rfl | rfl
      · decide
      · decide
    have hends : ∀ more, Ends (44 :: more) := by
      rintro more c ⟨⟩
      exact .inl rfl
    have hnext := ih hitem (Nat.lt_of_succ_lt_succ hfuel)
    rw [List.flatMap_cons, readSeparated]
    simp only [List.cons_append, List.append_assoc]
    rw [hfirst.reads _ (hends _), Option.bind_some]
    dsimp only
    rw [skipSpace_cons (by decide)]
    dsimp only
    rw [if_neg hcomma, if_pos rfl, skipSpace_append hlead, hitem.starts.skipSpace, hnext]
    rfl

/-- **A bracketed list is read.** -/
theorem readBracketed_append (hclose : close = 93 ∨ close = 125) (hlead : Spaces lead)
    (htrail : Spaces trail) {texts : List (List UInt8)} {xs : List α}
    (h : List.Forall₂ (Parses item) texts xs) {fuel : ℕ} (hfuel : texts.length ≤ fuel)
    (first : UInt8) (rest : List UInt8) :
    ∃ text, bracketed first close lead trail texts ++ rest = first :: text ∧
      readBracketed item close fuel text = some (xs, rest) := by
  cases h with
  | nil =>
    have hspace : isSpace close = false := by
      rcases hclose with rfl | rfl
      · decide
      · decide
    refine ⟨close :: rest, rfl, ?_⟩
    unfold readBracketed
    rw [skipSpace_cons hspace]
    exact if_pos rfl
  | @cons text x texts xs hitem hitems =>
    refine ⟨lead ++ (text ++ (texts.flatMap (fun t => 44 :: (lead ++ t)) ++
      (trail ++ close :: rest))), by simp [bracketed], ?_⟩
    unfold readBracketed
    rw [skipSpace_append hlead, hitem.starts.skipSpace]
    have hread := readSeparated_append hclose hlead htrail hitems hitem hfuel rest
    obtain ⟨c, more, rfl, -, hbracket, hbrace⟩ := hitem.starts
    dsimp only
    rw [if_neg, hread]
    rintro ⟨⟩
    rcases hclose with rfl | rfl
    · exact hbracket rfl
    · exact hbrace rfl

end Lists

/-! ### Values -/

/-- The text of a value: it is read as the value, with any fuel from its length on. -/
structure Writes (text : List UInt8) (value : Json) : Prop where
  starts : Starts text
  reads : ∀ fuel, text.length ≤ fuel → Parses (readValue fuel) text value

/-- The text of a key. -/
structure WritesKey (text : List UInt8) (key : String) : Prop where
  quote : ∃ rest, text = 34 :: rest
  reads : ∀ rest, readString (text ++ rest) = some (key, rest)

/-- The text of a member: a key, a colon and a value. -/
structure WritesMember (text : List UInt8) (member : String × Json) : Prop where
  parts : ∃ key gap value, text = key ++ 58 :: (gap ++ value) ∧ Spaces gap ∧
    WritesKey key member.1 ∧ Writes value member.2

theorem Writes.of_reads {text : List UInt8} {value : Json} (hstarts : Starts text)
    (h : ∀ fuel, text.length ≤ fuel → ∀ rest, Ends rest →
      readValue fuel (text ++ rest) = some (value, rest)) : Writes text value :=
  ⟨hstarts, fun fuel hfuel => ⟨hstarts, h fuel hfuel⟩⟩

theorem WritesKey.starts {text : List UInt8} {key : String} (h : WritesKey text key) :
    Starts text := by
  obtain ⟨rest, rfl⟩ := h.quote
  exact ⟨34, rest, rfl, by decide⟩

/-- A key is a string. -/
theorem WritesKey.writes {text : List UInt8} {key : String} (h : WritesKey text key) :
    Writes text (.string key) := by
  refine .of_reads h.starts fun fuel hfuel rest _ => ?_
  have hread := h.reads rest
  obtain ⟨more, rfl⟩ := h.quote
  cases fuel with
  | zero => exact absurd hfuel (Nat.not_succ_le_zero _)
  | succ fuel =>
    rw [List.cons_append, readValue, if_pos rfl, ← List.cons_append, hread]
    rfl

theorem WritesMember.parses {text : List UInt8} {member : String × Json}
    (h : WritesMember text member) {fuel : ℕ} (hfuel : text.length ≤ fuel) :
    Parses (readMember (readValue fuel)) text member := by
  obtain ⟨key, gap, value, rfl, hgap, hkey, hvalue⟩ := h.parts
  have hlength : value.length ≤ fuel := by
    refine le_trans ?_ hfuel
    simp only [List.length_append, List.length_cons]
    omega
  constructor
  · obtain ⟨rest, rfl⟩ := hkey.quote
    exact ⟨34, _, rfl, by decide⟩
  · intro rest hrest
    unfold readMember
    simp only [List.cons_append, List.append_assoc]
    rw [hkey.reads, Option.bind_some]
    dsimp only
    rw [skipSpace_cons (by decide)]
    dsimp only
    rw [if_pos rfl, skipSpace_append hgap, hvalue.starts.skipSpace,
      (hvalue.reads fuel hlength).reads rest hrest]
    rfl

section Bracketed

variable {lead trail : List UInt8} {texts : List (List UInt8)}

theorem length_bracketed (first last : UInt8) (htexts : ∀ text ∈ texts, 0 < text.length) :
    texts.length + 2 ≤ (bracketed first last lead trail texts).length ∧
      ∀ text ∈ texts, text.length + 2 ≤ (bracketed first last lead trail texts).length := by
  cases texts with
  | nil => exact ⟨le_refl 2, nofun⟩
  | cons text texts =>
    have hrest : texts.length ≤ (texts.flatMap fun t => 44 :: (lead ++ t)).length ∧
        ∀ t ∈ texts, t.length ≤ (texts.flatMap fun t => 44 :: (lead ++ t)).length := by
      clear htexts
      induction texts with
      | nil => exact ⟨le_refl 0, nofun⟩
      | cons t texts ih =>
        simp only [List.flatMap_cons, List.length_append, List.length_cons, List.forall_mem_cons]
        exact ⟨by omega, by omega, fun u hu => by have := ih.2 u hu; omega⟩
    have hfirst := htexts text List.mem_cons_self
    simp only [bracketed, List.length_append, List.length_cons, List.forall_mem_cons]
    exact ⟨by omega, by omega, fun u hu => by have := hrest.2 u hu; omega⟩

/-- The items of a list, each with a fuel that is enough for the whole of it. -/
theorem parses_items {α : Type} {W : List UInt8 → α → Prop}
    {item : List UInt8 → Option (α × List UInt8)} {xs : List α} {fuel : ℕ} (first last : UInt8)
    (h : List.Forall₂ W texts xs) (hstarts : ∀ text x, W text x → Starts text)
    (hparses : ∀ text x, W text x → text.length ≤ fuel → Parses item text x)
    (hfuel : (bracketed first last lead trail texts).length ≤ fuel + 1) :
    List.Forall₂ (Parses item) texts xs ∧ texts.length ≤ fuel := by
  have hpos : ∀ text ∈ texts, 0 < text.length := by
    clear hfuel
    induction h with
    | nil => exact nofun
    | cons hitem _ ih =>
      rw [List.forall_mem_cons]
      refine ⟨?_, ih⟩
      obtain ⟨c, rest, rfl, -⟩ := hstarts _ _ hitem
      exact Nat.succ_pos _
  obtain ⟨hcount, hlength⟩ := @length_bracketed lead trail texts first last hpos
  have hbound : ∀ text ∈ texts, text.length ≤ fuel := fun text htext => by
    have := hlength text htext
    omega
  refine ⟨?_, by omega⟩
  clear hfuel hpos hcount hlength
  induction h with
  | nil => exact .nil
  | cons hitem _ ih =>
    rw [List.forall_mem_cons] at hbound
    exact .cons (hparses _ _ hitem hbound.1) (ih hbound.2)

/-- **The text of an array.** -/
theorem writes_array (hlead : Spaces lead) (htrail : Spaces trail) {values : List Json}
    (h : List.Forall₂ Writes texts values) :
    Writes (bracketed 91 93 lead trail texts) (.array values) := by
  have hstarts : Starts (bracketed 91 93 lead trail texts) := by
    cases texts with
    | nil => exact ⟨91, _, rfl, by decide⟩
    | cons text texts => exact ⟨91, _, rfl, by decide⟩
  refine .of_reads hstarts fun fuel hfuel rest _ => ?_
  cases fuel with
  | zero =>
    obtain ⟨c, more, htext, -⟩ := hstarts
    rw [htext] at hfuel
    exact absurd hfuel (Nat.not_succ_le_zero _)
  | succ fuel =>
    obtain ⟨hitems, hcount⟩ := parses_items 91 93 h (fun _ _ hitem => hitem.starts)
      (fun _ _ hitem hlength => hitem.reads fuel hlength) hfuel
    obtain ⟨text, htext, hread⟩ :=
      readBracketed_append (.inl rfl) hlead htrail hitems hcount 91 rest
    rw [htext, readValue, if_neg (by decide), if_pos rfl, hread]
    rfl

/-- **The text of an object.** -/
theorem writes_object (hlead : Spaces lead) (htrail : Spaces trail)
    {members : List (String × Json)} (h : List.Forall₂ WritesMember texts members) :
    Writes (bracketed 123 125 lead trail texts) (.object members) := by
  have hstarts : Starts (bracketed 123 125 lead trail texts) := by
    cases texts with
    | nil => exact ⟨123, _, rfl, by decide⟩
    | cons text texts => exact ⟨123, _, rfl, by decide⟩
  refine .of_reads hstarts fun fuel hfuel rest _ => ?_
  cases fuel with
  | zero =>
    obtain ⟨c, more, htext, -⟩ := hstarts
    rw [htext] at hfuel
    exact absurd hfuel (Nat.not_succ_le_zero _)
  | succ fuel =>
    obtain ⟨hitems, hcount⟩ := parses_items 123 125 h
      (fun _ _ hitem => (hitem.parses le_rfl).starts)
      (fun _ _ hitem hlength => hitem.parses hlength) hfuel
    obtain ⟨text, htext, hread⟩ :=
      readBracketed_append (.inr rfl) hlead htrail hitems hcount 123 rest
    rw [htext, readValue, if_neg (by decide), if_neg (by decide), if_pos rfl, hread]
    rfl

end Bracketed

/-- **A text is read** as the value it is written for. -/
theorem Writes.read {text : List UInt8} {value : Json} (h : Writes text value) :
    read text = some value := by
  have hskip := h.starts.skipSpace []
  have hread := (h.reads text.length le_rfl).reads [] nofun
  rw [List.append_nil] at hskip hread
  unfold Json.read
  rw [hskip, hread]
  rfl

/-! ### Scalars -/

theorem bytes_null : bytes "null" = [110, 117, 108, 108] := by decide

theorem bytes_true : bytes "true" = [116, 114, 117, 101] := by decide

theorem bytes_false : bytes "false" = [102, 97, 108, 115, 101] := by decide

/-- One of the three words. -/
theorem writes_literal {word : List UInt8} {value : Json} (hstarts : Starts word)
    (h : ∀ fuel rest, readValue (fuel + 1) (word ++ rest)
      = readLiteral word value (word ++ rest)) : Writes word value := by
  refine .of_reads hstarts fun fuel hfuel rest _ => ?_
  cases fuel with
  | zero =>
    obtain ⟨c, more, rfl, -⟩ := hstarts
    exact absurd hfuel (Nat.not_succ_le_zero _)
  | succ fuel =>
    rw [h]
    unfold readLiteral
    rw [if_pos (List.prefix_append word rest), List.drop_left]

theorem writes_null : Writes (bytes "null") .null := by
  rw [bytes_null]
  exact writes_literal ⟨110, _, rfl, by decide⟩ fun _ _ => by rw [← bytes_null]; rfl

theorem writes_bool (b : Bool) : Writes (bytes (if b then "true" else "false")) (.bool b) := by
  cases b with
  | true =>
    rw [if_pos rfl, bytes_true]
    exact writes_literal ⟨116, _, rfl, by decide⟩ fun _ _ => by rw [← bytes_true]; rfl
  | false =>
    rw [if_neg Bool.false_ne_true, bytes_false]
    exact writes_literal ⟨102, _, rfl, by decide⟩ fun _ _ => by rw [← bytes_false]; rfl

/-- What stands after a value does not continue a number. -/
theorem Ends.head_ne {rest : List UInt8} (h : Ends rest) (c : UInt8) (hc : isSpace c = false)
    (hne : c ≠ 44 ∧ c ≠ 93 ∧ c ≠ 125) : rest.head? ≠ some c := by
  intro hhead
  rcases h c hhead with heq | heq | heq | heq
  · exact hne.1 heq
  · exact hne.2.1 heq
  · exact hne.2.2 heq
  · rw [hc] at heq
    cases heq

theorem Ends.not_digit {rest : List UInt8} (h : Ends rest) {c : UInt8}
    (hc : rest.head? = some c) : isDigit c = false := by
  have hspace : ∀ d : UInt8, isSpace d = true → isDigit d = false := by
    intro d hd
    simp only [isSpace, Bool.or_eq_true, decide_eq_true_iff] at hd
    rcases hd with ((rfl | rfl) | rfl) | rfl <;> decide
  rcases h c hc with rfl | rfl | rfl | hd
  · decide
  · decide
  · decide
  · exact hspace c hd

/-- The digits of an integer, and what stands after it. -/
theorem readUnsigned_append {digits : List UInt8} (hdigits : ∀ d ∈ digits, isDigit d = true)
    (hne : digits ≠ []) (hzero : digits.head? = some 48 → digits.length = 1) (negative : Bool)
    {rest : List UInt8} (hrest : Ends rest) :
    readUnsigned negative (digits ++ rest)
      = some (.number (if negative then -(ofDigits digits : ℤ) else ofDigits digits) 0, rest) := by
  have htake : (digits ++ rest).takeWhile isDigit = digits := by
    rw [List.takeWhile_append_of_pos hdigits]
    cases rest with
    | nil => exact List.append_nil _
    | cons c rest =>
      rw [List.takeWhile_cons_of_neg (by simp [hrest.not_digit rfl]), List.append_nil]
  have hdrop : (digits ++ rest).dropWhile isDigit = rest := by
    rw [List.dropWhile_append_of_pos hdigits]
    cases rest with
    | nil => rfl
    | cons c rest => rw [List.dropWhile_cons_of_neg (by simp [hrest.not_digit rfl])]
  have hfraction : readFraction rest = some ([], rest) :=
    if_neg (hrest.head_ne 46 (by decide) (by decide))
  have hexponent : readExponent rest = some (0, rest) := by
    refine if_neg ?_
    rintro (h | h)
    · exact hrest.head_ne 101 (by decide) (by decide) h
    · exact hrest.head_ne 69 (by decide) (by decide) h
  have hvalid : (digits.isEmpty || (decide (digits.head? = some 48) &&
      decide (digits.length ≠ 1))) = false := by
    rw [List.isEmpty_eq_false_iff.mpr hne, Bool.false_or, Bool.and_eq_false_iff]
    by_cases hhead : digits.head? = some 48
    · exact .inr (decide_eq_false (not_not_intro (hzero hhead)))
    · exact .inl (decide_eq_false hhead)
  unfold readUnsigned
  rw [htake, hdrop]
  dsimp only
  rw [hvalid, if_neg Bool.false_ne_true, hfraction, Option.bind_some]
  dsimp only
  rw [hexponent, List.append_nil]
  rfl

/-- The first byte of a number. -/
def numberStart (c : UInt8) : Bool := isDigit c || c == 45

theorem starts_number {c : UInt8} (h : numberStart c = true) (rest : List UInt8) :
    Starts (c :: rest) ∧ ∀ fuel, readValue (fuel + 1) (c :: rest) = readNumber (c :: rest) := by
  have hne : ∀ d, numberStart d = false → c ≠ d := by
    rintro d hd rfl
    rw [h] at hd
    cases hd
  have hspace : isSpace c = false := by
    unfold isSpace
    simp only [hne 32 (by decide), hne 9 (by decide), hne 10 (by decide), hne 13 (by decide),
      decide_false, Bool.or_false]
  refine ⟨⟨c, rest, rfl, hspace, hne 93 (by decide), hne 125 (by decide)⟩, fun fuel => ?_⟩
  rw [readValue, if_neg (hne 34 (by decide)), if_neg (hne 91 (by decide)),
    if_neg (hne 123 (by decide)), if_neg (hne 110 (by decide)), if_neg (hne 116 (by decide)),
    if_neg (hne 102 (by decide))]

/-- **The text of an integer**: digits without a leading zero, and a sign. -/
theorem writes_integer {digits : List UInt8} (hdigits : ∀ d ∈ digits, isDigit d = true)
    (hne : digits ≠ []) (hzero : digits.head? = some 48 → digits.length = 1) (negative : Bool) :
    Writes (if negative then 45 :: digits else digits)
      (.number (if negative then -(ofDigits digits : ℤ) else ofDigits digits) 0) := by
  obtain ⟨d, more, rfl⟩ := List.exists_cons_of_ne_nil hne
  have hd : isDigit d = true := hdigits d List.mem_cons_self
  have hread := fun rest (hrest : Ends rest) =>
    readUnsigned_append hdigits hne hzero negative hrest
  cases negative with
  | true =>
    obtain ⟨hstarts, -⟩ := starts_number (c := 45) (by decide) (d :: more)
    refine .of_reads hstarts fun fuel hfuel rest hrest => ?_
    cases fuel with
    | zero => exact absurd hfuel (Nat.not_succ_le_zero _)
    | succ fuel =>
      rw [if_pos rfl, List.cons_append, (starts_number (c := 45) (by decide) _).2]
      exact (if_pos rfl).trans (hread rest hrest)
  | false =>
    have hstart : numberStart d = true := by
      unfold numberStart
      rw [hd, Bool.true_or]
    obtain ⟨hstarts, -⟩ := starts_number hstart more
    refine .of_reads hstarts fun fuel hfuel rest hrest => ?_
    cases fuel with
    | zero => exact absurd hfuel (Nat.not_succ_le_zero _)
    | succ fuel =>
      have hsign : ¬ (d :: more ++ rest).head? = some 45 := by
        rintro ⟨⟩
        exact absurd hd (by decide)
      rw [if_neg Bool.false_ne_true, List.cons_append, (starts_number hstart _).2]
      exact (if_neg hsign).trans (hread rest hrest)

/-! ### Strings of a writer -/

theorem ofBytes_bytes (text : String) : ofBytes (bytes text) = some text := by
  unfold ofBytes bytes String.fromUTF8?
  rw [Array.toArray_toList, dif_pos text.isValidUTF8]
  rfl

/-- The text of some bytes of a string. -/
def Unescapes (text chars : List UInt8) : Prop :=
  text ≠ [] ∧ ∀ fuel rest, readChars (fuel + 1) (text ++ rest)
    = (readChars fuel rest).map fun (more, rest) => (chars ++ more, rest)

theorem unescapes_self {c : UInt8} (hquote : c ≠ 34) (hbackslash : c ≠ 92) (hcontrol : ¬ c < 32) :
    Unescapes [c] [c] := by
  refine ⟨List.cons_ne_nil _ _, fun fuel rest => ?_⟩
  rw [List.cons_append, readChars, if_neg hquote, if_neg hbackslash, if_neg hcontrol]
  rfl

theorem unescapes_escape {text chars : List UInt8}
    (h : ∀ rest, readEscape (text ++ rest) = some (chars, rest)) :
    Unescapes (92 :: text) chars := by
  refine ⟨List.cons_ne_nil _ _, fun fuel rest => ?_⟩
  rw [List.cons_append, readChars, if_neg (by decide), if_pos rfl, h]
  rfl

/-- **The text of a string**: its bytes, each as itself or escaped. -/
theorem writesKey_of_unescapes {escape : UInt8 → List UInt8} (h : ∀ c, Unescapes (escape c) [c])
    (text : String) : WritesKey (34 :: ((bytes text).flatMap escape ++ [34])) text := by
  have hchars : ∀ chars : List UInt8, ∀ fuel, (chars.flatMap escape).length < fuel → ∀ rest,
      readChars fuel (chars.flatMap escape ++ 34 :: rest) = some (chars, rest) := by
    intro chars
    induction chars with
    | nil =>
      intro fuel hfuel rest
      obtain ⟨fuel, rfl⟩ := Nat.exists_eq_add_one_of_ne_zero (Nat.ne_zero_of_lt hfuel)
      rw [List.flatMap_nil, List.nil_append, readChars]
      exact if_pos rfl
    | cons c chars ih =>
      intro fuel hfuel rest
      obtain ⟨fuel, rfl⟩ := Nat.exists_eq_add_one_of_ne_zero (Nat.ne_zero_of_lt hfuel)
      have hpos := List.length_pos_of_ne_nil (h c).1
      rw [List.flatMap_cons, List.length_append] at hfuel
      rw [List.flatMap_cons, List.append_assoc, (h c).2, ih fuel (by omega)]
      rfl
  refine ⟨⟨_, rfl⟩, fun rest => ?_⟩
  simp only [List.cons_append, List.append_assoc, List.nil_append]
  rw [readString, if_pos rfl, hchars _ _ (by simp), Option.bind_some]
  dsimp only
  rw [ofBytes_bytes]
  rfl

/-! ### Texts without white space -/

/-- What remains of a text without its white space outside strings. -/
def Strips (text stripped : List UInt8) : Prop :=
  ∀ rest, stripSpace .outside (text ++ rest) = stripped ++ stripSpace .outside rest

/-- A part of a string. -/
def Stays (text : List UInt8) : Prop :=
  ∀ rest, stripSpace .inside (text ++ rest) = text ++ stripSpace .inside rest

theorem strips_nil : Strips [] [] := fun _ => rfl

theorem Strips.append {xs ys xs' ys' : List UInt8} (h : Strips xs xs') (h' : Strips ys ys') :
    Strips (xs ++ ys) (xs' ++ ys') := by
  intro rest
  rw [List.append_assoc, h, h', List.append_assoc]

theorem Stays.append {xs ys : List UInt8} (h : Stays xs) (h' : Stays ys) : Stays (xs ++ ys) := by
  intro rest
  rw [List.append_assoc, h, h', List.append_assoc]

theorem strips_spaces {spaces : List UInt8} (h : Spaces spaces) : Strips spaces [] := by
  induction spaces with
  | nil => exact strips_nil
  | cons c spaces ih =>
    intro rest
    have hspace := h c List.mem_cons_self
    have hquote : c ≠ 34 := by
      rintro rfl
      exact absurd hspace (by decide)
    rw [List.cons_append, stripSpace, if_neg hquote, if_pos hspace]
    exact ih (fun d hd => h d (List.mem_cons_of_mem _ hd)) rest

theorem strips_tokens {text : List UInt8} (h : ∀ c ∈ text, c ≠ 34 ∧ isSpace c = false) :
    Strips text text := by
  induction text with
  | nil => exact strips_nil
  | cons c text ih =>
    intro rest
    obtain ⟨hquote, hspace⟩ := h c List.mem_cons_self
    rw [List.cons_append, stripSpace, if_neg hquote, hspace, if_neg Bool.false_ne_true,
      ih (fun d hd => h d (List.mem_cons_of_mem _ hd))]
    rfl

theorem stays_self {c : UInt8} (hquote : c ≠ 34) (hbackslash : c ≠ 92) : Stays [c] := by
  intro rest
  rw [List.cons_append, stripSpace, if_neg hbackslash, if_neg hquote]
  rfl

theorem stays_escape (c : UInt8) : Stays [92, c] := fun _ => rfl

/-- **A string keeps its white space.** -/
theorem strips_string {escape : UInt8 → List UInt8} (h : ∀ c, Stays (escape c))
    (chars : List UInt8) :
    Strips (34 :: (chars.flatMap escape ++ [34])) (34 :: (chars.flatMap escape ++ [34])) := by
  have hchars : Stays (chars.flatMap escape) := by
    induction chars with
    | nil => exact fun _ => rfl
    | cons c chars ih => exact (h c).append ih
  intro rest
  have hquote : stripSpace .inside (34 :: rest) = 34 :: stripSpace .outside rest := rfl
  rw [List.cons_append, List.append_assoc, stripSpace, if_pos rfl, hchars, List.singleton_append,
    hquote]
  simp

/-- **A bracketed list loses its layout.** -/
theorem strips_bracketed {lead trail : List UInt8} (hlead : Spaces lead) (htrail : Spaces trail)
    {first last : UInt8} (hfirst : first ≠ 34 ∧ isSpace first = false)
    (hlast : last ≠ 34 ∧ isSpace last = false) {texts stripped : List (List UInt8)}
    (h : List.Forall₂ Strips texts stripped) :
    Strips (bracketed first last lead trail texts) (bracketed first last [] [] stripped) := by
  have htoken : ∀ c : UInt8, c ≠ 34 ∧ isSpace c = false → Strips [c] [c] := by
    intro c hc
    refine strips_tokens ?_
    rintro d hd
    rwa [List.mem_singleton.mp hd]
  cases h with
  | nil => exact (htoken first hfirst).append (htoken last hlast)
  | @cons text stripped texts rest hitem hitems =>
    have hrest : Strips (texts.flatMap fun t => 44 :: (lead ++ t))
        (rest.flatMap fun t => 44 :: ([] ++ t)) := by
      induction hitems with
      | nil => exact strips_nil
      | cons hitem _ ih =>
        exact ((htoken 44 (by decide)).append ((strips_spaces hlead).append hitem)).append ih
    exact (htoken first hfirst).append ((strips_spaces hlead).append (hitem.append
      (hrest.append ((strips_spaces htrail).append (htoken last hlast)))))

end Json

end Pegium

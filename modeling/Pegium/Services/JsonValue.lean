/-
Pegium/Services/JsonValue.lean

JSON values, and the writer of their texts.

A text is the list of its bytes, and each function of the writer gives what the source
appends.  A string is a Lean string, so its bytes are UTF-8; an object is the list of
its members in the order its hash map goes over them.  Floating-point numbers are left
out.

The writer of an array or an object is given what its elements append, each at the
indentation it is asked for; `append_json_value` is the recursion over the value.

Main result: `toJsonString_reads`, the text of a value is read back as the value in
every layout, and the layouts are the same text but for white space.
-/
import Pegium.General.Json

namespace Pegium

open Json

/-- A JSON value without floating-point numbers. -/
inductive JsonValue where
  | null
  | boolean (value : Bool)
  | integer (value : ℤ)
  | string (value : String)
  | array (values : List JsonValue)
  | object (members : List (String × JsonValue))

namespace JsonValue

/-- How the text is laid out. -/
structure SerializationOptions where
  pretty : Bool := true
  indentSize : ℕ := 2
  deriving DecidableEq

/-! ### The writer -/

/-- So many spaces. -/
def append_indent (count : ℕ) : List UInt8 := List.replicate count 32

/-- `0123456789ABCDEF`. -/
def hex : List UInt8 := [48, 49, 50, 51, 52, 53, 54, 55, 56, 57, 65, 66, 67, 68, 69, 70]

/-- The cases of `append_escaped_json_string`. -/
def escape (c : UInt8) : List UInt8 :=
  if c = 34 then [92, 34]
  else if c = 92 then [92, 92]
  else if c = 8 then [92, 98]
  else if c = 12 then [92, 102]
  else if c = 10 then [92, 110]
  else if c = 13 then [92, 114]
  else if c = 9 then [92, 116]
  else if c < 32 then
    [92, 117, 48, 48, hex.getD (c >>> 4).toNat 0, hex.getD (c &&& 15).toNat 0]
  else [c]

/-- The text in quotation marks, its special characters escaped. -/
def append_escaped_json_string (text : String) : List UInt8 :=
  34 :: ((bytes text).flatMap escape ++ [34])

/-- The decimal digits of a number. -/
def decimal (n : ℕ) : List UInt8 :=
  if n < 10 then [UInt8.ofNat (48 + n)] else decimal (n / 10) ++ [UInt8.ofNat (48 + n % 10)]

/-- `std::to_string`. -/
def to_string (value : ℤ) : List UInt8 :=
  if value < 0 then 45 :: decimal value.natAbs else decimal value.natAbs

/-- The loop over elements: a separator before each one but the first. -/
def separated (separator : List UInt8) : List (List UInt8) → List UInt8
  | [] => []
  | first :: rest => first ++ rest.flatMap fun text => separator ++ text

/-- An array, given how its values are written. -/
def append_json_array (options : SerializationOptions) (array : List (ℕ → List UInt8))
    (indent : ℕ) : List UInt8 :=
  if array.isEmpty then bytes "[]"
  else if !options.pretty then
    [91] ++ separated [44] (array.map fun append => append indent) ++ [93]
  else
    let childIndent := indent + options.indentSize
    bytes "[\n"
      ++ separated (bytes ",\n")
        (array.map fun append => append_indent childIndent ++ append childIndent)
      ++ [10] ++ append_indent indent ++ [93]

/-- The order of `std::string_view`: byte by byte. -/
def keyLe (key key' : String) : Bool := decide (bytes key ≤ bytes key')

/-- Every key is one of the object. -/
def find (object : List (String × (ℕ → List UInt8))) (key : String) : ℕ → List UInt8 :=
  (object.lookup key).getD fun _ => []

/-- An object, given how its values are written; the keys are sorted. -/
def append_json_object (options : SerializationOptions)
    (object : List (String × (ℕ → List UInt8))) (indent : ℕ) : List UInt8 :=
  if object.isEmpty then bytes "\x7b\x7d"
  else
    let keys := (object.map Prod.fst).mergeSort keyLe
    if !options.pretty then
      [123]
        ++ separated [44]
          (keys.map fun key => append_escaped_json_string key ++ [58] ++ find object key indent)
        ++ [125]
    else
      let childIndent := indent + options.indentSize
      bytes "\x7b\n"
        ++ separated (bytes ",\n")
          (keys.map fun key =>
            append_indent childIndent ++ append_escaped_json_string key ++ bytes ": "
              ++ find object key childIndent)
        ++ [10] ++ append_indent indent ++ [125]

mutual

/-- The text of a value at an indentation. -/
def append_json_value (options : SerializationOptions) : JsonValue → ℕ → List UInt8
  | .null => fun _ => bytes "null"
  | .boolean value => fun _ => bytes (if value then "true" else "false")
  | .integer value => fun _ => to_string value
  | .string value => fun _ => append_escaped_json_string value
  | .array values => append_json_array options (append_json_values options values)
  | .object members => append_json_object options (append_json_members options members)

/-- How the values of an array are written. -/
def append_json_values (options : SerializationOptions) : List JsonValue → List (ℕ → List UInt8)
  | [] => []
  | value :: values => append_json_value options value :: append_json_values options values

/-- How a member of an object is written. -/
def append_json_member (options : SerializationOptions) :
    String × JsonValue → String × (ℕ → List UInt8)
  | (key, value) => (key, append_json_value options value)

/-- How the members of an object are written. -/
def append_json_members (options : SerializationOptions) :
    List (String × JsonValue) → List (String × (ℕ → List UInt8))
  | [] => []
  | member :: members =>
    append_json_member options member :: append_json_members options members

end

/-- The text of a value. -/
def toJsonString (value : JsonValue) (options : SerializationOptions) : List UInt8 :=
  append_json_value options value 0

mutual

/-- The value, an object as a function from its keys. -/
def meaning : JsonValue → Meaning
  | .null => .null
  | .boolean value => .bool value
  | .integer value => .number value
  | .string value => .string value
  | .array values => .array (meanings values)
  | .object members => .object fun key => (meaningMembers members).lookup key

/-- What the values of an array stand for. -/
def meanings : List JsonValue → List Meaning
  | [] => []
  | value :: values => meaning value :: meanings values

/-- What a member of an object stands for. -/
def meaningMember : String × JsonValue → String × Meaning
  | (key, value) => (key, meaning value)

/-- What the members of an object stand for. -/
def meaningMembers : List (String × JsonValue) → List (String × Meaning)
  | [] => []
  | member :: members => meaningMember member :: meaningMembers members

end

/-! ### Strings -/

/-- The hexadecimal digits of a control character. -/
theorem hex_control : ∀ n < 32,
    hexValue (hex.getD (UInt8.ofNat n >>> 4).toNat 0) = some (n / 16) ∧
      hexValue (hex.getD (UInt8.ofNat n &&& 15).toNat 0) = some (n % 16) := by decide

theorem readEscape_control {n : ℕ} (hn : n < 32) (rest : List UInt8) :
    readEscape ([117, 48, 48, hex.getD (UInt8.ofNat n >>> 4).toNat 0,
      hex.getD (UInt8.ofNat n &&& 15).toNat 0] ++ rest) = some ([UInt8.ofNat n], rest) := by
  obtain ⟨hhigh, hlow⟩ := hex_control n hn
  have hzero : hexValue 48 = some 0 := by decide
  have hencode : ∀ n < 32, encode n = [UInt8.ofNat n] := by decide
  have hunit : readHex ([48, 48, hex.getD (UInt8.ofNat n >>> 4).toNat 0,
      hex.getD (UInt8.ofNat n &&& 15).toNat 0] ++ rest) = some (n, rest) := by
    simp only [List.cons_append, List.nil_append, readHex, hzero, hhigh, hlow]
    congr 2
    omega
  show readUnicode ([48, 48, hex.getD (UInt8.ofNat n >>> 4).toNat 0,
      hex.getD (UInt8.ofNat n &&& 15).toNat 0] ++ rest) = _
  unfold readUnicode
  rw [hunit]
  dsimp only
  rw [if_pos (.inl (by omega)), hencode n hn]

/-- The digits of such a byte end no string. -/
theorem stays_control {n : ℕ} (hn : n < 32) :
    Stays [92, 117, 48, 48, hex.getD (UInt8.ofNat n >>> 4).toNat 0,
      hex.getD (UInt8.ofNat n &&& 15).toNat 0] := by
  have hstays : ∀ d, hexValue d ≠ none → Stays [d] := by
    intro d hd
    refine stays_self ?_ ?_
    · rintro rfl
      exact hd (by decide)
    · rintro rfl
      exact hd (by decide)
  obtain ⟨hhigh, hlow⟩ := hex_control n hn
  have hzero : Stays [48] := hstays 48 (by decide)
  exact (stays_escape 117).append (hzero.append (hzero.append
    ((hstays _ (by rw [hhigh]; nofun)).append (hstays _ (by rw [hlow]; nofun)))))

theorem unescapes_escape_byte (c : UInt8) : Unescapes (escape c) [c] ∧ Stays (escape c) := by
  unfold escape
  split
  next h =>
    subst h
    exact ⟨unescapes_escape fun _ => rfl, stays_escape 34⟩
  next hquote =>
  split
  next h =>
    subst h
    exact ⟨unescapes_escape fun _ => rfl, stays_escape 92⟩
  next hbackslash =>
  split
  next h =>
    subst h
    exact ⟨unescapes_escape fun _ => rfl, stays_escape 98⟩
  split
  next h =>
    subst h
    exact ⟨unescapes_escape fun _ => rfl, stays_escape 102⟩
  split
  next h =>
    subst h
    exact ⟨unescapes_escape fun _ => rfl, stays_escape 110⟩
  split
  next h =>
    subst h
    exact ⟨unescapes_escape fun _ => rfl, stays_escape 114⟩
  split
  next h =>
    subst h
    exact ⟨unescapes_escape fun _ => rfl, stays_escape 116⟩
  split
  next hcontrol =>
    have hlt : c.toNat < 32 := UInt8.lt_iff_toNat_lt.mp hcontrol
    have hc : UInt8.ofNat c.toNat = c := UInt8.ofNat_toNat
    have hread := readEscape_control hlt
    have hstays := stays_control hlt
    rw [hc] at hread hstays
    exact ⟨unescapes_escape hread, hstays⟩
  next hcontrol => exact ⟨unescapes_self hquote hbackslash hcontrol, stays_self hquote hbackslash⟩

theorem writesKey_append (text : String) : WritesKey (append_escaped_json_string text) text :=
  writesKey_of_unescapes (fun c => (unescapes_escape_byte c).1) text

/-! ### Integers -/

theorem decimal_spec (n : ℕ) :
    (∀ d ∈ decimal n, isDigit d = true) ∧ decimal n ≠ [] ∧ ofDigits (decimal n) = n ∧
      ((decimal n).head? = some 48 → n = 0) := by
  have hdigit : ∀ n < 10, isDigit (UInt8.ofNat (48 + n)) = true ∧
      (UInt8.ofNat (48 + n)).toNat - 48 = n ∧ (UInt8.ofNat (48 + n) = 48 → n = 0) := by decide
  induction n using Nat.strong_induction_on with
  | _ n ih =>
    rw [decimal]
    split
    next hn =>
      obtain ⟨hd, hvalue, hzero⟩ := hdigit n hn
      refine ⟨?_, List.cons_ne_nil _ _, ?_, ?_⟩
      · intro d hmem
        rwa [List.mem_singleton.mp hmem]
      · show 10 * 0 + ((UInt8.ofNat (48 + n)).toNat - 48) = n
        omega
      · exact fun hhead => hzero (Option.some.inj hhead)
    next hn =>
      obtain ⟨hdigits, hne, hof, hhead⟩ := ih (n / 10) (by omega)
      obtain ⟨hd, hvalue, -⟩ := hdigit (n % 10) (by omega)
      refine ⟨?_, List.append_ne_nil_of_left_ne_nil hne _, ?_, ?_⟩
      · intro d hmem
        rcases List.mem_append.mp hmem with hmem | hmem
        · exact hdigits d hmem
        · rwa [List.mem_singleton.mp hmem]
      · unfold ofDigits at hof ⊢
        rw [List.foldl_append, hof]
        show 10 * (n / 10) + ((UInt8.ofNat (48 + n % 10)).toNat - 48) = n
        omega
      · rw [List.head?_append_of_ne_nil _ hne]
        intro h
        have := hhead h
        omega

theorem writes_to_string (value : ℤ) : Writes (to_string value) (.number value 0) := by
  obtain ⟨hdigits, hne, hof, hzero⟩ := decimal_spec value.natAbs
  have hlength : (decimal value.natAbs).head? = some 48 → (decimal value.natAbs).length = 1 := by
    intro hhead
    rw [hzero hhead, decimal]
    rfl
  have hwrites := writes_integer hdigits hne hlength (decide (value < 0))
  rw [hof] at hwrites
  unfold to_string
  by_cases hneg : value < 0
  · rw [decide_eq_true hneg, if_pos rfl, if_pos rfl] at hwrites
    have hvalue : -(value.natAbs : ℤ) = value := by omega
    rw [hvalue] at hwrites
    rwa [if_pos hneg]
  · rw [decide_eq_false hneg, if_neg Bool.false_ne_true, if_neg Bool.false_ne_true] at hwrites
    have hvalue : (value.natAbs : ℤ) = value := by omega
    rw [hvalue] at hwrites
    rwa [if_neg hneg]

/-- An integer is one token. -/
theorem strips_to_string (value : ℤ) : Strips (to_string value) (to_string value) := by
  have hdigit : ∀ d, isDigit d = true → d ≠ 34 ∧ isSpace d = false := by
    intro d hd
    have hne : ∀ c, isDigit c = false → d ≠ c := by
      rintro c hc rfl
      rw [hd] at hc
      cases hc
    refine ⟨hne 34 (by decide), ?_⟩
    unfold isSpace
    simp only [hne 32 (by decide), hne 9 (by decide), hne 10 (by decide), hne 13 (by decide),
      decide_false, Bool.or_false]
  have hdigits := (decimal_spec value.natAbs).1
  refine strips_tokens fun c hc => ?_
  unfold to_string at hc
  split at hc
  · rcases List.mem_cons.mp hc with rfl | hc
    · decide
    · exact hdigit c (hdigits c hc)
  · exact hdigit c (hdigits c hc)

/-! ### Arrays and objects -/

/-- The white space before an element. -/
def lead (options : SerializationOptions) (indent : ℕ) : List UInt8 :=
  if options.pretty then 10 :: append_indent (indent + options.indentSize) else []

/-- The white space before the closing bracket. -/
def trail (options : SerializationOptions) (indent : ℕ) : List UInt8 :=
  if options.pretty then 10 :: append_indent indent else []

/-- The white space after a colon. -/
def gap (options : SerializationOptions) : List UInt8 := if options.pretty then [32] else []

/-- The indentation of what stands inside a value. -/
def childIndent (options : SerializationOptions) (indent : ℕ) : ℕ :=
  if options.pretty then indent + options.indentSize else indent

section Layout

variable (options : SerializationOptions) (indent : ℕ)

theorem spaces_append_indent (count : ℕ) : Spaces (append_indent count) := by
  intro c hc
  rw [List.eq_of_mem_replicate hc]
  rfl

theorem spaces_layout :
    Spaces (lead options indent) ∧ Spaces (trail options indent) ∧ Spaces (gap options) := by
  have hline : ∀ count, Spaces (10 :: append_indent count) := by
    intro count c hc
    rcases List.mem_cons.mp hc with rfl | hc
    · rfl
    · exact spaces_append_indent count c hc
  unfold lead trail gap
  split
  · refine ⟨hline _, hline _, ?_⟩
    intro c hc
    rw [List.mem_singleton.mp hc]
    rfl
  · exact ⟨nofun, nofun, nofun⟩

/-- The text of a member. -/
def memberText (object : List (String × (ℕ → List UInt8))) (key : String) : List UInt8 :=
  append_escaped_json_string key
    ++ 58 :: (gap options ++ find object key (childIndent options indent))

/-- A loop over elements, with the brackets and white space around it. -/
theorem bracketed_eq (first last : UInt8) (lead trail : List UInt8) {texts : List (List UInt8)}
    (h : texts ≠ []) :
    bracketed first last lead trail texts
      = first :: (lead ++ (separated (44 :: lead) texts ++ (trail ++ [last]))) := by
  obtain ⟨text, rest, rfl⟩ := List.exists_cons_of_ne_nil h
  simp [bracketed, separated]

/-- White space after a separator, or before the elements. -/
theorem separated_lead (separator spaces : List UInt8) {texts : List (List UInt8)}
    (h : texts ≠ []) :
    separated separator (texts.map fun text => spaces ++ text)
      = spaces ++ separated (separator ++ spaces) texts := by
  obtain ⟨text, rest, rfl⟩ := List.exists_cons_of_ne_nil h
  simp [separated, List.flatMap_map]

theorem append_json_array_eq (array : List (ℕ → List UInt8)) :
    append_json_array options array indent
      = bracketed 91 93 (lead options indent) (trail options indent)
          (array.map fun append => append (childIndent options indent)) := by
  have hempty : bytes "[]" = [91, 93] := by decide
  have hopen : bytes "[\n" = [91, 10] := by decide
  have hcomma : bytes ",\n" = [44, 10] := by decide
  unfold append_json_array
  rcases eq_or_ne array [] with rfl | hne
  · exact hempty
  · have htexts : ∀ child, (array.map fun append => append child) ≠ [] := by
      intro child h
      exact hne (List.map_eq_nil_iff.mp h)
    rw [if_neg (by simpa using hne), bracketed_eq _ _ _ _ (htexts _)]
    unfold lead trail childIndent
    cases options.pretty with
    | false => simp
    | true =>
      have hseparated := separated_lead [44, 10]
        (append_indent (indent + options.indentSize)) (htexts (indent + options.indentSize))
      rw [List.map_map] at hseparated
      simp only [Function.comp_def] at hseparated
      simp [hopen, hcomma, hseparated]

theorem append_json_object_eq (object : List (String × (ℕ → List UInt8))) :
    append_json_object options object indent
      = bracketed 123 125 (lead options indent) (trail options indent)
          (((object.map Prod.fst).mergeSort keyLe).map (memberText options indent object)) := by
  have hempty : bytes "\x7b\x7d" = [123, 125] := by decide
  have hopen : bytes "\x7b\n" = [123, 10] := by decide
  have hcomma : bytes ",\n" = [44, 10] := by decide
  have hcolon : bytes ": " = [58, 32] := by decide
  unfold append_json_object
  rcases eq_or_ne object [] with rfl | hne
  · rw [List.map_nil, List.mergeSort_nil]
    exact hempty
  · have hkeys : (object.map Prod.fst).mergeSort keyLe ≠ [] := by
      intro h
      have hlength := (List.mergeSort_perm (object.map Prod.fst) keyLe).length_eq
      rw [h, List.length_map] at hlength
      exact hne (List.eq_nil_of_length_eq_zero hlength.symm)
    have htexts : ∀ text : String → List UInt8,
        ((object.map Prod.fst).mergeSort keyLe).map text ≠ [] := by
      intro text h
      exact hkeys (List.map_eq_nil_iff.mp h)
    rw [if_neg (by simpa using hne), bracketed_eq _ _ _ _ (htexts _)]
    generalize (object.map Prod.fst).mergeSort keyLe = keys at *
    unfold memberText lead trail gap childIndent
    cases options.pretty with
    | false => simp
    | true =>
      have hseparated := separated_lead [44, 10] (append_indent (indent + options.indentSize))
        (htexts fun key => append_escaped_json_string key
          ++ 58 :: 32 :: find object key (indent + options.indentSize))
      rw [List.map_map] at hseparated
      simp only [Function.comp_def] at hseparated
      simp [hopen, hcomma, hcolon, hseparated]

end Layout

/-! ### The recursion -/

theorem meaningElements_eq (values : List Json) :
    meaningElements values = values.map Json.meaning := by
  induction values with
  | nil => rfl
  | cons value values ih => rw [meaningElements, ih, List.map_cons]

theorem meaningMembers_eq (members : List (String × Json)) :
    Json.meaningMembers members = members.map fun member => (member.1, member.2.meaning) := by
  induction members with
  | nil => rfl
  | cons member members ih =>
    obtain ⟨key, value⟩ := member
    rw [Json.meaningMembers, ih, List.map_cons]
    rfl

/-- What is appended is the text of a value with a meaning. -/
def Denotes (append : ℕ → List UInt8) (m : Meaning) : Prop :=
  ∀ indent, ∃ value : Json, value.meaning = m ∧ Writes (append indent) value

/-- The keys agree, and what is appended is the text of a value with a meaning. -/
def DenotesMember (member : String × (ℕ → List UInt8)) (m : String × Meaning) : Prop :=
  member.1 = m.1 ∧ Denotes member.2 m.2

theorem denotes_array (options : SerializationOptions) {array : List (ℕ → List UInt8)}
    {ms : List Meaning} (h : List.Forall₂ Denotes array ms) :
    Denotes (append_json_array options array) (.array ms) := by
  intro indent
  obtain ⟨hlead, htrail, -⟩ := spaces_layout options indent
  have hvalues : ∀ child, ∃ values : List Json, values.map Json.meaning = ms ∧
      List.Forall₂ Writes (array.map fun append => append child) values := by
    intro child
    induction h with
    | nil => exact ⟨[], rfl, .nil⟩
    | cons hitem _ ih =>
      obtain ⟨value, rfl, hvalue⟩ := hitem child
      obtain ⟨values, rfl, hvalues⟩ := ih
      exact ⟨value :: values, rfl, .cons hvalue hvalues⟩
  obtain ⟨values, rfl, hwrites⟩ := hvalues (childIndent options indent)
  refine ⟨.array values, ?_, ?_⟩
  · rw [Json.meaning, meaningElements_eq]
  · rw [append_json_array_eq]
    exact writes_array hlead htrail hwrites

/-- The members of two related objects under one key. -/
theorem lookup_related {α β : Type} {R : α → β → Prop} {xs : List (String × α)}
    {ys : List (String × β)}
    (h : List.Forall₂ (fun x y => x.1 = y.1 ∧ R x.2 y.2) xs ys) (key : String) :
    (key ∉ xs.map Prod.fst ∧ ys.lookup key = none) ∨
      (key ∈ xs.map Prod.fst ∧
        ∃ x y, xs.lookup key = some x ∧ ys.lookup key = some y ∧ R x y) := by
  induction h with
  | nil => exact .inl ⟨List.not_mem_nil, rfl⟩
  | @cons x y xs ys hxy _ ih =>
    obtain ⟨key', x⟩ := x
    obtain ⟨key'', y⟩ := y
    obtain ⟨rfl, hrelated⟩ : key' = key'' ∧ R x y := hxy
    rcases eq_or_ne key key' with rfl | hne
    · exact .inr ⟨List.mem_cons_self, x, y, List.lookup_cons_self, List.lookup_cons_self, hrelated⟩
    · have hkey : (key == key') = false := beq_false_of_ne hne
      rw [List.lookup_cons, List.lookup_cons, hkey]
      rcases ih with ⟨hnot, hnone⟩ | ⟨hmem, hboth⟩
      · exact .inl ⟨by simpa [hne] using hnot, hnone⟩
      · exact .inr ⟨List.mem_cons_of_mem _ hmem, hboth⟩

/-- A list of members that agrees with a function on its keys. -/
theorem lookup_members {members : List (String × Json)} {f : String → Option Meaning}
    (h : ∀ member ∈ members, f member.1 = some member.2.meaning) (key : String)
    (hnone : key ∉ members.map Prod.fst → f key = none) :
    (members.map fun member => (member.1, member.2.meaning)).lookup key = f key := by
  induction members with
  | nil => exact (hnone List.not_mem_nil).symm
  | cons member members ih =>
    rw [List.forall_mem_cons] at h
    rw [List.map_cons, List.lookup_cons]
    rcases eq_or_ne key member.1 with rfl | hne
    · rw [beq_self_eq_true, h.1]
    · rw [beq_false_of_ne hne]
      exact ih h.2 fun hnot => hnone (by simpa [hne] using hnot)

theorem denotes_object (options : SerializationOptions)
    {object : List (String × (ℕ → List UInt8))} {ms : List (String × Meaning)}
    (h : List.Forall₂ DenotesMember object ms) :
    Denotes (append_json_object options object) (.object fun key => ms.lookup key) := by
  intro indent
  obtain ⟨hlead, htrail, hgap⟩ := spaces_layout options indent
  have hvalues : ∀ keys : List String, (∀ key ∈ keys, key ∈ object.map Prod.fst) →
      ∃ members : List (String × Json), members.map Prod.fst = keys ∧
        (∀ member ∈ members, ms.lookup member.1 = some member.2.meaning) ∧
          List.Forall₂ WritesMember (keys.map (memberText options indent object)) members := by
    intro keys
    induction keys with
    | nil => exact fun _ => ⟨[], rfl, nofun, .nil⟩
    | cons key keys ih =>
      intro hkeys
      rw [List.forall_mem_cons] at hkeys
      obtain ⟨members, rfl, hlookup, hwrites⟩ := ih hkeys.2
      rcases lookup_related h key with ⟨hnot, -⟩ | ⟨-, append, m, hfind, hmeaning, hdenotes⟩
      · exact absurd hkeys.1 hnot
      · obtain ⟨value, rfl, hvalue⟩ := hdenotes (childIndent options indent)
        refine ⟨(key, value) :: members, rfl, ?_, .cons ?_ hwrites⟩
        · rw [List.forall_mem_cons]
          exact ⟨hmeaning, hlookup⟩
        · refine ⟨_, gap options, _, rfl, hgap, writesKey_append key, ?_⟩
          unfold find
          rw [hfind]
          exact hvalue
  have hperm := List.mergeSort_perm (object.map Prod.fst) keyLe
  obtain ⟨members, hkeys, hlookup, hwrites⟩ := hvalues _ fun key hkey => hperm.mem_iff.mp hkey
  refine ⟨.object members, ?_, ?_⟩
  · rw [Json.meaning, meaningMembers_eq]
    congr 1
    funext key
    refine @lookup_members members (fun key => ms.lookup key) hlookup key fun hnot => ?_
    rcases lookup_related h key with ⟨-, hnone⟩ | ⟨hmem, -⟩
    · exact hnone
    · rw [hkeys, hperm.mem_iff] at hnot
      exact absurd hmem hnot
  · rw [append_json_object_eq]
    exact writes_object hlead htrail hwrites

/-- What is appended is, without white space, what the compact layout appends. -/
def Compacts (append compact : ℕ → List UInt8) : Prop :=
  ∀ indent, Strips (append indent) (compact 0)

/-- The compact layout. -/
def compact : SerializationOptions where
  pretty := false

theorem compacts_array (options : SerializationOptions) {array array' : List (ℕ → List UInt8)}
    (h : List.Forall₂ Compacts array array') :
    Compacts (append_json_array options array) (append_json_array compact array') := by
  intro indent
  obtain ⟨hlead, htrail, -⟩ := spaces_layout options indent
  rw [append_json_array_eq, append_json_array_eq]
  refine strips_bracketed hlead htrail (by decide) (by decide) ?_
  rw [List.forall₂_map_left_iff, List.forall₂_map_right_iff]
  exact h.imp fun _ _ hitem => hitem _

theorem compacts_object (options : SerializationOptions)
    {object object' : List (String × (ℕ → List UInt8))}
    (h : List.Forall₂ (fun member member' => member.1 = member'.1 ∧
      Compacts member.2 member'.2) object object') :
    Compacts (append_json_object options object) (append_json_object compact object') := by
  intro indent
  obtain ⟨hlead, htrail, hgap⟩ := spaces_layout options indent
  have hkeys : object.map Prod.fst = object'.map Prod.fst := by
    clear hlead htrail hgap
    induction h with
    | nil => rfl
    | cons hmember _ ih => rw [List.map_cons, List.map_cons, hmember.1, ih]
  have hmember : ∀ key ∈ object'.map Prod.fst, Strips (memberText options indent object key)
      (memberText compact 0 object' key) := by
    intro key hkey
    rw [← hkeys] at hkey
    have hvalue : Strips (find object key (childIndent options indent)) (find object' key 0) := by
      unfold find
      rcases lookup_related h key with ⟨hnot, -⟩ | ⟨-, append, append', hfind, hfind', hitem⟩
      · exact absurd hkey hnot
      · rw [hfind, hfind']
        exact hitem _
    have hcolon : Strips [58] [58] := strips_tokens (by decide +kernel)
    exact (strips_string (fun c => (unescapes_escape_byte c).2) _).append
      (hcolon.append ((strips_spaces hgap).append hvalue))
  rw [append_json_object_eq, append_json_object_eq, hkeys]
  refine strips_bracketed hlead htrail (by decide) (by decide) ?_
  rw [List.forall₂_map_left_iff, List.forall₂_map_right_iff, List.forall₂_same]
  exact fun key hkey => hmember key ((List.mergeSort_perm _ keyLe).mem_iff.mp hkey)

mutual

/-- **The text of a value**, by recursion over the value. -/
theorem denotes (options : SerializationOptions) (value : JsonValue) :
    Denotes (append_json_value options value) value.meaning := by
  match value with
  | .null => exact fun _ => ⟨.null, rfl, writes_null⟩
  | .boolean value => exact fun _ => ⟨.bool value, rfl, writes_bool value⟩
  | .integer value =>
    refine fun _ => ⟨.number value 0, ?_, writes_to_string value⟩
    rw [Json.meaning, meaning, zpow_zero, mul_one]
  | .string value => exact fun _ => ⟨.string value, rfl, (writesKey_append value).writes⟩
  | .array values =>
    rw [append_json_value, meaning]
    exact denotes_array options (denotes_values options values)
  | .object members =>
    rw [append_json_value, meaning]
    exact denotes_object options (denotes_members options members)

theorem denotes_values (options : SerializationOptions) (values : List JsonValue) :
    List.Forall₂ Denotes (append_json_values options values) (meanings values) := by
  match values with
  | [] => exact .nil
  | value :: values => exact .cons (denotes options value) (denotes_values options values)

theorem denotes_member (options : SerializationOptions) (member : String × JsonValue) :
    DenotesMember (append_json_member options member) (meaningMember member) := by
  match member with
  | (key, value) => exact ⟨rfl, denotes options value⟩

theorem denotes_members (options : SerializationOptions) (members : List (String × JsonValue)) :
    List.Forall₂ DenotesMember (append_json_members options members) (meaningMembers members) := by
  match members with
  | [] => exact .nil
  | member :: members =>
    exact .cons (denotes_member options member) (denotes_members options members)

end

mutual

/-- **The layouts of a value**, by recursion over the value. -/
theorem compacts (options : SerializationOptions) (value : JsonValue) :
    Compacts (append_json_value options value) (append_json_value compact value) := by
  match value with
  | .null =>
    have hnull : ∀ c ∈ bytes "null", c ≠ 34 ∧ isSpace c = false := by
      rw [bytes_null]
      decide +kernel
    exact fun _ => strips_tokens hnull
  | .boolean value =>
    have hword : ∀ c ∈ bytes (if value then "true" else "false"), c ≠ 34 ∧ isSpace c = false := by
      cases value with
      | true => rw [if_pos rfl, bytes_true]; decide +kernel
      | false => rw [if_neg Bool.false_ne_true, bytes_false]; decide +kernel
    exact fun _ => strips_tokens hword
  | .integer value => exact fun _ => strips_to_string value
  | .string value => exact fun _ => strips_string (fun c => (unescapes_escape_byte c).2) _
  | .array values =>
    rw [append_json_value, append_json_value]
    exact compacts_array options (compacts_values options values)
  | .object members =>
    rw [append_json_value, append_json_value]
    exact compacts_object options (compacts_members options members)

theorem compacts_values (options : SerializationOptions) (values : List JsonValue) :
    List.Forall₂ Compacts (append_json_values options values)
      (append_json_values compact values) := by
  match values with
  | [] => exact .nil
  | value :: values => exact .cons (compacts options value) (compacts_values options values)

theorem compacts_member (options : SerializationOptions) (member : String × JsonValue) :
    (append_json_member options member).1 = (append_json_member compact member).1 ∧
      Compacts (append_json_member options member).2 (append_json_member compact member).2 := by
  match member with
  | (key, value) => exact ⟨rfl, compacts options value⟩

theorem compacts_members (options : SerializationOptions) (members : List (String × JsonValue)) :
    List.Forall₂ (fun member member' => member.1 = member'.1 ∧ Compacts member.2 member'.2)
      (append_json_members options members) (append_json_members compact members) := by
  match members with
  | [] => exact .nil
  | member :: members =>
    exact .cons (compacts_member options member) (compacts_members options members)

end

/-- **JSON output is read back**: in every layout the text of a value is a JSON text that
means the value, and without its white space outside strings it is the text of the compact
layout. -/
theorem toJsonString_reads (value : JsonValue) (options : SerializationOptions) :
    (Json.read (value.toJsonString options)).map Json.meaning = some value.meaning ∧
      stripSpace .outside (value.toJsonString options) = value.toJsonString compact := by
  constructor
  · obtain ⟨json, hmeaning, hwrites⟩ := denotes options value 0
    have hread : Json.read (value.toJsonString options) = some json := hwrites.read
    rw [hread, ← hmeaning]
    rfl
  · have hstrips := compacts options value 0 []
    rwa [List.append_nil, stripSpace, List.append_nil] at hstrips

end JsonValue

end Pegium

/-
Pegium/Workspace/UriUtils.lean

URIs: normalization, and the segments a trie files them under.

A URI is the list of its bytes.  Only `file:` URIs without a foreign authority are
changed by `normalize_uri`: their path is decoded, made absolute, freed of dots and
encoded again.  Doing it twice is doing it once (`normalize_uri_idempotent`), since
decoding undoes encoding and a path freed of dots has none.

`splitSegments` cuts a URI at its slashes and forgets one slash at the end, so two URIs
with the same segments agree up to that slash
(`eq_or_slash_of_splitSegments_eq`).
-/
import Mathlib.Data.List.Basic
import Pegium.Parser.TextUtils

namespace Pegium

/-- The bytes of a URI. -/
abbrev Uri := List UInt8

/-- `/`. -/
def slash : UInt8 := 47

/-! ### Percent encoding -/

/-- A character that is never escaped. -/
def is_unreserved (c : UInt8) : Bool :=
  isLetter c || (48 ≤ c && c ≤ 57) || c == 45 || c == 95 || c == 46 || c == 126 || c == slash ||
    c == 58

/-- The hexadecimal digit of a value. -/
def to_hex (value : ℕ) : UInt8 :=
  UInt8.ofNat (if value < 10 then 48 + value else 65 + (value - 10))

/-- The escape of a reserved byte. -/
def percent_escape (c : UInt8) : List UInt8 := [37, to_hex (c.toNat / 16), to_hex (c.toNat % 16)]

/-- Escape every character that is not unreserved. -/
def percent_encode (text : List UInt8) : List UInt8 :=
  if text.all is_unreserved then text
  else text.flatMap fun c => if is_unreserved c then [c] else percent_escape c

/-- `none` stands for -1. -/
def from_hex (c : UInt8) : Option ℕ :=
  let lower := tolower c
  if 48 ≤ lower ∧ lower ≤ 57 then some (lower.toNat - 48)
  else if 97 ≤ lower ∧ lower ≤ 102 then some (10 + (lower.toNat - 97))
  else none

/-- `decode_percent_escape` at the front of the text. -/
def decode_percent_escape : List UInt8 → Option UInt8
  | c :: high :: low :: _ =>
    if c ≠ 37 then none
    else
      match from_hex high, from_hex low with
      | some high, some low => some (UInt8.ofNat (high * 16 + low))
      | _, _ => none
  | _ => none

/-- Undo the escapes; what is none stays. -/
def percent_decode : List UInt8 → List UInt8
  | [] => []
  | c :: rest =>
    match decode_percent_escape (c :: rest) with
    | some decodedByte => decodedByte :: percent_decode (rest.drop 2)
    | none => c :: percent_decode rest
  termination_by text => text.length
  decreasing_by
    · show (rest.drop 2).length < rest.length + 1
      rw [List.length_drop]
      omega
    · exact Nat.lt_succ_self _

theorem from_hex_to_hex {value : ℕ} (h : value < 16) : from_hex (to_hex value) = some value := by
  revert value
  decide

theorem percent_decode_escape (c : UInt8) (rest : List UInt8) :
    percent_decode (percent_escape c ++ rest) = c :: percent_decode rest := by
  have hc : c.toNat < 256 := c.toNat_lt
  have hescape : decode_percent_escape (percent_escape c ++ rest) = some c := by
    show (if (37 : UInt8) ≠ 37 then none else _) = _
    rw [if_neg (not_not_intro rfl), from_hex_to_hex (by omega), from_hex_to_hex (by omega)]
    show some (UInt8.ofNat (c.toNat / 16 * 16 + c.toNat % 16)) = _
    rw [Nat.div_add_mod', UInt8.ofNat_toNat]
  show percent_decode (37 :: ([to_hex (c.toNat / 16), to_hex (c.toNat % 16)] ++ rest)) = _
  rw [percent_decode]
  rw [show (37 :: ([to_hex (c.toNat / 16), to_hex (c.toNat % 16)] ++ rest))
    = percent_escape c ++ rest from rfl, hescape]
  rfl

theorem percent_decode_unreserved {c : UInt8} (h : is_unreserved c = true) (rest : List UInt8) :
    percent_decode (c :: rest) = c :: percent_decode rest := by
  have hc : c ≠ 37 := by
    rintro rfl
    exact absurd h (by decide)
  have hescape : decode_percent_escape (c :: rest) = none := by
    unfold decode_percent_escape
    split
    · rename_i heq
      cases heq
      rw [if_pos hc]
    · rfl
  rw [percent_decode, hescape]

/-- The fast path gives what the loop gives. -/
theorem percent_encode_eq (text : List UInt8) :
    percent_encode text
      = text.flatMap fun c => if is_unreserved c then [c] else percent_escape c := by
  unfold percent_encode
  split_ifs with hall
  · symm
    calc text.flatMap (fun c => if is_unreserved c then [c] else percent_escape c)
        = text.flatMap fun c => [c] := by
          refine List.flatMap_congr fun c hc => if_pos ?_
          exact List.all_eq_true.mp hall c hc
      _ = text := List.flatMap_singleton' text
  · rfl

/-- **Decoding undoes encoding.** -/
theorem percent_decode_encode (text : List UInt8) :
    percent_decode (percent_encode text) = text := by
  rw [percent_encode_eq]
  induction text with
  | nil => rw [List.flatMap_nil, percent_decode]
  | cons c text ih =>
    rw [List.flatMap_cons]
    by_cases hc : is_unreserved c = true
    · rw [if_pos hc, List.singleton_append, percent_decode_unreserved hc, ih]
    · rw [if_neg hc, percent_decode_escape, ih]

/-! ### Paths -/

/-- What `std::filesystem` knows: the current path, and whether the empty path has no
absolute form. -/
structure FileSystem where
  currentPath : List UInt8
  emptyThrows : Bool
  rooted : currentPath.head? = some slash

/-- One file name after another: an empty one and a dot change nothing, a dot-dot takes
the name before it away. -/
def pushName (names : List (List UInt8)) (name : List UInt8) : List (List UInt8) :=
  if name = [] ∨ name = [46] then names
  else if name = [46, 46] then names.dropLast
  else names ++ [name]

/-- The file names of a path freed of dots. -/
def normalNames (path : List UInt8) : List (List UInt8) :=
  (path.splitOn slash).foldl pushName []

/-- `path::lexically_normal` of a rooted path.  A slash stays at the end of the root, and
of a path that ended in a slash, a dot or a dot-dot. -/
def lexically_normal (path : List UInt8) : List UInt8 :=
  let names := normalNames path
  let last := (path.splitOn slash).getLast?.getD []
  [slash].intercalate ([] :: names ++
    if names = [] ∨ last = [] ∨ last = [46] ∨ last = [46, 46] then [[]] else [])

/-- A file name that stays in a path freed of dots. -/
def ProperName (name : List UInt8) : Prop :=
  name ≠ [] ∧ name ≠ [46] ∧ name ≠ [46, 46] ∧ slash ∉ name

theorem pushName_of_proper {names : List (List UInt8)} {name : List UInt8} (h : ProperName name) :
    pushName names name = names ++ [name] := by
  rw [pushName, if_neg (not_or.mpr ⟨h.1, h.2.1⟩), if_neg h.2.2.1]

theorem foldl_pushName_of_proper {names : List (List UInt8)} (h : ∀ name ∈ names, ProperName name)
    (init : List (List UInt8)) : names.foldl pushName init = init ++ names := by
  induction names generalizing init with
  | nil => rw [List.foldl_nil, List.append_nil]
  | cons name names ih =>
    rw [List.foldl_cons, pushName_of_proper (h name List.mem_cons_self),
      ih fun name' hname' => h name' (List.mem_cons_of_mem _ hname'), List.append_assoc,
      List.singleton_append]

theorem proper_of_mem_foldl {raw init : List (List UInt8)} (hraw : ∀ name ∈ raw, slash ∉ name)
    (hinit : ∀ name ∈ init, ProperName name) :
    ∀ name ∈ raw.foldl pushName init, ProperName name := by
  induction raw generalizing init with
  | nil => exact hinit
  | cons name raw ih =>
    refine ih (fun name' hname' => hraw name' (List.mem_cons_of_mem _ hname')) ?_
    unfold pushName
    split_ifs with h1 h2
    · exact hinit
    · exact fun name' hname' => hinit name' ((List.dropLast_sublist _).subset hname')
    · intro name' hname'
      rcases List.mem_append.mp hname' with hname' | hname'
      · exact hinit name' hname'
      · rw [List.mem_singleton.mp hname']
        obtain ⟨h3, h4⟩ := not_or.mp h1
        exact ⟨h3, h4, h2, hraw name List.mem_cons_self⟩

theorem not_mem_of_mem_splitOn (path : List UInt8) : ∀ name ∈ path.splitOn slash, slash ∉ name := by
  induction path with
  | nil =>
    intro name hname
    rw [List.splitOn_nil, List.mem_singleton] at hname
    rw [hname]
    exact List.not_mem_nil
  | cons c path ih =>
    intro name hname
    rw [List.splitOn_cons_eq_if_modifyHead] at hname
    split_ifs at hname with hc
    · rcases List.mem_cons.mp hname with rfl | hname
      · exact List.not_mem_nil
      · exact ih name hname
    · cases hsplit : path.splitOn slash with
      | nil => exact absurd hsplit (List.splitOn_ne_nil _ _)
      | cons first names =>
        rw [hsplit, List.modifyHead_cons, List.mem_cons] at hname
        rw [hsplit] at ih
        rcases hname with rfl | hname
        · rintro (hmem | ⟨_, hmem⟩)
          · exact hc (beq_self_eq_true _)
          · exact ih first List.mem_cons_self hmem
        · exact ih name (List.mem_cons_of_mem _ hname)

theorem proper_of_mem_normalNames {path name : List UInt8} (h : name ∈ normalNames path) :
    ProperName name :=
  proper_of_mem_foldl (not_mem_of_mem_splitOn path)
    (fun _ h => absurd h List.not_mem_nil) name h

section Intercalate

variable {names tail : List (List UInt8)} (hnames : ∀ name ∈ names, ProperName name)
  (htail : tail = [[]] ∨ tail = [] ∧ names ≠ [])
include hnames htail

theorem splitOn_intercalate_names :
    ([slash].intercalate ([] :: names ++ tail)).splitOn slash = [] :: names ++ tail := by
  apply List.splitOn_intercalate
  · intro name hname
    rcases List.mem_append.mp hname with hname | hname
    · rcases List.mem_cons.mp hname with rfl | hname
      · exact List.not_mem_nil
      · exact (hnames name hname).2.2.2
    · rcases htail with rfl | ⟨rfl, _⟩
      · rw [List.mem_singleton.mp hname]
        exact List.not_mem_nil
      · cases hname
  · exact List.cons_ne_nil _ _

/-- Proper names are the names of the path they make. -/
theorem normalNames_intercalate :
    normalNames ([slash].intercalate ([] :: names ++ tail)) = names := by
  unfold normalNames
  rw [splitOn_intercalate_names hnames htail, List.foldl_append, List.foldl_cons]
  show tail.foldl pushName (names.foldl pushName []) = names
  rw [foldl_pushName_of_proper hnames, List.nil_append]
  rcases htail with rfl | ⟨rfl, _⟩
  · rfl
  · rfl

/-- A path with proper names, and a slash at the end when there is `[[]]`, is free of dots. -/
theorem lexically_normal_intercalate :
    lexically_normal ([slash].intercalate ([] :: names ++ tail))
      = [slash].intercalate ([] :: names ++ tail) := by
  unfold lexically_normal
  dsimp only
  rw [normalNames_intercalate hnames htail, splitOn_intercalate_names hnames htail]
  congr 2
  rcases htail with rfl | ⟨rfl, hne⟩
  · rw [List.getLast?_append, List.getLast?_singleton]
    exact if_pos (.inr (.inl rfl))
  · obtain ⟨init, last, rfl⟩ := (List.eq_nil_or_concat' names).resolve_left hne
    have hlast : ProperName last := hnames last (List.mem_append_right _ List.mem_cons_self)
    rw [List.append_nil, List.cons_append.symm, List.getLast?_append, List.getLast?_singleton]
    refine if_neg ?_
    rintro (h | h | h | h)
    · exact hne h
    · exact hlast.1 h
    · exact hlast.2.1 h
    · exact hlast.2.2.1 h

end Intercalate

/-- A path freed of dots: its names, and a slash at the end or not. -/
theorem lexically_normal_eq (path : List UInt8) :
    ∃ tail, lexically_normal path = [slash].intercalate ([] :: normalNames path ++ tail) ∧
      (tail = [[]] ∨ tail = [] ∧ normalNames path ≠ []) := by
  refine ⟨_, rfl, ?_⟩
  split_ifs with h
  · exact .inl rfl
  · exact .inr ⟨rfl, fun hnil => h (.inl hnil)⟩

/-- A path freed of dots keeps its names. -/
theorem normalNames_lexically_normal (path : List UInt8) :
    normalNames (lexically_normal path) = normalNames path := by
  obtain ⟨tail, hnormal, htail⟩ := lexically_normal_eq path
  rw [hnormal]
  exact normalNames_intercalate (fun name => proper_of_mem_normalNames) htail

/-- **Freeing a path of dots twice is doing it once.** -/
theorem lexically_normal_idempotent (path : List UInt8) :
    lexically_normal (lexically_normal path) = lexically_normal path := by
  obtain ⟨tail, hnormal, htail⟩ := lexically_normal_eq path
  rw [hnormal]
  exact lexically_normal_intercalate (fun name => proper_of_mem_normalNames) htail

theorem lexically_normal_rooted (path : List UInt8) :
    ∃ rest, lexically_normal path = slash :: rest := by
  have hlist : ∀ first (rest : List (List UInt8)),
      [slash].intercalate ([] :: first :: rest) = slash :: [slash].intercalate (first :: rest) := by
    intro first rest
    rw [List.intercalate_cons_cons]
    rfl
  unfold lexically_normal
  dsimp only
  cases hnames : normalNames path with
  | nil => exact ⟨[], rfl⟩
  | cons first names => exact ⟨_, hlist _ _⟩

/-! ### Normalization -/

/-- What the calls of the registry and of its parts throw. -/
inductive StoreError where
  | absolute
  | store (message : String)
  | factory
  deriving DecidableEq

/-- `"file://"`. -/
def fileScheme : List UInt8 := [102, 105, 108, 101, 58, 47, 47]

/-- `"localhost"`. -/
def localhost : List UInt8 := [108, 111, 99, 97, 108, 104, 111, 115, 116]

/-- The URI begins with `file://`, in any case. -/
def has_file_scheme (uri : Uri) : Bool := (uri.take 7).map tolower == fileScheme

/-- The path of a file URI without a foreign host. -/
def file_uri_to_path (uri : Uri) : Option (List UInt8) :=
  if !has_file_scheme uri then none
  else
    let remainder := uri.drop 7
    if remainder = [] ∨ remainder.head? = some slash then some (percent_decode remainder)
    else
      let authority := remainder.takeWhile (· != slash)
      if authority ≠ [] ∧ authority.map tolower ≠ localhost then none
      else some (percent_decode (remainder.dropWhile (· != slash)))

/-- `std::filesystem::absolute`. -/
def absolute (fs : FileSystem) (path : List UInt8) : Except StoreError (List UInt8) :=
  if path = [] then
    if fs.emptyThrows then .error .absolute else .ok fs.currentPath
  else if path.head? = some slash then .ok path
  else .ok (fs.currentPath ++ slash :: path)

/-- The URI of a path, made absolute and normal. -/
def path_to_file_uri (fs : FileSystem) (path : List UInt8) : Except StoreError Uri := do
  let path ← absolute fs path
  let normalized := lexically_normal path
  let normalized := if normalized.head? = some slash then normalized else slash :: normalized
  return fileScheme ++ percent_encode normalized

/-- The normal form of a file URI; others are their own. -/
def normalize_uri (fs : FileSystem) (uri : Uri) : Except StoreError Uri :=
  match file_uri_to_path uri with
  | some path => path_to_file_uri fs path
  | none => .ok uri

variable {fs : FileSystem} {uri v : Uri}

/-- The URI of an absolute path. -/
theorem path_to_file_uri_of_absolute {path path' : List UInt8} (h : absolute fs path = .ok path') :
    path_to_file_uri fs path = .ok (fileScheme ++ percent_encode (lexically_normal path')) := by
  obtain ⟨rest, hrest⟩ := lexically_normal_rooted path'
  unfold path_to_file_uri
  rw [h]
  show Except.ok (fileScheme ++ percent_encode
    (if (lexically_normal path').head? = some slash then _ else _)) = _
  rw [if_pos (by rw [hrest]; rfl)]

theorem absolute_of_rooted {path : List UInt8} (h : path.head? = some slash) :
    absolute fs path = .ok path := by
  have hne : path ≠ [] := by
    rintro rfl
    cases h
  unfold absolute
  rw [if_neg hne, if_pos h]

theorem exists_absolute (fs : FileSystem) {path : List UInt8} (h : path ≠ []) :
    ∃ path', absolute fs path = .ok path' := by
  unfold absolute
  rw [if_neg h]
  split
  · exact ⟨_, rfl⟩
  · exact ⟨_, rfl⟩

/-- A URI made from a path is the scheme and an encoded path free of dots. -/
theorem path_to_file_uri_eq {path : List UInt8} (h : path_to_file_uri fs path = .ok v) :
    ∃ path', v = fileScheme ++ percent_encode (lexically_normal path') := by
  cases habsolute : absolute fs path with
  | error e =>
    rw [path_to_file_uri, habsolute] at h
    cases h
  | ok path' =>
    rw [path_to_file_uri_of_absolute habsolute] at h
    exact ⟨path', (Except.ok.inj h).symm⟩

/-- Reading the path of such a URI gives it back. -/
theorem file_uri_to_path_encode (path : List UInt8) :
    file_uri_to_path (fileScheme ++ percent_encode (lexically_normal path))
      = some (lexically_normal path) := by
  obtain ⟨rest, hrest⟩ := lexically_normal_rooted path
  have hencode : ∃ rest', percent_encode (lexically_normal path) = slash :: rest' := by
    rw [percent_encode_eq, hrest, List.flatMap_cons]
    exact ⟨_, rfl⟩
  obtain ⟨rest', hrest'⟩ := hencode
  have hscheme : has_file_scheme (fileScheme ++ percent_encode (lexically_normal path)) = true :=
    rfl
  have hdrop : (fileScheme ++ percent_encode (lexically_normal path)).drop 7
      = percent_encode (lexically_normal path) := rfl
  unfold file_uri_to_path
  rw [hscheme, hdrop]
  dsimp only
  rw [if_neg Bool.noConfusion, if_pos (.inr (by rw [hrest']; rfl)), percent_decode_encode]

/-- The URI of a path free of dots is its own normal form. -/
theorem normalize_uri_file (fs : FileSystem) (path : List UInt8) :
    normalize_uri fs (fileScheme ++ percent_encode (lexically_normal path))
      = .ok (fileScheme ++ percent_encode (lexically_normal path)) := by
  obtain ⟨rest, hrest⟩ := lexically_normal_rooted path
  unfold normalize_uri
  rw [file_uri_to_path_encode]
  dsimp only
  rw [path_to_file_uri_of_absolute (absolute_of_rooted (by rw [hrest]; rfl)),
    lexically_normal_idempotent]

/-- **Normalizing twice is normalizing once.** -/
theorem normalize_uri_idempotent (h : normalize_uri fs uri = .ok v) :
    normalize_uri fs v = .ok v := by
  unfold normalize_uri at h
  cases hpath : file_uri_to_path uri with
  | none =>
    rw [hpath] at h
    cases h
    rw [normalize_uri, hpath]
  | some path =>
    rw [hpath] at h
    obtain ⟨path', rfl⟩ := path_to_file_uri_eq h
    exact normalize_uri_file fs path'

/-! ### Segments -/

/-- The loop of `splitSegments`: the segment read so far, and what is left to read. -/
def splitGo (segment : List UInt8) : List UInt8 → List (List UInt8)
  | [] => [segment]
  | c :: rest =>
    if c = slash then segment :: (if rest = [] then [] else splitGo [] rest)
    else splitGo (segment ++ [c]) rest

/-- The segments of a URI. -/
def splitSegments (uri : Uri) : List (List UInt8) :=
  if uri = [] then [] else splitGo [] uri

theorem splitGo_ne_nil (segment rest : List UInt8) : splitGo segment rest ≠ [] := by
  induction rest generalizing segment with
  | nil => exact List.cons_ne_nil _ _
  | cons c rest ih =>
    unfold splitGo
    split_ifs with hc
    · exact List.cons_ne_nil _ _
    · exact List.cons_ne_nil _ _
    · exact ih _

/-- Joined again, the segments give the text but for one slash at its end. -/
theorem join_splitGo (segment rest : List UInt8) :
    [slash].intercalate (splitGo segment rest) = segment ++ rest ∨
      [slash].intercalate (splitGo segment rest) ++ [slash] = segment ++ rest := by
  induction rest generalizing segment with
  | nil =>
    refine .inl ?_
    rw [splitGo, List.intercalate_singleton, List.append_nil]
  | cons c rest ih =>
    unfold splitGo
    split_ifs with hc hrest
    · refine .inr ?_
      rw [List.intercalate_singleton, hc, hrest]
    · have hne : splitGo [] rest ≠ [] := splitGo_ne_nil [] rest
      rw [List.intercalate_cons_of_ne_nil hne, hc]
      rcases ih [] with h | h
      · refine .inl ?_
        rw [h, List.append_assoc]
        rfl
      · refine .inr ?_
        rw [List.append_assoc, List.append_assoc, h]
        rfl
    · rcases ih (segment ++ [c]) with h | h
      · refine .inl ?_
        rw [h, List.append_assoc]
        rfl
      · refine .inr ?_
        rw [h, List.append_assoc]
        rfl

theorem join_splitSegments (uri : Uri) :
    [slash].intercalate (splitSegments uri) = uri ∨
      [slash].intercalate (splitSegments uri) ++ [slash] = uri := by
  unfold splitSegments
  split_ifs with h
  · rw [h]
    exact .inl rfl
  · exact join_splitGo [] uri

/-- **URIs with the same segments agree up to a slash at the end.** -/
theorem eq_or_slash_of_splitSegments_eq (h : splitSegments uri = splitSegments v) :
    uri = v ∨ uri = v ++ [slash] ∨ v = uri ++ [slash] := by
  have huri := join_splitSegments uri
  rw [h] at huri
  rcases huri with huri | huri
  · rcases join_splitSegments v with hv | hv
    · exact .inl (huri.symm.trans hv)
    · exact .inr (.inr (hv.symm.trans (congrArg (· ++ [slash]) huri)))
  · rcases join_splitSegments v with hv | hv
    · exact .inr (.inl (huri.symm.trans (congrArg (· ++ [slash]) hv)))
    · exact .inl (huri.symm.trans hv)

end Pegium

/-
Pegium/Workspace/UriContainment.lean

When URIs are equal, and when one contains another.

`contains_uri` compares the elements of two paths, the trie of URIs compares their
segments.  Both see the file names of a path freed of dots (`location`), the one
decoded and the other encoded, and neither sees a slash at the end.

Main result: `uri_algebra`.  Containment is a preorder; two URIs contain each other if
they are equal or differ by a slash at the end, and for file URIs the trie agrees with
it (`prefix_iff_contains`).
-/
import Pegium.Workspace.DefaultDocuments

namespace Pegium

variable (fs : FileSystem)

/-! ### Equality and containment -/

def equals_uri (left right : Uri) : Except StoreError Bool := do
  return decide ((← normalize_uri fs left) = (← normalize_uri fs right))

/-- The slashes at the front go, but for the last byte. -/
def dropSlashes : List UInt8 → List UInt8
  | c :: d :: rest => if c = slash then dropSlashes (d :: rest) else c :: d :: rest
  | short => short

/-- A path without slashes at its end. -/
def normalize_file_path (path : List UInt8) : List UInt8 :=
  (dropSlashes (lexically_normal path).reverse).reverse

/-- The elements a `std::filesystem::path` is iterated by: the root, the file names, and an
empty one after a slash at the end. -/
def elements (path : List UInt8) : List (List UInt8) :=
  let names := (path.splitOn slash).filter (· ≠ [])
  (if path.head? = some slash then [[slash]] else []) ++ names ++
    if names ≠ [] ∧ path.getLast? = some slash then [[]] else []

/-- The loop of `contains_uri`. -/
def within : List (List UInt8) → List (List UInt8) → Bool
  | [], _ => true
  | _ :: _, [] => false
  | parent :: parents, child :: children =>
    if parent ≠ child then false else within parents children

def contains_uri (parent child : Uri) : Except StoreError Bool := do
  let normalizedParent ← normalize_uri fs parent
  let normalizedChild ← normalize_uri fs child
  if normalizedParent = normalizedChild then return true
  else
    match file_uri_to_path normalizedParent, file_uri_to_path normalizedChild with
    | some parentPath, some childPath =>
      return within (elements (normalize_file_path parentPath))
        (elements (normalize_file_path childPath))
    | _, _ => return false

/-! ### Paths freed of dots -/

theorem within_iff {parent child : List (List UInt8)} :
    within parent child = true ↔ parent <+: child := by
  induction parent generalizing child with
  | nil => exact iff_of_true rfl List.nil_prefix
  | cons name parent ih =>
    cases child with
    | nil => exact iff_of_false Bool.false_ne_true (fun h => by simp at h)
    | cons name' child =>
      rw [within, List.cons_prefix_cons, ← ih]
      split
      next hne => exact iff_of_false Bool.false_ne_true fun h => hne h.1
      next heq => exact (and_iff_right (not_not.mp heq)).symm

theorem intercalate_concat {names : List (List UInt8)} (hne : names ≠ []) (name : List UInt8) :
    [slash].intercalate (names ++ [name]) = [slash].intercalate names ++ slash :: name := by
  induction names with
  | nil => exact absurd rfl hne
  | cons first names ih =>
    rcases eq_or_ne names [] with rfl | hnames
    · rw [List.singleton_append, List.intercalate_cons_cons, List.intercalate_singleton,
        List.intercalate_singleton, List.append_assoc]
      rfl
    · rw [List.cons_append, List.intercalate_cons_of_ne_nil (by simp), ih hnames,
        List.intercalate_cons_of_ne_nil hnames]
      simp

theorem dropSlashes_of_ne {c : UInt8} (h : c ≠ slash) (rest : List UInt8) :
    dropSlashes (c :: rest) = c :: rest := by
  cases rest with
  | nil => rfl
  | cons d rest => exact if_neg h

section Elements

variable {names : List (List UInt8)} (hnames : ∀ name ∈ names, ProperName name) (hne : names ≠ [])
include hnames hne

/-- Names that are joined end in a byte of the last one. -/
theorem exists_reverse_intercalate :
    ∃ c rest, c ≠ slash ∧ ([slash].intercalate ([] :: names)).reverse = c :: rest := by
  obtain ⟨init, last, rfl⟩ := (List.eq_nil_or_concat' names).resolve_left hne
  have hlast : ProperName last := hnames last (List.mem_append_right _ List.mem_cons_self)
  rw [← List.cons_append, intercalate_concat (List.cons_ne_nil _ _), List.reverse_append,
    List.reverse_cons, List.append_assoc]
  obtain ⟨c, more, hreverse⟩ := List.exists_cons_of_ne_nil (List.reverse_ne_nil_iff.mpr hlast.1)
  rw [hreverse]
  refine ⟨c, _, ?_, rfl⟩
  rintro rfl
  have hmem : slash ∈ last.reverse := hreverse ▸ List.mem_cons_self
  exact hlast.2.2.2 (List.mem_reverse.mp hmem)

theorem elements_intercalate :
    elements ([slash].intercalate ([] :: names)) = [slash] :: names := by
  have hsplit : ([slash].intercalate ([] :: names)).splitOn slash = [] :: names := by
    apply List.splitOn_intercalate
    · rw [List.forall_mem_cons]
      exact ⟨List.not_mem_nil, fun name hname => (hnames name hname).2.2.2⟩
    · exact List.cons_ne_nil _ _
  have hfilter : ([] :: names).filter (· ≠ []) = names := by
    rw [List.filter_cons_of_neg (by simp), List.filter_eq_self]
    exact fun name hname => decide_eq_true (hnames name hname).1
  have hhead : ([slash].intercalate ([] :: names)).head? = some slash := by
    rw [List.intercalate_cons_of_ne_nil hne]
    rfl
  have hlast : ([slash].intercalate ([] :: names)).getLast? ≠ some slash := by
    obtain ⟨c, rest, hc, hreverse⟩ := exists_reverse_intercalate hnames hne
    rw [← List.head?_reverse, hreverse]
    exact fun h => hc (Option.some.inj h)
  unfold elements
  rw [hsplit, hfilter, if_pos hhead]
  dsimp only
  rw [if_neg fun h => hlast h.2, List.append_nil]
  rfl

end Elements

/-- **What `contains_uri` sees of a path** freed of dots: the root and its names. -/
theorem elements_normalize_file_path (path : List UInt8) :
    elements (normalize_file_path (lexically_normal path)) = [slash] :: normalNames path := by
  have hproper : ∀ name ∈ normalNames path, ProperName name :=
    fun name => proper_of_mem_normalNames
  obtain ⟨tail, hnormal, htail⟩ := lexically_normal_eq path
  unfold normalize_file_path
  rw [lexically_normal_idempotent, hnormal]
  rcases eq_or_ne (normalNames path) [] with hnil | hne
  · obtain rfl : tail = [[]] := htail.resolve_right fun h => h.2 hnil
    rw [hnil]
    rfl
  · have hdrop :
        (dropSlashes ([slash].intercalate ([] :: normalNames path ++ tail)).reverse).reverse
          = [slash].intercalate ([] :: normalNames path) := by
      obtain ⟨c, rest, hc, hreverse⟩ := exists_reverse_intercalate hproper hne
      rcases htail with rfl | ⟨rfl, -⟩
      · rw [intercalate_concat (List.cons_ne_nil _ _), List.reverse_append, hreverse]
        show (dropSlashes (slash :: c :: rest)).reverse = _
        rw [dropSlashes, if_pos rfl, dropSlashes_of_ne hc, ← hreverse, List.reverse_reverse]
      · rw [List.append_nil, hreverse, dropSlashes_of_ne hc, ← hreverse, List.reverse_reverse]
    rw [hdrop, elements_intercalate hproper hne]

/-! ### Segments -/

/-- A name without a slash, and what stands after the slash. -/
theorem splitGo_append {name : List UInt8} (h : slash ∉ name) (segment rest : List UInt8) :
    splitGo segment (name ++ slash :: rest)
      = (segment ++ name) :: (if rest = [] then [] else splitGo [] rest) := by
  induction name generalizing segment with
  | nil =>
    rw [List.nil_append, splitGo, if_pos rfl, List.append_nil]
  | cons c name ih =>
    rw [List.mem_cons, not_or] at h
    rw [List.cons_append, splitGo, if_neg (Ne.symm h.1), ih h.2, List.append_assoc]
    rfl

theorem splitGo_of_not_mem {name : List UInt8} (h : slash ∉ name) (segment : List UInt8) :
    splitGo segment name = [segment ++ name] := by
  induction name generalizing segment with
  | nil => rw [splitGo, List.append_nil]
  | cons c name ih =>
    rw [List.mem_cons, not_or] at h
    rw [splitGo, if_neg (Ne.symm h.1), ih h.2, List.append_assoc]
    rfl

/-- Joined names have themselves as their segments, but for an empty one at the end. -/
theorem splitGo_intercalate {names : List (List UInt8)} (hnames : ∀ name ∈ names, slash ∉ name)
    (hne : names ≠ []) {last : List UInt8} (hlast : slash ∉ last) :
    splitGo [] ([slash].intercalate (names ++ [last]))
      = if last = [] then names else names ++ [last] := by
  induction names with
  | nil => exact absurd rfl hne
  | cons name names ih =>
    rw [List.forall_mem_cons] at hnames
    rcases eq_or_ne names [] with rfl | hrest
    · rw [List.singleton_append, List.intercalate_cons_cons, List.intercalate_singleton,
        List.append_assoc, List.singleton_append, splitGo_append hnames.1,
        splitGo_of_not_mem hlast]
      split
      · rfl
      · rfl
    · rw [List.cons_append, List.intercalate_cons_of_ne_nil (by simp), List.append_assoc,
        List.singleton_append, splitGo_append hnames.1, if_neg, ih hnames.2 hrest]
      · split
        · rfl
        · rfl
      · rw [intercalate_concat hrest]
        exact List.append_ne_nil_of_right_ne_nil _ (List.cons_ne_nil _ _)

/-- Encoding goes name by name. -/
theorem percent_encode_intercalate (names : List (List UInt8)) :
    percent_encode ([slash].intercalate names)
      = [slash].intercalate (names.map percent_encode) := by
  induction names with
  | nil => rfl
  | cons name names ih =>
    rcases eq_or_ne names [] with rfl | hrest
    · rw [List.map_singleton, List.intercalate_singleton, List.intercalate_singleton]
    · rw [List.map_cons, List.intercalate_cons_of_ne_nil hrest,
        List.intercalate_cons_of_ne_nil (by simpa using hrest), ← ih, percent_encode_eq,
        percent_encode_eq, percent_encode_eq, List.flatMap_append, List.flatMap_append]
      rfl

/-- Encoding makes no slash. -/
theorem not_mem_percent_encode {name : List UInt8} (h : slash ∉ name) :
    slash ∉ percent_encode name := by
  rw [percent_encode_eq, List.mem_flatMap]
  rintro ⟨c, hc, hmem⟩
  split at hmem
  · rw [List.mem_singleton] at hmem
    exact h (hmem ▸ hc)
  · have hhex : ∀ value < 16, to_hex value ≠ slash := by decide
    have hbyte : c.toNat < 256 := c.toNat_lt
    rcases List.mem_cons.mp hmem with heq | hmem
    · exact absurd heq (by decide)
    rcases List.mem_cons.mp hmem with heq | hmem
    · exact hhex _ (by omega) heq.symm
    · exact hhex _ (Nat.mod_lt _ (by decide)) (List.mem_singleton.mp hmem).symm

theorem percent_encode_injective : Function.Injective percent_encode :=
  Function.LeftInverse.injective percent_decode_encode

/-- `"file:"`. -/
def fileName : List UInt8 := [102, 105, 108, 101, 58]

/-- The scheme is two more names. -/
theorem fileScheme_append (names : List (List UInt8)) :
    fileScheme ++ [slash].intercalate ([] :: names)
      = [slash].intercalate ([fileName, [], []] ++ names) := by
  show _ = [slash].intercalate (fileName :: [] :: [] :: names)
  rw [@List.intercalate_cons_of_ne_nil _ _ fileName _ (List.cons_ne_nil _ _),
    @List.intercalate_cons_of_ne_nil _ _ [] ([] :: names) (List.cons_ne_nil _ _)]
  rfl

/-- **The segments of a file URI**: the scheme, and the encoded names of its path. -/
theorem splitSegments_file (path : List UInt8) :
    splitSegments (fileScheme ++ percent_encode (lexically_normal path))
      = [fileName, [], []] ++ (normalNames path).map percent_encode := by
  have hslash : ∀ names : List (List UInt8), (∀ name ∈ names, ProperName name) →
      ∀ name ∈ [fileName, [], []] ++ names.map percent_encode, slash ∉ name := by
    have hscheme : ∀ name ∈ [fileName, [], []], slash ∉ name := by decide
    intro names hnames name hname
    rcases List.mem_append.mp hname with hname | hname
    · exact hscheme name hname
    · obtain ⟨raw, hraw, rfl⟩ := List.mem_map.mp hname
      exact not_mem_percent_encode (hnames raw hraw).2.2.2
  have hproper : ∀ name ∈ normalNames path, ProperName name :=
    fun name => proper_of_mem_normalNames
  obtain ⟨tail, hnormal, htail⟩ := lexically_normal_eq path
  unfold splitSegments
  rw [if_neg (List.append_ne_nil_of_left_ne_nil (by decide) _), hnormal,
    percent_encode_intercalate, List.map_append, List.map_cons]
  show splitGo [] (fileScheme ++ [slash].intercalate
    ([] :: ((normalNames path).map percent_encode ++ tail.map percent_encode))) = _
  rcases htail with rfl | ⟨rfl, hne⟩
  · rw [fileScheme_append, ← List.append_assoc]
    exact (splitGo_intercalate (hslash _ hproper) (List.cons_ne_nil _ _) List.not_mem_nil).trans
      (if_pos rfl)
  · obtain ⟨init, last, hnames⟩ := (List.eq_nil_or_concat' _).resolve_left hne
    rw [hnames] at hproper ⊢
    have hlast : ProperName last := hproper last (List.mem_append_right _ List.mem_cons_self)
    have hencode : percent_encode last ≠ [] :=
      fun h => hlast.1 (percent_encode_injective h)
    rw [List.map_append, List.map_singleton, List.map_nil, List.append_nil,
      fileScheme_append, ← List.append_assoc,
      splitGo_intercalate (hslash init fun name h => hproper name (List.mem_append_left _ h))
        (List.cons_ne_nil _ _) (not_mem_percent_encode hlast.2.2.2), if_neg hencode]

/-! ### Normal forms -/

/-- Where a file URI is: the names of its path. -/
def location (uri : Uri) : Option (List (List UInt8)) := (file_uri_to_path uri).map normalNames

variable {fs} {uri v p c : Uri}

/-- A normal form is an encoded path free of dots, or no file URI. -/
theorem normal_cases (h : normalize_uri fs uri = .ok v) :
    (∃ path, v = fileScheme ++ percent_encode (lexically_normal path) ∧
      location v = some (normalNames path)) ∨ file_uri_to_path v = none := by
  unfold normalize_uri at h
  cases hpath : file_uri_to_path uri with
  | none =>
    rw [hpath] at h
    cases h
    exact .inr hpath
  | some path =>
    rw [hpath] at h
    obtain ⟨path', rfl⟩ := path_to_file_uri_eq h
    refine .inl ⟨path', rfl, ?_⟩
    unfold location
    rw [file_uri_to_path_encode, Option.map_some, normalNames_lexically_normal]

/-- **Containment of normal forms**: they are equal, or the names of one start with those of
the other. -/
def Contains (p c : Uri) : Prop :=
  p = c ∨ ∃ names names', location p = some names ∧ location c = some names' ∧ names <+: names'

theorem contains_uri_eq {parent child : Uri} (hp : normalize_uri fs parent = .ok p)
    (hc : normalize_uri fs child = .ok c) :
    ∃ b, contains_uri fs parent child = .ok b ∧ (b = true ↔ Contains p c) := by
  have hbody : contains_uri fs parent child
      = if p = c then .ok true
        else match file_uri_to_path p, file_uri_to_path c with
          | some parentPath, some childPath =>
            .ok (within (elements (normalize_file_path parentPath))
              (elements (normalize_file_path childPath)))
          | _, _ => .ok false := by
    unfold contains_uri
    rw [hp, hc]
    show (if p = c then _ else _) = _
    split
    · rfl
    · split
      · rfl
      · rfl
  rw [hbody]
  unfold Contains
  split
  next heq => exact ⟨true, rfl, iff_of_true rfl (.inl heq)⟩
  next hne =>
    rcases normal_cases hp with ⟨path, rfl, hlocation⟩ | hnone
    · rcases normal_cases hc with ⟨path', rfl, hlocation'⟩ | hnone'
      · rw [file_uri_to_path_encode, file_uri_to_path_encode]
        refine ⟨_, rfl, ?_⟩
        rw [elements_normalize_file_path, elements_normalize_file_path, within_iff,
          List.cons_prefix_cons]
        constructor
        · exact fun h => .inr ⟨_, _, hlocation, hlocation', h.2⟩
        · rintro (heq | ⟨names, names', hnames, hnames', hinitial⟩)
          · exact absurd heq hne
          · rw [hlocation] at hnames
            rw [hlocation'] at hnames'
            cases hnames
            cases hnames'
            exact ⟨rfl, hinitial⟩
      · rw [file_uri_to_path_encode, hnone']
        refine ⟨false, rfl, iff_of_false Bool.false_ne_true ?_⟩
        rintro (heq | ⟨_, _, -, hnames', -⟩)
        · exact hne heq
        · rw [location, hnone'] at hnames'
          cases hnames'
    · rw [hnone]
      refine ⟨false, rfl, iff_of_false Bool.false_ne_true ?_⟩
      rintro (heq | ⟨_, _, hnames, -⟩)
      · exact hne heq
      · rw [location, hnone] at hnames
        cases hnames

theorem contains_uri_iff {parent child : Uri} (hp : normalize_uri fs parent = .ok p)
    (hc : normalize_uri fs child = .ok c) :
    contains_uri fs parent child = .ok true ↔ Contains p c := by
  obtain ⟨b, hcontains, hb⟩ := contains_uri_eq hp hc
  rw [hcontains, ← hb, Except.ok.injEq]

/-- What is contained has a normal form. -/
theorem normalizes_of_contains {parent child : Uri} {b : Bool}
    (h : contains_uri fs parent child = .ok b) :
    (∃ p, normalize_uri fs parent = .ok p) ∧ ∃ c, normalize_uri fs child = .ok c := by
  unfold contains_uri at h
  cases hp : normalize_uri fs parent with
  | error e =>
    rw [hp] at h
    cases h
  | ok p =>
    cases hc : normalize_uri fs child with
    | error e =>
      rw [hp, hc] at h
      cases h
    | ok c => exact ⟨⟨p, rfl⟩, c, rfl⟩

theorem equals_uri_iff {left right : Uri} :
    equals_uri fs left right = .ok true
      ↔ ∃ p, normalize_uri fs left = .ok p ∧ normalize_uri fs right = .ok p := by
  unfold equals_uri
  cases hleft : normalize_uri fs left with
  | error e => exact iff_of_false nofun nofun
  | ok p =>
    cases hright : normalize_uri fs right with
    | error e => exact iff_of_false nofun nofun
    | ok c =>
      show Except.ok (decide (p = c)) = .ok true ↔ _
      rw [Except.ok.injEq, decide_eq_true_iff]
      constructor
      · rintro rfl
        exact ⟨p, rfl, rfl⟩
      · rintro ⟨_, ⟨⟩, ⟨⟩⟩
        rfl

/-! ### A preorder -/

theorem Contains.trans {u v w : Uri} (h : Contains u v) (h' : Contains v w) : Contains u w := by
  rcases h with rfl | ⟨names, names', hu, hv, hinitial⟩
  · exact h'
  · rcases h' with rfl | ⟨names₁, names₂, hv', hw, hinitial'⟩
    · exact .inr ⟨names, names', hu, hv, hinitial⟩
    · rw [hv] at hv'
      cases hv'
      exact .inr ⟨names, names₂, hu, hw, hinitial.trans hinitial'⟩

/-- Two normal forms that are equal, or file URIs that are but for a slash at the end. -/
def SamePlace (p c : Uri) : Prop :=
  p = c ∨ (location p).isSome ∧ (location c).isSome ∧ (p = c ++ [slash] ∨ c = p ++ [slash])

/-- A slash at the end of a path adds no name. -/
theorem normalNames_append_slash (path : List UInt8) :
    normalNames (path ++ [slash]) = normalNames path := by
  unfold normalNames
  rw [List.splitOn_append_cons_self, List.splitOn_nil, List.foldl_append]
  rfl

theorem percent_encode_append_slash (path : List UInt8) :
    percent_encode path ++ [slash] = percent_encode (path ++ [slash]) := by
  rw [percent_encode_eq, percent_encode_eq, List.flatMap_append]
  rfl

/-- The normal form of a file URI. -/
theorem exists_path (h : normalize_uri fs uri = .ok p) (hfile : (location p).isSome) :
    ∃ path, p = fileScheme ++ percent_encode (lexically_normal path) ∧
      location p = some (normalNames path) := by
  rcases normal_cases h with hpath | hnone
  · exact hpath
  · rw [location, hnone] at hfile
    cases hfile

/-- A slash more at the end of a file URI leaves it where it is. -/
theorem location_append_slash {u : Uri} (hp : normalize_uri fs uri = .ok p)
    (hc : normalize_uri fs u = .ok c) (hpfile : (location p).isSome)
    (hcfile : (location c).isSome) (h : p = c ++ [slash]) : location p = location c := by
  obtain ⟨path, rfl, hlocation⟩ := exists_path hp hpfile
  obtain ⟨path', rfl, hlocation'⟩ := exists_path hc hcfile
  rw [List.append_assoc, List.append_cancel_left_eq, percent_encode_append_slash] at h
  have hpath := percent_encode_injective h
  rw [hlocation, hlocation', ← normalNames_lexically_normal path, hpath,
    normalNames_append_slash, normalNames_lexically_normal]

theorem contains_antisymm_iff {u v : Uri} (hp : normalize_uri fs u = .ok p)
    (hc : normalize_uri fs v = .ok c) :
    Contains p c ∧ Contains c p ↔ SamePlace p c := by
  constructor
  · rintro ⟨h | ⟨names, names', hnames, hnames', hinitial⟩, hback⟩
    · exact .inl h
    · rcases hback with h | ⟨names₁, names₂, hnames₁, hnames₂, hinitial'⟩
      · exact .inl h.symm
      · rw [hnames'] at hnames₁
        rw [hnames] at hnames₂
        cases hnames₁
        cases hnames₂
        have hsame : names = names' := hinitial.eq_of_length_le hinitial'.length_le
        obtain ⟨path, hpath, hlocation⟩ := exists_path hp (hnames ▸ rfl)
        obtain ⟨path', hpath', hlocation'⟩ := exists_path hc (hnames' ▸ rfl)
        have hsegments : splitSegments p = splitSegments c := by
          rw [hnames] at hlocation
          rw [hnames'] at hlocation'
          rw [hpath, hpath', splitSegments_file, splitSegments_file,
            ← Option.some.inj hlocation, ← Option.some.inj hlocation', hsame]
        rcases eq_or_slash_of_splitSegments_eq hsegments with h | h
        · exact .inl h
        · exact .inr ⟨hnames ▸ rfl, hnames' ▸ rfl, h⟩
  · rintro (rfl | ⟨hpfile, hcfile, h⟩)
    · exact ⟨.inl rfl, .inl rfl⟩
    · have hsame : location p = location c := by
        rcases h with h | h
        · exact location_append_slash hp hc hpfile hcfile h
        · exact (location_append_slash hc hp hcfile hpfile h).symm
      obtain ⟨names, hnames⟩ := Option.isSome_iff_exists.mp hcfile
      have hnames' : location p = some names := hsame.trans hnames
      exact ⟨.inr ⟨names, names, hnames', hnames, List.prefix_rfl⟩,
        .inr ⟨names, names, hnames, hnames', List.prefix_rfl⟩⟩

/-! ### The trie of URIs -/

/-- A URI with the scheme of files and no authority. -/
theorem file_uri_to_path_append {remainder : List UInt8}
    (h : remainder = [] ∨ remainder.head? = some slash) :
    file_uri_to_path (fileScheme ++ remainder) = some (percent_decode remainder) := by
  have hscheme : has_file_scheme (fileScheme ++ remainder) = true := rfl
  have hdrop : (fileScheme ++ remainder).drop 7 = remainder := rfl
  unfold file_uri_to_path
  rw [hscheme, hdrop]
  exact if_pos h

/-- What starts with the segments of a file URI is one. -/
theorem location_of_segments (h : [fileName, [], []] <+: splitSegments c) :
    (location c).isSome := by
  obtain ⟨names, hnames⟩ := h
  have hjoin := join_splitSegments c
  rw [← hnames, ← fileScheme_append] at hjoin
  obtain ⟨remainder, rfl, hremainder⟩ : ∃ remainder, c = fileScheme ++ remainder ∧
      (remainder = [] ∨ remainder.head? = some slash) := by
    have hslash : [slash].intercalate ([] :: names) = [] ∨
        ([slash].intercalate ([] :: names)).head? = some slash := by
      rcases eq_or_ne names [] with rfl | hne
      · exact .inl List.intercalate_singleton
      · rw [List.intercalate_cons_of_ne_nil hne]
        exact .inr rfl
    rcases hjoin with h | h
    · exact ⟨_, h.symm, hslash⟩
    · refine ⟨[slash].intercalate ([] :: names) ++ [slash], ?_, .inr ?_⟩
      · rw [← h, List.append_assoc]
      · rcases hslash with hnil | hhead
        · rw [hnil]
          rfl
        · rw [List.head?_append, hhead]
          rfl
  rw [location, file_uri_to_path_append hremainder]
  rfl

theorem map_prefix_map_iff {f : List UInt8 → List UInt8} (hf : Function.Injective f)
    {names names' : List (List UInt8)} : names.map f <+: names'.map f ↔ names <+: names' := by
  induction names generalizing names' with
  | nil => exact iff_of_true List.nil_prefix List.nil_prefix
  | cons name names ih =>
    cases names' with
    | nil => simp
    | cons name' names' =>
      rw [List.map_cons, List.map_cons, List.cons_prefix_cons, List.cons_prefix_cons, ih, hf.eq_iff]

/-- **The trie agrees with containment** in a file URI: segments start with those of another
URI exactly if the names do. -/
theorem prefix_iff_contains {u : Uri} (hp : normalize_uri fs uri = .ok p)
    (hc : normalize_uri fs u = .ok c) (hfile : (location p).isSome) :
    splitSegments p <+: splitSegments c ↔ Contains p c := by
  obtain ⟨path, hpath, hlocation⟩ := exists_path hp hfile
  rcases normal_cases hc with ⟨path', hpath', hlocation'⟩ | hnone
  · rw [hpath, hpath', splitSegments_file, splitSegments_file, List.prefix_append_right_inj,
      map_prefix_map_iff percent_encode_injective, ← hpath, ← hpath']
    constructor
    · exact fun h => .inr ⟨_, _, hlocation, hlocation', h⟩
    · rintro (rfl | ⟨names, names', hnames, hnames', hinitial⟩)
      · rw [hlocation] at hlocation'
        rw [Option.some.inj hlocation']
      · rw [hlocation] at hnames
        rw [hlocation'] at hnames'
        cases hnames
        cases hnames'
        exact hinitial
  · have hlocation' : location c = none := by
      rw [location, hnone]
      rfl
    refine iff_of_false (fun h => ?_) ?_
    · -- the segments of a file URI are those of no other one
      rw [hpath, splitSegments_file] at h
      have hsome := location_of_segments ((List.prefix_append _ _).trans h)
      rw [hlocation'] at hsome
      cases hsome
    · rintro (rfl | ⟨_, _, -, hnames', -⟩)
      · rw [hlocation'] at hfile
        cases hfile
      · rw [hlocation'] at hnames'
        cases hnames'

/-- A document is found below a URI exactly if its segments start with those of the URI. -/
theorem mem_findAll_insert {τ : Type} {u folder : Uri} {x : τ} {t t' : Trie (List UInt8) τ}
    (hunique : t.Unique) (hfresh : x ∉ t.values) (hinsert : UriTrie.insert fs u x t = .ok t')
    (hp : normalize_uri fs folder = .ok p) (hc : normalize_uri fs u = .ok c) :
    ∃ found, UriTrie.findAll fs folder t' = .ok found ∧
      (x ∈ found ↔ splitSegments p <+: splitSegments c) := by
  have ht' : t' = t.insert x (splitSegments c) := by
    unfold UriTrie.insert at hinsert
    rw [hc] at hinsert
    exact (Except.ok.inj hinsert).symm
  subst ht'
  refine ⟨(t.insert x (splitSegments c)).findAll (splitSegments p), ?_, ?_⟩
  · unfold UriTrie.findAll
    rw [hp]
    rfl
  · rw [Trie.mem_findAll (hunique.insert x _)]
    constructor
    · rintro ⟨path, hfind⟩
      rw [Trie.find_insert] at hfind
      split at hfind
      next heq => exact ⟨path, heq⟩
      next => exact absurd ((Trie.mem_values hunique).mpr ⟨_, hfind⟩) hfresh
    · rintro ⟨path, heq⟩
      refine ⟨path, ?_⟩
      rw [Trie.find_insert, if_pos heq]

/-! ### The algebra of URIs -/

/-- What the functions on URIs are for.  A URI without a normal form is a file URI without a
path, where the empty path has no absolute form. -/
structure UriAlgebra (fs : FileSystem) : Prop where
  path : ∀ path, path.head? = some slash → ∃ uri, path_to_file_uri fs path = .ok uri ∧
    file_uri_to_path uri = some (lexically_normal path)
  decode : ∀ text, percent_decode (percent_encode text) = text
  normalizes : ∀ u, file_uri_to_path u ≠ some [] → ∃ p, normalize_uri fs u = .ok p
  idempotent : ∀ u p, normalize_uri fs u = .ok p → normalize_uri fs p = .ok p
  equals_refl : ∀ u p, normalize_uri fs u = .ok p → equals_uri fs u u = .ok true
  equals_symm : ∀ u v, equals_uri fs u v = .ok true → equals_uri fs v u = .ok true
  equals_trans : ∀ u v w, equals_uri fs u v = .ok true → equals_uri fs v w = .ok true →
    equals_uri fs u w = .ok true
  contains_of_equals : ∀ u v, equals_uri fs u v = .ok true → contains_uri fs u v = .ok true
  contains_trans : ∀ u v w, contains_uri fs u v = .ok true → contains_uri fs v w = .ok true →
    contains_uri fs u w = .ok true
  contains_antisymm : ∀ u v p c, normalize_uri fs u = .ok p → normalize_uri fs v = .ok c →
    (contains_uri fs u v = .ok true ∧ contains_uri fs v u = .ok true ↔ SamePlace p c)
  findAll : ∀ (τ : Type) (t t' : Trie (List UInt8) τ) (x : τ) (folder u : Uri) (p c : Uri),
    t.Unique → x ∉ t.values → UriTrie.insert fs u x t = .ok t' →
      normalize_uri fs folder = .ok p → normalize_uri fs u = .ok c →
        ∃ found, UriTrie.findAll fs folder t' = .ok found ∧
          (x ∈ found ↔ if (location p).isSome then contains_uri fs folder u = .ok true
            else splitSegments p <+: splitSegments c)

/-- **The algebra of URIs**, over any current path. -/
theorem uri_algebra (fs : FileSystem) : UriAlgebra fs where
  path path hrooted :=
    ⟨_, path_to_file_uri_of_absolute (absolute_of_rooted hrooted), file_uri_to_path_encode path⟩
  decode := percent_decode_encode
  normalizes u hpath := by
    unfold normalize_uri
    cases hu : file_uri_to_path u with
    | none => exact ⟨u, rfl⟩
    | some path =>
      have hne : path ≠ [] := by
        rintro rfl
        exact hpath hu
      obtain ⟨path', hpath'⟩ := exists_absolute fs hne
      exact ⟨_, path_to_file_uri_of_absolute hpath'⟩
  idempotent _ _ := normalize_uri_idempotent
  equals_refl u p hp := equals_uri_iff.mpr ⟨p, hp, hp⟩
  equals_symm u v h := by
    obtain ⟨p, hu, hv⟩ := equals_uri_iff.mp h
    exact equals_uri_iff.mpr ⟨p, hv, hu⟩
  equals_trans u v w h h' := by
    obtain ⟨p, hu, hv⟩ := equals_uri_iff.mp h
    obtain ⟨p', hv', hw⟩ := equals_uri_iff.mp h'
    rw [hv] at hv'
    cases hv'
    exact equals_uri_iff.mpr ⟨p, hu, hw⟩
  contains_of_equals u v h := by
    obtain ⟨p, hu, hv⟩ := equals_uri_iff.mp h
    exact (contains_uri_iff hu hv).mpr (.inl rfl)
  contains_trans u v w h h' := by
    obtain ⟨⟨p, hu⟩, c, hv⟩ := normalizes_of_contains h
    obtain ⟨-, d, hw⟩ := normalizes_of_contains h'
    rw [contains_uri_iff hu hv] at h
    rw [contains_uri_iff hv hw] at h'
    rw [contains_uri_iff hu hw]
    exact h.trans h'
  contains_antisymm u v p c hp hc := by
    rw [contains_uri_iff hp hc, contains_uri_iff hc hp]
    exact contains_antisymm_iff hp hc
  findAll τ t t' x folder u p c hunique hfresh hinsert hp hc := by
    obtain ⟨found, hfound, hmem⟩ := mem_findAll_insert hunique hfresh hinsert hp hc
    refine ⟨found, hfound, ?_⟩
    rw [hmem]
    split
    next hfile => rw [contains_uri_iff hp hc, prefix_iff_contains hp hc hfile]
    next => exact Iff.rfl

/-- **Containment is no partial order**: a folder and the folder with a slash contain each
other.  And the trie finds `x:a/b` below `x:a`, which does not contain it. -/
theorem not_antisymm_and_not_prefix :
    (∃ u v, contains_uri ⟨[slash], true, rfl⟩ u v = .ok true ∧
      contains_uri ⟨[slash], true, rfl⟩ v u = .ok true ∧
        equals_uri ⟨[slash], true, rfl⟩ u v = .ok false) ∧
    ∃ u v, splitSegments u <+: splitSegments v ∧
      contains_uri ⟨[slash], true, rfl⟩ u v = .ok false := by
  have hslash : normalize_uri ⟨[slash], true, rfl⟩ (fileScheme ++ [47, 97, 47])
      = .ok (fileScheme ++ [47, 97, 47]) := normalize_uri_file _ [47, 97, 47]
  have hplain : normalize_uri ⟨[slash], true, rfl⟩ (fileScheme ++ [47, 97])
      = .ok (fileScheme ++ [47, 97]) := normalize_uri_file _ [47, 97]
  have hlocation : location (fileScheme ++ [47, 97, 47]) = some [[97]] :=
    congrArg _ (file_uri_to_path_encode [47, 97, 47])
  have hlocation' : location (fileScheme ++ [47, 97]) = some [[97]] :=
    congrArg _ (file_uri_to_path_encode [47, 97])
  refine ⟨⟨fileScheme ++ [47, 97, 47], fileScheme ++ [47, 97], ?_, ?_, ?_⟩,
    [120, 58, 97], [120, 58, 97, 47, 98], ?_, rfl⟩
  · exact (contains_uri_iff hslash hplain).mpr (.inr ⟨_, _, hlocation, hlocation', List.prefix_rfl⟩)
  · exact (contains_uri_iff hplain hslash).mpr (.inr ⟨_, _, hlocation', hlocation, List.prefix_rfl⟩)
  · unfold equals_uri
    rw [hslash, hplain]
    rfl
  · decide

end Pegium

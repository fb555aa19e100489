import ContentVault.Path

/-!
# Names beneath a directory

A plain name has no slash and stays where it is put, so a path that was put together from
a directory and plain names spells the names of the directory followed by these.
-/

namespace ContentVault.Path

theorem pieces_ne_nil (chars : List Char) : pieces chars ≠ [] := by
  cases chars with
  | nil => exact List.cons_ne_nil _ _
  | cons c rest =>
    rw [pieces]
    split
    · exact List.cons_ne_nil _ _
    · split <;> exact List.cons_ne_nil _ _

theorem pieces_cons_slash (rest : List Char) : pieces ('/' :: rest) = [] :: pieces rest := by
  rw [pieces]
  split
  · rename_i hnil
    exact absurd hnil (pieces_ne_nil rest)
  · rename_i hpieces
    rw [if_pos rfl, hpieces]

theorem pieces_cons {c : Char} (hc : c ≠ '/') (rest : List Char) :
    ∃ piece others, pieces rest = piece :: others ∧
      pieces (c :: rest) = (c :: piece) :: others := by
  cases hpieces : pieces rest with
  | nil => exact absurd hpieces (pieces_ne_nil rest)
  | cons piece others => exact ⟨piece, others, rfl, by simp only [pieces, hpieces, if_neg hc]⟩

/-- A slash separates the pieces before it from those after it. -/
theorem pieces_append_slash (before after : List Char) :
    pieces (before ++ '/' :: after) = pieces before ++ pieces after := by
  induction before with
  | nil => exact pieces_cons_slash after
  | cons c rest ih =>
    rw [List.cons_append]
    by_cases hc : c = '/'
    · rw [hc, pieces_cons_slash, pieces_cons_slash, ih, List.cons_append]
    · obtain ⟨piece, others, hrest, hcons⟩ := pieces_cons hc rest
      obtain ⟨piece', others', hrest', hcons'⟩ := pieces_cons hc (rest ++ '/' :: after)
      rw [ih, hrest, List.cons_append, List.cons.injEq] at hrest'
      rw [hcons, hcons', ← hrest'.1, ← hrest'.2, List.cons_append]

theorem pieces_of_notMem {chars : List Char} (hchars : '/' ∉ chars) : pieces chars = [chars] := by
  induction chars with
  | nil => rfl
  | cons c rest ih =>
    rw [List.mem_cons, not_or] at hchars
    obtain ⟨piece, others, hrest, hcons⟩ := pieces_cons (Ne.symm hchars.1) rest
    rw [ih hchars.2, List.cons.injEq] at hrest
    rw [hcons, ← hrest.1, ← hrest.2]

def namesOf (chars : List Char) : List String :=
  ((pieces chars).filter (· ≠ [])).map String.ofList

theorem namesOf_append_slash (before after : List Char) :
    namesOf (before ++ '/' :: after) = namesOf before ++ namesOf after := by
  rw [namesOf, pieces_append_slash, List.filter_append, List.map_append]
  rfl

/-- A name that a path can spell. -/
structure IsPiece (name : String) : Prop where
  ne_empty : name ≠ ""
  slash_notMem : '/' ∉ name.toList
  nul_notMem : '\x00' ∉ name.toList

/-- Such a name that leads to a place of its own. -/
structure IsName (name : String) : Prop extends IsPiece name where
  ne_dot : name ≠ "."
  ne_dots : name ≠ ".."
  size_le : name.utf8ByteSize ≤ 255

theorem IsPiece.toList_ne_nil {name : String} (hname : IsPiece name) : name.toList ≠ [] :=
  fun hnil => hname.ne_empty (String.toList_eq_nil_iff.1 hnil)

theorem IsPiece.namesOf {name : String} (hname : IsPiece name) :
    namesOf name.toList = [name] := by
  rw [Path.namesOf, pieces_of_notMem hname.slash_notMem]
  simp [hname.toList_ne_nil]

/-- The path of a directory that names are put beneath; the empty text is the directory
that relative paths start from. -/
def base (text : String) : Except FileFailure Path :=
  if text = "" then .ok ⟨false, [], false⟩ else parse text

section Join

variable {directory name : String} {path : Path}

/-- What it takes for a text to spell a path. -/
theorem parse_of_size_lt {text : String} (hnul : '\x00' ∉ text.toList) (hne : text ≠ "")
    (hsize : text.utf8ByteSize < 4096) :
    parse text = .ok ⟨text.toList.head? = some '/', namesOf text.toList,
      text.toList.getLast? = some '/'⟩ := by
  simp only [parse]
  rw [if_neg hnul, if_neg fun hnil => hne (String.toList_eq_nil_iff.1 hnil), if_neg (by omega)]
  rfl

theorem eq_of_parse_ok {text : String} (hparse : parse text = .ok path) :
    '\x00' ∉ text.toList ∧ text ≠ "" ∧ text.utf8ByteSize < 4096 := by
  simp only [parse] at hparse
  split at hparse
  · cases hparse
  · split at hparse
    · cases hparse
    · split at hparse
      · cases hparse
      · rename_i hnul hnil hsize
        exact ⟨hnul, fun hempty => hnil (String.toList_eq_nil_iff.2 hempty), by omega⟩

/-- A name is put beneath a directory by a slash, if there is not one already. -/
theorem exists_toList_join (name : String) (hne : directory ≠ "") :
    ∃ before, (join directory name).toList = before ++ '/' :: name.toList ∧
      namesOf before = namesOf directory.toList ∧
      (before ++ '/' :: name.toList).head? = directory.toList.head? ∧
      ∀ c ∈ before, c ∈ directory.toList := by
  rw [join, if_neg hne]
  split
  · rename_i hlast
    obtain ⟨before, hbefore⟩ := List.getLast?_eq_some_iff.1 hlast
    refine ⟨before, ?_, ?_, ?_, ?_⟩
    · rw [String.toList_append, hbefore, List.append_assoc]
      rfl
    · rw [hbefore, namesOf_append_slash]
      exact (List.append_nil _).symm
    · rw [hbefore, List.head?_append, List.head?_append]
      rfl
    · intro c hc
      rw [hbefore]
      exact List.mem_append_left _ hc
  · refine ⟨directory.toList, ?_, rfl, ?_, fun _ hc => hc⟩
    · rw [String.toList_append, String.toList_append, List.append_assoc]
      rfl
    · have hnil : directory.toList ≠ [] := fun hnil => hne (String.toList_eq_nil_iff.1 hnil)
      obtain ⟨c, rest, hcons⟩ := List.exists_cons_of_ne_nil hnil
      rw [hcons]
      rfl

theorem utf8ByteSize_join_le (directory name : String) :
    directory.utf8ByteSize ≤ (join directory name).utf8ByteSize ∧
      (join directory name).utf8ByteSize ≤ directory.utf8ByteSize + name.utf8ByteSize + 1 := by
  have hslash : "/".utf8ByteSize = 1 := rfl
  have hempty : "".utf8ByteSize = 0 := rfl
  rw [join]
  split
  · rename_i hdirectory
    rw [hdirectory]
    omega
  · split
    · rw [String.utf8ByteSize_append]
      omega
    · rw [String.utf8ByteSize_append, String.utf8ByteSize_append, hslash]
      omega

/-- A name beneath a directory is one more name to follow. -/
theorem parse_join (hbase : base directory = .ok path) (hname : IsPiece name)
    (hsize : (join directory name).utf8ByteSize < 4096) :
    parse (join directory name) = .ok ⟨path.isAbsolute, path.names ++ [name], false⟩ := by
  obtain ⟨last, hlast, hends⟩ : ∃ last, name.toList.getLast? = some last ∧ last ≠ '/' := by
    refine ⟨_, List.getLast?_eq_some_getLast hname.toList_ne_nil, fun hslash => ?_⟩
    exact hname.slash_notMem (hslash ▸ List.getLast_mem hname.toList_ne_nil)
  rw [base] at hbase
  split at hbase
  · rename_i hempty
    cases hbase
    have hstart : name.toList.head? ≠ some '/' := by
      intro hhead
      exact hname.slash_notMem (List.mem_of_head? hhead)
    rw [join, if_pos hempty] at hsize ⊢
    rw [parse_of_size_lt hname.nul_notMem hname.ne_empty hsize, hname.namesOf]
    simp [hlast, hends, hstart]
  · rename_i hne
    obtain ⟨hnul, -, hdirectory⟩ := eq_of_parse_ok hbase
    rw [parse_of_size_lt hnul hne hdirectory, Except.ok.injEq] at hbase
    obtain ⟨before, hjoin, hnames, hhead, hbefore⟩ := exists_toList_join name hne
    have hslash : '\x00' ≠ '/' := by decide
    have hnul' : '\x00' ∉ (join directory name).toList := by
      rw [hjoin, List.mem_append, List.mem_cons, not_or, not_or]
      exact ⟨fun hmem => hnul (hbefore _ hmem), hslash, hname.nul_notMem⟩
    have hne' : join directory name ≠ "" := by
      intro hempty
      rw [← String.toList_eq_nil_iff, hjoin] at hempty
      exact List.append_ne_nil_of_right_ne_nil _ (List.cons_ne_nil _ _) hempty
    rw [parse_of_size_lt hnul' hne' hsize, hjoin, hhead, namesOf_append_slash, hname.namesOf,
      hnames, ← hbase, List.getLast?_append, List.getLast?_cons_of_ne_nil hname.toList_ne_nil, hlast]
    simp [hends]

theorem base_of_parse_ok {text : String} (hparse : parse text = .ok path) :
    base text = .ok path := by
  rw [base, if_neg (eq_of_parse_ok hparse).2.1, hparse]

/-- How much longer a path can get by names beneath it. -/
def sizeOf : List String → Nat
  | [] => 0
  | name :: rest => name.utf8ByteSize + 1 + sizeOf rest

theorem utf8ByteSize_foldl_join_le (root : String) (names : List String) :
    root.utf8ByteSize ≤ (names.foldl join root).utf8ByteSize ∧
      (names.foldl join root).utf8ByteSize ≤ root.utf8ByteSize + sizeOf names := by
  induction names generalizing root with
  | nil => exact ⟨Nat.le_refl _, Nat.le_refl _⟩
  | cons name rest ih =>
    obtain ⟨hle, hle'⟩ := ih (join root name)
    obtain ⟨hjoin, hjoin'⟩ := utf8ByteSize_join_le root name
    rw [List.foldl_cons, sizeOf]
    omega

/-- Names beneath a directory are more names to follow. -/
theorem parse_foldl_join {root : String} {names : List String} (hbase : base root = .ok path)
    (hnames : ∀ name ∈ names, IsPiece name) (hne : names ≠ [])
    (hsize : (names.foldl join root).utf8ByteSize < 4096) :
    parse (names.foldl join root) = .ok ⟨path.isAbsolute, path.names ++ names, false⟩ := by
  induction names generalizing root path with
  | nil => exact absurd rfl hne
  | cons name rest ih =>
    rw [List.foldl_cons] at hsize ⊢
    have hle := (utf8ByteSize_foldl_join_le (join root name) rest).1
    have hjoin := parse_join hbase (hnames name List.mem_cons_self) (by omega)
    by_cases hrest : rest = []
    · rw [hrest]
      exact hjoin
    · rw [ih (base_of_parse_ok hjoin) (fun name' hmem => hnames name' (List.mem_cons_of_mem _ hmem))
        hrest hsize]
      simp

end Join

/-- Names other than the dot are kept behind those of any path. -/
theorem plainNames_append {isAbsolute endsInSlash : Bool} {given names : List String}
    (hnames : ∀ name ∈ names, name ≠ ".") :
    plainNames ⟨isAbsolute, given ++ names, endsInSlash⟩ =
      plainNames ⟨isAbsolute, given, endsInSlash⟩ ++ names := by
  have hkept (names : List String) (hnames : ∀ name ∈ names, name ≠ ".") :
      names.filter (· ≠ ".") = names :=
    List.filter_eq_self.2 fun name hmem => decide_eq_true (hnames name hmem)
  cases given with
  | nil =>
    cases names with
    | nil => rfl
    | cons name rest =>
      have hrest := hkept rest fun name' hmem => hnames name' (List.mem_cons_of_mem name hmem)
      have hfirst : ¬(name = "." ∧ isAbsolute = true) :=
        fun hboth => hnames name List.mem_cons_self hboth.1
      simp only [plainNames, List.nil_append, if_neg hfirst, hrest]
  | cons first rest =>
    simp only [plainNames, List.cons_append, List.filter_append, hkept names hnames]
    split <;> rfl

end ContentVault.Path

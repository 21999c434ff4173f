import ShaderInterface.Proofs.RegisterWindows

namespace ShaderInterface

/-- The characters that a full name puts before a part of it. -/
def isDelimiter (c : Char) : Bool := c = '.' || c = '['

def isPlainName (name : String) : Bool := name.toList.all fun c => !isDelimiter c

theorem isPlainName_iff {name : String} :
    isPlainName name = true ↔ ∀ c ∈ name.toList, isDelimiter c = false := by
  simp [isPlainName]

/-- Text is split in one way only before its last delimiter. -/
theorem append_delimiter_inj {front front' part part' : List Char} {c c' : Char}
    (hc : isDelimiter c = true) (hc' : isDelimiter c' = true)
    (hpart : ∀ d ∈ part, isDelimiter d = false) (hpart' : ∀ d ∈ part', isDelimiter d = false)
    (h : front ++ c :: part = front' ++ c' :: part') : front = front' ∧ c = c' ∧ part = part' := by
  have hshort {first second : List Char} {b d : Char} {rest : List Char} (hd : isDelimiter d = true)
      (hfirst : ∀ e ∈ first, isDelimiter e = false)
      (hsplit : b :: first = rest ++ d :: second) : rest = [] := by
    cases rest with
    | nil => rfl
    | cons e rest =>
      injection hsplit with _ hsplit
      have hplain := hfirst d (by simp [hsplit])
      rw [hd] at hplain
      cases hplain
  rcases List.append_eq_append_iff.mp h with ⟨rest, hfront, hrest⟩ | ⟨rest, hfront, hrest⟩
  · obtain rfl := hshort hc' hpart hrest
    injection hrest with hchar hparts
    exact ⟨by simpa using hfront.symm, hchar, hparts⟩
  · obtain rfl := hshort hc hpart' hrest
    injection hrest with hchar hparts
    exact ⟨by simpa using hfront, hchar.symm, hparts.symm⟩

theorem toDigits_inj {i j : Nat} (h : Nat.toDigits 10 i = Nat.toDigits 10 j) : i = j := by
  have hi := Nat.ofDigitChars_toDigits (b := 10) (n := i) (by decide) (by decide)
  have hj := Nat.ofDigitChars_toDigits (b := 10) (n := j) (by decide) (by decide)
  rw [← hi, h, hj]

def indexPart (index : Nat) : List Char := Nat.toDigits 10 index ++ [']']

theorem isDelimiter_of_mem_indexPart {index : Nat} {c : Char} (h : c ∈ indexPart index) :
    isDelimiter c = false := by
  rcases List.mem_append.mp h with h | h
  · have hdigit := Nat.isDigit_of_mem_toDigits (by decide) (by decide) h
    cases hc : isDelimiter c with
    | false => rfl
    | true =>
      have hcases : c = '.' ∨ c = '[' := by simpa [isDelimiter] using hc
      rcases hcases with rfl | rfl <;> simp [Char.isDigit] at hdigit
  · rw [List.mem_singleton.mp h]
    decide

theorem indexPart_inj {i j : Nat} (h : indexPart i = indexPart j) : i = j :=
  toDigits_inj (List.append_cancel_right h)

namespace Path

def isPlain : Path → Bool
  | root scope => isPlainName scope
  | field parent name => parent.isPlain && isPlainName name
  | element parent _ => parent.isPlain

theorem toList_text_field (path : Path) (name : String) :
    ((path.field name).text joinField).toList =
      (path.text joinField).toList ++ '.' :: name.toList := by
  simp [text, joinField]

theorem toList_text_element (path : Path) (index : Nat) :
    ((path.element index).text joinField).toList =
      (path.text joinField).toList ++ '[' :: indexPart index := by
  simp [text, indexPart]

theorem text_inj {path path' : Path} (hpath : path.isPlain = true) (hpath' : path'.isPlain = true)
    (h : path.text joinField = path'.text joinField) : path = path' := by
  -- A text without delimiters is that of a root.
  have hroot {scope : String} {front part : List Char} {c : Char} (hscope : isPlainName scope = true)
      (hc : isDelimiter c = true) (hsplit : scope.toList = front ++ c :: part) : False := by
    have hplain := isPlainName_iff.mp hscope c (by simp [hsplit])
    rw [hc] at hplain
    cases hplain
  have hlist := congrArg String.toList h
  induction path generalizing path' with
  | root scope =>
    cases path' with
    | root scope' => rw [show scope = scope' from h]
    | field parent' name' =>
      rw [toList_text_field] at hlist
      exact (hroot hpath (by decide) hlist).elim
    | element parent' index' =>
      rw [toList_text_element] at hlist
      exact (hroot hpath (by decide) hlist).elim
  | field parent name ih =>
    obtain ⟨hparent, hname⟩ := Bool.and_eq_true_iff.mp hpath
    rw [toList_text_field] at hlist
    cases path' with
    | root scope' => exact (hroot hpath' (by decide) hlist.symm).elim
    | field parent' name' =>
      obtain ⟨hparent', hname'⟩ := Bool.and_eq_true_iff.mp hpath'
      rw [toList_text_field] at hlist
      obtain ⟨hfront, -, hpart⟩ := append_delimiter_inj (by decide) (by decide)
        (isPlainName_iff.mp hname) (isPlainName_iff.mp hname') hlist
      rw [ih hparent hparent' (String.toList_inj.mp hfront) hfront, String.toList_inj.mp hpart]
    | element parent' index' =>
      rw [toList_text_element] at hlist
      obtain ⟨-, hdelimiter, -⟩ := append_delimiter_inj (by decide) (by decide)
        (isPlainName_iff.mp hname) (fun _ => isDelimiter_of_mem_indexPart) hlist
      cases hdelimiter
  | element parent index ih =>
    rw [toList_text_element] at hlist
    cases path' with
    | root scope' => exact (hroot hpath' (by decide) hlist.symm).elim
    | field parent' name' =>
      obtain ⟨hparent', hname'⟩ := Bool.and_eq_true_iff.mp hpath'
      rw [toList_text_field] at hlist
      obtain ⟨-, hdelimiter, -⟩ := append_delimiter_inj (by decide) (by decide)
        (fun _ => isDelimiter_of_mem_indexPart) (isPlainName_iff.mp hname') hlist
      cases hdelimiter
    | element parent' index' =>
      rw [toList_text_element] at hlist
      obtain ⟨hfront, -, hpart⟩ := append_delimiter_inj (by decide) (by decide)
        (fun _ => isDelimiter_of_mem_indexPart) (fun _ => isDelimiter_of_mem_indexPart) hlist
      have hparent' : parent'.isPlain = true := hpath'
      rw [ih hpath hparent' (String.toList_inj.mp hfront) hfront, indexPart_inj hpart]

/-- A path that is another one, or goes on from it. -/
inductive Within : Path → Path → Prop where
  | refl (path : Path) : Within path path
  | field {path outer : Path} (name : String) (h : Within path outer) : Within (path.field name) outer
  | element {path outer : Path} (index : Nat) (h : Within path outer) :
      Within (path.element index) outer

def depth : Path → Nat
  | root _ => 0
  | field parent _ => parent.depth + 1
  | element parent _ => parent.depth + 1

theorem Within.depth_le {path outer : Path} (h : path.Within outer) : outer.depth ≤ path.depth := by
  induction h with
  | refl => exact Nat.le_refl _
  | field name _ ih => exact Nat.le_succ_of_le ih
  | element index _ ih => exact Nat.le_succ_of_le ih

theorem Within.unique {path outer outer' : Path} (h : path.Within outer) (h' : path.Within outer')
    (hdepth : outer.depth = outer'.depth) : outer = outer' := by
  induction h with
  | refl =>
    cases h' with
    | refl => rfl
    | field name h' | element name h' =>
      have hle := h'.depth_le
      simp only [depth] at hdepth
      omega
  | field name h ih =>
    cases h' with
    | refl =>
      have hle := h.depth_le
      simp only [depth] at hdepth
      omega
    | field _ h' => exact ih h' hdepth
  | element index h ih =>
    cases h' with
    | refl =>
      have hle := h.depth_le
      simp only [depth] at hdepth
      omega
    | element _ h' => exact ih h' hdepth

theorem Within.trans {path middle outer : Path} (h : path.Within middle) (h' : middle.Within outer) :
    path.Within outer := by
  induction h with
  | refl => exact h'
  | field name _ ih => exact .field name (ih h')
  | element index _ ih => exact .element index (ih h')

end Path

theorem Declarator.within_elementPath (decl : Declarator) (path : Path) (index : Nat) :
    (decl.elementPath path index).Within path := by
  unfold elementPath
  split
  · exact .element index (.refl path)
  · exact .refl path

theorem Declarator.isPlain_elementPath (decl : Declarator) (path : Path) (index : Nat) :
    (decl.elementPath path index).isPlain = path.isPlain := by
  unfold elementPath
  split <;> rfl

namespace Variable

mutual

/-- No name in a declaration has a delimiter, and the fields of a struct have different names. -/
def isWellNamed : Variable → Bool
  | basic decl _ => isPlainName decl.name
  | struct decl fields =>
    isPlainName decl.name && decide ((fields.map name).Nodup) && areWellNamed fields

def areWellNamed : List Variable → Bool
  | [] => true
  | f :: fs => isWellNamed f && areWellNamed fs

end

theorem areWellNamed_iff {fields : List Variable} :
    areWellNamed fields = true ↔ ∀ f ∈ fields, f.isWellNamed = true := by
  induction fields with
  | nil => simp [areWellNamed]
  | cons f fs ih => simp [areWellNamed, ih]

theorem isPlainName_of_isWellNamed {v : Variable} (h : v.isWellNamed = true) :
    isPlainName v.name = true := by
  cases v with
  | basic decl type => rwa [isWellNamed] at h
  | struct decl fields =>
    rw [isWellNamed, Bool.and_eq_true, Bool.and_eq_true] at h
    exact h.1.1

theorem isWellNamed_struct {decl : Declarator} {fields : List Variable}
    (h : (struct decl fields).isWellNamed = true) :
    (fields.map name).Nodup ∧ ∀ f ∈ fields, f.isWellNamed = true := by
  rw [isWellNamed, Bool.and_eq_true, Bool.and_eq_true, decide_eq_true_eq] at h
  exact ⟨h.1.2, areWellNamed_iff.mp h.2⟩

def leafPaths (v : Variable) (path : Path) (rowMajor : Bool) : List Path :=
  ((v.visits path rowMajor).filterMap Visit.leaf?).map Leaf.path

theorem fieldVisits_eq_flatMap (path : Path) (rowMajor : Bool) (fields : List Variable) :
    fieldVisits path rowMajor fields =
      fields.flatMap fun f => f.visits (path.field f.name) rowMajor := by
  induction fields with
  | nil => rfl
  | cons f fs ih => rw [fieldVisits, List.flatMap_cons, ih]

theorem filterMap_leaf?_struct (decl : Declarator) (fields : List Variable) (path : Path)
    (rowMajor : Bool) :
    ((struct decl fields).visits path rowMajor).filterMap Visit.leaf? =
      (List.range' 0 decl.elementCount).flatMap fun index =>
        fields.flatMap fun f =>
          (f.visits ((decl.elementPath path index).field f.name)
            (rowMajor || decl.rowMajor)).filterMap Visit.leaf? := by
  simp [visits_struct, elementRun, elementVisits, fieldVisits_eq_flatMap, List.filterMap_flatMap,
    List.filterMap_cons, Visit.leaf?]

theorem leafPaths_struct (decl : Declarator) (fields : List Variable) (path : Path) (rowMajor : Bool) :
    (struct decl fields).leafPaths path rowMajor =
      (List.range' 0 decl.elementCount).flatMap fun index =>
        fields.flatMap fun f =>
          f.leafPaths ((decl.elementPath path index).field f.name) (rowMajor || decl.rowMajor) := by
  simp only [leafPaths, filterMap_leaf?_struct, List.map_flatMap]

theorem within_of_mem_leafPaths {v : Variable} {path p : Path} {rowMajor : Bool}
    (h : p ∈ v.leafPaths path rowMajor) : p.Within path := by
  induction v generalizing path rowMajor with
  | basic decl type =>
    obtain rfl : p = path := by simpa [leafPaths, visits, Visit.leaf?] using h
    exact .refl p
  | struct decl fields ih =>
    rw [leafPaths_struct] at h
    obtain ⟨index, -, h⟩ := List.mem_flatMap.mp h
    obtain ⟨f, hf, h⟩ := List.mem_flatMap.mp h
    exact ((ih f hf h).trans (.field f.name (.refl _))).trans (decl.within_elementPath path index)

theorem isPlain_of_mem_leafPaths {v : Variable} {path p : Path} {rowMajor : Bool}
    (hv : v.isWellNamed = true) (hpath : path.isPlain = true) (h : p ∈ v.leafPaths path rowMajor) :
    p.isPlain = true := by
  induction v generalizing path rowMajor with
  | basic decl type =>
    obtain rfl : p = path := by simpa [leafPaths, visits, Visit.leaf?] using h
    exact hpath
  | struct decl fields ih =>
    rw [leafPaths_struct] at h
    obtain ⟨index, -, h⟩ := List.mem_flatMap.mp h
    obtain ⟨f, hf, h⟩ := List.mem_flatMap.mp h
    have hwell := (isWellNamed_struct hv).2 f hf
    have hfield : ((decl.elementPath path index).field f.name).isPlain = true := by
      simp [Path.isPlain, decl.isPlain_elementPath, hpath, isPlainName_of_isWellNamed hwell]
    exact ih f hf hwell hfield h

theorem nodup_leafPaths {v : Variable} (hv : v.isWellNamed = true) (path : Path) (rowMajor : Bool) :
    (v.leafPaths path rowMajor).Nodup := by
  induction v generalizing path rowMajor with
  | basic decl type => simp [leafPaths, visits, Visit.leaf?]
  | struct decl fields ih =>
    obtain ⟨hnames, hwell⟩ := isWellNamed_struct hv
    rw [leafPaths_struct]
    refine List.pairwise_flatMap.mpr ⟨?_, ?_⟩
    · -- Within an element, leaves of different fields part at the names of the fields.
      intro index _
      refine List.pairwise_flatMap.mpr ⟨fun f hf => ih f hf (hwell f hf) _ _, ?_⟩
      refine (List.pairwise_map.mp hnames).imp ?_
      rintro f g hne p hp q hq rfl
      have hsame := (within_of_mem_leafPaths hp).unique (within_of_mem_leafPaths hq) rfl
      injection hsame with _ hname
      exact hne hname
    · cases harray : decl.isArray with
      | false =>
        rw [decl.elementCount_eq_one harray]
        exact List.pairwise_singleton ..
      | true =>
        refine List.Pairwise.imp ?_ (List.nodup_range' (s := 0) (n := decl.elementCount))
        rintro i j hne p hp q hq rfl
        obtain ⟨f, -, hp⟩ := List.mem_flatMap.mp hp
        obtain ⟨g, -, hq⟩ := List.mem_flatMap.mp hq
        have hi := (within_of_mem_leafPaths hp).trans (.field f.name (.refl _))
        have hj := (within_of_mem_leafPaths hq).trans (.field g.name (.refl _))
        simp only [Declarator.elementPath, harray, if_true] at hi hj
        have hsame := hi.unique hj rfl
        injection hsame with _ hindex
        exact hne hindex

variable {v w : Variable}

theorem isPlain_of_mem_leaves {leaf : Leaf} (hv : v.isWellNamed = true) (h : leaf ∈ v.leaves) :
    leaf.path.isPlain = true := by
  have hroot : (Path.root v.name).isPlain = true := isPlainName_of_isWellNamed hv
  exact isPlain_of_mem_leafPaths hv hroot (List.mem_map.mpr ⟨leaf, h, rfl⟩)

theorem name_eq_of_uniformName_eq {leaf leaf' : Leaf} (hv : v.isWellNamed = true)
    (hw : w.isWellNamed = true) (h : leaf ∈ v.leaves) (h' : leaf' ∈ w.leaves)
    (hname : leaf.uniformName = leaf'.uniformName) : v.name = w.name := by
  have hpath := Path.text_inj (isPlain_of_mem_leaves hv h) (isPlain_of_mem_leaves hw h') hname
  have hwithin : leaf.path.Within (.root v.name) :=
    within_of_mem_leafPaths (List.mem_map.mpr ⟨leaf, h, rfl⟩)
  have hwithin' : leaf'.path.Within (.root w.name) :=
    within_of_mem_leafPaths (List.mem_map.mpr ⟨leaf', h', rfl⟩)
  rw [← hpath] at hwithin'
  have hroot := hwithin.unique hwithin' rfl
  injection hroot

theorem nodup_uniformNames (hv : v.isWellNamed = true) : (v.leaves.map Leaf.uniformName).Nodup := by
  have hpaths := List.pairwise_map.mp (nodup_leafPaths hv (.root v.name) false)
  refine List.pairwise_map.mpr (hpaths.imp_of_mem ?_)
  intro leaf leaf' h h' hne hname
  exact hne (Path.text_inj (isPlain_of_mem_leaves hv h) (isPlain_of_mem_leaves hv h') hname)

end Variable

end ShaderInterface

import SpineFormal.Base.Glob
import SpineFormal.Kg.ExistingRows

/-!
# The files of a repository and their nodes

The extractor of a file is picked by shell patterns on its path. A file that is
parsed gives a root node, whose id is made of the language and the path, and a
node for each symbol found in it. The walk over a working tree leaves out some
directories by name; picking an extractor does not look at these names.
-/

namespace SpineFormal.Kg

open Glob
set_option autoImplicit false

/-! ## Extractors -/

inductive Language where
  | bash
  | markdown
  | python
  | typescript
  deriving DecidableEq

def Language.slug : Language → String
  | .bash => "bash"
  | .markdown => "markdown"
  | .python => "python"
  | .typescript => "typescript"

/-- The `name_field` of a rule for `__file_root__`. -/
inductive NameField where
  | relpath
  | relpathDotted
  deriving DecidableEq

structure ExtractorConfig where
  language : Language
  fileRoot : Option NameField
  includeGlobs : List String
  excludeGlobs : List String
  deriving DecidableEq

/-- The configurations in the order of their files' names. -/
def extractors : List ExtractorConfig :=
  [⟨.bash, some .relpath, ["**/*.sh", "**/*.bash"], ["**/node_modules/**", "**/.git/**"]⟩,
   ⟨.markdown, none, [], ["**/*.md", "**/*.markdown"]⟩,
   ⟨.python, some .relpathDotted, ["**/*.py", "**/*.pyi"],
    ["**/__pycache__/**", "**/.venv*/**", "**/venv/**", "**/build/**", "**/dist/**",
     "**/.tox/**", "**/site-packages/**"]⟩,
   ⟨.typescript, some .relpathDotted,
    ["**/*.ts", "**/*.tsx", "**/*.js", "**/*.jsx", "**/*.mjs", "**/*.cjs"],
    ["**/node_modules/**", "**/dist/**", "**/build/**", "**/.next/**", "**/coverage/**",
     "**/*.d.ts"]⟩]

def ExtractorConfig.takes (cfg : ExtractorConfig) (rel : String) : Bool :=
  !cfg.excludeGlobs.any (fnmatch rel) && cfg.includeGlobs.any (fnmatch rel)

def pickExtractor (rel : String) : Option ExtractorConfig := extractors.find? (·.takes rel)

/-! ## Nodes -/

def beforeLastDot (s : List Char) : List Char :=
  match s.reverse.dropWhile (· ≠ '.') with
  | [] => s
  | _ :: rest => rest.reverse

def synthName : NameField → String → String
  | .relpath, rel => rel
  | .relpathDotted, rel =>
    .ofList (beforeLastDot (rel.toList.map fun c => if c = '/' then '.' else c))

/-- The kinds of the nodes below the root of a file. -/
inductive SymbolKind where
  | function
  | method
  | classDef
  | variableDef
  | typeDef
  deriving DecidableEq

def SymbolKind.type : SymbolKind → String
  | .function => "Function"
  | .method => "Method"
  | .classDef => "Class"
  | .variableDef => "Variable"
  | .typeDef => "TypeDef"

def SymbolKind.lower : SymbolKind → String
  | .function => "function"
  | .method => "method"
  | .classDef => "class"
  | .variableDef => "variable"
  | .typeDef => "typedef"

/-- What the rules of an extractor make of a node of the syntax tree. -/
structure SourceSymbol where
  kind : SymbolKind
  subtype : Option String
  name : String
  qualifiedName : String
  properties : Props

def Props.setdefault (p : Props) (k v : String) : Props :=
  if h : k ∈ p.entries.map Prod.fst then p
  else ⟨p.entries ++ [(k, v)], by
    rw [List.map_append, List.nodup_append]
    refine ⟨p.nodup, by simp, ?_⟩
    rintro a ha b hb rfl
    obtain rfl : a = k := List.mem_singleton.mp hb
    exact h ha⟩

def Props.empty : Props := ⟨[], List.nodup_nil⟩

section
variable (cfg : ExtractorConfig) (repo sha rel : String)

def rootId (field : NameField) : String :=
  cfg.language.slug ++ ":module:" ++ synthName field rel ++ ":" ++ rel

def rootNode (field : NameField) : NodeDict where
  nodeId := rootId cfg rel field
  type := "Module"
  subtype := none
  repo := repo
  commitSha := sha
  path := rel
  name := synthName field rel
  properties := Props.empty.setdefault "language" cfg.language.slug

def symbolNode (sym : SourceSymbol) : NodeDict where
  nodeId := cfg.language.slug ++ ":" ++ sym.kind.lower ++ ":" ++ sym.qualifiedName
  type := sym.kind.type
  subtype := sym.subtype
  repo := repo
  commitSha := sha
  path := rel
  name := sym.name
  properties := sym.properties.setdefault "language" cfg.language.slug

end

/-- The walks over the syntax tree of a file: the symbols and the edges they find. -/
structure Parser where
  symbols : ExtractorConfig → String → Bytes → List SourceSymbol
  edges : ExtractorConfig → String → String → Bytes → List EdgeDict

/-- `parse_file`; a file that cannot be read gives nothing. -/
def Parser.parseFile (P : Parser) (repo sha : String) (cfg : ExtractorConfig) (rel : String) :
    Option Bytes → List NodeDict × List EdgeDict
  | none => ([], [])
  | some source =>
    ((cfg.fileRoot.map (rootNode cfg repo sha rel)).toList ++
        (P.symbols cfg rel source).map (symbolNode cfg repo sha rel),
      P.edges cfg rel sha source)

/-! ## Working trees -/

/-- The files of a checked out commit, in the order in which they are walked. -/
structure Tree where
  files : List (String × Bytes)
  nodup : (files.map Prod.fst).Nodup

def Tree.paths (t : Tree) : List String := t.files.map Prod.fst

def Tree.read (t : Tree) (rel : String) : Option Bytes :=
  (t.files.find? (·.1 = rel)).map Prod.snd

theorem Tree.read_of_mem {t : Tree} {rel : String} (h : rel ∈ t.paths) :
    ∃ source, t.read rel = some source ∧ (rel, source) ∈ t.files := by
  obtain ⟨f, hf, rfl⟩ := List.mem_map.mp h
  exact ⟨f.2, congrArg (Option.map Prod.snd) ((find_key_iff t.nodup).mpr ⟨hf, rfl⟩), hf⟩

def skippedDir (d : List Char) : Bool :=
  [".git", "__pycache__", "node_modules", "dist", "build"].any (·.toList = d) ||
    ".venv".toList.isPrefixOf d

/-- No directory on the way to the file is left out. -/
def walks (rel : String) : Bool := (rel.toList.splitOn '/').dropLast.all (!skippedDir ·)

def Tree.walkRepo (t : Tree) : List (String × Bytes × ExtractorConfig) :=
  t.files.filterMap fun f =>
    if walks f.1 then (pickExtractor f.1).map fun cfg => (f.1, f.2, cfg) else none

/-! ## What an extractor picks -/

/-- The extension at the end of a pattern. -/
structure Extension (cfg : ExtractorConfig) (ext : List Char) : Prop where
  plain : '.' ∉ ext ∧ '/' ∉ ext ∧ '"' ∉ ext
  dotted : cfg.fileRoot = some .relpathDotted → ext.length = 2 ∨ ext.length = 3

theorem include_extension {cfg : ExtractorConfig} (hcfg : cfg ∈ extractors) {pat : String}
    (hpat : pat ∈ cfg.includeGlobs) :
    ∃ ext, Extension cfg ext ∧
      translate pat.toList = [.star, .star, .lit '/', .star] ++ ('.' :: ext).map .lit := by
  simp only [extractors, List.mem_cons, List.not_mem_nil, or_false] at hcfg
  rcases hcfg with rfl | rfl | rfl | rfl
  · simp only [List.mem_cons, List.not_mem_nil, or_false] at hpat
    rcases hpat with rfl | rfl
    · exact ⟨"sh".toList, ⟨by decide, by decide⟩, rfl⟩
    · exact ⟨"bash".toList, ⟨by decide, by decide⟩, rfl⟩
  · cases hpat
  · simp only [List.mem_cons, List.not_mem_nil, or_false] at hpat
    rcases hpat with rfl | rfl
    · exact ⟨"py".toList, ⟨by decide, by decide⟩, rfl⟩
    · exact ⟨"pyi".toList, ⟨by decide, by decide⟩, rfl⟩
  · simp only [List.mem_cons, List.not_mem_nil, or_false] at hpat
    rcases hpat with rfl | rfl | rfl | rfl | rfl | rfl
    · exact ⟨"ts".toList, ⟨by decide, by decide⟩, rfl⟩
    · exact ⟨"tsx".toList, ⟨by decide, by decide⟩, rfl⟩
    · exact ⟨"js".toList, ⟨by decide, by decide⟩, rfl⟩
    · exact ⟨"jsx".toList, ⟨by decide, by decide⟩, rfl⟩
    · exact ⟨"mjs".toList, ⟨by decide, by decide⟩, rfl⟩
    · exact ⟨"cjs".toList, ⟨by decide, by decide⟩, rfl⟩

section
variable {cfg cfg' : ExtractorConfig} {rel rel' : String}

theorem picked_mem (h : pickExtractor rel = some cfg) : cfg ∈ extractors :=
  List.mem_of_find?_eq_some h

theorem picked_include (h : pickExtractor rel = some cfg) :
    ∃ pat ∈ cfg.includeGlobs, fnmatch rel pat = true := by
  have htakes : cfg.takes rel = true := by simpa using List.find?_some h
  exact List.any_eq_true.mp (Bool.and_eq_true_iff.mp htakes).2

/-- The path has a directory, and an extension after it. -/
theorem picked_extension (h : pickExtractor rel = some cfg) :
    ∃ pre ext, rel.toList = pre ++ '.' :: ext ∧ pre ≠ [] ∧ Extension cfg ext := by
  obtain ⟨pat, hpat, hmatch⟩ := picked_include h
  obtain ⟨ext, hext, htranslate⟩ := include_extension (picked_mem h) hpat
  rw [fnmatch, htranslate] at hmatch
  obtain ⟨pre, hpre⟩ := suffix_of_spells hmatch
  refine ⟨pre, ext, hpre.symm, ?_, hext⟩
  rintro rfl
  obtain ⟨_, rest, hrel, hrest⟩ := spells_star_iff.mp hmatch
  obtain ⟨_, rest', rfl, hrest'⟩ := spells_star_iff.mp hrest
  obtain ⟨rest'', rfl, _⟩ := spells_lit_iff.mp hrest'
  have hslash : '/' ∈ '.' :: ext := by
    rw [← List.nil_append ('.' :: ext), hpre, hrel]
    simp
  rcases List.mem_cons.mp hslash with h | h
  · cases h
  · exact hext.plain.2.1 h

theorem pickExtractor_quoted (s : List Char) : pickExtractor (.ofList (s ++ ['"'])) = none := by
  by_contra hsome
  obtain ⟨cfg, hcfg⟩ := Option.ne_none_iff_exists'.mp hsome
  obtain ⟨pre, ext, heq, _, hext⟩ := picked_extension hcfg
  rw [String.toList_ofList] at heq
  rcases List.eq_nil_or_concat ext with rfl | ⟨front, last, rfl⟩
  · have hlast := (List.append_inj' heq rfl).2
    cases hlast
  · rw [List.concat_eq_append, ← List.cons_append, ← List.append_assoc] at heq
    obtain rfl : '"' = last := List.singleton_inj.mp (List.append_inj' heq rfl).2
    exact hext.plain.2.2 (by simp)

theorem picked_root (h : pickExtractor rel = some cfg) : ∃ field, cfg.fileRoot = some field := by
  obtain ⟨pat, hpat, _⟩ := picked_include h
  have hcfg := picked_mem h
  simp only [extractors, List.mem_cons, List.not_mem_nil, or_false] at hcfg
  rcases hcfg with rfl | rfl | rfl | rfl
  · exact ⟨_, rfl⟩
  · cases hpat
  · exact ⟨_, rfl⟩
  · exact ⟨_, rfl⟩

theorem beforeLastDot_append {pre ext : List Char} (h : '.' ∉ ext) :
    beforeLastDot (pre ++ '.' :: ext) = pre := by
  have hdrop : (pre ++ '.' :: ext).reverse.dropWhile (· ≠ '.') = '.' :: pre.reverse := by
    rw [List.reverse_append, List.reverse_cons, List.append_assoc, List.singleton_append,
      List.dropWhile_append_of_pos, List.dropWhile_cons_of_neg (by simp)]
    intro c hc
    exact decide_eq_true fun hdot => h (hdot ▸ List.mem_reverse.mp hc)
  rw [beforeLastDot, hdrop]
  exact List.reverse_reverse pre

/-- The dotted name leaves out the extension, of two characters or three, and the dot before it. -/
theorem length_synthName_dotted (h : pickExtractor rel = some cfg)
    (hroot : cfg.fileRoot = some .relpathDotted) :
    0 < (synthName .relpathDotted rel).toList.length ∧ ∃ k, (k = 3 ∨ k = 4) ∧
      (synthName .relpathDotted rel).toList.length + k = rel.toList.length := by
  obtain ⟨pre, ext, heq, hpre, hext⟩ := picked_extension h
  have hdots : '.' ∉ ext.map fun c => if c = '/' then '.' else c := by
    intro hdot
    obtain ⟨c, hc, hcdot⟩ := List.mem_map.mp hdot
    split at hcdot
    · rename_i hslash
      exact hext.plain.2.1 (hslash ▸ hc)
    · exact hext.plain.1 (hcdot ▸ hc)
  have hname : (synthName .relpathDotted rel).toList.length = pre.length := by
    rw [synthName, heq, List.map_append, List.map_cons, if_neg (by decide), String.toList_ofList,
      beforeLastDot_append hdots, List.length_map]
  rw [hname]
  refine ⟨List.length_pos_iff.mpr hpre, ext.length + 1, ?_, ?_⟩
  · rcases hext.dotted hroot with h | h
    · exact .inl (by rw [h])
    · exact .inr (by rw [h])
  · rw [heq, List.length_append, List.length_cons]

theorem picked_ne_empty (h : pickExtractor rel = some cfg) : rel ≠ "" := by
  obtain ⟨pre, ext, heq, hpre, _⟩ := picked_extension h
  rintro rfl
  exact hpre (List.append_eq_nil_iff.mp heq.symm).1

theorem synthName_ne_empty {field : NameField} (h : pickExtractor rel = some cfg)
    (hroot : cfg.fileRoot = some field) : synthName field rel ≠ "" := by
  cases field with
  | relpath => exact picked_ne_empty h
  | relpathDotted =>
    intro hempty
    have hpos := (length_synthName_dotted h hroot).1
    rw [hempty] at hpos
    exact absurd hpos (by decide)

/-! ## The ids of nodes -/

theorem Language.colon_notMem_slug (l : Language) : ':' ∉ l.slug.toList := by
  cases l <;> decide

theorem Language.slug_injective {l l' : Language} (h : l.slug.toList = l'.slug.toList) :
    l = l' := by
  cases l <;> cases l' <;> simp [slug] at h ⊢

theorem SymbolKind.colon_notMem_lower (k : SymbolKind) : ':' ∉ k.lower.toList := by
  cases k <;> decide

theorem SymbolKind.lower_ne_module (k : SymbolKind) : k.lower.toList ≠ "module".toList := by
  cases k <;> decide

theorem rootId_toList (cfg : ExtractorConfig) (rel : String) (field : NameField) :
    (rootId cfg rel field).toList = cfg.language.slug.toList ++ ':' ::
      ("module".toList ++ ':' :: ((synthName field rel).toList ++ ':' :: rel.toList)) := by
  simp [rootId]

theorem symbolId_toList (cfg : ExtractorConfig) (repo sha rel : String) (sym : SourceSymbol) :
    (symbolNode cfg repo sha rel sym).nodeId.toList = cfg.language.slug.toList ++ ':' ::
      (sym.kind.lower.toList ++ ':' :: sym.qualifiedName.toList) := by
  simp [symbolNode]

theorem symbolId_ne_rootId (cfg cfg' : ExtractorConfig) (repo sha rel rel' : String)
    (sym : SourceSymbol) (field : NameField) :
    (symbolNode cfg repo sha rel sym).nodeId ≠ rootId cfg' rel' field := by
  intro heq
  have htext := congrArg String.toList heq
  rw [symbolId_toList, rootId_toList] at htext
  obtain ⟨_, hrest⟩ := append_cons_inj_of_notMem_left (cfg.language.colon_notMem_slug)
    (cfg'.language.colon_notMem_slug) htext
  obtain ⟨hkind, _⟩ := append_cons_inj_of_notMem_left sym.kind.colon_notMem_lower (by decide) hrest
  exact sym.kind.lower_ne_module hkind

theorem picked_eq_of_language (h : pickExtractor rel = some cfg)
    (h' : pickExtractor rel' = some cfg') (hlang : cfg.language = cfg'.language) : cfg = cfg' := by
  have hnodup : (extractors.map ExtractorConfig.language).Nodup := by decide
  exact List.inj_on_of_nodup_map hnodup (picked_mem h) (picked_mem h') hlang

theorem rootId_inj {field field' : NameField} (h : pickExtractor rel = some cfg)
    (h' : pickExtractor rel' = some cfg') (hroot : cfg.fileRoot = some field)
    (hroot' : cfg'.fileRoot = some field') (heq : rootId cfg rel field = rootId cfg' rel' field') :
    rel = rel' := by
  have htext := congrArg String.toList heq
  rw [rootId_toList, rootId_toList] at htext
  obtain ⟨hslug, hrest⟩ := append_cons_inj_of_notMem_left (cfg.language.colon_notMem_slug)
    (cfg'.language.colon_notMem_slug) htext
  obtain rfl := picked_eq_of_language h h' (Language.slug_injective hslug)
  obtain rfl : field = field' := Option.some_inj.mp (hroot.symm.trans hroot')
  obtain ⟨_, hpaths⟩ := append_cons_inj_of_notMem_left (by decide) (by decide) hrest
  have hsum := congrArg List.length hpaths
  rw [List.length_append, List.length_append, List.length_cons, List.length_cons] at hsum
  -- The path stands twice in the id, the first time without a suffix of known length.
  have hlength : rel.toList.length = rel'.toList.length := by
    cases field with
    | relpath =>
      rw [synthName, synthName] at hsum
      omega
    | relpathDotted =>
      obtain ⟨_, k, hk, hlen⟩ := length_synthName_dotted h hroot
      obtain ⟨_, k', hk', hlen'⟩ := length_synthName_dotted h' hroot'
      omega
  have htail : ':' :: rel.toList = ':' :: rel'.toList :=
    (List.append_inj' hpaths (by rw [List.length_cons, List.length_cons, hlength])).2
  exact String.toList_inj.mp (List.cons_eq_cons.mp htail).2

end

end SpineFormal.Kg

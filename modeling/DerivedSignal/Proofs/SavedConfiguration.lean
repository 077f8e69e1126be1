import DerivedSignal.Proofs.QuotedTexts
import DerivedSignal.Proofs.SavedDocuments
import DerivedSignal.Proofs.WrittenIntegers
import DerivedSignal.Toml.Reader

namespace DerivedSignal

namespace Toml

/-- The characters of a key that needs no quote marks. -/
structure PlainKey (k : List Char) : Prop where
  ne_nil : k ≠ []
  chars : ∀ c ∈ k, isKeyChar c = true

theorem ne_of_isKeyChar {c : Char} (h : isKeyChar c = true) :
    isBlank c = false ∧ c ≠ '\x22' ∧ c ≠ '\x27' ∧ c ≠ '[' ∧ c ≠ '#' ∧ c ≠ '\n' ∧ c ≠ '\x0d' := by
  refine ⟨Bool.eq_false_iff.mpr fun hblank => ?_, ?_, ?_, ?_, ?_, ?_, ?_⟩
  · simp only [isBlank, Bool.or_eq_true, decide_eq_true_eq] at hblank
    rcases hblank with rfl | rfl <;> simp [isKeyChar] at h
  all_goals
    rintro rfl
    simp [isKeyChar] at h

theorem PlainKey.eq_cons {k : List Char} (h : PlainKey k) : ∃ c t, k = c :: t ∧ isKeyChar c = true := by
  cases k with
  | nil => exact absurd rfl h.ne_nil
  | cons c t => exact ⟨c, t, rfl, h.chars c List.mem_cons_self⟩

/-- A key, and no other one behind it. -/
theorem PlainKey.readKeys? {k : List Char} (h : PlainKey k) {c : Char} {after rest : List Char}
    (hc : isKeyChar c = false) (hafter : skipBlanks (c :: after) = rest) (hdot : ∀ t, rest ≠ '.' :: t) :
    readKeys? keyLimit (k ++ c :: after) = some ([String.ofList k], rest) := by
  obtain ⟨a, t, rfl, ha⟩ := h.eq_cons
  obtain ⟨hblank, hquote, hmark, -⟩ := ne_of_isKeyChar ha
  have htake : (a :: t ++ c :: after).takeWhile isKeyChar = a :: t := by
    rw [List.takeWhile_append_of_pos h.chars, List.takeWhile_cons_of_neg (by simp [hc]), List.append_nil]
  have hdrop : (a :: t ++ c :: after).dropWhile isKeyChar = c :: after := by
    rw [List.dropWhile_append_of_pos h.chars, List.dropWhile_cons_of_neg (by simp [hc])]
  have hskip : skipBlanks (a :: t ++ c :: after) = a :: t ++ c :: after := by
    simp [skipBlanks, hblank]
  have hkey : readKey? (a :: t ++ c :: after) = some (String.ofList (a :: t), c :: after) := by
    unfold readKey?
    split
    next => simp_all
    next => simp_all
    next =>
      rw [htake, hdrop]
      rfl
  rw [keyLimit, Toml.readKeys?, hskip, hkey]
  simp only [hafter]

/-- A text that stands for a value at the end of a line. -/
structure Spells (w : List Char) (v : Value) : Prop where
  start : ∃ c t, w = c :: t ∧ isBlank c = false
  reads : ∀ (fuel depth : ℕ) (rest : List Char),
    readValue? (fuel + 1) depth (w ++ '\n' :: rest) = some (v, '\n' :: rest)

theorem quoted_eq_cons (text : String) :
    ∃ c t, (quoted text).toList = c :: t ∧ (c = '\x22' ∨ c = '\x27') := by
  unfold quoted
  simp only [String.toList_ofList]
  split
  next => exact ⟨_, _, rfl, .inl rfl⟩
  next => exact ⟨_, _, rfl, .inr rfl⟩
  next => exact ⟨_, _, rfl, .inl rfl⟩
  next => exact ⟨_, _, rfl, .inr rfl⟩

theorem spells_quoted (text : String) : Spells (quoted text).toList (.string text) := by
  obtain ⟨c, t, ht, hc⟩ := quoted_eq_cons text
  refine ⟨⟨c, t, ht, by rcases hc with rfl | rfl <;> rfl⟩, fun fuel depth rest => ?_⟩
  have hread := readText?_quoted text rest
  rw [ht] at hread ⊢
  rcases hc with rfl | rfl <;> simp only [List.cons_append] at hread ⊢ <;> simp [readValue?, hread]

theorem spells_number {n : ℕ} (h : (n : ℤ) ≤ greatestInteger) : Spells (Nat.toDigits 10 n) (.integer n) := by
  have hdigits := toDigits_isDigit n
  obtain ⟨d, ds, hds⟩ := List.exists_cons_of_ne_nil (Nat.toDigits_ne_nil (b := 10) (n := n))
  have hd : d.isDigit = true := hdigits d (hds ▸ List.mem_cons_self)
  refine ⟨⟨d, ds, hds, (ne_of_isKeyChar (by simp [isKeyChar, Char.isAlphanum, hd])).1⟩, fun fuel depth rest => ?_⟩
  · have hread := readMeasure?_toDigits h rest
    have hother : d ≠ '\x22' ∧ d ≠ '\x27' ∧ d ≠ 't' ∧ d ≠ 'f' ∧ d ≠ '[' ∧ d ≠ '\x7b' := by
      refine ⟨?_, ?_, ?_, ?_, ?_, ?_⟩ <;> exact ne_of_isDigit hd rfl
    rw [hds] at hread ⊢
    unfold readValue?
    split <;> simp_all

/-- Whole lines that say some statements. -/
def Says (lines : List Char) (statements : List Statement) : Prop :=
  ∃ n ≤ lines.length, ∀ (fuel : ℕ) (rest : List Char),
    readStatements? (n + fuel) (lines ++ rest) = (readStatements? fuel rest).map (statements ++ ·)

theorem Says.nil : Says [] [] := ⟨0, le_rfl, fun fuel rest => by simp⟩

theorem Says.append {lines lines' : List Char} {statements statements' : List Statement}
    (h : Says lines statements) (h' : Says lines' statements') :
    Says (lines ++ lines') (statements ++ statements') := by
  obtain ⟨n, hn, hread⟩ := h
  obtain ⟨m, hm, hread'⟩ := h'
  refine ⟨n + m, by rw [List.length_append]; omega, fun fuel rest => ?_⟩
  rw [Nat.add_assoc, List.append_assoc, hread, hread', Option.map_map]
  simp [Function.comp_def]

theorem says_blank : Says ['\n'] [] := by
  refine ⟨1, le_rfl, fun fuel rest => ?_⟩
  rw [Nat.add_comm, List.singleton_append, readStatements?]
  simp [skipBlanks, isBlank]

/-- A line with one statement. -/
theorem says_statement {c : Char} {t : List Char} {statement : Statement} (hblank : isBlank c = false)
    (hc : c ≠ '#' ∧ c ≠ '\n' ∧ c ≠ '\x0d')
    (h : ∀ rest, readStatement? (c :: t ++ rest) = some (statement, rest)) : Says (c :: t) [statement] := by
  refine ⟨1, by simp, fun fuel rest => ?_⟩
  have hskip : skipBlanks (c :: t ++ rest) = c :: t ++ rest := by simp [skipBlanks, hblank]
  rw [Nat.add_comm, readStatements?, hskip]
  have hread := h rest
  split <;> simp_all

theorem lineEnd?_feed (rest : List Char) : lineEnd? ('\n' :: rest) = some rest := by
  simp [lineEnd?, skipBlanks, isBlank, skipComment, newline?]

theorem readStatement?_assignment {k w : List Char} (hk : PlainKey k) {v : Value} (h : Spells w v)
    (rest : List Char) : readStatement? (k ++ ' ' :: '=' :: ' ' :: (w ++ '\n' :: rest)) =
      some (.assign [] (String.ofList k) v, rest) := by
  obtain ⟨c, t, rfl, hc⟩ := hk.eq_cons
  obtain ⟨-, -, -, hbracket, -⟩ := ne_of_isKeyChar hc
  have hequals : skipBlanks (' ' :: '=' :: ' ' :: (w ++ '\n' :: rest)) = '=' :: ' ' :: (w ++ '\n' :: rest) := rfl
  have hkeys := hk.readKeys? rfl hequals (by simp)
  have hskip : skipBlanks (' ' :: (w ++ '\n' :: rest)) = w ++ '\n' :: rest := by
    obtain ⟨a, t', rfl, ha⟩ := h.start
    rw [skipBlanks, List.dropWhile_cons_of_pos rfl, List.cons_append, List.dropWhile_cons_of_neg (by simp [ha])]
  unfold readStatement?
  split
  next => simp_all
  next => simp_all
  next =>
    rw [hkeys]
    simp [splitKeys, hskip, h.reads, lineEnd?_feed]

theorem readStatement?_header {k : List Char} (hk : PlainKey k) (rest : List Char) :
    readStatement? ('[' :: (k ++ ']' :: '\n' :: rest)) = some (.table [] (String.ofList k), rest) := by
  obtain ⟨c, t, rfl, hc⟩ := hk.eq_cons
  obtain ⟨-, -, -, hbracket, -⟩ := ne_of_isKeyChar hc
  have hbehind : skipBlanks (']' :: '\n' :: rest) = ']' :: '\n' :: rest := rfl
  have hkeys := hk.readKeys? rfl hbehind (by simp)
  unfold readStatement?
  split
  next => simp_all
  next heq =>
    cases heq
    rw [hkeys]
    simp [splitKeys, lineEnd?_feed]
  next => simp_all

theorem says_assignment {key : String} (hkey : PlainKey key.toList) {w : String} {v : Value}
    (h : Spells w.toList v) : Says (assignment key w).toList [.assign [] key v] := by
  obtain ⟨c, t, ht, hc⟩ := hkey.eq_cons
  obtain ⟨hblank, -, -, -, hplain⟩ := ne_of_isKeyChar hc
  have hline : (assignment key w).toList = c :: (t ++ ' ' :: '=' :: ' ' :: (w.toList ++ ['\n'])) := by
    simp [assignment, ht]
  rw [hline]
  refine says_statement hblank hplain fun rest => ?_
  have hread := readStatement?_assignment hkey h rest
  rw [String.ofList_toList, ht] at hread
  simpa using hread

theorem says_header {name : String} (hname : PlainKey name.toList) :
    Says ("[" ++ name ++ "]\n").toList [.table [] name] := by
  have hline : ("[" ++ name ++ "]\n").toList = '[' :: (name.toList ++ [']', '\n']) := by simp
  rw [hline]
  refine says_statement (by rfl) (by decide) fun rest => ?_
  have hread := readStatement?_header hname rest
  rw [String.ofList_toList] at hread
  simpa using hread

theorem says_join {α : Type} {line : α → String} {statement : α → Statement} {items : List α}
    (h : ∀ a ∈ items, Says (line a).toList [statement a]) :
    Says (String.join (items.map line)).toList (items.map statement) := by
  induction items with
  | nil => exact .nil
  | cons a items ih =>
    obtain ⟨ha, hitems⟩ := List.forall_mem_cons.mp h
    have hboth := ha.append (ih hitems)
    simpa [String.join_cons] using hboth

/-- What a whole document says. -/
theorem Says.statements {text : List Char} {statements : List Statement} (h : Says text statements) :
    readStatements? (text.length + 1) text = some statements := by
  obtain ⟨n, hn, hread⟩ := h
  have hfuel : text.length + 1 = n + (text.length - n + 1) := by omega
  have hall := hread (text.length - n + 1) []
  rw [List.append_nil] at hall
  rw [hfuel, hall]
  simp [readStatements?, skipBlanks]

end Toml

namespace Config

open Toml

variable {c : Config}

/-- What the lines of the limits say. -/
def limitStatements (c : Config) : List Statement :=
  (limitNames.zip (limitValues c.limits)).map fun l => .assign [] l.1 (.integer l.2)

/-- What the lines of the log say. -/
def loggingStatements (c : Config) : List Statement :=
  .assign [] "filter" (.string c.filter) :: c.directory.toList.map fun d => .assign [] "directory" (.string d)

/-- What the document of a configuration says. -/
def statements (c : Config) : List Statement :=
  .table [] "limits" :: c.limitStatements ++ .table [] "logging" :: c.loggingStatements

/-- The tables that the statements fill. -/
def members (c : Config) : List (String × Value) :=
  [("limits", .table ((limitNames.zip (limitValues c.limits)).map fun l => (l.1, .integer l.2))),
    ("logging", .table (("filter", .string c.filter) ::
      c.directory.toList.map fun d => ("directory", .string d)))]

/-- The lines of the limits. -/
def limitLines (c : Config) : List String :=
  (limitNames.zip (limitValues c.limits)).map fun l => assignment l.1 (toString l.2)

/-- The lines of the log. -/
def loggingLines (c : Config) : List String :=
  assignment "filter" (quoted c.filter) :: c.directory.toList.map fun d => assignment "directory" (quoted d)

/-- The limits are small enough for a document. -/
def Printable (c : Config) : Prop := ∀ n ∈ limitValues c.limits, (n : ℤ) ≤ greatestInteger

instance : Decidable c.Printable :=
  inferInstanceAs (Decidable (∀ n ∈ limitValues c.limits, (n : ℤ) ≤ greatestInteger))

theorem print?_of_printable (h : c.Printable) :
    c.print? = some (headed "limits" c.limitLines ++ "\n" ++ headed "logging" c.loggingLines) := by
  have hfits : (limitValues c.limits).any (fun (n : ℕ) => (n : ℤ) > greatestInteger) = false := by
    simpa [List.any_eq_false, Printable] using h
  unfold print?
  rw [hfits]
  cases hdirectory : c.directory <;> simp [limitLines, loggingLines, hdirectory]

theorem print?_of_not_printable (h : ¬ c.Printable) : c.print? = none := by
  refine if_pos ?_
  simpa [List.any_eq_true, Printable] using h

theorem plainKey_of_mem {name : String} (h : name ∈ "filter" :: "directory" :: limitNames) :
    PlainKey name.toList := by
  simp only [limitNames, List.mem_cons, List.not_mem_nil, or_false] at h
  rcases h with rfl | rfl | rfl | rfl | rfl | rfl | rfl | rfl | rfl <;>
    exact ⟨by simp, by simp [isKeyChar]⟩

theorem toList_toString (n : ℕ) : (toString n).toList = Nat.toDigits 10 n := by
  rw [Nat.toString_eq_ofList_toDigits, String.toList_ofList]

theorem says_limitLines (h : c.Printable) : Says (String.join c.limitLines).toList c.limitStatements := by
  refine says_join fun l hl => ?_
  obtain ⟨hname, hvalue⟩ := List.of_mem_zip hl
  refine says_assignment (plainKey_of_mem (by simp [hname])) ?_
  rw [toList_toString]
  exact spells_number (h l.2 hvalue)

theorem says_loggingLines (c : Config) : Says (String.join c.loggingLines).toList c.loggingStatements := by
  have hfilter : Says (assignment "filter" (quoted c.filter)).toList [.assign [] "filter" (.string c.filter)] :=
    says_assignment (plainKey_of_mem (by simp)) (spells_quoted c.filter)
  have hdirectory : Says (String.join (c.directory.toList.map fun d => assignment "directory" (quoted d))).toList
      (c.directory.toList.map fun d => .assign [] "directory" (.string d)) :=
    says_join fun d _ => says_assignment (plainKey_of_mem (by simp)) (spells_quoted d)
  rw [loggingLines, String.join_cons, String.toList_append]
  exact hfilter.append hdirectory

theorem says_headed {name : String} {lines : List String} {said : List Statement} (hname : PlainKey name.toList)
    (h : Says (String.join lines).toList said) : Says (headed name lines).toList (.table [] name :: said) := by
  rw [headed, String.toList_append]
  exact (says_header hname).append h

/-- The document of a configuration says what is in it. -/
theorem says_document (h : c.Printable) :
    Says (headed "limits" c.limitLines ++ "\n" ++ headed "logging" c.loggingLines).toList c.statements := by
  have hlimits : Says (headed "limits" c.limitLines).toList (.table [] "limits" :: c.limitStatements) :=
    says_headed ⟨by simp, by simp [isKeyChar]⟩ (says_limitLines h)
  have hlogging : Says (headed "logging" c.loggingLines).toList (.table [] "logging" :: c.loggingStatements) :=
    says_headed ⟨by simp, by simp [isKeyChar]⟩ (says_loggingLines c)
  have hall := (hlimits.append says_blank).append hlogging
  rw [List.append_nil] at hall
  rw [String.toList_append, String.toList_append]
  exact hall

theorem draft_statements (c : Config) :
    (do
      let draft ← c.statements.foldlM Draft.step ⟨[], .root, []⟩
      return finish (← draft.close)) = some c.members := by
  obtain ⟨limits, filter, directory⟩ := c
  cases directory <;> rfl

theorem read_members (c : Config) : (do
    let limits ← readLimits? (c.members.lookup "limits")
    let (filter, directory) ← readLogging? (c.members.lookup "logging")
    return (⟨limits, filter, directory⟩ : Config)) = some c := by
  obtain ⟨limits, filter, directory⟩ := c
  cases directory <;> rfl

/-- A configuration is read back from its document. -/
theorem parse?_print? {text : String} (h : c.print? = some text) : parse? text = some c := by
  have hprintable : c.Printable := by
    by_contra hnot
    rw [print?_of_not_printable hnot] at h
    cases h
  rw [print?_of_printable hprintable] at h
  cases h
  have hsays := says_document hprintable
  set text := headed "limits" c.limitLines ++ "\n" ++ headed "logging" c.loggingLines with htext
  have hmark : skipMark text.toList = text.toList := by
    simp [htext, headed, skipMark]
  have htoml : Toml.parse? text = some c.members := by
    rw [Toml.parse?, hmark, hsays.statements]
    exact draft_statements c
  rw [parse?, htoml]
  exact read_members c

end Config

namespace FileTree

variable {t t' : FileTree} {path : String}

/-- Creating directories leaves the files as they are. -/
theorem files_createFrom {l : Location} {parts : List String} (h : t.createFrom l parts = .ok t') :
    t'.files = t.files := by
  induction parts generalizing l with
  | nil =>
    unfold createFrom at h
    split at h
    next => cases h
    next =>
      cases h
      rfl
    next =>
      cases h
      rfl
  | cons part parts ih =>
    unfold createFrom at h
    split at h
    next => cases h
    next =>
      split_ifs at h
      · exact ih h
      · exact ih h
      · exact ih h

theorem files_createDirectories (h : t.createDirectories path = .ok t') : t'.files = t.files := by
  unfold createDirectories at h
  split at h
  next =>
    cases h
    rfl
  next => exact files_createFrom h

/-- Where one text can be written, any other can. -/
theorem write_other {text : String} (h : t.write path text = .ok t') (other : String) :
    ∃ u, t.write path other = .ok u := by
  unfold write at h ⊢
  split at h
  next => cases h
  next => cases h
  next =>
    split at h
    next => cases h
    next => exact ⟨_, rfl⟩

end FileTree

namespace Storage

theorem partsBehind_append_separator (front cs : List Char) :
    partsBehind front (cs ++ ['/']) = partsBehind front cs ++ [""] := by
  induction cs generalizing front with
  | nil => rfl
  | cons c cs ih =>
    rw [List.cons_append, partsBehind, partsBehind]
    split
    next => rw [ih, List.cons_append]
    next => exact ih _

theorem exists_partsBehind (front cs : List Char) : ∃ first rest, partsBehind front cs = first :: rest := by
  induction cs generalizing front with
  | nil => exact ⟨_, _, rfl⟩
  | cons c cs ih =>
    rw [partsBehind]
    split
    next => exact ⟨_, _, rfl⟩
    next => exact ih _

theorem trimParts_append_empty (first : String) (rest : List String) :
    trimParts (first :: rest ++ [""]) = trimParts (first :: rest) := by
  simp [trimParts]

/-- A file is in the same directory if a separator follows its name. -/
theorem parentOf_append_separator (path : String) : parentOf (path ++ "/") = parentOf path := by
  have hparts : pathParts (path ++ "/") = pathParts path ++ [""] := by
    rw [pathParts, String.toList_append]
    exact partsBehind_append_separator [] path.toList
  obtain ⟨first, rest, hfirst⟩ : ∃ first rest, pathParts path = first :: rest := exists_partsBehind [] path.toList
  rw [parentOf, parentOf, hparts, hfirst, trimParts_append_empty]

/-- A file can be written once the directories on the way to it are there, and these can be created. -/
def Writable (t : FileTree) (path : String) : Prop :=
  ∃ t₁ text t₂, t.createDirectories (parentOf path) = .ok t₁ ∧ t₁.write path text = .ok t₂

theorem load_written {t t' : FileTree} {path text : String} {c : Config} (hparse : Config.parse? text = some c)
    (h : t.write path text = .ok t') : (loadConfig path).run t' = (t', .ok c) := by
  simp only [loadConfig, Dialogue.readText, bind, Dialogue.andThen, Dialogue.run, FileTree.readText_write h, hparse,
    pure]

/-- A configuration whose limits fit in a document is saved in every file that can be written, and what is
loaded from there is the same configuration. If a limit does not fit, saving it is refused everywhere, with a
fault in the configuration, and no file is touched. -/
theorem saved_configuration_returns (c : Config) :
    (c.Printable → ∀ (t : FileTree) (path : String), Writable t path →
      ∃ t', (saveConfig path c).run t = (t', .ok ()) ∧ (loadConfig path).run t' = (t', .ok c)) ∧
    (¬ c.Printable → ∀ (t : FileTree) (path : String),
      ∃ t' message, (saveConfig path c).run t = (t', .error (.config message)) ∧ t'.files = t.files) := by
  constructor
  · rintro hprintable t path ⟨t₁, text, t₂, hcreate, hwrite⟩
    have hprint := Config.print?_of_printable hprintable
    obtain ⟨t', hsaved⟩ := FileTree.write_other hwrite _
    refine ⟨t', ?_, load_written (Config.parse?_print? hprint) hsaved⟩
    simp only [saveConfig, Dialogue.createDirectories, Dialogue.writeText, bind, Dialogue.andThen, Dialogue.run,
      Dialogue.answered, hcreate, hprint, hsaved, pure]
  · intro hnot t path
    have hprint := Config.print?_of_not_printable hnot
    cases hcreate : t.createDirectories (parentOf path) with
    | error e =>
      refine ⟨t, "Failed to create config directory: " ++ e.message, ?_, rfl⟩
      simp only [saveConfig, Dialogue.createDirectories, bind, Dialogue.andThen, Dialogue.run, Dialogue.answered,
        hcreate, pure]
    | ok t₁ =>
      refine ⟨t₁, "Failed to serialize config: out-of-range value for u64 type", ?_,
        FileTree.files_createDirectories hcreate⟩
      simp only [saveConfig, Dialogue.createDirectories, bind, Dialogue.andThen, Dialogue.run, Dialogue.answered,
        hcreate, hprint, pure]

theorem writable_empty : Writable ⟨[], []⟩ "a/math.toml" := by
  have hparts : pathParts "a/math.toml" = ["a", "math.toml"] := by simp [pathParts, partsBehind]
  have hparent : parentOf "a/math.toml" = "a" := by
    rw [parentOf, hparts]
    rfl
  have hcreate : FileTree.createDirectories ⟨[], []⟩ "a" = .ok ⟨[], [["a"]]⟩ := by
    simp [FileTree.createDirectories, pathParts, partsBehind, FileTree.createFrom, FileTree.entry?]
  have hlocate : FileTree.locate ⟨[], [["a"]]⟩ "a/math.toml" = .ok ["a", "math.toml"] := by
    simp [FileTree.locate, pathParts, partsBehind, FileTree.walk, FileTree.entry?]
  have hwrite : FileTree.write ⟨[], [["a"]]⟩ "a/math.toml" "" = .ok ⟨[(["a", "math.toml"], "".toUTF8)], [["a"]]⟩ := by
    simp [FileTree.write, hlocate, FileTree.entry?]
  refine ⟨_, "", _, ?_, hwrite⟩
  rw [hparent, hcreate]

/-- Quote marks, backslashes, line ends, control characters and an empty directory come back; a limit of
2 ^ 63 does not fit. -/
theorem saved_configuration_returns_odd_texts :
    (∃ t', (saveConfig "a/math.toml" ⟨{}, "\x27\x27\x27\\\x22\x22\x22\n\x0d\x01", some ""⟩).run ⟨[], []⟩ = (t', .ok ()) ∧
      (loadConfig "a/math.toml").run t' = (t', .ok ⟨{}, "\x27\x27\x27\\\x22\x22\x22\n\x0d\x01", some ""⟩)) ∧
    ∃ t' message, (saveConfig "a/math.toml" ⟨{ maxOperations := 2 ^ 63 }, "", none⟩).run ⟨[], []⟩ =
      (t', .error (.config message)) ∧ t'.files = [] :=
  ⟨(saved_configuration_returns _).1 (by decide) ⟨[], []⟩ "a/math.toml" writable_empty,
    (saved_configuration_returns _).2 (by decide) ⟨[], []⟩ "a/math.toml"⟩

end Storage

end DerivedSignal

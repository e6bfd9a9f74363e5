import Mathlib.Logic.Basic
import RookLang.Command
import RookLang.Proofs.OperatingSystem

/-! The commands that check and parse a file agree with each other, whatever the operating system
does, as long as it reads the file alike. -/
namespace RookLang

variable {σ : Type} {os : OperatingSystem (StateM σ)} {environment : Option String}
  {file : String} {source : List Char} {ts : TokenStream} {s t : σ}
  {found : Except SourceFault String}

/-- The outcome with another text printed before all else. -/
def Outcome.after (shown : String) (o : Outcome) : Outcome := { o with output := shown ++ o.output }

theorem Outcome.after_empty (o : Outcome) : o.after "" = o := by
  simp [Outcome.after]

/-- The file is read as a source text with these tokens. -/
def OperatingSystem.LexesTo (os : OperatingSystem (StateM σ)) (s : σ) (file : String)
    (ts : TokenStream) : Prop :=
  ∃ text, (SourceFile.read os file s).1 = .ok text ∧ lex text.toList = .ok ts

theorem checkSource_of_lex (h : lex source = .ok ts) :
    checkSource source = match parse ts with
      | .ok n => .ok n
      | .error e => .error (.syntactic e) := by
  rw [checkSource, h]
  dsimp only
  cases parse ts <;> rfl

theorem checkSource_of_error {e : LexError} (h : lex source = .error e) :
    checkSource source = .error (.lexical e) := by
  rw [checkSource, h]

namespace Command

/-! What a run of each command comes to, once the file has been read. -/

theorem withSource_of_ok {text : String} (next : List Char → StateM σ Outcome)
    (h : (SourceFile.read os file s).1 = .ok text) :
    withSource os file next s = next text.toList (SourceFile.read os file s).2 := by
  rw [withSource, bind_apply, h]

theorem withSource_of_error {fault : SourceFault} (next : List Char → StateM σ Outcome)
    (h : (SourceFile.read os file s).1 = .error fault) :
    withSource os file next s =
      (.failure (fault.message file), (SourceFile.read os file s).2) := by
  rw [withSource, bind_apply, h]
  rfl

theorem withTokens_of_ok {text : String} (next : List Char → TokenStream → StateM σ Outcome)
    (h : (SourceFile.read os file s).1 = .ok text) (hlex : lex text.toList = .ok ts) :
    withTokens os file next s = next text.toList ts (SourceFile.read os file s).2 := by
  rw [withTokens, withSource_of_ok _ h, hlex]

theorem withTokens_of_error {text : String} {e : LexError}
    (next : List Char → TokenStream → StateM σ Outcome)
    (h : (SourceFile.read os file s).1 = .ok text) (hlex : lex text.toList = .error e) :
    withTokens os file next s =
      (.refusal "" file text.toList (.lexical e), (SourceFile.read os file s).2) := by
  rw [withTokens, withSource_of_ok _ h, hlex]
  rfl

/-- How a check ends, by what was found where the file should be. -/
def checked (file : String) : Except SourceFault String → Outcome
  | .ok text =>
    match checkSource text.toList with
    | .ok n => .success (parsed n)
    | .error d => .refusal "" file text.toList d
  | .error fault => .failure (fault.message file)

theorem outcome_checkFile (s : σ) :
    (checkFile os file s).1 = checked file (SourceFile.read os file s).1 := by
  rw [checkFile]
  cases h : (SourceFile.read os file s).1 with
  | error fault => rw [withSource_of_error _ h, checked]
  | ok text =>
    rw [withSource_of_ok _ h, checked]
    cases checkSource text.toList <;> rfl

/-- The tokens of what was found, if it has any. -/
def tokens? (found : Except SourceFault String) : Option TokenStream :=
  found.toOption.bind fun text => (lex text.toList).toOption

theorem tokens?_eq_some_iff :
    tokens? found = some ts ↔ ∃ text, found = .ok text ∧ lex text.toList = .ok ts := by
  cases found with
  | error fault => simp [tokens?, Except.toOption]
  | ok text => cases h : lex text.toList <;> simp [tokens?, Except.toOption, h]

/-- Parsing a file comes to the same as checking it, after the table if that is asked for. -/
theorem outcome_parseFile (s : σ) (showTokens : Bool) :
    (parseFile os file showTokens s).1 = (checked file (SourceFile.read os file s).1).after
      (if showTokens then (tokens? (SourceFile.read os file s).1).elim "" Table.ascii else "") := by
  have hnone (o : Outcome) : o.after (if showTokens then "" else "") = o := by
    rw [ite_self, Outcome.after_empty]
  rw [parseFile]
  cases h : (SourceFile.read os file s).1 with
  | error fault =>
    rw [withTokens, withSource_of_error _ h]
    exact (hnone _).symm
  | ok text =>
    cases hlex : lex text.toList with
    | error e =>
      rw [withTokens_of_error _ h hlex]
      simp only [checked, checkSource_of_error hlex, tokens?, Except.toOption, Option.bind_some,
        hlex, Option.elim, hnone]
    | ok ts =>
      rw [withTokens_of_ok _ h hlex]
      simp only [checked, checkSource_of_lex hlex, tokens?, Except.toOption, Option.bind_some,
        hlex, Option.elim, Table.render]
      cases RookLang.parse ts <;> cases showTokens <;>
        simp [Outcome.after, Outcome.success, Outcome.refusal, pure_apply]

/-- Without flags, the table is all that is printed. -/
theorem outcome_tokensFile (h : os.LexesTo s file ts) :
    (tokensFile os file (settings environment none false false false) s).1 =
      .success (Table.ascii ts) := by
  obtain ⟨text, hread, hlex⟩ := h
  rw [tokensFile, withTokens_of_ok _ hread hlex]
  simp [Table.emit, settings, shown, Table.render, Outcome.success, bind_apply, pure_apply]

/-- A check that fails prints nothing. -/
theorem output_of_checked (h : (checked file found).exit ≠ 0) :
    (checked file found).output = "" := by
  unfold checked at h ⊢
  split at h
  · split at h
    · exact (h rfl).elim
    · rfl
  · rfl

theorem output_tokensFile {settings : Table.Settings}
    (h : (tokensFile os file settings s).1.exit ≠ 0) :
    (tokensFile os file settings s).1.output = "" := by
  rw [tokensFile] at h ⊢
  cases hread : (SourceFile.read os file s).1 with
  | error fault =>
    rw [withTokens, withSource_of_error _ hread]
    rfl
  | ok text =>
    cases hlex : lex text.toList with
    | error e =>
      rw [withTokens_of_error _ hread hlex]
      rfl
    | ok ts =>
      rw [withTokens_of_ok _ hread hlex] at h ⊢
      rw [bind_apply] at h ⊢
      generalize (Table.emit os ts _ settings _).1 = table at h ⊢
      cases table with
      | ok table => exact (h rfl).elim
      | error e => rfl

end Command

/-- What fails prints nothing, except for the tokens of a file that does not parse. -/
theorem Cli.output_of_exit (cli : Cli) (h : (cli.execute os environment s).1.exit ≠ 0) :
    (cli.execute os environment s).1.output = "" ∨ ∃ file ts,
      cli.command = some (.parse file true) ∧ os.LexesTo s file ts ∧
        (cli.execute os environment s).1.output = Table.ascii ts := by
  have hcheck (file : String) (h : (Command.checkFile os file s).1.exit ≠ 0) :
      (Command.checkFile os file s).1.output = "" := by
    rw [Command.outcome_checkFile] at h ⊢
    exact Command.output_of_checked h
  obtain ⟨_ | command, other⟩ := cli
  · cases other with
    | none => exact .inl rfl
    | some file => exact .inl (hcheck file h)
  cases command with
  | check file => exact .inl (hcheck file h)
  | tokens file directory save json quiet => exact .inl (Command.output_tokensFile h)
  | parse file showTokens =>
    simp only [Cli.execute, Command.outcome_parseFile] at h ⊢
    have hchecked : (Command.checked file (SourceFile.read os file s).1).output = "" :=
      Command.output_of_checked h
    cases showTokens with
    | false => exact .inl (by simp [Outcome.after, hchecked])
    | true =>
      cases hts : Command.tokens? (SourceFile.read os file s).1 with
      | none => exact .inl (by simp [Outcome.after, hchecked])
      | some ts =>
        refine .inr ⟨file, ts, rfl, Command.tokens?_eq_some_iff.mp hts, ?_⟩
        simp [Outcome.after, hchecked]

/-- Checking a file, with or without a subcommand, and parsing it come to the same if the file is
read alike. Parsing with `--tokens` prints the table that `tokens` prints before it, if the file
has tokens at all. No other run that fails prints anything. -/
theorem command_paths_agree (os : OperatingSystem (StateM σ)) (environment : Option String)
    (file : String) (other : Option String) {s t : σ}
    (h : (SourceFile.read os file t).1 = (SourceFile.read os file s).1) :
    let run (cli : Cli) (s : σ) := (cli.execute os environment s).1
    let checked := run ⟨none, some file⟩ s
    run ⟨some (.check file), other⟩ t = checked ∧
      run ⟨some (.parse file false), other⟩ t = checked ∧
      (∃ lexed : Option TokenStream, (∀ ts, lexed = some ts ↔ os.LexesTo s file ts) ∧
        run ⟨some (.parse file true), other⟩ t = checked.after (lexed.elim "" Table.ascii) ∧
        ∀ ts ∈ lexed, run ⟨some (.tokens file none false false false), other⟩ t =
          .success (Table.ascii ts)) ∧
      ∀ cli s, (run cli s).exit ≠ 0 → (run cli s).output = "" ∨ ∃ file ts,
        cli.command = some (.parse file true) ∧ os.LexesTo s file ts ∧
          (run cli s).output = Table.ascii ts := by
  intro run checked
  have hchecked : checked = Command.checked file (SourceFile.read os file t).1 := by
    rw [h]
    exact Command.outcome_checkFile s
  refine ⟨?_, ?_, ⟨Command.tokens? (SourceFile.read os file t).1, fun ts => ?_, ?_, ?_⟩,
    fun cli s => cli.output_of_exit⟩
  · exact (Command.outcome_checkFile t).trans hchecked.symm
  · refine (Command.outcome_parseFile t false).trans ?_
    rw [if_neg nofun, Outcome.after_empty, hchecked]
  · rw [h]
    exact Command.tokens?_eq_some_iff
  · refine (Command.outcome_parseFile t true).trans ?_
    rw [if_pos rfl, hchecked]
  · intro ts hts
    exact Command.outcome_tokensFile (Command.tokens?_eq_some_iff.mp hts)

/-- A directory beside the file makes no difference. -/
theorem command_paths_agree_beside_directory :
    let os := FileSystem.operatingSystem
    let s : FileSystem := ⟨[(["a.rook"], .file "x = 1\n".toUTF8)], []⟩
    let t := s.put ["out"] .directory
    (SourceFile.read os "a.rook" t).1 = (SourceFile.read os "a.rook" s).1 ∧
      (Cli.execute os none ⟨some (.check "a.rook"), none⟩ t).1 =
        (Cli.execute os none ⟨none, some "a.rook"⟩ s).1 ∧
      (Cli.execute os none ⟨some (.parse "a.rook" false), none⟩ t).1 =
        (Cli.execute os none ⟨none, some "a.rook"⟩ s).1 := by
  intro os s t
  have hread : (SourceFile.read os "a.rook" t).1 = (SourceFile.read os "a.rook" s).1 := rfl
  obtain ⟨hcheck, hparse, -⟩ := command_paths_agree os none "a.rook" none hread
  exact ⟨hread, hcheck, hparse⟩

end RookLang

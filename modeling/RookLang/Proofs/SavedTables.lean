import RookLang.Proofs.Commands

/-! What a command line changes in the files of an operating system: at most one table is saved, in
the directory that the settings name, and the source file stays as it is. -/
namespace RookLang
open FileSystem

variable {environment : Option String} {words : List String} {cli : Cli} {file text : String}
  {ts : TokenStream}

/-! The directory that a command line names. -/

/-- The directory for tables has a name if one is given. Parsers of command lines take no empty
value for a path. -/
def Cli.NamesDirectory (cli : Cli) : Prop :=
  ∀ file save json quiet, cli.command ≠ some (.tokens file (some "") save json quiet)

namespace Given

variable {allowed : List CommandOption} {g : Given}

/-- Reading words gives no empty name for the directory, and does not decide on a run. -/
def Sound : Except Invocation Given → Prop
  | .ok g => g.directory ≠ some ""
  | .error decided => ∀ cli, decided ≠ .run cli

theorem Sound.bind {x : Except Invocation Given} {f : Given → Except Invocation Given}
    (hx : Sound x) (hf : ∀ g, g.directory ≠ some "" → Sound (f g)) : Sound (x >>= f) := by
  cases x with
  | error decided => exact hx
  | ok g => exact hf g hx

theorem sound_addFile (hg : g.directory ≠ some "") (text : String) : Sound (g.addFile text) := by
  unfold addFile
  split
  · exact nofun
  · exact hg

theorem sound_addOption (hg : g.directory ≠ some "") (o : CommandOption) :
    Sound (g.addOption o) := by
  unfold addOption
  split
  · exact nofun
  · exact hg

theorem sound_addDirectory (g : Given) (text : String) : Sound (g.addDirectory text) := by
  unfold addDirectory
  split
  · exact nofun
  · simpa [Sound] using ‹¬ text = ""›

theorem sound_readLong (hg : g.directory ≠ some "") (name : String) (value : Option String) :
    Sound (g.readLong allowed name value) := by
  cases value with
  | none =>
    simp only [readLong]
    split
    · exact nofun
    · split
      · exact (sound_addOption hg _).bind fun g hg => hg
      · exact sound_addOption hg _
      · exact nofun
  | some value =>
    simp only [readLong]
    split
    · exact (sound_addOption hg _).bind fun g _ => sound_addDirectory g value
    · exact nofun

theorem sound_readLetter (hg : g.directory ≠ some "") (letter : Char) :
    Sound (g.readLetter allowed letter) := by
  unfold readLetter
  split
  · exact nofun
  · split
    · exact sound_addOption hg _
    · exact nofun

/-- What every step keeps, a run keeps. -/
theorem sound_foldlM {α : Type} {step : Given → α → Except Invocation Given}
    (hstep : ∀ g x, g.directory ≠ some "" → Sound (step g x)) (hg : g.directory ≠ some "")
    (xs : List α) : Sound (xs.foldlM step g) := by
  induction xs generalizing g with
  | nil => exact hg
  | cons x xs ih => exact (hstep g x hg).bind fun g hg => ih hg

theorem sound_readWord (hg : g.directory ≠ some "") (allowed : List CommandOption)
    (text : String) :
    Sound (g.readWord allowed text) := by
  unfold readWord
  split
  · exact sound_addFile hg text
  · split
    · exact sound_addDirectory g _
    · exact nofun
    · exact hg
    · exact sound_readLong hg _ _
    · exact sound_foldlM (fun g letter hg => sound_readLetter hg letter) hg _
    · exact sound_addFile hg _

end Given

namespace Invocation

variable {given : Option String}

theorem namesDirectory_of_ofSubcommand {c : Subcommand}
    (h : ofSubcommand given c words = .run cli) : cli.NamesDirectory := by
  unfold ofSubcommand at h
  split at h
  · unfold ofHelpWords at h
    split at h
    · cases h
    · split at h <;> cases h
    · cases h
  · have hsound := Given.sound_foldlM (g := .nothing)
      (fun g text hg => Given.sound_readWord hg c.options text) nofun words
    split at h
    · rename_i hwords
      rw [hwords] at hsound
      exact (hsound _ h).elim
    · rename_i g hwords
      rw [hwords] at hsound
      split at h
      · rename_i hc
        cases h
        intro file save json quiet he
        obtain rfl := Option.some.inj he
        unfold Command.ofGiven? at hc
        split at hc
        · cases hc
        · exact hsound (Command.tokens.inj (Option.some.inj hc)).2.1
        · cases hc
        · cases hc
      · cases h

theorem namesDirectory_of_ofFiles (h : ofFiles given words = .run cli) : cli.NamesDirectory := by
  have hsound := Given.sound_foldlM (g := { Given.nothing with file := given })
    (fun g text hg => Given.sound_addFile hg text) nofun words
  unfold ofFiles at h
  split at h
  · rename_i hwords
    rw [hwords] at hsound
    exact (hsound _ h).elim
  · cases h
    nofun

theorem namesDirectory_of_ofWordsAfter (h : ofWordsAfter given words = .run cli) :
    cli.NamesDirectory := by
  fun_induction ofWordsAfter given words with
  | case1 => exact namesDirectory_of_ofFiles h
  | case2 => exact namesDirectory_of_ofSubcommand h
  | case3 => exact namesDirectory_of_ofFiles h
  | case4 => cases h
  | case5 => cases h
  | case6 => cases h
  | case7 =>
    unfold ofLetters at h
    split at h <;> cases h
  | case8 => cases h
  | case9 _ _ _ _ _ _ _ ih => exact ih h

/-- The words of a command line are parsed as it is promised of such parsers. -/
theorem namesDirectory_of_ofWords (h : ofWords words = .run cli) : cli.NamesDirectory :=
  namesDirectory_of_ofWordsAfter h

end Invocation

theorem Table.Settings.directory_ofEnvironment (environment : Option String) :
    (ofEnvironment environment).directory ≠ "" := by
  unfold ofEnvironment
  split
  · split
    · exact nofun
    · rintro rfl
      contradiction
  · exact nofun

theorem Command.directory_settings_ne {directory : Option String} (hd : directory ≠ some "")
    (save json quiet : Bool) :
    (settings environment directory save json quiet).directory ≠ "" := by
  cases directory with
  | none => exact Table.Settings.directory_ofEnvironment environment
  | some d => exact fun h => hd (congrArg some h)

/-! Saving one table. -/

namespace Table.Settings

/-- The name of the table of a source file. -/
def tableName (file : String) : String := (Path.stem? file).getD "tokens" ++ ".rtable"

/-- Where the table of a source file is saved. -/
def tableFor (s : Table.Settings) (file : String) : String :=
  s.tablePath ((Path.stem? file).getD "tokens")

/-- What is printed of a table. A JSON table ends its line. -/
def shown (s : Table.Settings) (ts : TokenStream) : String :=
  if s.echo then Table.render ts s.format ++ (if s.format = .json then "\n" else "") else ""

theorem tableFor_eq (s : Table.Settings) :
    s.tableFor file = Path.join s.directory (tableName file) := rfl

end Table.Settings

open OperatingSystem Table.Settings

theorem tableName_spec (file : String) : '/' ∉ (tableName file).toList ∧
    Path.IsProper (tableName file) ∧ (Path.cutName (tableName file)).2 = some "rtable" := by
  obtain ⟨hne, hslash⟩ : (Path.stem? file).getD "tokens" ≠ "" ∧
      '/' ∉ ((Path.stem? file).getD "tokens").toList := by
    cases h : Path.stem? file with
    | none => decide
    | some stem => exact Path.of_stem? h
  have hname : tableName file = (Path.stem? file).getD "tokens" ++ "." ++ "rtable" := by
    rw [String.append_assoc]
    rfl
  have hcut := Path.cutName_append_point hne "rtable" (by decide)
  rw [← hname] at hcut
  refine ⟨by simpa [hname] using hslash, ?_, by rw [hcut]⟩
  have hother (name : String) (h : (Path.cutName name).2 ≠ some "rtable") :
      tableName file ≠ name := by
    rintro rfl
    exact h (by rw [hcut])
  exact ⟨hother _ (by decide), hother _ (by decide), hother _ (by decide)⟩

section

variable {s : Table.Settings} {p place : Place} {fs fs' fs'' : FileSystem}

/-- At `p` is the table of `file`, right in the directory that the settings name. -/
structure TablePlace (s : Table.Settings) (file : String) (fs : FileSystem) (p : Place) : Prop where
  path : fs.resolve (s.tableFor file) = .ok p
  extension : Path.extension? (s.tableFor file) = some "rtable"
  inside : ∃ q, fs.resolve s.directory = .ok q ∧ fs.isDirectoryAt q ∧ p = q ++ [tableName file]

theorem tablePlace_of_resolve (hd : s.directory ≠ "") (hdir : fs.isDirectory s.directory)
    (hp : fs.resolve (s.tableFor file) = .ok p) : TablePlace s file fs p := by
  obtain ⟨hslash, hproper, hcut⟩ := tableName_spec file
  obtain ⟨more, above, hjoin, hnames, hdirectory⟩ := Path.join_eq hd hslash
  obtain ⟨q, hq, hqd⟩ := isDirectory_iff.mp hdir
  have hnames : Path.names (s.tableFor file) = above ++ [tableName file] := hnames
  have hstart : fs.start (s.tableFor file) = fs.start s.directory := by
    rw [start, start, tableFor_eq, hjoin, Path.isAbsolute_append hd]
  obtain ⟨-, -, hwalk⟩ := follow_eq_ok_iff.mp hp
  rw [hnames, walk_concat_eq_ok_iff, hstart, walk_of_resolve hq hdirectory] at hwalk
  -- What stands above the name of the table leads to the directory of the settings.
  obtain ⟨r, hr, henter⟩ := hwalk
  obtain rfl := Except.ok.inj hr
  obtain ⟨-, -, -, rfl⟩ := (enters_iff_of_isProper hproper).mp henter
  refine ⟨hp, ?_, q, hq, hqd, rfl⟩
  rw [Path.extension?, Path.fileName?_of_names above hnames hproper]
  exact hcut

/-- From the first file system to the second one, the table of `file` has been saved at `place`, and
nothing else has changed but for directories that were made for that. -/
structure SavedAt (s : Table.Settings) (file : String) (ts : TokenStream) (place : Place)
    (fs fs' : FileSystem) : Prop where
  working : fs'.working = fs.working
  entry p (hp : p ≠ place) : KeptOrMade (Path.ancestors s.directory) fs fs' p
  notDirectory : ¬ fs.isDirectoryAt place
  content : fs'.entry? place = some (.file (Table.render ts s.format).toUTF8)
  table : TablePlace s file fs' place

/-- From the first file system to the second one, the table of `file` could not be saved: at most,
directories have been made for it, and it has been begun where there was no file. -/
structure FailedAt (s : Table.Settings) (file : String) (fs fs' : FileSystem) : Prop where
  working : fs'.working = fs.working
  entry p : KeptOrMade (Path.ancestors s.directory) fs fs' p ∨ fs.entry? p = none ∧
    TablePlace s file fs' p ∧ ∃ content, fs'.entry? p = some (.file content)

theorem SavedAt.grows (h : SavedAt s file ts place fs fs') : fs.Grows fs' where
  working := h.working
  isSome p hp := by
    by_cases hplace : p = place
    · rw [hplace, h.content, Option.isSome_some]
    · rwa [(h.entry p hplace).eq_of_isSome hp]
  directory p hp := (h.entry p fun he => h.notDirectory (he ▸ hp)).isDirectoryAt hp

theorem savedAt_of_wrote (hd : s.directory ≠ "")
    (hmade : MadeAlong (Path.ancestors s.directory) fs fs') (hdir : fs'.isDirectory s.directory)
    (hwrote : Wrote (s.tableFor file) (Table.render ts s.format).toUTF8 place fs' fs'') :
    SavedAt s file ts place fs fs'' where
  working := hwrote.working.trans hmade.working
  entry p hp := (hmade.entry p).of_grows hwrote.grows (hwrote.entry p hp)
  notDirectory hplace := hwrote.notDirectory (hmade.grows.directory place hplace)
  content := hwrote.content
  table := tablePlace_of_resolve hd (hwrote.grows.isDirectory hdir) hwrote.path

theorem failedAt_of_begunAtMost (hd : s.directory ≠ "")
    (hmade : MadeAlong (Path.ancestors s.directory) fs fs') (hdir : fs'.isDirectory s.directory)
    (hbegun : BegunAtMost (s.tableFor file) fs' fs'') : FailedAt s file fs fs'' := by
  refine ⟨hbegun.working.trans hmade.working, fun p => ?_⟩
  rcases hbegun.entry p with he | ⟨hnone, hp, hcontent⟩
  · exact .inl ((hmade.entry p).of_grows hbegun.grows he)
  · refine .inr ⟨?_, tablePlace_of_resolve hd (hbegun.grows.isDirectory hdir) hp, hcontent⟩
    rcases hmade.entry p with he | ⟨he, -⟩
    · exact he ▸ hnone
    · exact he

theorem FailedAt.file_kept {content : ByteArray} (h : FailedAt s file fs fs')
    (hp : fs.entry? p = some (.file content)) : fs'.entry? p = some (.file content) := by
  rcases h.entry p with hkept | ⟨hnone, -⟩
  · rw [hkept.eq_of_isSome (by rw [hp, Option.isSome_some]), hp]
  · cases hnone.symm.trans hp

/-- The table of a source file is another file, so that the source stays as it is. -/
theorem SavedAt.source {content : ByteArray} (h : SavedAt s file ts place fs fs')
    (hext : Path.extension? file = some "rook") (hfind : fs.find file = .ok (.file content)) :
    fs.resolve file ≠ .ok place ∧ fs'.find file = .ok (.file content) := by
  obtain ⟨name, hname, hcut⟩ := Option.bind_eq_some_iff.mp hext
  obtain ⟨p, hr, he⟩ := find_eq_ok_iff.mp hfind
  obtain ⟨above, rfl⟩ := exists_resolve_eq hname hr
  obtain ⟨q, -, -, rfl⟩ := h.table.inside
  -- The last names of the two places have different extensions.
  have hne : above ++ [name] ≠ q ++ [tableName file] := by
    intro heq
    obtain ⟨-, hlast⟩ := List.append_inj' heq rfl
    rw [List.singleton_inj.mp hlast, (tableName_spec file).2.2] at hcut
    simp at hcut
  refine ⟨fun hq => hne (Except.ok.inj (hr.symm.trans hq)), ?_⟩
  refine find_eq_ok_iff.mpr ⟨_, h.grows.resolve hr, ?_⟩
  rw [(h.entry _ hne).eq_of_isSome (by rw [he, Option.isSome_some]), he]

end

section

variable {σ : Type} {os : OperatingSystem (StateM σ)} {files : σ → FileSystem}
  {s : Table.Settings} {a b c t : σ} {failure : Option Table.SaveError}

/-- How it ends to save the table of `file`: with the error of a call, or with none. -/
inductive Saves (os : OperatingSystem (StateM σ)) (s : Table.Settings) (file : String)
    (ts : TokenStream) (a : σ) : Option Table.SaveError → σ → Prop
  | noDirectory {b : σ} {e : OsError} (h : os.createDirectories s.directory a = (.error e, b)) :
    Saves os s file ts a (some ⟨s.directory, e⟩) b
  | noFile {b c : σ} {e : OsError} (hd : os.createDirectories s.directory a = (.ok (), b))
    (hw : os.write (s.tableFor file) (Table.render ts s.format).toUTF8 b = (.error e, c)) :
    Saves os s file ts a (some ⟨s.tableFor file, e⟩) c
  | saved {b c : σ} (hd : os.createDirectories s.directory a = (.ok (), b))
    (hw : os.write (s.tableFor file) (Table.render ts s.format).toUTF8 b = (.ok (), c)) :
    Saves os s file ts a none c

theorem exists_saves (os : OperatingSystem (StateM σ)) (s : Table.Settings) (file : String)
    (ts : TokenStream) (a : σ) : ∃ failure b, Saves os s file ts a failure b := by
  rcases hd : os.createDirectories s.directory a with ⟨e | ⟨⟩, b⟩
  · exact ⟨_, _, .noDirectory hd⟩
  · rcases hw : os.write (s.tableFor file) (Table.render ts s.format).toUTF8 b with ⟨e | ⟨⟩, c⟩
    · exact ⟨_, _, .noFile hd hw⟩
    · exact ⟨_, _, .saved hd hw⟩

/-- What the command for tokens comes to when it saves the table. -/
def saveOutcome (s : Table.Settings) (file : String) (ts : TokenStream) :
    Option Table.SaveError → Outcome
  | some e => .failure e.message
  | none => ⟨0, s.shown ts ++ "Token table saved to " ++ s.tableFor file ++ "\n", .silent,
      [.savedTable (s.tableFor file) ts.length]⟩

/-- What a run changes that tries to save the table of `file`. -/
theorem Saves.frame (hos : os.Faithful files) (hd : s.directory ≠ "") {fs : FileSystem}
    (hs : Same fs (files a)) (h : Saves os s file ts a failure b) :
    (failure ≠ none → FailedAt s file fs (files b)) ∧
      (failure = none → ∃ place, SavedAt s file ts place fs (files b)) := by
  cases h with
  | noDirectory h =>
    have hmade := (hs.madeAlong _).trans (hos.madeAlong h)
    exact ⟨fun _ => ⟨hmade.working, fun p => .inl (hmade.entry p)⟩, nofun⟩
  | noFile h hw =>
    have hmade := (hs.madeAlong _).trans (hos.madeAlong h)
    have hdir := hos.isDirectory hd h
    exact ⟨fun _ => failedAt_of_begunAtMost hd hmade hdir (hos.begunAtMost hw), nofun⟩
  | saved h hw =>
    have hmade := (hs.madeAlong _).trans (hos.madeAlong h)
    have hdir := hos.isDirectory hd h
    obtain ⟨place, hwrote⟩ := hos.wrote hw
    exact ⟨fun hne => (hne rfl).elim, fun _ => ⟨place, savedAt_of_wrote hd hmade hdir hwrote⟩⟩

theorem Saves.leads (h : Saves os s file ts a failure b) : os.Leads a b := by
  cases h with
  | noDirectory h => exact leads_of_createDirectories h
  | noFile hd hw | saved hd hw => exact (leads_of_createDirectories hd).trans (leads_of_write hw)

/-- A table that has been saved can be saved again, which changes nothing. -/
theorem Saves.again (hos : os.Faithful files) (hrep : os.Repeats files) (hd : s.directory ≠ "")
    (h : Saves os s file ts a none b) (hbt : os.Leads b t) (ht : Same (files b) (files t)) :
    ∃ c, Saves os s file ts t none c ∧ Same (files b) (files c) := by
  cases h with
  | saved h hw =>
    obtain ⟨place, hwrote⟩ := hos.wrote hw
    have hthere := ht.grows.isDirectory (hwrote.grows.isDirectory (hos.isDirectory hd h))
    obtain ⟨n, hmake, hsame⟩ := hrep.makes h ((leads_of_write hw).trans hbt) hthere
    have hsame : Same (files b) (files n) := ht.trans hsame
    obtain ⟨c, hwrite⟩ := hrep.writes hw (hbt.trans (leads_of_createDirectories hmake)) hsame
    obtain ⟨place', hwrote'⟩ := hos.wrote hwrite
    exact ⟨c, .saved hmake hwrite, hsame.trans ((hwrote.of_same hsame).same_again hwrote')⟩

namespace Command

theorem tokensFile_of_saves {text : String} (hsave : s.save)
    (hread : (SourceFile.read os file a).1 = .ok text) (hlex : lex text.toList = .ok ts)
    (h : Saves os s file ts (SourceFile.read os file a).2 failure b) :
    tokensFile os file s a = (saveOutcome s file ts failure, b) := by
  rw [tokensFile, withTokens_of_ok _ hread hlex, bind_apply]
  cases h with
  | noDirectory h =>
    simp only [Table.emit, hsave, if_true, bind_apply, h]
    rfl
  | noFile hd hw =>
    rw [tableFor] at hw
    simp only [Table.emit, hsave, if_true, bind_apply, hd, hw]
    rfl
  | saved hd hw =>
    rw [tableFor] at hw
    simp only [Table.emit, hsave, if_true, bind_apply, hd, hw]
    rfl

/-- Where nothing is done but to read the file, nothing else changes. -/
theorem state_withSource {next : List Char → StateM σ Outcome}
    (h : ∀ source s, (next source s).2 = s) (s : σ) :
    (withSource os file next s).2 = (SourceFile.read os file s).2 := by
  cases hread : (SourceFile.read os file s).1 with
  | error fault => rw [withSource_of_error _ hread]
  | ok text => rw [withSource_of_ok _ hread, h]

theorem state_withTokens {next : List Char → TokenStream → StateM σ Outcome} {s : σ}
    (h : ∀ ts, os.LexesTo s file ts → ∀ source s, (next source ts s).2 = s) :
    (withTokens os file next s).2 = (SourceFile.read os file s).2 := by
  cases hread : (SourceFile.read os file s).1 with
  | error fault => rw [withTokens, withSource_of_error _ hread]
  | ok text =>
    cases hlex : lex text.toList with
    | error e => rw [withTokens_of_error _ hread hlex]
    | ok ts => rw [withTokens_of_ok _ hread hlex, h ts ⟨text, hread, hlex⟩]

theorem state_checkFile (s : σ) :
    (checkFile os file s).2 = (SourceFile.read os file s).2 :=
  state_withSource (fun source s => by cases checkSource source <;> rfl) s

theorem state_parseFile (showTokens : Bool) (s : σ) :
    (parseFile os file showTokens s).2 = (SourceFile.read os file s).2 :=
  state_withTokens fun ts _ source s => by cases RookLang.parse ts <;> rfl

theorem state_tokensFile {settings : Table.Settings} {s : σ}
    (h : settings.save → ∀ ts, ¬ os.LexesTo s file ts) :
    (tokensFile os file settings s).2 = (SourceFile.read os file s).2 := by
  refine state_withTokens fun ts hts source s => ?_
  have hsave : ¬ settings.save := fun hsave => h hsave ts hts
  simp only [Table.emit, hsave]
  rfl

end Command

/-- The command line asks for the table of `file` to be saved as the settings say, and the file has
these tokens. -/
structure AsksToSave (os : OperatingSystem (StateM σ)) (environment : Option String) (cli : Cli)
    (a : σ) (file : String) (s : Table.Settings) (ts : TokenStream) : Prop where
  command : ∃ directory json quiet, cli.command = some (.tokens file directory true json quiet) ∧
    s = Command.settings environment directory true json quiet
  lexes : os.LexesTo a file ts

theorem AsksToSave.of_find (hos : os.Faithful files) (hrep : os.Repeats files) {entry : Entry}
    (h : AsksToSave os environment cli a file s ts)
    (hat : os.Leads (SourceFile.read os file a).2 t) (ha : (files a).find file = .ok entry)
    (ht : (files t).find file = .ok entry) : AsksToSave os environment cli t file s ts := by
  obtain ⟨text, hread, hlex⟩ := h.lexes
  exact ⟨h.command, text, SourceFile.read_again hos hrep hread hat ha ht, hlex⟩

theorem AsksToSave.directory_ne (h : AsksToSave os environment cli a file s ts)
    (hcli : cli.NamesDirectory) : s.directory ≠ "" := by
  obtain ⟨directory, json, quiet, hc, rfl⟩ := h.command
  refine Command.directory_settings_ne ?_ true json quiet
  rintro rfl
  exact hcli file true json quiet hc

theorem execute_of_saves (hasks : AsksToSave os environment cli a file s ts)
    (h : Saves os s file ts (SourceFile.read os file a).2 failure b) :
    cli.execute os environment a = (saveOutcome s file ts failure, b) := by
  obtain ⟨⟨directory, json, quiet, hc, rfl⟩, text, hread, hlex⟩ := hasks
  rw [Cli.execute, hc]
  exact Command.tokensFile_of_saves rfl hread hlex h

/-- Nothing but a command to save a table changes any file. -/
theorem same_of_not_asksToSave (hos : os.Faithful files)
    (h : ∀ file s ts, ¬ AsksToSave os environment cli a file s ts) :
    Same (files a) (files (cli.execute os environment a).2) := by
  have hcheck (file : String) : Same (files a) (files (Command.checkFile os file a).2) := by
    rw [Command.state_checkFile]
    exact SourceFile.same_read hos file a
  obtain ⟨_ | command, other⟩ := cli
  · cases other with
    | none => exact .refl
    | some file => exact hcheck file
  cases command with
  | check file => exact hcheck file
  | tokens file directory save json quiet =>
    have hsave : (Command.settings environment directory save json quiet).save →
        ∀ ts, ¬ os.LexesTo a file ts := by
      rintro hsave ts hts
      obtain rfl : save = true := hsave
      exact h file _ ts ⟨⟨directory, json, quiet, rfl, rfl⟩, hts⟩
    simp only [Cli.execute, Command.state_tokensFile hsave]
    exact SourceFile.same_read hos file a
  | parse file showTokens =>
    simp only [Cli.execute, Command.state_parseFile]
    exact SourceFile.same_read hos file a

/-- A command line changes no file, or it is one that saves the table of a file with tokens. That
ends as the calls of the operating system end. If the table is saved, at most directories are made
along the one that the settings name, and one file is written in that one: the table, which is not
the source file. To do the same again changes nothing more if the operating system repeats itself.
What fails prints nothing, except for the tokens of a file that does not parse, and leaves all files
as they were. -/
theorem execute_frame (hos : os.Faithful files) (hcli : cli.NamesDirectory)
    (environment : Option String) (a : σ) :
    let run := cli.execute os environment
    let o := (run a).1
    let fs := files a
    let fs' := files (run a).2
    ((∀ file s ts, ¬ AsksToSave os environment cli a file s ts) → Same fs fs') ∧
      (∀ file s ts, AsksToSave os environment cli a file s ts → ∃ failure,
        Saves os s file ts (SourceFile.read os file a).2 failure (run a).2 ∧
          o = saveOutcome s file ts failure ∧
          (failure ≠ none → FailedAt s file fs fs') ∧
          (failure = none → (∃ place, SavedAt s file ts place fs fs' ∧
              fs.resolve file ≠ .ok place ∧ fs'.find file = fs.find file) ∧
            (os.Repeats files → ∀ t, os.Leads (run a).2 t → Same fs' (files t) →
              (run t).1 = o ∧ Same fs' (files (run t).2)))) ∧
      (o.exit ≠ 0 → (o.output = "" ∨ ∃ file, cli.command = some (.parse file true)) ∧
        ∀ p content, fs.entry? p = some (.file content) →
          fs'.entry? p = some (.file content)) := by
  intro run o fs fs'
  have hsaves {file s ts} (hasks : AsksToSave os environment cli a file s ts) : ∃ failure b,
      Saves os s file ts (SourceFile.read os file a).2 failure b ∧
        run a = (saveOutcome s file ts failure, b) := by
    obtain ⟨failure, b, h⟩ := exists_saves os s file ts (SourceFile.read os file a).2
    exact ⟨failure, b, h, execute_of_saves hasks h⟩
  refine ⟨same_of_not_asksToSave hos, fun file s ts hasks => ?_,
    fun ho => ⟨?_, fun p content hp => ?_⟩⟩
  · obtain ⟨failure, b, h, hrun⟩ := hsaves hasks
    have hd := hasks.directory_ne hcli
    obtain ⟨hfailed, hsaved⟩ := h.frame hos hd (SourceFile.same_read hos file a)
    refine ⟨failure, ?_, ?_, ?_, ?_⟩
    · rwa [hrun]
    · simp only [o, hrun]
    · simpa only [fs', hrun] using hfailed
    rintro rfl
    obtain ⟨place, hsaved⟩ := hsaved rfl
    obtain ⟨text, hread, -⟩ := hasks.lexes
    obtain ⟨hext, content, hfind⟩ := SourceFile.exists_find_of_read hos hread
    obtain ⟨hsource, hfind'⟩ := hsaved.source hext hfind
    simp only [fs', o, hrun]
    refine ⟨⟨place, hsaved, hsource, hfind'.trans hfind.symm⟩, fun hrep t hbt ht => ?_⟩
    have hasks' := hasks.of_find hos hrep (h.leads.trans hbt) hfind (ht.find hfind')
    obtain ⟨c, hagain, hsame⟩ := h.again hos hrep hd
      (hbt.trans (SourceFile.leads_read os file t)) (ht.trans (SourceFile.same_read hos file t))
    have hrun' : run t = (saveOutcome s file ts none, c) := execute_of_saves hasks' hagain
    rw [hrun']
    exact ⟨rfl, hsame⟩
  · refine (cli.output_of_exit ho).imp_right ?_
    rintro ⟨file, ts, hc, -⟩
    exact ⟨file, hc⟩
  · by_cases hasks : ∃ file s ts, AsksToSave os environment cli a file s ts
    · obtain ⟨file, s, ts, hasks⟩ := hasks
      obtain ⟨failure, b, h, hrun⟩ := hsaves hasks
      obtain ⟨hfailed, -⟩ := h.frame hos (hasks.directory_ne hcli) (SourceFile.same_read hos file a)
      simp only [o, hrun] at ho
      simp only [fs', hrun]
      refine (hfailed ?_).file_kept hp
      rintro rfl
      exact ho rfl
    · simp only [not_exists] at hasks
      exact ((same_of_not_asksToSave hos hasks).entry p).trans hp

/-- A table is saved in a directory that is made for it, and once more over itself. Where a file has
the name of the directory, that file stays. -/
theorem execute_frame_tokens :
    let os := FileSystem.operatingSystem
    let cli : Cli := ⟨some (.tokens "a.rook" (some "out") true false false), none⟩
    let fs : FileSystem := ⟨[(["a.rook"], .file "x = 1\n".toUTF8)], []⟩
    let saved := cli.execute os none fs
    let again := cli.execute os none saved.2
    let taken := fs.put ["out"] (.file "".toUTF8)
    let refused := cli.execute os none taken
    Invocation.ofWords ["tokens", "a.rook", "--save", "--out-dir", "out"] = .run cli ∧
      saved.1.exit = 0 ∧
      (∃ ts, lex "x = 1\n".toList = .ok ts ∧
        SavedAt ⟨"out", true, true, .ascii⟩ "a.rook" ts ["out", "a.rtable"] fs saved.2) ∧
      again.1 = saved.1 ∧ Same saved.2 again.2 ∧
      refused.1 = .failure "failed to write token table 'out': File exists (os error 17)" ∧
      FileSystem.entry? refused.2 ["out"] = some (.file "".toUTF8) := by
  intro os cli fs saved again taken refused
  have hwords : Invocation.ofWords ["tokens", "a.rook", "--save", "--out-dir", "out"] =
      .run cli := by decide +kernel
  have hexit : saved.1.exit = 0 := by decide +kernel
  have hrefused : refused.1 =
      .failure "failed to write token table 'out': File exists (os error 17)" := by decide +kernel
  have hframe := execute_frame faithful_operatingSystem
    (Invocation.namesDirectory_of_ofWords hwords) none
  have hread : (SourceFile.read os "a.rook" fs).1 = .ok "x = 1\n" := rfl
  obtain ⟨ts, hlex⟩ : ∃ ts, lex "x = 1\n".toList = .ok ts := ⟨_, rfl⟩
  obtain ⟨-, hsave, -⟩ := hframe fs
  obtain ⟨failure, -, ho, -, hdone⟩ := hsave "a.rook" _ ts ⟨⟨_, _, _, rfl, rfl⟩, _, hread, hlex⟩
  have hnone : failure = none := by
    cases failure with
    | none => rfl
    | some e => cases (congrArg Outcome.exit ho).symm.trans hexit
  obtain ⟨⟨place, hsaved, -⟩, hagain⟩ := hdone hnone
  have hpath : saved.2.resolve "out/a.rtable" = .ok ["out", "a.rtable"] := rfl
  obtain rfl : place = ["out", "a.rtable"] := Except.ok.inj (hsaved.table.path.symm.trans hpath)
  obtain ⟨hsame, hfiles⟩ := hagain repeats_operatingSystem saved.2 .refl .refl
  obtain ⟨-, -, hfail⟩ := hframe taken
  have hfail : refused.1.exit ≠ 0 → _ := hfail
  rw [hrefused] at hfail
  exact ⟨hwords, hexit, ⟨ts, hlex, hsaved⟩, hsame, hfiles, hrefused, (hfail nofun).2 _ _ rfl⟩

end

end RookLang

import Mathlib.Logic.Basic
import RookLang.Proofs.FileSystem
import RookLang.SourceFile

/-! What is assumed of operating systems: their calls do to files what they are called for, or fail
and leave files as they are. When they fail is left open. -/
namespace RookLang

/-- The state is left alone by what reads nothing of it. -/
theorem pure_apply {σ α : Type} (a : α) (s : σ) : (pure a : StateM σ α) s = (a, s) := rfl

theorem bind_apply {σ α β : Type} (x : StateM σ α) (f : α → StateM σ β) (s : σ) :
    (x >>= f) s = f (x s).1 (x s).2 := rfl

namespace FileSystem

variable {fs fs' fs'' : FileSystem} {p place again : Place} {path : String} {e : Entry}
  {content : ByteArray}

/-- Both file systems hold the same. -/
structure Same (fs fs' : FileSystem) : Prop where
  working : fs'.working = fs.working
  entry p : fs'.entry? p = fs.entry? p

namespace Same

theorem refl : Same fs fs := ⟨rfl, fun _ => rfl⟩

theorem symm (h : Same fs fs') : Same fs' fs := ⟨h.working.symm, fun p => (h.entry p).symm⟩

theorem trans (h : Same fs fs') (h' : Same fs' fs'') : Same fs fs'' :=
  ⟨h'.working.trans h.working, fun p => (h'.entry p).trans (h.entry p)⟩

theorem madeAlong (h : Same fs fs') (paths : List String) : MadeAlong paths fs fs' :=
  ⟨h.working, fun p => .inl (h.entry p)⟩

theorem grows (h : Same fs fs') : fs.Grows fs' := (h.madeAlong []).grows

theorem find (h : Same fs fs') (hf : fs.find path = .ok e) : fs'.find path = .ok e := by
  obtain ⟨p, hp, he⟩ := find_eq_ok_iff.mp hf
  exact find_eq_ok_iff.mpr ⟨p, h.grows.resolve hp, (h.entry p).trans he⟩

end Same

/-- From the first file system to the second one, `content` has been written into the file at
`place`, which is what `path` names then, and nothing else has changed. -/
structure Wrote (path : String) (content : ByteArray) (place : Place) (fs fs' : FileSystem) :
    Prop where
  working : fs'.working = fs.working
  entry p (hp : p ≠ place) : fs'.entry? p = fs.entry? p
  notDirectory : ¬ fs.isDirectoryAt place
  content : fs'.entry? place = some (.file content)
  path : fs'.resolve path = .ok place

namespace Wrote

theorem grows (h : Wrote path content place fs fs') : fs.Grows fs' where
  working := h.working
  isSome p hp := by
    by_cases hplace : p = place
    · rw [hplace, h.content, Option.isSome_some]
    · rwa [h.entry p hplace]
  directory p hp := by
    rwa [isDirectoryAt, h.entry p fun he => h.notDirectory (he ▸ hp)]

/-- To write the same once more changes nothing. -/
theorem same_again (h : Wrote path content place fs fs')
    (h' : Wrote path content again fs' fs'') : Same fs' fs'' := by
  obtain rfl : again = place :=
    Except.ok.inj (h'.path.symm.trans (h'.grows.resolve h.path))
  refine ⟨h'.working, fun p => ?_⟩
  by_cases hp : p = again
  · rw [hp, h'.content, h.content]
  · exact h'.entry p hp

theorem of_same (h : Wrote path content place fs fs') (hs : Same fs' fs'') :
    Wrote path content place fs fs'' where
  working := hs.working.trans h.working
  entry p hp := (hs.entry p).trans (h.entry p hp)
  notDirectory := h.notDirectory
  content := (hs.entry place).trans h.content
  path := hs.grows.resolve h.path

end Wrote

/-- From the first file system to the second one nothing has changed, but for a file that was begun
under the name `path` where there was none. -/
structure BegunAtMost (path : String) (fs fs' : FileSystem) : Prop where
  working : fs'.working = fs.working
  entry p : fs'.entry? p = fs.entry? p ∨ fs.entry? p = none ∧ fs'.resolve path = .ok p ∧
    ∃ content, fs'.entry? p = some (.file content)

theorem Same.begunAtMost (h : Same fs fs') : BegunAtMost path fs fs' :=
  ⟨h.working, fun p => .inl (h.entry p)⟩

theorem BegunAtMost.grows (h : BegunAtMost path fs fs') : fs.Grows fs' := by
  have heq p (hp : (fs.entry? p).isSome) : fs'.entry? p = fs.entry? p := by
    refine (h.entry p).resolve_right fun hnone => ?_
    rw [hnone.1] at hp
    cases hp
  refine ⟨h.working, fun p hp => by rwa [heq p hp], fun p hp => ?_⟩
  rwa [isDirectoryAt, heq p (by rw [isDirectoryAt_iff.mp hp, Option.isSome_some])]

end FileSystem

namespace OperatingSystem
open FileSystem

variable {σ : Type} {os : OperatingSystem (StateM σ)} {files : σ → FileSystem} {a b c : σ}

/-- Calls lead from the state `a` to the other one. -/
inductive Leads (os : OperatingSystem (StateM σ)) (a : σ) : σ → Prop
  | refl : Leads os a a
  | metadata (path : String) {b : σ} (h : Leads os a b) : Leads os a (os.metadata path b).2
  | read (path : String) {b : σ} (h : Leads os a b) : Leads os a (os.read path b).2
  | createDirectories (path : String) {b : σ} (h : Leads os a b) :
    Leads os a (os.createDirectories path b).2
  | write (path : String) (content : ByteArray) {b : σ} (h : Leads os a b) :
    Leads os a (os.write path content b).2

theorem Leads.trans (h : os.Leads a b) (h' : os.Leads b c) : os.Leads a c := by
  induction h' with
  | refl => exact h
  | metadata path _ ih => exact .metadata path ih
  | read path _ ih => exact .read path ih
  | createDirectories path _ ih => exact .createDirectories path ih
  | write path content _ ih => exact .write path content ih

theorem leads_of_createDirectories {path : String} {made : Except OsError Unit}
    (h : os.createDirectories path a = (made, b)) : os.Leads a b := by
  have hl : os.Leads a (os.createDirectories path a).2 := .createDirectories path .refl
  rwa [h] at hl

theorem leads_of_write {path : String} {content : ByteArray} {written : Except OsError Unit}
    (h : os.write path content a = (written, b)) : os.Leads a b := by
  have hl : os.Leads a (os.write path content a).2 := .write path content .refl
  rwa [h] at hl

/-- What is assumed of an operating system in whose state `s` there are the files `files s`. -/
structure Faithful (os : OperatingSystem (StateM σ)) (files : σ → FileSystem) : Prop where
  /-- To look at a file changes none. -/
  metadata path s : Same (files s) (files (os.metadata path s).2)
  read path s : Same (files s) (files (os.read path s).2)
  read_ok {path s content} (h : (os.read path s).1 = .ok content) :
    (files s).find path = .ok (.file content)
  /-- Whether or not all of them can be made, only directories are made. -/
  createDirectories path s :
    MadeAlong (Path.ancestors path) (files s) (files (os.createDirectories path s).2)
  createDirectories_ok {path s} (hp : path ≠ "") (h : (os.createDirectories path s).1 = .ok ()) :
    (files (os.createDirectories path s).2).isDirectory path
  write_ok {path content s} (h : (os.write path content s).1 = .ok ()) :
    ∃ place, Wrote path content place (files s) (files (os.write path content s).2)
  /-- A file that cannot be written keeps what it had. -/
  write_error {path content s e} (h : (os.write path content s).1 = .error e) :
    BegunAtMost path (files s) (files (os.write path content s).2)

/-- What is assumed of an operating system if a call that has succeeded is to succeed once more
later, where it finds the same. -/
structure Repeats (os : OperatingSystem (StateM σ)) (files : σ → FileSystem) : Prop where
  metadata {path s t entry found} (h : (os.metadata path s).1 = .ok found) (hst : os.Leads s t)
    (hs : (files s).find path = .ok entry) (ht : (files t).find path = .ok entry) :
    (os.metadata path t).1 = .ok found
  read {path s t entry content} (h : (os.read path s).1 = .ok content) (hst : os.Leads s t)
    (hs : (files s).find path = .ok entry) (ht : (files t).find path = .ok entry) :
    (os.read path t).1 = .ok content
  /-- A directory that is there is not made. -/
  createDirectories {path s t} (h : (os.createDirectories path s).1 = .ok ())
    (hst : os.Leads (os.createDirectories path s).2 t) (ht : (files t).isDirectory path) :
    (os.createDirectories path t).1 = .ok () ∧
      Same (files t) (files (os.createDirectories path t).2)
  write {path content s t} (h : (os.write path content s).1 = .ok ())
    (hst : os.Leads (os.write path content s).2 t)
    (ht : Same (files (os.write path content s).2) (files t)) :
    (os.write path content t).1 = .ok ()

/-! The same of calls with their results. -/

section
variable {path : String} {content : ByteArray} {made : Except OsError Unit} {e : OsError}

theorem Faithful.madeAlong (hos : os.Faithful files) (h : os.createDirectories path a = (made, b)) :
    MadeAlong (Path.ancestors path) (files a) (files b) := by
  have hm := hos.createDirectories path a
  rwa [h] at hm

theorem Faithful.isDirectory (hos : os.Faithful files) (hp : path ≠ "")
    (h : os.createDirectories path a = (.ok (), b)) : (files b).isDirectory path := by
  have hd := hos.createDirectories_ok hp (congrArg Prod.fst h)
  rwa [h] at hd

theorem Faithful.wrote (hos : os.Faithful files) (h : os.write path content a = (.ok (), b)) :
    ∃ place, Wrote path content place (files a) (files b) := by
  have hw := hos.write_ok (congrArg Prod.fst h)
  rwa [h] at hw

theorem Faithful.begunAtMost (hos : os.Faithful files)
    (h : os.write path content a = (.error e, b)) : BegunAtMost path (files a) (files b) := by
  have hb := hos.write_error (congrArg Prod.fst h)
  rwa [h] at hb

theorem Repeats.makes (hrep : os.Repeats files) (h : os.createDirectories path a = (.ok (), b))
    (hbc : os.Leads b c) (hc : (files c).isDirectory path) :
    ∃ d, os.createDirectories path c = (.ok (), d) ∧ Same (files c) (files d) := by
  have hagain := hrep.createDirectories (congrArg Prod.fst h) (by rwa [h]) hc
  exact ⟨_, Prod.ext hagain.1 rfl, hagain.2⟩

theorem Repeats.writes (hrep : os.Repeats files) (h : os.write path content a = (.ok (), b))
    (hbc : os.Leads b c) (hc : Same (files b) (files c)) :
    ∃ d, os.write path content c = (.ok (), d) := by
  have hagain := hrep.write (congrArg Prod.fst h) (by rwa [h]) (by rwa [h])
  exact ⟨_, Prod.ext hagain rfl⟩

end

end OperatingSystem

/-! Reading source files. -/

namespace SourceFile
open FileSystem

variable {σ : Type} {os : OperatingSystem (StateM σ)} {files : σ → FileSystem} {file text : String}
  {s t : σ}

theorem read_of_metadata {found : Metadata} (hext : hasExtension file)
    (hm : (os.metadata file s).1 = .ok found) (hfile : found.isFile)
    (hsize : found.size ≤ sizeLimit) :
    read os file s = ((match (os.read file (os.metadata file s).2).1 with
      | .error e => .error (.unreadable e)
      | .ok content => decode content), (os.read file (os.metadata file s).2).2) := by
  rw [read, if_neg (by simp [hext]), bind_apply, hm]
  simp only [hfile, Bool.not_true, Bool.false_eq_true, if_false, Nat.not_lt.mpr hsize]
  rw [bind_apply]
  cases (os.read file (os.metadata file s).2).1 <;> rfl

/-- Nothing is read, or the file as a whole. -/
theorem read_cases (os : OperatingSystem (StateM σ)) (file : String) (s : σ) :
    (∃ fault, read os file s = (.error fault, s) ∨
      read os file s = (.error fault, (os.metadata file s).2)) ∨
    hasExtension file ∧ ∃ found, (os.metadata file s).1 = .ok found ∧ found.isFile ∧
      found.size ≤ sizeLimit := by
  by_cases hext : hasExtension file
  · cases hm : (os.metadata file s).1 with
    | error e =>
      refine .inl ⟨.inaccessible e, .inr ?_⟩
      rw [read, if_neg (by simp [hext]), bind_apply, hm]
      rfl
    | ok found =>
      by_cases hfile : found.isFile
      · by_cases hsize : sizeLimit < found.size
        · refine .inl ⟨.tooLarge found.size, .inr ?_⟩
          rw [read, if_neg (by simp [hext]), bind_apply, hm]
          simp only [hfile, Bool.not_true, Bool.false_eq_true, if_false, hsize, if_true]
          rfl
        · exact .inr ⟨hext, found, rfl, hfile, Nat.le_of_not_lt hsize⟩
      · refine .inl ⟨.notFile, .inr ?_⟩
        rw [read, if_neg (by simp [hext]), bind_apply, hm]
        simp only [hfile]
        rfl
  · refine .inl ⟨.extension, .inl ?_⟩
    rw [read, if_pos (by simpa using hext)]
    rfl

theorem read_eq_ok_iff : (read os file s).1 = .ok text ↔ hasExtension file ∧ ∃ found content,
    (os.metadata file s).1 = .ok found ∧ found.isFile ∧ found.size ≤ sizeLimit ∧
      (os.read file (os.metadata file s).2).1 = .ok content ∧
      decode content = .ok text := by
  constructor
  · intro h
    rcases read_cases os file s with ⟨fault, hr | hr⟩ | ⟨hext, found, hm, hfile, hsize⟩
    · rw [hr] at h
      cases h
    · rw [hr] at h
      cases h
    · rw [read_of_metadata hext hm hfile hsize] at h
      dsimp only at h
      split at h
      · cases h
      · exact ⟨hext, found, _, hm, hfile, hsize, ‹_›, h⟩
  · rintro ⟨hext, found, content, hm, hfile, hsize, hc, htext⟩
    rw [read_of_metadata hext hm hfile hsize]
    simp only [hc, htext]

theorem same_read (hos : os.Faithful files) (file : String) (s : σ) :
    Same (files s) (files (read os file s).2) := by
  have hmeta := hos.metadata file s
  rcases read_cases os file s with ⟨fault, hr | hr⟩ | ⟨hext, found, hm, hfile, hsize⟩
  · rw [hr]
    exact .refl
  · rw [hr]
    exact hmeta
  · rw [read_of_metadata hext hm hfile hsize]
    exact hmeta.trans (hos.read file _)

/-- What is read is a file, and its name ends like that of a source file. -/
theorem exists_find_of_read (hos : os.Faithful files) (h : (read os file s).1 = .ok text) :
    Path.extension? file = some "rook" ∧ ∃ content, (files s).find file = .ok (.file content) := by
  obtain ⟨hext, found, content, -, -, -, hc, -⟩ := read_eq_ok_iff.mp h
  exact ⟨by simpa [hasExtension] using hext, content,
    (hos.metadata file s).symm.find (hos.read_ok hc)⟩

theorem leads_read (os : OperatingSystem (StateM σ)) (file : String) (s : σ) :
    os.Leads s (read os file s).2 := by
  rcases read_cases os file s with ⟨fault, hr | hr⟩ | ⟨hext, found, hm, hfile, hsize⟩
  · rw [hr]
    exact .refl
  · rw [hr]
    exact .metadata file .refl
  · rw [read_of_metadata hext hm hfile hsize]
    exact .read file (.metadata file .refl)

/-- Where the same file is found later, the same text is read. -/
theorem read_again (hos : os.Faithful files) (hrep : os.Repeats files)
    (h : (read os file s).1 = .ok text) (hst : os.Leads (read os file s).2 t) {entry : Entry}
    (hs : (files s).find file = .ok entry) (ht : (files t).find file = .ok entry) :
    (read os file t).1 = .ok text := by
  obtain ⟨hext, found, content, hm, hfile, hsize, hc, htext⟩ := read_eq_ok_iff.mp h
  rw [read_of_metadata hext hm hfile hsize] at hst
  have hread : os.Leads (os.metadata file s).2 t :=
    (OperatingSystem.Leads.read file .refl).trans hst
  have hmeta : os.Leads s t := (OperatingSystem.Leads.metadata file .refl).trans hread
  exact read_eq_ok_iff.mpr ⟨hext, found, content, hrep.metadata hm hmeta hs ht, hfile, hsize,
    hrep.read hc (hread.metadata file) ((hos.metadata file s).find hs)
      ((hos.metadata file t).find ht), htext⟩

end SourceFile

/-! A file system as an operating system. -/

namespace FileSystem

variable {fs fs' fs'' : FileSystem} {path : String} {content : ByteArray}

theorem read_eq_ok_iff : (operatingSystem.read path fs).1 = .ok content ↔
    fs.find path = .ok (.file content) := by
  simp only [operatingSystem]
  rcases fs.find path with e | ⟨found⟩ | _
  · exact iff_of_false nofun nofun
  · simp [bind, Except.bind]
  · exact iff_of_false nofun nofun

theorem wrote_of_write (h : fs.write path content = .ok fs') :
    ∃ place, Wrote path content place fs fs' := by
  obtain ⟨names, name, hn⟩ := Path.exists_names_concat path
  obtain ⟨p, -, hfile, rfl, -, hpath⟩ := resolve_of_write hn h
  exact ⟨p ++ [name], rfl, fun q hq => entry?_put_of_ne hq, hfile, entry?_put_concat, hpath⟩

/-- A file that has been written can be written again. -/
theorem exists_write_of_same (h : fs.write path content = .ok fs') (hs : Same fs' fs'') :
    ∃ fs''', fs''.write path content = .ok fs''' := by
  obtain ⟨names, name, hn⟩ := Path.exists_names_concat path
  obtain ⟨p, hp, hproper, hl, -, rfl⟩ := (write_eq_ok_iff hn).mp h
  refine ⟨_, (write_eq_ok_iff hn).mpr
    ⟨p, hs.grows.follow ((grows_of_write h).follow hp), hproper, hl, ?_, rfl⟩⟩
  rw [isDirectoryAt_iff, hs.entry, entry?_put_concat]
  nofun

theorem operatingSystem_write : operatingSystem.write path content fs =
    match fs.write path content with
    | .ok fs' => (.ok (), fs')
    | .error e => (.error e, fs) := rfl

/-- A file system as an operating system meets what is assumed of them. -/
theorem faithful_operatingSystem : operatingSystem.Faithful id where
  metadata _ _ := .refl
  read _ _ := .refl
  read_ok := read_eq_ok_iff.mp
  createDirectories path fs := (madeAlong_makeAll (Path.ancestors path) fs).1
  createDirectories_ok {path fs} hp h := by
    obtain ⟨above, hpaths⟩ := Path.exists_ancestors_eq hp
    exact (madeAlong_makeAll (Path.ancestors path) fs).2 h path (by rw [hpaths]; rfl)
  write_ok {path content fs} h := by
    rw [operatingSystem_write] at h ⊢
    split at h
    · exact wrote_of_write ‹_›
    · cases h
  write_error {path content fs e} h := by
    rw [operatingSystem_write] at h ⊢
    split at h
    · cases h
    · exact Same.refl.begunAtMost

theorem repeats_operatingSystem : operatingSystem.Repeats id where
  metadata {path s t entry found} h _ hs ht := by
    have hs : s.find path = .ok entry := hs
    have ht : t.find path = .ok entry := ht
    simpa only [operatingSystem, hs, ht] using h
  read {path s t entry content} h _ hs ht := by
    rw [read_eq_ok_iff] at h ⊢
    exact ht.trans (hs.symm.trans h)
  createDirectories {path _ fs} _ _ h := by
    have hmake : operatingSystem.createDirectories path fs = (.ok (), fs) := by
      obtain ⟨_, hp, -⟩ := isDirectory_iff.mp h
      obtain ⟨above, hpaths⟩ := Path.exists_ancestors_eq (follow_eq_ok_iff.mp hp).1
      refine makeAll_of_isDirectory fun first hfirst => ?_
      rw [hpaths] at hfirst
      obtain rfl := Option.some.inj hfirst
      exact h
    rw [hmake]
    exact ⟨rfl, .refl⟩
  write {path content s t} h _ ht := by
    rw [operatingSystem_write] at h ht
    split at h
    · rename_i hwrite
      rw [hwrite] at ht
      obtain ⟨t', ht' : t.write path content = .ok t'⟩ := exists_write_of_same hwrite ht
      rw [operatingSystem_write, ht']
    · cases h

end FileSystem

end RookLang

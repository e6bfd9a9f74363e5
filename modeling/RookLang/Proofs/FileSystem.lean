import Mathlib.Data.List.Basic
import Mathlib.Data.List.TakeWhile
import RookLang.FileSystem
import RookLang.Proofs.Paths

/-! What making directories and writing files do to a file system: which places change, and which
paths lead where they did before. -/
namespace RookLang

namespace FileSystem
open RookLang.Path

variable {fs fs' fs'' : FileSystem} {p q : Place} {e : Entry} {path name : String}
  {names more paths : List String} {content : ByteArray}

theorem entry?_put_self (hp : p ≠ []) : entry? (fs.put p e) p = some e := by
  simp [put, entry?, hp]

theorem entry?_put_concat : entry? (fs.put (p ++ [name]) e) (p ++ [name]) = some e :=
  entry?_put_self (by simp)

theorem lookup_filter_ne {entries : List (Place × Entry)} (hq : q ≠ p) :
    (entries.filter (·.1 != p)).lookup q = entries.lookup q := by
  induction entries with
  | nil => rfl
  | cons x entries ih =>
    obtain ⟨place, entry⟩ := x
    by_cases hp : place = p
    · have hqp : (q == place) = false := by simpa [hp] using hq
      rw [List.filter_cons_of_neg (by simp [hp]), ih, List.lookup_cons, hqp]
    · rw [List.filter_cons_of_pos (by simpa using hp), List.lookup_cons, List.lookup_cons, ih]

theorem entry?_put_of_ne (hq : q ≠ p) : entry? (fs.put p e) q = fs.entry? q := by
  have hqp : (q == p) = false := by simpa using hq
  simp only [put, entry?, List.lookup_cons, hqp, lookup_filter_ne hq]

theorem isDirectoryAt_iff : fs.isDirectoryAt p ↔ fs.entry? p = some .directory := by
  unfold isDirectoryAt
  split <;> simp_all

/-! How paths lead to places. -/

/-- One name leads from the directory `p` to the place `q`. -/
inductive Enters (fs : FileSystem) (p : Place) : String → Place → Prop
  | stay {name : String} (hd : fs.isDirectoryAt p) (hn : name = "" ∨ name = ".") : Enters fs p name p
  | up (hd : fs.isDirectoryAt p) : Enters fs p ".." p.dropLast
  | down {name : String} (hd : fs.isDirectoryAt p) (hn : IsProper name)
    (hl : name.utf8ByteSize ≤ nameLimit) (hs : (fs.entry? (p ++ [name])).isSome) :
    Enters fs p name (p ++ [name])

theorem child_eq_ok_iff : fs.child p name = .ok q ↔
    name.utf8ByteSize ≤ nameLimit ∧ (fs.entry? (p ++ [name])).isSome ∧ q = p ++ [name] := by
  rw [child, ← Nat.not_lt]
  by_cases hl : nameLimit < name.utf8ByteSize
  · simp only [hl, if_true, reduceCtorEq, not_true_eq_false, false_and]
  · by_cases hs : (fs.entry? (p ++ [name])).isSome
    · simp only [hl, hs, if_true, if_false, Except.ok.injEq, not_false_eq_true, true_and, eq_comm]
    · simp only [hl, hs, if_false, reduceCtorEq, Bool.false_eq_true, false_and, and_false]

theorem child_eq_notFound_iff : fs.child p name = .error .notFound ↔
    name.utf8ByteSize ≤ nameLimit ∧ fs.entry? (p ++ [name]) = none := by
  rw [child, ← Nat.not_lt]
  by_cases hl : nameLimit < name.utf8ByteSize
  · simp [hl]
  · cases he : fs.entry? (p ++ [name]) <;> simp [hl]

theorem walk_cons_eq_ok_iff : fs.walk p (name :: names) = .ok q ↔
    ∃ r, fs.Enters p name r ∧ fs.walk r names = .ok q := by
  rw [walk]
  by_cases hd : fs.isDirectoryAt p
  · simp only [hd, Bool.not_true, Bool.false_eq_true, if_false]
    by_cases hn : name = "" ∨ name = "."
    · rw [if_pos hn]
      refine ⟨fun h => ⟨p, .stay hd hn, h⟩, ?_⟩
      rintro ⟨r, hr, h⟩
      cases hr with
      | stay => exact h
      | up => simp at hn
      | down _ hp => exact (hn.elim hp.1 hp.2.1).elim
    rw [if_neg hn]
    by_cases hu : name = ".."
    · subst hu
      rw [if_pos rfl]
      refine ⟨fun h => ⟨_, .up hd, h⟩, ?_⟩
      rintro ⟨r, hr, h⟩
      cases hr with
      | stay _ hn' => exact (hn hn').elim
      | up => exact h
      | down _ hp => exact (hp.2.2 rfl).elim
    · rw [if_neg hu]
      have hproper : IsProper name := ⟨fun h => hn (.inl h), fun h => hn (.inr h), hu⟩
      constructor
      · intro h
        split at h
        · obtain ⟨hl, hs, rfl⟩ := child_eq_ok_iff.mp ‹_›
          exact ⟨_, .down hd hproper hl hs, h⟩
        · cases h
      · rintro ⟨r, hr, h⟩
        cases hr with
        | stay _ hn' => exact (hn hn').elim
        | up => exact (hu rfl).elim
        | down _ _ hl hs =>
          rw [child_eq_ok_iff.mpr ⟨hl, hs, rfl⟩]
          exact h
  · refine iff_of_false (by simp [hd]) ?_
    rintro ⟨r, hr, -⟩
    cases hr <;> contradiction

theorem walk_nil_eq_ok_iff : fs.walk p [] = .ok q ↔ q = p := by
  constructor
  · intro h
    exact (Except.ok.inj h).symm
  · rintro rfl
    rfl

theorem walk_append_eq_ok_iff : fs.walk p (names ++ more) = .ok q ↔
    ∃ r, fs.walk p names = .ok r ∧ fs.walk r more = .ok q := by
  induction names generalizing p with
  | nil => simp [walk_nil_eq_ok_iff]
  | cons name names ih =>
    simp only [List.cons_append, walk_cons_eq_ok_iff, ih]
    constructor
    · rintro ⟨r, hr, s, hs, h⟩
      exact ⟨s, ⟨r, hr, hs⟩, h⟩
    · rintro ⟨s, ⟨r, hr, hs⟩, h⟩
      exact ⟨r, hr, s, hs, h⟩

theorem walk_concat_eq_ok_iff : fs.walk p (names ++ [name]) = .ok q ↔
    ∃ r, fs.walk p names = .ok r ∧ fs.Enters r name q := by
  simp only [walk_append_eq_ok_iff, walk_cons_eq_ok_iff, walk_nil_eq_ok_iff, exists_eq_right']

theorem Enters.isDirectoryAt (h : fs.Enters p name q) : fs.isDirectoryAt p := by
  cases h <;> assumption

theorem enters_iff_of_not_isProper (hn : name = "" ∨ name = ".") :
    fs.Enters p name q ↔ fs.isDirectoryAt p ∧ q = p := by
  constructor
  · intro h
    cases h with
    | stay hd => exact ⟨hd, rfl⟩
    | up => simp at hn
    | down _ hp => exact (hn.elim hp.1 hp.2.1).elim
  · rintro ⟨hd, rfl⟩
    exact .stay hd hn

theorem enters_iff_of_isProper (hn : IsProper name) : fs.Enters p name q ↔ fs.isDirectoryAt p ∧
    name.utf8ByteSize ≤ nameLimit ∧ (fs.entry? (p ++ [name])).isSome ∧ q = p ++ [name] := by
  constructor
  · intro h
    cases h with
    | stay _ hn' => exact (hn'.elim hn.1 hn.2.1).elim
    | up => exact (hn.2.2 rfl).elim
    | down hd _ hl hs => exact ⟨hd, hl, hs, rfl⟩
  · rintro ⟨hd, hl, hs, rfl⟩
    exact .down hd hn hl hs

theorem eq_of_walk (hn : ∀ name ∈ names, name = "" ∨ name = ".") (hw : fs.walk p names = .ok q) :
    q = p := by
  induction names with
  | nil => exact walk_nil_eq_ok_iff.mp hw
  | cons name names ih =>
    obtain ⟨hname, hnames⟩ := List.forall_mem_cons.mp hn
    obtain ⟨r, henter, hwalk⟩ := walk_cons_eq_ok_iff.mp hw
    obtain ⟨-, rfl⟩ := (enters_iff_of_not_isProper hname).mp henter
    exact ih hnames hwalk

/-- Nothing is lost from the first file system to the second one, although the content of files may
change. -/
structure Grows (fs fs' : FileSystem) : Prop where
  working : fs'.working = fs.working
  isSome p (h : (fs.entry? p).isSome) : (fs'.entry? p).isSome
  directory p (h : fs.isDirectoryAt p) : fs'.isDirectoryAt p

namespace Grows

theorem enters (h : fs.Grows fs') (he : fs.Enters p name q) : fs'.Enters p name q := by
  cases he with
  | stay hd hn => exact .stay (h.directory p hd) hn
  | up hd => exact .up (h.directory p hd)
  | down hd hn hl hs => exact .down (h.directory p hd) hn hl (h.isSome _ hs)

theorem walk (h : fs.Grows fs') (hw : fs.walk p names = .ok q) : fs'.walk p names = .ok q := by
  induction names generalizing p with
  | nil => exact hw
  | cons name names ih =>
    obtain ⟨r, hr, hw⟩ := walk_cons_eq_ok_iff.mp hw
    exact walk_cons_eq_ok_iff.mpr ⟨r, h.enters hr, ih hw⟩

end Grows

/-- Where a path starts. -/
def start (fs : FileSystem) (path : String) : Place := if isAbsolute path then [] else fs.working

theorem follow_eq_ok_iff : fs.follow path names = .ok p ↔
    path ≠ "" ∧ path.utf8ByteSize ≤ pathLimit ∧ fs.walk (fs.start path) names = .ok p := by
  unfold follow start
  split
  · simp_all
  · split
    · exact iff_of_false nofun fun h => by omega
    · have := Nat.le_of_not_lt ‹_›
      simp_all

/-- Above the last name there is a directory. -/
theorem parentOf_eq_ok_iff : fs.parentOf path names = .ok p ↔
    path ≠ "" ∧ path.utf8ByteSize ≤ pathLimit ∧
      fs.walk (fs.start path) names.dropLast = .ok p ∧ fs.isDirectoryAt p := by
  rw [parentOf, follow_eq_ok_iff, walk_concat_eq_ok_iff]
  refine and_congr_right fun _ => and_congr_right fun _ => ?_
  simp only [enters_iff_of_not_isProper (.inr rfl)]
  constructor
  · rintro ⟨r, hr, hd, rfl⟩
    exact ⟨hr, hd⟩
  · rintro ⟨hr, hd⟩
    exact ⟨p, hr, hd, rfl⟩

namespace Grows

theorem follow (h : fs.Grows fs') (hf : fs.follow path names = .ok p) :
    fs'.follow path names = .ok p := by
  obtain ⟨hne, hl, hw⟩ := follow_eq_ok_iff.mp hf
  have hstart : fs'.start path = fs.start path := by rw [start, start, h.working]
  exact follow_eq_ok_iff.mpr ⟨hne, hl, hstart ▸ h.walk hw⟩

theorem resolve (h : fs.Grows fs') (hr : fs.resolve path = .ok p) : fs'.resolve path = .ok p :=
  h.follow hr

end Grows

/-- A path with a file name leads to a place of that name. -/
theorem exists_resolve_eq (hn : fileName? path = some name) (hr : fs.resolve path = .ok p) :
    ∃ q, p = q ++ [name] := by
  obtain ⟨above, below, hnames, hbelow⟩ := exists_names_of_fileName? hn
  obtain ⟨-, -, hwalk⟩ := follow_eq_ok_iff.mp hr
  rw [hnames, walk_append_eq_ok_iff] at hwalk
  obtain ⟨q, -, hwalk⟩ := hwalk
  obtain ⟨r, henter, hwalk⟩ := walk_cons_eq_ok_iff.mp hwalk
  obtain ⟨-, -, -, rfl⟩ := (enters_iff_of_isProper (mem_names_of_fileName? hn).2).mp henter
  exact ⟨q, eq_of_walk hbelow hwalk⟩

theorem find_eq_ok_iff : fs.find path = .ok e ↔
    ∃ p, fs.resolve path = .ok p ∧ fs.entry? p = some e := by
  unfold find
  cases fs.resolve path with
  | error e => simp
  | ok p => cases he : fs.entry? p <;> simp [he]

theorem isDirectory_iff : fs.isDirectory path ↔
    ∃ p, fs.resolve path = .ok p ∧ fs.isDirectoryAt p := by
  simp only [isDirectoryAt_iff]
  rw [← find_eq_ok_iff, isDirectory]
  split <;> simp_all

theorem Grows.isDirectory (h : fs.Grows fs') (hd : fs.isDirectory path) : fs'.isDirectory path := by
  obtain ⟨p, hr, hp⟩ := isDirectory_iff.mp hd
  exact isDirectory_iff.mpr ⟨p, h.resolve hr, h.directory p hp⟩

theorem walk_replicate_eq_ok_iff {n : ℕ} : fs.walk p (List.replicate n "") = .ok q ↔
    q = p ∧ (n ≠ 0 → fs.isDirectoryAt p) := by
  induction n generalizing p with
  | zero => simp [walk_nil_eq_ok_iff]
  | succ n ih =>
    rw [List.replicate_succ, walk_cons_eq_ok_iff]
    simp only [enters_iff_of_not_isProper (.inl rfl), ih]
    constructor
    · rintro ⟨r, ⟨hd, rfl⟩, rfl, -⟩
      exact ⟨rfl, fun _ => hd⟩
    · rintro ⟨rfl, hd⟩
      exact ⟨q, ⟨hd nofun, rfl⟩, rfl, fun _ => hd nofun⟩

/-- A slash at the end of a path to a directory says nothing. -/
theorem walk_of_resolve (h : fs.resolve path = .ok p)
    (hn : Path.names path = names ∨ Path.names path = names ++ [""]) :
    fs.walk (fs.start path) names = .ok p := by
  obtain ⟨-, -, hwalk⟩ := follow_eq_ok_iff.mp h
  rcases hn with hn | hn
  · rwa [← hn]
  · rw [hn, walk_concat_eq_ok_iff] at hwalk
    obtain ⟨r, hr, henter⟩ := hwalk
    obtain ⟨-, rfl⟩ := (enters_iff_of_not_isProper (.inl rfl)).mp henter
    exact hr

theorem grows_put (h : fs.isDirectoryAt p → e = .directory) : fs.Grows (fs.put p e) := by
  by_cases hp : p = []
  · subst hp
    have hentry q : entry? (fs.put [] e) q = fs.entry? q := by
      by_cases hq : q = []
      · simp [hq, entry?]
      · exact entry?_put_of_ne hq
    exact ⟨rfl, fun q hq => by rwa [hentry], fun q hq => by rwa [isDirectoryAt, hentry]⟩
  · refine ⟨rfl, fun q hq => ?_, fun q hq => ?_⟩
    · by_cases hqp : q = p
      · rw [hqp, entry?_put_self hp, Option.isSome_some]
      · rwa [entry?_put_of_ne hqp]
    · rw [isDirectoryAt_iff]
      by_cases hqp : q = p
      · subst hqp
        rw [entry?_put_self hp, h hq]
      · rwa [entry?_put_of_ne hqp, ← isDirectoryAt_iff]

/-! Making directories. -/

theorem makeDirectory_of_parentOf_error {e : OsError}
    (h : fs.parentOf path (trimmed path) = .error e) : fs.makeDirectory path = .error e := by
  change (fs.parentOf path (trimmed path) >>= _) = _
  rw [h]
  rfl

theorem makeDirectory_of_parentOf (h : fs.parentOf path (trimmed path) = .ok p) :
    fs.makeDirectory path = match (trimmed path).getLast? with
      | none => .error .exists_
      | some name =>
        if name = "." ∨ name = ".." then .error .exists_
        else match fs.child p name with
          | .ok _ => .error .exists_
          | .error .notFound => .ok (fs.put (p ++ [name]) .directory)
          | .error e => .error e := by
  change (fs.parentOf path (trimmed path) >>= _) = _
  rw [h]
  rfl

theorem of_makeDirectory (h : fs.makeDirectory path = .ok fs') : ∃ p name,
    fs.parentOf path (trimmed path) = .ok p ∧ (trimmed path).getLast? = some name ∧
      IsProper name ∧ name.utf8ByteSize ≤ nameLimit ∧ fs.entry? (p ++ [name]) = none ∧
      fs' = fs.put (p ++ [name]) .directory := by
  cases hp : fs.parentOf path (trimmed path) with
  | error e => simp [makeDirectory_of_parentOf_error hp] at h
  | ok p =>
    rw [makeDirectory_of_parentOf hp] at h
    split at h
    · cases h
    · rename_i name hname
      split at h
      · cases h
      · have hproper : IsProper name := isProper_of_trimmed hname ‹_›
        split at h
        · cases h
        · obtain ⟨hl, hnone⟩ := child_eq_notFound_iff.mp ‹_›
          exact ⟨p, name, rfl, hname, hproper, hl, hnone, (Except.ok.inj h).symm⟩
        · cases h

theorem eq_concat_of_getLast? {α : Type} {xs : List α} {x : α} (h : xs.getLast? = some x) :
    xs = xs.dropLast ++ [x] := by
  obtain ⟨ys, rfl⟩ := List.getLast?_eq_some_iff.mp h
  simp

/-- A directory that is made is what the path names then, and nothing else changes. -/
theorem resolve_of_makeDirectory (h : fs.makeDirectory path = .ok fs') : ∃ p name,
    fs.entry? (p ++ [name]) = none ∧ fs' = fs.put (p ++ [name]) .directory ∧
      fs'.resolve path = .ok (p ++ [name]) := by
  obtain ⟨p, name, hp, hname, hproper, hl, hnone, rfl⟩ := of_makeDirectory h
  obtain ⟨hne, hsize, hwalk, hd⟩ := parentOf_eq_ok_iff.mp hp
  obtain ⟨n, hn⟩ := exists_names_eq path
  have hgrows : fs.Grows (fs.put (p ++ [name]) .directory) := grows_put fun _ => rfl
  have hentry : entry? (fs.put (p ++ [name]) .directory) (p ++ [name]) = some .directory :=
    entry?_put_concat
  refine ⟨p, name, hnone, rfl, follow_eq_ok_iff.mpr ⟨hne, hsize, ?_⟩⟩
  rw [hn, walk_append_eq_ok_iff]
  refine ⟨p ++ [name], ?_,
    walk_replicate_eq_ok_iff.mpr ⟨rfl, fun _ => isDirectoryAt_iff.mpr hentry⟩⟩
  rw [eq_concat_of_getLast? hname, walk_concat_eq_ok_iff]
  exact ⟨p, hgrows.walk hwalk, .down (hgrows.directory p hd) hproper hl (by rw [hentry]; rfl)⟩

/-- Where a directory is, none is made. -/
theorem makeDirectory_of_isDirectory (h : fs.isDirectory path) :
    fs.makeDirectory path = .error .exists_ := by
  obtain ⟨q, hr, hq⟩ := isDirectory_iff.mp h
  obtain ⟨hne, hsize, hwalk⟩ := follow_eq_ok_iff.mp hr
  obtain ⟨n, hn⟩ := exists_names_eq path
  rw [hn, walk_append_eq_ok_iff] at hwalk
  obtain ⟨r, hr, hwalk⟩ := hwalk
  obtain ⟨rfl, -⟩ := walk_replicate_eq_ok_iff.mp hwalk
  rcases List.eq_nil_or_concat' (trimmed path) with ht | ⟨ms, name, ht⟩
  · -- The path names where it starts.
    rw [ht, walk_nil_eq_ok_iff] at hr
    have hp : fs.parentOf path (trimmed path) = .ok q :=
      parentOf_eq_ok_iff.mpr ⟨hne, hsize, by rw [ht, hr]; rfl, hq⟩
    rw [makeDirectory_of_parentOf hp, ht]
    rfl
  · rw [ht, walk_concat_eq_ok_iff] at hr
    obtain ⟨p, hwalk, henter⟩ := hr
    have hp : fs.parentOf path (trimmed path) = .ok p :=
      parentOf_eq_ok_iff.mpr ⟨hne, hsize, by rwa [ht, List.dropLast_concat], henter.isDirectoryAt⟩
    have hlast : (trimmed path).getLast? = some name := by rw [ht, List.getLast?_concat]
    rw [makeDirectory_of_parentOf hp, hlast]
    simp only
    split
    · rfl
    · have hproper : IsProper name := isProper_of_trimmed hlast ‹_›
      obtain ⟨-, hl, hs, rfl⟩ := (enters_iff_of_isProper hproper).mp henter
      rw [child_eq_ok_iff.mpr ⟨hl, hs, rfl⟩]

/-- The place `p` holds the same in both file systems, unless it was free and is now a directory
that one of `paths` names. -/
def KeptOrMade (paths : List String) (fs fs' : FileSystem) (p : Place) : Prop :=
  fs'.entry? p = fs.entry? p ∨ fs.entry? p = none ∧ fs'.entry? p = some .directory ∧
    ∃ path ∈ paths, fs'.resolve path = .ok p

namespace KeptOrMade

theorem eq_of_isSome (h : KeptOrMade paths fs fs' p) (hs : (fs.entry? p).isSome) :
    fs'.entry? p = fs.entry? p := by
  refine h.resolve_right fun hmade => ?_
  rw [hmade.1] at hs
  cases hs

theorem isDirectoryAt (h : KeptOrMade paths fs fs' p) (hd : fs.isDirectoryAt p) :
    fs'.isDirectoryAt p := by
  rw [isDirectoryAt_iff] at hd ⊢
  rw [h.eq_of_isSome (by rw [hd, Option.isSome_some]), hd]

/-- What is kept or made stays so while nothing is lost and the place itself is left alone. -/
theorem of_grows (h : KeptOrMade paths fs fs' p) (hg : fs'.Grows fs'')
    (he : fs''.entry? p = fs'.entry? p) : KeptOrMade paths fs fs'' p := by
  rw [KeptOrMade, he]
  refine h.imp_right ?_
  rintro ⟨hnone, hd, a, ha, hr⟩
  exact ⟨hnone, hd, a, ha, hg.resolve hr⟩

end KeptOrMade

/-- From the first file system to the second one, directories have been made that some of `paths`
name, and nothing else has changed. -/
structure MadeAlong (paths : List String) (fs fs' : FileSystem) : Prop where
  working : fs'.working = fs.working
  entry p : KeptOrMade paths fs fs' p

namespace MadeAlong

theorem refl : MadeAlong paths fs fs := ⟨rfl, fun _ => .inl rfl⟩

theorem grows (h : MadeAlong paths fs fs') : fs.Grows fs' where
  working := h.working
  isSome p hp := by rwa [(h.entry p).eq_of_isSome hp]
  directory p hp := (h.entry p).isDirectoryAt hp

theorem trans (h : MadeAlong paths fs fs') (h' : MadeAlong paths fs' fs'') :
    MadeAlong paths fs fs'' := by
  refine ⟨h'.working.trans h.working, fun p => ?_⟩
  rcases h'.entry p with he' | ⟨hnone, hd, ha⟩
  · exact (h.entry p).of_grows h'.grows he'
  · rcases h.entry p with he | ⟨-, hd', -⟩
    · exact .inr ⟨he ▸ hnone, hd, ha⟩
    · rw [hd'] at hnone
      cases hnone

theorem cons (h : MadeAlong paths fs fs') : MadeAlong (path :: paths) fs fs' := by
  refine ⟨h.working, fun p => (h.entry p).imp_right ?_⟩
  rintro ⟨hnone, hd, a, ha, hr⟩
  exact ⟨hnone, hd, a, List.mem_cons_of_mem _ ha, hr⟩

end MadeAlong

theorem madeAlong_of_makeDirectory (paths : List String) (h : fs.makeDirectory path = .ok fs') :
    MadeAlong (path :: paths) fs fs' ∧ fs'.isDirectory path := by
  obtain ⟨p, name, hnone, rfl, hr⟩ := resolve_of_makeDirectory h
  have hentry : entry? (fs.put (p ++ [name]) .directory) (p ++ [name]) = some .directory :=
    entry?_put_concat
  refine ⟨⟨rfl, fun q => ?_⟩, isDirectory_iff.mpr ⟨_, hr, isDirectoryAt_iff.mpr hentry⟩⟩
  by_cases hq : q = p ++ [name]
  · subst hq
    exact .inr ⟨hnone, hentry, path, List.mem_cons_self, hr⟩
  · exact .inl (entry?_put_of_ne hq)

/-- Make a chain of directories in a file system. -/
def makeAll (paths : List String) : StateM FileSystem (Except OsError Unit) :=
  makeChain
    (fun path fs =>
      match fs.makeDirectory path with
      | .ok fs => (.ok (), fs)
      | .error e => (.error e, fs))
    (fun path fs => (fs.isDirectory path, fs)) paths

theorem makeAll_cons : makeAll (path :: paths) fs =
    match fs.makeDirectory path with
    | .ok fs' => (.ok (), fs')
    | .error .notFound =>
      match makeAll paths fs with
      | (.error e, fs') => (.error e, fs')
      | (.ok (), fs') =>
        match fs'.makeDirectory path with
        | .ok fs'' => (.ok (), fs'')
        | .error e => (if fs'.isDirectory path then .ok () else .error e, fs')
    | .error e => (if fs.isDirectory path then .ok () else .error e, fs) := by
  rw [makeAll, makeChain, ← makeAll]
  simp only [bind, StateT.bind, pure]
  cases hmake : fs.makeDirectory path with
  | ok fs' => rfl
  | error e =>
    cases e with
    | notFound =>
      simp only [StateT.bind]
      rcases makeAll paths fs with ⟨_ | ⟨⟩, fs'⟩
      · rfl
      · simp only [bind, StateT.bind]
        cases fs'.makeDirectory path <;> rfl
    | _ => rfl

/-- What a chain of directories does, whether it can be made or not. -/
theorem madeAlong_makeAll (paths : List String) (fs : FileSystem) :
    MadeAlong paths fs (makeAll paths fs).2 ∧
      ((makeAll paths fs).1 = .ok () → ∀ path ∈ paths.head?,
        (makeAll paths fs).2.isDirectory path) := by
  induction paths generalizing fs with
  | nil => exact ⟨.refl, nofun⟩
  | cons path paths ih =>
    have hthere (fs : FileSystem) (e : OsError) :
        (if fs.isDirectory path then Except.ok () else .error e) = .ok () →
          ∀ p ∈ some path, fs.isDirectory p := by
      rintro h _ ⟨⟩
      by_contra hd
      simp [hd] at h
    rw [makeAll_cons]
    split
    · obtain ⟨hmade, hd⟩ := madeAlong_of_makeDirectory paths ‹_›
      exact ⟨hmade, by simpa using hd⟩
    · have hrec : MadeAlong (path :: paths) fs (makeAll paths fs).2 := (ih fs).1.cons
      split
      · rename_i hall
        rw [hall] at hrec
        exact ⟨hrec, nofun⟩
      · rename_i hall
        rw [hall] at hrec
        split
        · obtain ⟨hmade, hd⟩ := madeAlong_of_makeDirectory paths ‹_›
          exact ⟨hrec.trans hmade, by simpa using hd⟩
        · exact ⟨hrec, hthere _ _⟩
    · exact ⟨.refl, hthere _ _⟩

/-- Where the first directory is, nothing is made above it either. -/
theorem makeAll_of_isDirectory (h : ∀ path ∈ paths.head?, fs.isDirectory path) :
    makeAll paths fs = (.ok (), fs) := by
  cases paths with
  | nil => rfl
  | cons path paths =>
    have hd : fs.isDirectory path := h path rfl
    rw [makeAll_cons, makeDirectory_of_isDirectory hd]
    simp only [hd, if_true]

/-! Writing files. -/

theorem write_of_parentOf_error {e : OsError} (h : fs.parentOf path (Path.names path) = .error e) :
    fs.write path content = .error e := by
  change (fs.parentOf path (Path.names path) >>= _) = _
  rw [h]
  rfl

theorem write_of_parentOf (h : fs.parentOf path (Path.names path) = .ok p) :
    fs.write path content = match (Path.names path).getLast? with
      | none | some "" | some "." | some ".." => .error .isDirectory
      | some name =>
        match fs.child p name with
        | .ok q =>
          if fs.isDirectoryAt q then .error .isDirectory
          else .ok (fs.put (p ++ [name]) (.file content))
        | .error .notFound => .ok (fs.put (p ++ [name]) (.file content))
        | .error e => .error e := by
  change (fs.parentOf path (Path.names path) >>= _) = _
  rw [h]
  rfl

/-- A file can be written where its name leads down from a directory, and not to another one. -/
theorem write_eq_ok_iff (hn : Path.names path = names ++ [name]) :
    fs.write path content = .ok fs' ↔ ∃ p, fs.parentOf path (Path.names path) = .ok p ∧
      IsProper name ∧ name.utf8ByteSize ≤ nameLimit ∧ ¬ fs.isDirectoryAt (p ++ [name]) ∧
      fs' = fs.put (p ++ [name]) (.file content) := by
  cases hp : fs.parentOf path (Path.names path) with
  | error e => simp [write_of_parentOf_error hp]
  | ok p =>
    simp only [Except.ok.injEq, exists_eq_left']
    rw [write_of_parentOf hp, hn, List.getLast?_concat]
    split
    · cases ‹some name = none›
    · exact iff_of_false nofun fun h => h.1.1 (Option.some.inj ‹_›)
    · exact iff_of_false nofun fun h => h.1.2.1 (Option.some.inj ‹_›)
    · exact iff_of_false nofun fun h => h.1.2.2 (Option.some.inj ‹_›)
    · rename_i hempty hdot hup hname
      obtain rfl := Option.some.inj hname
      have hproper : IsProper name := ⟨hempty, hdot, hup⟩
      rw [and_iff_right hproper, child]
      by_cases hl : nameLimit < name.utf8ByteSize
      · exact iff_of_false (by simp [hl]) fun h => absurd hl (Nat.not_lt.mpr h.1)
      · rw [if_neg hl, and_iff_right (Nat.le_of_not_lt hl)]
        by_cases hd : fs.isDirectoryAt (p ++ [name])
        · have hs := isDirectoryAt_iff.mp hd
          simp [hs, hd]
        · by_cases hs : (fs.entry? (p ++ [name])).isSome <;> simp [hs, hd, eq_comm]

/-- A written file is what the path names then. -/
theorem resolve_of_write (hn : Path.names path = names ++ [name])
    (h : fs.write path content = .ok fs') : ∃ p, fs.walk (fs.start path) names = .ok p ∧
      ¬ fs.isDirectoryAt (p ++ [name]) ∧ fs' = fs.put (p ++ [name]) (.file content) ∧
      fs.Grows fs' ∧ fs'.resolve path = .ok (p ++ [name]) := by
  obtain ⟨p, hp, hproper, hl, hfile, rfl⟩ := (write_eq_ok_iff hn).mp h
  obtain ⟨hne, hsize, hwalk, hd⟩ := parentOf_eq_ok_iff.mp hp
  rw [hn, List.dropLast_concat] at hwalk
  have hgrows : fs.Grows (fs.put (p ++ [name]) (.file content)) :=
    grows_put fun hd => absurd hd hfile
  refine ⟨p, hwalk, hfile, rfl, hgrows, follow_eq_ok_iff.mpr ⟨hne, hsize, ?_⟩⟩
  rw [hn, walk_concat_eq_ok_iff]
  refine ⟨p, hgrows.walk hwalk, .down (hgrows.directory p hd) hproper hl ?_⟩
  rw [entry?_put_concat, Option.isSome_some]

theorem grows_of_write (h : fs.write path content = .ok fs') : fs.Grows fs' := by
  obtain ⟨names, name, hn⟩ := exists_names_concat path
  obtain ⟨-, -, -, -, hgrows, -⟩ := resolve_of_write hn h
  exact hgrows

end FileSystem

end RookLang

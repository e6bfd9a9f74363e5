import Mathlib.Data.List.Basic
import Mathlib.Data.List.TakeWhile
import RookLang.Path

/-! The names in a path: what a joined path is made of, and what is cut out of a file name. -/
namespace RookLang.Path

variable {path directory name stem : String}

/-- A name that leads down, to what a directory holds. -/
def IsProper (name : String) : Prop := name ≠ "" ∧ name ≠ "." ∧ name ≠ ".."

/-- The names of a path without the empty ones at its end. -/
def trimmed (path : String) : List String := ((names path).reverse.dropWhile (· == "")).reverse

theorem exists_names_eq (path : String) :
    ∃ n, names path = trimmed path ++ List.replicate n "" := by
  have hsplit := List.takeWhile_append_dropWhile (p := (· == "")) (l := (names path).reverse)
  have hempty : ∀ name ∈ (names path).reverse.takeWhile (· == ""), name = "" := fun name hn => by
    simpa using List.mem_takeWhile_imp hn
  refine ⟨((names path).reverse.takeWhile (· == "")).length, ?_⟩
  rw [trimmed, ← List.reverse_inj, List.reverse_append, List.reverse_reverse,
    List.reverse_replicate, ← List.eq_replicate_of_mem hempty]
  exact hsplit.symm

theorem isProper_of_trimmed (h : (trimmed path).getLast? = some name)
    (hn : ¬ (name = "." ∨ name = "..")) : IsProper name := by
  refine ⟨?_, not_or.mp hn⟩
  rintro rfl
  have hd := List.head?_dropWhile_not (· == "") (names path).reverse
  rw [trimmed, List.getLast?_reverse] at h
  simp [h] at hd

theorem notMem_of_mem_splitOn {α : Type} [DecidableEq α] {a : α} {xs all : List α}
    (h : xs ∈ all.splitOn a) : a ∉ xs := by
  induction all generalizing xs with
  | nil => simp_all
  | cons x all ih =>
    rw [List.splitOn_cons_eq_if_modifyHead] at h
    obtain ⟨ys, rest, hsplit⟩ := List.exists_cons_of_ne_nil (List.splitOn_ne_nil a all)
    rw [hsplit] at ih h
    by_cases hx : x = a
    · have h : xs ∈ [] :: ys :: rest := by simpa [hx] using h
      rcases List.mem_cons.mp h with rfl | h
      · exact List.not_mem_nil
      · exact ih h
    · have h : xs ∈ (x :: ys) :: rest := by simpa [hx] using h
      rcases List.mem_cons.mp h with rfl | h
      · rw [List.mem_cons, not_or]
        exact ⟨Ne.symm hx, ih List.mem_cons_self⟩
      · exact ih (List.mem_cons_of_mem _ h)

theorem slash_notMem (h : name ∈ names path) : '/' ∉ name.toList := by
  obtain ⟨cs, hcs, rfl⟩ := List.mem_map.mp h
  simpa using notMem_of_mem_splitOn hcs

theorem exists_names_concat (path : String) : ∃ above name, names path = above ++ [name] :=
  (List.eq_nil_or_concat' (names path)).resolve_left (by simp [names, List.splitOn_ne_nil])

theorem names_append_slash (directory name : String) :
    names (directory ++ "/" ++ name) = names directory ++ names name := by
  simp [names, List.splitOn_append_cons_self]

theorem names_of_notMem (h : '/' ∉ name.toList) : names name = [name] := by
  simp [names, List.splitOn_eq_singleton h]

theorem isAbsolute_append (hd : directory ≠ "") (more : String) :
    isAbsolute (directory ++ more) = isAbsolute directory := by
  obtain ⟨c, cs, hc⟩ := List.exists_cons_of_ne_nil (mt String.toList_eq_nil_iff.mp hd)
  simp [isAbsolute, hc]

/-- A name that is attached to a directory comes after the names of the directory, in the place of
the empty one after a slash at the end. -/
theorem join_eq (hd : directory ≠ "") (hn : '/' ∉ name.toList) : ∃ more above,
    join directory name = directory ++ more ∧ names (join directory name) = above ++ [name] ∧
      (names directory = above ∨ names directory = above ++ [""]) := by
  have hrelative : isAbsolute name = false := by
    rw [isAbsolute, decide_eq_false_iff_not]
    exact fun h => hn (List.mem_of_mem_head? h)
  have hempty : directory.toList.isEmpty = false := by
    simpa using hd
  by_cases hslash : directory.toList.getLast? = some '/'
  · obtain ⟨cs, hcs⟩ := List.getLast?_eq_some_iff.mp hslash
    have hdir : directory = String.ofList cs ++ "/" ++ "" := by
      rw [← String.toList_inj, hcs]
      simp
    refine ⟨name, names (String.ofList cs), ?_, ?_, .inr ?_⟩
    · simp [join, hrelative, hslash]
    · rw [join, hrelative, hslash, if_neg nofun, if_pos (by simp), hdir, String.append_empty,
        names_append_slash, names_of_notMem hn]
    · rw [hdir, names_append_slash]
      rfl
  · refine ⟨"/" ++ name, names directory, ?_, ?_, .inl rfl⟩
    · simp [join, hrelative, hslash, hempty, String.append_assoc]
    · rw [join, hrelative, if_neg nofun, if_neg (by simp [hslash, hd]), names_append_slash,
        names_of_notMem hn]

theorem exists_ancestors_eq (hp : path ≠ "") : ∃ above, ancestors path = path :: above := by
  unfold ancestors
  dsimp only
  exact ⟨_, List.filter_cons_of_pos (by simpa using hp)⟩

theorem cutName_fst_ne (hn : name ≠ "") : (cutName name).1 ≠ "" := by
  unfold cutName
  dsimp only
  split
  · exact hn
  · rename_i h
    exact fun he => h (by simpa using congrArg String.toList he)

theorem mem_of_mem_cutName_fst {c : Char} (h : c ∈ (cutName name).1.toList) : c ∈ name.toList := by
  unfold cutName at h
  dsimp only at h
  split at h
  · exact h
  · exact List.mem_of_mem_take (by simpa using h)

theorem mem_names_of_fileName? (h : fileName? path = some name) :
    name ∈ names path ∧ IsProper name := by
  obtain ⟨hlast, hup⟩ := Option.filter_eq_some_iff.mp h
  obtain ⟨hmem, hproper⟩ := List.mem_filter.mp (List.mem_of_getLast? hlast)
  simp only [Bool.and_eq_true, bne_iff_ne] at hproper hup
  exact ⟨hmem, hproper.1, hproper.2, hup⟩

/-- The stem of a path is a name. -/
theorem of_stem? (h : stem? path = some stem) : stem ≠ "" ∧ '/' ∉ stem.toList := by
  obtain ⟨name, hname, rfl⟩ := Option.map_eq_some_iff.mp h
  obtain ⟨hmem, hproper⟩ := mem_names_of_fileName? hname
  exact ⟨cutName_fst_ne hproper.1, fun hs => slash_notMem hmem (mem_of_mem_cutName_fst hs)⟩

theorem cutName_append_point (hs : stem ≠ "") (extension : String)
    (he : '.' ∉ extension.toList) :
    cutName (stem ++ "." ++ extension) = (stem, some extension) := by
  have htail : ((stem ++ "." ++ extension).toList.reverse.takeWhile (· != '.')).reverse =
      extension.toList := by
    rw [String.toList_append, String.toList_append, List.reverse_append, List.reverse_append]
    rw [List.takeWhile_append_of_pos (by simpa using fun c hc => ne_of_mem_of_not_mem hc he)]
    simp
  have hlength : (stem ++ "." ++ extension).length - extension.toList.length - 1 =
      stem.toList.length := by
    have hpoint : ".".length = 1 := rfl
    simp only [String.length_append, hpoint, String.length_toList]
    omega
  unfold cutName
  rw [htail]
  dsimp only
  rw [hlength, String.toList_append, String.toList_append, List.append_assoc, List.take_left]
  simp [hs]

theorem fileName?_of_names (above : List String) (h : names path = above ++ [name])
    (hn : IsProper name) : fileName? path = some name := by
  obtain ⟨hempty, hdot, hup⟩ := hn
  simp [fileName?, components, h, hempty, hdot, hup]

/-- Below the file name of a path there are only names that lead nowhere. -/
theorem exists_names_of_fileName? (h : fileName? path = some name) : ∃ above below,
    names path = above ++ name :: below ∧ ∀ n ∈ below, n = "" ∨ n = "." := by
  obtain ⟨hlast, -⟩ := Option.filter_eq_some_iff.mp h
  obtain ⟨parts, hparts⟩ := List.getLast?_eq_some_iff.mp hlast
  obtain ⟨above, rest, hnames, -, hrest⟩ := List.filter_eq_append_iff.mp hparts
  obtain ⟨more, below, rfl, -, -, hbelow⟩ := List.filter_eq_cons_iff.mp hrest
  refine ⟨above ++ more, below, by rw [hnames, List.append_assoc], fun n hn => ?_⟩
  have := List.filter_eq_nil_iff.mp hbelow n hn
  simpa [or_iff_not_imp_left] using this

end RookLang.Path

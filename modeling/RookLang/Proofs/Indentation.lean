import Mathlib.Data.List.Chain
import RookLang.Diagnostic
import RookLang.Proofs.Grammar.Blocks
import RookLang.Proofs.Layout
import RookLang.Proofs.Parse

/-! The indentation of programs: it rises by one unit after a colon, and nowhere else. -/
namespace RookLang

theorem count_terminal {ts : List Token} {k : Kind} (hk : k ≠ .keyword) (hb : k ≠ .builtin) :
    (ts.map Token.terminal).count (.plain k) = ts.countP (·.kind == k) := by
  rw [List.count, List.countP_map]
  congr 1
  funext t
  rw [Bool.eq_iff_iff, Function.comp_apply, beq_iff_eq, beq_iff_eq]
  constructor
  · intro h
    rw [← Token.kind_terminal, h, Terminal.kind]
  · rintro rfl
    exact Token.terminal_eq_plain hk hb

/-- How the levels of tokens that make up a program open and close. -/
structure Leveled (ts : List Token) : Prop where
  count : ts.countP (·.kind == .indent) = ts.countP (·.kind == .dedent)
  after_colon t us (h : t :: us <:+ ts) (ht : t.kind = .punctuation .colon) :
    [.newline, .indent] <+: us.map Token.kind ∨ [.number] <+: us.map Token.kind
  before_indent us t (h : us ++ [t] <+: ts) (ht : t.kind = .indent) :
    [.punctuation .colon, .newline] <:+ us.map Token.kind

theorem leveled_of_parse {limit : Option ℕ} {ts : TokenStream} {n : ℕ}
    (h : parseWithin limit ts = .ok n) : Leveled ts.toList := by
  rw [parseWithin_eq_ok_iff] at h
  refine ⟨?_, fun t us hts ht => ?_, fun us t hts ht => ?_⟩
  · rw [← count_terminal (k := .indent) nofun nofun, ← count_terminal (k := .dedent) nofun nofun]
    exact h.kept_program kept_count
  · have hw := hts.map Token.terminal
    rw [List.map_cons, Token.terminal_eq_plain (by simp [ht]) (by simp [ht]), ht] at hw
    rw [← Token.map_kind]
    exact (h.kept_program kept_after_colon _ hw).imp (·.map Terminal.kind) (·.map Terminal.kind)
  · have hw := hts.map Token.terminal
    rw [List.map_append, List.map_singleton,
      Token.terminal_eq_plain (by simp [ht]) (by simp [ht]), ht] at hw
    rw [← Token.map_kind]
    exact (h.kept_program kept_before_indent _ hw).map Terminal.kind

/-- Does the last of the tokens spell a colon? -/
def endsInColon (ts : List Token) : Bool := ts.getLast?.any (·.kind == .punctuation .colon)

namespace Layout

variable {lines : List CodeLine} {l m : CodeLine} {before : ℕ} {ts rest : List Token}

theorem exists_body (h : l.WellFormed) : ∃ us t, l.body = us ++ [t] ∧
    (endsInColon l.body ↔ t.kind = .punctuation .colon) := by
  have hne := body_ne_nil h
  refine ⟨_, _, (List.dropLast_append_getLast hne).symm, ?_⟩
  simp [endsInColon, List.getLast?_eq_some_getLast hne]

theorem opening_of_lt (h : before < l.width) : l.opening before = [l.token .indent "" l.start] :=
  if_pos h

/-- A level opens before a line only if the line stands deeper. -/
theorem lt_of_indent (hl : l.WellFormed)
    (h : [.indent] <+: (l.tokens before ++ rest).map Token.kind) : before < l.width := by
  by_contra hlt
  have hfirst : ∃ t us, l.tokens before = t :: us ∧ t.kind ≠ .indent := by
    rw [CodeLine.tokens, CodeLine.opening, if_neg hlt, List.append_assoc]
    cases dedentCount before l.width with
    | zero =>
      obtain ⟨t, us, hb⟩ := List.exists_cons_of_ne_nil (body_ne_nil hl)
      have hk := isLayout_body hl t (by simp [hb])
      exact ⟨t, us ++ l.ending, by simp [hb], fun hi => by simp [hi, Kind.isLayout] at hk⟩
    | succ k => exact ⟨_, _, rfl, by simp [CodeLine.token]⟩
  obtain ⟨t, us, ht, hk⟩ := hfirst
  rw [ht, List.cons_append, List.map_cons, List.cons_prefix_cons] at h
  exact hk h.1.symm

/-- The indentation rises after a colon at the end of a line, and nowhere else. -/
theorem width_lt_iff (hts : Leveled ts) (hl : l.WellFormed) (hm : m.WellFormed)
    (ht : l.terminated) (h : l.body ++ l.ending ++ (m.tokens l.width ++ rest) <:+ ts) :
    l.width < m.width ↔ endsInColon l.body := by
  obtain ⟨us, t, hb, hcolon⟩ := exists_body hl
  have he : l.ending = [l.token .newline "" l.finish] := if_pos ht
  rw [hb, he] at h
  rw [hcolon]
  constructor
  · intro hlt
    obtain ⟨pre, rfl⟩ := h
    have hi := hts.before_indent (pre ++ us ++ [t, l.token .newline "" l.finish])
      (m.token .indent "" m.start) ⟨m.body ++ m.ending ++ rest, ?_⟩ rfl
    · rw [List.map_append, ← List.nil_append [_, _]] at hi
      obtain ⟨-, hi⟩ := (List.suffix_append_inj_of_length_eq (by rfl)).mp hi
      simpa [eq_comm] using (List.cons.inj hi).1
    · simp [CodeLine.tokens, opening_of_lt hlt]
  · intro hkind
    have hs : t :: l.token .newline "" l.finish :: (m.tokens l.width ++ rest) <:+ ts :=
      .trans ⟨us, by simp⟩ h
    rcases hts.after_colon _ _ hs hkind with hi | hn
    · rw [List.map_cons, List.cons_prefix_cons] at hi
      exact lt_of_indent hm hi.2
    · cases (List.cons_prefix_cons.mp hn).1

/-- What closes after the last line of code leaves no room for a block. -/
theorem not_endsInColon (hts : Leveled ts) (hl : l.WellFormed)
    (h : l.body ++ l.ending ++ l.closing <:+ ts) : ¬ endsInColon l.body := by
  obtain ⟨us, t, hb, hcolon⟩ := exists_body hl
  rw [hcolon]
  intro hkind
  have hs : t :: (l.ending ++ l.closing) <:+ ts := .trans ⟨us, by simp [hb]⟩ h
  have hkinds k (hk : k ∈ (l.ending ++ l.closing).map Token.kind) :
      k = .newline ∨ k = .dedent ∨ k = .endOfInput := by
    obtain ⟨u, hu, rfl⟩ := List.mem_map.mp hk
    rcases List.mem_append.mp hu with hu | hu
    · exact .inl (mem_ending hu ▸ rfl)
    · rcases mem_closing hu with rfl | rfl <;> simp [CodeLine.token]
  rcases hts.after_colon _ _ hs hkind with hi | hn
  · have := hkinds .indent (hi.subset (by simp))
    simp at this
  · have := hkinds .number (hn.subset (by simp))
    simp at this

theorem isChain_tokensAfter (hts : Leveled ts) (hl : ∀ m ∈ l :: lines, m.WellFormed)
    (ht : (l :: lines).IsChain fun l _ => l.terminated)
    (h : l.body ++ l.ending ++ tokensAfter l lines <:+ ts) :
    ((l :: lines).IsChain fun l m => l.width < m.width ↔ endsInColon l.body) ∧
      ∀ m ∈ (l :: lines).getLast?, ¬ endsInColon m.body := by
  induction lines generalizing l with
  | nil =>
    refine ⟨.singleton _, fun m hm => ?_⟩
    obtain rfl : l = m := by simpa using hm
    exact not_endsInColon hts (hl l (by simp)) h
  | cons m lines ih =>
    obtain ⟨hw, hl⟩ := List.forall_mem_cons.mp hl
    obtain ⟨ht, hts'⟩ := List.isChain_cons_cons.mp ht
    have hm : m.body ++ m.ending ++ tokensAfter m lines <:+ ts := by
      refine .trans ⟨l.body ++ l.ending ++ m.opening l.width, ?_⟩ h
      simp [tokensAfter, CodeLine.tokens]
    obtain ⟨hc, hlast⟩ := ih hl hts' hm
    refine ⟨List.isChain_cons_cons.mpr ⟨?_, hc⟩, by simpa using hlast⟩
    exact width_lt_iff hts hw (hl m (by simp)) ht h

/-- How often the width rises over lines of these widths, after one of width `before`. -/
def rises (before : ℕ) : List ℕ → ℕ
  | [] => 0
  | w :: ws => (if before < w then 1 else 0) + rises w ws

theorem countP_indent_line (h : l.WellFormed) :
    (l.tokens before).countP (·.kind == .indent) = if before < l.width then 1 else 0 := by
  rw [countP_line (k := .indent) h rfl (by simp), CodeLine.opening]
  split
  · rfl
  · rw [List.countP_replicate]
    rfl

theorem countP_indent_tokensAfter (h : ∀ m ∈ lines, m.WellFormed) :
    (tokensAfter l lines).countP (·.kind == .indent) = rises l.width (lines.map (·.width)) := by
  induction lines generalizing l with
  | nil =>
    rw [tokensAfter, List.map_nil, rises, List.countP_eq_zero]
    intro t ht
    rcases mem_closing ht with rfl | rfl <;> simp [CodeLine.token]
  | cons m lines ih =>
    obtain ⟨hm, h⟩ := List.forall_mem_cons.mp h
    rw [tokensAfter, List.countP_append, countP_indent_line hm, ih h, List.map_cons, rises]

theorem countP_indent_tokens (h : ∀ l ∈ lines, l.WellFormed) :
    (tokens lines).countP (·.kind == .indent) = rises 0 (lines.map (·.width)) := by
  cases lines with
  | nil => rfl
  | cons l lines =>
    obtain ⟨hl, h⟩ := List.forall_mem_cons.mp h
    rw [tokens_cons, List.countP_append, countP_indent_line hl, countP_indent_tokensAfter h,
      List.map_cons, rises]

variable {ws : List ℕ}

/-- Every rise between whole levels is one of a level or more. -/
theorem four_mul_rises_le (h : ∀ w ∈ before :: ws, 4 ∣ w) :
    4 * rises before ws ≤ rise before ws := by
  induction ws generalizing before with
  | nil => exact Nat.zero_le _
  | cons w ws ih =>
    obtain ⟨hb, h⟩ := List.forall_mem_cons.mp h
    have hw := h w (by simp)
    have := ih h
    rw [rises, rise]
    split <;> omega

/-- If the width rises no more than by one level each time, each rise is one of a level. -/
theorem isChain_of_rise (h : ∀ w ∈ before :: ws, 4 ∣ w)
    (hr : rise before ws = 4 * rises before ws) :
    (before :: ws).IsChain fun b w => b < w → w = b + 4 := by
  induction ws generalizing before with
  | nil => exact .singleton _
  | cons w ws ih =>
    obtain ⟨hb, h⟩ := List.forall_mem_cons.mp h
    have hw := h w (by simp)
    have hle := four_mul_rises_le h
    rw [rises, rise] at hr
    split at hr
    · exact .cons_cons (fun _ => by omega) (ih h (by omega))
    · exact .cons_cons (fun _ => by omega) (ih h (by omega))

/-- Lines, given by their widths and by whether they end in a colon, start without indentation and
stand one unit deeper after a colon, but never deeper without one. -/
structure Indented (lines : List (ℕ × Bool)) : Prop where
  first l (h : l ∈ lines.head?) : l.1 = 0
  next : lines.IsChain fun l m => (m.1 = l.1 + 4 ↔ l.2) ∧ (¬ l.2 → m.1 ≤ l.1) ∧ m.1 ≤ l.1 + 4
  last l (h : l ∈ lines.getLast?) : ¬ l.2

/-- No level opens before the first line. -/
theorem width_head (hts : Leveled (tokens lines)) : ∀ l ∈ lines.head?, l.width = 0 := by
  cases lines with
  | nil => simp
  | cons l lines =>
    intro l' hl
    obtain rfl := Option.mem_some.mp hl
    by_contra hne
    have hi := hts.before_indent [] (l.token .indent "" l.start) ⟨?_, ?_⟩ rfl
    · simp at hi
    · exact l.body ++ l.ending ++ tokensAfter l lines
    · simp [tokens_cons, CodeLine.tokens, opening_of_lt (Nat.pos_of_ne_zero hne)]

theorem isChain_unit (h : ∀ l ∈ lines, l.WellFormed) (hts : Leveled (tokens lines)) :
    lines.IsChain fun l m => l.width < m.width → m.width = l.width + 4 := by
  -- One level opens for a rise of any size, but one closes for each unit: a larger rise would
  -- close more levels than it opens, wherever the indentation falls again.
  have hrise := countP_dedent_tokens h
  rw [← hts.count, countP_indent_tokens h] at hrise
  have haligned : ∀ w ∈ 0 :: lines.map (·.width), 4 ∣ w := by
    simpa using fun l hl => (h l hl).aligned
  exact (List.isChain_map _).mp (isChain_of_rise haligned hrise.symm).tail

theorem indented_of_leveled (h : ∀ l ∈ lines, l.WellFormed) (hts : Leveled (tokens lines))
    (ht : lines.IsChain fun l _ => l.terminated) :
    Indented (lines.map fun l => (l.width, endsInColon l.body)) := by
  have hcolon : (lines.IsChain fun l m => l.width < m.width ↔ endsInColon l.body) ∧
      ∀ m ∈ lines.getLast?, ¬ endsInColon m.body := by
    cases lines with
    | nil => exact ⟨.nil, by simp⟩
    | cons l lines =>
      refine isChain_tokensAfter hts h ht ⟨l.opening 0, ?_⟩
      simp [tokens_cons, CodeLine.tokens]
  obtain ⟨hcolon, hlast⟩ := hcolon
  have hunit := isChain_unit h hts
  refine ⟨?_, ?_, ?_⟩
  · simpa using width_head hts
  · rw [List.isChain_map]
    rw [List.isChain_iff_getElem] at hcolon hunit ⊢
    intro i hi
    have hlt := hcolon i hi
    have hstep := hunit i hi
    rw [← hlt]
    exact ⟨by omega, by omega, by omega⟩
  · simpa using hlast

/-- A line with another line of code after it is terminated. -/
theorem isChain_terminated {text : List Char} (h : codeLines text = .ok lines) :
    lines.IsChain fun l _ => l.terminated := by
  refine (pairwise_codeLines h).isChain.imp_of_mem_imp fun l m hl hm hn => ?_
  obtain ⟨line, hline, -, hr⟩ := readLine_of_mem h hl
  obtain ⟨next, hnext, -, hr'⟩ := readLine_of_mem h hm
  have hle := Text.number_le hnext
  rw [(readLine_eq_ok_iff.mp hr).2, (readLine_eq_ok_iff.mp hr').2] at hn
  rw [(readLine_eq_ok_iff.mp hr).2]
  exact (Text.terminated_iff hline).mpr (hn.trans_le hle).ne

/-- The outline of a text: the widths of its lines of code, with whether the last token of the
line, apart from layout, is a colon. -/
def outline (text : List Char) (ts : TokenStream) : List (ℕ × Bool) :=
  ((Text.lines text).filter isCode).map fun line => (indentation line,
    endsInColon (ts.toList.filter fun t => t.line == line.number && !t.kind.isLayout))

theorem outline_eq {text : List Char} (h : codeLines text = .ok lines) :
    outline text ⟨tokens lines⟩ = lines.map fun l => (l.width, endsInColon l.body) := by
  refine map_codeLines h fun line l hl hr => ?_
  have hn : line.number = l.number := by rw [(readLine_eq_ok_iff.mp hr).2]
  rw [indentation_eq hr, hn, ← List.filter_filter, filter_tokens (wellFormed_of_mem h),
    filter_body (pairwise_codeLines h) hl]

end Layout

open Layout

theorem checkSource_eq_ok_iff {source : List Char} {n : ℕ} : checkSource source = .ok n ↔
    ∃ ts, lex source = .ok ts ∧ parse ts = .ok n := by
  unfold checkSource
  cases lex source with
  | error e => simp
  | ok ts => cases hp : parse ts <;> simp [Except.mapError, hp]

/-- The indentation of programs rises by one unit after a line that ends in a colon, and nowhere
else. The indentation of a text that has tokens may rise by more. -/
theorem checkSource_indented :
    (∀ source n, checkSource source = .ok n → ∃ text ts, Comment.strip source = .ok text ∧
      lex source = .ok ts ∧ Indented (outline text ts)) ∧
    ∃ source text ts, Comment.strip source = .ok text ∧ lex source = .ok ts ∧
      ¬ (outline text ts).IsChain fun l m => m.1 ≤ l.1 + 4 := by
  refine ⟨fun source n h => ?_, ?_⟩
  · obtain ⟨ts, hlex, hp⟩ := checkSource_eq_ok_iff.mp h
    obtain ⟨text, lines, hs, hl, rfl⟩ := lex_eq_ok_iff.mp hlex
    refine ⟨text, _, hs, hlex, ?_⟩
    rw [outline_eq hl]
    exact indented_of_leveled (wellFormed_of_mem hl) (leveled_of_parse hp) (isChain_terminated hl)
  · refine ⟨"if a:\n\t\tb()".toList, "if a:\n\t\tb()".toList, _, by decide, rfl, ?_⟩
    decide

theorem checkSource_indented_block : checkSource "if a:\n\tb()\n".toList = .ok 1 ∧
    ∃ text ts, lex "if a:\n\tb()\n".toList = .ok ts ∧
      outline text ts = [(0, true), (4, false)] ∧ Indented (outline text ts) := by
  have h : checkSource "if a:\n\tb()\n".toList = .ok 1 := by decide +kernel
  have hs : Comment.strip "if a:\n\tb()\n".toList = .ok "if a:\n\tb()\n".toList := by decide
  have ho : (lex "if a:\n\tb()\n".toList).toOption.map (outline "if a:\n\tb()\n".toList) =
      some [(0, true), (4, false)] := by decide +kernel
  obtain ⟨text, ts, ht, hlex, hi⟩ := checkSource_indented.1 _ _ h
  obtain rfl := Except.ok.inj (hs.symm.trans ht)
  rw [hlex] at ho
  exact ⟨h, _, ts, hlex, Option.some.inj ho, hi⟩

end RookLang

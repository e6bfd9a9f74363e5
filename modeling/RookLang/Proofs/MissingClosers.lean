import RookLang.Proofs.Brackets
import RookLang.Proofs.NestingLimit
import RookLang.Proofs.OpenGroups
import RookLang.Proofs.Rules.Lines

/-! Messages about missing closers. They name the group that was opened last and is not closed, and
an expression is missed inside a group only where more of the line is left. -/
namespace RookLang
open Recogniser Terminal

/-- What is missed fits the groups that are open. -/
def Expectation.Fits (gs : List Group) (next : Option Terminal) : Expectation → Prop
  | closing g => ∃ outer, gs = g :: outer
  | expression => gs = [] ∨ ∃ t ∈ next, t.endsLine = false
  | _ => True

theorem Expectation.fits_of_missesOther {gs : List Group} {next : Option Terminal} {t : Terminal}
    {missing : Expectation} (h : Rule.missesOther (.need t missing)) : missing.Fits gs next := by
  cases missing with
  | closing | expression => cases h
  | _ => trivial

/-- A rule blames the group that is open last, if the line ends there. -/
theorem Context.fits_blame {missing : Expectation} (h : missing.isClosing = false) (x : Context)
    (next : Option Terminal) : (x.blame next missing).Fits x.groups next := by
  cases missing with
  | closing => cases h
  | expression =>
    cases hg : x.groups with
    | nil =>
      simp only [blame, hg]
      exact .inl rfl
    | cons g outer =>
      simp only [blame, hg]
      split
      · exact ⟨outer, rfl⟩
      · rename_i hn
        cases next with
        | none => exact (hn rfl).elim
        | some t => exact Or.inr ⟨t, rfl, Bool.eq_false_of_not_eq_true hn⟩
  | _ => trivial

theorem Context.fits_of_enter {x : Context} {limit : Option ℕ} {missing : Expectation}
    (h : x.enter limit = .error missing) (gs : List Group) (next : Option Terminal) :
    missing.Fits gs next := by
  unfold enter at h
  split at h
  · split at h <;> cases h
    trivial
  · cases h

section
variable {limit : Option ℕ} {next : Option Terminal} {x : Context} {goal : Goal Rule}
  {a c : Config Rule} {worked : List (Goal Rule)} {missing : Expectation}

theorem missesOther_of_work {owed : List (Goal Rule)} {y : Context}
    (h : work Rule.react limit next x goal = .ok (.took owed y)) : owed.all Rule.missesOther := by
  cases works_of_work h with
  | need | allow | closeGroup => rfl
  | @take r _ hb =>
    have hr := Rule.reactsOther_react next r
    rw [hb] at hr
    exact hr

/-- Whatever goals are owed, only the ends of groups miss closers. -/
theorem missesOther_of_runs (h : Runs Rule.react limit a worked c)
    (ha : a.goals.all Rule.missesOther) : c.goals.all Rule.missesOther := by
  induction h with
  | refl => exact ha
  | step hs _ ih =>
    refine ih ?_
    cases hs with
    | took hw =>
      rw [List.all_cons, Bool.and_eq_true] at ha
      rw [List.all_append, missesOther_of_work hw, ha.2, Bool.and_self]
    | left hw => exact (Bool.and_eq_true _ _ ▸ ha).2

namespace Levels

variable {p m : Levels} {s : Nesting}

theorem Reflects.fits (h : p.Reflects s x) (hm : Meets p goal m) (ho : Rule.missesOther goal)
    (hw : Recogniser.work Rule.react limit next x goal = .error missing) :
    missing.Fits (s.unclosed.filterMap Enclosure.group?) next := by
  cases misses_of_work hw with
  | need => exact Expectation.fits_of_missesOther ho
  | @refuse r missing hb =>
    have hr := Rule.reactsOther_react next r
    rw [hb] at hr
    cases hm with
    | rule =>
      have hg : x.groups = s.unclosed.filterMap Enclosure.group? := h.unclosed_eq ▸ h.groups_eq
      rw [← hg]
      exact Context.fits_blame hr x next
  | closeGroup =>
    cases hm with
    | @closeGroup u g =>
      have hg : x.groups = g :: _ := h.groups_eq
      rw [← h.unclosed_eq, hg]
      exact ⟨_, rfl⟩
  | openGroup hy | enterBlock hy => exact Context.fits_of_enter hy _ _

/-- All groups that are open are counted. -/
theorem Reflects.length_groups_le (h : p.Reflects s x) : x.groups.length ≤ x.depth := by
  rw [h.groups_eq, h.depth_eq, List.length_filterMap_eq_countP]
  refine List.countP_mono_left fun e _ he => ?_
  cases e with
  | group | block => rfl
  | clauses => cases he

end Levels

/-- Wherever a run comes to, the levels reflect the terminals that are taken by then. -/
theorem tracks_of_runs {ts : List Terminal}
    (h : Runs Rule.react limit ⟨[.rule .program], .initial, ts⟩ worked c) : ∃ us s p,
      ts = us ++ c.rest ∧ run Rule.react limit 0 [.rule .program] .initial ts =
        run Rule.react limit us.length c.goals c.context c.rest ∧
      Nesting.after us = some s ∧ Levels.Tracks p (.settled []) s c ∧
      c.context.depth + worked.count .leaveBlock =
        worked.count .enterBlock + c.context.groups.length := by
  obtain ⟨us, s, p, hu, hs, ht, hd⟩ := (Levels.tracks_initial ts).run h
  obtain ⟨vs, hv, hr⟩ := h.run_eq 0
  obtain rfl := List.append_cancel_right (hu.symm.trans hv)
  rw [Nat.zero_add] at hr
  refine ⟨us, s, p, hu, hr, hs, ht, ?_⟩
  simpa [Context.initial] using hd

/-- What a run misses fits the groups that the terminals before it leave open. -/
theorem fits_of_recognise {ts : List Terminal} {fault : Fault}
    (h : recognise Rule.react limit .program ts = .error fault) :
    fault.missing = .endOfInput ∨ ∃ us rest gs, ts = us ++ rest ∧ fault.taken = us.length ∧
      Brackets.unmatched us = some gs ∧ fault.missing.Fits gs rest.head? := by
  obtain hend | hr := run_of_recognise h
  · exact .inl hend
  obtain ⟨worked, goal, goals, y, rest, hruns, hw⟩ :=
    exists_failed_of_run Rule.react_none_ne_take hr
  obtain ⟨us, s, p, hu, hrun, hs, ht, -⟩ := tracks_of_runs hruns
  rw [hr, run_of_work hw] at hrun
  have hk : fault.taken = us.length := congrArg Fault.taken (Except.error.inj hrun)
  obtain ⟨m, hm, -⟩ := Levels.exists_meets ht.after
  have ho := missesOther_of_runs hruns rfl
  rw [List.all_cons, Bool.and_eq_true] at ho
  exact .inr ⟨us, rest, _, hu, hk, Brackets.unmatched_of_after hs,
    ht.reflects.fits hm ho.1 hw⟩

end

namespace Token

theorem kind_of_not_endsLine {t : Token} (h : t.terminal.endsLine = false) :
    t.kind ∉ [.newline, .dedent, .endOfInput] := by
  intro hk
  simp only [List.mem_cons, List.not_mem_nil, or_false] at hk
  rcases hk with hk | hk | hk <;>
  · rw [terminal_eq_plain (by simp [hk]) (by simp [hk]), hk] at h
    cases h

end Token

/-- The token is the last of the opening brackets that are not matched: what comes after it leaves
none open. -/
def Brackets.LastUnmatched (o : Token) (ts : List Token) : Prop := ∃ before inside gs,
  ts = before ++ o :: inside ∧ unmatched (before.map Token.terminal) = some gs ∧
    unmatched (inside.map Token.terminal) = some []

theorem Brackets.exists_lastUnmatched {ts : List Token} {g : Group} {gs : List Group}
    (h : unmatched (ts.map Token.terminal) = some (g :: gs)) :
    ∃ o, LastUnmatched o ts ∧ o.terminal = g.opener := by
  obtain ⟨before, inside, hts, hb, hi⟩ := exists_opener h
  obtain ⟨before, rest, rfl, rfl, hrest⟩ := List.map_eq_append_iff.mp hts
  obtain ⟨o, inside, rfl, ho, rfl⟩ := List.map_eq_cons_iff.mp hrest
  exact ⟨o, ⟨before, inside, gs, rfl, hb, hi⟩, ho⟩

namespace SyntaxError

/-- The message of an error after the tokens `consumed` names the group that is unfinished. -/
structure NamesGroup (e : SyntaxError) (consumed : List Token) (next : Option Token) : Prop where
  paren : "Expected closing parenthesis ')'".toList <+: e.summary.toList →
    ∃ o, Brackets.LastUnmatched o consumed ∧ o.kind = .punctuation .leftParen
  bracket : "Expected closing bracket ']'".toList <+: e.summary.toList →
    ∃ o, Brackets.LastUnmatched o consumed ∧ o.kind = .punctuation .leftBracket
  /-- An expression is missed outside of all groups, or before the end of the line. -/
  expression : "Expected expression, found ".toList <+: e.summary.toList →
    Brackets.unmatched (consumed.map Token.terminal) = some [] ∨
      ∃ t, next = some t ∧ t.kind ∉ [.newline, .dedent, .endOfInput]

theorem not_prefix_expected {c : Char} {cs : List Char} {s : String} (hc : c ≠ 'c')
    (he : c ≠ 'e') :
    let message := String.ofList
      ('E' :: 'x' :: 'p' :: 'e' :: 'c' :: 't' :: 'e' :: 'd' :: ' ' :: c :: cs) ++ s
    ¬ "Expected closing ".toList <+: message.toList ∧
      ¬ "Expected expression, ".toList <+: message.toList := by
  simp [hc.symm, he.symm]

/-- No other messages start in these ways. -/
theorem not_prefix_message {missing : Expectation} (hc : missing.isClosing = false)
    (he : missing ≠ .expression) (s : String) :
    ¬ "Expected closing ".toList <+: (missing.message ++ s).toList ∧
      ¬ "Expected expression, ".toList <+: (missing.message ++ s).toList := by
  unfold Expectation.message
  cases missing with
  | closing => cases hc
  | expression => exact (he rfl).elim
  | elementAfterComma | endOfInput | blockEnd => simp
  | unexpectedKeyword | unexpectedIndentation | unmatchedUnindent | shallowNesting =>
    simp only [String.append_assoc]
    exact ⟨not_prefix_of_ne (by decide), not_prefix_of_ne (by decide)⟩
  | _ =>
    simp only [String.append_assoc]
    exact not_prefix_expected (by decide) (by decide)

theorem message_isPrefix (e : SyntaxError) : e.missing.message.toList <+: e.summary.toList :=
  ⟨(", found " ++ e.found).toList, by simp [summary]⟩

variable {e : SyntaxError}

theorem missing_of_closing {g : Group}
    (h : (Expectation.closing g).message.toList <+: e.summary.toList) : e.missing = .closing g := by
  obtain ⟨missing, found, location⟩ := e
  simp only [summary, String.append_assoc] at h
  cases hc : missing.isClosing with
  | true =>
    cases missing with
    | closing g' =>
      unfold Expectation.message at h
      cases g <;> cases g' <;> first | rfl | simp at h
    | _ => cases hc
  | false =>
    have hclosing : "Expected closing ".toList <+: (Expectation.closing g).message.toList := by
      unfold Expectation.message
      cases g <;> simp
    obtain rfl | he := eq_or_ne missing .expression
    · have hp := hclosing.trans h
      unfold Expectation.message at hp
      simp at hp
    · exact ((not_prefix_message hc he _).1 (hclosing.trans h)).elim

theorem missing_of_expression (h : "Expected expression, found ".toList <+: e.summary.toList) :
    e.missing = .expression := by
  obtain ⟨missing, found, location⟩ := e
  simp only [summary, String.append_assoc] at h
  cases hc : missing.isClosing with
  | true =>
    cases missing with
    | closing g =>
      unfold Expectation.message at h
      cases g <;> simp at h
    | _ => cases hc
  | false =>
    by_contra he
    have hexpression : "Expected expression, ".toList <+: "Expected expression, found ".toList :=
      by simp
    exact (not_prefix_message hc he _).2 (hexpression.trans h)

theorem namesGroup_of_fits {consumed rest : List Token} {gs : List Group}
    (hu : Brackets.unmatched (consumed.map Token.terminal) = some gs)
    (h : e.missing.Fits gs (rest.map Token.terminal).head?) : e.NamesGroup consumed rest.head? := by
  have closing {g : Group} (hm : e.missing = .closing g) :
      ∃ o, Brackets.LastUnmatched o consumed ∧ o.terminal = g.opener := by
    rw [hm] at h
    obtain ⟨outer, rfl⟩ := h
    exact Brackets.exists_lastUnmatched hu
  refine ⟨fun hp => ?_, fun hp => ?_, fun hp => ?_⟩
  · obtain ⟨o, hl, ho⟩ := closing (missing_of_closing (g := .paren) hp)
    exact ⟨o, hl, o.kind_of_terminal ho⟩
  · obtain ⟨o, hl, ho⟩ := closing (missing_of_closing (g := .bracket) hp)
    exact ⟨o, hl, o.kind_of_terminal ho⟩
  · rw [missing_of_expression hp] at h
    obtain rfl | ⟨t, ht, he⟩ := h
    · exact .inl hu
    · rw [List.head?_map] at ht
      obtain ⟨t, hn, rfl⟩ := Option.map_eq_some_iff.mp ht
      exact .inr ⟨t, hn, t.kind_of_not_endsLine he⟩

theorem namesGroup_of_endOfInput (h : e.missing = .endOfInput) (consumed : List Token)
    (next : Option Token) : e.NamesGroup consumed next := by
  refine ⟨fun hp => ?_, fun hp => ?_, fun hp => ?_⟩
  · cases h.symm.trans (missing_of_closing (g := .paren) hp)
  · cases h.symm.trans (missing_of_closing (g := .bracket) hp)
  · cases h.symm.trans (missing_of_expression hp)

end SyntaxError

/-- Before the first token. -/
def TokenStream.start (ts : TokenStream) : Parser.Config Rule :=
  ⟨[.rule .program], .start ts.toList, ts.toList⟩

/-- What is remembered of groups and blocks after the tokens `us`, in a run that comes to `c`. -/
structure GroupsKept (us : List Token) (worked : List (Goal Rule)) (c : Parser.Config Rule) :
    Prop where
  left_le : worked.count .leaveBlock ≤ worked.count .enterBlock
  /-- The depth is the number of open groups, and of the blocks that were entered and not left. -/
  depth_eq : c.parser.depth =
    c.parser.groups.length + (worked.count .enterBlock - worked.count .leaveBlock)
  depth_le : c.parser.depth ≤ nestingLimit
  /-- Only the group that was opened last and is not closed yet can be closed. -/
  closing : ∀ goals, c.goals = .closeGroup :: goals → ∃ g outer, c.parser.groups = g :: outer ∧
    Brackets.unmatched (us.map Token.terminal) = some (g :: outer)
  /-- There is a level wherever one is left. -/
  leaving : ∀ goal goals, c.goals = goal :: goals → goal = .closeGroup ∨ goal = .leaveBlock →
    0 < c.parser.depth
  /-- Parts of the grammar that come to their end leave all of it as it was before them, and the
  goals after them go on from there. -/
  restoring : ∀ gs goals p rest, c.goals = gs ++ goals → Rule.Part gs →
    c.parser.run Parser.react (some nestingLimit) gs c.rest = .ok (p, rest) →
      c.run Parser.react (some nestingLimit) =
        p.run Parser.react (some nestingLimit) goals rest ∧
      (∃ worked', Parser.Runs Parser.react (some nestingLimit) c worked' ⟨goals, p, rest⟩) ∧
      p.groups = c.parser.groups ∧ p.depth = c.parser.depth

theorem groupsKept_of_runs {ts : TokenStream} {worked : List (Goal Rule)} {c : Parser.Config Rule}
    (h : Parser.Runs Parser.react (some nestingLimit) ts.start worked c) :
    ∃ us, ts.toList = us ++ c.rest ∧ GroupsKept us worked c := by
  have hs : ts.start.InStep := Parser.inStep_start ts.toList
  obtain ⟨himage, hexact⟩ := h.image Parser.follows_react hs rfl
  obtain ⟨vs, s, p, hv, -, hafter, ht, hd⟩ := tracks_of_runs himage
  obtain ⟨us, hu⟩ := h.suffix
  obtain rfl : vs = us.map Token.terminal := by
    have hv : ts.toList.map Token.terminal = vs ++ c.rest.map Token.terminal := hv
    have hu : us ++ c.rest = ts.toList := hu
    rw [← hu, List.map_append] at hv
    exact (List.append_cancel_right hv).symm
  have hle := ht.reflects.length_groups_le
  have hlimit := himage.depth_le (Nat.zero_le nestingLimit)
  simp only [Parser.Config.image] at hd hle hlimit
  refine ⟨us, hu.symm, by omega, by omega, hlimit, fun goals hg => ?_,
    fun goal goals hg hleave => ?_, fun gs goals q rest hg hp hrun => ?_⟩
  · obtain ⟨g, outer, hgroups, hopen, -⟩ := ht.exists_group hg
    exact ⟨g, outer, hgroups, hopen ▸ Brackets.unmatched_of_after hafter⟩
  · rcases hleave with rfl | rfl
    · obtain ⟨g, outer, -, -, hpos⟩ := ht.exists_group hg
      exact hpos
    · exact ht.depth_pos hg
  · obtain ⟨all, p', left⟩ := c
    obtain rfl : all = gs ++ goals := hg
    obtain ⟨worked', hr⟩ := Parser.runs_of_run Parser.idle_react (h.inStep hs) hrun
    have hall := hr.append goals
    have hgs : (Parser.Config.mk gs p' left).IsExact := by
      rw [Parser.Config.IsExact, List.all_append, Bool.and_eq_true] at hexact
      exact hexact.1
    have hkept := ht.restores hp (hr.image Parser.follows_react (h.inStep hs) hgs).1 rfl
    exact ⟨hall.run_eq, ⟨worked', hall⟩, hkept⟩

/-- While tokens are parsed, the open groups are the brackets among them that are not matched, and
the depth counts them and the blocks around them, within the limit; whatever part of a program is
parsed leaves them as they were: a rule, the arguments of a call, the elements of an array, what
follows the name of a builtin, a block. So the message about a missing closer names the bracket
that was opened last, and that about a missing expression is about no open bracket at the end of a
line. -/
theorem parse_keeps_groups (ts : TokenStream) :
    (∃ worked c, Parser.Runs Parser.react (some nestingLimit) ts.start worked c ∧
      Parser.Ends Parser.react (some nestingLimit) c) ∧
    (∀ worked c, Parser.Runs Parser.react (some nestingLimit) ts.start worked c →
      ∃ us, ts.toList = us ++ c.rest ∧
        ts.start.run Parser.react (some nestingLimit) = c.run Parser.react (some nestingLimit) ∧
        GroupsKept us worked c) ∧
    ((∀ r, Rule.Part [.rule r]) ∧ Rule.Part Rule.callArguments ∧ Rule.Part Rule.arrayElements ∧
      (∀ b, Rule.Part (Rule.builtinCall b)) ∧ Rule.Part Rule.block ∧
      Rule.Part Rule.clauseBlock) ∧
    ∀ e, parse ts = .error e → ∃ k ≤ ts.length,
      Parser.parse (some nestingLimit) ts.toList = .error ⟨e, ts.toList.drop k⟩ ∧
      e = .ofFault ts.toList ⟨e.missing, k⟩ ∧
      e.NamesGroup (ts.toList.take k) ts.toList[k]? := by
  refine ⟨Parser.exists_runs _ Parser.idle_react _ (Parser.inStep_start ts.toList),
    fun worked c h => ?_, ⟨.rule, Rule.part_callArguments, Rule.part_arrayElements,
      Rule.part_builtinCall, Rule.part_block, Rule.part_clauseBlock⟩, fun e h => ?_⟩
  · obtain ⟨us, hu, hkept⟩ := groupsKept_of_runs h
    exact ⟨us, hu, h.run_eq, hkept⟩
  obtain ⟨k, hk, hparse, he, hr⟩ := exists_fault_of_parse h
  refine ⟨k, hk, hparse, he, ?_⟩
  obtain hend | ⟨us, rest, gs, hts, hlen, hu, hf⟩ := fits_of_recognise hr
  · exact SyntaxError.namesGroup_of_endOfInput hend _ _
  obtain rfl : k = us.length := hlen
  · obtain ⟨us, rest, htoks, rfl, rfl⟩ := List.map_eq_append_iff.mp hts
    rw [List.length_map]
    have htake : ts.toList.take us.length = us := by rw [htoks, List.take_left]
    have hnext : ts.toList[us.length]? = rest.head? := by
      rw [htoks, List.getElem?_append_right le_rfl, Nat.sub_self, List.head?_eq_getElem?]
    rw [htake, hnext]
    exact SyntaxError.namesGroup_of_fits hu hf

theorem parse_keeps_groups_array :
    let e : SyntaxError := ⟨.closing .bracket, "end of line", ⟨1, 18, "x = f([1, (2 + 3)", 1⟩⟩
    ∃ ts, lex "x = f([1, (2 + 3)\n".toList = .ok ts ∧ parse ts = .error e ∧
      (∃ us worked goal goals p rest,
        Parser.Runs Parser.react (some nestingLimit) ts.start worked ⟨goal :: goals, p, rest⟩ ∧
        p.work Parser.react (some nestingLimit) rest.head? goal = .error (.closing .bracket) ∧
        GroupsKept us worked ⟨goal :: goals, p, rest⟩) ∧
      ∃ o, Brackets.LastUnmatched o (ts.toList.take 12) ∧ o.kind = .punctuation .leftBracket := by
  intro e
  obtain ⟨ts, hlex, h, hk, hr⟩ : ∃ ts, lex "x = f([1, (2 + 3)\n".toList = .ok ts ∧
      parse ts = .error e ∧ 12 ≤ ts.length ∧
      ts.start.run Parser.react (some nestingLimit) = .error ⟨e, ts.toList.drop 12⟩ :=
    ⟨_, rfl, by decide +kernel, by decide +kernel, by decide +kernel⟩
  obtain ⟨-, hkept, -, hnames⟩ := parse_keeps_groups ts
  obtain ⟨k, hle, hparse, -, hn⟩ := hnames e h
  have hrun : Parser.parse (some nestingLimit) ts.toList = .error ⟨e, ts.toList.drop 12⟩ := by
    have hr : (Parser.start ts.toList).run Parser.react _ [.rule .program] ts.toList = _ := hr
    rw [Parser.parse, hr]
  have hleft := congrArg Parser.Failure.left (Except.error.inj (hparse.symm.trans hrun))
  obtain rfl := eq_of_drop_eq hleft hle hk
  obtain ⟨worked, goal, goals, p, missing, hruns, hw, he⟩ :=
    Parser.exists_failed_of_run Parser.idle_react (Parser.inStep_start ts.toList) hr
  obtain rfl : .closing .bracket = missing := by
    simpa using congrArg SyntaxError.missing he
  obtain ⟨us, -, -, hc⟩ := hkept worked _ hruns
  exact ⟨ts, hlex, h, ⟨us, worked, goal, goals, p, _, hruns, hw, hc⟩,
    hn.bracket e.message_isPrefix⟩

end RookLang

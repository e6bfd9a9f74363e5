import Mathlib.Data.List.Forall2
import RookLang.Proofs.Agree
import RookLang.Proofs.ParserSteps

/-! Two runs of the parser side by side. The parser asks a token for its kind, its reserved word and
its builtin. On tokens that agree in these it takes the same steps, whatever else they hold, and the
runs differ only in what they found and where. -/
namespace RookLang

/-- Tokens of one kind that stand for the same reserved word or builtin. -/
structure Token.Alike (t u : Token) : Prop where
  kind : t.kind = u.kind
  keyword? : t.keyword? = u.keyword?
  builtin? : t.builtin? = u.builtin?

namespace Parser

/-- The states differ in the token that was taken last, and there as `R` says. -/
structure Related (R : Token → Token → Prop) (p q : Parser) : Prop where
  context : p.toContext = q.toContext
  current : p.current = q.current
  previous : Option.Rel R p.previous q.previous

/-- The rules tell no tokens apart that `R` relates. -/
def Rules.Blind {S : Type} (g : Rules S) (R : Token → Token → Prop) : Prop :=
  ∀ p q next next' r, Related R p q → Option.Rel R next next' → g p next r = g q next' r

/-- A goal was met in the same way. -/
inductive Worked.Related {S : Type} (R : Token → Token → Prop) : Worked S → Worked S → Prop
  | took {p q} (owed : List (Goal S)) (h : p.Related R q) : Related R (.took owed p) (.took owed q)
  | left {p q} (h : p.Related R q) : Related R (.left p) (.left q)

/-- The goals are the same, and the tokens that are left are related one by one. -/
structure Config.Related {S : Type} (R : Token → Token → Prop) (a b : Config S) : Prop where
  goals : a.goals = b.goals
  parser : a.parser.Related R b.parser
  rest : List.Forall₂ R a.rest b.rest

theorem rel_head? {R : Token → Token → Prop} {ts us : List Token} (h : List.Forall₂ R ts us) :
    Option.Rel R ts.head? us.head? := by
  cases h with
  | nil => exact .none
  | cons h _ => exact .some h

variable {R : Token → Token → Prop} {S : Type} {g : Rules S} {limit : Option ℕ} {p q : Parser}
  {next next' : Option Token} {goal : Goal S} {worked : List (Goal S)} {a b c : Config S}

section
variable (hR : ∀ t u, R t u → t.Alike u) (hn : Option.Rel R next next')
include hR hn

theorem checkKeyword_congr (k : Keyword) : checkKeyword next k = checkKeyword next' k := by
  cases hn with
  | none => rfl
  | some h => simp only [checkKeyword, Option.any_some, (hR _ _ h).keyword?]

theorem checkBuiltin_congr (b : Builtin) : checkBuiltin next b = checkBuiltin next' b := by
  cases hn with
  | none => rfl
  | some h => simp only [checkBuiltin, Option.any_some, (hR _ _ h).builtin?]

end

namespace Related

theorem check_eq (h : p.Related R q) (k : Kind) : p.check k = q.check k := by
  rw [check, check, h.current]

theorem checkAny_eq (h : p.Related R q) (wanted : Kind → Bool) :
    p.checkAny wanted = q.checkAny wanted := by
  rw [checkAny, checkAny, h.current]

theorem atLineEnd_eq (h : p.Related R q) : p.atLineEnd = q.atLineEnd := by
  rw [atLineEnd, atLineEnd, h.current]

theorem missingOperand_eq (h : p.Related R q) : p.missingOperand = q.missingOperand := by
  rw [missingOperand, missingOperand, h.atLineEnd_eq, h.context]

theorem sees_eq (hR : ∀ t u, R t u → t.Alike u) (h : p.Related R q)
    (hn : Option.Rel R next next') (t : Terminal) : p.sees next t = q.sees next' t := by
  cases t with
  | word k => exact checkKeyword_congr hR hn k
  | builtin b => exact checkBuiltin_congr hR hn b
  | plain k => exact h.check_eq k

theorem withContext (h : p.Related R q) (x : Context) :
    Related R { p with toContext := x } { q with toContext := x } :=
  ⟨rfl, h.current, h.previous⟩

theorem statement_eq (hR : ∀ t u, R t u → t.Alike u) (h : p.Related R q)
    (hn : Option.Rel R next next') : p.statement next = q.statement next' := by
  have hsimple : p.simpleStatement next = q.simpleStatement next' := by
    simp only [simpleStatement, checkBuiltin_congr hR hn, h.check_eq]
  cases hn with
  | none => rfl
  | some htu => simp only [statement, (hR _ _ htu).kind, (hR _ _ htu).keyword?, hsimple]

/-- No rule looks at more of a token than `R` preserves. -/
theorem action_eq (hR : ∀ t u, R t u → t.Alike u) (h : p.Related R q)
    (hn : Option.Rel R next next') (r : Rule) : p.action next r = q.action next' r := by
  cases r with
  | statement => exact h.statement_eq hR hn
  | _ =>
    simp only [action, statementEnd, identifierUse, moreTargets, printArgument, branches, clauses,
      iterable, moreComparisons, value, element, moreElements, h.check_eq, h.checkAny_eq,
      h.atLineEnd_eq, h.missingOperand_eq, h.current, checkKeyword_congr hR hn,
      checkBuiltin_congr hR hn]

end Related

theorem blind_react (hR : ∀ t u, R t u → t.Alike u) : Rules.Blind react R := by
  intro p q next next' r h hn
  fun_induction p.react next r with
  | case1 r goals ha | case3 r ha | case4 r missing ha =>
    rw [react_unfold q, ← h.action_eq hR hn, ha]
  | case2 r r' goals ha ih => rw [react_unfold q, ← h.action_eq hR hn, ha, ih]

/-- A goal is met alike, or misses the same. -/
theorem work_agree (limit : Option ℕ) (hR : ∀ t u, R t u → t.Alike u) (hg : g.Blind R)
    (h : p.Related R q) (hn : Option.Rel R next next') (goal : Goal S) :
    Agree Eq (Worked.Related R) (p.work g limit next goal) (q.work g limit next' goal) := by
  cases goal with
  | need t missing =>
    simp only [work, h.sees_eq hR hn]
    split
    · exact .ok (.took [] h)
    · exact .error rfl
  | allow t =>
    simp only [work, h.sees_eq hR hn]
    split
    · exact .ok (.took [] h)
    · exact .ok (.left h)
  | rule r =>
    simp only [work, hg p q next next' r h hn]
    split
    · exact .ok (.took _ h)
    · exact .ok (.left h)
    · exact .error rfl
  | openGroup | enterBlock =>
    simp only [work, h.context]
    cases q.enter limit with
    | error => exact .error rfl
    | ok x => exact .ok (.left (h.withContext _))
  | closeGroup =>
    simp only [work, h.context, h.sees_eq hR hn]
    split
    · exact .ok (.took [] (h.withContext _))
    · exact .error rfl
  | leaveBlock =>
    simp only [work, h.context]
    exact .ok (.left (h.withContext _))
  | tally =>
    refine .ok (.left ⟨?_, h.current, h.previous⟩)
    rw [h.context]

theorem Related.advance {t u : Token} {ts us : List Token} (hR : ∀ t u, R t u → t.Alike u)
    (h : p.Related R q) (htu : R t u) (hts : List.Forall₂ R ts us) :
    (p.advance t ts).Related R (q.advance u us) := by
  refine ⟨h.context, ?_, .some htu⟩
  cases hts with
  | nil => rfl
  | cons h _ => exact congrArg some (hR _ _ h).kind

/-- The other run takes the same step. -/
theorem Step.related (hR : ∀ t u, R t u → t.Alike u) (hg : g.Blind R) (h : Step g limit a goal b)
    {a' : Config S} (ha : a.Related R a') : ∃ b', Step g limit a' goal b' ∧ b.Related R b' := by
  obtain ⟨goals', q, us⟩ := a'
  obtain ⟨hgoals, hp, hrest⟩ := ha
  cases h with
  | @took goal goals p t rest owed p' h =>
    obtain rfl : goal :: goals = goals' := hgoals
    cases hrest with
    | cons htu hrest =>
      have hw := work_agree limit hR hg hp (.some htu) goal
      rw [h] at hw
      generalize hq : q.work g limit _ goal = w at hw
      cases hw with
      | ok hw =>
        cases hw with
        | took _ hpq => exact ⟨_, .took hq, rfl, hpq.advance hR htu hrest, hrest⟩
  | @left goal goals p rest p' h =>
    obtain rfl : goal :: goals = goals' := hgoals
    have hw := work_agree limit hR hg hp (rel_head? hrest) goal
    rw [h] at hw
    generalize hq : q.work g limit _ goal = w at hw
    cases hw with
    | ok hw =>
      cases hw with
      | left hpq => exact ⟨_, .left hq, rfl, hpq, hrest⟩

theorem Runs.related (hR : ∀ t u, R t u → t.Alike u) (hg : g.Blind R)
    (h : Runs g limit a worked c) {a' : Config S} (ha : a.Related R a') :
    ∃ c', Runs g limit a' worked c' ∧ c.Related R c' := by
  induction h generalizing a' with
  | refl => exact ⟨a', .refl, ha⟩
  | step h _ ih =>
    obtain ⟨b', hstep, hb⟩ := h.related hR hg ha
    obtain ⟨c', hr, hc⟩ := ih hb
    exact ⟨c', .step hstep hr, hc⟩

/-- The parsers of `ts` and `us` have taken as many tokens and miss the same, each in the place
where it is. -/
structure Failure.Related (R : Token → Token → Prop) (ts us : List Token) (e f : Failure) :
    Prop where
  left : List.Forall₂ R e.left f.left
  suffix : e.left <:+ ts ∧ f.left <:+ us
  error : ∃ (missing : Expectation) (p q : Parser), p.Related R q ∧
    (e.left = [] → ts ≠ [] → p.previous ≠ none) ∧
    e.error = p.error e.left.head? missing ∧ f.error = q.error f.left.head? missing

theorem run_related (limit : Option ℕ) (hR : ∀ t u, R t u → t.Alike u) (hg : g.Blind R)
    (hidle : g.Idle) (h : a.Related R b) (hs : a.InStep) : Agree (Failure.Related R a.rest b.rest)
      (fun x y => x.1.Related R y.1 ∧ List.Forall₂ R x.2 y.2 ∧ x.2 <:+ a.rest ∧ y.2 <:+ b.rest)
      (a.run g limit) (b.run g limit) := by
  obtain ⟨worked, c, hr, hc⟩ := exists_runs limit hidle a.goals hs
  obtain ⟨⟨goals, q, us⟩, hr', hcc⟩ := hr.related hR hg h
  obtain ⟨taken, hts, hprev⟩ := hr.previous_eq
  obtain ⟨hgoals, hp, hrest⟩ := hcc
  have hrun : a.run g limit = c.run g limit := hr.run_eq
  have hrun' : b.run g limit = _ := hr'.run_eq
  rw [hrun, hrun']
  cases hc with
  | done =>
    obtain rfl : [] = goals := hgoals
    simp only [Config.run, run_nil]
    exact .ok ⟨hp, hrest, hr.suffix, hr'.suffix⟩
  | @failed goal goals' p ts missing hw =>
    obtain rfl : goal :: goals' = goals := hgoals
    have hw' := work_agree limit hR hg hp (rel_head? hrest) goal
    rw [hw] at hw'
    generalize hq : q.work g limit us.head? goal = w at hw'
    cases hw' with
    | error hm =>
      subst hm
      simp only [Config.run, run_of_error hw, run_of_error hq]
      refine .error ⟨hrest, ⟨hr.suffix, hr'.suffix⟩, missing, p, q, hp, ?_, rfl, rfl⟩
      -- Some token was taken if none is left.
      rintro rfl hne hnone
      rw [List.append_nil] at hts
      have hlast := hprev.symm.trans hnone
      rw [← hts, Option.or_eq_none_iff, List.getLast?_eq_none_iff] at hlast
      exact hne hlast.1

/-- Related programs are parsed alike. -/
theorem parse_related (limit : Option ℕ) (hR : ∀ t u, R t u → t.Alike u) {ts us : List Token}
    (h : List.Forall₂ R ts us) :
    Agree (Failure.Related R ts us) Eq (parse limit ts) (parse limit us) := by
  have hstart : (Config.mk [.rule Rule.program] (start ts) ts).Related R
      ⟨[.rule .program], start us, us⟩ := by
    refine ⟨rfl, ⟨rfl, ?_, .none⟩, h⟩
    cases h with
    | nil => rfl
    | cons h _ => exact congrArg some (hR _ _ h).kind
  have hrun := run_related limit hR (blind_react hR) idle_react hstart (inStep_start ts)
  simp only [Config.run] at hrun
  unfold parse
  generalize (start ts).run react limit [.rule .program] ts = e at hrun
  generalize (start us).run react limit [.rule .program] us = f at hrun
  cases hrun with
  | error h => exact .error h
  | @ok x y h =>
    obtain ⟨p, rest⟩ := x
    obtain ⟨q, rest'⟩ := y
    obtain ⟨hp, hrest, hsuffix⟩ := h
    cases hrest with
    | nil => exact .ok (congrArg Context.statements hp.context)
    | cons htu hrest =>
      exact .error ⟨.cons htu hrest, hsuffix, .endOfInput, p, q, hp,
        fun h => absurd h (List.cons_ne_nil _ _), rfl, rfl⟩

/-- What holds of what is found and where holds of the errors. -/
theorem Failure.Related.errors {P : SyntaxError → SyntaxError → Prop} {ts us : List Token}
    {e f : Failure} (h : Failure.Related R ts us e f) (hne : ts ≠ [])
    (hat : ∀ missing t u, R t u →
      P ⟨missing, t.describe, t.location⟩ ⟨missing, u.describe, u.location⟩)
    (hafter : ∀ missing t u, R t u → P ⟨missing, "end of input", t.locationAfter⟩
      ⟨missing, "end of input", u.locationAfter⟩) : P e.error f.error := by
  obtain ⟨hleft, -, missing, p, q, hpq, hlast, he, hf⟩ := h
  rw [he, hf]
  generalize e.left = left, f.left = left' at hleft hlast
  cases hleft with
  | cons htu _ => exact hat missing _ _ htu
  | nil =>
    have hprev := hpq.previous
    have hsome := hlast rfl hne
    simp only [List.head?_nil, Parser.error, Parser.locationAfter]
    generalize p.previous = a, q.previous = b at hprev hsome
    cases hprev with
    | none => exact (hsome rfl).elim
    | some htu => exact hafter missing _ _ htu

/-- As many tokens are left of both. -/
theorem Failure.Related.exists_drop {ts us : List Token} {e f : Failure}
    (h : Failure.Related R ts us e f) (hlen : ts.length = us.length) :
    ∃ k ≤ ts.length, e.left = ts.drop k ∧ f.left = us.drop k := by
  obtain ⟨taken, ht⟩ := h.suffix.1
  obtain ⟨taken', hu⟩ := h.suffix.2
  have hleft := h.left.length_eq
  subst ht
  subst hu
  have hk : taken.length = taken'.length := by
    rw [List.length_append, List.length_append] at hlen
    omega
  refine ⟨taken.length, by simp, by rw [List.drop_left], ?_⟩
  rw [hk, List.drop_left]

end Parser

/-- Streams whose tokens have the same kinds, reserved words and builtins are programs with as many
statements, or parsing takes as many tokens of both and then misses the same, whatever it finds in
the place of it. -/
theorem parse_agree {ts us : TokenStream} (h : List.Forall₂ Token.Alike ts.toList us.toList) :
    Agree (fun e e' => ∃ missing : Expectation, ∃ k ≤ ts.length,
        Parser.parse (some nestingLimit) ts.toList = .error ⟨e, ts.toList.drop k⟩ ∧
        Parser.parse (some nestingLimit) us.toList = .error ⟨e', us.toList.drop k⟩ ∧
        e.summary = missing.message ++ ", found " ++ e.found ∧
        e'.summary = missing.message ++ ", found " ++ e'.found)
      Eq (parse ts) (parse us) := by
  have hp := Parser.parse_related (some nestingLimit) (fun _ _ h => h) h
  simp only [parse, parseWithin]
  generalize hts : Parser.parse _ ts.toList = x, hus : Parser.parse _ us.toList = y at hp
  cases hp with
  | ok hn => exact .ok hn
  | @error f f' hf =>
    obtain ⟨k, hk, hleft, hleft'⟩ := hf.exists_drop h.length_eq
    obtain ⟨-, -, missing, p, q, -, -, he, he'⟩ := hf
    obtain ⟨e, left⟩ := f
    obtain ⟨e', left'⟩ := f'
    subst hleft hleft'
    have he : e = p.error _ missing := he
    have he' : e' = q.error _ missing := he'
    refine .error ⟨missing, k, hk, rfl, rfl, ?_, ?_⟩
    · show e.summary = missing.message ++ ", found " ++ e.found
      rw [SyntaxError.summary, he, Parser.error_missing]
    · show e'.summary = missing.message ++ ", found " ++ e'.found
      rw [SyntaxError.summary, he', Parser.error_missing]

theorem parse_agree_unknown_word :
    let ts : TokenStream := ⟨[⟨.builtin, "input", 1, 1, "input()", 0⟩,
      ⟨.punctuation .leftParen, "(", 1, 6, "input()", 0⟩,
      ⟨.punctuation .rightParen, ")", 1, 7, "input()", 0⟩, ⟨.newline, "", 1, 8, "input()", 0⟩,
      ⟨.keyword, "let", 2, 1, "let", 0⟩]⟩
    let us : TokenStream := ⟨[⟨.builtin, "input", 7, 5, "", 4⟩,
      ⟨.punctuation .leftParen, "", 3, 1, "", 0⟩, ⟨.punctuation .rightParen, "]", 3, 1, "", 0⟩,
      ⟨.newline, "\n", 2, 1, "", 8⟩, ⟨.keyword, "var", 9, 2, " var", 1⟩]⟩
    List.Forall₂ Token.Alike ts.toList us.toList ∧
      ∃ e e' k, Parser.parse (some nestingLimit) ts.toList = .error ⟨e, ts.toList.drop k⟩ ∧
        Parser.parse (some nestingLimit) us.toList = .error ⟨e', us.toList.drop k⟩ ∧
        e.summary = "Expected statement, found 'let'" ∧
        e'.summary = "Expected statement, found 'var'" := by
  intro ts us
  have h : List.Forall₂ Token.Alike ts.toList us.toList :=
    .cons ⟨rfl, rfl, rfl⟩ (.cons ⟨rfl, rfl, rfl⟩ (.cons ⟨rfl, rfl, rfl⟩ (.cons ⟨rfl, rfl, rfl⟩
      (.cons ⟨rfl, rfl, rfl⟩ .nil))))
  have hts : parse ts = .error ⟨.statement, "'let'", ⟨2, 1, "let", 3⟩⟩ := by decide +kernel
  have hus : parse us = .error ⟨.statement, "'var'", ⟨9, 2, " var", 3⟩⟩ := by decide +kernel
  have ha := parse_agree h
  rw [hts, hus] at ha
  obtain - | ⟨missing, k, -, hk, hk', -⟩ := ha
  exact ⟨h, _, _, k, hk, hk', rfl, rfl⟩

end RookLang

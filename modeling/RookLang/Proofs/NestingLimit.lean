import RookLang.Proofs.OpenLevels
import RookLang.Proofs.Prefixes

/-! The limit of nesting. Below it, it makes no difference; it is passed exactly where one more
level is open than it allows, and the error stands at the token after the one that opened this
level. -/
namespace RookLang
open Recogniser Terminal

namespace Recogniser

variable {R : Type} {g : Grammar R} {limit : Option ℕ} {l k : ℕ} {goals goals' : List (Goal R)}
  {x x' : Context} {next : Option Terminal} {us ts : List Terminal} {missing : Expectation}

/-- A higher limit makes no difference to a run that does not pass this one. -/
theorem run_of_limit (hl : ∀ m ∈ limit, l ≤ m)
    (h : ∀ fault, run g (some l) k goals x ts = .error fault → fault.missing.isTooDeep = false) :
    run g limit k goals x ts = run g (some l) k goals x ts := by
  induction ts generalizing k goals x with
  | nil =>
    have ha : advance g limit none goals x = advance g (some l) none goals x := by
      refine advance_of_limit hl fun missing hm => ?_
      exact h ⟨missing, k⟩ (by simp only [run, hm])
    simp only [run, ha]
  | cons t ts ih =>
    have ha : advance g limit (some t) goals x = advance g (some l) (some t) goals x := by
      refine advance_of_limit hl fun missing hm => ?_
      exact h ⟨missing, k⟩ (by simp only [run, hm])
    simp only [run] at h ⊢
    rw [ha]
    split
    · rename_i hm
      rw [hm] at h
      exact ih h
    · rfl
    · rfl

theorem recognise_of_limit {start : R} (hl : ∀ m ∈ limit, l ≤ m)
    (h : ∀ fault, recognise g (some l) start ts = .error fault →
      fault.missing.isTooDeep = false) :
    recognise g limit start ts = recognise g (some l) start ts := by
  unfold recognise at h ⊢
  rw [run_of_limit hl fun fault hr => ?_]
  rw [hr] at h
  exact h fault rfl

theorem advance_depth_le {t : Terminal} (hx : x.depth ≤ l)
    (h : advance g (some l) (some t) goals x = .ok (.took goals' x')) : x'.depth ≤ l := by
  induction goals generalizing x with
  | nil => cases h
  | cons goal goals ih =>
    obtain ⟨owed, hw, -⟩ | ⟨y, hw, h⟩ := took_or_left h
    · exact work_depth_le hx hw
    · exact ih (work_depth_le hx hw) h

theorem Takes.depth_le (h : Takes g (some l) goals x us goals' x') (hx : x.depth ≤ l) :
    x'.depth ≤ l := by
  induction h with
  | nil => exact hx
  | cons ha _ ih => exact ih (advance_depth_le hx ha)

/-- What is taken without a limit is taken with one, if no fault comes before that. -/
theorem Takes.to_limit (h : Takes g none goals x us goals' x')
    (hr : ∀ fault, run g (some l) k goals x (us ++ ts) = .error fault →
      fault.missing.isTooDeep = false) :
    Takes g (some l) goals x us goals' x' ∧ ∀ missing,
      advance g (some l) ts.head? goals' x' = .error missing → missing.isTooDeep = false := by
  induction h generalizing k with
  | nil =>
    refine ⟨.nil, fun missing hm => hr ⟨missing, k⟩ ?_⟩
    cases ts <;> simp only [List.head?_nil, List.head?_cons] at hm <;>
      simp only [List.nil_append, run, hm]
  | @cons goals x t next y us goals' x' ha _ ih =>
    have hm : advance g (some l) (some t) goals x = .ok (.took next y) := by
      rw [← ha]
      symm
      refine advance_of_limit (by simp) fun missing hm => hr ⟨missing, k⟩ ?_
      simp only [List.cons_append, run, hm]
    obtain ⟨ht, hend⟩ := ih (k := k + 1) (by rwa [← run_took next y hm])
    exact ⟨.cons hm ht, hend⟩

end Recogniser

/-- The error says that the nesting is too deep. -/
def SyntaxError.TooDeep (e : SyntaxError) : Prop :=
  "Nesting is too deep".toList <+: e.summary.toList

theorem not_prefix_of_ne {c d : Char} {cs ds : List Char} {s : String} (h : c ≠ d) :
    ¬ (String.ofList (c :: cs)).toList <+: (String.ofList (d :: ds) ++ s).toList := by
  simp [h]

theorem SyntaxError.tooDeep_iff {e : SyntaxError} : e.TooDeep ↔ e.missing.isTooDeep := by
  obtain ⟨missing, found, location⟩ := e
  unfold TooDeep summary Expectation.message
  -- All other messages start with another letter.
  cases missing with
  | shallowNesting l =>
    refine iff_of_true ?_ rfl
    simp
  | closing group =>
    refine iff_of_false ?_ Bool.false_ne_true
    cases group <;> simp only [String.append_assoc] <;> exact not_prefix_of_ne (by decide)
  | _ =>
    refine iff_of_false ?_ Bool.false_ne_true
    simp only [String.append_assoc]
    exact not_prefix_of_ne (by decide)

/-- The parser takes as many tokens of a program as the recogniser takes of their terminals. -/
theorem Parser.exists_runs_iff_takes {limit : Option ℕ} {ts : List Token} {k : ℕ} :
    (∃ worked goals p,
      Parser.Runs react limit ⟨[.rule .program], start ts, ts⟩ worked ⟨goals, p, ts.drop k⟩) ↔
    ∃ goals x, Takes Rule.react limit [.rule .program] .initial ((ts.take k).map Token.terminal)
      goals x := by
  have hs : (Config.mk [.rule Rule.program] (start ts) ts).InStep := inStep_start ts
  constructor
  · rintro ⟨worked, goals, p, h⟩
    obtain ⟨us, goals', x, hus, ht⟩ := (h.image follows_react hs rfl).1.exists_takes
    obtain rfl : us = (ts.take k).map Token.terminal := by
      have hus : ts.map Token.terminal = us ++ (ts.drop k).map Token.terminal := hus
      refine (List.append_cancel_right (Eq.trans ?_ hus)).symm
      rw [← List.map_append, List.take_append_drop]
    exact ⟨goals', x, ht⟩
  · rintro ⟨goals, x, ht⟩
    obtain ⟨worked, hr⟩ := ht.exists_runs ((ts.drop k).map Token.terminal)
    rw [← List.map_append, List.take_append_drop] at hr
    obtain ⟨⟨goals', p, rest⟩, hr, hc⟩ := exists_runs_of_image (a := ⟨_, start ts, ts⟩)
      follows_react hs rfl hr
    obtain ⟨taken, hts⟩ := hr.suffix
    have hlen : rest.length = (ts.drop k).length := by
      simpa [Config.image] using congrArg (·.rest.length) hc
    obtain rfl : rest = ts.drop k := by
      have hsplit : taken ++ rest = ts.take k ++ ts.drop k := hts.trans (ts.take_append_drop k).symm
      exact (List.append_inj' hsplit hlen).2
    exact ⟨worked, goals', p, hr⟩

/-- Without a limit the parser takes the first `k` tokens, and these leave `d` levels open, the
clauses of `which` left out. -/
def TokenStream.LevelsAfter (ts : TokenStream) (k d : ℕ) : Prop :=
  k ≤ ts.length ∧
    (∃ worked goals p, Parser.Runs Parser.react none
      ⟨[.rule .program], .start ts.toList, ts.toList⟩ worked ⟨goals, p, ts.toList.drop k⟩) ∧
    ∃ s, Nesting.after ((ts.toList.take k).map Token.terminal) = some s ∧ s.depth = d

/-- Without a limit, `o` is the first token that leaves more than `l` levels open. The tokens `more`
come after it. -/
structure TokenStream.Passes (ts : TokenStream) (l : ℕ) (before : List Token) (o : Token)
    (more : List Token) : Prop where
  toList_eq : ts.toList = before ++ o :: more
  opens : ∃ s e, Nesting.after (before.map Token.terminal) = some s ∧ s.depth = l ∧
    o.terminal.opens? s.read = some e ∧ e.deepens
  reached : ts.LevelsAfter (before.length + 1) (l + 1)
  first : ∀ k ≤ before.length, ∀ d, ts.LevelsAfter k d → d ≤ l

section
variable {ts : TokenStream} {l : ℕ} {limit : Option ℕ} {e : SyntaxError}

theorem recognise_not_tooDeep
    (h : ∀ e, parseWithin (some l) ts = .error e → ¬ e.TooDeep) (fault : Fault)
    (hf : recognise Rule.react (some l) .program (ts.toList.map Token.terminal) = .error fault) :
    fault.missing.isTooDeep = false := by
  have he := h _ (parseWithin_eq_error_iff.mpr ⟨fault, hf, rfl⟩)
  rw [SyntaxError.tooDeep_iff, SyntaxError.ofFault_missing] at he
  exact Bool.eq_false_of_not_eq_true he

theorem parseWithin_of_limit (hl : ∀ m ∈ limit, l ≤ m)
    (h : ∀ e, parseWithin (some l) ts = .error e → ¬ e.TooDeep) :
    parseWithin limit ts = parseWithin (some l) ts := by
  rw [parseWithin_eq, parseWithin_eq, recognise_of_limit hl (recognise_not_tooDeep h)]

/-- Where the unlimited parser opens one level more than the limit allows, the limit is passed. -/
theorem TokenStream.LevelsAfter.exists_tooDeep {k : ℕ} (h : ts.LevelsAfter k (l + 1)) :
    ∃ e, parseWithin (some l) ts = .error e ∧ e.TooDeep := by
  -- Otherwise a parser with the limit comes to the same place, and fails there.
  by_contra hno
  have hno : ∀ e, parseWithin (some l) ts = .error e → ¬ e.TooDeep := by simpa using hno
  obtain ⟨-, hreached, s, hs, hd⟩ := h
  obtain ⟨goals, x, ht⟩ := Parser.exists_runs_iff_takes.mp hreached
  have hrun (fault : Fault) (hf : run Rule.react (some l) 0 [.rule .program] .initial
      ((ts.toList.take k).map Token.terminal ++ (ts.toList.drop k).map Token.terminal) =
        .error fault) : fault.missing.isTooDeep = false := by
    rw [← List.map_append, List.take_append_drop] at hf
    exact recognise_not_tooDeep hno fault (by rw [recognise, hf])
  obtain ⟨ht, hend⟩ := ht.to_limit hrun
  obtain ⟨s', p, hs', hr, hp⟩ := Levels.exists_reflects_of_takes Levels.reflects_initial rfl ht
  obtain rfl := Option.some.inj (hs.symm.trans hs')
  have hle : x.depth ≤ l := ht.depth_le (Nat.zero_le l)
  rcases hr.depth_cases with ⟨ho, hx⟩ | ⟨-, hx⟩
  · obtain ⟨missing, hm, hdeep⟩ := (Levels.isTooDeep_iff _ hp).mpr ⟨ho, (by omega : l ≤ x.depth)⟩
    rw [hend missing hm] at hdeep
    cases hdeep
  · omega

/-- While more terminals are taken, no more levels are open than the limit allows. -/
theorem depth_le_of_takes {us vs : List Terminal} {t : Terminal} {goals : List (Goal Rule)}
    {x : Context} {s : Nesting}
    (h : Takes Rule.react (some l) [.rule .program] .initial (us ++ t :: vs) goals x)
    (hs : Nesting.after us = some s) : s.depth ≤ l := by
  obtain ⟨next, y, hu, hv⟩ := h.exists_of_append
  obtain ⟨s', p, hs', hr, hp⟩ := Levels.exists_reflects_of_takes Levels.reflects_initial rfl hu
  obtain rfl := Option.some.inj (hs.symm.trans hs')
  have hle : y.depth ≤ l := hu.depth_le (Nat.zero_le l)
  rcases hr.depth_cases with ⟨ho, hx⟩ | ⟨-, hx⟩
  · by_contra hd
    obtain - | ⟨ha, -⟩ := hv
    obtain ⟨missing, hm, -⟩ := (Levels.isTooDeep_iff (some t) hp).mpr
      ⟨ho, (by omega : l ≤ y.depth)⟩
    cases hm.symm.trans ha
  · omega

/-- A limit is passed by what was taken last, which opened a level. -/
theorem exists_opener_terminal {us : List Terminal} {fault : Fault}
    (h : recognise Rule.react (some l) .program us = .error fault)
    (he : fault.missing.isTooDeep) : ∃ vs t rest goals x s e, us = vs ++ t :: rest ∧
      fault.taken = vs.length + 1 ∧
      Takes Rule.react (some l) [.rule .program] .initial (vs ++ [t]) goals x ∧
      Nesting.after vs = some s ∧ s.depth = l ∧ t.opens? s.read = some e ∧ e.deepens := by
  obtain ⟨us, rest, goals, x, rfl, hk, ht, hf⟩ := recognise_eq_error_iff.mp h
  have ha : advance Rule.react (some l) rest.head? goals x = .error fault.missing := by
    refine hf.resolve_right fun hend => ?_
    rw [hend.1] at he
    cases he
  obtain ⟨s, p, hs, href, hp⟩ := Levels.exists_reflects_of_takes Levels.reflects_initial rfl ht
  obtain ⟨ho, hl⟩ := (Levels.isTooDeep_iff _ hp).mp ⟨_, ha, he⟩
  obtain ⟨vs, t, s', e, rfl, hs', hopen, hd, hu⟩ := (href.opened ho).exists_before hs
  refine ⟨vs, t, rest, goals, x, s', e, by simp, by simpa using hk, ht, hs', ?_, hopen, hd⟩
  have hle : x.depth ≤ l := ht.depth_le (Nat.zero_le l)
  have hsucc : s.depth = s'.depth + 1 := by
    unfold Nesting.depth
    rw [hu, List.countP_cons, hd]
    rfl
  rcases href.depth_cases with ⟨-, hx⟩ | ⟨hne, -⟩
  · omega
  · exact (hne ho).elim

theorem exists_opener (h : parseWithin (some l) ts = .error e) (he : e.TooDeep) :
    ∃ before o more, ts.Passes l before o more ∧ e.location = match more with
      | t :: _ => t.location
      | [] => o.locationAfter := by
  obtain ⟨⟨missing, taken⟩, hr, rfl⟩ := parseWithin_eq_error_iff.mp h
  rw [SyntaxError.tooDeep_iff, SyntaxError.ofFault_missing] at he
  obtain ⟨vs, t, rest, goals, x, s, enc, hts, hk, ht, hs, hd, hopen, henc⟩ :=
    exists_opener_terminal hr he
  obtain ⟨before, after, htoks, rfl, hafter⟩ := List.map_eq_append_iff.mp hts
  obtain ⟨o, more, rfl, rfl, rfl⟩ := List.map_eq_cons_iff.mp hafter
  refine ⟨before, o, more, ⟨htoks, ⟨s, enc, hs, hd, hopen, henc⟩, ?_, ?_⟩, ?_⟩
  · have htake : ts.toList.take (before.length + 1) = before ++ [o] := by
      rw [htoks, List.append_cons]
      exact List.take_left' (by simp)
    obtain ⟨s', hs', hd'⟩ := Nesting.exists_after_opens hs hopen henc
    have hle : before.length + 1 ≤ ts.toList.length := by simp [htoks]
    refine ⟨hle, Parser.exists_runs_iff_takes.mpr ⟨goals, x, ?_⟩, s', ?_, by omega⟩
    · rw [htake, List.map_append]
      exact ht.to_none
    · rw [htake, List.map_append]
      exact hs'
  · rintro k hk d ⟨-, -, s₀, hs₀, rfl⟩
    rw [htoks, List.take_append_of_le_length hk] at hs₀
    obtain ⟨t, vs, hvs⟩ := List.exists_cons_of_ne_nil
      (List.append_ne_nil_of_right_ne_nil ((before.drop k).map Token.terminal)
        (List.cons_ne_nil o.terminal []))
    have ht : Takes Rule.react (some l) [.rule .program] .initial
        ((before.take k).map Token.terminal ++ t :: vs) goals x := by
      rw [← hvs, ← List.append_assoc, ← List.map_append, List.take_append_drop]
      exact ht
    exact depth_le_of_takes ht hs₀
  · obtain rfl : taken = (before ++ [o]).length := by simpa using hk
    rw [htoks]
    cases more with
    | nil => rw [SyntaxError.ofFault_concat]
    | cons t more => rw [List.append_cons, SyntaxError.ofFault_append_cons]

end

/-- A limit of nesting makes no difference below it: whatever the parser answers, but that the
nesting is too deep, it answers with every higher limit and with none. It answers that the nesting
is too deep exactly if a parser without a limit comes to a place where one more bracket or block is
open than the limit allows, the bodies of `which` left out. The error then stands at the token after
the first one that opens so many, or after that one if it is the last. -/
theorem parseWithin_limit (ts : TokenStream) (l : ℕ) :
    (∀ limit : Option ℕ, (∀ m ∈ limit, l ≤ m) →
      (∀ e, parseWithin (some l) ts = .error e → ¬ e.TooDeep) →
      parseWithin limit ts = parseWithin (some l) ts) ∧
    ((∃ e, parseWithin (some l) ts = .error e ∧ e.TooDeep) ↔ ∃ k, ts.LevelsAfter k (l + 1)) ∧
    ∀ e, parseWithin (some l) ts = .error e → e.TooDeep →
      ∃ before o more, ts.Passes l before o more ∧ e.location = match more with
        | t :: _ => t.location
        | [] => o.locationAfter := by
  refine ⟨fun limit hl h => parseWithin_of_limit hl h, ⟨?_, ?_⟩, fun e h he => exists_opener h he⟩
  · rintro ⟨e, h, he⟩
    obtain ⟨before, o, more, hp, -⟩ := exists_opener h he
    exact ⟨before.length + 1, hp.reached⟩
  · rintro ⟨k, hk⟩
    exact hk.exists_tooDeep

theorem parseWithin_limit_array :
    let e : SyntaxError := ⟨.shallowNesting 1, "'g'", ⟨1, 4, "f([g])", 1⟩⟩
    ∃ ts, lex "f([g])\n".toList = .ok ts ∧ parseWithin (some 2) ts = .ok 1 ∧
      parseWithin none ts = .ok 1 ∧ parseWithin (some 1) ts = .error e ∧ e.TooDeep ∧
      (∃ k, ts.LevelsAfter k 2) ∧
      ∃ before o more, ts.Passes 1 before o more ∧ e.location = match more with
        | t :: _ => t.location
        | [] => o.locationAfter := by
  intro e
  obtain ⟨ts, hlex, h2, h1⟩ : ∃ ts, lex "f([g])\n".toList = .ok ts ∧
      parseWithin (some 2) ts = .ok 1 ∧ parseWithin (some 1) ts = .error e :=
    ⟨_, rfl, by decide +kernel⟩
  have he : e.TooDeep := SyntaxError.tooDeep_iff.mpr rfl
  have hnone := (parseWithin_limit ts 2).1 none nofun fun e h => by cases h2.symm.trans h
  exact ⟨ts, hlex, h2, hnone.trans h2, h1, he, (parseWithin_limit ts 1).2.1.mp ⟨e, h1, he⟩,
    (parseWithin_limit ts 1).2.2 e h1 he⟩

end RookLang

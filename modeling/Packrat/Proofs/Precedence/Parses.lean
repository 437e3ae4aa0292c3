import Packrat.Proofs.Precedence.Preparation
import Packrat.Proofs.Safety.Parses
import Packrat.Proofs.Transparency.Outcomes

/-! # Only the order of precedences matters

    A grammar is parsed at other precedences in the same order.  Where memo tables answer alike, the
    two parses keep in step from the first match to the last, so the outcome is the same: result,
    report, counters, or fault (`Grammar.outcome_relevel_of_floors`).

    Where they do not, one parse may find an outcome in its table and the other may not.  But NEITHER
    parse depends on its table as far as recognition and reports go: each is followed by the parse
    that keeps no outcome, and these two keep in step (`Grammar.recognition_relevel`).  Of captures
    that is known only if no key stands for two outcomes (`Grammar.tree_relevel`).

    The highest precedence is the exception: there the order alone does not decide
    (`differences_top_ne`). -/

namespace Packrat

open Engine Growth

variable {φ : Precedence → Precedence}

namespace Grammar

variable {g g₀ : Grammar} {c : Config} {source : String} {root : ExprId} {text : Text}
variable {memo : Table Fingerprint (Option Changes) → Table Fingerprint (Option Changes) → Prop}

/-! ## Results -/

/-- Reports describe nodes by what a relevelling leaves alone. -/
theorem reportFor_relevel (g : Grammar) (root : ExprId) (c : Config) (text : Text)
    (failures : Failures) (stop : Nat) :
    Parser.reportFor ⟨g.relevel φ, root, c⟩ text failures stop =
      Parser.reportFor ⟨g, root, c⟩ text failures stop := by
  have hreport : failures.report (g.relevel φ) text = failures.report g text := by
    cases failures with
    | farthest f => simp only [Failures.report, Farthest.report, describe_relevel]
    | first failure =>
        cases failure with
        | none => rfl
        | some failure => simp only [Failures.report, describe_relevel]
    | silent => rfl
  simp only [Parser.reportFor, hreport]

/-- A result is made of captures and failures, and of no precedence. -/
theorem conclude_relevel (g : Grammar) (root : ExprId) (c : Config) (text : Text)
    (succeeded : Bool) (m : Machine) :
    Parser.conclude ⟨g.relevel φ, root, c⟩ text succeeded m =
      Parser.conclude ⟨g, root, c⟩ text succeeded m := by
  simp only [Parser.conclude, reportFor_relevel]

/-- A result does not depend on floors, memo tables and logs. -/
theorem conclude_machines {p : Parser} {m m' : Machine}
    (h : (g.lockstepRelevel φ memo).Machines m m') (succeeded : Bool) :
    p.conclude text succeeded m' = p.conclude text succeeded m := by
  have hstop : m'.state.stop = m.state.stop := h.state.reads fun _ _ _ => rfl
  have hcaptures : m'.state.captures = m.state.captures := h.state.reads fun _ _ _ => rfl
  have hfailures : m.failures = m'.failures := h.failures
  simp only [Parser.conclude, hstop, hcaptures, ← hfailures, h.tally]

/-! ## Parses -/

/-- A grammar of levels has no custom nodes. -/
theorem Levelled.customFree (h : g.Levelled) (id : ExprId) : g.CustomFree id :=
  fun i _ spec children hs => (h i _ hs).2 spec children rfl

/-- A parse with a prepared grammar has a result or is aborted at a limit. -/
theorem limit_of_prepare {options : PrepareOptions} {report : PrepareReport} {e : Fault}
    (hprepare : prepare options g₀ = .ok report g) (hplain : g.Levelled)
    (h : (parseWith g c source).outcome = .error e) : e.isLimit = true := by
  obtain ⟨n, root, hroot, hshelter, hdescribe⟩ :=
    prepare_sheltered hprepare fun i spec children hs => (hplain i _ hs).2 spec children rfl
  obtain ⟨g₁, _, rfl, -⟩ := prepare_validates hprepare
  have hmake : Parser.make { g₁ with prepared := true } c =
      .ok ⟨{ g₁ with prepared := true }, root, c⟩ := by
    rw [Parser.make, if_pos rfl, hroot]
  rw [parseWith, hmake] at h
  rcases Parser.parse_limited (p := ⟨_, root, c⟩) hshelter hdescribe source with
    ⟨r, hr⟩ | ⟨e', he', hlimit⟩
  · cases hr.symm.trans h
  · cases he'.symm.trans h
    exact hlimit

section Parses

variable (hplain : g.Levelled)
variable (hkeeps : ∀ id groups, g.shape? id = some (.cluster groups) → KeepsOrder φ groups)
include hplain hkeeps

/-- The root is matched in step on fresh machines. -/
theorem run_relevel (memo : Table Fingerprint (Option Changes) →
      Table Fingerprint (Option Changes) → Prop) (hempty : memo .empty .empty)
    (hmemo : c.memoization = .none ∨ (g.lockstepRelevel φ memo).Memoizes c.memo) (text : Text)
    (nesting : Nat) (root : ExprId) :
    (g.lockstepRelevel φ memo).Ends Eq
      (invoke ⟨g, text, c⟩ nesting root (.initial c))
      (invoke ⟨g.relevel φ, text, c⟩ nesting root (.initial c)) := by
  refine Lockstep.invoke_inStep (ties_relevel hplain hkeeps text) hmemo nesting root trivial _ _ ?_
  exact ⟨.intro rfl Relevelled.default, hempty, rfl, rfl, trivial⟩

/-- A parse and one of the relevelled grammar are in step, so they have one outcome. -/
theorem parse_relevel (hempty : memo .empty .empty)
    (hmemo : c.memoization = .none ∨ (g.lockstepRelevel φ memo).Memoizes c.memo) (root : ExprId)
    (source : String) :
    (Parser.parse ⟨g.relevel φ, root, c⟩ source).outcome =
      (Parser.parse ⟨g, root, c⟩ source).outcome := by
  have hends := run_relevel hplain hkeeps memo hempty hmemo (.ofString source) c.maxDepth root
  simp only [Parser.parse, Parser.run, Parser.setting]
  generalize invoke ⟨g, .ofString source, c⟩ c.maxDepth root (.initial c) = run at hends ⊢
  generalize invoke ⟨g.relevel φ, .ofString source, c⟩ c.maxDepth root (.initial c) = run' at hends ⊢
  cases hends with
  | ok hvalue hmachine =>
      cases hvalue
      exact (conclude_relevel ..).trans (conclude_machines hmachine _)
  | error hfault _ =>
      cases hfault
      rfl

/-- The same of a grammar that is parsed from its root. -/
theorem outcome_relevel (memo : Table Fingerprint (Option Changes) →
      Table Fingerprint (Option Changes) → Prop) (hempty : memo .empty .empty)
    (hmemo : c.memoization = .none ∨ (g.lockstepRelevel φ memo).Memoizes c.memo) (source : String) :
    (parseWith (g.relevel φ) c source).outcome = (parseWith g c source).outcome := by
  have hroot : (g.relevel φ).root = g.root := rfl
  have hmark : (g.relevel φ).prepared = g.prepared := rfl
  rw [parseWith, parseWith, Parser.make, Parser.make, hroot, hmark]
  by_cases hprepared : g.prepared = true
  · rw [if_pos hprepared, if_pos hprepared]
    cases g.root with
    | none => rfl
    | some root => exact parse_relevel hplain hkeeps hempty hmemo root source
  · rw [if_neg hprepared, if_neg hprepared]

/-- Parses that memoize nothing, or memoize where groups set the same floor exactly if they did. -/
theorem outcome_relevel_of_floors
    (h : c.memoization = .none ∨ c.memo = .off ∨
      ∀ id groups, g.shape? id = some (.cluster groups) → KeepsFloors φ groups) (source : String) :
    (parseWith (g.relevel φ) c source).outcome = (parseWith g c source).outcome := by
  rcases h with hnone | hoff | hfloors
  · exact outcome_relevel hplain hkeeps (fun _ _ => True) trivial (.inl hnone) source
  · exact outcome_relevel hplain hkeeps (fun _ _ => True) trivial
      (.inr (hoff ▸ memoizes_off)) source
  · exact outcome_relevel hplain hkeeps (g.pairing φ hfloors).Tables (Pairing.tables_withBits 6)
      (.inr (memoizes_relevel hfloors c.memo)) source

/-- Whatever is memoized: two results agree on whether and where the root matched. -/
theorem recognition_relevel {r r' : ParseResult} (hroot : g.root = some root)
    (hfailures : c.failures = .farthest) (h : (parseWith g c source).outcome = .ok r)
    (h' : (parseWith (g.relevel φ) c source).outcome = .ok r') :
    r.matched = r'.matched ∧ r.succeeded = r'.succeeded ∧ r.stop = r'.stop ∧
      r.report = r'.report := by
  obtain ⟨b, m, hrun, hconclude, -⟩ := parseWith_ok hroot h
  obtain ⟨b', m', hrun', hconclude', -⟩ := parseWith_ok (g := g.relevel φ) hroot h'
  have hfree : g.CustomFree root := hplain.customFree root
  have hfree' : (g.relevel φ).CustomFree root := hplain.relevel.customFree root
  obtain ⟨n, k, hfollows, hcoupled⟩ := Coupling.invoke_initial
    (Coupling.recognition_begins g _ hfailures) ⟨nofun, nofun, fun _ => hfree⟩ hrun
  obtain ⟨n', k', hfollows', hcoupled'⟩ := Coupling.invoke_initial
    (Coupling.recognition_begins (g.relevel φ) _ hfailures) ⟨nofun, nofun, fun _ => hfree'⟩ hrun'
  -- with enough nesting for both, the parses that follow them keep in step
  have hends := run_relevel hplain hkeeps (fun _ _ => True) (c := .unmemoized 0) trivial
    (.inr memoizes_off)
    (.ofString source) (max k k') root
  have hone := hfollows (max k k') (le_max_left k k')
  have htwo := hfollows' (max k k') (le_max_right k k')
  change invoke ⟨g, .ofString source, .unmemoized 0⟩ (max k k') root (.initial (.unmemoized 0)) = _
    at hone
  change invoke ⟨g.relevel φ, .ofString source, .unmemoized 0⟩ (max k k') root
    (.initial (.unmemoized 0)) = _ at htwo
  rw [hone, htwo] at hends
  cases hends with
  | ok hvalue hmachine =>
      cases hvalue
      obtain ⟨f, f₀, hrecorded, hf₀, -⟩ := hcoupled.recorded
      obtain ⟨f', f₀', hrecorded', hf₀', -⟩ := hcoupled'.recorded
      obtain ⟨hf, hsame⟩ := hrecorded trivial
      obtain ⟨hf', hsame'⟩ := hrecorded' trivial
      have hfailures₀ : n.failures = n'.failures := hmachine.failures
      cases hf₀.symm.trans (hfailures₀.trans hf₀')
      have hstop₀ : n'.state.stop = n.state.stop := hmachine.state.reads fun _ _ _ => rfl
      have hstop : m.state.stop = m'.state.stop :=
        hcoupled.state.stop.trans (hstop₀.symm.trans hcoupled'.state.stop.symm)
      rw [conclude_relevel] at hconclude'
      exact conclude_agree hconclude hconclude' hstop hf hf' (hsame.trans hsame'.symm)

/-- Two results have the same tree, if neither grammar ever finds two outcomes under a key that is
    memoized. -/
theorem tree_relevel {r r' r₀ : ParseResult} {depth : Nat} (hroot : g.root = some root)
    (hfailures : c.failures = .farthest) (h : (parseWith g c source).outcome = .ok r)
    (h' : (parseWith (g.relevel φ) c source).outcome = .ok r')
    (h₀ : (parseWith g (.unmemoized depth) source).outcome = .ok r₀)
    (hcoherent : Setting.Coherent ⟨g, .ofString source, c⟩
      (parseWith g (.unmemoized depth) source).log)
    (hcoherent' : Setting.Coherent ⟨g.relevel φ, .ofString source, c⟩
      (parseWith (g.relevel φ) (.unmemoized depth) source).log) : r.tree = r'.tree := by
  have h₀' : (parseWith (g.relevel φ) (.unmemoized depth) source).outcome = .ok r₀ :=
    (outcome_relevel_of_floors hplain hkeeps (.inr (.inl rfl)) source).trans h₀
  obtain ⟨b, m, hrun, hconclude, -⟩ := parseWith_ok hroot h
  obtain ⟨b', m', hrun', hconclude', -⟩ := parseWith_ok (g := g.relevel φ) hroot h'
  obtain ⟨b₀, m₀, hrun₀, -, hlog⟩ := parseWith_ok hroot h₀
  obtain ⟨b₀', m₀', hrun₀', -, hlog'⟩ := parseWith_ok (g := g.relevel φ) hroot h₀'
  have hends := run_relevel hplain hkeeps (fun _ _ => True) (c := .unmemoized depth) trivial
    (.inr memoizes_off) (.ofString source) depth root
  rw [show invoke ⟨g, .ofString source, .unmemoized depth⟩ depth root _ = _ from hrun₀,
    show invoke ⟨g.relevel φ, .ofString source, .unmemoized depth⟩ depth root _ = _ from hrun₀']
    at hends
  rw [hlog] at hcoherent
  rw [hlog'] at hcoherent'
  rw [tree_unmemoized (hplain.customFree root) hfailures hrun hconclude hrun₀ hcoherent,
    tree_unmemoized (hplain.relevel.customFree root) hfailures hrun' hconclude' hrun₀' hcoherent']
  cases hends with
  | ok hvalue hmachine =>
      cases hvalue
      have hstop : m₀'.state.stop = m₀.state.stop := hmachine.state.reads fun _ _ _ => rfl
      have hcaptures : m₀'.state.captures = m₀.state.captures := hmachine.state.reads fun _ _ _ => rfl
      rw [hstop, hcaptures]

end Parses

/-- Only the order of precedences matters.  Give the groups of all clusters of a prepared grammar
    other precedences in the same order, a left-associative group the highest one only if it had it.
    Then preparing it at these precedences succeeds with the same report.  A parse that memoizes
    nothing has the same outcome, and so has every other one if two groups of a cluster set the same
    floor exactly if they did.  In any case a parse has a result or is aborted at a limit, and two
    results agree on whether and where the root matched and on what was expected; and on the tree,
    too, if neither grammar ever finds two outcomes under a key that is memoized. -/
theorem precedences_ordinal {options : PrepareOptions} {report : PrepareReport}
    (hprepare : prepare options g₀ = .ok report g) (hplain : g.Levelled)
    (hkeeps : ∀ id groups, g.shape? id = some (.cluster groups) → KeepsOrder φ groups) :
    prepare options (g₀.relevel φ) = .ok report (g.relevel φ) ∧ ∀ (c : Config) (source : String),
      ((c.memoization = .none ∨ c.memo = .off ∨
          ∀ id groups, g.shape? id = some (.cluster groups) → KeepsFloors φ groups) →
        (parseWith (g.relevel φ) c source).outcome = (parseWith g c source).outcome) ∧
      (∀ e, (parseWith g c source).outcome = .error e ∨
        (parseWith (g.relevel φ) c source).outcome = .error e → e.isLimit = true) ∧
      ∀ r r', c.failures = .farthest → (parseWith g c source).outcome = .ok r →
        (parseWith (g.relevel φ) c source).outcome = .ok r' →
        (r.matched = r'.matched ∧ r.succeeded = r'.succeeded ∧ r.stop = r'.stop ∧
          r.report = r'.report) ∧
        ∀ depth r₀, (parseWith g (.unmemoized depth) source).outcome = .ok r₀ →
          Setting.Coherent ⟨g, .ofString source, c⟩
            (parseWith g (.unmemoized depth) source).log →
          Setting.Coherent ⟨g.relevel φ, .ofString source, c⟩
            (parseWith (g.relevel φ) (.unmemoized depth) source).log →
          r.tree = r'.tree := by
  have hprepare' := prepare_relevel hprepare hkeeps
  obtain ⟨-, root, hroot, -⟩ :=
    prepare_sheltered hprepare fun i spec children hs => (hplain i _ hs).2 spec children rfl
  refine ⟨hprepare', fun c source => ⟨fun h => ?_, fun e h => ?_, ?_⟩⟩
  · exact outcome_relevel_of_floors hplain hkeeps h source
  · rcases h with h | h
    · exact limit_of_prepare hprepare hplain h
    · exact limit_of_prepare hprepare' hplain.relevel h
  · intro r r' hfailures h h'
    refine ⟨recognition_relevel hplain hkeeps hroot hfailures h h', ?_⟩
    intro depth r₀ h₀ hcoherent hcoherent'
    exact tree_relevel hplain hkeeps hroot hfailures h h' h₀ hcoherent hcoherent'

end Grammar

/-- Sums of differences of a letter.  The letter is on the level of differences, which are
    left-associative: no operand but the leftmost may be on that level. -/
def differences (high low : Precedence) : Grammar :=
  { nodes := #[
      { name := some "E"
        shape := .cluster [⟨high, .leftAssociative, [1, 4]⟩, ⟨low, .leftAssociative, [6]⟩]
        flags := .rule },
      .ofShape (.capture 2 (.node "sub")), .ofShape (.sequence [0, 3, 0]), .ofShape (.literal "-"),
      .ofShape (.capture 5 (.text "n")), .ofShape (.literal "n"),
      .ofShape (.capture 7 (.node "add")), .ofShape (.sequence [0, 8, 0]), .ofShape (.literal "+")]
    rules := [("E", 0)]
    root := some 0 }

/-- The same, marked as prepared. -/
abbrev preparedDifferences (high low : Precedence) : Grammar :=
  { differences high low with prepared := true }

theorem prepare_differences :
    Grammar.prepare {} (differences 10 5) = .ok ⟨0, [], 0⟩ (preparedDifferences 10 5) := by
  cbv

/-- Relevelling this grammar gives it other precedences. -/
theorem relevel_differences (φ : Precedence → Precedence) (high low : Precedence) :
    (preparedDifferences high low).relevel φ = preparedDifferences (φ high) (φ low) := by
  simp [Grammar.relevel, differences, Expr.relevel, Expr.ofShape, Shape.relevel, Group.relevel,
    Shape.defaultFlags, Shape.isTerminal]

/-- Beside the cluster no node of this grammar depends on floors. -/
theorem shape_differences {high low : Precedence} {id : ExprId} {s : Shape ExprId}
    (hs : (preparedDifferences high low).shape? id = some s) :
    s = .cluster [⟨high, .leftAssociative, [1, 4]⟩, ⟨low, .leftAssociative, [6]⟩] ∨
      s.ignoresFloors = true := by
  obtain ⟨e, he, rfl⟩ := Option.map_eq_some_iff.mp hs
  have hmem := Array.mem_of_getElem? he
  simp only [differences, Expr.ofShape, List.mem_toArray, List.mem_cons, List.not_mem_nil,
    or_false] at hmem
  rcases hmem with rfl | rfl | rfl | rfl | rfl | rfl | rfl | rfl | rfl
  · exact .inl rfl
  all_goals exact .inr rfl

theorem groups_differences {high low : Precedence} {id : ExprId} {groups : List (Group ExprId)}
    (hs : (preparedDifferences high low).shape? id = some (.cluster groups)) :
    groups = [⟨high, .leftAssociative, [1, 4]⟩, ⟨low, .leftAssociative, [6]⟩] := by
  rcases shape_differences hs with hgroups | hplain
  · exact Shape.cluster.inj hgroups
  · cases hplain

/-- So it is a grammar of levels. -/
theorem levelled_differences (high low : Precedence) : (preparedDifferences high low).Levelled := by
  intro id s hs
  rcases shape_differences hs with rfl | hplain
  · exact ⟨nofun, nofun⟩
  · constructor
    · rintro operand floor rfl
      cases hplain
    · rintro spec children rfl
      cases hplain

theorem precedences_ordinal_differences :
    ∃ r, (parseWith (preparedDifferences 10 5) { memoization := .all } "n+n+n").outcome = .ok r ∧
      r.matched = true ∧
      (parseWith (preparedDifferences 7 3) { memoization := .all } "n+n+n").outcome = .ok r := by
  let φ : Precedence → Precedence := fun p => if p = 10 then 7 else 3
  have hkeeps : ∀ id groups, (preparedDifferences 10 5).shape? id = some (.cluster groups) →
      KeepsOrder φ groups := by
    intro id groups hs
    rw [groups_differences hs]
    exact ⟨by decide, by decide⟩
  have hfloors : ∀ id groups, (preparedDifferences 10 5).shape? id = some (.cluster groups) →
      KeepsFloors φ groups := by
    intro id groups hs
    rw [groups_differences hs]
    unfold KeepsFloors
    decide
  obtain ⟨r, h, hmatched⟩ := exists_of_toOption (f := ParseResult.matched) (b := true)
    (x := (parseWith (preparedDifferences 10 5) { memoization := .all } "n+n+n").outcome)
    (by decide +kernel)
  have hsame := ((Grammar.precedences_ordinal prepare_differences (levelled_differences 10 5)
    hkeeps).2 { memoization := .all } "n+n+n").1 (.inr (.inr hfloors))
  rw [relevel_differences] at hsame
  exact ⟨r, h, hmatched, hsame.trans h⟩

/-- The highest precedence has no next one.  Where the level of differences is given it, the order is
    kept, but the right operand of a difference may now be a difference, too. -/
theorem differences_top_ne :
    Grammar.prepare {} (differences 10 5) = .ok ⟨0, [], 0⟩ (preparedDifferences 10 5) ∧
      ∃ φ : Precedence → Precedence, φ 5 < φ 10 ∧
        ∃ r r', (parseWith (preparedDifferences 10 5) {} "n-n-n").outcome = .ok r ∧
          (parseWith ((preparedDifferences 10 5).relevel φ) {} "n-n-n").outcome = .ok r' ∧
          (r.matched, r.stop) = (false, 1) ∧ (r'.matched, r'.stop) = (true, 5) := by
  obtain ⟨r, h, hr⟩ := exists_of_toOption (f := fun r => (r.matched, r.stop)) (b := (false, 1))
    (x := (parseWith (preparedDifferences 10 5) {} "n-n-n").outcome) (by decide +kernel)
  obtain ⟨r', h', hr'⟩ := exists_of_toOption (f := fun r => (r.matched, r.stop)) (b := (true, 5))
    (x := (parseWith (preparedDifferences Precedence.top 5) {} "n-n-n").outcome)
    (by decide +kernel)
  refine ⟨prepare_differences, fun p => if p = 10 then Precedence.top else 5, by decide, r, r', h, ?_,
    hr, hr'⟩
  rw [relevel_differences]
  exact h'

end Packrat

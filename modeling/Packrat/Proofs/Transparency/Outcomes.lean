import Mathlib
import Packrat.Analysis.Preparation
import Packrat.Proofs.Limits
import Packrat.Proofs.Transparency.Invocation

/-! # What memoization changes

    Two parses of a text, whatever they memoize, are both followed by the parse that keeps no
    outcome.  That parse is one and the same, so the two agree on everything in which each agrees
    with it.

    Where a match ends and which failures are recorded never depends on memoization.  Captures do:
    a key tells how far a seed reaches and not what it captured, so one key may stand for outcomes
    with different captures.  As long as it does not, the two capture trees are the same. -/

namespace Packrat

open Engine Matching

variable {g : Grammar} {c c' : Config} {source : String} {root : ExprId} {r r' : ParseResult}

/-! ## How a result comes about -/

/-- A parser that gave a result concluded from what the run of its root left. -/
theorem Parser.parse_ok {p : Parser} (h : (p.parse source).outcome = .ok r) :
    ∃ b m, p.run (.ofString source) = .ok b m ∧ p.conclude (.ofString source) b m = .ok r := by
  rw [parse] at h
  cases hrun : p.run (.ofString source) with
  | error e m =>
      rw [hrun] at h
      cases h
  | ok b m =>
      rw [hrun] at h
      exact ⟨b, m, rfl, h⟩

/-- A parse that gave a result ran the root on a fresh machine and concluded from what it left. -/
theorem parseWith_ok (hroot : g.root = some root) (h : (parseWith g c source).outcome = .ok r) :
    ∃ b m, invoke ⟨g, .ofString source, c⟩ c.maxDepth root (.initial c) = .ok b m ∧
      Parser.conclude ⟨g, root, c⟩ (.ofString source) b m = .ok r ∧
      (parseWith g c source).log = m.log.reverse := by
  by_cases hprepared : g.prepared = true
  · have hparse : parseWith g c source = Parser.parse ⟨g, root, c⟩ source := by
      rw [parseWith, Parser.make, if_pos hprepared, hroot]
    rw [hparse, Parser.parse] at h ⊢
    cases hrun : Parser.run ⟨g, root, c⟩ (.ofString source) with
    | ok b m =>
        simp only [hrun] at h ⊢
        exact ⟨b, m, hrun, h, rfl⟩
    | error e m =>
        simp only [hrun] at h
        cases h
  · rw [parseWith, Parser.make, if_neg hprepared] at h
    cases h

/-- Only a grammar with a root gives a result. -/
theorem exists_root_of_parseWith_ok (h : (parseWith g c source).outcome = .ok r) :
    ∃ root, g.root = some root := by
  cases hroot : g.root with
  | some root => exact ⟨root, rfl⟩
  | none =>
      rw [parseWith, Parser.make, hroot] at h
      split at h
      · rename_i hmake
        split at hmake <;> cases hmake
      · cases h

/-- What a result is made of. -/
theorem conclude_ok {p : Parser} {text : Text} {b : Bool} {m : Machine}
    (h : p.conclude text b m = .ok r) :
    r.succeeded = b ∧ r.stop = (if b then m.state.stop else 0) ∧
      r.matched = (b && r.stop == text.length) ∧
      r.tree = .root 0 r.stop m.state.captures.nodes ∧
      if r.matched then r.report = none
      else ∃ report, r.report = some report ∧ p.reportFor text m.failures r.stop = .ok report := by
  simp only [Parser.conclude] at h
  generalize hstop : (if b then m.state.stop else 0) = stop at h
  by_cases hmatched : (b && stop == text.length) = true
  · simp only [hmatched, if_true] at h
    cases h
    exact ⟨rfl, rfl, hmatched.symm, rfl, rfl⟩
  · simp only [hmatched] at h
    cases hreport : p.reportFor text m.failures stop with
    | error e =>
        simp only [hreport] at h
        cases h
    | ok report =>
        simp only [hreport] at h
        cases h
        simp only [Bool.not_eq_true] at hmatched
        exact ⟨rfl, rfl, hmatched.symm, rfl, report, rfl, hreport⟩

/-- Records that cover the same lead to the same report. -/
theorem Farthest.Same.reportFor_eq {text : Text} {stop : Nat} {f f' : Farthest} {x x' : Report}
    (h : f.Same f') (hx : Parser.reportFor ⟨g, root, c⟩ text (.farthest f) stop = .ok x)
    (hx' : Parser.reportFor ⟨g, root, c'⟩ text (.farthest f') stop = .ok x') : x = x' := by
  simp only [Parser.reportFor, Failures.report] at hx hx'
  cases hmade : f.report g text with
  | error e =>
      simp only [hmade] at hx
      cases hx
  | ok report =>
      cases hmade' : f'.report g text with
      | error e =>
          simp only [hmade'] at hx'
          cases hx'
      | ok report' =>
          obtain rfl := h.report_eq hmade hmade'
          simp only [hmade] at hx
          simp only [hmade'] at hx'
          exact Except.ok.inj (hx.symm.trans hx')

/-- Results with the same end and records that cover the same differ in captures and counters
    only. -/
theorem conclude_agree {text : Text} {b : Bool} {m m' : Machine} {f f' : Farthest}
    (h : Parser.conclude ⟨g, root, c⟩ text b m = .ok r)
    (h' : Parser.conclude ⟨g, root, c'⟩ text b m' = .ok r')
    (hstop : m.state.stop = m'.state.stop) (hf : m.failures = .farthest f)
    (hf' : m'.failures = .farthest f') (hsame : f.Same f') :
    r.matched = r'.matched ∧ r.succeeded = r'.succeeded ∧ r.stop = r'.stop ∧
      r.report = r'.report := by
  obtain ⟨hsucceeded, hstop₁, hmatched, -, hreport⟩ := conclude_ok h
  obtain ⟨hsucceeded', hstop₁', hmatched', -, hreport'⟩ := conclude_ok h'
  have hstops : r.stop = r'.stop := by rw [hstop₁, hstop₁', hstop]
  have hmatches : r.matched = r'.matched := by rw [hmatched, hmatched', hstops]
  refine ⟨hmatches, hsucceeded.trans hsucceeded'.symm, hstops, ?_⟩
  rw [← hmatches, ← hstops] at hreport'
  cases hm : r.matched with
  | true =>
      simp only [hm, if_true] at hreport hreport'
      rw [hreport, hreport']
  | false =>
      simp only [hm] at hreport hreport'
      obtain ⟨report, hr, hmade⟩ := hreport
      obtain ⟨report', hr', hmade'⟩ := hreport'
      rw [hf] at hmade
      rw [hf'] at hmade'
      rw [hr, hr', hsame.reportFor_eq hmade hmade']

/-! ## From the first match on -/

theorem ParseState.alike_initial {slotted : Bool} {kinds : List SlotKind} {exact : Prop}
    (hkinds : slotted = true → .quietNames ∉ kinds) :
    (ParseState.initial kinds).Alike slotted exact (.initial (if slotted then kinds else [])) := by
  refine ⟨rfl, rfl, rfl, rfl, ⟨Seeds.canonical_empty, Seeds.canonical_empty, fun key => .none, rfl⟩,
    ?_, fun _ => rfl⟩
  cases slotted with
  | true => exact ⟨rfl, Slots.sound_ofKind (hkinds rfl)⟩
  | false => rfl

/-- The machine on which the parse without a memo table begins. -/
def Coupling.start (C : Coupling) (c : Config) : Machine :=
  .initial { Config.unmemoized C.depth with slots := if C.slotted then c.slots else [] }

/-- What a parse is asked to begin with. -/
structure Coupling.Begins (C : Coupling) (c : Config) : Prop where
  slots : C.slotted = true → .quietNames ∉ c.slots
  failures : C.reports → c.failures = .farthest ∧ C.failures {} {}
  kept : ∀ id expr, C.grammar.node? id = some expr →
    memoizes ⟨C.grammar, C.text, c⟩ expr = true → C.kept id

theorem Coupling.coupled_initial {C : Coupling} (h : C.Begins c) :
    C.Coupled (.initial c) (C.start c) := by
  refine ⟨ParseState.alike_initial h.slots, rfl, ⟨{}, {}, ?_, rfl, ?_⟩, ?_⟩
  · intro hreports
    obtain ⟨hc, hempty⟩ := h.failures hreports
    rw [Machine.initial, hc]
    exact ⟨rfl, hempty⟩
  · intro key o hheld
    exact absurd hheld (Table.not_holds_empty key o)
  · intro _ key o hheld
    exact absurd hheld (Table.not_holds_empty key o)

/-- A parse from the start is followed by the parse that keeps no outcome. -/
theorem Coupling.invoke_initial {C : Coupling} (h : C.Begins c) (hadmits : C.Admits root)
    {nesting : Nat} {b : Bool} {m : Machine}
    (hrun : invoke ⟨C.grammar, C.text, c⟩ nesting root (.initial c) = .ok b m) :
    ∃ n k, (∀ j, k ≤ j → invoke C.setting j root (C.start c) = .ok b n) ∧ C.Coupled m n := by
  obtain ⟨_, n, k, hrun', -, rfl, hcoupled⟩ := invoke_follows c nesting C h.kept root _ _ hadmits
    (ready_initial C.grammar c) (C.coupled_initial h) b m hrun
  exact ⟨n, k, hrun', hcoupled⟩

/-! ## Recognition and reports -/

/-- Compares where matches end and what failures cover. -/
def Coupling.recognition (g : Grammar) (text : Text) : Coupling :=
  .loose g text 0 false True Farthest.Same (fun h => h.record _ _) fun h hcovers =>
    h.record_again hcovers

theorem Coupling.recognition_begins (g : Grammar) (text : Text) (hc : c.failures = .farthest) :
    (recognition g text).Begins c :=
  ⟨nofun, fun _ => ⟨hc, .refl_empty⟩, fun _ _ _ _ => trivial⟩

/-- Whatever two parses of a text memoize, and whatever their limits are: if both give a result,
    they agree on whether and where the root matched and on what was expected. -/
theorem parseWith_recognition (hroot : g.root = some root) (hfree : g.CustomFree root)
    (hc : c.failures = .farthest) (hc' : c'.failures = .farthest)
    (h : (parseWith g c source).outcome = .ok r) (h' : (parseWith g c' source).outcome = .ok r') :
    r.matched = r'.matched ∧ r.succeeded = r'.succeeded ∧ r.stop = r'.stop ∧
      r.report = r'.report := by
  obtain ⟨b, m, hrun, hconclude, -⟩ := parseWith_ok hroot h
  obtain ⟨b', m', hrun', hconclude', -⟩ := parseWith_ok hroot h'
  have hadmits : (Coupling.recognition g (.ofString source)).Admits root := ⟨nofun, nofun, fun _ => hfree⟩
  obtain ⟨n, k, hfollows, hcoupled⟩ :=
    Coupling.invoke_initial (Coupling.recognition_begins g _ hc) hadmits hrun
  obtain ⟨n', k', hfollows', hcoupled'⟩ :=
    Coupling.invoke_initial (Coupling.recognition_begins g _ hc') hadmits hrun'
  -- with enough nesting for both, the parse that follows them is the same
  have hone : EStateM.Result.ok b n = .ok b' n' :=
    (hfollows (max k k') (le_max_left k k')).symm.trans (hfollows' (max k k') (le_max_right k k'))
  cases hone
  obtain ⟨f, f₀, hrecorded, hf₀, -⟩ := hcoupled.recorded
  obtain ⟨f', f₀', hrecorded', hf₀', -⟩ := hcoupled'.recorded
  obtain ⟨hf, hsame⟩ := hrecorded trivial
  obtain ⟨hf', hsame'⟩ := hrecorded' trivial
  cases hf₀.symm.trans hf₀'
  have hstop : m.state.stop = m'.state.stop :=
    hcoupled.state.stop.trans hcoupled'.state.stop.symm
  exact conclude_agree hconclude hconclude' hstop hf hf' (hsame.trans hsame'.symm)

theorem Grammar.customFree_of_mem {id : ExprId}
    (h : ∀ expr ∈ g.nodes, ∀ spec children, expr.shape ≠ .custom spec children) :
    g.CustomFree id := by
  intro i _ spec children hshape
  obtain ⟨expr, hnode, hexpr⟩ := Option.map_eq_some_iff.mp hshape
  exact h expr (Array.mem_of_getElem? hnode) spec children hexpr

theorem exists_of_toOption {α β : Type} {x : Except Fault α} {f : α → β} {b : β}
    (h : x.toOption.map f = some b) : ∃ a, x = .ok a ∧ f a = b := by
  cases x with
  | ok a => exact ⟨a, rfl, Option.some.inj h⟩
  | error e => cases h

theorem exists_of_answer {α β : Type} {x : EStateM.Result Fault Machine α} {f : Machine → β} {a : α}
    {v : β} (h : (match x with | .ok a m => some (a, f m) | .error _ _ => none) = some (a, v)) :
    ∃ m, x = .ok a m ∧ f m = v := by
  cases x with
  | ok a' m =>
      cases h
      exact ⟨m, rfl, rfl⟩
  | error e m => cases h

/-- A captured letter, followed by any number of signs; the rule is left-recursive. -/
def signed : Grammar :=
  { nodes := #[{ shape := .leftRecursive 1 false, flags := .rule }, .ofShape (.choice [2, 4]),
      .ofShape (.sequence [0, 3]), .ofShape (.literal "+"),
      .ofShape (.capture 5 (.text "letter")), .ofShape (.literal "n")]
    root := some 0
    prepared := true }

theorem customFree_signed : signed.CustomFree 0 :=
  Grammar.customFree_of_mem (by simp [signed, Expr.ofShape])

theorem parseWith_recognition_signed :
    ∃ r r', (parseWith signed { memoization := .none } "n+-").outcome = .ok r ∧
      (parseWith signed { memoization := .all } "n+-").outcome = .ok r' ∧ r.matched = false ∧
      r.report = r'.report := by
  obtain ⟨r, h, hmatched⟩ := exists_of_toOption (f := ParseResult.matched) (b := false)
    (x := (parseWith signed { memoization := .none } "n+-").outcome) (by decide +kernel)
  obtain ⟨r', h', -⟩ := exists_of_toOption (f := ParseResult.matched) (b := false)
    (x := (parseWith signed { memoization := .all } "n+-").outcome) (by decide +kernel)
  exact ⟨r, r', h, h', hmatched, (parseWith_recognition rfl customFree_signed rfl rfl h h').2.2.2⟩

/-! ## Captures -/

/-- For each key of an expression that is memoized, at most one outcome is handed over. -/
def Setting.Coherent (setting : Setting) (log : List LogEntry) : Prop :=
  ∀ key expr o o', setting.grammar.node? key.expr = some expr → memoizes setting expr = true →
    .store key o ∈ log → .store key o' ∈ log → o = o'

/-- Compares captures as long as no outcome is handed over that is not in a given log. -/
def Coupling.capturing (setting : Setting) (depth : Nat) {log : List LogEntry}
    (hlog : setting.Coherent log) : Coupling where
  grammar := setting.grammar
  text := setting.text
  depth := depth
  slotted := false
  reports := True
  failures := fun _ _ => True
  failures_record := fun _ => trivial
  failures_again := fun _ _ => trivial
  exact := fun l => ∀ key o, .store key o ∈ l → .store key o ∈ log
  exact_of_suffix := fun hsuffix h key o hmem => h key o (hsuffix.subset hmem)
  slotted_of_exact := fun _ => rfl
  kept := fun id => ∃ expr, setting.grammar.node? id = some expr ∧ memoizes setting expr = true
  outcome := fun key o => .store key o ∈ log
  outcome_of_mem := fun h hmem => h _ _ hmem
  outcome_unique := by
    rintro key o o' ⟨expr, hnode, hmemoizes⟩ ho ho'
    exact hlog key expr o o' hnode hmemoizes ho ho'

/-- A result has the tree of the parse that keeps no outcome, if that parse is coherent. -/
theorem tree_unmemoized (hfree : g.CustomFree root) (hc : c.failures = .farthest) {text : Text}
    {nesting depth : Nat} {b b₀ : Bool} {m m₀ : Machine}
    (hrun : invoke ⟨g, text, c⟩ nesting root (.initial c) = .ok b m)
    (hconclude : Parser.conclude ⟨g, root, c⟩ text b m = .ok r)
    (hrun₀ : invoke ⟨g, text, .unmemoized depth⟩ depth root (.initial (.unmemoized depth)) =
      .ok b₀ m₀) (hcoherent : Setting.Coherent ⟨g, text, c⟩ m₀.log.reverse) :
    r.tree = .root 0 (if b₀ then m₀.state.stop else 0) m₀.state.captures.nodes := by
  let C := Coupling.capturing ⟨g, text, c⟩ depth hcoherent
  have hbegins : C.Begins c :=
    ⟨nofun, fun _ => ⟨hc, trivial⟩, fun id expr hnode hmemoizes => ⟨expr, hnode, hmemoizes⟩⟩
  obtain ⟨n, k, hfollows, hcoupled⟩ :=
    Coupling.invoke_initial hbegins ⟨nofun, nofun, fun _ => hfree⟩ hrun
  have hextended : invoke ⟨g, text, .unmemoized depth⟩ (max k depth) root
      (.initial (.unmemoized depth)) = .ok b₀ m₀ :=
    invoke_extends g text (.unmemoized depth) (le_max_right k depth) (.refl none) root _ _ _ hrun₀
  have hone : EStateM.Result.ok b n = .ok b₀ m₀ :=
    (hfollows (max k depth) (le_max_left k depth)).symm.trans hextended
  cases hone
  have hcaptures := hcoupled.state.captures fun _ _ hmem => List.mem_reverse.mpr hmem
  obtain ⟨-, hstop, -, htree, -⟩ := conclude_ok hconclude
  rw [htree, hstop, hcoupled.state.stop, hcaptures]

/-- Whatever two parses of a text memoize: if both give a result, their capture trees are the same,
    provided that a parse which keeps no outcome never finds two under a key that one of them
    memoizes. -/
theorem parseWith_tree (hroot : g.root = some root) (hfree : g.CustomFree root)
    (hc : c.failures = .farthest) (hc' : c'.failures = .farthest)
    (h : (parseWith g c source).outcome = .ok r) (h' : (parseWith g c' source).outcome = .ok r')
    {depth : Nat} {r₀ : ParseResult}
    (h₀ : (parseWith g (.unmemoized depth) source).outcome = .ok r₀)
    (hcoherent : Setting.Coherent ⟨g, .ofString source, c⟩
      (parseWith g (.unmemoized depth) source).log)
    (hcoherent' : Setting.Coherent ⟨g, .ofString source, c'⟩
      (parseWith g (.unmemoized depth) source).log) : r.tree = r'.tree := by
  obtain ⟨b, m, hrun, hconclude, -⟩ := parseWith_ok hroot h
  obtain ⟨b', m', hrun', hconclude', -⟩ := parseWith_ok hroot h'
  obtain ⟨b₀, m₀, hrun₀, -, hlog⟩ := parseWith_ok hroot h₀
  rw [hlog] at hcoherent hcoherent'
  exact (tree_unmemoized hfree hc hrun hconclude hrun₀ hcoherent).trans
    (tree_unmemoized hfree hc' hrun' hconclude' hrun₀ hcoherent').symm

/-- The key and the outcome that are handed over, if it is what the entry tells. -/
def LogEntry.handed? : LogEntry → Option (MemoKey Fingerprint × Option Changes)
  | .store key o => some (key, o)
  | _ => none

/-- A log without repeated keys is coherent. -/
theorem Setting.coherent_of_nodup (setting : Setting) {log : List LogEntry}
    (h : ((log.filterMap LogEntry.handed?).map Prod.fst).Nodup) : setting.Coherent log := by
  intro key expr o o' _ _ ho ho'
  have hmem : ∀ o, .store key o ∈ log → (key, o) ∈ log.filterMap LogEntry.handed? :=
    fun o ho => List.mem_filterMap.mpr ⟨.store key o, ho, rfl⟩
  exact congrArg Prod.snd (List.inj_on_of_nodup_map h (hmem o ho) (hmem o' ho') rfl)

theorem parseWith_tree_signed :
    ∃ r r', (parseWith signed { memoization := .none } "n+").outcome = .ok r ∧
      (parseWith signed { memoization := .all } "n+").outcome = .ok r' ∧ r.matched = true ∧
      r.tree = r'.tree := by
  obtain ⟨r, h, hmatched⟩ := exists_of_toOption (f := ParseResult.matched) (b := true)
    (x := (parseWith signed { memoization := .none } "n+").outcome) (by decide +kernel)
  obtain ⟨r', h', -⟩ := exists_of_toOption (f := ParseResult.matched) (b := true)
    (x := (parseWith signed { memoization := .all } "n+").outcome) (by decide +kernel)
  obtain ⟨r₀, h₀, -⟩ := exists_of_toOption (f := ParseResult.matched) (b := true)
    (x := (parseWith signed (.unmemoized 8) "n+").outcome) (by decide +kernel)
  have hnodup : (((parseWith signed (.unmemoized 8) "n+").log.filterMap LogEntry.handed?).map
      Prod.fst).Nodup := by decide +kernel
  exact ⟨r, r', h, h', hmatched, parseWith_tree rfl customFree_signed rfl rfl h h' h₀
    (Setting.coherent_of_nodup _ hnodup) (Setting.coherent_of_nodup _ hnodup)⟩

/-- The left-recursive rule 4 is entered twice at the same place.  Under the floor that the first
    choice sets, its cluster is out of reach and the letter is captured as `low`; without it, the
    cluster captures the letter as `high`.  Both seeds end at the same position, and the rule 14
    sees nothing but the seed. -/
def floored : Grammar :=
  { nodes := #[{ shape := .choice [1, 4], flags := .rule }, .ofShape (.sequence [2, 3]),
      .ofShape (.minPrecedence 4 11), .ofShape (.literal "!"),
      { shape := .leftRecursive 5 false, flags := .rule }, .ofShape (.choice [6, 9, 12]),
      .ofShape (.sequence [7, 8]), .ofShape (.minPrecedence 14 0), .ofShape (.literal "+"),
      .ofShape (.cluster [⟨10, .once, [10]⟩]), .ofShape (.capture 11 (.text "high")),
      .ofShape (.literal "n"), .ofShape (.capture 13 (.text "low")), .ofShape (.literal "n"),
      { shape := .choice [4], flags := .rule }]
    root := some 0 }

theorem prepare_floored :
    Grammar.prepare {} floored = .ok ⟨0, [], 0⟩ { floored with prepared := true } := by
  cbv

/-- Without the condition, memoization changes the tree of a prepared grammar. -/
theorem tree_floored_ne :
    ∃ g report r r', Grammar.prepare {} floored = .ok report g ∧ g.CustomFree 0 ∧
      (parseWith g { memoization := .none } "n+").outcome = .ok r ∧
      (parseWith g { memoization := .rules } "n+").outcome = .ok r' ∧ r.tree ≠ r'.tree := by
  let accessors := fun r : ParseResult => r.tree.children.map CaptureNode.accessor
  obtain ⟨r, h, hr⟩ := exists_of_toOption (f := accessors) (b := [some "high"])
    (x := (parseWith { floored with prepared := true } { memoization := .none } "n+").outcome)
    (by decide +kernel)
  obtain ⟨r', h', hr'⟩ := exists_of_toOption (f := accessors) (b := [some "low"])
    (x := (parseWith { floored with prepared := true } { memoization := .rules } "n+").outcome)
    (by decide +kernel)
  refine ⟨_, _, r, r', prepare_floored, ?_, h, h', ?_⟩
  · exact Grammar.customFree_of_mem (by simp [floored, Expr.ofShape])
  · intro heq
    have hsame : accessors r = accessors r' := by simp only [accessors, heq]
    rw [hr, hr'] at hsame
    revert hsame
    decide

end Packrat
